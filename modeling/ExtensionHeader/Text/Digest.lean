import ExtensionHeader.Text

/-! The 64-bit XXH64 digest of a byte sequence, with seed zero. -/
namespace ExtensionHeader.Text.Digest

def prime1 : UInt64 := 0x9E3779B185EBCA87
def prime2 : UInt64 := 0xC2B2AE3D27D4EB4F
def prime3 : UInt64 := 0x165667B19E3779F9
def prime4 : UInt64 := 0x85EBCA77C2B2AE63
def prime5 : UInt64 := 0x27D4EB2F165667C5

def rotate (w : UInt64) (n : UInt64) : UInt64 := w <<< n ||| w >>> (64 - n)

def word (n : Nat) (bytes : List UInt8) : UInt64 :=
  (bytes.take n).foldr (fun b w => w <<< 8 ||| b.toUInt64) 0

def mix (lane input : UInt64) : UInt64 := rotate (lane + input * prime2) 31 * prime1

structure Lanes where
  a : UInt64
  b : UInt64
  c : UInt64
  d : UInt64

namespace Lanes

def start : Lanes := ⟨prime1 + prime2, prime2, 0, 0 - prime1⟩

def absorb (l : Lanes) (bytes : List UInt8) : Lanes :=
  ⟨mix l.a (word 8 bytes), mix l.b (word 8 (bytes.drop 8)), mix l.c (word 8 (bytes.drop 16)),
    mix l.d (word 8 (bytes.drop 24))⟩

def absorbAll (l : Lanes) : Nat → List UInt8 → Lanes
  | 0, _ => l
  | n + 1, bytes => (l.absorb bytes).absorbAll n (bytes.drop 32)

def join (l : Lanes) : UInt64 :=
  [l.a, l.b, l.c, l.d].foldl (fun h lane => (h ^^^ mix 0 lane) * prime1 + prime4)
    (rotate l.a 1 + rotate l.b 7 + rotate l.c 12 + rotate l.d 18)

end Lanes

def words (h : UInt64) : Nat → List UInt8 → UInt64
  | 0, _ => h
  | n + 1, bytes =>
    words (rotate (h ^^^ mix 0 (word 8 bytes)) 27 * prime1 + prime4) n (bytes.drop 8)

def byte (h : UInt64) (b : UInt8) : UInt64 := rotate (h ^^^ b.toUInt64 * prime5) 11 * prime1

def rest (h : UInt64) (bytes : List UInt8) : UInt64 :=
  if 4 ≤ bytes.length then
    (bytes.drop 4).foldl byte (rotate (h ^^^ word 4 bytes * prime1) 23 * prime2 + prime3)
  else bytes.foldl byte h

def avalanche (h : UInt64) : UInt64 :=
  let h := (h ^^^ h >>> 33) * prime2
  let h := (h ^^^ h >>> 29) * prime3
  h ^^^ h >>> 32

def ofBytes (bytes : List UInt8) : UInt64 :=
  let length := bytes.length
  let stripes := length / 32
  let h := if stripes = 0 then prime5 else (Lanes.start.absorbAll stripes bytes).join
  let bytes := bytes.drop (32 * stripes)
  let count := bytes.length / 8
  avalanche (rest (words (h + UInt64.ofNat length) count bytes) (bytes.drop (8 * count)))

def ofText (s : String) : UInt64 := ofBytes (bytes s)

end ExtensionHeader.Text.Digest
