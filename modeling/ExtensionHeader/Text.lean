/-! Texts as they are written: lines of C source, and string literals of C and of PHP. A block is a
list of lines; every line ends in a newline and each level of indentation is one tab. -/
namespace ExtensionHeader.Text

structure Line where
  depth : Nat := 0
  text : String
deriving DecidableEq, Repr, Inhabited

namespace Line

def blank : Line := ⟨0, ""⟩

def render (l : Line) : String := "".pushn '\t' l.depth ++ l.text ++ "\n"

def renderAll (lines : List Line) : String := String.join (lines.map render)

end Line

def bit (b : Bool) : String := if b then "1" else "0"

def bytes (s : String) : List UInt8 := s.toList.flatMap String.utf8EncodeChar

/-! C string literals. Each byte of the UTF-8 form is written on its own, so that the size of a
literal less one is the number of bytes of the text. -/
namespace CLiteral

def digit (n : Nat) : Char := Char.ofNat (48 + n % 8)

/-- Always three octal digits, so a digit that follows is not read as part of the escape. -/
def octal (n : Nat) : List Char := [digit (n / 64), digit (n / 8), digit n]

/-- Question marks are escaped so that no trigraph can form. -/
def escape (b : UInt8) : List Char :=
  match b.toNat with
  | 92 => ['\\', '\\']
  | 34 => ['\\', '"']
  | 10 => ['\\', 'n']
  | 13 => ['\\', 'r']
  | 9 => ['\\', 't']
  | 63 => ['\\', '?']
  | n => if 32 ≤ n ∧ n ≤ 126 then [Char.ofNat n] else '\\' :: octal n

def quote (s : String) : String :=
  String.ofList ('"' :: (bytes s).flatMap escape ++ ['"'])

end CLiteral

/-! Double-quoted PHP strings. A dollar sign is escaped because it would start an interpolation. -/
namespace PhpLiteral

def escape (c : Char) : List Char :=
  match c with
  | '\\' => ['\\', '\\']
  | '"' => ['\\', '"']
  | '$' => ['\\', '$']
  | '\n' => ['\\', 'n']
  | c => [c]

def quote (s : String) : String :=
  String.ofList ('"' :: s.toList.flatMap escape ++ ['"'])

end PhpLiteral

end ExtensionHeader.Text
