import ExtensionHeader.Proofs.Emission
import ExtensionHeader.Proofs.Reading.Lines
import ExtensionHeader.Proofs.Sameness

/-! Sharing argument information does not change what the header means. A signature is told from
others by its digest first, and signatures that are the same have one digest and one block, unless a
default is the negative zero: it equals zero and is written with its sign. -/
namespace ExtensionHeader

open Header

def Signature.Unsigned (s : Signature) : Prop :=
  ∀ p ∈ s.parameters, p.default? ≠ some (.float .negativeZero)

instance (s : Signature) : Decidable s.Unsigned :=
  inferInstanceAs (Decidable (∀ p ∈ s.parameters, p.default? ≠ some (.float .negativeZero)))

theorem Binary64.zeroSign?_canonical {x : Binary64} (hx : x ≠ negativeZero) :
    x.canonical.zeroSign? = x.zeroSign? := by
  unfold zeroSign?
  rw [isZero_canonical]
  split
  · rename_i hzero
    rw [eq_zero_of_isZero hzero hx]
    rfl
  · rfl

theorem Parameter.zeroSign?_canonical {p : Parameter}
    (h : p.default? ≠ some (.float .negativeZero)) : p.canonical.zeroSign? = p.zeroSign? := by
  unfold zeroSign? canonical
  cases hd : p.default? with
  | none => rfl
  | some value =>
    cases value with
    | float x =>
      have hx : x ≠ .negativeZero := fun heq => h (heq ▸ hd)
      exact Binary64.zeroSign?_canonical hx
    | _ => rfl

namespace Signature

variable {s t : Signature}

theorem Unsigned.zeroSigns_eq (h : s.Unsigned) :
    s.parameters.map (·.zeroSign?) = (s.parameters.map (·.canonical)).map (·.zeroSign?) := by
  rw [List.map_map]
  exact List.map_congr_left fun p hp => (Parameter.zeroSign?_canonical (h p hp)).symm

theorem Same.sameZeros_of_unsigned (h : s.Same t) (hs : s.Unsigned) (ht : t.Unsigned) :
    s.SameZeros t := by
  unfold SameZeros
  rw [hs.zeroSigns_eq, ht.zeroSigns_eq, h.parameters]

end Signature

namespace Header.ArgInfo

def text : ArgInfo → String
  | block name s => opening name s ++ "\n" ++
      String.join (s.parameters.map fun p => "\t" ++ argument p ++ "\n") ++ "ZEND_END_ARG_INFO()\n"
  | synonym name owner => "#define " ++ name ++ " " ++ owner ++ "\n"

theorem text_eq (item : ArgInfo) : (Section.argInfo item).text = item.text := by
  have hparameter : ∀ text, (⟨1, text⟩ : Text.Line).written = "\t" ++ text := fun _ => rfl
  unfold Section.text Section.lines
  cases item with
  | block name s =>
    unfold lines Header.block
    simp only [List.map_append, List.map_cons, List.map_nil, List.map_map, String.join_append,
      String.join_cons, String.join_nil, Function.comp_def, Text.Line.written_zero, hparameter]
    rw [String.append_empty]
    rfl
  | synonym name owner =>
    unfold lines
    simp only [List.map_cons, List.map_nil, String.join_cons, String.join_nil,
      Text.Line.written_zero]
    rw [String.append_empty]
    rfl

theorem text_congr {item other : ArgInfo} (h : item.lines = other.lines) :
    item.text = other.text := by
  have htext : ∀ item : ArgInfo,
      item.text = String.join (item.lines.map fun l => l.written ++ "\n") :=
    fun item => item.text_eq.symm
  rw [htext, htext, h]

theorem exists_text_block_eq (s : Signature) :
    ∃ front rest, ∀ name, (block name s).text = front ++ name ++ rest := by
  have hcall : ∀ macroName next args, ∃ front rest, ∀ name,
      call macroName (name :: next :: args) = front ++ name ++ rest :=
    fun _ next args => ⟨_, _, fun name => call_cons _ name (List.cons_ne_nil next args)⟩
  have hopening : ∃ front rest, ∀ name, opening name s = front ++ name ++ rest := by
    unfold opening
    dsimp only
    split
    · exact hcall _ _ _
    · exact hcall _ _ _
  obtain ⟨front, rest, hopening⟩ := hopening
  refine ⟨front, rest ++ ("\n" ++ String.join (s.parameters.map fun p =>
    "\t" ++ argument p ++ "\n") ++ "ZEND_END_ARG_INFO()\n"), fun name => ?_⟩
  unfold text
  simp only [hopening, String.append_assoc]

def shared (earlier : List (String × Signature)) (declaration : String × Signature) : ArgInfo :=
  match earlier.find? (·.2.Same declaration.2) with
  | some owner => synonym declaration.1 owner.1
  | none => block declaration.1 declaration.2

section shared

variable {earlier : List (String × Signature)} {declaration owner : String × Signature}

theorem shared_of_find?_eq_some (h : earlier.find? (·.2.Same declaration.2) = some owner) :
    shared earlier declaration = synonym declaration.1 owner.1 := by
  unfold shared
  rw [h]

theorem shared_of_find?_eq_none (h : earlier.find? (·.2.Same declaration.2) = none) :
    shared earlier declaration = block declaration.1 declaration.2 := by
  unfold shared
  rw [h]

end shared

namespace Owners

theorem bucket_add (o : Owners) (declaration : String × Signature) (digest : UInt64) :
    (o.add declaration).bucket digest =
      if declaration.2.digest = digest then o.bucket digest ++ [declaration]
      else o.bucket digest := by
  unfold add bucket
  split
  · rename_i h
    rw [← h, List.lookup_cons_self, Option.getD_some]
  · rename_i h
    have hother : (digest == declaration.2.digest) = false := by
      rw [beq_eq_false_iff_ne]
      exact Ne.symm h
    rw [List.lookup_cons, hother, Sequence.lookup_filter_ne h]

/-- Among signatures without a negative zero, a look-up finds the first of the declarations so far
that has the signature. Those that share use the block of that one and are not recorded. -/
def Covers (o : Owners) (earlier : List (String × Signature)) : Prop :=
  ∀ s : Signature, s.Unsigned → o.find? s = earlier.find? (·.2.Same s)

theorem covers_nil : Covers {} [] := by
  intro s _
  rfl

theorem find?_add {o : Owners} {declaration : String × Signature} {s : Signature}
    (hd : declaration.2.Unsigned) (hs : s.Unsigned) :
    (o.add declaration).find? s =
      (o.find? s).or (if declaration.2.Same s then some declaration else none) := by
  unfold find?
  rw [bucket_add]
  by_cases hdigest : declaration.2.digest = s.digest
  · rw [if_pos hdigest, List.find?_append, List.find?_singleton]
    simp only [decide_eq_true_eq]
  · have hdiffer : ¬ declaration.2.Same s :=
      fun h => hdigest (h.digest_eq (h.sameZeros_of_unsigned hd hs))
    rw [if_neg hdigest, if_neg hdiffer, Option.or_none]

theorem Covers.append_of_find?_eq_none {o : Owners} {earlier : List (String × Signature)}
    {declaration : String × Signature} (h : o.Covers earlier) (hd : declaration.2.Unsigned) :
    (o.add declaration).Covers (earlier ++ [declaration]) := by
  intro s hs
  rw [find?_add hd hs, h s hs, List.find?_append, List.find?_singleton]
  simp only [decide_eq_true_eq]

theorem Covers.append_of_find?_eq_some {o : Owners} {earlier : List (String × Signature)}
    {declaration owner : String × Signature} (h : o.Covers earlier)
    (hd : declaration.2.Unsigned) (howner : o.find? declaration.2 = some owner) :
    o.Covers (earlier ++ [declaration]) := by
  intro s hs
  rw [h s hs, List.find?_append, List.find?_singleton]
  by_cases hsame : declaration.2.Same s
  -- The owner stands before the declaration and has the signature `s` as well.
  · rw [h _ hd] at howner
    have hmem := List.mem_of_find?_eq_some howner
    have hkept := List.find?_some howner
    rw [decide_eq_true_eq] at hkept
    have hsome : (earlier.find? (·.2.Same s)).isSome := by
      rw [List.find?_isSome]
      exact ⟨owner, hmem, decide_eq_true (hkept.trans hsame)⟩
    rw [Option.or_of_isSome hsome]
  · simp [hsame]

end Owners

theorem share_eq_mapEarlierFrom {owners : Owners} {earlier rest : List (String × Signature)}
    (h : owners.Covers earlier) (hrest : ∀ d ∈ rest, d.2.Unsigned) :
    share owners rest = Sequence.mapEarlierFrom shared earlier rest := by
  induction rest generalizing owners earlier with
  | nil => rfl
  | cons d rest ih =>
    obtain ⟨hd, hrest⟩ := List.forall_mem_cons.mp hrest
    have hearlier := h d.2 hd
    unfold share Sequence.mapEarlierFrom
    cases hfind : owners.find? d.2 with
    | some owner =>
      rw [shared_of_find?_eq_some (hearlier ▸ hfind),
        ← ih (h.append_of_find?_eq_some hd hfind) hrest]
    | none =>
      rw [shared_of_find?_eq_none (hearlier ▸ hfind),
        ← ih (h.append_of_find?_eq_none hd) hrest]

theorem argInfos_true {e : Extension} (h : ∀ d ∈ declarations e, d.2.Unsigned) :
    argInfos true e = Sequence.mapEarlier shared (declarations e) :=
  share_eq_mapEarlierFrom Owners.covers_nil h

/-- The position of the first declaration before `i` that has the signature of the one at `i`. -/
def owner? (declarations : List (String × Signature)) (i : Nat) : Option Nat :=
  declarations[i]?.bind fun d => (declarations.take i).findIdx? (·.2.Same d.2)

/-- The block under the owner's position, with the name of the declaration itself. -/
def restore (declarations : List (String × Signature)) (items : List ArgInfo) : List ArgInfo :=
  items.mapIdx fun i item =>
    match item with
    | block name s => block name s
    | synonym name owner =>
      match (owner? declarations i).bind (items[·]?) with
      | some (block _ s) => block name s
      | _ => synonym name owner

section owner?

variable {ds : List (String × Signature)} {i j : Nat} {d o : String × Signature}

theorem owner?_eq_none_iff (hd : ds[i]? = some d) :
    owner? ds i = none ↔ ∀ x ∈ ds.take i, ¬ x.2.Same d.2 := by
  unfold owner?
  rw [hd, Option.bind_some, List.findIdx?_eq_none_iff]
  simp only [decide_eq_false_iff_not]

theorem owner?_eq_some_iff (hd : ds[i]? = some d) :
    owner? ds i = some j ↔
      j < i ∧ ∃ o, ds[j]? = some o ∧ o.2.Same d.2 ∧ ∀ x ∈ ds.take j, ¬ x.2.Same d.2 := by
  have hi : i < ds.length := (List.getElem?_eq_some_iff.mp hd).1
  have hlength : (ds.take i).length = i := List.length_take_of_le (by omega)
  unfold owner?
  rw [hd, Option.bind_some, List.findIdx?_eq_some_iff_getElem]
  constructor
  · rintro ⟨hj, hsame, hfirst⟩
    have hji : j < i := by omega
    refine ⟨hji, (ds.take i)[j], ?_, of_decide_eq_true hsame, ?_⟩
    · rw [← List.getElem?_take_of_lt hji, List.getElem?_eq_getElem hj]
    · intro x hx
      obtain ⟨k, hk, rfl⟩ := List.mem_take_iff_getElem.mp hx
      have hkj : k < j := by omega
      have hkept := hfirst k hkj
      rw [List.getElem_take, decide_eq_true_eq] at hkept
      exact hkept
  · rintro ⟨hji, o, ho, hsame, hfirst⟩
    obtain ⟨hj, rfl⟩ := List.getElem?_eq_some_iff.mp ho
    refine ⟨by omega, ?_, ?_⟩
    · rw [List.getElem_take]
      exact decide_eq_true hsame
    · intro k hk
      rw [List.getElem_take, decide_eq_true_eq]
      exact hfirst _ (List.mem_take_iff_getElem.mpr ⟨k, by omega, rfl⟩)

theorem find?_take_of_first (ho : ds[j]? = some o) (hji : j < i) (hsame : o.2.Same d.2)
    (hfirst : ∀ x ∈ ds.take j, ¬ x.2.Same d.2) :
    (ds.take i).find? (·.2.Same d.2) = some o := by
  obtain ⟨hj, rfl⟩ := List.getElem?_eq_some_iff.mp ho
  rw [List.find?_eq_some_iff_getElem]
  refine ⟨decide_eq_true hsame, j, ?_, List.getElem_take, ?_⟩
  · rw [List.length_take]
    omega
  · intro k hk
    rw [List.getElem_take, Bool.not_eq_true', decide_eq_false_iff_not]
    exact hfirst _ (List.mem_take_iff_getElem.mpr ⟨k, by omega, rfl⟩)

end owner?

section items

variable {e : Extension} (h : ∀ d ∈ declarations e, d.2.Unsigned) {i j : Nat}
  {d o : String × Signature}

include h in
theorem getElem?_argInfos_of_fresh (hd : (declarations e)[i]? = some d)
    (hfresh : ∀ x ∈ (declarations e).take i, ¬ x.2.Same d.2) :
    (argInfos true e)[i]? = some (block d.1 d.2) := by
  have hnone : ((declarations e).take i).find? (·.2.Same d.2) = none := by
    rw [List.find?_eq_none]
    intro x hx
    rw [decide_eq_true_eq]
    exact hfresh x hx
  rw [argInfos_true h, Sequence.getElem?_mapEarlier, hd, Option.map_some,
    shared_of_find?_eq_none hnone]

include h in
theorem getElem?_argInfos_of_owner (hd : (declarations e)[i]? = some d)
    (ho : (declarations e)[j]? = some o) (hji : j < i) (hsame : o.2.Same d.2)
    (hfirst : ∀ x ∈ (declarations e).take j, ¬ x.2.Same d.2) :
    (argInfos true e)[j]? = some (block o.1 o.2) ∧
      (argInfos true e)[i]? = some (synonym d.1 o.1) := by
  constructor
  · apply getElem?_argInfos_of_fresh h ho
    intro x hx hxo
    exact hfirst x hx (hxo.trans hsame)
  · rw [argInfos_true h, Sequence.getElem?_mapEarlier, hd, Option.map_some,
      shared_of_find?_eq_some (find?_take_of_first ho hji hsame hfirst)]

include h in
theorem getElem?_argInfos_eq_block_iff (hd : (declarations e)[i]? = some d) :
    (argInfos true e)[i]? = some (block d.1 d.2) ↔
      ∀ x ∈ (declarations e).take i, ¬ x.2.Same d.2 := by
  rw [← owner?_eq_none_iff hd]
  cases hi : owner? (declarations e) i with
  | none =>
    have hblock := getElem?_argInfos_of_fresh h hd ((owner?_eq_none_iff hd).mp hi)
    exact ⟨fun _ => rfl, fun _ => hblock⟩
  | some j =>
    obtain ⟨hji, o, ho, hsame, hfirst⟩ := (owner?_eq_some_iff hd).mp hi
    rw [(getElem?_argInfos_of_owner h hd ho hji hsame hfirst).2]
    simp

include h in
/-- Blocks that stand for other blocks are written out as they are without sharing. -/
theorem texts_restore :
    (restore (declarations e) (argInfos true e)).map (·.text) =
      (argInfos false e).map (·.text) := by
  apply List.ext_getElem?
  intro i
  have hfull : (argInfos false e)[i]? = (declarations e)[i]?.map fun d => block d.1 d.2 :=
    List.getElem?_map
  unfold restore
  rw [List.getElem?_map, List.getElem?_map, List.getElem?_mapIdx, hfull]
  cases hd : (declarations e)[i]? with
  | none =>
    have hnone : (argInfos true e)[i]? = none := by
      rw [argInfos_true h, Sequence.getElem?_mapEarlier, hd, Option.map_none]
    rw [hnone]
    rfl
  | some d =>
    cases hi : owner? (declarations e) i with
    | none =>
      rw [getElem?_argInfos_of_fresh h hd ((owner?_eq_none_iff hd).mp hi)]
      rfl
    | some j =>
      obtain ⟨hji, o, ho, hsame, hfirst⟩ := (owner?_eq_some_iff hd).mp hi
      obtain ⟨hblock, hsynonym⟩ := getElem?_argInfos_of_owner h hd ho hji hsame hfirst
      rw [hsynonym, Option.map_some, Option.map_some, Option.map_some]
      simp only [Option.bind_some, hblock]
      have hzeros := hsame.sameZeros_of_unsigned (h o (List.mem_of_getElem? ho))
        (h d (List.mem_of_getElem? hd))
      exact congrArg some (text_congr (hsame.block_eq hzeros d.1))

end items

theorem length_argInfos {e : Extension} (h : ∀ d ∈ declarations e, d.2.Unsigned) (shares : Bool) :
    (argInfos shares e).length = (declarations e).length := by
  cases shares with
  | false => exact List.length_map _
  | true =>
    rw [argInfos_true h]
    exact Sequence.length_mapEarlierFrom shared [] _

end Header.ArgInfo

namespace Header

theorem not_argInfo_of_mem {hasBanner : Bool} {e : Extension} {routines : List Routine}
    {s : Section} (h : s ∈ leading hasBanner ++ trailing e routines) (item : ArgInfo) :
    s ≠ .argInfo item := by
  intro heq
  subst heq
  unfold leading trailing forward at h
  split at h <;> split at h <;> simp at h

theorem render_argInfos (before after : List Section) (items : List ArgInfo) :
    render (before ++ items.map .argInfo ++ after) = "\n".intercalate
      (before.map (·.text) ++ items.map (·.text) ++ after.map (·.text)) := by
  have hitems : (items.map Section.argInfo).map (·.text) = items.map (·.text) := by
    rw [List.map_map]
    exact List.map_congr_left fun item _ => item.text_eq
  rw [render_eq, List.map_append, List.map_append, hitems]

/-- The headers with and without sharing differ only in the argument information. There the first
declaration with a signature has the same block in both, and later ones are defined as its name;
their own blocks come back when its block is put in their place, under their names. -/
theorem sharing_refines {e : Extension} (h : ∀ d ∈ declarations e, d.2.Unsigned)
    (hasBanner : Bool) :
    ((∃ defect, ∀ shares, emit ⟨shares, hasBanner⟩ e = .error defect) ∨
      ∃ before after : List Section,
        (∀ s ∈ before ++ after, ∀ item, s ≠ .argInfo item) ∧
        (∀ shares, emit ⟨shares, hasBanner⟩ e = .ok ("\n".intercalate
          (before.map (·.text) ++ (argInfos shares e).map (·.text) ++ after.map (·.text)))) ∧
        emit ⟨false, hasBanner⟩ e = .ok ("\n".intercalate (before.map (·.text) ++
          (ArgInfo.restore (declarations e) (argInfos true e)).map (·.text) ++
          after.map (·.text)))) ∧
    (∀ shares, (argInfos shares e).length = (declarations e).length) ∧
    ∀ i d, (declarations e)[i]? = some d →
      (argInfos false e)[i]? = some (.block d.1 d.2) ∧
      ((argInfos true e)[i]? = some (.block d.1 d.2) ↔
        ∀ x ∈ (declarations e).take i, ¬ x.2.Same d.2) ∧
      ∀ j o, (declarations e)[j]? = some o → j < i → o.2.Same d.2 →
        (∀ x ∈ (declarations e).take j, ¬ x.2.Same d.2) →
          (argInfos true e)[j]? = some (.block o.1 o.2) ∧
          (argInfos true e)[i]?.map (·.text) = some ("#define " ++ d.1 ++ " " ++ o.1 ++ "\n") ∧
          ∃ front rest, (ArgInfo.block o.1 o.2).text = front ++ o.1 ++ rest ∧
            (ArgInfo.block d.1 d.2).text = front ++ d.1 ++ rest := by
  refine ⟨?_, ArgInfo.length_argInfos h, ?_⟩
  · cases hr : routines e.interner e.classes with
    | error defect =>
      exact .inl ⟨defect, fun shares => (emit_eq_error_iff _ e defect).mpr hr⟩
    | ok rs =>
      have hemit : ∀ shares, emit ⟨shares, hasBanner⟩ e = .ok ("\n".intercalate
          ((leading hasBanner).map (·.text) ++ (argInfos shares e).map (·.text) ++
            (trailing e rs).map (·.text))) := by
        intro shares
        unfold emit
        rw [sections_eq, hr, ← render_argInfos]
        rfl
      refine .inr ⟨leading hasBanner, trailing e rs, fun s hs => not_argInfo_of_mem hs, hemit, ?_⟩
      rw [hemit false, ArgInfo.texts_restore h]
  · intro i d hd
    refine ⟨?_, ArgInfo.getElem?_argInfos_eq_block_iff h hd, ?_⟩
    · have hfull : (argInfos false e)[i]? = _ := List.getElem?_map
      rw [hfull, hd]
      rfl
    · intro j o ho hji hsame hfirst
      obtain ⟨hblock, hsynonym⟩ := ArgInfo.getElem?_argInfos_of_owner h hd ho hji hsame hfirst
      obtain ⟨front, rest, htext⟩ := ArgInfo.exists_text_block_eq d.2
      have hzeros := hsame.sameZeros_of_unsigned (h o (List.mem_of_getElem? ho))
        (h d (List.mem_of_getElem? hd))
      refine ⟨hblock, ?_, front, rest, ?_, htext d.1⟩
      · rw [hsynonym]
        rfl
      · rw [← htext o.1]
        exact ArgInfo.text_congr (hsame.block_eq hzeros o.1)

/-- Two functions and a method with two signatures. The defaults of the functions are different
values that are both written as `NAN`. -/
def transforms : Extension where
  functions := [
    { name := ⟨[], "scale"⟩
      signature := { parameters := [
        { name := "x", default? := some (.float ⟨0x7ff8000000000000⟩) }] } },
    { name := ⟨[], "shift"⟩
      signature := { parameters := [
        { name := "x", default? := some (.float ⟨0x7ff8000000000001⟩) }] } }]
  classes := [{
    name := ⟨[], "Matrix"⟩
    methods := [{ name := "apply", signature := { parameters := [{ name := "x" }] } }] }]

theorem transforms_shared :
    (∀ d ∈ declarations transforms, d.2.Unsigned) ∧
      (argInfos true transforms)[1]?.map (·.text) =
        some ("#define " ++ "arginfo_shift" ++ " " ++ "arginfo_scale" ++ "\n") ∧
      ∃ before after, emit {} transforms = .ok ("\n".intercalate
        (before ++ (argInfos true transforms).map (·.text) ++ after)) := by
  have h : ∀ d ∈ declarations transforms, d.2.Unsigned := by decide +kernel
  have hroutines : (routines transforms.interner transforms.classes).isOk := by decide +kernel
  obtain ⟨houtput, -, hitems⟩ := sharing_refines h true
  have hshift := (hitems 1 _ rfl).2.2 0 _ rfl (by decide) (by decide +kernel)
    (fun x hx => absurd hx List.not_mem_nil)
  refine ⟨h, hshift.2.1, ?_⟩
  rcases houtput with ⟨defect, herror⟩ | ⟨before, after, -, hemit, -⟩
  · rw [(emit_eq_error_iff _ _ defect).mp (herror true)] at hroutines
    contradiction
  · exact ⟨_, _, hemit true⟩

end Header

end ExtensionHeader
