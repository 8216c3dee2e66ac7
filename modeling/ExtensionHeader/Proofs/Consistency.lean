import ExtensionHeader.Proofs.Collision
import ExtensionHeader.Proofs.Hierarchy

/-! What validation asks of an extension, said without the order in which the checks go through it:
each declaration is in order by itself, no two have one name or identifier, and inheritance has no
cycles and leaves final classes alone. -/
namespace ExtensionHeader

open Validation Hierarchy

namespace Sequence

variable {key : α → κ} {xs : List α}

/-- A traversal that compares each element with the earlier ones by a key asks that each element
passes by itself and that the keys are distinct. -/
theorem flatMapEarlier_eq_nil_iff_nodup {f : List α → α → List β}
    (hf : ∀ earlier x, f earlier x = [] ↔ f [] x = [] ∧ ∀ y ∈ earlier, key y ≠ key x) :
    flatMapEarlier f xs = [] ↔ (∀ x ∈ xs, f [] x = []) ∧ (xs.map key).Nodup := by
  rw [flatMapEarlier_eq_nil_iff, nodup_map_iff_earlier]
  constructor
  · intro h
    refine ⟨fun x hx => ?_, fun before x after hxs => ((hf _ _).mp (h before x after hxs)).2⟩
    obtain ⟨before, after, hxs⟩ := List.append_of_mem hx
    exact ((hf _ _).mp (h before x after hxs)).1
  · rintro ⟨hself, hkeys⟩ before x after hxs
    exact (hf _ _).mpr ⟨hself x (by simp [hxs]), hkeys before x after hxs⟩

end Sequence

namespace Validation

theorem any_eq_false_iff {κ : Type} [DecidableEq κ] {key : α → κ} {earlier : List α} {k : κ} :
    earlier.any (key · = k) = false ↔ ∀ y ∈ earlier, key y ≠ k := by
  rw [List.any_eq_false]
  simp only [decide_eq_true_eq, ne_eq]

theorem ofFunction_eq_nil_iff (earlier : List Function) (f : Function) :
    ofFunction earlier f = [] ↔
      ofFunction [] f = [] ∧ ∀ g ∈ earlier, g.name.folded ≠ f.name.folded := by
  simp only [ofFunction, List.append_eq_nil_iff, Diagnostic.when_eq_nil_iff, any_eq_false_iff,
    List.any_nil, and_true]
  tauto

theorem ofClass_eq_nil_iff (earlier : List Class) (c : Class) :
    ofClass earlier c = [] ↔
      ofClass [] c = [] ∧ ∀ d ∈ earlier, d.name.folded ≠ c.name.folded := by
  simp only [ofClass, List.append_eq_nil_iff, Diagnostic.when_eq_nil_iff, any_eq_false_iff,
    List.any_nil, and_true]
  tauto

namespace Claim

/-- Claims on one identifier of one family have one key. -/
def Agree (claims : List Claim) : Prop :=
  ∀ a ∈ claims, ∀ b ∈ claims, a.family = b.family → a.identifier = b.identifier → a.key = b.key

theorem agree_iff (claims : List Claim) :
    Sequence.flatMapEarlier ofClaim claims = [] ↔ Agree claims := by
  constructor
  · exact fun h a ha b hb hfamily hidentifier =>
      key_eq_of_identifier_eq h ha hb hfamily hidentifier
  · intro h
    rw [Sequence.flatMapEarlier_eq_nil_iff]
    rintro before claim after rfl
    unfold ofClaim
    cases hfirst : before.find? claim.contends with
    | none => rfl
    | some first =>
      have hcontends := List.find?_some hfirst
      simp only [contends, Bool.and_eq_true, decide_eq_true_eq] at hcontends
      have hmem := List.mem_append_left (claim :: after) (List.mem_of_find?_eq_some hfirst)
      have hkey := h first hmem claim (by simp) hcontends.1.symm hcontends.2.symm
      simpa using hkey

def shared (e : Extension) : List Claim :=
  e.functionNamespaces.map (ofNamespace e.path) ++ e.functions.flatMap ofFunction ++
    e.classes.flatMap fun c => classSymbol c :: c.methods.map (ofMethod c)

theorem mem_ofExtension_iff {e : Extension} {claim : Claim} :
    claim ∈ ofExtension e ↔ claim ∈ shared e ∨
      ∃ c position, e.classes[position]? = some c ∧
        ∃ q ∈ c.supertypes, claim = ofSupertype c position q := by
  have hshared : (∃ c ∈ e.classes, claim ∈ classSymbol c :: c.methods.map (ofMethod c)) ↔
      ∃ c, ∃ position : Nat, e.classes[position]? = some c ∧
        claim ∈ classSymbol c :: c.methods.map (ofMethod c) := by
    constructor
    · rintro ⟨c, hc, hclaim⟩
      obtain ⟨position, hposition⟩ := List.mem_iff_getElem?.mp hc
      exact ⟨c, position, hposition, hclaim⟩
    · rintro ⟨c, position, hposition, hclaim⟩
      exact ⟨c, List.mem_of_getElem? hposition, hclaim⟩
  have hclass : ∀ c position, claim ∈ ofClass c position ↔
      claim ∈ classSymbol c :: c.methods.map (ofMethod c) ∨
        ∃ q ∈ c.supertypes, claim = ofSupertype c position q := by
    intro c position
    simp only [ofClass, classSymbol, List.cons_append, List.mem_cons, List.mem_append,
      List.mem_map, eq_comm (a := claim)]
    exact (or_congr_right or_comm).trans or_assoc.symm
  unfold ofExtension shared
  rw [List.mem_append, List.mem_append (t := e.classes.flatMap _), List.mem_flatMap,
    List.mem_flatMap (l := e.classes), hshared, or_assoc]
  simp only [Prod.exists, List.mk_mem_zipIdx_iff_getElem?, hclass, and_or_left, exists_or]

theorem family_of_mem_shared {e : Extension} {claim : Claim} (h : claim ∈ shared e)
    (position : Nat) : claim.family ≠ .handle position := by
  simp only [shared, List.mem_append, List.mem_map, List.mem_flatMap, List.mem_cons] at h
  rcases h with (⟨path, -, rfl⟩ | ⟨f, -, h⟩) | ⟨c, -, rfl | ⟨m, -, rfl⟩⟩
  · exact Family.noConfusion
  · simp only [ofFunction, List.mem_cons, List.not_mem_nil, or_false] at h
    rcases h with rfl | rfl <;> exact Family.noConfusion
  · exact Family.noConfusion
  · exact Family.noConfusion

theorem classHandle_inj {q r : QualifiedName} :
    Identifier.classHandle q = Identifier.classHandle r ↔
      Identifier.ofName q = Identifier.ofName r :=
  String.append_right_inj _

theorem agree_ofExtension_iff (e : Extension) :
    Agree (ofExtension e) ↔ Agree (shared e) ∧
      ∀ c ∈ e.classes, ∀ q ∈ c.supertypes, ∀ r ∈ c.supertypes,
        Identifier.ofName q = Identifier.ofName r → q.folded = r.folded := by
  constructor
  · intro h
    refine ⟨fun a ha b hb => h a (mem_ofExtension_iff.mpr (.inl ha)) b
      (mem_ofExtension_iff.mpr (.inl hb)), ?_⟩
    intro c hc q hq r hr hname
    obtain ⟨position, hposition⟩ := List.mem_iff_getElem?.mp hc
    have hmem : ∀ s ∈ c.supertypes, ofSupertype c position s ∈ ofExtension e := fun s hs =>
      mem_ofExtension_iff.mpr (.inr ⟨c, position, hposition, s, hs, rfl⟩)
    have hkey := h _ (hmem q hq) _ (hmem r hr) rfl (classHandle_inj.mpr hname)
    exact (String.append_right_inj _).mp hkey
  · rintro ⟨hshared, hhandles⟩ a ha b hb hfamily hidentifier
    rcases mem_ofExtension_iff.mp ha with ha | ⟨c, position, hc, q, hq, rfl⟩
    · rcases mem_ofExtension_iff.mp hb with hb | ⟨d, position, -, r, -, rfl⟩
      · exact hshared a ha b hb hfamily hidentifier
      · exact absurd hfamily (family_of_mem_shared ha position)
    · rcases mem_ofExtension_iff.mp hb with hb | ⟨d, other, hd, r, hr, rfl⟩
      · exact absurd hfamily.symm (family_of_mem_shared hb position)
      · -- The family of a handle holds the position of the class.
        cases hfamily
        cases hc.symm.trans hd
        have hname := classHandle_inj.mp hidentifier
        exact congrArg ("supertype:" ++ ·)
          (hhandles c (List.mem_of_getElem? hc) q hq r hr hname)

end Claim

end Validation

structure Extension.Consistent (e : Extension) : Prop where
  path : ∀ s ∈ e.path, Identifier.isValid s = true
  function : ∀ f ∈ e.functions, ofFunction [] f = []
  functions : (e.functions.map (·.name.folded)).Nodup
  cls : ∀ c ∈ e.classes, ofClass [] c = []
  classes : (e.classes.map (·.name.folded)).Nodup
  acyclic : ∀ key, ¬ Relation.TransGen (Inherits e.classes) key key
  parent : ∀ c ∈ e.classes, ∀ q, c.parent? = some q →
    ∀ d ∈ e.classes, d.name.folded = q.folded → d.isFinal = false
  claims : Claim.Agree (Claim.shared e)
  supertypes : ∀ c ∈ e.classes, ∀ q ∈ c.supertypes, ∀ r ∈ c.supertypes,
    Identifier.ofName q = Identifier.ofName r → q.folded = r.folded

namespace Validation

theorem members_eq_nil_iff (e : Extension) :
    members e = [] ↔ (∀ s ∈ e.path, Identifier.isValid s = true) ∧
      ((∀ f ∈ e.functions, ofFunction [] f = []) ∧ (e.functions.map (·.name.folded)).Nodup) ∧
      (∀ c ∈ e.classes, ofClass [] c = []) ∧ (e.classes.map (·.name.folded)).Nodup := by
  unfold members
  rw [List.append_eq_nil_iff, List.append_eq_nil_iff, ofPath_eq_nil_iff,
    Sequence.flatMapEarlier_eq_nil_iff_nodup ofFunction_eq_nil_iff,
    Sequence.flatMapEarlier_eq_nil_iff_nodup ofClass_eq_nil_iff, and_assoc]

theorem ofParents_eq_nil_iff {classes : List Class} (h : (classes.map (·.name.folded)).Nodup) :
    classes.flatMap (ofParent (ofClasses classes)) = [] ↔
      ∀ c ∈ classes, ∀ q, c.parent? = some q →
        ∀ d ∈ classes, d.name.folded = q.folded → d.isFinal = false := by
  have hfind : ∀ name d, classes.find? (·.name.folded = name) = some d ↔
      d ∈ classes ∧ d.name.folded = name := fun _ _ => Sequence.find?_eq_some_iff h
  rw [List.flatMap_eq_nil_iff]
  apply forall₂_congr
  intro c hc
  simp only [ofParent_eq_nil_iff, hfind, and_imp]
  constructor
  · intro hparent
    exact hparent c hc rfl
  · intro hparent first hfirst hname
    rwa [List.inj_on_of_nodup_map h hfirst hc hname]

theorem errors_eq_nil_iff (e : Extension) :
    (e.validate .lenient).errors = [] ↔ e.Consistent := by
  have herrors : (e.validate .lenient).errors = [] ↔
      members e = [] ∧ (e.hierarchy.cycles.flatMap ofCycle = [] ∧
        e.classes.flatMap (ofParent e.hierarchy) = []) ∧ collisions e = [] := by
    simp only [Extension.validate, inheritance, List.append_eq_nil_iff, and_assoc]
  have hcollisions : collisions e = [] ↔ _ :=
    (Claim.agree_iff _).trans (Claim.agree_ofExtension_iff e)
  rw [herrors, hcollisions, members_eq_nil_iff]
  unfold Extension.hierarchy
  rw [acyclic_iff]
  constructor
  · rintro ⟨⟨hpath, ⟨hfunction, hfunctions⟩, hcls, hclasses⟩, ⟨hacyclic, hparent⟩, hclaims,
      hhandles⟩
    exact ⟨hpath, hfunction, hfunctions, hcls, hclasses, hacyclic,
      (ofParents_eq_nil_iff hclasses).mp hparent, hclaims, hhandles⟩
  · intro h
    exact ⟨⟨h.path, ⟨h.function, h.functions⟩, h.cls, h.classes⟩,
      ⟨h.acyclic, (ofParents_eq_nil_iff h.classes).mpr h.parent⟩, h.claims, h.supertypes⟩

end Validation

end ExtensionHeader
