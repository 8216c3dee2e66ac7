import ExtensionHeader.Proofs.Reordering
import Mathlib.Data.List.Forall2

/-! Declarations can be deleted. Every check either looks at one declaration or forbids that several
of them stand side by side, so what is left of an accepted extension is accepted. A class that is
deleted may still be named by others, which in a closed world is an error and else a warning. -/
namespace ExtensionHeader

open Validation Hierarchy

structure Class.Thins (c c' : Class) : Prop where
  methods : c'.methods.Sublist c.methods
  properties : c'.properties.Sublist c.properties
  kept : c' = { c with methods := c'.methods, properties := c'.properties }

/-- The second extension has some of the functions and classes of the first, in order, and of the
classes some of the methods and properties. -/
structure Extension.Thins (e e' : Extension) : Prop where
  path : e'.path = e.path
  functions : e'.functions.Sublist e.functions
  classes : List.SublistForall₂ (fun c' c => Class.Thins c c') e'.classes e.classes

theorem Sequence.flatMapEarlier_eq_nil_of_sublist {κ : Type} {key : α → κ}
    {f : List α → α → List β}
    (hf : ∀ earlier x, f earlier x = [] ↔ f [] x = [] ∧ ∀ y ∈ earlier, key y ≠ key x)
    {xs ys : List α} (hsub : ys.Sublist xs) (h : flatMapEarlier f xs = []) :
    flatMapEarlier f ys = [] := by
  rw [flatMapEarlier_eq_nil_iff_nodup hf] at h ⊢
  exact ⟨fun y hy => h.1 y (hsub.subset hy), h.2.sublist (hsub.map key)⟩

namespace Validation

theorem ofMethod_eq_nil_iff (c : Class) (earlier : List Method) (m : Method) :
    ofMethod c earlier m = [] ↔
      ofMethod c [] m = [] ∧ ∀ n ∈ earlier, n.name.toLower ≠ m.name.toLower := by
  simp only [ofMethod, List.append_eq_nil_iff, Diagnostic.when_eq_nil_iff, any_eq_false_iff,
    List.any_nil, and_true]
  tauto

theorem ofProperty_eq_nil_iff (c : Class) (earlier : List Property) (p : Property) :
    ofProperty c earlier p = [] ↔
      ofProperty c [] p = [] ∧ ∀ q ∈ earlier, q.name ≠ p.name := by
  simp only [ofProperty, List.append_eq_nil_iff, Diagnostic.when_eq_nil_iff, any_eq_false_iff,
    List.any_nil, and_true]
  tauto

end Validation

namespace Class.Thins

variable {c c' : Class} (h : c.Thins c')

include h

theorem name : c'.name = c.name := by rw [h.kept]

theorem parent? : c'.parent? = c.parent? := by rw [h.kept]

theorem isFinal : c'.isFinal = c.isFinal := by rw [h.kept]

theorem isAbstract : c'.isAbstract = c.isAbstract := by rw [h.kept]

theorem supertypes : c'.supertypes = c.supertypes := by
  rw [h.kept]
  rfl

theorem ofClass_eq_nil (hc : ofClass [] c = []) : ofClass [] c' = [] := by
  -- The checks of a method or a property see nothing of the class but its name and its flags.
  have hmethod : ofMethod c' = ofMethod c := by
    rw [h.kept]
    rfl
  have hproperty : ofProperty c' = ofProperty c := by
    rw [h.kept]
    rfl
  simp only [ofClass, List.append_eq_nil_iff] at hc ⊢
  rw [h.name, h.isAbstract, h.isFinal, hmethod, hproperty]
  exact ⟨⟨hc.1.1, Sequence.flatMapEarlier_eq_nil_of_sublist (ofMethod_eq_nil_iff c) h.methods
    hc.1.2⟩, Sequence.flatMapEarlier_eq_nil_of_sublist (ofProperty_eq_nil_iff c) h.properties hc.2⟩

theorem apart (hc : c.Apart) : c'.Apart := fun p hp r hr =>
  hc p (h.properties.subset hp) r (h.properties.subset hr)

end Class.Thins

namespace Extension.Thins

variable {e e' : Extension} (h : e.Thins e')

include h

theorem exists_class {c' : Class} (hc' : c' ∈ e'.classes) : ∃ c ∈ e.classes, c.Thins c' := by
  obtain ⟨kept, hforall, hsub⟩ := List.sublistForall₂_iff.mp h.classes
  obtain ⟨c, hc, hthins⟩ := Sequence.exists_right_of_forall₂ hforall hc'
  exact ⟨c, hsub.subset hc, hthins⟩

theorem classNames :
    (e'.classes.map (·.name.folded)).Sublist (e.classes.map (·.name.folded)) := by
  obtain ⟨kept, hforall, hsub⟩ := List.sublistForall₂_iff.mp h.classes
  have hnames : e'.classes.map (·.name.folded) = kept.map (·.name.folded) := by
    rw [← List.forall₂_eq_eq_eq, List.forall₂_map_left_iff, List.forall₂_map_right_iff]
    exact hforall.imp fun c' c hc => by rw [hc.name]
  rw [hnames]
  exact hsub.map _

theorem inherits (hnodup : (e.classes.map (·.name.folded)).Nodup) {a b : String}
    (hab : Inherits e'.classes a b) : Inherits e.classes a b := by
  obtain ⟨c', hfind, q, hq, hb⟩ := hab
  rw [Sequence.find?_eq_some_iff (hnodup.sublist h.classNames)] at hfind
  obtain ⟨c, hc, hthins⟩ := h.exists_class hfind.1
  refine ⟨c, ?_, q, hthins.supertypes ▸ hq, hb⟩
  rw [Sequence.find?_eq_some_iff hnodup, ← hthins.name]
  exact ⟨hc, hfind.2⟩

theorem functionNamespaces : e'.functionNamespaces ⊆ e.functionNamespaces := by
  intro path hpath
  unfold Extension.functionNamespaces at hpath ⊢
  rw [List.mem_eraseDups] at hpath ⊢
  exact (h.functions.map _).subset hpath

/-- What is left claims what it has claimed before, and the claims agree whichever comes first. -/
theorem claims : Claim.shared e' ⊆ Claim.shared e := by
  intro claim hclaim
  simp only [Claim.shared, h.path, List.mem_append, List.mem_map, List.mem_flatMap] at hclaim ⊢
  rcases hclaim with (⟨path, hpath, heq⟩ | ⟨f, hf, hmem⟩) | ⟨c', hc', hmem⟩
  · exact .inl (.inl ⟨path, h.functionNamespaces hpath, heq⟩)
  · exact .inl (.inr ⟨f, h.functions.subset hf, hmem⟩)
  · obtain ⟨c, hc, hthins⟩ := h.exists_class hc'
    refine .inr ⟨c, hc, ?_⟩
    have hsymbol : Claim.classSymbol c' = Claim.classSymbol c := by
      unfold Claim.classSymbol
      rw [hthins.name]
    have hmethod : Claim.ofMethod c' = Claim.ofMethod c := by
      unfold Claim.ofMethod
      rw [hthins.name]
    rw [hsymbol, hmethod] at hmem
    exact ((hthins.methods.map _).cons_cons _).subset hmem

theorem consistent (he : e.Consistent) : e'.Consistent where
  path := h.path ▸ he.path
  function := fun f hf => he.function f (h.functions.subset hf)
  functions := he.functions.sublist (h.functions.map _)
  cls := by
    intro c' hc'
    obtain ⟨c, hc, hthins⟩ := h.exists_class hc'
    exact hthins.ofClass_eq_nil (he.cls c hc)
  classes := he.classes.sublist h.classNames
  acyclic := fun key hpath =>
    he.acyclic key (Relation.TransGen.mono (fun _ _ hab => h.inherits he.classes hab) _ _ hpath)
  parent := by
    intro c' hc' q hq d' hd' hname
    obtain ⟨c, hc, hthins⟩ := h.exists_class hc'
    obtain ⟨d, hd, hparent⟩ := h.exists_class hd'
    rw [hparent.isFinal]
    exact he.parent c hc q (hthins.parent? ▸ hq) d hd (hparent.name ▸ hname)
  claims := fun a ha b hb => he.claims a (h.claims ha) b (h.claims hb)
  supertypes := by
    intro c' hc'
    obtain ⟨c, hc, hthins⟩ := h.exists_class hc'
    rw [hthins.supertypes]
    exact he.supertypes c hc

end Extension.Thins

/-- If a header is generated for an extension and names that are not declared are only warned about,
one is generated for what is left when declarations are deleted, with these options or others: no
error and no failure comes about by a deletion. -/
theorem generate_thins {e e' : Extension} (h : e.Thins e') {config config' : Config}
    (hmode : config.mode = .lenient) (hmode' : config'.mode = .lenient)
    (hok : ∃ out, generate config e = .ok out) : ∃ out, generate config' e' = .ok out := by
  rw [generate_ok_iff, hmode, errors_eq_nil_iff] at hok
  rw [generate_ok_iff, hmode', errors_eq_nil_iff]
  refine ⟨h.consistent hok.1, fun c' hc' => ?_⟩
  obtain ⟨c, hc, hthins⟩ := h.exists_class hc'
  exact hthins.apart (hok.2 c hc)

def museum : Extension where
  path := ["Museum"]
  functions := [{ name := ⟨["Museum"], "open"⟩ }, { name := ⟨["Museum"], "close"⟩ }]
  classes := [{ name := ⟨["Museum"], "Exhibit"⟩, isAbstract := true
                methods := [{ name := "describe", isAbstract := true }] },
    { name := ⟨["Museum"], "Painting"⟩, parent? := some ⟨["museum"], "exhibit"⟩
      methods := [{ name := "hang" }, { name := "move", signature :=
        { parameters := [{ name := "beside", type? := some (.cls ⟨["Museum"], "Exhibit"⟩) }] } }]
      properties := [{ name := "year", type? := some (.scalar .int) },
        { name := "pendant", type? := some (.cls ⟨["Museum"], "Exhibit"⟩) }] }]

/-- The first function is gone, the parent, the first method and the first property. What names the
parent is an error in a closed world only. -/
def remains : Extension where
  path := ["Museum"]
  functions := [{ name := ⟨["Museum"], "close"⟩ }]
  classes := [{ name := ⟨["Museum"], "Painting"⟩, parent? := some ⟨["museum"], "exhibit"⟩
                methods := [{ name := "move", signature :=
                  { parameters :=
                    [{ name := "beside", type? := some (.cls ⟨["Museum"], "Exhibit"⟩) }] } }]
                properties :=
                  [{ name := "pendant", type? := some (.cls ⟨["Museum"], "Exhibit"⟩) }] }]

theorem hierarchy_museum : museum.hierarchy = ⟨[
    { name := ⟨["Museum"], "Exhibit"⟩, key := "museum\\exhibit", isLocal := true },
    { name := ⟨["Museum"], "Painting"⟩, key := "museum\\painting", isLocal := true,
      links := [(.extends, ⟨["museum"], "exhibit"⟩)] }]⟩ := by
  have hfolded : (⟨["Museum"], "Exhibit"⟩ : QualifiedName).folded = "museum\\exhibit" ∧
      (⟨["Museum"], "Painting"⟩ : QualifiedName).folded = "museum\\painting" ∧
      (⟨["museum"], "exhibit"⟩ : QualifiedName).folded = "museum\\exhibit" := by
    decide +kernel
  simp [Extension.hierarchy, Hierarchy.ofClasses, Hierarchy.Node.ofClass, Hierarchy.Node.external,
    Hierarchy.linksOf, museum, hfolded, Sequence.firstBy_cons]

theorem generate_thins_museum :
    museum.Thins remains ∧ (∃ out, generate {} museum = .ok out) ∧
      ∃ out, generate { sharesArgInfo := false } remains = .ok out := by
  have h : museum.Thins remains :=
    { path := rfl
      functions := List.sublist_cons_self _ _
      classes := .cons_right (.cons
        { methods := List.sublist_cons_self _ _
          properties := List.sublist_cons_self _ _
          kept := rfl } .nil) }
  have hmembers : members museum = [] := by decide +kernel
  have hinheritance : inheritance museum = [] := by
    unfold inheritance
    rw [hierarchy_museum]
    decide +kernel
  have hcollisions : collisions museum = [] := by decide +kernel
  have herrors : (museum.validate .lenient).errors = [] := by
    simp [Extension.validate, hmembers, hinheritance, hcollisions]
  have hok : ∃ out, generate {} museum = .ok out :=
    exists_generate_eq_ok herrors (by decide +kernel)
  exact ⟨h, hok, generate_thins h rfl rfl hok⟩

end ExtensionHeader
