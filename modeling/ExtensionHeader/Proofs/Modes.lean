import ExtensionHeader.Proofs.Generation
import ExtensionHeader.Proofs.Rules

/-! The two modes of validation. Only the use of a name that is not declared is reported as an
unresolved reference, and the mode decides nothing but where these reports go: a closed world puts
them among the errors, and a lenient report has the same ones as its warnings. -/
namespace ExtensionHeader

namespace Diagnostic

/-- None of the diagnostics is about a name that is not declared. -/
def Resolved (ds : List Diagnostic) : Prop := ∀ d ∈ ds, d.rule ≠ .unresolvedReference

theorem Resolved.filter_ne {ds : List Diagnostic} (h : Resolved ds) :
    ds.filter (·.rule ≠ .unresolvedReference) = ds := by
  rw [List.filter_eq_self]
  intro d hd
  exact decide_eq_true (h d hd)

theorem Resolved.filter_eq {ds : List Diagnostic} (h : Resolved ds) :
    ds.filter (·.rule = .unresolvedReference) = [] := by
  rw [List.filter_eq_nil_iff]
  intro d hd
  rw [decide_eq_true_iff]
  exact h d hd

theorem Under.resolved {rules : List Rule} {ds : List Diagnostic} (h : Under rules ds)
    (apart : .unresolvedReference ∉ rules) : Resolved ds :=
  fun d hd heq => apart (heq ▸ h d hd)

end Diagnostic

namespace Validation

open Diagnostic

theorem resolved_members (e : Extension) : Resolved (members e) :=
  (under_members e).resolved (by decide)

theorem resolved_inheritance (e : Extension) : Resolved (inheritance e) :=
  (under_inheritance e).resolved (by decide)

theorem resolved_collisions (e : Extension) : Resolved (collisions e) :=
  (under_collisions e).resolved (by decide)

theorem rule_of_mem_undeclared {e : Extension} {d : Diagnostic} (h : d ∈ undeclared e) :
    d.rule = .unresolvedReference :=
  List.mem_singleton.mp (under_undeclared e d h)

theorem resolved_lenient (e : Extension) : Resolved (e.validate .lenient).errors := by
  intro d hd
  simp only [Extension.validate, List.mem_append] at hd
  rcases hd with (hd | hd) | hd
  · exact resolved_members e d hd
  · exact resolved_inheritance e d hd
  · exact resolved_collisions e d hd

theorem filter_undeclared_ne (e : Extension) :
    (undeclared e).filter (·.rule ≠ .unresolvedReference) = [] := by
  rw [List.filter_eq_nil_iff]
  intro d hd
  rw [decide_eq_true_iff, not_not]
  exact rule_of_mem_undeclared hd

theorem filter_undeclared_eq (e : Extension) :
    (undeclared e).filter (·.rule = .unresolvedReference) = undeclared e := by
  rw [List.filter_eq_self]
  intro d hd
  exact decide_eq_true (rule_of_mem_undeclared hd)

theorem filter_closedWorld_ne (e : Extension) :
    (e.validate .closedWorld).errors.filter (·.rule ≠ .unresolvedReference) =
      (e.validate .lenient).errors := by
  have hlenient := (resolved_lenient e).filter_ne
  simp only [Extension.validate, List.filter_append] at hlenient ⊢
  rw [filter_undeclared_ne, List.append_nil]
  exact hlenient

theorem filter_closedWorld_eq (e : Extension) :
    (e.validate .closedWorld).errors.filter (·.rule = .unresolvedReference) =
      (e.validate .lenient).warnings := by
  simp only [Extension.validate, List.filter_append]
  rw [(resolved_members e).filter_eq, (resolved_inheritance e).filter_eq,
    (resolved_collisions e).filter_eq, filter_undeclared_eq, List.nil_append, List.nil_append,
    List.append_nil]

theorem closedWorld_eq_nil_iff (e : Extension) :
    (e.validate .closedWorld).errors = [] ↔
      (e.validate .lenient).errors = [] ∧ (e.validate .lenient).warnings = [] := by
  simp only [Extension.validate, List.append_eq_nil_iff]
  tauto

end Validation

/-- The errors in a closed world are those of a lenient report and, in their place among them, its
warnings. So a header is generated in a closed world exactly when a lenient generation gives the
same one without a warning. -/
theorem closedWorld_splits (e : Extension) :
    (e.validate .closedWorld).warnings = [] ∧
    (∀ d ∈ (e.validate .lenient).errors, d.rule ≠ .unresolvedReference) ∧
    (e.validate .closedWorld).errors.filter (·.rule ≠ .unresolvedReference) =
      (e.validate .lenient).errors ∧
    (e.validate .closedWorld).errors.filter (·.rule = .unresolvedReference) =
      (e.validate .lenient).warnings ∧
    ∀ (config : Config) (out : Generated),
      generate { config with mode := .closedWorld } e = .ok out ↔
        generate { config with mode := .lenient } e = .ok out ∧ out.warnings = [] := by
  refine ⟨rfl, Validation.resolved_lenient e, Validation.filter_closedWorld_ne e,
    Validation.filter_closedWorld_eq e, fun config out => ?_⟩
  -- The options of a configuration do not depend on its mode.
  rw [generate_eq_ok_iff, generate_eq_ok_iff, Validation.closedWorld_eq_nil_iff]
  constructor
  · rintro ⟨⟨herrors, hwarnings⟩, hout, hemit⟩
    exact ⟨⟨herrors, hout.trans hwarnings.symm, hemit⟩, hout⟩
  · rintro ⟨⟨herrors, hout, hemit⟩, hnone⟩
    exact ⟨⟨herrors, hout.symm.trans hnone⟩, hnone, hemit⟩

end ExtensionHeader
