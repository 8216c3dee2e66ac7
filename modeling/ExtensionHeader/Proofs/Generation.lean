import ExtensionHeader.Output
import ExtensionHeader.Proofs.Emission

/-! What a successful generation has gone through: the extension has no errors, and each of its
classes has a routine among the sections of the header. -/
namespace ExtensionHeader

/-- The second emission is made of the same declarations, so it neither differs nor fails. -/
theorem generate_eq (config : Config) (e : Extension) :
    generate config e =
      match (e.validate config.mode).result with
      | .error errors => .error (.invalid errors)
      | .ok warnings =>
        match Header.emit config.options e with
        | .error error => .error (.internal error)
        | .ok text => .ok ⟨text, warnings⟩ := by
  unfold generate
  cases (e.validate config.mode).result with
  | error errors => rfl
  | ok warnings =>
    dsimp only
    split
    · rename_i error hemit
      simp only [hemit]
    · rename_i text hemit
      have hagain := Config.reproduces_of_emit hemit
      simp only [hemit]
      split
      · rename_i herror
        rw [hagain] at herror
        contradiction
      · rfl
      · rename_i hdiffer
        rw [hagain] at hdiffer
        contradiction

theorem generate_eq_ok_iff {config : Config} {e : Extension} {out : Generated} :
    generate config e = .ok out ↔
      (e.validate config.mode).errors = [] ∧
        out.warnings = (e.validate config.mode).warnings ∧
        Header.emit config.options e = .ok out.text := by
  rw [generate_eq]
  unfold Validation.Report.result
  by_cases herrors : (e.validate config.mode).errors = []
  · simp only [herrors, List.isEmpty_nil, if_true, true_and]
    cases Header.emit config.options e with
    | error defect => simp
    | ok text =>
      cases out
      simp only [Except.ok.injEq, Generated.mk.injEq]
      exact ⟨fun h => ⟨h.2.symm, h.1⟩, fun h => ⟨h.2, h.1.symm⟩⟩
  · simp [herrors]

theorem exists_generate_eq_ok {config : Config} {e : Extension}
    (herrors : (e.validate config.mode).errors = [])
    (hroutines : (Header.routines e.interner e.classes).isOk) :
    ∃ out, generate config e = .ok out := by
  cases hemit : Header.emit config.options e with
  | ok text => exact ⟨⟨text, _⟩, generate_eq_ok_iff.mpr ⟨herrors, rfl, hemit⟩⟩
  | error defect =>
    rw [(Header.emit_eq_error_iff _ e defect).mp hemit] at hroutines
    contradiction

namespace Header

theorem ofClass_eq_ok {interner : Interner} {c : Class} {r : Routine}
    (h : Routine.ofClass interner c = .ok r) :
    ∃ statements, declareProperties interner c.properties = .ok statements ∧
      Ownership.check (c.properties.flatMap (·.events)) = .ok () ∧
      r = { name := Identifier.registration c.name
            parameters := Sequence.firstBy (·.folded) c.supertypes
            body := registerClass c ++ statements ++ [.returnEntry] } := by
  have hbind := h
  unfold Routine.ofClass at hbind
  obtain ⟨statements, hs, -⟩ := bind_eq_ok_iff.mp hbind
  rw [ofClass_eq hs] at h
  split at h
  · rename_i hcheck
    exact ⟨statements, hs, hcheck, (Except.ok.inj h).symm⟩
  · contradiction

theorem ofClass_of_isOk_routines {interner : Interner} {classes : List Class}
    (h : (routines interner classes).isOk) {c : Class} (hc : c ∈ classes) :
    ∃ r, Routine.ofClass interner c = .ok r := by
  cases hrs : routines interner classes with
  | ok rs => exact ofClass_ok_of_routines hrs c hc
  | error defect =>
    rw [hrs] at h
    contradiction

theorem routine_mem_sections {options : Options} {e : Extension} {ss : List Section}
    (h : sections options e = .ok ss) {c : Class} (hc : c ∈ e.classes) :
    ∃ r, .routine r ∈ ss ∧ Routine.ofClass e.interner c = .ok r := by
  obtain ⟨rs, hrs, rfl⟩ := map_eq_ok_iff.mp h
  obtain ⟨r, hmem, hr⟩ := mem_routines hrs hc
  exact ⟨r, List.mem_append_right _ (List.mem_map_of_mem hmem), hr⟩

end Header

end ExtensionHeader
