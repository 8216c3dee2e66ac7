import ExtensionHeader.Proofs.Reading.Mark

/-! The outline of a header: its marks, which the lines of its text have in the order of the
declarations that they are made for. -/
namespace ExtensionHeader

open Header Reading Text

namespace Reading

def Reads (ss : List Section) (ms : List Mark) : Prop :=
  (∀ s ∈ ss, ∀ l ∈ s.lines, Stands l.text) ∧
    (ss.flatMap fun s => s.lines.filterMap fun l => mark? l.text) = ms

section Reads

variable {ss others : List Section} {ms more : List Mark}

theorem Reads.append (h : Reads ss ms) (h' : Reads others more) :
    Reads (ss ++ others) (ms ++ more) := by
  refine ⟨List.forall_mem_append.mpr ⟨h.1, h'.1⟩, ?_⟩
  rw [List.flatMap_append, h.2, h'.2]

theorem reads_singleton {s : Section} (hlines : ∀ l ∈ s.lines, Stands l.text)
    (hmarks : s.lines.filterMap (fun l => mark? l.text) = ms) : Reads [s] ms := by
  refine ⟨List.forall_mem_singleton.mpr hlines, ?_⟩
  rw [List.flatMap_singleton, hmarks]

theorem reads_map {f : α → Section} {g : α → List Mark} {xs : List α}
    (h : ∀ x ∈ xs, Reads [f x] (g x)) : Reads (xs.map f) (xs.flatMap g) := by
  induction xs with
  | nil => exact ⟨fun _ h => absurd h List.not_mem_nil, rfl⟩
  | cons x rest ih =>
    obtain ⟨hx, hrest⟩ := List.forall_mem_cons.mp h
    exact hx.append (ih hrest)

/-- Sections are joined into one text without changing what their lines are. -/
theorem marks_render (h : Reads ss ms) (hne : ss ≠ []) : marks (render ss) = ms := by
  obtain ⟨hlines, hmarks⟩ := h
  have hsection : ∀ s ∈ ss, (s.written.map flush).filterMap mark? =
      s.lines.filterMap fun l => mark? l.text := by
    intro s hs
    have hflush : s.written.map flush = s.lines.map (·.text) ++ [""] :=
      flush_lines_renderAll (hlines s hs)
    rw [hflush, List.filterMap_append, List.filterMap_map]
    exact List.append_nil _
  unfold marks
  rw [lines_render hne, List.map_flatMap, List.filterMap_flatMap, ← hmarks]
  exact List.flatMap_congr hsection

end Reads

end Reading

/-! Which names of an extension are words. -/

theorem Validation.isValid_parameter {location : Location} {s : Signature}
    (h : ofSignature location s = []) : ∀ p ∈ s.parameters, Identifier.isValid p.name = true := by
  intro p hp
  obtain ⟨earlier, hparameter⟩ :=
    Sequence.exists_eq_nil_of_mem (List.append_eq_nil_iff.mp h).1 hp
  unfold ofParameter at hparameter
  simp only [List.append_eq_nil_iff] at hparameter
  simpa [ofSimpleName] using hparameter.1.1.1.1

theorem Signature.spelt_of_accepted {location : Location} {s : Signature}
    (h : Validation.ofSignature location s = [])
    (hreferences : ∀ r ∈ Reference.ofSignature location s, r.name.IsValid) : s.Spelt := by
  have hvalue : ∀ {owner type? default?},
      (∀ r ∈ Reference.ofValue owner type? default?, r.name.IsValid) →
      ∀ q ∈ (type?.map (·.classes)).getD [], q.IsValid := by
    intro owner type? default? hvalue q hq
    exact hvalue ⟨q, owner⟩ (List.mem_map_of_mem (List.mem_append_left _ hq))
  unfold Reference.ofSignature at hreferences
  rw [List.forall_mem_append, List.forall_mem_flatMap] at hreferences
  exact ⟨Validation.isValid_parameter h, fun p hp => hvalue (hreferences.1 p hp),
    hvalue hreferences.2⟩

theorem Validation.ofSignature_of_mem {e : Extension} (h : members e = [])
    {d : String × Signature} (hd : d ∈ declarations e) :
    ∃ location, ofSignature location d.2 = [] ∧
      ∀ r ∈ Reference.ofSignature location d.2, r ∈ e.references := by
  simp only [members, List.append_eq_nil_iff] at h
  obtain ⟨⟨-, hfunctions⟩, hclasses⟩ := h
  rcases List.mem_append.mp hd with hd | hd
  · obtain ⟨f, hf, rfl⟩ := List.mem_map.mp hd
    obtain ⟨earlier, hnil⟩ := Sequence.exists_eq_nil_of_mem hfunctions hf
    simp only [ofFunction, List.append_eq_nil_iff] at hnil
    refine ⟨_, hnil.2, fun r hr => ?_⟩
    exact List.mem_append_left _ (List.mem_flatMap.mpr ⟨f, hf, hr⟩)
  · obtain ⟨c, hc, hd⟩ := List.mem_flatMap.mp hd
    obtain ⟨m, hm, rfl⟩ := List.mem_map.mp hd
    obtain ⟨earlier, hnil⟩ := Sequence.exists_eq_nil_of_mem hclasses hc
    simp only [ofClass, List.append_eq_nil_iff] at hnil
    obtain ⟨others, hmethod⟩ := Sequence.exists_eq_nil_of_mem hnil.1.2 hm
    simp only [ofMethod, List.append_eq_nil_iff] at hmethod
    refine ⟨_, hmethod.2, fun r hr => ?_⟩
    refine List.mem_append_right _ (List.mem_flatMap.mpr ⟨c, hc, ?_⟩)
    exact List.mem_append_left _ (List.mem_append_right _ (List.mem_flatMap.mpr ⟨m, hm, hr⟩))

theorem Validation.spelt_of_members {e : Extension} (h : members e = [])
    (hreferences : ∀ r ∈ e.references, r.name.IsValid) : ∀ d ∈ declarations e, d.2.Spelt := by
  intro d hd
  obtain ⟨location, hnil, hmem⟩ := ofSignature_of_mem h hd
  exact Signature.spelt_of_accepted hnil fun r hr => hreferences r (hmem r hr)

/-- The extension has no errors, and all names that it refers to are made of words. -/
structure Extension.Legible (e : Extension) : Prop where
  accepted : e.Accepted
  spelt : ∀ d ∈ declarations e, d.2.Spelt
  reference : ∀ c ∈ e.classes, ∀ q ∈ c.references, q.IsValid

theorem Extension.legible_of_errors {e : Extension} {mode : Validation.Mode}
    (h : (e.validate mode).errors = []) (hreferences : ∀ r ∈ e.references, r.name.IsValid) :
    e.Legible := by
  refine ⟨Validation.accepted_of_errors h,
    Validation.spelt_of_members (Validation.errors_eq_nil h).1 hreferences, fun c hc q hq => ?_⟩
  have hclass : ∀ r ∈ Reference.ofClass c, r.name.IsValid := fun r hr =>
    hreferences r (List.mem_append_right _ (List.mem_flatMap.mpr ⟨c, hc, hr⟩))
  rcases List.mem_append.mp hq with hq | hq
  · exact hclass ⟨q, .cls c.name⟩
      (List.mem_append_left _ (List.mem_append_left _ (List.mem_map_of_mem hq)))
  · obtain ⟨p, hp, hq⟩ := List.mem_flatMap.mp hq
    exact hclass ⟨q, .property c.name p.name⟩ (Reference.mem_ofClass hp hq)

namespace Header

def entryTables (e : Extension) : List EntryTable :=
  functionTables e ++ e.classes.map EntryTable.ofClass

theorem exists_of_mem_entries {e : Extension} {t : EntryTable} (ht : t ∈ entryTables e)
    {entry : Entry} (hentry : entry ∈ t.entries) :
    (∃ f ∈ e.functions, entry = .ofFunction f) ∨
      ∃ c ∈ e.classes, ∃ m ∈ c.methods, entry = .ofMethod c m := by
  rcases List.mem_append.mp ht with ht | ht
  · obtain ⟨path, -, rfl⟩ := List.mem_map.mp ht
    obtain ⟨f, hf, rfl⟩ := List.mem_map.mp hentry
    exact .inl ⟨f, (List.mem_filter.mp hf).1, rfl⟩
  · obtain ⟨c, hc, rfl⟩ := List.mem_map.mp ht
    obtain ⟨m, hm, rfl⟩ := List.mem_map.mp hentry
    exact .inr ⟨c, hc, m, hm, rfl⟩

theorem mem_declarations_of_block {shares : Bool} {e : Extension} {name : String} {s : Signature}
    (h : .block name s ∈ argInfos shares e) : (name, s) ∈ declarations e := by
  have hshare : ∀ owners ds, .block name s ∈ ArgInfo.share owners ds → (name, s) ∈ ds := by
    intro owners ds
    induction ds generalizing owners with
    | nil => exact fun h => absurd h List.not_mem_nil
    | cons d rest ih =>
      unfold ArgInfo.share
      intro h
      split at h
      · rcases List.mem_cons.mp h with heq | h
        · contradiction
        · exact List.mem_cons_of_mem d (ih _ h)
      · rcases List.mem_cons.mp h with heq | h
        · cases heq
          exact List.mem_cons_self
        · exact List.mem_cons_of_mem d (ih _ h)
  cases shares with
  | true => exact hshare _ _ h
  | false =>
    obtain ⟨d, hd, heq⟩ := List.mem_map.mp h
    cases heq
    exact hd

end Header

namespace Extension.Legible

variable {e : Extension} (h : e.Legible)

include h

theorem isWord_declaration {name : String} (hname : name ∈ (declarations e).map (·.1)) :
    IsWord name := by
  obtain ⟨d, hd, rfl⟩ := List.mem_map.mp hname
  rcases List.mem_append.mp hd with hd | hd
  · obtain ⟨f, hf, rfl⟩ := List.mem_map.mp hd
    exact isWord_append.mpr ⟨by decide, isWord_ofName (h.accepted.functionName f hf)⟩
  · obtain ⟨c, hc, hd⟩ := List.mem_flatMap.mp hd
    obtain ⟨m, hm, rfl⟩ := List.mem_map.mp hd
    have hcls := h.accepted.cls c hc
    exact isWord_of_isValid (Identifier.isValid_methodArgInfo hcls.name (hcls.methodName m hm))

theorem isWord_token {token : String} (ht : token ∈ e.ownTokens) : IsWord token :=
  isWord_of_isValid (h.accepted.isValid_of_mem_ownTokens ht)

theorem isWord_table {t : EntryTable} (ht : t ∈ entryTables e) : IsWord t.name := by
  rcases List.mem_append.mp ht with ht | ht
  · exact h.isWord_token
      (List.mem_append_left _ (List.mem_append_left _ (List.mem_map_of_mem ht)))
  · obtain ⟨c, hc, rfl⟩ := List.mem_map.mp ht
    exact isWord_of_isValid (Identifier.isValid_methodTable (h.accepted.cls c hc).name)

theorem isWord_entry {t : EntryTable} (ht : t ∈ entryTables e) :
    ∀ entry ∈ t.entries, ∀ word ∈ entry.words, IsWord word := by
  intro entry hentry
  rcases exists_of_mem_entries ht hentry with ⟨f, hf, rfl⟩ | ⟨c, hc, m, hm, rfl⟩
  · have hvalid := h.accepted.functionName f hf
    have hname : IsWord f.name.name :=
      isWord_of_isValid (hvalid _ (List.mem_append_right _ List.mem_cons_self))
    have hargInfo : IsWord (Identifier.functionArgInfo f.name) :=
      isWord_of_isValid (Identifier.isValid_functionArgInfo hvalid)
    unfold Entry.ofFunction
    split
    · simpa [Entry.words] using ⟨hname, hargInfo⟩
    · simpa [Entry.words] using ⟨hname, isWord_ofName hvalid, hargInfo⟩
  · have hcls := h.accepted.cls c hc
    have hname := hcls.methodName m hm
    have hargInfo : IsWord (Identifier.methodArgInfo c.name m.name) :=
      isWord_of_isValid (Identifier.isValid_methodArgInfo hcls.name hname)
    unfold Entry.ofMethod
    dsimp only
    split <;>
      simpa [Entry.words] using ⟨isWord_ofName hcls.name, isWord_of_isValid hname, hargInfo⟩

theorem isWord_handler {handler : Handler} (hh : handler ∈ handlers e) :
    ∀ word ∈ handler.words, IsWord word := by
  rcases List.mem_append.mp hh with hh | hh
  · obtain ⟨f, hf, rfl⟩ := List.mem_map.mp hh
    exact List.forall_mem_singleton.mpr (isWord_ofName (h.accepted.functionName f hf))
  · obtain ⟨c, hc, hh⟩ := List.mem_flatMap.mp hh
    obtain ⟨m, hm, rfl⟩ := List.mem_map.mp hh
    have hcls := h.accepted.cls c hc
    have hname := hcls.methodName m (List.mem_filter.mp hm).1
    exact List.forall_mem_cons.mpr
      ⟨isWord_ofName hcls.name, List.forall_mem_singleton.mpr (isWord_of_isValid hname)⟩

/-! The sections, kind by kind. -/

theorem reads_argInfos (shares : Bool) :
    Reads ((argInfos shares e).map .argInfo) ((argInfos shares e).map (·.mark)) := by
  have hmarks : (argInfos shares e).map (·.mark) =
      (argInfos shares e).flatMap fun item => [item.mark] := List.map_eq_flatMap
  rw [hmarks]
  apply reads_map
  intro item hitem
  have htokens : ∀ token ∈ item.tokens, IsWord token := fun token ht =>
    h.isWord_declaration (mem_declarations_of_argInfo hitem ht)
  refine reads_singleton (fun l hl => IsLine.stands ?_) (marks_argInfo htokens)
  refine ArgInfo.isLine_text (fun token ht => isLine_of_isWord (htokens token ht)) ?_ l hl
  rintro name s rfl
  exact h.spelt _ (mem_declarations_of_block hitem)

theorem reads_forward : Reads (forward (handlers e)) ((handlers e).map .forward) := by
  have hlines : ∀ handler ∈ handlers e, IsLine handler.line.text := fun handler hh =>
    Handler.isLine_text fun word hw => isLine_of_isWord (h.isWord_handler hh word hw)
  have hmarks : (handlers e).filterMap (fun handler => mark? handler.line.text) =
      (handlers e).map .forward := by
    rw [← List.filterMap_eq_map]
    exact List.filterMap_congr fun handler hh => mark?_handler (h.isWord_handler hh)
  generalize handlers e = hs at hlines hmarks
  cases hs with
  | nil => exact ⟨fun _ h => absurd h List.not_mem_nil, rfl⟩
  | cons first rest =>
    apply reads_singleton
    · exact List.forall_mem_map.mpr fun handler hh => (hlines handler hh).stands
    · rw [← hmarks]
      exact List.filterMap_map

theorem reads_tables :
    Reads ((entryTables e).map .table) ((entryTables e).flatMap (·.marks)) := by
  apply reads_map
  intro t ht
  refine reads_singleton (fun l hl => IsLine.stands ?_)
    (marks_table (h.isWord_table ht) (h.isWord_entry ht))
  exact EntryTable.isLine_text (isLine_of_isWord (h.isWord_table ht))
    (fun entry hentry word hw => isLine_of_isWord (h.isWord_entry ht entry hentry word hw)) l hl

theorem reads_routine {c : Class} (hc : c ∈ e.classes) {interner : Interner} {r : Routine}
    (hr : Routine.ofClass interner c = .ok r) :
    Reads [.routine r] [.entry (Identifier.methodTable c.name)] := by
  have hcls := h.accepted.cls c hc
  have hnames : ∀ p ∈ c.properties, Identifier.isValid p.name = true :=
    fun p hp => (hcls.property p hp).name
  apply reads_singleton
  · have hname : IsLine (Identifier.ofName c.name) := isLine_of_isWord (isWord_ofName hcls.name)
    exact stands_ofClass hname.unbroken hnames (h.reference c hc) hr
  · exact marks_routine hcls.name (fun p hp => isWord_of_isValid (hnames p hp)) hr

theorem reads_routines {interner : Interner} {classes : List Class}
    (hclasses : ∀ c ∈ classes, c ∈ e.classes) {rs : List Routine}
    (hrs : routines interner classes = .ok rs) :
    Reads (rs.map .routine) (classes.map fun c => .entry (Identifier.methodTable c.name)) := by
  have hforall := routines_eq_ok_iff.mp hrs
  clear hrs
  induction hforall with
  | nil => exact ⟨fun _ h => absurd h List.not_mem_nil, rfl⟩
  | cons hr _ ih =>
    obtain ⟨hc, hrest⟩ := List.forall_mem_cons.mp hclasses
    exact (h.reads_routine hc hr).append (ih hrest)

end Extension.Legible

def Header.outline (shares : Bool) (e : Extension) : List Mark :=
  (argInfos shares e).map (·.mark) ++ (handlers e).map .forward ++
    (entryTables e).flatMap (·.marks) ++
    e.classes.map fun c => .entry (Identifier.methodTable c.name)

theorem Extension.Legible.marks_emit {e : Extension} (h : e.Legible) {options : Options}
    {text : String} (hemit : emit options e = .ok text) :
    marks text = outline options.sharesArgInfo e := by
  obtain ⟨ss, hss, rfl⟩ := map_eq_ok_iff.mp hemit
  rw [sections_eq, map_eq_ok_iff] at hss
  obtain ⟨rs, hrs, rfl⟩ := hss
  have hleading : Reads (leading options.hasBanner) [] := by
    unfold leading
    split
    · exact reads_singleton (List.forall_mem_singleton.mpr (IsLine.stands (by decide))) rfl
    · exact ⟨fun _ h => absurd h List.not_mem_nil, rfl⟩
  have hreads := ((hleading.append (h.reads_argInfos options.sharesArgInfo)).append
    h.reads_forward).append h.reads_tables |>.append (h.reads_routines (fun _ h => h) hrs)
  have hsections : leading options.hasBanner ++ (argInfos options.sharesArgInfo e).map .argInfo ++
      forward (handlers e) ++ (entryTables e).map .table ++ rs.map .routine =
        leading options.hasBanner ++ (argInfos options.sharesArgInfo e).map .argInfo ++
          trailing e rs := by
    unfold trailing entryTables
    rw [List.map_append, List.map_map]
    simp only [List.append_assoc]
    rfl
  rw [← hsections]
  exact marks_render hreads (by simp [entryTables, functionTables])

end ExtensionHeader
