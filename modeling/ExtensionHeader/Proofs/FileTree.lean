import ExtensionHeader.Proofs.Path
import ExtensionHeader.Proofs.Sequence

/-! What writing to a path does to a tree. Making directories adds directories where nothing was, at
places that the path leads through, and nothing else. A file is then written at the end of the path
or the tree is left as it is. Whether all this succeeds is decided by the tree as it was before. -/
namespace ExtensionHeader.FileTree

theorem lookup?_set (t : FileTree) {place : List String} (h : place ≠ []) (entry : Entry)
    (other : List String) :
    (t.set place entry).lookup? other = if other = place then some entry else t.lookup? other := by
  unfold lookup? set
  by_cases hother : other = place
  · rw [if_neg (hother ▸ h), if_pos hother, hother, List.lookup_cons_self]
  · have hne : (other == place) = false := beq_eq_false_iff_ne.mpr hother
    rw [if_neg hother, List.lookup_cons, hne, Sequence.lookup_filter_ne (Ne.symm hother)]

/-! Places along a path. -/

def follow (place : List String) : List String → List String
  | [] => place
  | name :: rest => if name = ".." then follow place.dropLast rest else follow (place ++ [name]) rest

def passed (place : List String) : List String → List (List String)
  | [] => []
  | name :: rest =>
    if name = ".." then passed place.dropLast rest
    else (place ++ [name]) :: passed (place ++ [name]) rest

@[simp] theorem passed_nil (place : List String) : passed place [] = [] := rfl

theorem follow_append (place names more : List String) :
    follow place (names ++ more) = follow (follow place names) more := by
  induction names generalizing place with
  | nil => rfl
  | cons name rest ih =>
    simp only [List.cons_append, follow]
    split
    · exact ih _
    · exact ih _

theorem passed_append (place names more : List String) :
    passed place (names ++ more) = passed place names ++ passed (follow place names) more := by
  induction names generalizing place with
  | nil => rfl
  | cons name rest ih =>
    simp only [List.cons_append, follow, passed]
    split
    · exact ih _
    · rw [ih, List.cons_append]

theorem follow_concat {name : String} (h : name ≠ "..") (place names : List String) :
    follow place (names ++ [name]) = follow place names ++ [name] := by
  rw [follow_append]
  exact if_neg h

theorem mem_passed_concat {name : String} (h : name ≠ "..") {place names d : List String} :
    d ∈ passed place (names ++ [name]) ↔
      d ∈ passed place names ∨ d = follow place names ++ [name] := by
  rw [passed_append, List.mem_append]
  unfold passed
  rw [if_neg h]
  exact or_congr_right List.mem_singleton

theorem passed_concat_parent (place names : List String) :
    passed place (names ++ [".."]) = passed place names := by
  rw [passed_append]
  exact List.append_nil _

theorem ne_nil_of_mem_passed {place names d : List String} (h : d ∈ passed place names) :
    d ≠ [] := by
  induction names generalizing place with
  | nil => exact absurd h List.not_mem_nil
  | cons name rest ih =>
    unfold passed at h
    split at h
    · exact ih h
    · rcases List.mem_cons.mp h with rfl | h
      · exact List.append_ne_nil_of_right_ne_nil _ (List.cons_ne_nil _ _)
      · exact ih h

theorem walk_eq_ok_iff {t : FileTree} {place names target : List String} :
    t.walk place names = .ok target ↔ target = follow place names ∧
      (∀ name ∈ names, Path.isNameUsable name = true) ∧
      ∀ d ∈ passed place names, t.lookup? d = some .directory := by
  induction names generalizing place with
  | nil =>
    unfold walk follow passed
    simp only [Except.ok.injEq, List.not_mem_nil, false_imp_iff, implies_true, and_true]
    exact eq_comm
  | cons name rest ih =>
    unfold walk follow passed
    rw [List.forall_mem_cons]
    by_cases hparent : name = ".."
    · have husable : Path.isNameUsable name = true := by
        rw [hparent]
        decide
      rw [if_pos hparent, if_pos hparent, if_pos hparent, ih]
      simp [husable]
    · rw [if_neg hparent, if_neg hparent, if_neg hparent, List.forall_mem_cons]
      by_cases husable : Path.isNameUsable name = true
      · rw [if_neg (by simpa using husable)]
        cases hfound : t.lookup? (place ++ [name]) with
        | none => simp
        | some entry =>
          cases entry with
          | file text => simp
          | directory =>
            dsimp only
            rw [ih]
            simp [husable]
      · rw [if_pos (by simpa using husable)]
        simp [husable]

/-! What stays as it was. -/

/-- Directories stay. Away from the places of `files` nothing else has changed than that directories
have come to places of `around` where nothing was. -/
structure Keeps (t : FileTree) (files around : List (List String)) (later : FileTree) : Prop where
  workingDirectory : later.workingDirectory = t.workingDirectory
  directory : ∀ place, t.lookup? place = some .directory → later.lookup? place = some .directory
  elsewhere : ∀ place, place ∉ files → later.lookup? place = t.lookup? place ∨
    place ∈ around ∧ t.lookup? place = none ∧ later.lookup? place = some .directory

abbrev Grows (t : FileTree) (around : List (List String)) (grown : FileTree) : Prop :=
  t.Keeps [] around grown

section keeps

variable {t next later : FileTree} {files around more others : List (List String)}

theorem Keeps.refl (t : FileTree) (files around : List (List String)) : t.Keeps files around t :=
  ⟨rfl, fun _ => id, fun _ _ => .inl rfl⟩

theorem Keeps.mono (h : t.Keeps files around later) (hfiles : files ⊆ more)
    (haround : around ⊆ others) : t.Keeps more others later :=
  ⟨h.workingDirectory, h.directory, fun place hplace =>
    (h.elsewhere place fun hmem => hplace (hfiles hmem)).imp_right (And.imp_left (@haround place))⟩

theorem Keeps.trans (h : t.Keeps files around next) (hlater : next.Keeps more others later) :
    t.Keeps (files ++ more) (around ++ others) later := by
  refine ⟨hlater.workingDirectory.trans h.workingDirectory,
    fun place hplace => hlater.directory place (h.directory place hplace),
    fun place hplace => ?_⟩
  rw [List.mem_append, not_or] at hplace
  rcases h.elsewhere place hplace.1 with hsame | ⟨hmem, hnone, hmade⟩
  · rw [← hsame]
    exact (hlater.elsewhere place hplace.2).imp_right (And.imp_left (List.mem_append_right _))
  · exact .inr ⟨List.mem_append_left _ hmem, hnone, hlater.directory place hmade⟩

theorem Keeps.file_iff (h : t.Keeps files around later) {place : List String}
    (hplace : place ∉ files) (text : String) :
    later.lookup? place = some (.file text) ↔ t.lookup? place = some (.file text) := by
  rcases h.elsewhere place hplace with hsame | ⟨-, hnone, hmade⟩
  · rw [hsame]
  · rw [hnone, hmade]
    simp

theorem Keeps.start (h : t.Keeps files around later) (p : Path) : later.start p = t.start p := by
  unfold FileTree.start
  rw [h.workingDirectory]

theorem grows_trans (h : t.Grows around next) (hlater : next.Grows around later) :
    t.Grows around later :=
  (h.trans hlater).mono (List.Subset.refl _) (List.append_subset.mpr ⟨.refl _, .refl _⟩)

theorem keeps_set {place : List String} (hplace : place ≠ [])
    (hfree : t.lookup? place ≠ some .directory) (entry : Entry) :
    t.Keeps [place] [] (t.set place entry) := by
  refine ⟨rfl, fun other hother => ?_, fun other hother => .inl ?_⟩
  · have hne : other ≠ place := fun heq => hfree (heq ▸ hother)
    rwa [lookup?_set t hplace, if_neg hne]
  · rw [lookup?_set t hplace, if_neg (List.mem_singleton.not.mp hother)]

theorem grows_set {place : List String} (hplace : place ≠ []) (hmem : place ∈ around)
    (hnone : t.lookup? place = none) : t.Grows around (t.set place .directory) := by
  have hfree : t.lookup? place ≠ some .directory := by
    rw [hnone]
    exact fun heq => by contradiction
  have hkeeps := keeps_set hplace hfree .directory
  refine ⟨rfl, hkeeps.directory, fun other _ => ?_⟩
  by_cases hother : other = place
  · rw [hother, lookup?_set t hplace, if_pos rfl]
    exact .inr ⟨hmem, hnone, rfl⟩
  · exact .inl ((hkeeps.elsewhere other (List.mem_singleton.not.mpr hother)).resolve_right
      fun hmade => absurd hmade.1 List.not_mem_nil)

end keeps

/-! Directories that are made. -/

def Open (t : FileTree) (places : List (List String)) : Prop :=
  ∀ d ∈ places, t.lookup? d = some .directory

theorem makeDirectory_ok {t made : FileTree} {start outer : List String} {name : String}
    (h : t.makeDirectory start outer name = .ok made) :
    t.Grows (passed start (outer ++ [name])) made ∧ made.Open (passed start (outer ++ [name])) := by
  unfold makeDirectory at h
  split at h
  · contradiction
  · rename_i place hwalk
    obtain ⟨hplace, -, hopen⟩ := walk_eq_ok_iff.mp hwalk
    split at h
    · rename_i hparent
      cases h
      rw [hparent, passed_concat_parent]
      exact ⟨.refl _ _ _, hopen⟩
    · rename_i hparent
      split at h
      · contradiction
      · have hlast : place ++ [name] ∈ passed start (outer ++ [name]) :=
          (mem_passed_concat hparent).mpr (.inr (by rw [hplace]))
        split at h
        · rename_i hnone
          cases h
          have hgrows := grows_set (ne_nil_of_mem_passed hlast) hlast hnone
          refine ⟨hgrows, fun d hd => ?_⟩
          rcases (mem_passed_concat hparent).mp hd with hd | rfl
          · exact hgrows.directory d (hopen d hd)
          · rw [← hplace, lookup?_set t (ne_nil_of_mem_passed hlast), if_pos rfl]
        · rename_i hdirectory
          cases h
          refine ⟨.refl _ _ _, fun d hd => ?_⟩
          rcases (mem_passed_concat hparent).mp hd with hd | rfl
          · exact hopen d hd
          · rw [← hplace]
            exact hdirectory
        · contradiction

theorem grows_makeDirectories (t : FileTree) (start names : List String) :
    t.Grows (passed start names.reverse) (t.makeDirectories start names).1 ∧
      ((t.makeDirectories start names).2 = .ok () →
        (t.makeDirectories start names).1.Open (passed start names.reverse)) := by
  induction names with
  | nil =>
    refine ⟨.refl _ _ _, fun _ d hd => ?_⟩
    exact absurd hd List.not_mem_nil
  | cons name outer ih =>
    have houter : passed start outer.reverse ⊆ passed start (outer.reverse ++ [name]) := by
      rw [passed_append]
      exact List.subset_append_left _ _
    rw [List.reverse_cons]
    unfold makeDirectories
    split
    · rename_i made hmade
      exact ⟨(makeDirectory_ok hmade).1, fun _ => (makeDirectory_ok hmade).2⟩
    · exact ⟨.refl _ _ _, fun h => by contradiction⟩
    · split
      · rename_i around failure haround
        rw [haround] at ih
        exact ⟨ih.1.mono (.refl _) houter, fun h => by contradiction⟩
      · rename_i around haround
        rw [haround] at ih
        have hgrows := ih.1.mono (.refl _) houter
        split
        · rename_i made hmade
          obtain ⟨hlast, hopen⟩ := makeDirectory_ok hmade
          exact ⟨grows_trans hgrows hlast, fun _ => hopen⟩
        · exact ⟨hgrows, fun h => by contradiction⟩

theorem grows_ensure (t : FileTree) (p : Path) :
    t.Grows (passed (t.start p) p.names) (t.ensure p).1 ∧
      ((t.ensure p).2 = .ok () → (t.ensure p).1.Open (passed (t.start p) p.names)) := by
  unfold ensure
  split
  · exact ⟨.refl _ _ _, fun h => by contradiction⟩
  · split
    · have hmade := t.grows_makeDirectories (t.start p) p.names.dropLast.reverse
      rw [List.reverse_reverse] at hmade
      have hsubset : passed (t.start p) p.names.dropLast ⊆ passed (t.start p) p.names := by
        obtain ⟨more, hmore⟩ := List.dropLast_prefix p.names
        nth_rewrite 2 [← hmore]
        rw [passed_append]
        exact List.subset_append_left _ _
      split
      · rename_i around failure haround
        rw [haround] at hmade
        exact ⟨hmade.1.mono (.refl _) hsubset, fun h => by contradiction⟩
      · rename_i around haround
        rw [haround] at hmade
        refine ⟨hmade.1.mono (.refl _) hsubset, fun h => ?_⟩
        cases hwalk : around.walk (t.start p) p.names with
        | error failure =>
          rw [hwalk] at h
          contradiction
        | ok place => exact (walk_eq_ok_iff.mp hwalk).2.2
    · have hmade := t.grows_makeDirectories (t.start p) p.names.reverse
      rwa [List.reverse_reverse] at hmade

/-! Files. -/

def target (t : FileTree) (p : Path) : List String := follow (t.start p) p.names

def ancestors (t : FileTree) (p : Path) : List (List String) :=
  passed (t.start p) p.names.dropLast

/-- The place of the file that the path may name, if the directories around it are there. -/
def locate (t : FileTree) (p : Path) : Except Obstacle (List String) :=
  if !p.isUsable || p.namesDirectory then .error .refused
  else match p.names.getLast? with
    | none => .error .refused
    | some name =>
      match t.walk (t.start p) p.names.dropLast with
      | .error failure => .error failure
      | .ok place =>
        if name = ".." || !Path.isNameUsable name then .error .refused else .ok (place ++ [name])

def readFile? (t : FileTree) (p : Path) : Option String :=
  match t.locate p with
  | .error _ => none
  | .ok place =>
    match t.lookup? place with
    | some (.file text) => some text
    | _ => none

theorem walk_dropLast_iff {t : FileTree} {p : Path} (h : p.NamesFile) {place : List String} :
    t.walk (t.start p) p.names.dropLast = .ok place ↔
      place = follow (t.start p) p.names.dropLast ∧ t.Open (t.ancestors p) := by
  have hnamed : ∀ name ∈ p.names.dropLast, Path.isNameUsable name = true :=
    fun name hname => h.named name ((List.dropLast_sublist _).subset hname)
  rw [walk_eq_ok_iff]
  exact and_congr_right fun _ => and_iff_right hnamed

theorem locate_of_namesFile {t : FileTree} {p : Path} (h : p.NamesFile) :
    t.locate p = (t.walk (t.start p) p.names.dropLast).map fun _ => t.target p := by
  obtain ⟨name, hlast, hname⟩ := h.last
  obtain ⟨outer, hnames⟩ := List.getLast?_eq_some_iff.mp hlast
  have hnamed := h.named name (hnames ▸ List.mem_append_right _ List.mem_cons_self)
  have hdrop : p.names.dropLast = outer := by rw [hnames, List.dropLast_concat]
  unfold locate
  rw [if_neg (by simp [h.usable, h.file]), hlast]
  dsimp only
  cases hwalk : t.walk (t.start p) p.names.dropLast with
  | error failure => rfl
  | ok place =>
    have hplace := (walk_eq_ok_iff.mp hwalk).1
    rw [hdrop] at hplace
    dsimp only
    rw [if_neg (by simp [hname, hnamed]), hplace, ← follow_concat hname, ← hnames]
    rfl

theorem namesFile_of_locate {t : FileTree} {p : Path} {place : List String}
    (h : t.locate p = .ok place) : p.NamesFile := by
  unfold locate at h
  split at h
  · contradiction
  · rename_i hfile
    obtain ⟨husable, hdirectory⟩ : p.isUsable = true ∧ p.namesDirectory = false := by
      simpa using hfile
    split at h
    · contradiction
    · rename_i name hlast
      split at h
      · contradiction
      · rename_i around hwalk
        split at h
        · contradiction
        · rename_i hname
          obtain ⟨hparent, hnamed⟩ : name ≠ ".." ∧ Path.isNameUsable name = true := by
            simpa using hname
          obtain ⟨outer, hnames⟩ := List.getLast?_eq_some_iff.mp hlast
          have houter := (walk_eq_ok_iff.mp hwalk).2.1
          refine ⟨husable, hdirectory, ⟨name, hlast, hparent⟩, ?_⟩
          rw [hnames, List.dropLast_concat] at houter
          rw [hnames, List.forall_mem_append]
          exact ⟨houter, List.forall_mem_singleton.mpr hnamed⟩

theorem locate_eq_ok_iff {t : FileTree} {p : Path} {place : List String} :
    t.locate p = .ok place ↔ p.NamesFile ∧ t.Open (t.ancestors p) ∧ place = t.target p := by
  constructor
  · intro h
    have hfile := namesFile_of_locate h
    rw [locate_of_namesFile hfile] at h
    cases hwalk : t.walk (t.start p) p.names.dropLast with
    | error failure =>
      rw [hwalk] at h
      contradiction
    | ok around =>
      rw [hwalk] at h
      exact ⟨hfile, ((walk_dropLast_iff hfile).mp hwalk).2, (Except.ok.inj h).symm⟩
  · rintro ⟨hfile, hopen, rfl⟩
    rw [locate_of_namesFile hfile, (walk_dropLast_iff hfile).mpr ⟨rfl, hopen⟩]
    rfl

theorem not_open_of_locate_eq_error {t : FileTree} {p : Path} {failure : Obstacle}
    (h : t.locate p = .error failure) (hfile : p.NamesFile) : ¬ t.Open (t.ancestors p) := by
  intro hopen
  rw [locate_eq_ok_iff.mpr ⟨hfile, hopen, rfl⟩] at h
  contradiction

theorem readFile?_eq_some_iff {t : FileTree} {p : Path} {text : String} :
    t.readFile? p = some text ↔
      p.NamesFile ∧ t.Open (t.ancestors p) ∧ t.lookup? (t.target p) = some (.file text) := by
  unfold readFile?
  cases hplace : t.locate p with
  | error failure =>
    refine iff_of_false (fun h => by contradiction) ?_
    exact fun h => not_open_of_locate_eq_error hplace h.1 h.2.1
  | ok place =>
    obtain ⟨hfile, hopen, rfl⟩ := locate_eq_ok_iff.mp hplace
    dsimp only
    rw [and_iff_right hfile, and_iff_right hopen]
    split
    · rename_i found hfound
      rw [hfound]
      simp
    · rename_i hother
      exact iff_of_false (fun h => by contradiction) (hother text)

theorem writeFile_eq (t : FileTree) (p : Path) (text : String) :
    t.writeFile p text =
      match t.locate p with
      | .error failure => .error failure
      | .ok place =>
        match t.lookup? place with
        | some .directory => .error .refused
        | _ => .ok (t.set place (.file text)) := by
  unfold writeFile locate
  split
  · rfl
  · cases p.names.getLast? with
    | none => rfl
    | some name =>
      dsimp only
      cases t.walk (t.start p) p.names.dropLast with
      | error failure => rfl
      | ok place =>
        dsimp only
        split
        · rfl
        · rfl

theorem writeFile_eq_ok_iff {t written : FileTree} {p : Path} {text : String} :
    t.writeFile p text = .ok written ↔
      p.NamesFile ∧ t.Open (t.ancestors p) ∧ t.lookup? (t.target p) ≠ some .directory ∧
        written = t.set (t.target p) (.file text) := by
  rw [writeFile_eq]
  cases hplace : t.locate p with
  | error failure =>
    refine iff_of_false (fun h => by contradiction) ?_
    exact fun h => not_open_of_locate_eq_error hplace h.1 h.2.1
  | ok place =>
    obtain ⟨hfile, hopen, rfl⟩ := locate_eq_ok_iff.mp hplace
    dsimp only
    rw [and_iff_right hfile, and_iff_right hopen]
    split
    · rename_i hdirectory
      exact iff_of_false (fun h => by contradiction) fun h => h.1 hdirectory
    · rename_i hother
      rw [and_iff_right hother, Except.ok.injEq]
      exact eq_comm

/-! Both together. -/

section keeps

variable {t later : FileTree} {files around : List (List String)} (h : t.Keeps files around later)

include h

theorem Keeps.target (p : Path) : later.target p = t.target p := by
  unfold FileTree.target
  rw [h.start]

theorem Keeps.ancestors (p : Path) : later.ancestors p = t.ancestors p := by
  unfold FileTree.ancestors
  rw [h.start]

theorem Keeps.readFile? {p : Path} {text : String} (hplace : t.target p ∉ files)
    (hread : t.readFile? p = some text) : later.readFile? p = some text := by
  rw [readFile?_eq_some_iff] at hread ⊢
  obtain ⟨hfile, hopen, hfound⟩ := hread
  rw [h.target, h.ancestors]
  exact ⟨hfile, fun d hd => h.directory d (hopen d hd), (h.file_iff hplace text).mpr hfound⟩

end keeps

theorem passed_parent (t : FileTree) (p : Path) :
    passed (t.start p.parent) p.parent.names = t.ancestors p := by
  unfold ancestors
  rw [← p.names_parent]
  by_cases h : p.parent.names = []
  · rw [h, passed_nil, passed_nil]
  · rw [t.start_parent h]

def Clear (t : FileTree) (places : List (List String)) : Prop :=
  ∀ d ∈ places, ∀ text, t.lookup? d ≠ some (.file text)

theorem clear_iff {t : FileTree} {places : List (List String)} : t.Clear places ↔
    ∀ d ∈ places, t.lookup? d = none ∨ t.lookup? d = some .directory := by
  refine forall₂_congr fun d _ => ?_
  cases t.lookup? d with
  | none => simp
  | some entry => cases entry <;> simp

instance (t : FileTree) (places : List (List String)) : Decidable (t.Clear places) :=
  decidable_of_iff _ clear_iff.symm

theorem Clear.of_open {t : FileTree} {places : List (List String)} (h : t.Open places) :
    t.Clear places := by
  intro d hd text hfile
  cases (h d hd).symm.trans hfile

theorem clear_iff_of_grows {t grown : FileTree} {places more : List (List String)}
    (h : t.Grows more grown) : grown.Clear places ↔ t.Clear places := by
  unfold Clear
  simp only [ne_eq, h.file_iff List.not_mem_nil]

theorem walk_of_clear {t : FileTree} {place names : List String}
    (hnamed : ∀ name ∈ names, Path.isNameUsable name = true)
    (hclear : t.Clear (passed place names)) :
    t.walk place names = .ok (follow place names) ∨ t.walk place names = .error .missing := by
  induction names generalizing place with
  | nil => exact .inl rfl
  | cons name rest ih =>
    obtain ⟨husable, hrest⟩ := List.forall_mem_cons.mp hnamed
    unfold passed at hclear
    unfold walk follow
    by_cases hparent : name = ".."
    · rw [if_pos hparent] at hclear
      rw [if_pos hparent, if_pos hparent]
      exact ih hrest hclear
    · rw [if_neg hparent] at hclear
      rw [if_neg hparent, if_neg hparent, if_neg (by simpa using husable)]
      cases hfound : t.lookup? (place ++ [name]) with
      | none => exact .inr rfl
      | some entry =>
        cases entry with
        | file text => exact absurd hfound (hclear _ List.mem_cons_self text)
        | directory => exact ih hrest fun d hd => hclear d (List.mem_cons_of_mem _ hd)

theorem makeDirectory_of_open {t : FileTree} {start outer : List String} {name : String}
    (hnamed : ∀ other ∈ outer ++ [name], Path.isNameUsable other = true)
    (hopen : t.Open (passed start outer)) (hclear : t.Clear (passed start (outer ++ [name]))) :
    ∃ made, t.makeDirectory start outer name = .ok made := by
  obtain ⟨houter, husable⟩ := List.forall_mem_append.mp hnamed
  have hname := List.forall_mem_singleton.mp husable
  unfold makeDirectory
  rw [walk_eq_ok_iff.mpr ⟨rfl, houter, hopen⟩]
  dsimp only
  by_cases hparent : name = ".."
  · exact ⟨t, if_pos hparent⟩
  · rw [if_neg hparent, if_neg (by simpa using hname)]
    have hlast := hclear _ ((mem_passed_concat hparent).mpr (.inr rfl))
    cases hfound : t.lookup? (follow start outer ++ [name]) with
    | none => exact ⟨_, rfl⟩
    | some entry =>
      cases entry with
      | file text => exact absurd hfound (hlast text)
      | directory => exact ⟨t, rfl⟩

theorem makeDirectories_of_clear {t : FileTree} {start names : List String}
    (hnamed : ∀ name ∈ names.reverse, Path.isNameUsable name = true)
    (hclear : t.Clear (passed start names.reverse)) : (t.makeDirectories start names).2 = .ok () := by
  induction names with
  | nil => rfl
  | cons name outer ih =>
    rw [List.reverse_cons] at hnamed hclear
    have houter : ∀ other ∈ outer.reverse, Path.isNameUsable other = true :=
      fun other hother => hnamed other (List.mem_append_left _ hother)
    have haround : t.Clear (passed start outer.reverse) := by
      intro d hd
      rw [passed_append] at hclear
      exact hclear d (List.mem_append_left _ hd)
    unfold makeDirectories
    rcases walk_of_clear houter haround with hwalk | hwalk
    · obtain ⟨made, hmade⟩ :=
        makeDirectory_of_open hnamed (walk_eq_ok_iff.mp hwalk).2.2 hclear
      rw [hmade]
    -- The directories around it are made first, and then the walk arrives.
    · have hmissing : t.makeDirectory start outer.reverse name = .error .missing := by
        unfold makeDirectory
        rw [hwalk]
      rw [hmissing]
      have hok := ih houter haround
      obtain ⟨hgrows, hopen⟩ := t.grows_makeDirectories start outer
      generalize t.makeDirectories start outer = made at hok hgrows hopen
      obtain ⟨around, result⟩ := made
      cases hok
      obtain ⟨made, hmade⟩ :=
        makeDirectory_of_open hnamed (hopen rfl) ((clear_iff_of_grows hgrows).mpr hclear)
      dsimp only
      rw [hmade]

/-- A file can be written at the path once the directories around it have been made. -/
structure Admits (t : FileTree) (p : Path) : Prop where
  namesFile : p.NamesFile
  clear : t.Clear (t.ancestors p)
  apart : t.target p ∉ t.ancestors p
  free : t.lookup? (t.target p) ≠ some .directory

instance (t : FileTree) (p : Path) : Decidable (t.Admits p) :=
  decidable_of_iff (p.NamesFile ∧ t.Clear (t.ancestors p) ∧ t.target p ∉ t.ancestors p ∧
      t.lookup? (t.target p) ≠ some .directory)
    ⟨fun h => ⟨h.1, h.2.1, h.2.2.1, h.2.2.2⟩, fun h => ⟨h.namesFile, h.clear, h.apart, h.free⟩⟩

theorem ensure_parent (t : FileTree) (p : Path) :
    t.Grows (t.ancestors p) (t.ensure p.parent).1 ∧
      ((t.ensure p.parent).2 = .ok () → (t.ensure p.parent).1.Open (t.ancestors p)) := by
  rw [← passed_parent]
  exact t.grows_ensure p.parent

theorem ensure_parent_of_clear {t : FileTree} {p : Path} (h : p.NamesFile)
    (hclear : t.Clear (t.ancestors p)) : (t.ensure p.parent).2 = .ok () := by
  unfold ensure
  rw [if_neg (by simp [p.isUsable_parent h.usable]), p.endsInDot_parent,
    if_neg Bool.false_ne_true]
  apply makeDirectories_of_clear
  · rw [List.reverse_reverse, p.names_parent]
    exact fun name hname => h.named name ((List.dropLast_sublist _).subset hname)
  · rwa [List.reverse_reverse, passed_parent]

/-- The text is in the file at the end of the path, and the places around it are directories. All
else is as it was. -/
structure Wrote (t : FileTree) (p : Path) (text : String) (written : FileTree) : Prop where
  read : written.readFile? p = some text
  around : written.Open (t.ancestors p)
  keeps : t.Keeps [t.target p] (t.ancestors p) written

theorem target_ne_nil {t : FileTree} {p : Path} (h : p.NamesFile) : t.target p ≠ [] := by
  obtain ⟨name, hlast, hname⟩ := h.last
  obtain ⟨outer, hnames⟩ := List.getLast?_eq_some_iff.mp hlast
  unfold target
  rw [hnames, follow_concat hname]
  exact List.append_ne_nil_of_right_ne_nil _ (List.cons_ne_nil _ _)

theorem wrote_of_grows {t around : FileTree} {p : Path} (hgrows : t.Grows (t.ancestors p) around)
    (h : p.NamesFile) (hopen : around.Open (t.ancestors p))
    (hfree : around.lookup? (t.target p) ≠ some .directory) (text : String) :
    t.Wrote p text (around.set (t.target p) (.file text)) := by
  have htarget := target_ne_nil (t := t) h
  have hset := keeps_set htarget hfree (.file text)
  have hkeeps := hgrows.trans hset
  rw [List.nil_append, List.append_nil] at hkeeps
  have haround := fun d hd => hset.directory d (hopen d hd)
  refine ⟨?_, haround, hkeeps⟩
  rw [readFile?_eq_some_iff, hkeeps.target, hkeeps.ancestors, lookup?_set around htarget, if_pos rfl]
  exact ⟨h, haround, rfl⟩

theorem admits_of_writeFile {t around written : FileTree} {p : Path} {text : String}
    (hgrows : t.Grows (t.ancestors p) around) (h : around.writeFile p text = .ok written) :
    t.Admits p := by
  obtain ⟨hfile, hopen, hfree, -⟩ := writeFile_eq_ok_iff.mp h
  rw [hgrows.ancestors] at hopen
  rw [hgrows.target] at hfree
  have hclear := (clear_iff_of_grows hgrows).mp (Clear.of_open hopen)
  refine ⟨hfile, hclear, fun hmem => ?_, fun hdirectory => ?_⟩
  · exact hfree (hopen _ hmem)
  · exact hfree (hgrows.directory _ hdirectory)

theorem wrote_of_writeFile {t around written : FileTree} {p : Path} {text : String}
    (hgrows : t.Grows (t.ancestors p) around) (h : around.writeFile p text = .ok written) :
    t.Wrote p text written := by
  have hadmits := admits_of_writeFile hgrows h
  obtain ⟨hfile, hopen, hfree, rfl⟩ := writeFile_eq_ok_iff.mp h
  rw [hgrows.ancestors] at hopen
  rw [hgrows.target] at hfree ⊢
  exact wrote_of_grows hgrows hfile hopen hfree text

/-- Where the tree admits a text, nothing stands in the way of writing it. -/
theorem write_ok_of_admits {t : FileTree} {p : Path} (h : t.Admits p) (text : String) :
    (t.write p text).2 = .ok () := by
  obtain ⟨hgrows, hopen⟩ := t.ensure_parent p
  have hok := ensure_parent_of_clear h.namesFile h.clear
  unfold write
  generalize t.ensure p.parent = made at hgrows hopen hok
  obtain ⟨around, result⟩ := made
  cases hok
  replace hopen := hopen rfl
  have hfree : around.lookup? (t.target p) ≠ some .directory := by
    rcases hgrows.elsewhere (t.target p) List.not_mem_nil with hsame | ⟨hmem, -⟩
    · rw [hsame]
      exact h.free
    · exact absurd hmem h.apart
  have hwrite : around.writeFile p text = .ok (around.set (t.target p) (.file text)) := by
    rw [writeFile_eq_ok_iff, hgrows.ancestors, hgrows.target]
    exact ⟨h.namesFile, hopen, hfree, rfl⟩
  dsimp only
  rw [hwrite]

end ExtensionHeader.FileTree
