import ExtensionHeader.Output
import ExtensionHeader.Proofs.FileTree

/-! Requests to write headers, which are performed one after the other on a tree of files. The
storage under the tree may fail where the tree stands in the way of nothing. What a request may
change is said case by case; from this follows what a whole session leaves as it was, and what is
read when it is over. -/
namespace ExtensionHeader

namespace FileTree

/-- The two operations of a storage. They may fail for any reason, and then leave some of the
directories that were to be made. Nothing else is relied on than that directories come only to free
places on the way of a path, and that a text is written as the tree does it or not at all. -/
structure Storage where
  ensure : FileTree → Path → FileTree × Except Obstacle Unit
  writeFile : FileTree → Path → String → Except Obstacle FileTree
  grows : ∀ (t : FileTree) (p : Path), t.Grows (passed (t.start p) p.names) (ensure t p).1
  replaces : ∀ (t : FileTree) (p : Path) (text : String) (written : FileTree),
    writeFile t p text = .ok written → t.writeFile p text = .ok written

namespace Storage

def faultless : Storage where
  ensure := FileTree.ensure
  writeFile := FileTree.writeFile
  grows t p := (t.grows_ensure p).1
  replaces _ _ _ _ := id

def write (s : Storage) (t : FileTree) (p : Path) (text : String) :
    FileTree × Except Obstacle Unit :=
  match s.ensure t p.parent with
  | (around, .error failure) => (around, .error failure)
  | (around, .ok ()) =>
    match s.writeFile around p text with
    | .error failure => (around, .error failure)
    | .ok written => (written, .ok ())

theorem write_faultless (t : FileTree) (p : Path) (text : String) :
    faultless.write t p text = t.write p text :=
  rfl

theorem grows_ensure_parent (s : Storage) (t : FileTree) (p : Path) :
    t.Grows (t.ancestors p) (s.ensure t p.parent).1 := by
  rw [← passed_parent]
  exact s.grows t p.parent

/-- A text is written only where the tree admits it. Otherwise no more than directories is added,
and without faults that happens only where the tree does not admit the text. -/
theorem write_cases (s : Storage) (t : FileTree) (p : Path) (text : String) :
    (∃ written, s.write t p text = (written, .ok ()) ∧ t.Admits p ∧ t.Wrote p text written) ∨
      ∃ around failure, s.write t p text = (around, .error failure) ∧
        (s = faultless → ¬ t.Admits p) ∧ t.Grows (t.ancestors p) around := by
  have hrefused {failure : Obstacle} (h : (s.write t p text).2 = .error failure) :
      s = faultless → ¬ t.Admits p := by
    rintro rfl hadmits
    rw [write_faultless, write_ok_of_admits hadmits text] at h
    contradiction
  have hgrows := s.grows_ensure_parent t p
  unfold write at hrefused ⊢
  generalize s.ensure t p.parent = made at hrefused hgrows
  obtain ⟨around, result⟩ := made
  cases result with
  | error failure => exact .inr ⟨around, failure, rfl, hrefused rfl, hgrows⟩
  | ok =>
    dsimp only at hrefused ⊢
    cases hwrite : s.writeFile around p text with
    | error failure =>
      rw [hwrite] at hrefused
      exact .inr ⟨around, failure, rfl, hrefused rfl, hgrows⟩
    | ok written =>
      have hwritten := s.replaces around p text written hwrite
      exact .inl ⟨written, rfl, admits_of_writeFile hgrows hwritten,
        wrote_of_writeFile hgrows hwritten⟩

end Storage

end FileTree

open FileTree

inductive Request.Source where
  | header (h : Generated)
  | extension (config : Config) (e : Extension)
deriving DecidableEq, Repr

structure Request where
  path : String
  source : Request.Source
deriving DecidableEq, Repr

namespace Request

def header? (r : Request) : Except Failure Generated :=
  match r.source with
  | .header h => .ok h
  | .extension config e => generate config e

def perform (r : Request) (t : FileTree) : FileTree × Except Failure Generated :=
  match r.source with
  | .header h => h.write t r.path
  | .extension config e => generateToFile config e t r.path

def performOn (s : Storage) (r : Request) (t : FileTree) : FileTree × Except Failure Generated :=
  match r.header? with
  | .error failure => (t, .error failure)
  | .ok h =>
    match s.write t ⟨r.path⟩ h.text with
    | (written, .ok ()) => (written, .ok h)
    | (around, .error _) => (around, .error (.io r.path))

def target (r : Request) (t : FileTree) : List String := t.target ⟨r.path⟩

def written (r : Request) (t : FileTree) : Except Failure Generated → List (List String)
  | .ok _ => [r.target t]
  | .error _ => []

theorem mem_written_iff {r : Request} {t : FileTree} {result : Except Failure Generated}
    {place : List String} :
    place ∈ r.written t result ↔ (∃ out, result = .ok out) ∧ place = r.target t := by
  cases result with
  | ok out => simp [written]
  | error failure => simp [written]

/-- What may come of a request. Without a header the tree is as it was. With one it is written
where the tree admits a file, on a faultless storage exactly there; otherwise the failure carries
the path as it was given, and no more has happened than that directories around the path were
made. -/
inductive Answered (s : Storage) (r : Request) (t : FileTree) :
    Except Failure Generated → FileTree → Prop where
  | failed {failure : Failure} : r.header? = .error failure → Answered s r t (.error failure) t
  | written {h : Generated} {after : FileTree} : r.header? = .ok h → t.Admits ⟨r.path⟩ →
    t.Wrote ⟨r.path⟩ h.text after → Answered s r t (.ok h) after
  | refused {h : Generated} {after : FileTree} : r.header? = .ok h →
    (s = .faultless → ¬ t.Admits ⟨r.path⟩) → t.Grows (t.ancestors ⟨r.path⟩) after →
      Answered s r t (.error (.io r.path)) after

theorem perform_eq (r : Request) (t : FileTree) : r.perform t = r.performOn .faultless t := by
  unfold perform performOn header?
  cases r.source with
  | header h => rfl
  | extension config e =>
    dsimp only
    unfold generateToFile
    cases generate config e with
    | error failure => rfl
    | ok h => rfl

theorem performOn_answered (s : Storage) (r : Request) (t : FileTree) :
    r.Answered s t (r.performOn s t).2 (r.performOn s t).1 := by
  unfold performOn
  cases hheader : r.header? with
  | error failure => exact .failed hheader
  | ok h =>
    dsimp only
    rcases s.write_cases t ⟨r.path⟩ h.text with
      ⟨written, hwrite, hadmits, hwrote⟩ | ⟨around, failure, hwrite, hadmits, hgrows⟩
    · rw [hwrite]
      exact .written hheader hadmits hwrote
    · rw [hwrite]
      exact .refused hheader hadmits hgrows

section answered

variable {s : Storage} {r : Request} {t later : FileTree} {result : Except Failure Generated}
  (h : r.Answered s t result later)

include h

theorem Answered.keeps : t.Keeps (r.written t result) (t.ancestors ⟨r.path⟩) later := by
  cases h with
  | failed => exact .refl _ _ _
  | written _ _ hwrote => exact hwrote.keeps
  | refused _ _ hgrows => exact hgrows

theorem Answered.target_eq (other : Request) : other.target later = other.target t :=
  h.keeps.target ⟨other.path⟩

end answered

end Request

namespace FileTree

def performAll (t : FileTree) : List Request → FileTree × List (Except Failure Generated)
  | [] => (t, [])
  | r :: rest =>
    let (next, result) := r.perform t
    let (last, results) := next.performAll rest
    (last, result :: results)

/-- Performs each request on a storage of its own, as faults come and go. -/
def performAllOn (t : FileTree) :
    List (Storage × Request) → FileTree × List (Except Failure Generated)
  | [] => (t, [])
  | (s, r) :: rest =>
    let (next, result) := r.performOn s t
    let (last, results) := next.performAllOn rest
    (last, result :: results)

theorem performAll_eq (t : FileTree) (requests : List Request) :
    t.performAll requests = t.performAllOn (requests.map (Storage.faultless, ·)) := by
  induction requests generalizing t with
  | nil => rfl
  | cons r rest ih =>
    rw [List.map_cons]
    unfold performAll performAllOn
    simp only [r.perform_eq, ih]

theorem performAllOn_cons (t : FileTree) (s : Storage) (r : Request)
    (rest : List (Storage × Request)) :
    t.performAllOn ((s, r) :: rest) = (((r.performOn s t).1.performAllOn rest).1,
      (r.performOn s t).2 :: ((r.performOn s t).1.performAllOn rest).2) :=
  rfl

/-- Each request is answered by the tree that the requests before it have left. -/
inductive Session : FileTree → List (Storage × Request) → List (Except Failure Generated) →
    FileTree → Prop where
  | nil (t : FileTree) : Session t [] [] t
  | cons {t next last : FileTree} {s : Storage} {r : Request} {rest : List (Storage × Request)}
    {result : Except Failure Generated} {results : List (Except Failure Generated)} :
    r.Answered s t result next → Session next rest results last →
      Session t ((s, r) :: rest) (result :: results) last

theorem performAllOn_answered (t : FileTree) (steps : List (Storage × Request)) :
    Session t steps (t.performAllOn steps).2 (t.performAllOn steps).1 := by
  induction steps generalizing t with
  | nil => exact .nil t
  | cons step rest ih =>
    obtain ⟨s, r⟩ := step
    rw [performAllOn_cons]
    exact .cons (r.performOn_answered s t) (ih _)

def written (t : FileTree) (answers : List ((Storage × Request) × Except Failure Generated)) :
    List (List String) :=
  answers.flatMap fun answer => answer.1.2.written t answer.2

theorem mem_written_iff {t : FileTree} {place : List String}
    {answers : List ((Storage × Request) × Except Failure Generated)} :
    place ∈ t.written answers ↔
      ∃ step out, (step, .ok out) ∈ answers ∧ place = step.2.target t := by
  unfold written
  simp only [List.mem_flatMap, Request.mem_written_iff]
  constructor
  · rintro ⟨⟨step, result⟩, hmem, ⟨out, rfl⟩, hplace⟩
    exact ⟨step, out, hmem, hplace⟩
  · rintro ⟨step, out, hmem, hplace⟩
    exact ⟨(step, .ok out), hmem, ⟨out, rfl⟩, hplace⟩

theorem not_mem_written {t : FileTree} {place : List String} {steps : List (Storage × Request)}
    (h : ∀ step ∈ steps, place ≠ step.2.target t) (results : List (Except Failure Generated)) :
    place ∉ t.written (steps.zip results) := by
  rw [mem_written_iff]
  rintro ⟨step, out, hmem, hplace⟩
  exact h step (List.of_mem_zip hmem).1 hplace

theorem Keeps.written {t later : FileTree} {files around : List (List String)}
    (h : t.Keeps files around later)
    (answers : List ((Storage × Request) × Except Failure Generated)) :
    later.written answers = t.written answers := by
  unfold FileTree.written Request.written Request.target
  simp only [h.target]

namespace Session

variable {t last : FileTree} {steps : List (Storage × Request)}
  {results : List (Except Failure Generated)}

theorem keeps (h : Session t steps results last) :
    t.Keeps (t.written (steps.zip results))
      (steps.flatMap fun step => t.ancestors ⟨step.2.path⟩) last := by
  induction h with
  | nil t => exact .refl _ _ _
  | @cons t next last s r rest result results hanswer _ ih =>
    simp only [hanswer.keeps.written, hanswer.keeps.ancestors] at ih
    exact hanswer.keeps.trans ih

/-- What is written stays until something else is written to the same place. -/
theorem readFile? (h : Session t steps results last) {i : Nat} {step : Storage × Request}
    {out : Generated} (hanswer : (steps.zip results)[i]? = some (step, .ok out))
    (hlater : step.2.target t ∉ t.written ((steps.zip results).drop (i + 1))) :
    last.readFile? ⟨step.2.path⟩ = some out.text := by
  induction h generalizing i with
  | nil t => contradiction
  | @cons t next last s first rest result results hfirst hsession ih =>
    have hplace := hfirst.keeps.target ⟨first.path⟩
    have hwritten := hfirst.keeps.written
    cases i with
    | zero =>
      cases hanswer
      cases hfirst with
      | written _ _ hwrote =>
        refine hsession.keeps.readFile? ?_ hwrote.read
        rw [hwritten, hplace]
        exact hlater
    | succ i =>
      apply ih hanswer
      rw [hwritten, hfirst.target_eq]
      exact hlater

end Session

/-- Requests are answered in turn, whatever the tree, the requests and the faults of the storage
are. At the end of a session directories are where they were, away from the files that have been
written nothing else has changed than that directories were made around paths of the session, and
from a path is read what was last written there. -/
theorem performAll_keeps (t : FileTree) (steps : List (Storage × Request)) :
    (∀ requests, t.performAll requests =
      t.performAllOn (requests.map (Storage.faultless, ·))) ∧
    Session t steps (t.performAllOn steps).2 (t.performAllOn steps).1 ∧
    (∀ place, t.lookup? place = some .directory →
      (t.performAllOn steps).1.lookup? place = some .directory) ∧
    (∀ place, place ∉ t.written (steps.zip (t.performAllOn steps).2) →
      (t.performAllOn steps).1.lookup? place = t.lookup? place ∨
        (∃ step ∈ steps, place ∈ t.ancestors ⟨step.2.path⟩) ∧ t.lookup? place = none ∧
          (t.performAllOn steps).1.lookup? place = some .directory) ∧
    ∀ i step out, (steps.zip (t.performAllOn steps).2)[i]? = some (step, .ok out) →
      step.2.target t ∉ t.written ((steps.zip (t.performAllOn steps).2).drop (i + 1)) →
        (t.performAllOn steps).1.readFile? ⟨step.2.path⟩ = some out.text := by
  have hsession := t.performAllOn_answered steps
  refine ⟨t.performAll_eq, hsession, hsession.keeps.directory, fun place hplace => ?_,
    fun i step out => hsession.readFile?⟩
  exact (hsession.keeps.elsewhere place hplace).imp_right (And.imp_left List.mem_flatMap.mp)

def shared : FileTree where
  entries := [(["etc"], .directory), (["etc", "motd"], .file "hello")]

def greeting : Request :=
  { path := "./include//zend/greet.h", source := .header ⟨"greetings", []⟩ }

def errands : List (Storage × Request) := [
  (.faultless, greeting),
  (.faultless, { path := "include/../etc/motd/greet.h", source := .header ⟨"lost", []⟩ }),
  (.faultless,
    { path := "build/greet.h"
      source := .extension {} { functions := [{ name := ⟨[], "f"⟩ }, { name := ⟨[], "F"⟩ }] } })]

theorem performAll_keeps_errands :
    shared.performAll (errands.map Prod.snd) = shared.performAllOn errands ∧
    Session shared errands (shared.performAllOn errands).2 (shared.performAllOn errands).1 ∧
    (shared.performAllOn errands).2[0]? = some (.ok ⟨"greetings", []⟩) ∧
    (shared.performAllOn errands).1.readFile? ⟨"./include//zend/greet.h"⟩ = some "greetings" ∧
    (shared.performAllOn errands).1.lookup? ["etc", "motd"] = some (.file "hello") ∧
    (shared.performAllOn errands).1.lookup? ["etc"] = some .directory ∧
    (shared.performAllOn errands).1.lookup? ["usr"] = none := by
  obtain ⟨hprogram, hsession, hdirectory, helsewhere, hread⟩ := performAll_keeps shared errands
  have hfirst : (greeting.performOn .faultless shared).2 = .ok ⟨"greetings", []⟩ := by
    have hadmits : shared.Admits ⟨greeting.path⟩ := by decide +kernel
    have hheader : greeting.header? = .ok ⟨"greetings", []⟩ := rfl
    have hanswer := greeting.performOn_answered .faultless shared
    generalize greeting.performOn .faultless shared = performed at hanswer
    obtain ⟨next, result⟩ := performed
    cases hanswer with
    | failed hfailed =>
      rw [hheader] at hfailed
      contradiction
    | written hgenerated =>
      rw [hheader] at hgenerated
      cases hgenerated
      rfl
    | refused _ hrefused => exact absurd hadmits (hrefused rfl)
  have hresults : (shared.performAllOn errands).2[0]? = some (.ok ⟨"greetings", []⟩) := by
    rw [errands, performAllOn_cons, List.getElem?_cons_zero, hfirst]
  refine ⟨hprogram _, hsession, hresults, ?_, ?_, hdirectory ["etc"] (by decide), ?_⟩
  · refine hread 0 (.faultless, greeting) ⟨"greetings", []⟩ ?_ ?_
    · rw [List.getElem?_zip_eq_some]
      exact ⟨rfl, hresults⟩
    · rw [List.zip, List.drop_zipWith]
      exact not_mem_written (by decide +kernel) _
  · rcases helsewhere ["etc", "motd"] (not_mem_written (by decide +kernel) _) with
      hsame | ⟨-, hnone, -⟩
    · exact hsame
    · exact absurd hnone (by decide)
  · rcases helsewhere ["usr"] (not_mem_written (by decide +kernel) _) with hsame | ⟨hmem, -⟩
    · exact hsame
    · exact absurd hmem (by decide +kernel)

end FileTree

end ExtensionHeader
