import ExtensionHeader.FileTree
import ExtensionHeader.Header.Section
import ExtensionHeader.Validation.Report

/-! The generator: declarations are validated, a header is made of those that pass, and the header is
written to a file. A failed generation touches nothing, and a failed write is reported with the path
as it was given. -/
namespace ExtensionHeader

structure Config where
  mode : Validation.Mode := .lenient
  sharesArgInfo : Bool := true
  /-- Asks for a second emission that is compared with the first. -/
  verifiesDeterminism : Bool := false
  hasBanner : Bool := true
deriving DecidableEq, Repr, Inhabited

namespace Config

def options (c : Config) : Header.Options :=
  { sharesArgInfo := c.sharesArgInfo, hasBanner := c.hasBanner }

/-- Whether a second emission gives the text again, if there is one. -/
def reproduces (c : Config) (e : Extension) (text : String) : Except Header.Defect Bool :=
  if c.verifiesDeterminism then (Header.emit c.options e).map (· == text) else .ok true

theorem reproduces_of_emit {c : Config} {e : Extension} {text : String}
    (h : Header.emit c.options e = .ok text) : c.reproduces e text = .ok true := by
  unfold reproduces
  split
  · rw [h]
    exact congrArg Except.ok (beq_self_eq_true text)
  · rfl

end Config

structure Generated where
  text : String
  warnings : List Diagnostic
deriving DecidableEq, Repr, Inhabited

inductive Failure where
  | invalid (errors : List Diagnostic)
  | internal (error : Header.Defect)
  /-- Nothing could be written to the path. -/
  | io (path : String)
deriving DecidableEq, Repr, Inhabited

def Failure.message : Failure → String
  | invalid errors => Diagnostic.summary errors
  | internal error => s!"internal generator error: {error.message}"
  | io path => s!"failed to write {path}"

def generate (config : Config) (e : Extension) : Except Failure Generated :=
  match (e.validate config.mode).result with
  | .error errors => .error (.invalid errors)
  | .ok warnings =>
    match hemit : Header.emit config.options e with
    | .error error => .error (.internal error)
    | .ok text =>
      match hagain : config.reproduces e text with
      | .error error => .error (.internal error)
      | .ok true => .ok ⟨text, warnings⟩
      -- No failure stands for two emissions that differ: there are none.
      | .ok false => nomatch hagain.symm.trans (Config.reproduces_of_emit hemit)

def Generated.write (h : Generated) (t : FileTree) (path : String) :
    FileTree × Except Failure Generated :=
  match t.write ⟨path⟩ h.text with
  | (written, .ok ()) => (written, .ok h)
  | (written, .error _) => (written, .error (.io path))

def generateToFile (config : Config) (e : Extension) (t : FileTree) (path : String) :
    FileTree × Except Failure Generated :=
  match generate config e with
  | .error error => (t, .error error)
  | .ok header => header.write t path

end ExtensionHeader
