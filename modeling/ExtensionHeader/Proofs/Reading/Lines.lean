import ExtensionHeader.Header.Section

/-! The lines of generated text. The sections of a header end in a newline each and are joined by
another one, so the lines of the whole are those of its sections, one section after the other. -/
namespace ExtensionHeader

namespace Text

/-- The lines of a text; what follows the last newline is a line too, empty or not. -/
def lines (s : String) : List String := (s.toList.splitOn '\n').map String.ofList

theorem lines_append (s t : String) : lines (s ++ "\n" ++ t) = lines s ++ lines t := by
  have hlist : (s ++ "\n" ++ t).toList = s.toList ++ '\n' :: t.toList := by
    rw [String.toList_append, String.toList_append, List.append_assoc]
    rfl
  unfold lines
  rw [hlist, List.splitOn_append_cons_self, List.map_append]

theorem lines_of_not_mem {s : String} (h : '\n' ∉ s.toList) : lines s = [s] := by
  unfold lines
  rw [List.splitOn_eq_singleton h, List.map_singleton, String.ofList_toList]

def flush (line : String) : String := String.ofList (line.toList.dropWhile (· == '\t'))

theorem toList_pushn (n : Nat) : ("".pushn '\t' n).toList = List.replicate n '\t' := by
  rw [String.pushn_eq_repeat_push]
  induction n with
  | zero => rfl
  | succ n ih => rw [Nat.repeat, String.toList_push, ih, List.replicate_succ']

namespace Line

def written (l : Line) : String := "".pushn '\t' l.depth ++ l.text

theorem written_zero (text : String) : (⟨0, text⟩ : Line).written = text := String.empty_append

theorem lines_renderAll (ls : List Line) :
    lines (renderAll ls) = ls.flatMap (lines ·.written) ++ [""] := by
  induction ls with
  | nil => rfl
  | cons l rest ih =>
    have hrender : renderAll (l :: rest) = l.written ++ "\n" ++ renderAll rest := by
      unfold renderAll
      rw [List.map_cons, String.join_cons]
      rfl
    rw [hrender, lines_append, ih, List.flatMap_cons, List.append_assoc]

end Line

end Text

namespace Header

theorem call_cons (name first : String) {args : List String} (h : args ≠ []) :
    call name (first :: args) =
      name ++ "(" ++ first ++ (", " ++ (", ".intercalate args ++ ")")) := by
  obtain ⟨second, rest, rfl⟩ := List.exists_cons_of_ne_nil h
  unfold call
  rw [String.intercalate_cons_cons]
  simp only [String.append_assoc]

def Section.text (s : Section) : String := String.join (s.lines.map fun l => l.written ++ "\n")

theorem render_eq (ss : List Section) : render ss = "\n".intercalate (ss.map (·.text)) := rfl

def Section.written (s : Section) : List String := Text.lines s.render

theorem Section.written_eq (s : Section) :
    s.written = s.lines.flatMap (Text.lines ·.written) ++ [""] :=
  Text.Line.lines_renderAll s.lines

theorem lines_render {ss : List Section} (h : ss ≠ []) :
    Text.lines (render ss) = ss.flatMap (·.written) := by
  unfold render
  induction ss with
  | nil => exact absurd rfl h
  | cons first rest ih =>
    cases rest with
    | nil =>
      rw [List.map_singleton, String.intercalate_singleton, List.flatMap_singleton]
      rfl
    | cons second rest =>
      have hrest := ih (List.cons_ne_nil second rest)
      rw [List.map_cons] at hrest
      rw [List.map_cons, List.map_cons, String.intercalate_cons_cons, Text.lines_append, hrest,
        List.flatMap_cons]
      rfl

end Header

end ExtensionHeader
