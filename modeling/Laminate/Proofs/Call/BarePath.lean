import Laminate.Call.Argument
import Laminate.Proofs.Call.Words
import Laminate.Proofs.Cursor.Segments
import Laminate.Walk.Visitors

/-!
# Bare paths

A bare path is an argument text of steps between dots, without blanks, brackets, quotes, escapes or
dollar signs, that is no literal. It is one word (`readAll_eq`), and its cursor has as components
the steps that a plain cut at the dots gives (`parse_eq`). So a call to `grab` with a bare path has
one reference, whichever way it is read (`parseAll_eq`, `grabTarget_eq`).
-/

namespace Laminate

/-- A path as the whole of an argument text, with nothing in it but steps and dots. -/
structure BarePath (text : String) : Prop where
  nonempty : text ≠ ""
  no_blank : ∀ c ∈ text.toList, Text.isBlank c = false
  no_mark : ∀ c ∈ text.toList, c ∉ ['[', ']', '"', '\\', '$']
  not_literal : Argument.bareLiteral? text = none

instance (text : String) : Decidable (BarePath text) :=
  decidable_of_iff (text ≠ "" ∧
      (text.toList.all fun c => !Text.isBlank c && decide (c ∉ ['[', ']', '"', '\\', '$'])) ∧
      Argument.bareLiteral? text = none) <| by
    simp only [List.all_eq_true, Bool.and_eq_true, Bool.not_eq_true', decide_eq_true_eq]
    exact ⟨fun ⟨hnonempty, hchars, hliteral⟩ =>
        ⟨hnonempty, fun c hc => (hchars c hc).1, fun c hc => (hchars c hc).2, hliteral⟩,
      fun h => ⟨h.nonempty, fun c hc => ⟨h.no_blank c hc, h.no_mark c hc⟩, h.not_literal⟩⟩

/-! ## Words -/

/-- Characters that are neither quotes nor backslashes nor blanks are written as they are. -/
theorem Token.writes_self {cs : List Char} (hmarks : ∀ c ∈ cs, c ≠ '"' ∧ c ≠ '\\')
    (hblank : ∀ c ∈ cs, Text.isBlank c = false) : Writes cs ⟨cs, false⟩ := by
  induction cs with
  | nil => exact .nil
  | cons c cs ih =>
    obtain ⟨⟨hquote, hescape⟩, hmarks⟩ := List.forall_mem_cons.mp hmarks
    obtain ⟨hc, hblank⟩ := List.forall_mem_cons.mp hblank
    exact .bare hquote hescape hc (ih hmarks hblank)

/-! ## Paths -/

namespace BarePath

variable {text : String}

theorem no_dollar (h : BarePath text) : '$' ∉ text.toList :=
  fun hmem => h.no_mark _ hmem (by simp)

theorem readAll_eq (h : BarePath text) : Token.readAll text = .ok [.reference text] := by
  have hmarks : ∀ c ∈ text.toList, c ≠ '"' ∧ c ≠ '\\' := fun c hc => by
    have := h.no_mark c hc
    simp only [List.mem_cons, not_or] at this
    exact ⟨this.2.2.1, this.2.2.2.1⟩
  have hne : text.toList ≠ [] := fun hnil => h.nonempty (String.toList_eq_nil_iff.mp hnil)
  rw [Token.readAll, Token.Reader.start,
    Token.Reader.read_last [] 0 ⟨Token.writes_self hmarks h.no_blank, hne⟩]
  simp [Token.Word.token]

theorem parse_eq (h : BarePath text) : Cursor.parse text = .ok ⟨DottedPath.steps text⟩ := by
  have hbracket : NoBracket text.toList := by
    intro c hc
    have := h.no_mark c hc
    simp only [List.mem_cons, not_or] at this
    exact ⟨this.1, this.2.1⟩
  refine Cursor.parse_eq_steps hbracket fun hroot => h.no_dollar ?_
  exact DottedPath.mem_of_mem_steps (DottedPath.mem_steps_of_firstSegment? hroot) (by simp)

theorem parseAll_eq (h : BarePath text) :
    Argument.parseAll text = .ok [.reference ⟨DottedPath.steps text⟩] := by
  simp only [Argument.parseAll, h.readAll_eq, List.mapM_cons, List.mapM_nil, Argument.ofToken,
    h.not_literal, h.parse_eq]
  rfl

theorem grabTarget_eq {call : Call} (h : BarePath call.args) :
    Visitor.grabTarget call = .ok call.args := by
  simp only [Visitor.grabTarget, h.readAll_eq]

/-- No step of a bare path has a bracket in it. -/
theorem no_bracket (h : BarePath text) {step : String} (hstep : step ∈ DottedPath.steps text) :
    '[' ∉ step.toList :=
  fun hmem => h.no_mark _ (DottedPath.mem_of_mem_steps hstep hmem) List.mem_cons_self

end BarePath

end Laminate
