import Laminate.Proofs.Call.Grammar
import Laminate.Proofs.Call.Words

/-!
# Blanks in a call

A call is spelled with a name, words and blanks between them (`Spelling`). Two spellings that differ
in their blanks only are read alike: both have the name, and their arguments are read as the same
tokens (`Token.exists_tokens`). But the arguments of a call have to stand on one line: a line break
between two words, or in a word, and the text is no call at all (`Spelling.parse?_text`).

A blank that ends the last word is lost although a backslash stands before it, for it cannot be told
from the blanks behind the arguments (`Token.Spells.exists_token`).
-/

namespace Laminate

/-! ## The last word without the blanks behind it -/

namespace Token

/-- A word ends with no blank, or with one that a backslash takes. -/
theorem Writes.ends {written : List Char} {w : Word} (h : Writes written w) :
    (∀ c ∈ written.getLast?, Text.isBlank c = false) ∨
      ∃ front blank v, Text.isBlank blank = true ∧ written = front ++ ['\\', blank] ∧
        Writes front v := by
  induction h with
  | nil => exact .inl fun _ hc => nomatch hc
  | @bare c written w no_quote no_escape no_blank rest ih =>
    obtain hlast | ⟨front, blank, v, hblank, rfl, hfront⟩ := ih
    · cases written with
      | nil => exact .inl fun d hd => Option.mem_some.mp hd ▸ no_blank
      | cons d written => exact .inl hlast
    · exact .inr ⟨_, blank, _, hblank, rfl, .bare no_quote no_escape no_blank hfront⟩
  | @escaped c written w rest ih =>
    obtain hlast | ⟨front, blank, v, hblank, rfl, hfront⟩ := ih
    · cases written with
      | cons d written => exact .inl hlast
      | nil =>
        by_cases hc : Text.isBlank c = true
        · exact .inr ⟨[], c, _, hc, rfl, .nil⟩
        · exact .inl fun d hd => Option.mem_some.mp hd ▸ Bool.eq_false_iff.mpr hc
    · exact .inr ⟨_, blank, _, hblank, rfl, .escaped c hfront⟩
  | @quoted inside chars written w part rest ih =>
    obtain hlast | ⟨front, blank, v, hblank, rfl, hfront⟩ := ih
    · refine .inl ?_
      rw [← List.cons_append, List.getLast?_append_of_ne_nil _ (List.cons_ne_nil _ _)]
      cases written with
      | nil => exact fun d hd => Option.mem_some.mp hd ▸ rfl
      | cons d written => exact hlast
    · exact .inr ⟨_, blank, _, hblank, by simp, .quoted part hfront⟩

/-- The last word is read as one token also without the blanks behind it. -/
theorem Spells.exists_token {written : List Char} {w : Word} (h : Spells written w) :
    Text.trimEnd written ≠ [] ∧ ∃ t, ∀ tokens position,
      Reader.read ⟨tokens, none, none⟩ position (Text.trimEnd written) = .ok (tokens ++ [t]) := by
  obtain hlast | ⟨front, blank, v, hblank, rfl, hfront⟩ := h.writes.ends
  · rw [Text.trimEnd_eq_self hlast]
    exact ⟨h.nonempty, w.token, fun tokens position => Reader.read_last tokens position h⟩
  · have htrim : Text.trimEnd (front ++ ['\\', blank]) = front ++ ['\\'] := by
      have hgap : Text.AllBlank [blank] := fun c hc => List.mem_singleton.mp hc ▸ hblank
      rw [List.append_cons, Text.trimEnd_append hgap]
      exact Text.trimEnd_eq_self fun c hc => by
        rw [List.getLast?_concat] at hc
        exact Option.mem_some.mp hc ▸ rfl
    rw [htrim]
    refine ⟨by simp, Word.token ⟨v.chars ++ ['\\'], v.quoted⟩, fun tokens position => ?_⟩
    by_cases hnil : front = []
    · subst hnil
      cases hfront
      rfl
    · obtain ⟨position', hread⟩ := Reader.read_word tokens ['\\'] position ⟨hfront, hnil⟩
      rw [hread]
      rfl

theorem exists_words {written : List (List Char)} (h : ∀ cs ∈ written, ∃ w, Spells cs w) :
    ∃ words, List.Forall₂ Spells written words := by
  induction written with
  | nil => exact ⟨[], .nil⟩
  | cons cs written ih =>
    obtain ⟨⟨w, hw⟩, hwritten⟩ := List.forall_mem_cons.mp h
    obtain ⟨words, hwords⟩ := ih hwritten
    exact ⟨w :: words, .cons hw hwords⟩

/-- Words are read as the same tokens whatever the blanks between them are. -/
theorem exists_tokens {words : List (List Char)}
    (h : ∀ written ∈ words, ∃ w, Spells written w) : ∃ tokens, ∀ text, Spaced words text →
      readAll (String.ofList (Text.trimEnd text)) = .ok tokens := by
  rcases List.eq_nil_or_concat' words with rfl | ⟨written, last, rfl⟩
  · exact ⟨[], fun text hspaced => by rw [hspaced.eq_nil rfl]; rfl⟩
  obtain ⟨hwritten, hlast⟩ := List.forall_mem_append.mp h
  obtain ⟨w, hw⟩ := hlast last (List.mem_singleton.mpr rfl)
  obtain ⟨hend, t, ht⟩ := hw.exists_token
  obtain ⟨front, hfront⟩ := exists_words hwritten
  refine ⟨front.map Word.token ++ [t], fun text hspaced => ?_⟩
  obtain ⟨before, rfl, hread⟩ := Reader.exists_front hfront hspaced
  obtain ⟨position', hread⟩ := hread [] 0 (Text.trimEnd last)
  rw [readAll, String.toList_ofList, Text.trimEnd_append_of_ne_nil hend, Reader.start, hread, ht]
  rfl

/-- Words begin with no blank. -/
theorem Spaced.head_not_blank {words : List (List Char)}
    (h : ∀ written ∈ words, ∃ w, Spells written w) {text : List Char}
    (hspaced : Spaced words text) : ∀ c ∈ text.head?, Text.isBlank c = false := by
  cases hspaced with
  | nil => exact fun _ hc => nomatch hc
  | single =>
    obtain ⟨w, hw⟩ := h _ (List.mem_singleton.mpr rfl)
    exact hw.writes.head_not_blank
  | cons =>
    obtain ⟨w, hw⟩ := h _ List.mem_cons_self
    rw [List.head?_append_of_ne_nil _ hw.nonempty]
    exact hw.writes.head_not_blank

end Token

namespace Call

/-! ## Spellings -/

/-- How a call is spelled: blanks between the parentheses, the name and the words. -/
structure Spelling (name : List Char) (words : List (List Char)) where
  before : List Char
  gap : List Char
  args : List Char
  after : List Char
  isName : IsName name
  areWords : ∀ written ∈ words, ∃ w, Token.Spells written w
  before_blank : Text.AllBlank before
  gap_blank : Text.AllBlank gap
  after_blank : Text.AllBlank after
  /-- There are blanks between two words. -/
  spaced : Token.Spaced words args
  /-- There are blanks between the name and the first word. -/
  apart : words ≠ [] → gap ≠ []

namespace Spelling

variable {name : List Char} {words : List (List Char)}

/-- The text of a spelling. -/
def text (s : Spelling name words) : String :=
  String.ofList (enclosed (s.before ++ (name ++ (s.gap ++ (s.args ++ s.after)))))

/-- Whether there is no line break from the beginning of the first word to the end of the last
one, the blank apart with which the last word may end. -/
def OneLine (s : Spelling name words) : Prop :=
  '\n' ∉ Text.trimEnd s.args

theorem trimmed_enclosed (body : List Char) : Text.Trimmed (enclosed body) where
  head c hc := Option.mem_some.mp hc ▸ rfl
  last c hc := by
    rw [enclosed, List.append_cons, ← List.cons_append, ← List.cons_append,
      List.getLast?_concat] at hc
    exact Option.mem_some.mp hc ▸ rfl

theorem trim_tail (s : Spelling name words) :
    Text.trim (s.gap ++ (s.args ++ s.after)) = Text.trimEnd s.args := by
  rw [Text.trim_append_blanks s.gap_blank s.after_blank, Text.trim,
    Text.trimStart_eq_self (s.spaced.head_not_blank s.areWords)]

/-- The name of a spelling cannot go on. -/
theorem tail_apart (s : Spelling name words) :
    ∀ c ∈ (s.gap ++ (s.args ++ s.after)).head?, isNameChar c = false := by
  have hblank : ∀ gap, Text.AllBlank gap → ∀ c ∈ gap.head?, isNameChar c = false :=
    fun gap h c hc => isNameChar_of_isBlank (h c (List.mem_of_mem_head? hc))
  by_cases hwords : words = []
  · rw [s.spaced.eq_nil hwords]
    exact hblank _ (s.gap_blank.append s.after_blank)
  · rw [List.head?_append_of_ne_nil _ (s.apart hwords)]
    exact hblank _ s.gap_blank

/-- A spelling is a call if the arguments stand on one line. -/
theorem parse?_text (s : Spelling name words) :
    parse? s.text = if '\n' ∈ Text.trimEnd s.args then none
      else some ⟨String.ofList name, String.ofList (Text.trimEnd s.args)⟩ := by
  rw [parse?, text, String.toList_ofList, Text.trim_eq_self (trimmed_enclosed _), inner?_enclosed,
    Option.bind_some, ofInner?_append s.before_blank s.isName s.tail_apart, s.trim_tail]

end Spelling

/-- **Two spellings that differ in their blanks only are both read as a call of the name with the
same tokens, exactly if the arguments of both stand on one line.** -/
theorem spellings_read_alike_iff {name : List Char} {words : List (List Char)}
    (s t : Spelling name words) :
    (∃ args args' tokens, parse? s.text = some ⟨String.ofList name, args⟩ ∧
      parse? t.text = some ⟨String.ofList name, args'⟩ ∧
      Token.readAll args = .ok tokens ∧ Token.readAll args' = .ok tokens) ↔
    s.OneLine ∧ t.OneLine := by
  constructor
  · rintro ⟨args, args', tokens, hs, ht, -, -⟩
    rw [Spelling.parse?_text] at hs ht
    exact ⟨fun h => by simp [h] at hs, fun h => by simp [h] at ht⟩
  · rintro ⟨hs, ht⟩
    obtain ⟨tokens, htokens⟩ := Token.exists_tokens s.areWords
    refine ⟨_, _, tokens, s.parse?_text.trans (if_neg hs), t.parse?_text.trans (if_neg ht),
      htokens _ s.spaced, htokens _ t.spaced⟩

/-- A call of two words, with given blanks in front of the words and none behind them. -/
def concatSpelling (gap between : List Char) (hgap : gap ≠ [] ∧ Text.AllBlank gap)
    (hbetween : between ≠ [] ∧ Text.AllBlank between) :
    Spelling "concat".toList ["a".toList, "\"b c\"".toList] where
  before := []
  gap := gap
  args := "a".toList ++ (between ++ "\"b c\"".toList)
  after := []
  isName := .mk rfl (List.all_eq_true.mp rfl)
  areWords := by
    refine List.forall_mem_cons.mpr ⟨⟨⟨['a'], false⟩, ?_, by decide⟩, ?_⟩
    · exact .bare (by decide) (by decide) (by decide) .nil
    · refine List.forall_mem_singleton.mpr ⟨⟨"b c".toList, true⟩, ?_, by decide⟩
      exact .quoted (.plain (by decide) (by decide) (.plain (by decide) (by decide)
        (.plain (by decide) (by decide) .nil))) .nil
  before_blank := .nil
  gap_blank := hgap.2
  after_blank := .nil
  spaced := .cons _ hbetween.1 hbetween.2 (.single _)
  apart := fun _ => hgap.1

/-- A line break in front of the words, and a tabulator between them. -/
theorem spellings_read_alike_of_pair :
    let s := concatSpelling "\n".toList "\t ".toList (by decide) (by decide)
    let t := concatSpelling " ".toList " ".toList (by decide) (by decide)
    s.text = "((concat\na\t \"b c\"))" ∧ t.text = "((concat a \"b c\"))" ∧
      ∃ args args' tokens, parse? s.text = some ⟨"concat", args⟩ ∧
        parse? t.text = some ⟨"concat", args'⟩ ∧
        Token.readAll args = .ok tokens ∧ Token.readAll args' = .ok tokens := by
  intro s t
  have hs : s.OneLine := by
    show '\n' ∉ Text.trimEnd _
    decide
  have ht : t.OneLine := by
    show '\n' ∉ Text.trimEnd _
    decide
  exact ⟨by decide, by decide, (spellings_read_alike_iff s t).mpr ⟨hs, ht⟩⟩

/-- A line break between two words hides the call, though other blanks in its place do not. -/
theorem line_break_hides_call :
    let s := concatSpelling " ".toList " ".toList (by decide) (by decide)
    let t := concatSpelling " ".toList "\n".toList (by decide) (by decide)
    s.text = "((concat a \"b c\"))" ∧ parse? s.text = some ⟨"concat", "a \"b c\""⟩ ∧
      t.text = "((concat a\n\"b c\"))" ∧ parse? t.text = none := by
  decide

end Call

end Laminate
