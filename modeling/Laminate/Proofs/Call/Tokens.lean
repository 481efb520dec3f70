import Laminate.Proofs.Call.Words
import Mathlib.Algebra.Ring.Parity
import Mathlib.Data.List.Induction

/-!
# Tokens are read back

A literal is written between quotes with its quotes and backslashes escaped, a reference with its
blanks escaped too (`spelling`). So every list of tokens can be written, with any blanks between the
tokens, and is read back (`readAll_spelling`).

What cannot be read is told by the quotes that no backslash takes (`bareQuotes`): each of them opens
or closes and nothing else does (`Reader.read_eq_error_iff`), so a quote is left open exactly if
their number is odd, and then it is the last one (`readAll_eq_error_iff`).
-/

namespace Laminate

namespace Token

/-! ## Writing tokens -/

/-- The word that a token is the reading of. -/
def word : Token → Word
  | literal text => ⟨text.toList, true⟩
  | reference text => ⟨text.toList, false⟩

@[simp] theorem token_word (t : Token) : t.word.token = t := by
  cases t <;> simp [word, Word.token]

/-- Characters with a backslash before each of the special ones. -/
def escape (special : Char → Bool) (cs : List Char) : List Char :=
  cs.flatMap fun c => if special c then ['\\', c] else [c]

/-- The characters with a meaning of their own inside quotes. -/
def isMark (c : Char) : Bool :=
  c == '"' || c == '\\'

/-- A token as it is written: a literal between quotes, a reference with its blanks escaped. -/
def spelling : Token → List Char
  | literal text => '"' :: (escape isMark text.toList ++ ['"'])
  | reference text => escape (fun c => isMark c || Text.isBlank c) text.toList

theorem writesQuoted_escape (cs : List Char) : WritesQuoted (escape isMark cs) cs := by
  induction cs with
  | nil => exact .nil
  | cons c cs ih =>
    rw [escape, List.flatMap_cons]
    by_cases hc : isMark c = true
    · rw [if_pos hc]
      exact .escaped c ih
    · rw [if_neg hc]
      simp only [isMark, Bool.or_eq_true, beq_iff_eq, not_or] at hc
      exact .plain hc.1 hc.2 ih

theorem writes_escape (cs : List Char) :
    Writes (escape (fun c => isMark c || Text.isBlank c) cs) ⟨cs, false⟩ := by
  induction cs with
  | nil => exact .nil
  | cons c cs ih =>
    rw [escape, List.flatMap_cons]
    by_cases hc : (isMark c || Text.isBlank c) = true
    · rw [if_pos hc]
      exact .escaped c ih
    · rw [if_neg hc]
      simp only [isMark, Bool.or_eq_true, beq_iff_eq, not_or] at hc
      exact .bare hc.1.1 hc.1.2 (Bool.eq_false_iff.mpr hc.2) ih

theorem writes_spelling (t : Token) : Writes t.spelling t.word := by
  cases t with
  | literal text =>
    have := Writes.quoted (writesQuoted_escape text.toList) .nil
    rwa [List.append_nil] at this
  | reference text => exact writes_escape text.toList

theorem spelling_ne_nil {t : Token} (h : t ≠ .reference "") : t.spelling ≠ [] := by
  cases t with
  | literal text => exact List.cons_ne_nil _ _
  | reference text =>
    obtain ⟨c, cs, hcs⟩ := List.exists_cons_of_ne_nil fun hnil =>
      h (congrArg reference (String.toList_eq_nil_iff.mp hnil))
    rw [spelling, hcs, escape, List.flatMap_cons]
    split <;> simp

theorem spells_spelling {t : Token} (h : t ≠ .reference "") : Spells t.spelling t.word :=
  ⟨writes_spelling t, spelling_ne_nil h⟩

/-- Tokens with blanks between them are read back. -/
theorem readAll_spelling {tokens : List Token} (h : ∀ t ∈ tokens, t ≠ .reference "")
    {text : List Char} (hspaced : Spaced (tokens.map spelling) text) :
    readAll (String.ofList text) = .ok tokens := by
  rw [readAll, String.toList_ofList]
  rcases List.eq_nil_or_concat' tokens with rfl | ⟨front, last, rfl⟩
  · rw [hspaced.eq_nil rfl]
    rfl
  obtain ⟨hfront, hlast⟩ := List.forall_mem_append.mp h
  have hspells : List.Forall₂ Spells (front.map spelling) (front.map word) := by
    rw [List.forall₂_map_left_iff, List.forall₂_map_right_iff, List.forall₂_same]
    exact fun t ht => spells_spelling (hfront t ht)
  rw [List.map_append, List.map_singleton] at hspaced
  obtain ⟨written, rfl, hread⟩ := Reader.exists_front hspells hspaced
  obtain ⟨position', hread⟩ := hread [] 0 last.spelling
  rw [Reader.start, hread, Reader.read_last _ _ (spells_spelling (hlast last (by simp)))]
  simp [Function.comp_def]

/-! ## Quotes that no backslash takes -/

/-- Whether the character at a position is taken by a backslash: the one before it is a backslash
that is not taken itself. -/
def isTaken (cs : List Char) : Nat → Bool
  | 0 => false
  | i + 1 => cs[i]? == some '\\' && !isTaken cs i

/-- The positions of the quotes that no backslash takes, in order. -/
def bareQuotes (cs : List Char) : List Nat :=
  (List.range cs.length).filter fun i => cs[i]? == some '"' && !isTaken cs i

theorem isTaken_cons {c : Char} (h : c ≠ '\\') (cs : List Char) (i : Nat) :
    isTaken (c :: cs) (i + 1) = isTaken cs i := by
  induction i with
  | zero => simp [isTaken, h]
  | succ i ih => rw [isTaken, ih, List.getElem?_cons_succ, isTaken]

theorem isTaken_escaped (c : Char) (cs : List Char) (i : Nat) :
    isTaken ('\\' :: c :: cs) (i + 2) = isTaken cs i := by
  induction i with
  | zero => simp [isTaken]
  | succ i ih => rw [isTaken, ih, List.getElem?_cons_succ, List.getElem?_cons_succ, isTaken]

/-- The positions of those quotes in a text that begins at a given position. -/
def quotesFrom (position : Nat) (cs : List Char) : List Nat :=
  (bareQuotes cs).map (position + ·)

theorem quotesFrom_zero (cs : List Char) : quotesFrom 0 cs = bareQuotes cs := by
  simp [quotesFrom]

theorem bareQuotes_cons {c : Char} (h : c ≠ '\\') (cs : List Char) :
    bareQuotes (c :: cs) = (if c = '"' then [0] else []) ++ quotesFrom 1 cs := by
  have htail : (fun i => (c :: cs)[i]? == some '"' && !isTaken (c :: cs) i) ∘ Nat.succ
      = fun i => cs[i]? == some '"' && !isTaken cs i := by
    funext i
    simp only [Function.comp_apply, Nat.succ_eq_add_one, List.getElem?_cons_succ, isTaken_cons h]
  rw [bareQuotes, List.length_cons, List.range_succ_eq_map, List.filter_cons, List.filter_map,
    htail]
  by_cases hc : c = '"' <;> simp [hc, isTaken, bareQuotes, quotesFrom, Nat.add_comm]

theorem bareQuotes_escaped (c : Char) (cs : List Char) :
    bareQuotes ('\\' :: c :: cs) = quotesFrom 2 cs := by
  have htail : (fun i => ('\\' :: c :: cs)[i]? == some '"' && !isTaken ('\\' :: c :: cs) i)
      ∘ Nat.succ ∘ Nat.succ = fun i => cs[i]? == some '"' && !isTaken cs i := by
    funext i
    simp only [Function.comp_apply, Nat.succ_eq_add_one, List.getElem?_cons_succ, isTaken_escaped]
  rw [bareQuotes, List.length_cons, List.length_cons, List.range_succ_eq_map,
    List.range_succ_eq_map, List.map_cons, List.map_map, List.filter_cons_of_neg (by simp),
    List.filter_cons_of_neg (by simp [isTaken]), List.filter_map, htail]
  exact List.map_congr_left fun i _ => Nat.add_comm i 2

theorem quotesFrom_escaped (position : Nat) (c : Char) (cs : List Char) :
    quotesFrom position ('\\' :: c :: cs) = quotesFrom (position + 2) cs := by
  simp [quotesFrom, bareQuotes_escaped, Nat.add_assoc]

theorem quotesFrom_quote (position : Nat) (cs : List Char) :
    quotesFrom position ('"' :: cs) = position :: quotesFrom (position + 1) cs := by
  simp [quotesFrom, bareQuotes_cons, Nat.add_assoc]

theorem quotesFrom_cons {c : Char} (hquote : c ≠ '"') (hescape : c ≠ '\\') (position : Nat)
    (cs : List Char) : quotesFrom position (c :: cs) = quotesFrom (position + 1) cs := by
  simp [quotesFrom, bareQuotes_cons hescape, hquote, Nat.add_assoc]

/-- What a quote does: it closes the one that is open, or is open itself. -/
def openOrClose : Option Nat → Nat → Option Nat
  | some _, _ => none
  | none, position => some position

/-- Of the quotes in order every other one is open. -/
theorem foldl_openOrClose (positions : List Nat) :
    positions.foldl openOrClose none
      = if Odd positions.length then positions.getLast? else none := by
  induction positions using List.reverseRecOn with
  | nil => rfl
  | append_singleton positions position ih =>
    rw [List.foldl_append, ih, List.foldl_cons, List.foldl_nil, List.length_append,
      List.length_singleton, List.getLast?_concat]
    by_cases hodd : Odd positions.length
    · have hne : positions ≠ [] := by
        rintro rfl
        exact absurd hodd (by decide)
      rw [if_pos hodd, if_neg (by simpa [Nat.odd_add_one] using hodd),
        List.getLast?_eq_some_getLast hne]
      rfl
    · rw [if_neg hodd, if_pos (by simpa [Nat.odd_add_one] using hodd)]
      rfl

namespace Reader

/-- Reading fails exactly if a quote is open at the end. -/
theorem finish_eq_error_iff (r : Reader) (fault : SyntaxFault) :
    r.finish = .error fault ↔ fault.problem = .unclosedQuote ∧ r.quote = some fault.position := by
  obtain ⟨problem, position⟩ := fault
  rw [finish]
  cases r.quote with
  | none => simp
  | some opened => simp [eq_comm]

theorem push_quote (r : Reader) (c : Char) : (r.push c).quote = r.quote := rfl

theorem flush_quote (r : Reader) : r.flush.quote = r.quote := by
  rw [flush]
  split <;> rfl

theorem toggle_quote (r : Reader) (position : Nat) :
    (r.toggle position).quote = openOrClose r.quote position := by
  rw [toggle]
  cases r.quote <;> rfl

/-- Each quote that no backslash takes opens or closes, and nothing else does. -/
theorem read_eq_error_iff (r : Reader) (position : Nat) (cs : List Char) (fault : SyntaxFault) :
    r.read position cs = .error fault ↔ fault.problem = .unclosedQuote ∧
      (quotesFrom position cs).foldl openOrClose r.quote = some fault.position := by
  have ne_escape {c : Char} {cs : List Char} (hend : c = '\\' → cs = [] → False)
      (hcons : ∀ d ds, c = '\\' → cs = d :: ds → False) : c ≠ '\\' := by
    intro hc
    cases cs with
    | nil => exact hend hc rfl
    | cons d ds => exact hcons d ds hc rfl
  fun_induction read r position cs with
  | case1 r position => exact r.finish_eq_error_iff fault
  | case2 r position => exact (r.push '\\').finish_eq_error_iff fault
  | case3 r position c cs ih => exact ih.trans (by rw [push_quote, quotesFrom_escaped])
  | case4 r position cs _ _ ih =>
    exact ih.trans (by rw [toggle_quote, quotesFrom_quote, List.foldl_cons])
  | case5 r position c cs hend hcons hquote _ ih =>
    exact ih.trans (by rw [flush_quote, quotesFrom_cons hquote (ne_escape hend hcons)])
  | case6 r position c cs hend hcons hquote _ ih =>
    exact ih.trans (by rw [push_quote, quotesFrom_cons hquote (ne_escape hend hcons)])

end Reader

/-- A text is refused for a quote that is left open: the last one, if their number is odd. -/
theorem readAll_eq_error_iff (text : String) (fault : SyntaxFault) :
    readAll text = .error fault ↔ fault.problem = .unclosedQuote ∧
      Odd (bareQuotes text.toList).length ∧
      (bareQuotes text.toList).getLast? = some fault.position := by
  rw [readAll, Reader.read_eq_error_iff, quotesFrom_zero]
  refine and_congr_right fun _ => ?_
  rw [Reader.start, foldl_openOrClose]
  split <;> simp_all

/-- **Every list of tokens can be written, and is read back however its words are spaced. A text is
refused exactly if the number of quotes that no backslash takes is odd, for the last of them.** -/
theorem written_tokens_read_back :
    (∀ tokens : List Token, (∀ t ∈ tokens, t ≠ .reference "") →
      (∃ text, Spaced (tokens.map spelling) text) ∧
      ∀ text, Spaced (tokens.map spelling) text → readAll (String.ofList text) = .ok tokens) ∧
    ∀ text : String,
      ((∃ fault, readAll text = .error fault) ↔ Odd (bareQuotes text.toList).length) ∧
      ∀ fault, readAll text = .error fault → fault.problem = .unclosedQuote ∧
        (bareQuotes text.toList).getLast? = some fault.position := by
  refine ⟨fun tokens h => ⟨Spaced.exists_text _, fun text => readAll_spelling h⟩, fun text =>
    ⟨⟨?_, fun hodd => ?_⟩, fun fault h => ?_⟩⟩
  · rintro ⟨fault, h⟩
    exact ((readAll_eq_error_iff text fault).mp h).2.1
  · have hne : bareQuotes text.toList ≠ [] := by
      intro hnil
      rw [hnil] at hodd
      exact absurd hodd (by decide)
    exact ⟨⟨.unclosedQuote, _⟩, (readAll_eq_error_iff text _).mpr
      ⟨rfl, hodd, List.getLast?_eq_some_getLast hne⟩⟩
  · obtain ⟨hproblem, -, hlast⟩ := (readAll_eq_error_iff text fault).mp h
    exact ⟨hproblem, hlast⟩

/-- A literal with a quote in it, a reference with a blank in it, and a line break between them; and
a text with one quote that is taken and one that is not. -/
theorem written_tokens_read_back_of_pair :
    readAll "\"a \\\"b\" \n c\\ d" = .ok [literal "a \"b", reference "c d"] ∧
      Odd (bareQuotes "a\\\" \"b".toList).length ∧
      (∃ fault, readAll "a\\\" \"b" = .error fault) :=
  have hspaced : Spaced ([literal "a \"b", reference "c d"].map spelling)
      "\"a \\\"b\" \n c\\ d".toList :=
    have hblank : Text.AllBlank " \n ".toList := by decide
    .cons _ (by decide) hblank (.single _)
  have hodd : Odd (bareQuotes "a\\\" \"b".toList).length := by decide
  ⟨(written_tokens_read_back.1 _ (by decide)).2 _ hspaced, hodd,
    (written_tokens_read_back.2 _).1.mpr hodd⟩

end Token

end Laminate
