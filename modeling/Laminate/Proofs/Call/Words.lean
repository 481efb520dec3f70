import Laminate.Call.Token
import Laminate.Proofs.Text.Trim
import Mathlib.Data.List.Forall2

/-!
# Words as they are written

A word is written as a row of bare characters, escaped characters and quoted parts (`Writes`); an
argument text is words with blanks between them (`Spaced`). The reader takes in a word as a whole
(`Reader.read_word`) and drops blanks (`Reader.read_gap`). So it comes out of all that stands before
the last word with the tokens so far and nothing begun (`Reader.exists_front`), whatever the blanks
are and whatever the last word is.
-/

namespace Laminate

namespace Token

/-! ## Words as they are written -/

/-- What stands between two quotes, and the characters that it stands for. -/
inductive WritesQuoted : List Char → List Char → Prop
  | nil : WritesQuoted [] []
  | plain {c : Char} {written chars : List Char} (no_quote : c ≠ '"') (no_escape : c ≠ '\\')
      (rest : WritesQuoted written chars) : WritesQuoted (c :: written) (c :: chars)
  | escaped (c : Char) {written chars : List Char} (rest : WritesQuoted written chars) :
      WritesQuoted ('\\' :: c :: written) (c :: chars)

/-- A word as it is written: bare characters, escaped ones and quoted parts in any order. -/
inductive Writes : List Char → Word → Prop
  | nil : Writes [] ⟨[], false⟩
  | bare {c : Char} {written : List Char} {w : Word} (no_quote : c ≠ '"') (no_escape : c ≠ '\\')
      (no_blank : Text.isBlank c = false) (rest : Writes written w) :
      Writes (c :: written) ⟨c :: w.chars, w.quoted⟩
  | escaped (c : Char) {written : List Char} {w : Word} (rest : Writes written w) :
      Writes ('\\' :: c :: written) ⟨c :: w.chars, w.quoted⟩
  | quoted {inside chars written : List Char} {w : Word} (part : WritesQuoted inside chars)
      (rest : Writes written w) :
      Writes ('"' :: (inside ++ '"' :: written)) ⟨chars ++ w.chars, true⟩

/-- A word that is not empty, as it is written. -/
structure Spells (written : List Char) (w : Word) : Prop where
  writes : Writes written w
  nonempty : written ≠ []

/-- Words in order, each separated from the next one by blanks. -/
inductive Spaced : List (List Char) → List Char → Prop
  | nil : Spaced [] []
  | single (word : List Char) : Spaced [word] word
  | cons (word : List Char) {gap next rest : List Char} {words : List (List Char)}
      (nonempty : gap ≠ []) (blank : Text.AllBlank gap) (others : Spaced (next :: words) rest) :
      Spaced (word :: next :: words) (word ++ (gap ++ rest))

/-- No word begins with a blank. -/
theorem Writes.head_not_blank {written : List Char} {w : Word} (h : Writes written w) :
    ∀ c ∈ written.head?, Text.isBlank c = false := by
  cases h with
  | nil => exact fun _ hc => nomatch hc
  | bare _ _ no_blank => exact fun c hc => Option.mem_some.mp hc ▸ no_blank
  | escaped => exact fun c hc => Option.mem_some.mp hc ▸ rfl
  | quoted => exact fun c hc => Option.mem_some.mp hc ▸ rfl

theorem Spaced.eq_nil {words : List (List Char)} {text : List Char} (h : Spaced words text)
    (hwords : words = []) : text = [] := by
  subst hwords
  cases h
  rfl

theorem Spaced.eq_word {word text : List Char} (h : Spaced [word] text) : text = word := by
  cases h
  rfl

/-- A word that is not the last one, the blanks after it, and the others. -/
theorem Spaced.exists_gap {word text : List Char} {words : List (List Char)} (hwords : words ≠ [])
    (h : Spaced (word :: words) text) :
    ∃ gap rest, gap ≠ [] ∧ Text.AllBlank gap ∧ Spaced words rest ∧
      text = word ++ (gap ++ rest) := by
  cases h with
  | single => exact absurd rfl hwords
  | cons _ nonempty blank others => exact ⟨_, _, nonempty, blank, others, rfl⟩

theorem Spaced.exists_text (words : List (List Char)) : ∃ text, Spaced words text := by
  induction words with
  | nil => exact ⟨[], .nil⟩
  | cons word words ih =>
    obtain ⟨rest, hrest⟩ := ih
    cases words with
    | nil => exact ⟨word, .single word⟩
    | cons next words =>
      have hblank : Text.AllBlank [' '] := by decide
      exact ⟨_, .cons word (List.cons_ne_nil _ _) hblank hrest⟩

/-! ## Reading words -/

namespace Reader

/-- A backslash takes the next character as it is. -/
theorem read_escaped (r : Reader) (position : Nat) (c : Char) (cs : List Char) :
    r.read position ('\\' :: c :: cs) = (r.push c).read (position + 2) cs := by
  rw [read]

/-- A quote opens or closes. -/
theorem read_quote (r : Reader) (position : Nat) (cs : List Char) :
    r.read position ('"' :: cs) = (r.toggle position).read (position + 1) cs := by
  rw [read]
  · exact if_pos rfl
  · exact fun h => nomatch h
  · exact fun _ _ h => nomatch h

/-- A blank outside quotes ends the word. -/
theorem read_blank {c : Char} (hc : Text.isBlank c = true) {r : Reader} (hr : r.quote = none)
    (position : Nat) (cs : List Char) :
    r.read position (c :: cs) = r.flush.read (position + 1) cs := by
  have hne {d : Char} (hd : Text.isBlank d = false) : c ≠ d := fun h => by simp [h, hd] at hc
  rw [read]
  · rw [if_neg (hne rfl), if_pos ⟨hc, hr⟩]
  · exact fun h => absurd h (hne rfl)
  · exact fun _ _ h => absurd h (hne rfl)

/-- Any other character belongs to the word, and so does a blank inside quotes. -/
theorem read_cons {c : Char} (hquote : c ≠ '"') (hescape : c ≠ '\\') {r : Reader}
    (hblank : ¬(Text.isBlank c = true ∧ r.quote = none)) (position : Nat) (cs : List Char) :
    r.read position (c :: cs) = (r.push c).read (position + 1) cs := by
  rw [read]
  · rw [if_neg hquote, if_neg hblank]
  · exact fun h => absurd h hescape
  · exact fun _ _ h => absurd h hescape

variable (tokens : List Token) (rest : List Char)

theorem read_writesQuoted {inside chars : List Char} (h : WritesQuoted inside chars)
    (opened : Nat) : ∀ (v : Word) (position : Nat), ∃ position',
      read ⟨tokens, some v, some opened⟩ position (inside ++ rest)
        = read ⟨tokens, some ⟨v.chars ++ chars, v.quoted⟩, some opened⟩ position' rest := by
  induction h with
  | nil =>
    intro v position
    exact ⟨position, by rw [List.append_nil]; rfl⟩
  | plain no_quote no_escape _ ih =>
    intro v position
    obtain ⟨position', ih⟩ := ih ⟨v.chars ++ [_], v.quoted⟩ (position + 1)
    refine ⟨position', ?_⟩
    rw [List.cons_append, read_cons no_quote no_escape (by simp)]
    rw [List.append_assoc] at ih
    exact ih
  | escaped c _ ih =>
    intro v position
    obtain ⟨position', ih⟩ := ih ⟨v.chars ++ [c], v.quoted⟩ (position + 2)
    refine ⟨position', ?_⟩
    rw [List.cons_append, List.cons_append, read_escaped]
    rw [List.append_assoc] at ih
    exact ih

/-- A word that goes on with another one, as far as the reader can tell. -/
theorem read_writes {written : List Char} {w : Word} (h : Writes written w) :
    ∀ (v : Word) (position : Nat), ∃ position',
      read ⟨tokens, some v, none⟩ position (written ++ rest)
        = read ⟨tokens, some ⟨v.chars ++ w.chars, v.quoted || w.quoted⟩, none⟩ position' rest := by
  induction h with
  | nil =>
    intro v position
    exact ⟨position, by rw [List.append_nil, Bool.or_false]; rfl⟩
  | bare no_quote no_escape no_blank _ ih =>
    intro v position
    obtain ⟨position', ih⟩ := ih ⟨v.chars ++ [_], v.quoted⟩ (position + 1)
    refine ⟨position', ?_⟩
    rw [List.cons_append, read_cons no_quote no_escape (by simp [no_blank])]
    rw [List.append_assoc] at ih
    exact ih
  | escaped c _ ih =>
    intro v position
    obtain ⟨position', ih⟩ := ih ⟨v.chars ++ [c], v.quoted⟩ (position + 2)
    refine ⟨position', ?_⟩
    rw [List.cons_append, List.cons_append, read_escaped]
    rw [List.append_assoc] at ih
    exact ih
  | @quoted inside chars written w part _ ih =>
    intro v position
    obtain ⟨closing, hpart⟩ := read_writesQuoted tokens ('"' :: (written ++ rest)) part position
      ⟨v.chars, true⟩ (position + 1)
    obtain ⟨position', ih⟩ := ih ⟨v.chars ++ chars, true⟩ (closing + 1)
    refine ⟨position', ?_⟩
    rw [List.cons_append, List.append_assoc, List.cons_append, read_quote]
    rw [List.append_assoc] at ih
    rw [Bool.or_true]
    exact hpart.trans ((read_quote _ _ _).trans ih)

/-- Where a word begins there is an empty one. -/
theorem read_none {c : Char} (hc : Text.isBlank c = false) (position : Nat) (cs : List Char) :
    read ⟨tokens, none, none⟩ position (c :: cs)
      = read ⟨tokens, some ⟨[], false⟩, none⟩ position (c :: cs) := by
  by_cases hescape : c = '\\'
  · subst hescape
    cases cs with
    | nil => rfl
    | cons d cs => rw [read_escaped, read_escaped]; rfl
  by_cases hquote : c = '"'
  · subst hquote
    rw [read_quote, read_quote]
    rfl
  rw [read_cons hquote hescape (by simp [hc]), read_cons hquote hescape (by simp [hc])]
  rfl

/-- A word as a whole. -/
theorem read_word (position : Nat) {written : List Char} {w : Word} (h : Spells written w) :
    ∃ position', read ⟨tokens, none, none⟩ position (written ++ rest)
      = read ⟨tokens, some w, none⟩ position' rest := by
  obtain ⟨c, cs, rfl⟩ := List.exists_cons_of_ne_nil h.nonempty
  obtain ⟨position', hread⟩ := read_writes tokens rest h.writes ⟨[], false⟩ position
  refine ⟨position', ?_⟩
  rw [List.cons_append, read_none tokens (h.writes.head_not_blank c rfl)]
  exact hread

/-- Blanks between words say nothing. -/
theorem read_blanks {gap : List Char} (h : Text.AllBlank gap) : ∀ position : Nat, ∃ position',
    read ⟨tokens, none, none⟩ position (gap ++ rest)
      = read ⟨tokens, none, none⟩ position' rest := by
  induction gap with
  | nil => exact fun position => ⟨position, rfl⟩
  | cons c gap ih =>
    intro position
    obtain ⟨hc, hgap⟩ := List.forall_mem_cons.mp h
    obtain ⟨position', ih⟩ := ih hgap (position + 1)
    exact ⟨position', (read_blank hc rfl _ _).trans ih⟩

/-- Blanks behind a word end it. -/
theorem read_gap (position : Nat) {gap : List Char} (h : Text.AllBlank gap) (hne : gap ≠ [])
    (w : Word) : ∃ position', read ⟨tokens, some w, none⟩ position (gap ++ rest)
      = read ⟨tokens ++ [w.token], none, none⟩ position' rest := by
  obtain ⟨c, gap, rfl⟩ := List.exists_cons_of_ne_nil hne
  obtain ⟨hc, hgap⟩ := List.forall_mem_cons.mp h
  obtain ⟨position', hread⟩ := read_blanks (tokens ++ [w.token]) rest hgap (position + 1)
  exact ⟨position', (read_blank hc rfl _ _).trans hread⟩

/-- The last word. -/
theorem read_last (position : Nat) {written : List Char} {w : Word} (h : Spells written w) :
    read ⟨tokens, none, none⟩ position written = .ok (tokens ++ [w.token]) := by
  obtain ⟨position', hread⟩ := read_word tokens [] position h
  rw [List.append_nil] at hread
  exact hread

/-- All words but the last one stand in a front that the reader comes out of with their tokens. -/
theorem exists_front {written : List (List Char)} {words : List Word}
    (h : List.Forall₂ Spells written words) :
    ∀ {last text : List Char}, Spaced (written ++ [last]) text →
      ∃ front, text = front ++ last ∧ ∀ tokens position rest, ∃ position',
        read ⟨tokens, none, none⟩ position (front ++ rest)
          = read ⟨tokens ++ words.map Word.token, none, none⟩ position' rest := by
  induction h with
  | nil =>
    intro last text hspaced
    refine ⟨[], hspaced.eq_word, fun tokens position rest => ⟨position, ?_⟩⟩
    rw [List.map_nil, List.append_nil]
    rfl
  | @cons cs w written words hword _ ih =>
    intro last text hspaced
    obtain ⟨gap, others, hne, hblank, hothers, rfl⟩ := hspaced.exists_gap (by simp)
    obtain ⟨front, rfl, hfront⟩ := ih hothers
    refine ⟨cs ++ (gap ++ front), by simp only [List.append_assoc], fun tokens position rest => ?_⟩
    obtain ⟨afterWord, hread⟩ := read_word tokens (gap ++ (front ++ rest)) position hword
    obtain ⟨afterGap, hgap⟩ := read_gap tokens (front ++ rest) afterWord hblank hne w
    obtain ⟨position', hrest⟩ := hfront (tokens ++ [w.token]) afterGap rest
    refine ⟨position', ?_⟩
    rw [List.append_assoc, List.append_assoc, hread, hgap, hrest, List.map_cons, List.append_assoc]
    rfl

end Reader

end Token

end Laminate
