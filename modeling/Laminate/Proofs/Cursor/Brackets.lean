import Laminate.Proofs.Cursor.RoundTrip
import Laminate.Proofs.Cursor.Segments

/-!
# Which texts are paths

A text is read as a path if its brackets alternate: an opening one where none is open, a closing one
where one is open, and none open in the end. Otherwise it is refused for the first bracket that is
out of place (`Misplaced`), or for the one that is left open (`openBracket?`). The components are
the non-empty runs of characters between separators, without the dollar signs in front (`keptRuns`).
Brackets separate everywhere, dots where no bracket is open.

All of this is said of a text and a position in it. The reader goes through the text once, and what
it knows after some characters is what the same words say of these characters (`Reached`); so one
step is one more character at the end (`Reached.step`), and the rest is induction on what is still
to be read (`Reached.read`).
-/

namespace Laminate.Cursor

/-! ## Brackets, separators and runs -/

/-- Whether a character is a bracket. -/
def isBracket (c : Char) : Bool :=
  c == '[' || c == ']'

/-- The position of the bracket that is open after these characters: the last bracket, if that is an
opening one. -/
def openBracket? (cs : List Char) : Option Nat :=
  (cs.zipIdx.filter fun p => isBracket p.1).getLast?.bind fun p =>
    if p.1 = '[' then some p.2 else none

/-- What is wrong at a position: an opening bracket inside a bracket, or a closing one outside. -/
inductive Misplaced (cs : List Char) (i : Nat) : SyntaxProblem → Prop
  | nested (char : cs[i]? = some '[') (inside : (openBracket? (cs.take i)).isSome = true) :
      Misplaced cs i .nestedBracket
  | stray (char : cs[i]? = some ']') (outside : openBracket? (cs.take i) = none) :
      Misplaced cs i .strayBracket

/-- No bracket is out of place. -/
def Placed (cs : List Char) : Prop :=
  ∀ i problem, ¬Misplaced cs i problem

/-- Whether a character separates, given the characters before it. -/
def separates (before : List Char) (c : Char) : Bool :=
  isBracket c || (c == '.' && (openBracket? before).isNone)

/-- The characters, each with whether it separates. -/
def marked (cs : List Char) : List (Char × Bool) :=
  cs.mapIdx fun i c => (c, separates (cs.take i) c)

/-- The runs of characters between separators, empty ones included. -/
def runs (cs : List Char) : List (List Char) :=
  ((marked cs).splitOnP Prod.snd).map fun run => run.map Prod.fst

/-- The runs that are components: those that are not empty, from the first one that is no dollar
sign. -/
def keptRuns (cs : List Char) : List String :=
  (((runs cs).filter (· ≠ [])).dropWhile (· = ['$'])).map String.ofList

/-! ## One more character -/

theorem openBracket?_concat (cs : List Char) (c : Char) : openBracket? (cs ++ [c]) =
    if c = '[' then some cs.length else if c = ']' then none else openBracket? cs := by
  unfold openBracket?
  rw [List.zipIdx_append, List.filter_append]
  by_cases hopen : c = '['
  · simp [hopen, isBracket]
  · by_cases hclose : c = ']'
    · simp [hclose, isBracket]
    · simp [hopen, hclose, isBracket]

theorem marked_concat (cs : List Char) (c : Char) :
    marked (cs ++ [c]) = marked cs ++ [(c, separates cs c)] := by
  unfold marked
  rw [List.mapIdx_concat, List.take_left]
  congr 1
  refine List.mapIdx_eq_mapIdx_iff.mpr fun i hi => ?_
  rw [List.take_append_of_le_length (Nat.le_of_lt hi)]

/-- An element that does not separate makes the last part longer. -/
theorem exists_splitOnP_concat {α : Type} {p : α → Bool} {x : α} (hx : p x = false)
    (xs : List α) : ∃ init last,
      xs.splitOnP p = init ++ [last] ∧ (xs ++ [x]).splitOnP p = init ++ [last ++ [x]] := by
  induction xs with
  | nil => exact ⟨[], [], rfl, by simp [List.splitOnP_cons_eq_if_modifyHead, hx]⟩
  | cons y xs ih =>
    obtain ⟨init, last, hxs, hlonger⟩ := ih
    rw [List.cons_append, List.splitOnP_cons_eq_if_modifyHead,
      List.splitOnP_cons_eq_if_modifyHead, hxs, hlonger]
    by_cases hy : p y = true
    · exact ⟨[] :: init, last, by simp [hy], by simp [hy]⟩
    · cases init with
      | nil => exact ⟨[], y :: last, by simp [hy], by simp [hy]⟩
      | cons first init => exact ⟨(y :: first) :: init, last, by simp [hy], by simp [hy]⟩

theorem runs_concat_of_separates {cs : List Char} {c : Char} (h : separates cs c = true) :
    runs (cs ++ [c]) = runs cs ++ [[]] := by
  have hsplit : (marked cs ++ [(c, separates cs c)]).splitOnP Prod.snd
      = (marked cs).splitOnP Prod.snd ++ [[]] :=
    List.splitOnP_append_cons (marked cs) [] h
  rw [runs, marked_concat, hsplit, List.map_append]
  rfl

theorem runs_concat {cs : List Char} {c : Char} (h : separates cs c = false)
    {init : List (List Char)} {last : List Char} (hruns : runs cs = init ++ [last]) :
    runs (cs ++ [c]) = init ++ [last ++ [c]] := by
  obtain ⟨init', last', hsplit, hlonger⟩ :=
    exists_splitOnP_concat (p := Prod.snd) (x := (c, separates cs c)) h (marked cs)
  rw [runs, hsplit, List.map_append] at hruns
  obtain ⟨rfl, hlast⟩ := List.append_inj' hruns rfl
  cases hlast
  rw [runs, marked_concat, hlonger]
  simp

/-! ## Brackets out of place -/

section Placed

variable {cs rest : List Char} {c : Char} {i : Nat} {problem : SyntaxProblem}

/-- What is wrong in the first characters of a text is told by these alone. -/
theorem misplaced_append_iff (hi : i < cs.length) :
    Misplaced (cs ++ rest) i problem ↔ Misplaced cs i problem := by
  have htake : (cs ++ rest).take i = cs.take i :=
    List.take_append_of_le_length (Nat.le_of_lt hi)
  have hchar : (cs ++ rest)[i]? = cs[i]? := List.getElem?_append_left hi
  constructor
  · rintro (⟨char, inside⟩ | ⟨char, outside⟩)
    · exact .nested (hchar ▸ char) (htake ▸ inside)
    · exact .stray (hchar ▸ char) (htake ▸ outside)
  · rintro (⟨char, inside⟩ | ⟨char, outside⟩)
    · exact .nested (hchar.symm ▸ char) (htake.symm ▸ inside)
    · exact .stray (hchar.symm ▸ char) (htake.symm ▸ outside)

theorem getElem?_length_append (cs : List Char) (c : Char) (rest : List Char) :
    (cs ++ c :: rest)[cs.length]? = some c := by
  simp

theorem placed_nil : Placed [] := by
  rintro i problem (⟨char, -⟩ | ⟨char, -⟩) <;> cases char

/-- A bracket that is in place, or any other character, may follow. -/
theorem Placed.concat (h : Placed cs) (hopen : c = '[' → openBracket? cs = none)
    (hclose : c = ']' → openBracket? cs ≠ none) : Placed (cs ++ [c]) := by
  intro i problem hmisplaced
  rcases Nat.lt_trichotomy i cs.length with hlt | rfl | hgt
  · exact h i problem ((misplaced_append_iff hlt).mp hmisplaced)
  · rcases hmisplaced with ⟨char, inside⟩ | ⟨char, outside⟩
    all_goals
      rw [getElem?_length_append] at char
      rw [List.take_left] at *
    · rw [hopen (Option.some.inj char)] at inside
      cases inside
    · exact hclose (Option.some.inj char) outside
  · have hend : (cs ++ [c])[i]? = none := by
      simp
      omega
    rcases hmisplaced with ⟨char, -⟩ | ⟨char, -⟩ <;> rw [hend] at char <;> cases char

end Placed

/-! ## Reading -/

/-- What reading a text comes to: its components, the first bracket out of place, or the bracket
that is left open. -/
inductive Reading (cs : List Char) : Except SyntaxFault Cursor → Prop
  | path (placed : Placed cs) (closed : openBracket? cs = none) :
      Reading cs (.ok ⟨keptRuns cs⟩)
  | misplaced {i : Nat} {problem : SyntaxProblem} (here : Misplaced cs i problem)
      (first : ∀ j < i, ∀ problem, ¬Misplaced cs j problem) :
      Reading cs (.error ⟨problem, i⟩)
  | unclosed {i : Nat} (placed : Placed cs) (opened : openBracket? cs = some i) :
      Reading cs (.error ⟨.unclosedBracket, i⟩)

namespace Reader

variable {cs : List Char} {c : Char} {r : Reader}

/-- What the reader knows after some characters without a fault. -/
structure Reached (cs : List Char) (r : Reader) : Prop where
  placed : Placed cs
  bracket : r.bracket = openBracket? cs
  runs : ∃ init, Cursor.runs cs = init ++ [r.current] ∧ r.components = init.foldl keep []

theorem reached_start : Reached [] start where
  placed := placed_nil
  bracket := rfl
  runs := ⟨[], rfl, rfl⟩

/-- A separator ends the run. -/
theorem Reached.separate (h : Reached cs r) (hseparates : separates cs c = true)
    (hplaced : Placed (cs ++ [c])) :
    Reached (cs ++ [c]) { r.flush with bracket := openBracket? (cs ++ [c]) } := by
  obtain ⟨components, current, bracket⟩ := r
  obtain ⟨init, hruns, hcomponents⟩ := h.runs
  refine ⟨hplaced, rfl, init ++ [current], ?_, ?_⟩
  · rw [runs_concat_of_separates hseparates, hruns, flush_eq]
  · rw [flush_eq, List.foldl_append, ← hcomponents]
    rfl

/-- Any other character makes it longer. -/
theorem Reached.push (h : Reached cs r) (hseparates : separates cs c = false) :
    Reached (cs ++ [c]) { r with current := r.current ++ [c] } := by
  obtain ⟨init, hruns, hcomponents⟩ := h.runs
  have hbracket : isBracket c = false := (Bool.or_eq_false_iff.mp hseparates).1
  simp only [isBracket, Bool.or_eq_false_iff, beq_eq_false_iff_ne] at hbracket
  obtain ⟨hopen, hclose⟩ := hbracket
  refine ⟨h.placed.concat (absurd · hopen) (absurd · hclose), ?_, init,
    runs_concat hseparates hruns, hcomponents⟩
  rw [openBracket?_concat, if_neg hopen, if_neg hclose]
  exact h.bracket

/-- One more character is taken in, or is a bracket out of place. -/
theorem Reached.step (h : Reached cs r) (c : Char) :
    (∃ r', r.step cs.length c = .ok r' ∧ Reached (cs ++ [c]) r') ∨
    ∃ problem, r.step cs.length c = .error ⟨problem, cs.length⟩ ∧
      ∀ rest, Misplaced (cs ++ c :: rest) cs.length problem := by
  have hbracket := h.bracket
  have hhere : ∀ rest, (cs ++ c :: rest).take cs.length = cs := fun rest => List.take_left
  by_cases hopen : c = '['
  · subst hopen
    cases hopened : openBracket? cs with
    | none =>
      have hreached := h.separate (c := '[') rfl
        (h.placed.concat (fun _ => hopened) (absurd · (by decide)))
      rw [openBracket?_concat, if_pos rfl] at hreached
      exact .inl ⟨_, by simp [Reader.step, hbracket, hopened], hreached⟩
    | some position =>
      refine .inr ⟨.nestedBracket, by simp [Reader.step, hbracket, hopened], fun rest => ?_⟩
      exact .nested (getElem?_length_append cs '[' rest) (by rw [hhere, hopened]; rfl)
  by_cases hclose : c = ']'
  · subst hclose
    cases hopened : openBracket? cs with
    | none =>
      refine .inr ⟨.strayBracket, by simp [Reader.step, hbracket, hopened], fun rest => ?_⟩
      exact .stray (getElem?_length_append cs ']' rest) (by rw [hhere, hopened])
    | some position =>
      have hreached := h.separate (c := ']') rfl
        (h.placed.concat (absurd · hopen) fun _ => hopened ▸ Option.some_ne_none position)
      rw [openBracket?_concat, if_neg hopen, if_pos rfl] at hreached
      exact .inl ⟨_, by simp [Reader.step, hbracket, hopened], hreached⟩
  by_cases hdot : c = '.' ∧ openBracket? cs = none
  · obtain ⟨rfl, hopened⟩ := hdot
    have hreached := h.separate (c := '.') (by simp [separates, hopened])
      (h.placed.concat (absurd · hopen) (absurd · hclose))
    rw [openBracket?_concat, if_neg hopen, if_neg hclose, ← hbracket, ← bracket_flush] at hreached
    have hstep : r.step cs.length '.' = .ok r.flush :=
      if_pos ⟨rfl, hbracket.trans hopened⟩
    exact .inl ⟨_, hstep, hreached⟩
  · -- any other character, and a dot inside a bracket, goes on with the run
    have hseparates : separates cs c = false := by
      simpa [separates, isBracket, hopen, hclose, Option.isSome_iff_ne_none] using hdot
    exact .inl ⟨_, by simp [Reader.step, hbracket, hdot, hopen, hclose], h.push hseparates⟩

/-- **Reading on from what is known of the first characters comes to what is to be known of all of
them.** -/
theorem Reached.read (rest : List Char) : ∀ {cs : List Char} {r : Reader}, Reached cs r →
    Reading (cs ++ rest) (r.read cs.length rest) := by
  induction rest with
  | nil =>
    intro cs r h
    rw [List.append_nil, Reader.read, finish]
    obtain ⟨components, current, bracket⟩ := r
    obtain ⟨init, hruns, hcomponents⟩ := h.runs
    cases hbracket : bracket with
    | some position => exact .unclosed h.placed (h.bracket.symm.trans hbracket)
    | none =>
      have hkept : (flush ⟨components, current, none⟩).components = keptRuns cs := by
        rw [flush_eq, keptRuns, ← foldl_keep_eq, hruns, List.foldl_append, ← hcomponents]
        rfl
      rw [hkept]
      exact .path h.placed (h.bracket.symm.trans hbracket)
  | cons c rest ih =>
    intro cs r h
    rw [Reader.read]
    rcases h.step c with ⟨r', hstep, hreached⟩ | ⟨problem, hstep, hmisplaced⟩
    · have hread := ih hreached
      rw [List.append_assoc, List.singleton_append, List.length_append] at hread
      rw [hstep]
      exact hread
    · rw [hstep]
      exact .misplaced (hmisplaced rest) fun j hj problem hearlier =>
        h.placed j problem ((misplaced_append_iff hj).mp hearlier)

end Reader

/-- **A text is read as a path if and only if no bracket is out of place and none is left open. It
is refused for the first bracket out of place, or else for the one that is left open. The components
are the runs between separators, without the empty ones and without the dollar signs in front.** -/
theorem parse_by_brackets (text : String) :
    ((∃ path, parse text = .ok path) ↔
      Placed text.toList ∧ openBracket? text.toList = none) ∧
    (∀ fault, parse text = .error fault →
      (Misplaced text.toList fault.position fault.problem ∧
        ∀ j < fault.position, ∀ problem, ¬Misplaced text.toList j problem) ∨
      (Placed text.toList ∧ openBracket? text.toList = some fault.position ∧
        fault.problem = .unclosedBracket)) ∧
    ∀ path, parse text = .ok path → path.components = keptRuns text.toList := by
  have hreading : Reading text.toList (parse text) := Reader.reached_start.read text.toList
  refine ⟨⟨?_, ?_⟩, ?_, ?_⟩
  · rintro ⟨path, hpath⟩
    rw [hpath] at hreading
    cases hreading with
    | path placed closed => exact ⟨placed, closed⟩
  · rintro ⟨placed, closed⟩
    cases hresult : parse text with
    | ok path => exact ⟨path, rfl⟩
    | error fault =>
      rw [hresult] at hreading
      cases hreading with
      | misplaced here first => exact absurd here (placed _ _)
      | unclosed _ opened =>
        rw [closed] at opened
        cases opened
  · intro fault hfault
    rw [hfault] at hreading
    cases hreading with
    | misplaced here first => exact .inl ⟨here, first⟩
    | unclosed placed opened => exact .inr ⟨placed, opened, rfl⟩
  · intro path hpath
    rw [hpath] at hreading
    cases hreading with
    | path placed closed => rfl

-- a dot inside a bracket, an empty bracket, text after a bracket, and dollar signs in front
example : keptRuns "$.[$]..a[b.c][]d.$".toList = ["a", "b.c", "d", "$"] := by decide

end Laminate.Cursor
