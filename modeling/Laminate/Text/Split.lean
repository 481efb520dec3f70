/-!
# Splitting text

Cutting a text at a separator character: at every occurrence, at the first one, or at the last
one. Cutting loses nothing but the separators (`flatten_split`), and what stands before and after
the first separator is told by the whole (`append_cons_inj`).
-/

namespace Laminate.Text

/-- The parts between the separators, empty ones included; there is always at least one part. -/
def split (sep : Char) : List Char → List (List Char)
  | [] => [[]]
  | c :: cs =>
    if c = sep then [] :: split sep cs
    else
      match split sep cs with
      | [] => [[c]]
      | part :: parts => (c :: part) :: parts

theorem split_ne_nil (sep : Char) (cs : List Char) : split sep cs ≠ [] := by
  cases cs with
  | nil => simp [split]
  | cons c cs =>
    unfold split
    split
    · simp
    · split <;> simp

/-- The parts hold all characters but the separators, in order. -/
theorem flatten_split (sep : Char) (cs : List Char) :
    (split sep cs).flatten = cs.filter fun c => c ≠ sep := by
  induction cs with
  | nil => simp [split]
  | cons c cs ih =>
    unfold split
    by_cases h : c = sep
    · simp [h, ih]
    · rw [if_neg h]
      cases hs : split sep cs with
      | nil => exact absurd hs (split_ne_nil sep cs)
      | cons part parts =>
        rw [hs] at ih
        rw [List.filter_cons_of_pos (by simpa using h), ← ih]
        simp

/-- A text without a separator is one part. -/
theorem split_of_notMem {sep : Char} {part : List Char} (h : sep ∉ part) :
    split sep part = [part] := by
  induction part with
  | nil => rfl
  | cons c part ih =>
    simp only [List.mem_cons, not_or] at h
    rw [split, if_neg (Ne.symm h.1), ih h.2]

/-- Up to the first separator the text is one part. -/
theorem split_append_cons {sep : Char} {part : List Char} (h : sep ∉ part) (cs : List Char) :
    split sep (part ++ sep :: cs) = part :: split sep cs := by
  induction part with
  | nil => rw [List.nil_append, split, if_pos rfl]
  | cons c part ih =>
    simp only [List.mem_cons, not_or] at h
    rw [List.cons_append, split, if_neg (Ne.symm h.1), ih h.2]

/-- The part before the first separator and what follows it can be told from the whole. -/
theorem append_cons_inj {sep : Char} {part other cs ds : List Char} (hpart : sep ∉ part)
    (hother : sep ∉ other) (h : part ++ sep :: cs = other ++ sep :: ds) :
    part = other ∧ cs = ds := by
  induction part generalizing other with
  | nil =>
    cases other with
    | nil => exact ⟨rfl, (List.cons.inj h).2⟩
    | cons d other => exact absurd ((List.cons.inj h).1 ▸ List.mem_cons_self) hother
  | cons c part ih =>
    cases other with
    | nil => exact absurd ((List.cons.inj h).1 ▸ List.mem_cons_self) hpart
    | cons d other =>
      obtain ⟨rfl, hrest⟩ := List.cons.inj h
      obtain ⟨rfl, hds⟩ := ih (fun hmem => hpart (List.mem_cons_of_mem _ hmem))
        (fun hmem => hother (List.mem_cons_of_mem _ hmem)) hrest
      exact ⟨rfl, hds⟩

/-- What stands before and after the first separator. -/
def splitFirst? (sep : Char) (cs : List Char) : Option (List Char × List Char) :=
  match cs.dropWhile (· ≠ sep) with
  | [] => none
  | _ :: rest => some (cs.takeWhile (· ≠ sep), rest)

/-- What stands before and after the last separator. -/
def splitLast? (sep : Char) (cs : List Char) : Option (List Char × List Char) :=
  (splitFirst? sep cs.reverse).map fun p => (p.2.reverse, p.1.reverse)

end Laminate.Text
