import Laminate.Text.Blank
import Mathlib.Data.List.DropRight

/-!
# What trimming leaves

A text is blanks, then a text that neither begins nor ends with a blank, then blanks
(`exists_eq_trim`). There is one way to cut it so, and trimming finds it (`trim_append_append`).
-/

namespace Laminate.Text

/-- Whether a text is nothing but blanks. -/
def AllBlank (cs : List Char) : Prop :=
  ∀ c ∈ cs, isBlank c = true

instance (cs : List Char) : Decidable (AllBlank cs) :=
  decidable_of_iff (cs.all isBlank = true) List.all_eq_true

/-- Whether a text neither begins nor ends with a blank. -/
structure Trimmed (cs : List Char) : Prop where
  head : ∀ c ∈ cs.head?, isBlank c = false
  last : ∀ c ∈ cs.getLast?, isBlank c = false

namespace AllBlank

theorem nil : AllBlank [] :=
  fun _ h => nomatch h

theorem append {cs ds : List Char} (hcs : AllBlank cs) (hds : AllBlank ds) : AllBlank (cs ++ ds) :=
  fun c h => (List.mem_append.mp h).elim (hcs c) (hds c)

end AllBlank

/-! ## The front -/

theorem trimStart_append {gap : List Char} (h : AllBlank gap) (cs : List Char) :
    trimStart (gap ++ cs) = trimStart cs :=
  List.dropWhile_append_of_pos h

theorem trimStart_eq_self {cs : List Char} (h : ∀ c ∈ cs.head?, isBlank c = false) :
    trimStart cs = cs := by
  cases cs with
  | nil => rfl
  | cons c cs => exact List.dropWhile_cons_of_neg (by simp [h c rfl])

theorem trimStart_of_allBlank {gap : List Char} (h : AllBlank gap) : trimStart gap = [] := by
  have := trimStart_append h []
  rwa [List.append_nil] at this

/-- The blanks at the front, and what is left of a text without them. -/
theorem exists_eq_trimStart (cs : List Char) :
    ∃ gap, AllBlank gap ∧ cs = gap ++ trimStart cs ∧
      ∀ c ∈ (trimStart cs).head?, isBlank c = false := by
  refine ⟨cs.takeWhile isBlank, fun c => List.mem_takeWhile_imp,
    List.takeWhile_append_dropWhile.symm, fun c hc => ?_⟩
  have := List.head?_dropWhile_not isBlank cs
  rw [show cs.dropWhile isBlank = trimStart cs from rfl, Option.mem_def.mp hc] at this
  exact this

/-! ## The end -/

theorem trimEnd_append {gap : List Char} (h : AllBlank gap) (cs : List Char) :
    trimEnd (cs ++ gap) = trimEnd cs := by
  rw [trimEnd, List.reverse_append, List.dropWhile_append_of_pos]
  · rfl
  · exact fun c hc => h c (List.mem_reverse.mp hc)

theorem trimEnd_eq_self {cs : List Char} (h : ∀ c ∈ cs.getLast?, isBlank c = false) :
    trimEnd cs = cs := by
  refine List.rdropWhile_eq_self_iff.mpr fun hne => ?_
  simp [h _ (List.getLast?_eq_some_getLast hne)]

/-- What ends with no blank at its end keeps everything that stands before it. -/
theorem trimEnd_append_of_ne_nil {cs : List Char} (h : trimEnd cs ≠ []) (front : List Char) :
    trimEnd (front ++ cs) = front ++ trimEnd cs := by
  have hne : cs.reverse.dropWhile isBlank ≠ [] := fun hnil => h (by rw [trimEnd, hnil]; rfl)
  rw [trimEnd, List.reverse_append, List.dropWhile_append, if_neg (by simpa using hne),
    List.reverse_append, List.reverse_reverse]
  rfl

/-- The blanks at the end, and what is left of a text without them. -/
theorem exists_eq_trimEnd (cs : List Char) :
    ∃ gap, AllBlank gap ∧ cs = trimEnd cs ++ gap ∧
      ∀ c ∈ (trimEnd cs).getLast?, isBlank c = false := by
  obtain ⟨gap, hgap, heq, hhead⟩ := exists_eq_trimStart cs.reverse
  refine ⟨gap.reverse, fun c hc => hgap c (List.mem_reverse.mp hc), ?_, fun c hc => hhead c ?_⟩
  · have := congrArg List.reverse heq
    rwa [List.reverse_reverse, List.reverse_append] at this
  · rwa [trimEnd, List.getLast?_reverse] at hc

/-! ## Both ends -/

/-- Trimming drops the blanks around a text and nothing else. -/
theorem trim_append_append {before cs after : List Char} (hbefore : AllBlank before)
    (hcs : Trimmed cs) (hafter : AllBlank after) : trim (before ++ (cs ++ after)) = cs := by
  rw [trim, trimStart_append hbefore]
  cases cs with
  | nil => rw [List.nil_append, trimStart_of_allBlank hafter]; rfl
  | cons c cs =>
    have hstart : trimStart (c :: cs ++ after) = c :: cs ++ after := trimStart_eq_self hcs.head
    rw [hstart, trimEnd_append hafter, trimEnd_eq_self hcs.last]

theorem trim_eq_self {cs : List Char} (h : Trimmed cs) : trim cs = cs := by
  have := trim_append_append .nil h .nil
  rwa [List.nil_append, List.append_nil] at this

/-- A text is what trimming leaves, between blanks. -/
theorem exists_eq_trim (cs : List Char) :
    ∃ before after, AllBlank before ∧ AllBlank after ∧ cs = before ++ (trim cs ++ after) ∧
      Trimmed (trim cs) := by
  obtain ⟨before, hbefore, hstart, hhead⟩ := exists_eq_trimStart cs
  obtain ⟨after, hafter, hend, hlast⟩ := exists_eq_trimEnd (trimStart cs)
  refine ⟨before, after, hbefore, hafter, by rw [trim, ← hend, ← hstart], ?_, hlast⟩
  intro c hc
  refine hhead c ?_
  rw [hend]
  exact List.mem_head?_append_of_mem_head? hc

theorem mem_of_mem_trim {c : Char} {cs : List Char} (h : c ∈ trim cs) : c ∈ cs := by
  obtain ⟨before, after, -, -, heq, -⟩ := exists_eq_trim cs
  rw [heq]
  exact List.mem_append_right _ (List.mem_append_left _ h)

/-- Blanks around a text make no difference to what trimming leaves. -/
theorem trim_append_blanks {before after : List Char} (hbefore : AllBlank before)
    (hafter : AllBlank after) (cs : List Char) : trim (before ++ (cs ++ after)) = trim cs := by
  obtain ⟨front, back, hfront, hback, heq, htrimmed⟩ := exists_eq_trim cs
  have hsplit : before ++ (cs ++ after)
      = before ++ front ++ (trim cs ++ (back ++ after)) := by
    conv_lhs => rw [heq]
    simp only [List.append_assoc]
  rw [hsplit, trim_append_append (hbefore.append hfront) htrimmed (hback.append hafter)]

end Laminate.Text
