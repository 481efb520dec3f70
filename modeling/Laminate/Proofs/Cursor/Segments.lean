import Laminate.Node.Dotted

/-!
# Paths without brackets

Without brackets only dots separate components, so the text of a path is read as if it were cut at
its dots and its segments were kept one by one (`read_noBracket`). Left out are empty segments
and, as long as none has been kept, lone dollar signs. The first of these are what a dotted path
drops at its front, so the components are the steps of the dotted path unless its first segment is
a dollar sign (`parse_eq_steps`).
-/

namespace Laminate

/-- A text without brackets. -/
def NoBracket (cs : List Char) : Prop :=
  ∀ c ∈ cs, c ≠ '[' ∧ c ≠ ']'

instance : DecidablePred NoBracket := List.decidableBAll fun c => c ≠ '[' ∧ c ≠ ']'

namespace DottedPath

/-- The first segment of a path that is not empty, every `$.` at the front of the path apart. -/
def firstSegment? (path : String) : Option (List Char) :=
  (Text.split '.' (dropRoot path.toList)).find? (· ≠ [])

theorem dropRoot_suffix (cs : List Char) : dropRoot cs <:+ cs := by
  induction cs using dropRoot.induct with
  | case1 cs ih =>
    rw [dropRoot]
    exact ih.trans ⟨['$', '.'], rfl⟩
  | case2 cs hcs =>
    exact (dropRoot.eq_2 cs hcs).symm ▸ List.suffix_refl cs

/-- A character of a step is a character of the path. -/
theorem mem_of_mem_steps {path step : String} (h : step ∈ steps path) {c : Char}
    (hc : c ∈ step.toList) : c ∈ path.toList := by
  obtain ⟨part, hpart, rfl⟩ := List.mem_map.mp h
  rw [String.toList_ofList] at hc
  have hflat : c ∈ (Text.split '.' (dropRoot path.toList)).flatten :=
    List.mem_flatten.mpr ⟨part, (List.mem_filter.mp hpart).1, hc⟩
  rw [Text.flatten_split] at hflat
  exact (dropRoot_suffix path.toList).mem (List.mem_filter.mp hflat).1

/-- The first segment is a step. -/
theorem mem_steps_of_firstSegment? {path : String} {segment : List Char}
    (h : firstSegment? path = some segment) : String.ofList segment ∈ steps path := by
  have hmem := List.mem_filter.mpr ⟨List.mem_of_find?_eq_some h, List.find?_some h⟩
  exact List.mem_map.mpr ⟨segment, hmem, rfl⟩

end DottedPath

namespace Cursor

/-- The components with one more segment. -/
def keep (components : List String) (segment : List Char) : List String :=
  if segment = [] ∨ (components = [] ∧ segment = ['$']) then components
  else components ++ [String.ofList segment]

theorem keep_dollar : keep [] ['$'] = [] :=
  if_pos (Or.inr ⟨rfl, rfl⟩)

/-! ## Reading -/

namespace Reader

theorem flush_eq (components : List String) (current : List Char) (bracket : Option Nat) :
    flush ⟨components, current, bracket⟩ = ⟨keep components current, [], bracket⟩ := by
  unfold flush keep
  split <;> rfl

/-- A text without brackets is cut at its dots, and its segments are kept one by one. -/
theorem read_noBracket {cs : List Char} (hplain : NoBracket cs) :
    ∀ {current : List Char}, '.' ∉ current → ∀ (components : List String) (position : Nat),
    read ⟨components, current, none⟩ position cs
      = .ok ⟨(Text.split '.' (current ++ cs)).foldl keep components⟩ := by
  induction cs with
  | nil =>
    intro current hcurrent components position
    rw [List.append_nil, Text.split_of_notMem hcurrent, read, finish, flush_eq]
    rfl
  | cons c cs ih =>
    intro current hcurrent components position
    obtain ⟨⟨hopen, hclose⟩, hcs⟩ := List.forall_mem_cons.mp hplain
    by_cases hdot : c = '.'
    · -- a dot ends the segment
      subst hdot
      have hstep : step ⟨components, current, none⟩ position '.'
          = .ok ⟨keep components current, [], none⟩ := by
        rw [step, if_pos ⟨rfl, rfl⟩, flush_eq]
      rw [read, hstep, Text.split_append_cons hcurrent]
      exact ih hcs List.not_mem_nil _ _
    · -- any other character belongs to it
      have hstep : step ⟨components, current, none⟩ position c
          = .ok ⟨components, current ++ [c], none⟩ := by
        rw [step, if_neg fun h => hdot h.1, if_neg hopen, if_neg hclose]
      have hcurrent' : '.' ∉ current ++ [c] := by
        simp [hcurrent, Ne.symm hdot]
      have hread := ih hcs hcurrent' components (position + 1)
      rw [List.append_assoc, List.singleton_append] at hread
      rw [read, hstep]
      exact hread

end Reader

/-! ## Segments that are left out -/

/-- Dollar signs before the first component are left out, as a dotted path drops them. -/
theorem foldl_keep_dropRoot (cs : List Char) :
    (Text.split '.' (DottedPath.dropRoot cs)).foldl keep []
      = (Text.split '.' cs).foldl keep [] := by
  induction cs using DottedPath.dropRoot.induct with
  | case1 cs ih =>
    have hnodot : '.' ∉ ['$'] := by decide
    have hdollar : Text.split '.' ('$' :: '.' :: cs) = ['$'] :: Text.split '.' cs :=
      Text.split_append_cons hnodot cs
    rw [DottedPath.dropRoot, ih, hdollar, List.foldl_cons, keep_dollar]
  | case2 cs hcs => rw [DottedPath.dropRoot.eq_2 cs hcs]

/-- Once a component has been kept, every further segment is kept unless it is empty. -/
theorem foldl_keep_of_ne_nil (segments : List (List Char)) : ∀ {components : List String},
    components ≠ [] → segments.foldl keep components
      = components ++ (segments.filter (· ≠ [])).map String.ofList := by
  induction segments with
  | nil => exact fun _ => (List.append_nil _).symm
  | cons segment segments ih =>
    intro components hcomponents
    by_cases hempty : segment = []
    · rw [List.foldl_cons, keep, if_pos (Or.inl hempty), ih hcomponents]
      simp [hempty]
    · have hkept : ¬(segment = [] ∨ (components = [] ∧ segment = ['$'])) := by
        simp [hempty, hcomponents]
      rw [List.foldl_cons, keep, if_neg hkept, ih (by simp)]
      simp [hempty]

/-- Keeping segments one by one drops the empty ones, and the dollar signs in front. -/
theorem foldl_keep_eq (segments : List (List Char)) : segments.foldl keep []
    = ((segments.filter (· ≠ [])).dropWhile (· = ['$'])).map String.ofList := by
  induction segments with
  | nil => rfl
  | cons segment segments ih =>
    by_cases hempty : segment = []
    · simp [keep, hempty, ih]
    · by_cases hdollar : segment = ['$']
      · simp [keep, hdollar, ih]
      · simp [keep, hempty, hdollar, foldl_keep_of_ne_nil segments]

/-- All segments are kept but the empty ones if the first of them is no dollar sign. -/
theorem foldl_keep_nil {segments : List (List Char)}
    (h : segments.find? (· ≠ []) ≠ some ['$']) :
    segments.foldl keep [] = (segments.filter (· ≠ [])).map String.ofList := by
  rw [← List.head?_filter] at h
  rw [foldl_keep_eq]
  cases hkept : segments.filter (· ≠ []) with
  | nil => rfl
  | cons segment kept =>
    rw [hkept] at h
    rw [List.dropWhile_cons_of_neg (by simpa using h)]

/-- **A path without brackets whose first segment is no dollar sign is read as the steps of the
dotted path.** -/
theorem parse_eq_steps {path : String} (hplain : NoBracket path.toList)
    (hroot : DottedPath.firstSegment? path ≠ some ['$']) :
    parse path = .ok ⟨DottedPath.steps path⟩ := by
  have hread := Reader.read_noBracket hplain List.not_mem_nil [] 0
  rw [List.nil_append, ← foldl_keep_dropRoot, foldl_keep_nil hroot] at hread
  exact hread

end Cursor

end Laminate
