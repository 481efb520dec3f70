import Laminate.Cursor.Reader

/-!
# Paths are read back from their texts

The text of a path gives the path back if and only if the path is writable: no component is empty or
holds a bracket, and the first one is no lone dollar sign (`text_read_back`). The reader never keeps
anything else (`writable_of_parse`), so different paths that have been read have different texts.

While a text is being read, the current component counts as soon as it is ended, be it by a dot, a
bracket or the end. So what has been read so far is observed through `Reader.flush`, and the text of
a component adds just this component to it, whichever way it is written (`Holds.read_component`).
-/

namespace Laminate.Cursor

/-- A component that a text can hold: not empty, and without brackets. -/
structure Component (x : String) : Prop where
  nonempty : x ≠ ""
  no_bracket : ∀ c ∈ x.toList, c ≠ '[' ∧ c ≠ ']'

/-- A path that its text tells: of components that a text can hold, where the first one does not
stand for the root. -/
structure Writable (c : Cursor) : Prop where
  components : ∀ x ∈ c.components, Component x
  head : c.components.head? ≠ some "$"

theorem component_iff {x : String} :
    Component x ↔ x ≠ "" ∧ x.toList.all (fun c => c != '[' && c != ']') = true := by
  constructor
  · rintro ⟨hnonempty, hbracket⟩
    exact ⟨hnonempty, by simpa using hbracket⟩
  · rintro ⟨hnonempty, hbracket⟩
    exact ⟨hnonempty, by simpa using hbracket⟩

instance : DecidablePred Component := fun _ => decidable_of_iff _ component_iff.symm

instance : DecidablePred Writable := fun c =>
  decidable_of_iff ((∀ x ∈ c.components, Component x) ∧ c.components.head? ≠ some "$")
    ⟨fun ⟨hcomponents, hhead⟩ => ⟨hcomponents, hhead⟩, fun h => ⟨h.components, h.head⟩⟩

namespace Reader

variable {r : Reader} {x : String} {position : Nat}

/-! ## Ending a component -/

@[simp] theorem current_flush (r : Reader) : r.flush.current = [] := by
  unfold flush
  split <;> rfl

@[simp] theorem bracket_flush (r : Reader) : r.flush.bracket = r.bracket := by
  unfold flush
  split <;> rfl

theorem bracket_eq_of_flush_eq {r' : Reader} (h : r.flush = r') : r.bracket = r'.bracket := by
  rw [← h, bracket_flush]

theorem flush_of_current_eq_nil (h : r.current = []) : r.flush = r := by
  rw [flush, if_pos (Or.inl h), ← h]

/-- A component that a text can hold is kept, unless it stands for the root. -/
theorem flush_component (hx : Component x) {components : List String}
    (hroot : components = [] → x ≠ "$") (bracket : Option Nat) :
    flush ⟨components, x.toList, bracket⟩ = ⟨components ++ [x], [], bracket⟩ := by
  have hkept : ¬(x.toList = [] ∨ (components = [] ∧ x.toList = ['$'])) := by
    rintro (hnil | ⟨hcomponents, hdollar⟩)
    · exact hx.nonempty (String.toList_eq_nil_iff.mp hnil)
    · exact hroot hcomponents (String.toList_inj.mp hdollar)
  rw [flush, if_neg hkept, String.ofList_toList]

/-! ## What is read is writable -/

/-- The components so far can be written, and the current one has no brackets. -/
structure Sound (r : Reader) : Prop where
  writable : Writable ⟨r.components⟩
  current : ∀ c ∈ r.current, c ≠ '[' ∧ c ≠ ']'

theorem sound_start : start.Sound :=
  ⟨⟨List.forall_mem_nil _, nofun⟩, List.forall_mem_nil _⟩

theorem Sound.flush (h : r.Sound) : r.flush.Sound := by
  obtain ⟨components, current, bracket⟩ := r
  obtain ⟨⟨hcomponents, hhead⟩, hcurrent⟩ := h
  unfold Reader.flush
  split
  · exact ⟨⟨hcomponents, hhead⟩, List.forall_mem_nil _⟩
  · next hkept =>
    obtain ⟨hnonempty, hdollar⟩ := not_or.mp hkept
    refine ⟨⟨List.forall_mem_append.mpr ⟨hcomponents, List.forall_mem_singleton.mpr ⟨?_, ?_⟩⟩,
      ?_⟩, List.forall_mem_nil _⟩
    · exact fun h => hnonempty (String.ofList_eq_empty_iff.mp h)
    · rwa [String.toList_ofList]
    · cases components with
      | nil => exact fun h => hdollar ⟨rfl, String.ofList_inj.mp (Option.some.inj h)⟩
      | cons y components => exact hhead

theorem Sound.step {c : Char} {r' : Reader} (h : r.Sound) (hstep : r.step position c = .ok r') :
    r'.Sound := by
  unfold Reader.step at hstep
  split at hstep
  · cases hstep
    exact h.flush
  · split at hstep
    · split at hstep
      · cases hstep
      · cases hstep
        exact ⟨h.flush.writable, h.flush.current⟩
    · split at hstep
      · split at hstep
        · cases hstep
        · cases hstep
          exact ⟨h.flush.writable, h.flush.current⟩
      · next hopen hclose =>
        cases hstep
        exact ⟨h.writable, List.forall_mem_append.mpr
          ⟨h.current, List.forall_mem_singleton.mpr ⟨hopen, hclose⟩⟩⟩

theorem Sound.read {cs : List Char} : ∀ {r : Reader} {position : Nat} {path : Cursor}, r.Sound →
    r.read position cs = .ok path → path.Writable := by
  induction cs with
  | nil =>
    intro r position path h hread
    unfold Reader.read finish at hread
    split at hread
    · cases hread
    · cases hread
      exact h.flush.writable
  | cons c cs ih =>
    intro r position path h hread
    unfold Reader.read at hread
    split at hread
    · next r' hstep => exact ih (h.step hstep) hread
    · cases hread

/-! ## Texts are read back -/

/-- Characters that do not end the current component become part of it. -/
theorem read_chars (components : List String) (bracket : Option Nat) {cs : List Char}
    (hbracket : ∀ c ∈ cs, c ≠ '[' ∧ c ≠ ']') (hdot : bracket = none → '.' ∉ cs)
    (rest : List Char) : ∀ (current : List Char) (position : Nat),
    read ⟨components, current, bracket⟩ position (cs ++ rest)
      = read ⟨components, current ++ cs, bracket⟩ (position + cs.length) rest := by
  induction cs with
  | nil =>
    intro current position
    rw [List.append_nil]
    rfl
  | cons c cs ih =>
    intro current position
    obtain ⟨⟨hopen, hclose⟩, hcs⟩ := List.forall_mem_cons.mp hbracket
    have hnodot : ¬(c = '.' ∧ bracket = none) := fun ⟨hc, hnone⟩ =>
      hdot hnone (hc ▸ List.mem_cons_self)
    have hstep : step ⟨components, current, bracket⟩ position c
        = .ok ⟨components, current ++ [c], bracket⟩ := by
      rw [step, if_neg hnodot, if_neg hopen, if_neg hclose]
    have hrest := ih hcs (fun hnone hmem => hdot hnone (List.mem_cons_of_mem _ hmem))
      (current ++ [c]) (position + 1)
    rw [List.append_assoc, List.singleton_append, Nat.add_assoc, Nat.add_comm 1] at hrest
    rw [List.cons_append, read, hstep]
    exact hrest

variable {components : List String}

/-- A dot outside brackets ends the current component. -/
theorem read_dot (h : r.flush = ⟨components, [], none⟩) (position : Nat) (cs : List Char) :
    r.read position ('.' :: cs) = read ⟨components, [], none⟩ (position + 1) cs := by
  have houtside : r.bracket = none := bracket_eq_of_flush_eq h
  have hstep : r.step position '.' = .ok r.flush := if_pos ⟨rfl, houtside⟩
  rw [read, hstep, h]

/-- Brackets end the current component, and what they enclose is one. -/
theorem read_brackets (h : r.flush = ⟨components, [], none⟩) (hx : Component x)
    (hroot : components = [] → x ≠ "$") (position : Nat) (rest : List Char) :
    r.read position ('[' :: x.toList ++ [']'] ++ rest)
      = read ⟨components ++ [x], [], none⟩ (position + 1 + x.toList.length + 1) rest := by
  have houtside : r.bracket = none := bracket_eq_of_flush_eq h
  have hopen : r.step position '[' = .ok ⟨components, [], some position⟩ := by
    simp [step, houtside, h]
  have hclose : ∀ position' : Nat,
      step ⟨components, x.toList, some position⟩ position' ']'
        = .ok ⟨components ++ [x], [], none⟩ := by
    intro position'
    simp [step, flush_component hx hroot]
  have hinside := read_chars components (some position) hx.no_bracket
    (fun hnone => nomatch hnone) (']' :: rest) [] (position + 1)
  rw [List.cons_append, List.cons_append, read, hopen, List.append_assoc, List.singleton_append]
  refine hinside.trans ?_
  rw [List.nil_append, read, hclose]

/-- The text of a component adds it to those read so far. -/
theorem exists_read_componentText (first : Bool) (h : r.flush = ⟨components, [], none⟩)
    (hfirst : first = true → r.current = []) (hx : Component x)
    (hroot : components = [] → x ≠ "$") (position : Nat) :
    ∃ (r' : Reader) (position' : Nat), r'.flush = ⟨components ++ [x], [], none⟩ ∧
      ∀ rest, r.read position (componentText first x ++ rest) = r'.read position' rest := by
  by_cases hdot : '.' ∈ x.toList
  · refine ⟨⟨components ++ [x], [], none⟩, position + 1 + x.toList.length + 1,
      flush_of_current_eq_nil rfl, fun rest => ?_⟩
    rw [componentText, if_pos (List.contains_iff_mem.mpr hdot)]
    exact read_brackets h hx hroot position rest
  · -- without brackets it stays the current component until the next one begins
    have hplain := read_chars components none hx.no_bracket fun _ => hdot
    have hdot' : ¬x.toList.contains '.' = true := fun h => hdot (List.contains_iff_mem.mp h)
    refine ⟨_, position + (componentText first x).length, flush_component hx hroot none,
      fun rest => ?_⟩
    rw [componentText, if_neg hdot']
    cases first with
    | true =>
      rw [flush_of_current_eq_nil (hfirst rfl)] at h
      rw [h]
      exact hplain rest [] position
    | false =>
      show r.read position ('.' :: (x.toList ++ rest)) = _
      rw [read_dot h, hplain rest [] (position + 1)]
      simp [Nat.add_assoc, Nat.add_comm 1]

theorem read_componentTexts {xs : List String} : ∀ {r : Reader} {components : List String}
    (position : Nat), r.flush = ⟨components, [], none⟩ → Writable ⟨components ++ xs⟩ →
    r.read position (xs.flatMap (componentText false)) = .ok ⟨components ++ xs⟩ := by
  induction xs with
  | nil =>
    intro r components position h _
    have houtside : r.bracket = none := bracket_eq_of_flush_eq h
    rw [List.append_nil, List.flatMap_nil, read, finish, houtside, h]
  | cons x xs ih =>
    intro r components position h hwritable
    have hx := hwritable.components x (List.mem_append_right _ List.mem_cons_self)
    have hroot : components = [] → x ≠ "$" := by
      rintro rfl rfl
      exact hwritable.head rfl
    obtain ⟨r', position', hr', hread⟩ :=
      exists_read_componentText false h nofun hx hroot position
    have hassoc : components ++ x :: xs = components ++ [x] ++ xs := by
      rw [List.append_assoc, List.singleton_append]
    rw [List.flatMap_cons, hread, hassoc]
    exact ih position' hr' (hassoc ▸ hwritable)

end Reader

/-- The text of a writable path is read back, whatever has stood for the root before it. -/
theorem Writable.read_text {c : Cursor} (h : c.Writable) (position : Nat) :
    Reader.start.read position (componentsText c.components) = .ok c := by
  obtain ⟨xs⟩ := c
  cases xs with
  | nil => rfl
  | cons x xs =>
    obtain ⟨r, position', hr, hread⟩ := Reader.exists_read_componentText true
      (r := .start) (Reader.flush_of_current_eq_nil rfl) (fun _ => rfl)
      (h.components x List.mem_cons_self) (fun _ heq => h.head (congrArg some heq)) position
    rw [componentsText, hread]
    exact Reader.read_componentTexts position' hr h

theorem writable_of_parse {text : String} {c : Cursor} (h : parse text = .ok c) : c.Writable :=
  Reader.sound_start.read h

theorem Writable.parse_text {c : Cursor} (h : c.Writable) : parse c.text = .ok c := by
  rw [parse, ofChars, text, String.toList_ofList]
  exact h.read_text 0

theorem Writable.parse_qualified {c : Cursor} (h : c.Writable) : parse c.qualified = .ok c := by
  obtain ⟨xs⟩ := c
  cases xs with
  | nil => rfl
  | cons x xs =>
    have hchars : (qualified ⟨x :: xs⟩).toList = '$' :: '.' :: componentsText (x :: xs) := by
      simp [qualified, isRoot, text]
    -- the dollar sign is dropped at the dot, as no component has been kept yet
    rw [parse, ofChars, hchars]
    exact h.read_text 2

/-- **A path is read back from its text if and only if it is writable. What is read from any text is
writable, so it is read back from its own text, which no other path that has been read has, and from
that text after the dollar sign of the root as well.** -/
theorem text_read_back :
    (∀ c : Cursor, parse c.text = .ok c ↔ c.Writable) ∧
    (∀ (s : String) (c : Cursor), parse s = .ok c → c.Writable ∧ parse c.text = .ok c) ∧
    (∀ (s t : String) (c d : Cursor), parse s = .ok c → parse t = .ok d → c ≠ d →
      c.text ≠ d.text) ∧
    ∀ c : Cursor, c.Writable → parse c.qualified = .ok c := by
  have hread : ∀ {s : String} {c : Cursor}, parse s = .ok c → parse c.text = .ok c := fun h =>
    (writable_of_parse h).parse_text
  refine ⟨fun c => ⟨writable_of_parse, Writable.parse_text⟩,
    fun s c h => ⟨writable_of_parse h, hread h⟩, fun s t c d hc hd hne heq => ?_,
    fun c h => h.parse_qualified⟩
  have hsame := hread hc
  rw [heq, hread hd] at hsame
  exact hne (Except.ok.inj hsame).symm

/-- Components with dots stand in brackets, and a dollar sign further down is one like others. -/
theorem text_read_back_of_dots :
    text ⟨["a", "b.c", "$", "d.", "1"]⟩ = "a[b.c].$[d.].1" ∧
    parse "a[b.c].$[d.].1" = .ok ⟨["a", "b.c", "$", "d.", "1"]⟩ ∧
    parse "$.a[b.c].$[d.].1" = .ok ⟨["a", "b.c", "$", "d.", "1"]⟩ := by
  have hwritable : Writable ⟨["a", "b.c", "$", "d.", "1"]⟩ := by decide
  have htext : text ⟨["a", "b.c", "$", "d.", "1"]⟩ = "a[b.c].$[d.].1" := rfl
  have hqualified : qualified ⟨["a", "b.c", "$", "d.", "1"]⟩ = "$.a[b.c].$[d.].1" := rfl
  refine ⟨htext, ?_, ?_⟩
  · rw [← htext]
    exact (text_read_back.1 _).mpr hwritable
  · rw [← hqualified]
    exact text_read_back.2.2.2 _ hwritable

end Laminate.Cursor
