import Laminate.Proofs.Evaluation.Filling

/-!
# Settled paths

A name finds an element of a list by what stands in the name fields of the elements. If a call
stands there, the name may find another element once the call has run. A path is settled if that
cannot happen on its way: before the elements that its names find now, no element is a call or has
one in a name field. A settled path leads the same way in the tree and in all its fillings
(`resolve_fill_append`, `step_fill_error`).
-/

namespace Laminate.Node

/-- What an element is named by cannot change: it is no call, and has none in its name fields. -/
def Firm (item : Node) : Prop :=
  item.call? = none ∧ ∀ field ∈ nameFields, ∀ n, item.get? field = some n → n.call? = none

/-- The elements before the first that has a name are firm. The first one itself keeps the name,
unless the name has the form of a call. -/
def NameSettled (name : String) : List Node → Prop
  | [] => True
  | item :: items =>
    (item.isNamed name = true ∧ Call.parse? name = none) ∨
      (item.Firm ∧ (item.isNamed name = false → NameSettled name items))

/-- No call decides which child a component addresses. -/
def Settles : Node → String → Prop
  | sequence items, component =>
    Numeral.index? component.toList = none → NameSettled component items
  | _, _ => True

/-- No call decides where the steps of a path lead that lead somewhere now. -/
def Steady : Node → List String → Prop
  | _, [] => True
  | n, c :: cs => ∀ d child, n.step c = .ok (d, child) → n.Settles c ∧ child.Steady cs

/-- No call decides where a path leads. What a call finds behind a step that fails now is settled,
since the call waits for everything in that place; only at the root it does not wait. -/
def Settled (n : Node) (path : List String) : Prop :=
  n.Steady path ∧ ∀ c ∈ path.head?, n.Settles c

/-! ## One step -/

theorem call?_of_not_scalar {n : Node} (h : n.isScalar = false) : n.call? = none := by
  cases n with
  | scalar s => cases h
  | _ => rfl

theorem text?_fill {n : Node} {f : Filling} (h : n.call? = none ∨ f [] = none) :
    (n.fill f).text? = n.text? := by
  cases n with
  | scalar s =>
    rcases h with hcall | hunfilled
    · rw [fill_of_no_call hcall]
    · rw [fill_scalar, hunfilled]
      split <;> rfl
  | _ => rfl

/-- A field keeps its text if there is no call in it, or its call has not run. -/
theorem field?_fill {item : Node} (hcall : item.call? = none) {field : String} {f : Filling}
    (hfield : ∀ n, item.get? field = some n → n.call? = none ∨ f [field] = none) :
    (item.fill f).field? field = item.field? field := by
  cases item with
  | scalar s => rw [fill_of_no_call hcall]
  | sequence items => rfl
  | mapping es =>
    rw [fill_mapping]
    simp only [field?, get?, get?_fillEntries]
    cases hget : Entries.get? es field with
    | none => rfl
    | some n => exact text?_fill (hfield n hget)

theorem isNamed_fill {item : Node} (hcall : item.call? = none) {f : Filling}
    (hfields : ∀ field ∈ nameFields, ∀ n, item.get? field = some n →
      n.call? = none ∨ f [field] = none) (name : String) :
    (item.fill f).isNamed name = item.isNamed name := by
  rw [Bool.eq_iff_iff, isNamed, isNamed, List.any_eq_true, List.any_eq_true]
  refine exists_congr fun field => and_congr_right fun hfield => ?_
  rw [field?_fill hcall (hfields field hfield)]

theorem Firm.isNamed_fill {item : Node} (h : item.Firm) (name : String) (f : Filling) :
    (item.fill f).isNamed name = item.isNamed name :=
  Node.isNamed_fill h.1 (fun field hfield n hget => Or.inl (h.2 field hfield n hget)) name

theorem call?_eq_none_of_text? {n : Node} {text : String} (h : n.text? = some text)
    (hcall : Call.parse? text = none) : n.call? = none := by
  cases n with
  | scalar s =>
    cases s with
    | string t =>
      cases h
      exact hcall
    | _ => rfl
  | _ => rfl

/-- A name that stands in a name field stays there. -/
theorem isNamed_fill_of_isNamed {item : Node} {name : String} (h : item.isNamed name = true)
    (hcall : Call.parse? name = none) (f : Filling) : (item.fill f).isNamed name = true := by
  obtain ⟨field, hfield, hname⟩ := List.any_eq_true.mp h
  refine List.any_eq_true.mpr ⟨field, hfield, ?_⟩
  rw [beq_iff_eq, field?] at hname ⊢
  obtain ⟨n, hget, htext⟩ := Option.bind_eq_some_iff.mp hname
  cases item with
  | scalar s => cases hget
  | sequence items => cases hget
  | mapping es =>
    refine Option.bind_eq_some_iff.mpr ⟨n.fill (f.below [field]), ?_, ?_⟩
    · rw [fill_mapping, get?, get?_fillEntries]
      exact congrArg (Option.map _) hget
    · rw [text?_fill (Or.inl (call?_eq_none_of_text? htext hcall)), htext]

theorem findIdx?_fillItems {name : String} {items : List Node} (h : NameSettled name items)
    (f : Filling) : ∀ index : Nat,
    (fillItems items index f).findIdx? (fun item => item.isNamed name)
      = items.findIdx? fun item => item.isNamed name := by
  induction items with
  | nil => exact fun _ => rfl
  | cons item items ih =>
    intro index
    rw [fillItems_cons, List.findIdx?_cons, List.findIdx?_cons]
    rcases h with ⟨hnamed, hcall⟩ | ⟨hfirm, hrest⟩
    -- the search ends here in the filling too
    · rw [hnamed, isNamed_fill_of_isNamed hnamed hcall]
      rfl
    · rw [hfirm.isNamed_fill]
      cases hnamed : item.isNamed name with
      | true => rfl
      | false => rw [ih (hrest hnamed)]

theorem elementIndex?_fillItems {items : List Node} {component : String}
    (h : (sequence items).Settles component) (f : Filling) :
    elementIndex? (fillItems items 0 f) component = elementIndex? items component := by
  unfold elementIndex?
  cases hindex : Numeral.index? component.toList with
  | some i => rw [length_fillItems]
  | none => exact findIdx?_fillItems (h hindex) f 0

/-- A step that no call decides leads to the filled child. -/
theorem step_fill {n child : Node} {c d : String} (hsettles : n.Settles c)
    (h : n.step c = .ok (d, child)) (f : Filling) :
    (n.fill f).step c = .ok (d, child.fill (f.below [d])) := by
  rcases step_cases h with ⟨es, rfl, hget, rfl⟩ | ⟨items, i, rfl, hi, hget, rfl⟩
  · refine step_mapping ?_
    rw [get?_fillEntries, hget]
    rfl
  · refine step_sequence ?_ (fillItems_found hget f)
    rw [elementIndex?_fillItems hsettles, hi]

/-- A step that no call decides fails for the same reason in the fillings of a container. -/
theorem step_fill_of_error {n : Node} {c : String} {obstacle : Obstacle}
    (hscalar : n.isScalar = false) (hsettles : n.Settles c) (h : n.step c = .error obstacle)
    (f : Filling) : (n.fill f).step c = .error obstacle := by
  cases n with
  | scalar s => cases hscalar
  | mapping es =>
    cases hget : Entries.get? es c with
    | some child => simp [Node.step, hget] at h
    | none =>
      have hfill : Entries.get? (fillEntries es f) c = none := by rw [get?_fillEntries, hget]; rfl
      rw [← h, fill_mapping]
      simp only [Node.step, hget, hfill]
  | sequence items =>
    cases hi : elementIndex? items c with
    | some i =>
      have hget := List.getElem?_eq_getElem (elementIndex?_lt hi)
      simp [Node.step, hi, hget] at h
    | none =>
      rw [← h, fill_sequence]
      simp only [Node.step, elementIndex?_fillItems hsettles, hi, elementObstacle,
        length_fillItems]

/-- A step that no call decides and that leads somewhere in a filling of a container leads somewhere
in the container. -/
theorem step_fill_error {n : Node} {c d : String} {child : Node} (hscalar : n.isScalar = false)
    (hsettles : n.Settles c) {f : Filling} (h : (n.fill f).step c = .ok (d, child)) :
    ∃ child', n.step c = .ok (d, child') := by
  cases hstep : n.step c with
  | error obstacle =>
    rw [step_fill_of_error hscalar hsettles hstep f] at h
    cases h
  | ok found =>
    obtain ⟨d', child'⟩ := found
    rw [step_fill hsettles hstep f] at h
    cases h
    exact ⟨child', rfl⟩

/-! ## Paths -/

theorem Steady.cons {n child : Node} {c d : String} {cs : List String}
    (hstep : n.step c = .ok (d, child)) (hsettles : n.Settles c) (hrest : child.Steady cs) :
    n.Steady (c :: cs) := by
  intro d' child' hstep'
  rw [hstep] at hstep'
  cases hstep'
  exact ⟨hsettles, hrest⟩

theorem Steady.of_append {n : Node} : ∀ {p q : List String}, n.Steady (p ++ q) → n.Steady p
  | [], _, _ => trivial
  | _ :: _, _, h => fun d child hstep => ⟨(h d child hstep).1, (h d child hstep).2.of_append⟩

/-- **Beyond a steady beginning, a path leads on in the filling of what the beginning leads to.** -/
theorem resolve_fill_append : ∀ {n m : Node} {path c : List String}, n.Steady path →
    n.canonical path = .ok c → n.resolve path = .ok m → ∀ (f : Filling) (rest : List String)
    (value : Node), (n.fill f).resolve (path ++ rest) = .ok value ↔
      (m.fill (f.below c)).resolve rest = .ok value
  | n, m, [], c, _, hc, hm, f, rest, value => by
    cases hc
    cases hm
    rfl
  | n, m, component :: path, c, hsteady, hc, hm, f, rest, value => by
    obtain ⟨d, child, ds, hstep, hds, rfl⟩ := canonical_cons_ok.mp hc
    obtain ⟨d', child', hstep', hchild⟩ := resolve_cons_ok.mp hm
    rw [hstep] at hstep'
    cases hstep'
    obtain ⟨hsettles, hrest⟩ := hsteady d child hstep
    have hfill := step_fill hsettles hstep f
    have ih := resolve_fill_append hrest hds hchild (f.below [d]) rest value
    rw [Filling.below_below] at ih
    rw [← List.singleton_append (l := ds), ← ih, List.cons_append, resolve_cons_ok]
    constructor
    · rintro ⟨d', child', hstep', hr⟩
      rw [hfill] at hstep'
      cases hstep'
      exact hr
    · exact fun hr => ⟨d, _, hfill, hr⟩

end Laminate.Node
