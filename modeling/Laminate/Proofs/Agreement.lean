import Laminate.Fault
import Laminate.Logged
import Laminate.Node.Entries
import Mathlib.Data.List.Forall2
import Mathlib.Data.List.Perm.Basic

/-!
# Results that agree

Two computations that go through the same parts of a document in different orders give results that
agree: related values, or related errors (`ResultsAgree`), and the same notes in some order
(`Logged.Agree`). A collection of faults has the same message in any order
(`Faults.message_of_perm`).
-/

namespace Laminate

universe u v

/-! ## Values and errors -/

/-- Both results are values that are related, or both are errors that are. -/
inductive ResultsAgree {ε ε' : Type u} {α β : Type v} (E : ε → ε' → Prop) (R : α → β → Prop) :
    Except ε α → Except ε' β → Prop
  | ok {a : α} {b : β} (values : R a b) : ResultsAgree E R (.ok a) (.ok b)
  | error {e : ε} {e' : ε'} (errors : E e e') : ResultsAgree E R (.error e) (.error e')

namespace ResultsAgree

variable {ε ε' δ δ' : Type u} {α α' β β' : Type v} {E : ε → ε' → Prop} {F : δ → δ' → Prop}
  {R : α → β → Prop} {S : α' → β' → Prop} {x : Except ε α} {y : Except ε' β}

theorem bind {f : α → Except ε α'} {g : β → Except ε' β'} (h : ResultsAgree E R x y)
    (hfg : ∀ a b, R a b → ResultsAgree E S (f a) (g b)) :
    ResultsAgree E S (x >>= f) (y >>= g) := by
  cases h with
  | ok values => exact hfg _ _ values
  | error errors => exact .error errors

theorem map {f : α → α'} {g : β → β'} (h : ResultsAgree E R x y)
    (hfg : ∀ a b, R a b → S (f a) (g b)) : ResultsAgree E S (x.map f) (y.map g) := by
  cases h with
  | ok values => exact .ok (hfg _ _ values)
  | error errors => exact .error errors

theorem mapError {f : ε → δ} {g : ε' → δ'} (h : ResultsAgree E R x y)
    (hfg : ∀ e e', E e e' → F (f e) (g e')) :
    ResultsAgree F R (x.mapError f) (y.mapError g) := by
  cases h with
  | ok values => exact .ok values
  | error errors => exact .error (hfg _ _ errors)

theorem imp {S : α → β → Prop} (h : ResultsAgree E R x y) (hRS : ∀ a b, R a b → S a b) :
    ResultsAgree E S x y := by
  cases h with
  | ok values => exact .ok (hRS _ _ values)
  | error errors => exact .error errors

theorem mapM {γ : Type v} {f : γ → Except ε α} {g : γ → Except ε' β} {cs : List γ}
    (h : ∀ c ∈ cs, ResultsAgree E R (f c) (g c)) :
    ResultsAgree E (List.Forall₂ R) (cs.mapM f) (cs.mapM g) := by
  induction cs with
  | nil => exact .ok .nil
  | cons c cs ih =>
    obtain ⟨hc, hcs⟩ := List.forall_mem_cons.mp h
    rw [List.mapM_cons, List.mapM_cons]
    exact hc.bind fun _ _ hab => (ih hcs).bind fun _ _ habs => .ok (.cons hab habs)

theorem of_eq {x y : Except ε α} (h : x = y) : ResultsAgree Eq Eq x y := by
  subst h
  cases x with
  | ok a => exact .ok rfl
  | error e => exact .error rfl

theorem eq {x y : Except ε α} (h : ResultsAgree Eq Eq x y) : x = y := by
  cases h with
  | ok values => rw [values]
  | error errors => rw [errors]

end ResultsAgree

/-! ## Values with a log -/

/-- The values are related, and the notes are the same in some order. -/
structure Logged.Agree {ω : Type u} {α β : Type v} (R : α → β → Prop) (x : Logged ω α)
    (y : Logged ω β) : Prop where
  value : R x.value y.value
  log : x.log.Perm y.log

namespace Logged.Agree

variable {ω : Type u} {α α' β β' : Type v} {R : α → β → Prop} {S : α' → β' → Prop}
  {x : Logged ω α} {y : Logged ω β}

theorem pure {a : α} {b : β} (h : R a b) : Agree R (pure a : Logged ω α) (pure b) :=
  ⟨h, .refl _⟩

theorem bind {f : α → Logged ω α'} {g : β → Logged ω β'} (h : Agree R x y)
    (hfg : ∀ a b, R a b → Agree S (f a) (g b)) : Agree S (x >>= f) (y >>= g) :=
  ⟨(hfg _ _ h.value).value, h.log.append (hfg _ _ h.value).log⟩

theorem map {f : α → α'} {g : β → β'} (h : Agree R x y) (hfg : ∀ a b, R a b → S (f a) (g b)) :
    Agree S (f <$> x) (g <$> y) := by
  refine ⟨hfg _ _ h.value, ?_⟩
  rw [log_map, log_map]
  exact h.log

end Logged.Agree

/-! ## Lists -/

section Lists

variable {α β : Type u} {R : α → β → Prop} {as : List α} {bs : List β}

theorem findIdx?_of_forall₂ {p : α → Bool} {q : β → Bool} (h : List.Forall₂ R as bs)
    (hpq : ∀ a b, R a b → p a = q b) : as.findIdx? p = bs.findIdx? q := by
  induction h with
  | nil => rfl
  | cons hab _ ih => rw [List.findIdx?_cons, List.findIdx?_cons, hpq _ _ hab, ih]

theorem all_of_forall₂ {p : α → Bool} {q : β → Bool} (h : List.Forall₂ R as bs)
    (hpq : ∀ a b, R a b → p a = q b) : as.all p = bs.all q := by
  induction h with
  | nil => rfl
  | cons hab _ ih => rw [List.all_cons, List.all_cons, hpq _ _ hab, ih]

theorem map_eq_of_forall₂ {γ : Type u} {f : α → γ} {g : β → γ} (h : List.Forall₂ R as bs)
    (hfg : ∀ a b, R a b → f a = g b) : as.map f = bs.map g := by
  induction h with
  | nil => rfl
  | cons hab _ ih => rw [List.map_cons, List.map_cons, hfg _ _ hab, ih]

theorem eq_none_of_rel {x : Option α} {y : Option β} (h : Option.Rel R x y) (hx : x = none) :
    y = none := by
  cases h with
  | none => rfl
  | some _ => cases hx

theorem getD_of_rel {x : Option α} {y : Option β} {a : α} {b : β} (h : Option.Rel R x y)
    (hab : R a b) : R (x.getD a) (y.getD b) := by
  cases h with
  | none => exact hab
  | some h => exact h

theorem or_of_rel {x z : Option α} {y w : Option β} (h : Option.Rel R x y)
    (hzw : Option.Rel R z w) : Option.Rel R (x.or z) (y.or w) := by
  cases h with
  | none => exact hzw
  | some hab => exact .some hab

theorem map_of_rel {γ δ : Type u} {S : γ → δ → Prop} {x : Option α} {y : Option β} {f : α → γ}
    {g : β → δ} (h : Option.Rel R x y)
    (hfg : ∀ a b, x = some a → y = some b → R a b → S (f a) (g b)) :
    Option.Rel S (x.map f) (y.map g) := by
  cases h with
  | none => exact .none
  | some hab => exact .some (hfg _ _ rfl rfl hab)

theorem getElem?_of_forall₂ (h : List.Forall₂ R as bs) : ∀ i : Nat,
    Option.Rel R as[i]? bs[i]? := by
  induction h with
  | nil => exact fun _ => .none
  | cons hab _ ih =>
    intro i
    cases i with
    | zero => exact .some hab
    | succ i => exact ih i

theorem set_of_forall₂ {a : α} {b : β} (h : List.Forall₂ R as bs) (hab : R a b) : ∀ i : Nat,
    List.Forall₂ R (as.set i a) (bs.set i b) := by
  induction h with
  | nil => exact fun _ => .nil
  | cons hcd hrest ih =>
    intro i
    cases i with
    | zero => exact .cons hab hrest
    | succ i => exact .cons hcd (ih i)

theorem eraseIdx_of_forall₂ (h : List.Forall₂ R as bs) : ∀ i : Nat,
    List.Forall₂ R (as.eraseIdx i) (bs.eraseIdx i) := by
  induction h with
  | nil => exact fun _ => .nil
  | cons hab hrest ih =>
    intro i
    cases i with
    | zero => exact hrest
    | succ i => exact .cons hab (ih i)

end Lists

/-! ## Entries in another order -/

namespace Entries

variable {α β : Type u} {ω : Type v} {es : Entries α} {es' : Entries β}

/-- What is collected from entries with distinct keys is collected key by key. -/
theorem flatMap_eq_flatMap_keys (h : (keys es).Nodup) (f : String → α → List ω) :
    es.flatMap (fun e => f e.1 e.2)
      = (keys es).flatMap fun key => ((get? es key).map (f key)).getD [] := by
  rw [keys, List.flatMap_map]
  refine List.flatMap_congr fun e he => ?_
  rw [get?_of_mem h he]
  rfl

/-- Entries with the same keys in another order give the same in another order. -/
theorem flatMap_perm (hkeys : (keys es).Perm (keys es')) (hnodup : (keys es).Nodup)
    {f : String → α → List ω} {g : String → β → List ω}
    (hfg : ∀ key a b, get? es key = some a → get? es' key = some b → (f key a).Perm (g key b)) :
    (es.flatMap fun e => f e.1 e.2).Perm (es'.flatMap fun e => g e.1 e.2) := by
  rw [flatMap_eq_flatMap_keys hnodup, flatMap_eq_flatMap_keys (hkeys.nodup_iff.mp hnodup)]
  refine hkeys.flatMap fun key hkey => ?_
  obtain ⟨a, ha⟩ := Option.ne_none_iff_exists'.mp fun hnone =>
    (get?_eq_none_iff es key).mp hnone hkey
  obtain ⟨b, hb⟩ := Option.ne_none_iff_exists'.mp fun hnone =>
    (get?_eq_none_iff es' key).mp hnone (hkeys.mem_iff.mp hkey)
  rw [ha, hb]
  exact hfg key a b ha hb

end Entries

/-! ## Sorted texts -/

theorem pairwise_mergeSort_texts (texts : List String) :
    (texts.mergeSort fun a b => decide (a ≤ b)).Pairwise (· ≤ ·) := by
  have htrans : ∀ a b c : String, decide (a ≤ b) = true → decide (b ≤ c) = true →
      decide (a ≤ c) = true := by
    simp only [decide_eq_true_eq]
    exact fun a b c => String.le_trans
  have htotal : ∀ a b : String, (decide (a ≤ b) || decide (b ≤ a)) = true := by
    simp only [Bool.or_eq_true, decide_eq_true_eq]
    exact String.le_total
  exact (List.pairwise_mergeSort htrans htotal _).imp fun h => by simpa using h

/-- Texts that are sorted have no order of their own. -/
theorem eq_of_perm_of_pairwise {texts texts' : List String} (h : texts.Perm texts')
    (hsorted : texts.Pairwise (· ≤ ·)) (hsorted' : texts'.Pairwise (· ≤ ·)) : texts = texts' :=
  h.eq_of_pairwise (fun _ _ _ _ => String.le_antisymm) hsorted hsorted'

/-- Sorting takes texts in any order to the same list, also if some of them are equal. -/
theorem mergeSort_texts_eq_of_perm {texts texts' : List String} (h : texts.Perm texts') :
    texts.mergeSort (fun a b => decide (a ≤ b)) = texts'.mergeSort fun a b => decide (a ≤ b) := by
  refine eq_of_perm_of_pairwise ?_ (pairwise_mergeSort_texts _) (pairwise_mergeSort_texts _)
  exact (List.mergeSort_perm _ _).trans (h.trans (List.mergeSort_perm _ _).symm)

/-- The message of a collection of faults does not depend on their order. -/
theorem Faults.message_of_perm {fs fs' : Faults} (h : fs.toList.Perm fs'.toList) :
    fs.message = fs'.message := by
  rw [message, message, mergeSort_texts_eq_of_perm (h.map line), count, count, h.length_eq]

/-- Whether an operation fails and with what message does not depend on the order of its faults. -/
theorem Faults.toExcept_agree {α β : Type} {R : α → β → Prop} {fs fs' : Faults}
    (h : fs.toList.Perm fs'.toList) {a : α} {b : β} (hab : R a b) :
    ResultsAgree (fun failure failure' => failure.message = failure'.message) R
      ((fs.toExcept a).mapError Failure.several) ((fs'.toExcept b).mapError Failure.several) := by
  have hempty : fs.isEmpty = fs'.isEmpty := by
    rw [isEmpty, isEmpty, Bool.eq_iff_iff, List.isEmpty_iff_length_eq_zero,
      List.isEmpty_iff_length_eq_zero, h.length_eq]
  unfold toExcept
  rw [hempty]
  split
  · exact .ok hab
  · exact .error (message_of_perm h)

end Laminate
