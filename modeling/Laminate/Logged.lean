/-!
# Values with a log

A computation that writes notes and never reads them back: its value, and the notes in the order
in which they were written. Notes cannot influence values, so a statement about values may ignore
the log.
-/

namespace Laminate

universe u v

/-- A value and the notes written on the way to it. -/
structure Logged (ω : Type u) (α : Type v) where
  value : α
  log : List ω
deriving DecidableEq, Repr

namespace Logged

variable {ω : Type u}

instance : Monad (Logged ω) where
  pure value := ⟨value, []⟩
  bind x f :=
    let y := f x.value
    ⟨y.value, x.log ++ y.log⟩

/-- Writes one note. -/
def note (entry : ω) : Logged ω PUnit :=
  ⟨⟨⟩, [entry]⟩

section Lemmas

variable {α β : Type v}

@[simp] theorem value_pure (a : α) : (pure a : Logged ω α).value = a := rfl

@[simp] theorem log_pure (a : α) : (pure a : Logged ω α).log = [] := rfl

@[simp] theorem value_bind (x : Logged ω α) (f : α → Logged ω β) :
    (x >>= f).value = (f x.value).value := rfl

@[simp] theorem log_bind (x : Logged ω α) (f : α → Logged ω β) :
    (x >>= f).log = x.log ++ (f x.value).log := rfl

@[simp] theorem log_note (entry : ω) : (note entry : Logged ω PUnit).log = [entry] := rfl

@[simp] theorem value_map (f : α → β) (x : Logged ω α) : (f <$> x).value = f x.value := rfl

@[simp] theorem log_map (f : α → β) (x : Logged ω α) : (f <$> x).log = x.log := by
  show x.log ++ [] = x.log
  exact List.append_nil _

theorem eq_pure {x : Logged ω α} {a : α} (hvalue : x.value = a) (hlog : x.log = []) :
    x = pure a := by
  cases x
  cases hvalue
  cases hlog
  rfl

end Lemmas

end Logged

end Laminate
