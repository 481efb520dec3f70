import Laminate.Call.Basic
import Laminate.Proofs.Text.Trim

/-!
# The grammar of calls

A text is a call if it can be cut into parentheses, a name, arguments and blanks between them
(`Parts`). A name goes on as far as it can, so what stands behind it begins with no character of a
name, and a body has no more than one call in it (`ofInner?_append`).
-/

namespace Laminate.Call

/-! ## Names -/

/-- The names of operators. -/
inductive IsName : List Char → Prop
  | mk {c : Char} {rest : List Char} (start : isNameStart c = true)
      (others : ∀ d ∈ rest, isNameChar d = true) : IsName (c :: rest)

theorem isBlank_eq_false {c : Char} (h : 0x20 < c.toNat) (h' : c.toNat < 0x7F) :
    Text.isBlank c = false := by
  simp only [Text.isBlank, Bool.or_eq_false_iff, Bool.and_eq_false_iff, decide_eq_false_iff_not,
    beq_eq_false_iff_ne]
  omega

theorem isBlank_of_isNameChar {c : Char} (h : isNameChar c = true) : Text.isBlank c = false := by
  delta isNameChar Char.isAlphanum Char.isAlpha Char.isUpper Char.isLower Char.isDigit at h
  simp only [Bool.or_eq_true, Bool.and_eq_true, decide_eq_true_eq, beq_iff_eq, ge_iff_le,
    UInt32.le_iff_toNat_le, Char.reduceVal, UInt32.reduceToNat] at h
  rcases h with (h | rfl) | rfl
  · exact isBlank_eq_false (by rw [Char.toNat]; omega) (by rw [Char.toNat]; omega)
  · rfl
  · rfl

theorem isNameChar_of_isBlank {c : Char} (h : Text.isBlank c = true) : isNameChar c = false :=
  Bool.eq_false_iff.mpr fun hname => by simp [isBlank_of_isNameChar hname] at h

theorem isBlank_of_isNameStart {c : Char} (h : isNameStart c = true) : Text.isBlank c = false :=
  isBlank_of_isNameChar (by rw [isNameChar, Char.isAlphanum, show c.isAlpha = true from h]; rfl)

/-! ## The body of a call -/

/-- A body between double parentheses. -/
def enclosed (body : List Char) : List Char :=
  '(' :: '(' :: (body ++ [')', ')'])

theorem inner?_enclosed (body : List Char) : inner? (enclosed body) = some body := by
  simp [inner?, enclosed]

theorem eq_enclosed {cs body : List Char} (h : inner? cs = some body) : cs = enclosed body := by
  unfold inner? at h
  split at h
  · next rest =>
    split at h
    · next rev hrev =>
      cases h
      have := congrArg List.reverse hrev
      rw [List.reverse_reverse, List.reverse_cons, List.reverse_cons, List.append_assoc] at this
      rw [this]
      rfl
    · nomatch h
  · nomatch h

/-- A name goes on as far as it can, and the arguments are what follows it. -/
theorem ofInner?_append {before name tail : List Char} (hbefore : Text.AllBlank before)
    (hname : IsName name) (htail : ∀ c ∈ tail.head?, isNameChar c = false) :
    ofInner? (before ++ (name ++ tail)) = if '\n' ∈ Text.trim tail then none
      else some ⟨String.ofList name, String.ofList (Text.trim tail)⟩ := by
  obtain @⟨c, rest, start, others⟩ := hname
  have hstart : Text.trimStart (before ++ (c :: rest ++ tail)) = c :: (rest ++ tail) := by
    rw [Text.trimStart_append hbefore, List.cons_append]
    exact Text.trimStart_eq_self fun d hd => Option.mem_some.mp hd ▸ isBlank_of_isNameStart start
  have hstop : tail.takeWhile isNameChar = [] ∧ tail.dropWhile isNameChar = tail := by
    cases tail with
    | nil => exact ⟨rfl, rfl⟩
    | cons d tail => simp [htail d rfl]
  have htake : (rest ++ tail).takeWhile isNameChar = rest := by
    rw [List.takeWhile_append_of_pos others, hstop.1, List.append_nil]
  have hdrop : (rest ++ tail).dropWhile isNameChar = tail := by
    rw [List.dropWhile_append_of_pos others, hstop.2]
  rw [ofInner?, hstart]
  simp only [htake, hdrop, start, true_and]
  split <;> simp_all

/-- A body in which a call is found begins with blanks and a name. -/
theorem exists_of_ofInner? {cs : List Char} {call : Call} (h : ofInner? cs = some call) :
    ∃ before name tail, Text.AllBlank before ∧ IsName name ∧
      (∀ c ∈ tail.head?, isNameChar c = false) ∧ cs = before ++ (name ++ tail) := by
  obtain ⟨before, hbefore, hcs, -⟩ := Text.exists_eq_trimStart cs
  unfold ofInner? at h
  split at h
  · nomatch h
  · next c rest hstart =>
    simp only at h
    split at h
    · next hcond =>
      refine ⟨before, c :: rest.takeWhile isNameChar, rest.dropWhile isNameChar, hbefore,
        .mk hcond.1 fun d => List.mem_takeWhile_imp, fun d hd => ?_, ?_⟩
      · have := List.head?_dropWhile_not isNameChar rest
        rwa [Option.mem_def.mp hd] at this
      · rw [List.cons_append, List.takeWhile_append_dropWhile, ← hstart]
        exact hcs
    · nomatch h

/-! ## The parts of a call -/

/-- A text cut into the parts of a call. -/
structure Parts (cs : List Char) where
  before : List Char
  name : List Char
  gap : List Char
  args : List Char
  after : List Char
  before_blank : Text.AllBlank before
  isName : IsName name
  gap_blank : Text.AllBlank gap
  args_trimmed : Text.Trimmed args
  args_oneLine : '\n' ∉ args
  after_blank : Text.AllBlank after
  /-- Without blanks between them, the arguments begin where the name cannot go on. -/
  apart : gap = [] → ∀ c ∈ args.head?, isNameChar c = false
  eq : cs = enclosed (before ++ (name ++ (gap ++ (args ++ after))))

/-- The call that the parts make up. -/
def Parts.call {cs : List Char} (p : Parts cs) : Call :=
  ⟨String.ofList p.name, String.ofList p.args⟩

/-- The name of the parts cannot go on. -/
theorem Parts.tail_apart {cs : List Char} (p : Parts cs) :
    ∀ c ∈ (p.gap ++ (p.args ++ p.after)).head?, isNameChar c = false := by
  rw [List.head?_append, List.head?_append]
  cases hgap : p.gap with
  | cons c gap =>
    exact fun _ hd => Option.mem_some.mp hd ▸ isNameChar_of_isBlank (p.gap_blank c (by simp [hgap]))
  | nil =>
    cases hargs : p.args with
    | cons c args => exact fun _ hd => Option.mem_some.mp hd ▸ p.apart hgap c (by simp [hargs])
    | nil => exact fun c hc => isNameChar_of_isBlank (p.after_blank c (List.mem_of_mem_head? hc))

theorem Parts.trim_tail {cs : List Char} (p : Parts cs) :
    Text.trim (p.gap ++ (p.args ++ p.after)) = p.args :=
  Text.trim_append_append p.gap_blank p.args_trimmed p.after_blank

/-- What is cut into the parts of a call is that call. -/
theorem Parts.ofInner?_eq {cs : List Char} (p : Parts cs) :
    (inner? cs).bind ofInner? = some p.call := by
  rw [(congrArg inner? p.eq).trans (inner?_enclosed _), Option.bind_some,
    ofInner?_append p.before_blank p.isName p.tail_apart, p.trim_tail, if_neg p.args_oneLine]
  rfl

/-- What is a call can be cut into its parts. -/
theorem exists_parts {cs : List Char} {call : Call} (h : (inner? cs).bind ofInner? = some call) :
    ∃ p : Parts cs, p.call = call := by
  obtain ⟨body, hbody, hcall⟩ := Option.bind_eq_some_iff.mp h
  obtain ⟨before, name, tail, hbefore, hname, htail, rfl⟩ := exists_of_ofInner? hcall
  rw [ofInner?_append hbefore hname htail] at hcall
  obtain ⟨gap, after, hgap, hafter, htrim, htrimmed⟩ := Text.exists_eq_trim tail
  split at hcall
  · nomatch hcall
  · next hline =>
    refine ⟨⟨before, name, gap, Text.trim tail, after, hbefore, hname, hgap, htrimmed, hline,
      hafter, ?_, ?_⟩, ?_⟩
    · rintro rfl c hc
      refine htail c ?_
      rw [htrim, List.nil_append]
      exact List.mem_head?_append_of_mem_head? hc
    · rw [← htrim]
      exact eq_enclosed hbody
    · exact Option.some_inj.mp hcall

end Laminate.Call
