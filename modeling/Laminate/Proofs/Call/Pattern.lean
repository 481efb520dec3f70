import Laminate.Proofs.Call.Grammar
import Mathlib.Data.List.Forall2

/-!
# Calls as a pattern

The grammar of calls as a pattern with repetitions that take as much or as little as they can. A
pattern matches a text in several ways, and the way that prefers each repetition in turn comes first
(`matchesOf`). All ways cut the text into pieces that fit the steps of the pattern
(`mem_matchesOf`). Of a call the first way finds the parts (`Parts.ofPieces?_head?`), and what is no
call has no way at all (`exists_call_of_mem_matchesOf`).
-/

namespace Laminate.Call

/-! ## Matching -/

/-- A step of a pattern: one character of a class, or a repetition that takes as many or as few of
them as it can. -/
inductive Step
  | one (p : Char → Bool)
  | many (p : Char → Bool)
  | few (p : Char → Bool)

/-- The ways to take characters of a class from the front, the shortest one first. -/
def splits (p : Char → Bool) : List Char → List (List Char × List Char)
  | [] => [([], [])]
  | c :: cs => ([], c :: cs) ::
    if p c then (splits p cs).map fun way => (c :: way.1, way.2) else []

/-- The ways to take a step, the preferred one first: what is taken, and what is left. -/
def Step.ways : Step → List Char → List (List Char × List Char)
  | .one _, [] => []
  | .one p, c :: cs => if p c then [([c], cs)] else []
  | .many p, cs => (splits p cs).reverse
  | .few p, cs => splits p cs

/-- The ways in which a pattern matches a whole text, the preferred one first: what each step
takes. -/
def matchesOf : List Step → List Char → List (List (List Char))
  | [], cs => if cs = [] then [[]] else []
  | s :: steps, cs => (s.ways cs).flatMap fun way => (matchesOf steps way.2).map (way.1 :: ·)

/-- Whether a step may take a piece of text. -/
def Step.Fits : Step → List Char → Prop
  | .one p, piece => ∃ c, piece = [c] ∧ p c = true
  | .many p, piece => ∀ c ∈ piece, p c = true
  | .few p, piece => ∀ c ∈ piece, p c = true

theorem mem_splits_cons {p : Char → Bool} {d : Char} {cs : List Char}
    {way : List Char × List Char} : way ∈ splits p (d :: cs) ↔
      way = ([], d :: cs) ∨ p d = true ∧ ∃ w ∈ splits p cs, (d :: w.1, w.2) = way := by
  rw [splits, List.mem_cons]
  split <;> simp_all

theorem mem_splits {p : Char → Bool} {cs : List Char} {way : List Char × List Char} :
    way ∈ splits p cs ↔ cs = way.1 ++ way.2 ∧ ∀ c ∈ way.1, p c = true := by
  obtain ⟨piece, rest⟩ := way
  induction cs generalizing piece with
  | nil =>
    simp only [splits, List.mem_singleton, Prod.mk.injEq, List.nil_eq, List.append_eq_nil_iff]
    exact ⟨fun h => ⟨h, by simp [h.1]⟩, fun h => h.1⟩
  | cons d cs ih =>
    rw [mem_splits_cons]
    constructor
    · rintro (h | ⟨hd, ⟨piece', rest'⟩, hway, h⟩)
      · cases h
        exact ⟨rfl, fun _ hc => nomatch hc⟩
      · cases h
        obtain ⟨rfl, hfits⟩ := (ih piece').mp hway
        exact ⟨rfl, List.forall_mem_cons.mpr ⟨hd, hfits⟩⟩
    · rintro ⟨heq, hfits⟩
      cases piece with
      | nil => exact .inl (congrArg _ heq.symm)
      | cons c piece =>
        obtain ⟨rfl, rfl⟩ := List.cons.inj heq
        obtain ⟨hd, hfits⟩ := List.forall_mem_cons.mp hfits
        exact .inr ⟨hd, _, (ih piece).mpr ⟨rfl, hfits⟩, rfl⟩

theorem Step.mem_ways {s : Step} {cs : List Char} {way : List Char × List Char} :
    way ∈ s.ways cs ↔ cs = way.1 ++ way.2 ∧ s.Fits way.1 := by
  cases s with
  | many p => exact List.mem_reverse.trans mem_splits
  | few p => exact mem_splits
  | one p =>
    obtain ⟨piece, rest⟩ := way
    constructor
    · cases cs with
      | nil => exact fun h => nomatch h
      | cons c cs =>
        rw [ways]
        split
        · next hc =>
          intro h
          cases List.mem_singleton.mp h
          exact ⟨rfl, c, rfl, hc⟩
        · exact fun h => nomatch h
    · rintro ⟨rfl, c, rfl, hc⟩
      simp [ways, hc]

/-- The ways of a match are the ways to cut the text into pieces that fit. -/
theorem mem_matchesOf {steps : List Step} {cs : List Char} {pieces : List (List Char)} :
    pieces ∈ matchesOf steps cs ↔ List.Forall₂ Step.Fits steps pieces ∧ cs = pieces.flatten := by
  induction steps generalizing cs pieces with
  | nil =>
    rw [matchesOf, List.forall₂_nil_left_iff]
    split
    · next h =>
      rw [List.mem_singleton, h]
      exact ⟨fun hpieces => ⟨hpieces, by rw [hpieces]; rfl⟩, fun hpieces => hpieces.1⟩
    · next h =>
      refine ⟨fun hmem => absurd hmem List.not_mem_nil, ?_⟩
      rintro ⟨rfl, hcs⟩
      exact absurd hcs h
  | cons s steps ih =>
    simp only [matchesOf, List.mem_flatMap, List.mem_map, Step.mem_ways, ih]
    constructor
    · rintro ⟨⟨piece, rest⟩, ⟨rfl, hfits⟩, others, ⟨hothers, rfl⟩, rfl⟩
      exact ⟨.cons hfits hothers, rfl⟩
    · rintro ⟨hfits, rfl⟩
      cases hfits with
      | cons hpiece hothers => exact ⟨(_, _), ⟨rfl, hpiece⟩, _, ⟨hothers, rfl⟩, rfl⟩

/-! ## The preferred way -/

/-- The preferred way goes on from the first way to take a step from which a match can go on. -/
theorem head?_matchesOf {s : Step} {steps : List Step} {cs : List Char}
    {earlier later : List (List Char × List Char)} {way : List Char × List Char}
    {others : List (List Char)} (hways : s.ways cs = earlier ++ way :: later)
    (hearlier : ∀ w ∈ earlier, matchesOf steps w.2 = [])
    (hothers : (matchesOf steps way.2).head? = some others) :
    (matchesOf (s :: steps) cs).head? = some (way.1 :: others) := by
  have hnil : (earlier.flatMap fun w => (matchesOf steps w.2).map (w.1 :: ·)) = [] :=
    List.flatMap_eq_nil_iff.mpr fun w hw => by rw [hearlier w hw]; rfl
  rw [matchesOf, hways, List.flatMap_append, hnil, List.nil_append, List.flatMap_cons,
    List.head?_append, List.head?_map, hothers]
  rfl

theorem head?_matchesOf_one {p : Char → Bool} {steps : List Step} {c : Char} {cs : List Char}
    {others : List (List Char)} (hc : p c = true)
    (hothers : (matchesOf steps cs).head? = some others) :
    (matchesOf (.one p :: steps) (c :: cs)).head? = some ([c] :: others) := by
  have hways : (Step.one p).ways (c :: cs) = [] ++ ([c], cs) :: [] := by simp [Step.ways, hc]
  exact head?_matchesOf hways (fun _ h => nomatch h) hothers

/-- The ways to take less than a piece come before the ways to take the piece or more. -/
theorem splits_append {p : Char → Bool} {piece : List Char} (hpiece : ∀ c ∈ piece, p c = true)
    (rest : List Char) : ∃ shorter,
      splits p (piece ++ rest)
        = shorter ++ (splits p rest).map (fun way => (piece ++ way.1, way.2)) ∧
      ∀ way ∈ shorter, ∃ front back, back ≠ [] ∧ piece = front ++ back ∧ way.2 = back ++ rest := by
  induction piece with
  | nil => exact ⟨[], by simp, fun _ h => nomatch h⟩
  | cons c piece ih =>
    obtain ⟨hc, hpiece⟩ := List.forall_mem_cons.mp hpiece
    obtain ⟨shorter, heq, hshorter⟩ := ih hpiece
    refine ⟨([], c :: (piece ++ rest)) :: shorter.map fun way => (c :: way.1, way.2), ?_, ?_⟩
    · rw [List.cons_append, splits, if_pos hc, heq]
      simp
    · refine List.forall_mem_cons.mpr ⟨⟨[], c :: piece, by simp, rfl, rfl⟩, ?_⟩
      rintro _ hway
      obtain ⟨way, hmem, rfl⟩ := List.mem_map.mp hway
      obtain ⟨front, back, hback, rfl, hrest⟩ := hshorter way hmem
      exact ⟨c :: front, back, hback, rfl, hrest⟩

/-- A repetition that takes as much as it can takes all there is. -/
theorem head?_matchesOf_many {p : Char → Bool} {steps : List Step} {piece rest : List Char}
    {others : List (List Char)} (hpiece : ∀ c ∈ piece, p c = true)
    (hrest : ∀ c ∈ rest.head?, p c = false)
    (hothers : (matchesOf steps rest).head? = some others) :
    (matchesOf (.many p :: steps) (piece ++ rest)).head? = some (piece :: others) := by
  obtain ⟨shorter, heq, -⟩ := splits_append hpiece rest
  have hsplits : splits p rest = [([], rest)] := by
    cases rest with
    | nil => rfl
    | cons c rest => simp [splits, hrest c rfl]
  have hways : (Step.many p).ways (piece ++ rest) = [] ++ (piece, rest) :: shorter.reverse := by
    rw [Step.ways, heq, hsplits]
    simp
  exact head?_matchesOf hways (fun _ h => nomatch h) hothers

/-- A repetition that takes as little as it can takes no more than is needed for the rest. -/
theorem head?_matchesOf_few {p : Char → Bool} {steps : List Step} {piece rest : List Char}
    {others : List (List Char)} (hpiece : ∀ c ∈ piece, p c = true)
    (hshorter : ∀ front back, back ≠ [] → piece = front ++ back →
      matchesOf steps (back ++ rest) = [])
    (hothers : (matchesOf steps rest).head? = some others) :
    (matchesOf (.few p :: steps) (piece ++ rest)).head? = some (piece :: others) := by
  obtain ⟨shorter, heq, hback⟩ := splits_append hpiece rest
  obtain ⟨longer, hsplits⟩ : ∃ longer, splits p rest = ([], rest) :: longer := by
    cases rest with
    | nil => exact ⟨[], rfl⟩
    | cons c rest => exact ⟨_, rfl⟩
  have hways : (Step.few p).ways (piece ++ rest)
      = shorter ++ (piece, rest) :: longer.map fun way => (piece ++ way.1, way.2) := by
    rw [Step.ways, heq, hsplits, List.map_cons, List.append_nil]
  refine head?_matchesOf hways (fun way hway => ?_) hothers
  obtain ⟨front, back, hne, hsplit, hrest⟩ := hback way hway
  rw [hrest]
  exact hshorter front back hne hsplit

/-! ## The pattern of calls -/

/-- The pattern of calls: double parentheses, blanks, a name, blanks, arguments without a line
break, blanks, and double parentheses again. -/
def pattern : List Step :=
  [.one (· == '('), .one (· == '('), .many Text.isBlank, .one isNameStart, .many isNameChar,
    .many Text.isBlank, .few (· != '\n'), .many Text.isBlank, .one (· == ')'), .one (· == ')')]

/-- The call in the pieces that the steps of the pattern take. -/
def ofPieces? : List (List Char) → Option Call
  | [_, _, _, start, others, _, args, _, _, _] =>
    some ⟨String.ofList (start ++ others), String.ofList args⟩
  | _ => none

/-- Blanks in front of the closing parentheses, and nothing else. -/
theorem allBlank_of_matches {cs : List Char} {pieces : List (List Char)}
    (h : pieces ∈ matchesOf [.many Text.isBlank, .one (· == ')'), .one (· == ')')]
      (cs ++ [')', ')'])) : Text.AllBlank cs := by
  obtain ⟨hfits, heq⟩ := mem_matchesOf.mp h
  obtain _ | ⟨hblank, hfits⟩ := hfits
  obtain _ | ⟨⟨c, rfl, hc⟩, hfits⟩ := hfits
  obtain _ | ⟨⟨d, rfl, hd⟩, hfits⟩ := hfits
  cases hfits
  cases eq_of_beq hc
  cases eq_of_beq hd
  have : cs = _ := List.append_cancel_right heq
  exact this ▸ hblank

/-- What the end of the pattern takes: the arguments up to their last character, which is no blank,
and the blanks behind them. -/
theorem head?_matchesOf_args {args after : List Char} (hargs : Text.Trimmed args)
    (hline : '\n' ∉ args) (hafter : Text.AllBlank after) :
    (matchesOf [.few (· != '\n'), .many Text.isBlank, .one (· == ')'), .one (· == ')')]
      (args ++ (after ++ [')', ')']))).head? = some [args, after, [')'], [')']] := by
  refine head?_matchesOf_few (fun c hc => bne_iff_ne.mpr fun h => hline (h ▸ hc)) ?_
    (head?_matchesOf_many hafter (fun c hc => by cases hc; rfl) rfl)
  intro front back hne hsplit
  refine List.eq_nil_iff_forall_not_mem.mpr fun pieces hpieces => ?_
  rw [← List.append_assoc] at hpieces
  have hblank := allBlank_of_matches hpieces (back.getLast hne)
    (List.mem_append_left _ (List.getLast_mem hne))
  have hlast := hargs.last (back.getLast hne) (by
    rw [hsplit, List.getLast?_append_of_ne_nil _ hne, List.getLast?_eq_some_getLast hne]
    rfl)
  rw [hlast] at hblank
  nomatch hblank

/-- Blanks go to the gap where there are no arguments. -/
theorem Parts.exists_packed {cs : List Char} (p : Parts cs) :
    ∃ q : Parts cs, q.call = p.call ∧ (q.args = [] → q.after = []) := by
  obtain ⟨before, name, gap, args, after, hbefore, hname, hgap, htrimmed, hline, hafter, hapart,
    heq⟩ := p
  cases args with
  | cons c args =>
    exact ⟨⟨before, name, gap, c :: args, after, hbefore, hname, hgap, htrimmed, hline, hafter,
      hapart, heq⟩, rfl, fun h => nomatch h⟩
  | nil =>
    refine ⟨⟨before, name, gap ++ after, [], [], hbefore, hname, hgap.append hafter, htrimmed,
      hline, .nil, fun _ _ hc => (nomatch hc), ?_⟩, rfl, fun _ => rfl⟩
    rw [List.nil_append, List.append_nil]
    exact heq

/-- The preferred match of a call takes its parts. -/
theorem Parts.ofPieces?_head? {cs : List Char} (p : Parts cs)
    (hpacked : p.args = [] → p.after = []) :
    (matchesOf pattern cs).head?.bind ofPieces? = some p.call := by
  have htail := p.tail_apart
  obtain ⟨before, name, gap, args, after, hbefore, hname, hgap, htrimmed, hline, hafter, _, rfl⟩ :=
    p
  change args = [] → after = [] at hpacked
  change ∀ d ∈ (gap ++ (args ++ after)).head?, isNameChar d = false at htail
  obtain @⟨c, rest, start, others⟩ := hname
  have hargs : ∀ d ∈ (args ++ (after ++ [')', ')'])).head?, Text.isBlank d = false := by
    cases args with
    | cons d args => exact htrimmed.head
    | nil =>
      rw [hpacked rfl]
      exact fun d hd => by cases hd; rfl
  have hgapNext : ∀ d ∈ (gap ++ (args ++ (after ++ [')', ')']))).head?, isNameChar d = false := by
    rw [← List.append_assoc, ← List.append_assoc, List.append_assoc gap]
    by_cases hnil : gap ++ (args ++ after) = []
    · rw [hnil]
      exact fun d hd => by cases hd; rfl
    · rwa [List.head?_append_of_ne_nil _ hnil]
  have hmatch : (matchesOf pattern
      ('(' :: '(' :: (before ++ c :: (rest ++ (gap ++ (args ++ (after ++ [')', ')']))))))).head?
        = some [['('], ['('], before, [c], rest, gap, args, after, [')'], [')']] :=
    head?_matchesOf_one rfl <| head?_matchesOf_one rfl <|
      head?_matchesOf_many hbefore (fun d hd => by cases hd; exact isBlank_of_isNameStart start) <|
      head?_matchesOf_one start <| head?_matchesOf_many others hgapNext <|
      head?_matchesOf_many hgap hargs <| head?_matchesOf_args htrimmed hline hafter
  simp only [enclosed, List.append_assoc, List.cons_append, hmatch, Option.bind_some]
  rfl

/-! ## No match of what is no call -/

/-- Behind a name that goes on as far as it can there are still blanks, some of the characters that
stood between the blanks, and the other blanks. -/
theorem exists_dropWhile_eq {gap after : List Char} (hgap : Text.AllBlank gap)
    (hafter : Text.AllBlank after) (args : List Char) :
    ∃ gap' args', Text.AllBlank gap' ∧ args' ⊆ args ∧
      (gap ++ (args ++ after)).dropWhile isNameChar = gap' ++ (args' ++ after) := by
  cases gap with
  | cons c gap =>
    refine ⟨c :: gap, args, hgap, List.Subset.refl _, ?_⟩
    simp [isNameChar_of_isBlank (hgap c List.mem_cons_self)]
  | nil =>
    refine ⟨[], args.dropWhile isNameChar, .nil, (List.dropWhile_suffix _).subset, ?_⟩
    have hdrop : after.dropWhile isNameChar = after := by
      cases after with
      | nil => rfl
      | cons c after => simp [isNameChar_of_isBlank (hafter c List.mem_cons_self)]
    rw [List.nil_append, List.nil_append, List.dropWhile_append, hdrop]
    split <;> simp_all

/-- What the pattern matches is a call. -/
theorem exists_call_of_mem_matchesOf {cs : List Char} {pieces : List (List Char)}
    (h : pieces ∈ matchesOf pattern cs) : ∃ call, (inner? cs).bind ofInner? = some call := by
  obtain ⟨hfits, rfl⟩ := mem_matchesOf.mp h
  obtain _ | ⟨⟨_, rfl, hopen⟩, hfits⟩ := hfits
  obtain _ | ⟨⟨_, rfl, hopen'⟩, hfits⟩ := hfits
  obtain _ | @⟨_, before, _, _, hbefore, hfits⟩ := hfits
  obtain _ | ⟨⟨c, rfl, hstart⟩, hfits⟩ := hfits
  obtain _ | @⟨_, rest, _, _, hrest, hfits⟩ := hfits
  obtain _ | @⟨_, gap, _, _, hgap, hfits⟩ := hfits
  obtain _ | @⟨_, args, _, _, hargs, hfits⟩ := hfits
  obtain _ | @⟨_, after, _, _, hafter, hfits⟩ := hfits
  obtain _ | ⟨⟨_, rfl, hclose⟩, hfits⟩ := hfits
  obtain _ | ⟨⟨_, rfl, hclose'⟩, hfits⟩ := hfits
  cases hfits
  cases eq_of_beq hopen
  cases eq_of_beq hopen'
  cases eq_of_beq hclose
  cases eq_of_beq hclose'
  obtain ⟨gap', args', hgap', hargs', htail⟩ := exists_dropWhile_eq hgap hafter args
  -- the name of the match may stop before the name of the call does
  obtain ⟨more, hmore⟩ : ∃ more, more = (gap ++ (args ++ after)).takeWhile isNameChar := ⟨_, rfl⟩
  have hbody : (['('] :: ['('] :: before :: [c] :: rest :: gap :: args :: after
        :: [[')'], [')']]).flatten
      = enclosed (before ++ (c :: (rest ++ more) ++ (gap' ++ (args' ++ after)))) := by
    rw [← htail, hmore, List.cons_append, List.append_assoc rest, List.takeWhile_append_dropWhile]
    simp [enclosed]
  have hname : IsName (c :: (rest ++ more)) :=
    .mk hstart fun d hd => (List.mem_append.mp hd).elim (hrest d) fun hd =>
      List.mem_takeWhile_imp (hmore ▸ hd)
  have hapart : ∀ d ∈ (gap' ++ (args' ++ after)).head?, isNameChar d = false := by
    intro d hd
    have := List.head?_dropWhile_not isNameChar (gap ++ (args ++ after))
    rwa [htail, Option.mem_def.mp hd] at this
  have hline : '\n' ∉ Text.trim (gap' ++ (args' ++ after)) := by
    rw [Text.trim_append_blanks hgap' hafter]
    intro hmem
    exact bne_iff_ne.mp (hargs _ (hargs' (Text.mem_of_mem_trim hmem))) rfl
  rw [hbody, inner?_enclosed, Option.bind_some, ofInner?_append hbefore hname hapart, if_neg hline]
  exact ⟨_, rfl⟩

/-- **A text is a call exactly if it can be cut into the parts of one, there is one call that it can
be cut into, and the preferred match of the pattern takes its name and arguments.** -/
theorem parse?_by_parts (text : String) :
    (∀ call, parse? text = some call ↔ ∃ p : Parts (Text.trim text.toList), p.call = call) ∧
      (∀ p q : Parts (Text.trim text.toList), p.call = q.call) ∧
      parse? text = (matchesOf pattern (Text.trim text.toList)).head?.bind ofPieces? := by
  refine ⟨fun call => ⟨exists_parts, ?_⟩, fun p q => ?_, ?_⟩
  · rintro ⟨p, rfl⟩
    exact p.ofInner?_eq
  · exact Option.some_inj.mp (p.ofInner?_eq.symm.trans q.ofInner?_eq)
  · cases hparse : parse? text with
    | some call =>
      obtain ⟨p, rfl⟩ := exists_parts hparse
      obtain ⟨q, hcall, hpacked⟩ := p.exists_packed
      rw [q.ofPieces?_head? hpacked, hcall]
    | none =>
      have hnil : matchesOf pattern (Text.trim text.toList) = [] := by
        refine List.eq_nil_iff_forall_not_mem.mpr fun pieces hpieces => ?_
        obtain ⟨call, hcall⟩ := exists_call_of_mem_matchesOf hpieces
        rw [parse?, hcall] at hparse
        nomatch hparse
      rw [hnil]
      rfl

/-- Parentheses in the arguments, and a line break in front of them. -/
example : parse? " ((grab\n (a)) ))" = some ⟨"grab", "(a))"⟩ := by decide

end Laminate.Call
