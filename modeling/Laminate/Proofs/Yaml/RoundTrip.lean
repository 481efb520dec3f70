import Laminate.Proofs.Yaml.Presentation
import Laminate.Yaml.Reader
import Laminate.Yaml.Writer
import Mathlib.Data.List.TakeWhile
import Mathlib.Data.Set.Insert

/-!
# What is written is read back

Of a codec it is relied on that it writes values, and that a scan of what it writes for one, with or
without what opens the document, delivers the events of the value (`Codec.Faithful`). The writer
takes away nothing but what opens the document (`exists_opens_append_body`), and the events of the
value of a tree make up the tree, so what is written through such a codec is read back
(`Codec.read_write`).
-/

namespace Laminate.Yaml

/-! ## What opens a document -/

/-- What may open a document: its mark, with a line break behind it or without, or no mark; and then
spaces. -/
def Opens (lead : String) : Prop :=
  ∃ mark ∈ ["---\n", "---", ""], ∃ spaces, lead = mark ++ String.ofList (.replicate spaces ' ')

theorem afterStart?_eq_some {start text rest : List Char} (h : afterStart? start text = some rest) :
    start ++ rest = text := by
  unfold afterStart? at h
  split at h
  · next hstart =>
    cases h
    exact List.prefix_iff_eq_append.mp (List.isPrefixOf_iff_prefix.mp hstart)
  · cases h

/-- At most a mark is taken away. -/
theorem exists_mark_append_afterMark (text : List Char) :
    ∃ mark ∈ ["---\n", "---", ""], mark.toList ++ afterMark text = text := by
  unfold afterMark
  cases hline : afterStart? ['-', '-', '-', '\n'] text with
  | some rest => exact ⟨"---\n", by simp, afterStart?_eq_some hline⟩
  | none =>
    cases hmark : afterStart? ['-', '-', '-'] text with
    | some rest => exact ⟨"---", by simp, afterStart?_eq_some hmark⟩
    | none => exact ⟨"", by simp, rfl⟩

/-- Nothing but what opens the document is taken away. -/
theorem exists_opens_append_body (text : String) :
    ∃ lead, Opens lead ∧ lead ++ body text = text := by
  obtain ⟨mark, hmark, hrest⟩ := exists_mark_append_afterMark text.toList
  let spaces := (afterMark text.toList).takeWhile (· == ' ')
  have hspaces : spaces = .replicate spaces.length ' ' :=
    List.eq_replicate_of_mem fun c hc => by simpa using List.mem_takeWhile_imp hc
  refine ⟨mark ++ String.ofList spaces, ⟨mark, hmark, spaces.length, by rw [← hspaces]⟩, ?_⟩
  rw [← String.toList_inj, body, String.toList_append, String.toList_append, String.toList_ofList,
    String.toList_ofList, List.append_assoc, List.takeWhile_append_dropWhile, hrest]

/-- Of a mark on a line of its own three parts can be left out: all of it, the mark without its line
break, and none. -/
theorem eq_of_opens_append {lead text rest : String} (hlead : Opens lead)
    (hrest : rest.toList.head? ≠ some ' ') (h : lead ++ text = "---\n" ++ rest) :
    text ∈ [rest, "\n" ++ rest, "---\n" ++ rest] := by
  obtain ⟨mark, hmark, spaces, rfl⟩ := hlead
  have hlist : mark.toList ++ (List.replicate spaces ' ' ++ text.toList)
      = "---\n".toList ++ rest.toList := by
    simpa using congrArg String.toList h
  simp only [List.mem_cons, List.not_mem_nil, or_false, ← @String.toList_inj text] at hmark ⊢
  cases spaces with
  | zero =>
    rcases hmark with rfl | rfl | rfl
    · exact .inl (by simpa using hlist)
    · exact .inr (.inl (by simpa using hlist))
    · exact .inr (.inr (by simpa using hlist))
  | succ spaces =>
    -- a space would stand where the mark goes on or the rest begins
    rw [List.replicate_succ] at hlist
    rcases hmark with rfl | rfl | rfl
    · have hspace : ' ' :: (List.replicate spaces ' ' ++ text.toList) = rest.toList := by
        simpa using hlist
      exact absurd (by rw [← hspace]; rfl) hrest
    · simp at hlist
    · simp at hlist

/-! ## Round trip -/

namespace Codec

/-- Whether a scan of a text delivers the events of a value as its first document. -/
def Delivers (codec : Codec) (text : String) (v : Value) : Prop :=
  ∃ events placed, Presents v events ∧ codec.load text false = .ok placed ∧
    placed.map PlacedEvent.event = .documentStart :: (events ++ [.documentEnd])

/-- What is relied on of a codec for some values. -/
structure Faithful (codec : Codec) (values : Set Value) : Prop where
  written : ∀ v ∈ values, ∃ text, codec.dump v = .ok text
  /-- A scan of what is written for a value delivers its events, with or without what opens the
  document. -/
  delivered : ∀ v ∈ values, ∀ lead text, Opens lead → codec.dump v = .ok (lead ++ text) →
    codec.Delivers (text ++ "\n") v

variable {codec : Codec}

/-- Where the places of the events do not matter, a scan can be told by its result without them. -/
theorem delivers_of_toOption {text : String} {v : Value} {events : List Event}
    (hpresents : Presents v events)
    (hload : (codec.load text false).toOption.map (·.map PlacedEvent.event)
      = some (.documentStart :: (events ++ [.documentEnd]))) : codec.Delivers text v := by
  obtain ⟨placed, hplaced, hevents⟩ := Option.map_eq_some_iff.mp hload
  refine ⟨events, placed, hpresents, ?_, hevents⟩
  cases hresult : codec.load text false with
  | error cause =>
    rw [hresult] at hplaced
    cases hplaced
  | ok _ =>
    rw [hresult] at hplaced
    cases hplaced
    rfl

/-- A text that delivers the events of a well-formed tree is read as that tree. -/
theorem read_of_delivers {text : String} {tree : Node} (hwf : tree.WellFormed)
    (hfloats : FloatsReadable tree) (h : codec.Delivers text (.ofNode tree)) :
    codec.read text = .ok tree := by
  obtain ⟨events, placed, hpresents, hload, hevents⟩ := h
  have hdocuments : Composition.documentsOf placed = .ok [tree] :=
    documentsOf_of_presents hwf hfloats hpresents hevents
  have hcompose : compose (codec.load text false) = .ok [tree] := by
    rw [hload]
    exact congrArg (Except.mapError Refusal.misfit) hdocuments
  rw [read, hcompose]

/-- **What is written is read back.** If a codec writes values and a scan of what it writes delivers
their events, each string quoted or with a plain text that is read as a string, then reading what is
written for a tree gives the tree: the same keys in the same order, and scalars of the same types
and texts. -/
theorem read_write {values : Set Value} (hcodec : codec.Faithful values) {tree : Node}
    (htree : .ofNode tree ∈ values) (hwf : tree.WellFormed) (hfloats : FloatsReadable tree) :
    codec.write tree >>= codec.read = .ok tree := by
  obtain ⟨text, hdump⟩ := hcodec.written _ htree
  obtain ⟨lead, hlead, hbody⟩ := exists_opens_append_body text
  have hwrite : codec.write tree = .ok (body text ++ "\n") := by rw [write, hdump]
  have hdelivers : codec.Delivers (body text ++ "\n") (.ofNode tree) :=
    hcodec.delivered _ htree lead _ hlead (hbody.symm ▸ hdump)
  rw [hwrite]
  exact read_of_delivers hwf hfloats hdelivers

end Codec

/-- Strings and a key that look like other scalars, beside such scalars. -/
def lookalikes : Node :=
  .mapping [("text", .string "42"), ("number", .integer 42), ("call", .string "(( grab text ))"),
    ("2", .sequence [.scalar (.float "1.50"), .null, .boolean true,
      .mapping [("yes", .string "-1e3")]])]

/-- The lines of `lookalikes`. -/
def lookalikesText : String :=
  "text: \"42\"\nnumber: 42\ncall: (( grab text ))\n\"2\":\n  - 1.50\n  - ~\n  - true\n"
    ++ "  - \"yes\": \"-1e3\""

theorem read_write_lookalikes :
    Codec.standard.Faithful {.ofNode lookalikes} ∧ lookalikes.WellFormed ∧
      FloatsReadable lookalikes ∧
      Codec.standard.write lookalikes = .ok (lookalikesText ++ "\n") ∧
      Codec.standard.write lookalikes >>= Codec.standard.read = .ok lookalikes := by
  have hdump : Codec.standard.dump (.ofNode lookalikes) = .ok ("---\n" ++ lookalikesText) := by
    decide +kernel
  have hcodec : Codec.standard.Faithful {.ofNode lookalikes} := by
    refine ⟨fun v hv => hv ▸ ⟨_, hdump⟩, fun v hv lead text hlead hlead_text => ?_⟩
    obtain rfl : v = .ofNode lookalikes := hv
    refine Codec.delivers_of_toOption (Value.presents_events _) ?_
    have htext := eq_of_opens_append hlead (by decide +kernel)
      (Except.ok.inj (hlead_text.symm.trans hdump))
    simp only [List.mem_cons, List.not_mem_nil, or_false] at htext
    rcases htext with rfl | rfl | rfl <;> decide +kernel
  have hwf : lookalikes.WellFormed := by decide
  have hfloats : FloatsReadable lookalikes := by
    have hfloat : (Scalar.float "1.50").Readable := ⟨by decide, by decide⟩
    refine .mapping (List.forall_mem_cons.mpr ⟨.scalar trivial, List.forall_mem_cons.mpr
      ⟨.scalar trivial, List.forall_mem_cons.mpr ⟨.scalar trivial,
        List.forall_mem_singleton.mpr (.sequence ?_)⟩⟩⟩)
    exact List.forall_mem_cons.mpr ⟨.scalar hfloat, List.forall_mem_cons.mpr
      ⟨.scalar trivial, List.forall_mem_cons.mpr ⟨.scalar trivial, List.forall_mem_singleton.mpr
        (.mapping (List.forall_mem_singleton.mpr (.scalar trivial)))⟩⟩⟩
  exact ⟨hcodec, hwf, hfloats, by decide +kernel, Codec.read_write hcodec rfl hwf hfloats⟩

end Laminate.Yaml
