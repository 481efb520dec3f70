import Laminate.Proofs.Walk.CallSites

/-!
# The calls of a tree

Collecting the call sites of a tree finds every text that is a call, once and in document order, and
nothing else (`collect_lists_calls`). The places that a walk builds on its way are canonical: they
lead back to what was found there. Since a call is a text and nothing is below a text, no call site
contains another.
-/

namespace Laminate

namespace CallSite

/-- A list of the calls of a tree: the sites are where a text stands that reads as a call, with that
call; all of them, each once and in document order; each cursor is canonical and leads to the text;
and none leads below another. -/
structure ListsCalls (tree : Node) (sites : List CallSite) : Prop where
  mem_iff : ∀ (c : Cursor) (call : Call),
    (∃ site ∈ sites, site.place.cursor = c ∧ site.call = call) ↔
      ∃ text, tree.At c.components (.string text) ∧ Call.parse? text = some call
  nodup : (sites.map fun site => site.place.cursor).Nodup
  in_order : sites.Pairwise fun a b =>
    tree.Before a.place.cursor.components b.place.cursor.components
  canonical : ∀ site ∈ sites, site.place.cursor.canonical tree = .ok site.place.cursor
  resolve : ∀ site ∈ sites, ∃ text, site.place.cursor.resolve tree = .ok (.string text) ∧
    Call.parse? text = some site.call
  apart : ∀ a ∈ sites, ∀ b ∈ sites, a.place.cursor.under b.place.cursor = false

open Node

theorem listsCalls_callSites {tree : Node} (hwf : tree.WellFormed) :
    ListsCalls tree tree.callSites := by
  refine ⟨fun c call => ⟨?_, ?_⟩, nodup_callSites hwf, pairwise_callSites hwf,
    fun site hsite => ?_, fun site hsite => ?_, fun a ha b hb => ?_⟩
  · rintro ⟨site, hsite, rfl, rfl⟩
    exact at_of_mem_callSites hwf hsite
  · rintro ⟨text, hat, hparse⟩
    obtain ⟨site, hsite, hcall, hcursor⟩ := exists_callSite hat hparse
    exact ⟨site, hsite, hcursor, hcall⟩
  · obtain ⟨text, hat, -⟩ := at_of_mem_callSites hwf hsite
    exact Cursor.canonical_eq_ok_iff.mpr hat.canonical
  · obtain ⟨text, hat, hparse⟩ := at_of_mem_callSites hwf hsite
    exact ⟨text, hat.resolve, hparse⟩
  · obtain ⟨text, hat, -⟩ := at_of_mem_callSites hwf ha
    obtain ⟨text', hat', -⟩ := at_of_mem_callSites hwf hb
    refine Bool.eq_false_iff.mpr fun hunder => ?_
    -- a path that goes on below a text leads nowhere
    have hwithin : a.place.cursor.within b.place.cursor = true := by
      rw [Cursor.within, hunder, Bool.or_true]
    have heq := hat'.eq_of_beginning_scalar hat (Cursor.within_iff.mp hwithin)
    have hlt : b.place.cursor.depth < a.place.cursor.depth := by
      simp only [Cursor.under, Bool.and_eq_true, decide_eq_true_eq] at hunder
      exact hunder.1
    rw [Cursor.depth, Cursor.depth, heq] at hlt
    exact Nat.lt_irrefl _ hlt

/-- **Walking a tree to collect its calls succeeds with any budget but zero, leaves the tree as it
is and lists its calls.** -/
theorem collect_lists_calls {tree : Node} (hwf : tree.WellFormed) {budget : Nat}
    (hbudget : 0 < budget) :
    (tree.walk Visitor.ignoreAll budget).value = tree ∧
      ∃ sites, collect tree budget = .ok sites ∧ ListsCalls tree sites := by
  obtain ⟨budget, rfl⟩ := Nat.exists_eq_add_one.mpr hbudget
  have hwalk : tree.walk Visitor.ignoreAll (budget + 1)
      = ⟨tree, (tree.visits .root).map Walk.Note.ofVisit⟩ := Walk.walkNode_of_left fun _ _ => rfl
  exact ⟨congrArg Logged.value hwalk, _, collect_succ tree budget, listsCalls_callSites hwf⟩

/-- Calls under keys with a dot and without a text, in a list of named elements, and in a list of
its own; a text that only begins like a call. -/
def scatteredCalls : Node :=
  .mapping [("a.b", .string "(( grab x ))"), ("", .string "(( grab"),
    ("jobs", .sequence [.mapping [("name", .string "web"), ("ip", .string "(( static_ips 0 ))")],
      .string "((param))"])]

theorem collect_lists_scattered_calls :
    scatteredCalls.WellFormed ∧ ∃ sites, collect scatteredCalls 1 = .ok sites ∧
      ListsCalls scatteredCalls sites ∧
      sites.map (fun site => (site.place.cursor.components, site.call)) =
        [(["a.b"], ⟨"grab", "x"⟩), (["jobs", "0", "ip"], ⟨"static_ips", "0"⟩),
          (["jobs", "1"], ⟨"param", ""⟩)] := by
  have hwf : scatteredCalls.WellFormed := by decide
  obtain ⟨-, sites, hcollect, hlists⟩ := collect_lists_calls hwf (Nat.zero_lt_one)
  obtain rfl : scatteredCalls.callSites = sites := by
    rw [collect_succ] at hcollect
    exact Except.ok.inj hcollect
  exact ⟨hwf, _, hcollect, hlists, by decide +kernel⟩

end CallSite

end Laminate
