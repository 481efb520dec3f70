import Laminate.Proofs.Agreement

/-!
# Aggregates of aggregates

Faults are collected from what operations report, and what is reported may be a collection itself.
Adding a report unfolds it by one level: the members of a collection are taken over as they are.
That collections are never nested (`Faults`) is therefore no matter of one addition. Here reports
may nest to any depth (`Report`), and the same steps are taken on lists of them (`Aggregate`).

A `Building` is any way to build an aggregate, out of faults and of aggregates that are built
themselves. Each step takes flat aggregates to flat ones, and does to them what is done to
collections of faults (`aggregate_append`, `aggregate_extend`, `aggregate_ofFailure`). So an
aggregate holds the faults that it was built from, in the order in which they were added, and
nothing else (`built_aggregates_are_flat`). The order shows in no message, since lines are sorted.
-/

namespace Laminate

/-- What is reported: a fault, or an aggregate of reports. -/
inductive Report
  | fault (fault : Fault)
  | aggregate (reports : List Report)

namespace Report

/-- Whether a report is an aggregate. -/
def isAggregate : Report → Bool
  | fault _ => false
  | aggregate _ => true

mutual

/-- The message of a report. That of an aggregate has a line for each member, in byte order. -/
def message : Report → String
  | fault f => f.message
  | aggregate reports =>
    let lines := (lines reports).mergeSort fun a b => decide (a ≤ b)
    Numeral.text reports.length ++ " error(s) detected:\n" ++ String.join lines

/-- The lines of the members of an aggregate, in the order in which they were added. -/
def lines : List Report → List String
  | [] => []
  | r :: rs => (" - " ++ message r ++ "\n") :: lines rs

end

theorem lines_eq_map (reports : List Report) :
    lines reports = reports.map fun r => " - " ++ r.message ++ "\n" := by
  induction reports with
  | nil => rfl
  | cons r rs ih => rw [lines, ih, List.map_cons]

end Report

/-- Reports that are collected. -/
structure Aggregate where
  toList : List Report

namespace Aggregate

/-- Nothing reported. -/
def empty : Aggregate := ⟨[]⟩

/-- The number of members. -/
def count (as : Aggregate) : Nat :=
  as.toList.length

/-- Adds a report; of an aggregate the members are added, as they are. -/
def append (as : Aggregate) : Report → Aggregate
  | .fault f => ⟨as.toList ++ [.fault f]⟩
  | .aggregate reports => ⟨as.toList ++ reports⟩

/-- An aggregate inside an aggregate that is added stays what it is. -/
example (f : Fault) :
    (empty.append (.aggregate [.aggregate [.fault f]])).toList = [.aggregate [.fault f]] := rfl

/-- Adds the members of another aggregate. -/
def extend (as other : Aggregate) : Aggregate :=
  ⟨as.toList ++ other.toList⟩

/-- The aggregate of one report. -/
def ofReport (r : Report) : Aggregate :=
  empty.append r

/-- The report of an aggregate. -/
def report (as : Aggregate) : Report :=
  .aggregate as.toList

/-- The message of an aggregate. -/
def message (as : Aggregate) : String :=
  as.report.message

/-- The message of an aggregate does not depend on the order of its members, nested or not. -/
theorem message_eq_of_perm {as bs : Aggregate} (h : as.toList.Perm bs.toList) :
    as.message = bs.message := by
  have hlines : (Report.lines as.toList).Perm (Report.lines bs.toList) := by
    rw [Report.lines_eq_map, Report.lines_eq_map]
    exact h.map _
  simp only [message, report, Report.message, mergeSort_texts_eq_of_perm hlines, h.length_eq]

end Aggregate

/-! ## Flat aggregates -/

/-- A collection of faults as an aggregate. -/
def Faults.aggregate (fs : Faults) : Aggregate :=
  ⟨fs.toList.map Report.fault⟩

/-- A failure as a report. -/
def Failure.report : Failure → Report
  | .single f => .fault f
  | .several fs => fs.aggregate.report

namespace Faults

theorem isAggregate_eq_false {fs : Faults} {r : Report} (h : r ∈ fs.aggregate.toList) :
    r.isAggregate = false := by
  obtain ⟨f, -, rfl⟩ := List.mem_map.mp h
  rfl

theorem count_aggregate (fs : Faults) : fs.aggregate.count = fs.count :=
  List.length_map _

theorem message_aggregate (fs : Faults) : fs.aggregate.message = fs.message := by
  have hlines : Report.lines fs.aggregate.toList = fs.toList.map line := by
    rw [Report.lines_eq_map, aggregate, List.map_map]
    exact List.map_congr_left fun f _ => by simp only [Function.comp_apply, Report.message, line]
  have hcount : fs.aggregate.toList.length = fs.count := fs.count_aggregate
  simp only [Aggregate.message, Aggregate.report, Report.message, message, hlines, hcount]

/-- Adding a flat report leaves a flat aggregate flat. -/
theorem aggregate_append (fs : Faults) (failure : Failure) :
    (fs.append failure).aggregate = fs.aggregate.append failure.report := by
  cases failure with
  | single f =>
    simp only [aggregate, toList_append, Failure.faults, List.map_append, List.map_singleton,
      Failure.report, Aggregate.append]
  | several more =>
    simp only [aggregate, toList_append, Failure.faults, List.map_append, Failure.report,
      Aggregate.report, Aggregate.append]

theorem aggregate_extend (fs other : Faults) :
    (fs.extend other).aggregate = fs.aggregate.extend other.aggregate := by
  simp only [aggregate, toList_extend, List.map_append, Aggregate.extend]

theorem aggregate_ofFailure (failure : Failure) :
    (ofFailure failure).aggregate = Aggregate.ofReport failure.report :=
  aggregate_append empty failure

end Faults

/-! ## Ways to build an aggregate -/

mutual

/-- A way to build an aggregate: it starts with nothing or with one addition, and then takes in
additions and other aggregates. -/
inductive Building
  | empty
  | ofAddition (added : Addition)
  | append (building : Building) (added : Addition)
  | extend (building other : Building)

/-- What is added to an aggregate: a fault, or an aggregate that is built itself. -/
inductive Addition
  | fault (fault : Fault)
  | aggregate (building : Building)

end

mutual

/-- The aggregate that is built. -/
def Building.aggregate : Building → Aggregate
  | .empty => .empty
  | .ofAddition added => .ofReport added.report
  | .append building added => building.aggregate.append added.report
  | .extend building other => building.aggregate.extend other.aggregate

/-- The report that is added. -/
def Addition.report : Addition → Report
  | .fault f => .fault f
  | .aggregate building => building.aggregate.report

end

mutual

/-- The collection of faults that is built in the same way. -/
def Building.collection : Building → Faults
  | .empty => .empty
  | .ofAddition added => .ofFailure added.failure
  | .append building added => building.collection.append added.failure
  | .extend building other => building.collection.extend other.collection

/-- The failure that is added. -/
def Addition.failure : Addition → Failure
  | .fault f => .single f
  | .aggregate building => .several building.collection

end

mutual

/-- The faults of which something is built, in the order in which they are added. -/
def Building.faults : Building → List Fault
  | .empty => []
  | .ofAddition added => added.faults
  | .append building added => building.faults ++ added.faults
  | .extend building other => building.faults ++ other.faults

/-- The faults that are added. -/
def Addition.faults : Addition → List Fault
  | .fault f => [f]
  | .aggregate building => building.faults

end

mutual

/-- What is built of aggregates is flat: it is the collection that is built in the same way. -/
theorem Building.aggregate_eq : ∀ b : Building, b.aggregate = b.collection.aggregate
  | .empty => rfl
  | .ofAddition added => by
    rw [Building.aggregate, added.report_eq, ← Faults.aggregate_ofFailure, Building.collection]
  | .append building added => by
    rw [Building.aggregate, building.aggregate_eq, added.report_eq, ← Faults.aggregate_append,
      Building.collection]
  | .extend building other => by
    rw [Building.aggregate, building.aggregate_eq, other.aggregate_eq, ← Faults.aggregate_extend,
      Building.collection]

theorem Addition.report_eq : ∀ a : Addition, a.report = a.failure.report
  | .fault _ => rfl
  | .aggregate building => by
    rw [Addition.report, building.aggregate_eq, Addition.failure, Failure.report]

end

mutual

/-- A collection holds the faults that were added to it, in this order. -/
theorem Building.toList_collection : ∀ b : Building, b.collection.toList = b.faults
  | .empty => rfl
  | .ofAddition added => added.faults_failure
  | .append building added => by
    rw [Building.collection, Faults.toList_append, building.toList_collection,
      added.faults_failure, Building.faults]
  | .extend building other => by
    rw [Building.collection, Faults.toList_extend, building.toList_collection,
      other.toList_collection, Building.faults]

theorem Addition.faults_failure : ∀ a : Addition, a.failure.faults = a.faults
  | .fault _ => rfl
  | .aggregate building => building.toList_collection

end

/-- What is promised of an aggregate, and of the collection of faults that is built in the same
way: none of its members is an aggregate, they are the faults of which it was built, in the order in
which these were added, and it counts and words them like the collection. -/
structure Building.IsFlat (b : Building) : Prop where
  no_aggregate : ∀ r ∈ b.aggregate.toList, r.isAggregate = false
  members : b.aggregate.toList = b.faults.map Report.fault
  count : b.aggregate.count = b.faults.length
  collected : b.collection.toList = b.faults
  collected_count : b.collection.count = b.faults.length
  message : b.aggregate.message = b.collection.message

/-- **However an aggregate is built, it is flat and holds the faults of which it was built in the
order in which they were added; and messages do not depend on the order of the members.** -/
theorem built_aggregates_are_flat :
    (∀ b : Building, b.IsFlat) ∧
    (∀ as bs : Aggregate, as.toList.Perm bs.toList → as.message = bs.message) ∧
    ∀ fs gs : Faults, fs.toList.Perm gs.toList → fs.message = gs.message := by
  refine ⟨fun b => ?_, fun as bs => Aggregate.message_eq_of_perm,
    fun fs gs => Faults.message_of_perm⟩
  have hcollected := b.toList_collection
  have hcount : b.collection.count = b.faults.length := congrArg List.length hcollected
  exact {
    no_aggregate := fun r hr => Faults.isAggregate_eq_false (b.aggregate_eq ▸ hr)
    members := by rw [b.aggregate_eq, Faults.aggregate, hcollected]
    count := by rw [b.aggregate_eq, Faults.count_aggregate, hcount]
    collected := hcollected
    collected_count := hcount
    message := by rw [b.aggregate_eq, Faults.message_aggregate] }

/-- A fault whose text takes two lines. -/
def faultOfTwoLines : Fault :=
  .structural "$.b" (.described "first\n - $.c: second")

/-- A fault with an aggregate behind it, in which an aggregate repeats what stands before it. -/
def nestedBuilding : Building :=
  .append (.ofAddition (.fault (.cycle "$" (.described "loop"))))
    (.aggregate (.append (.append .empty (.fault faultOfTwoLines))
      (.aggregate (.ofAddition (.fault faultOfTwoLines)))))

/-- The same faults in another order, with no aggregate added. -/
def plainBuilding : Building :=
  .extend (.append (.append .empty (.fault faultOfTwoLines))
    (.fault (.cycle "$" (.described "loop")))) (.ofAddition (.fault faultOfTwoLines))

theorem nested_and_plain_aggregate_worded_alike :
    nestedBuilding.aggregate.toList.Perm plainBuilding.aggregate.toList ∧
    nestedBuilding.aggregate.message = plainBuilding.aggregate.message := by
  obtain ⟨hflat, hmessage, -⟩ := built_aggregates_are_flat
  have hfaults : nestedBuilding.faults.Perm plainBuilding.faults := by decide
  have hmembers : nestedBuilding.aggregate.toList.Perm plainBuilding.aggregate.toList := by
    rw [(hflat nestedBuilding).members, (hflat plainBuilding).members]
    exact hfaults.map Report.fault
  exact ⟨hmembers, hmessage _ _ hmembers⟩

end Laminate
