import TaintReplay.OrdMap
import TaintReplay.Summary.FlowSet

/-!
# Flows of one class

The flows summarised for a class are kept in a table by the sub-signature of the
method they are about. A flow names its method too, so a table could contradict
its flows. `MethodSummaries` carries the proof that it does not: the flows under a
method are flows of this method, and a method is listed only if it has some. A
table is therefore the set of its flows, however they were added
(`MethodSummaries.ext_flows`).

Two ways lead to the flows of one method. They can be looked up under it
(`MethodSummaries.flowsForMethod?`), or all that is not about the method is left
out (`MethodSummaries.filterMethod`).

## Main results

* `MethodSummaries.mem_iff_of_flowsForMethod?`: what is found under a method.
* `MethodSummaries.flowsForMethod?_filterMethod`: both ways lead to the same flows.
* `MethodSummaries.ext_flows`: tables with the same flows are equal.
-/

namespace TaintReplay

namespace FlowSet

/-- The flows are all flows of one method, and there is one at least. -/
def AreOf (flows : FlowSet) (method : String) : Prop :=
  (∃ flow, flow ∈ flows) ∧ ∀ flow ∈ flows, flow.method = method

/-- Flows of a method can be added to others of it. -/
theorem AreOf.union {old : Option FlowSet} {added : FlowSet} {method : String}
    (hadded : added.AreOf method) (hold : ∀ flows, old = some flows → flows.AreOf method) :
    AreOf ((old.getD OrdSet.empty).union added) method := by
  obtain ⟨⟨flow, hflow⟩, hkeyed⟩ := hadded
  refine ⟨⟨flow, OrdSet.mem_union.2 (.inr hflow)⟩, fun g hg => ?_⟩
  rcases OrdSet.mem_union.1 hg with hg | hg
  · cases old with
    | none => exact absurd hg (OrdSet.not_mem_empty g)
    | some flows => exact (hold flows rfl).2 g hg
  · exact hkeyed g hg

theorem areOf_singleton (flow : Flow) : AreOf (OrdSet.singleton flow) flow.method :=
  ⟨⟨flow, OrdSet.mem_singleton.2 rfl⟩, fun _ hg => congrArg Flow.method (OrdSet.mem_singleton.1 hg)⟩

end FlowSet

/-- The flows summarised for the methods of one class, by the sub-signature of the
method. -/
structure MethodSummaries where
  table : OrdMap String FlowSet
  /-- Under a method there are flows of it. -/
  filed : ∀ method flows, table.find? method = some flows → flows.AreOf method
deriving DecidableEq

namespace MethodSummaries

/-! ## Filling -/

/-- The table without flows. -/
def empty : MethodSummaries := ⟨OrdMap.empty, fun _ _ h => by cases h⟩

instance : Inhabited MethodSummaries := ⟨empty⟩

/-- Adds a flow to those of its method. -/
def addFlow (s : MethodSummaries) (flow : Flow) : MethodSummaries where
  table := s.table.alter flow.method fun old => (old.getD OrdSet.empty).insert flow
  filed := OrdMap.forall_alter s.filed ((FlowSet.areOf_singleton flow).union (s.filed flow.method))

/-- The table of some flows. -/
def ofList (flows : List Flow) : MethodSummaries := flows.foldl addFlow empty

/-- Adds the flows of another table, method by method. -/
def merge (s t : MethodSummaries) : MethodSummaries where
  table := s.table.alterAll t.table fun old flows => (old.getD OrdSet.empty).union flows
  filed := OrdMap.forall_alterAll s.filed fun method flows h =>
    (t.filed method flows h).union (s.filed method)

/-! ## Queries -/

/-- The flows of a method, if it has any. -/
def flowsForMethod? (s : MethodSummaries) (method : String) : Option FlowSet :=
  s.table.find? method

/-- The methods with a flow. -/
def methods (s : MethodSummaries) : OrdSet String := s.table.keys

/-- All flows, whatever their method. -/
def allFlows (s : MethodSummaries) : FlowSet := FlowSet.unions s.table.values

/-- Whether no method has a flow. -/
def isEmpty (s : MethodSummaries) : Bool := s.table.values.all (·.isEmpty)

/-- The table with the flows of one method only. -/
def filterMethod (s : MethodSummaries) (method : String) : MethodSummaries :=
  match found : s.flowsForMethod? method with
  | none => empty
  | some flows =>
    ⟨OrdMap.empty.insert method flows,
      OrdMap.forall_alter (fun _ _ h => by cases h) (s.filed method flows found)⟩

/-! ## A table is the set of its flows -/

variable {s t : MethodSummaries} {method : String} {flows : FlowSet} {flow : Flow}

theorem mem_allFlows_iff :
    flow ∈ s.allFlows ↔ ∃ m found, s.flowsForMethod? m = some found ∧ flow ∈ found := by
  rw [allFlows, FlowSet.mem_unions, OrdMap.exists_mem_values_iff]
  rfl

/-- Under a method there are all flows of it and no others. -/
theorem mem_iff_of_flowsForMethod? (h : s.flowsForMethod? method = some flows) :
    flow ∈ flows ↔ flow ∈ s.allFlows ∧ flow.method = method := by
  constructor
  · intro hflow
    exact ⟨mem_allFlows_iff.2 ⟨method, flows, h, hflow⟩, (s.filed method flows h).2 flow hflow⟩
  · rintro ⟨hall, rfl⟩
    obtain ⟨m, found, hfound, hflow⟩ := mem_allFlows_iff.1 hall
    -- there is no other method that it could stand under
    obtain rfl := (s.filed m found hfound).2 flow hflow
    cases h.symm.trans hfound
    exact hflow

/-- A method that is not listed has no flow. -/
theorem flowsForMethod?_eq_none_iff :
    s.flowsForMethod? method = none ↔ ∀ flow ∈ s.allFlows, flow.method ≠ method := by
  constructor
  · rintro hnone flow hflow rfl
    obtain ⟨m, found, hfound, hmem⟩ := mem_allFlows_iff.1 hflow
    obtain rfl := (s.filed m found hfound).2 flow hmem
    cases hnone.symm.trans hfound
  · intro hall
    cases hfound : s.flowsForMethod? method with
    | none => rfl
    | some found =>
        obtain ⟨flow, hflow⟩ := (s.filed method found hfound).1
        obtain ⟨hmem, hmethod⟩ := (mem_iff_of_flowsForMethod? hfound).1 hflow
        exact absurd hmethod (hall flow hmem)

/-- What is found of a method, listed or not. -/
theorem mem_getD_flowsForMethod? :
    flow ∈ (s.flowsForMethod? method).getD OrdSet.empty ↔
      flow ∈ s.allFlows ∧ flow.method = method := by
  cases hfound : s.flowsForMethod? method with
  | none =>
      have hnone := flowsForMethod?_eq_none_iff.1 hfound
      exact iff_of_false (OrdSet.not_mem_empty flow) fun h => hnone flow h.1 h.2
  | some found => exact mem_iff_of_flowsForMethod? hfound

/-- Tables with the same flows are equal. -/
theorem ext_flows (same : ∀ flow, flow ∈ s.allFlows ↔ flow ∈ t.allFlows) : s = t := by
  have hfind : ∀ m, s.flowsForMethod? m = t.flowsForMethod? m := by
    intro m
    cases hs : s.flowsForMethod? m with
    | none =>
        rw [flowsForMethod?_eq_none_iff] at hs
        exact (flowsForMethod?_eq_none_iff.2 fun flow hflow => hs flow ((same flow).2 hflow)).symm
    | some found =>
        cases ht : t.flowsForMethod? m with
        | none =>
            rw [flowsForMethod?_eq_none_iff] at ht
            obtain ⟨flow, hflow⟩ := (s.filed m found hs).1
            obtain ⟨hmem, hmethod⟩ := (mem_iff_of_flowsForMethod? hs).1 hflow
            exact absurd hmethod (ht flow ((same flow).1 hmem))
        | some found' =>
            refine congrArg some (OrdSet.ext_mem fun flow => ?_)
            rw [mem_iff_of_flowsForMethod? hs, mem_iff_of_flowsForMethod? ht, same]
  have htable : s.table = t.table := OrdMap.ext_find? hfind
  cases s
  cases t
  cases htable
  rfl

theorem isEmpty_iff : s.isEmpty = true ↔ ∀ flow, ¬ flow ∈ s.allFlows := by
  simp only [isEmpty, List.all_eq_true, OrdSet.isEmpty_iff, allFlows, FlowSet.mem_unions]
  exact ⟨fun h flow hex => hex.elim fun found hf => h found hf.1 flow hf.2,
    fun h found hf flow hflow => h flow ⟨found, hf, hflow⟩⟩

@[simp]
theorem not_mem_allFlows_empty (flow : Flow) : ¬ flow ∈ empty.allFlows := by
  rw [mem_allFlows_iff]
  rintro ⟨m, found, hfound, -⟩
  cases hfound

/-! ## The flows of a new table -/

theorem mem_allFlows_addFlow {added : Flow} :
    flow ∈ (s.addFlow added).allFlows ↔ flow ∈ s.allFlows ∨ flow = added := by
  have hfind : ∀ m, flow ∈ ((s.addFlow added).flowsForMethod? m).getD OrdSet.empty ↔
      flow ∈ (s.flowsForMethod? m).getD OrdSet.empty ∨ m = added.method ∧ flow = added := by
    intro m
    by_cases hm : m = added.method
    · subst hm
      rw [flowsForMethod?, addFlow, OrdMap.find?_alter_self, Option.getD_some, OrdSet.mem_insert]
      exact ⟨fun h => h.elim (fun e => .inr ⟨rfl, e⟩) .inl, fun h => h.elim .inr fun e => .inl e.2⟩
    · rw [flowsForMethod?, addFlow, OrdMap.find?_alter_of_ne hm]
      exact ⟨.inl, fun h => h.resolve_right fun e => hm e.1⟩
  have hown := hfind flow.method
  simp only [mem_getD_flowsForMethod?, and_true] at hown
  rw [hown]
  exact or_congr_right ⟨fun h => h.2, fun h => ⟨congrArg Flow.method h, h⟩⟩

theorem mem_allFlows_ofList {flows : List Flow} : flow ∈ (ofList flows).allFlows ↔ flow ∈ flows := by
  have hfold : ∀ (more : List Flow) (s : MethodSummaries),
      flow ∈ (more.foldl addFlow s).allFlows ↔ flow ∈ s.allFlows ∨ flow ∈ more := by
    intro more
    induction more with
    | nil => simp
    | cons first more ih =>
        intro s
        rw [List.foldl_cons, ih, mem_allFlows_addFlow, List.mem_cons, or_assoc]
  rw [ofList, hfold]
  simp

theorem mem_allFlows_merge :
    flow ∈ (s.merge t).allFlows ↔ flow ∈ s.allFlows ∨ flow ∈ t.allFlows := by
  have hown : flow ∈ ((s.merge t).flowsForMethod? flow.method).getD OrdSet.empty ↔
      flow ∈ (s.flowsForMethod? flow.method).getD OrdSet.empty ∨
        flow ∈ (t.flowsForMethod? flow.method).getD OrdSet.empty := by
    rw [flowsForMethod?, merge, OrdMap.find?_alterAll]
    cases ht : t.table.find? flow.method <;> simp [flowsForMethod?, ht]
  simpa only [mem_getD_flowsForMethod?, and_true] using hown

/-- Both ways lead to the same flows. -/
theorem flowsForMethod?_filterMethod (s : MethodSummaries) (method : String) :
    (s.filterMethod method).flowsForMethod? method = s.flowsForMethod? method := by
  unfold filterMethod
  split
  · rename_i hnone
    exact hnone.symm
  · rename_i found hfound
    exact (OrdMap.find?_insert_self _ _ _).trans hfound.symm

theorem flowsForMethod?_filterMethod_of_ne {other : String} (h : other ≠ method) :
    (s.filterMethod method).flowsForMethod? other = none := by
  unfold filterMethod
  split
  · rfl
  · exact OrdMap.find?_insert_of_ne h _ _

theorem mem_allFlows_filterMethod :
    flow ∈ (s.filterMethod method).allFlows ↔ flow ∈ s.allFlows ∧ flow.method = method := by
  by_cases h : flow.method = method
  · have hown : flow ∈ ((s.filterMethod method).flowsForMethod? method).getD OrdSet.empty ↔
        flow ∈ (s.filterMethod method).allFlows ∧ flow.method = method := mem_getD_flowsForMethod?
    rw [flowsForMethod?_filterMethod, mem_getD_flowsForMethod?] at hown
    simpa [h] using hown.symm
  · have hother := flowsForMethod?_eq_none_iff.1 (flowsForMethod?_filterMethod_of_ne (s := s) h)
    exact iff_of_false (fun hmem => hother flow hmem rfl) fun hboth => h hboth.2

theorem empty_merge (s : MethodSummaries) : empty.merge s = s :=
  ext_flows fun flow => by rw [mem_allFlows_merge]; simp

theorem merge_self (s : MethodSummaries) : s.merge s = s :=
  ext_flows fun flow => by rw [mem_allFlows_merge, or_self]

end MethodSummaries

end TaintReplay
