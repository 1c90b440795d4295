import TaintReplay.Proofs.Runs

/-!
# Stores as sets of pairs

A store holds its flows in two levels, by class and by the sub-signature of the
method. All its queries can be read off a single relation, which flow was given for
which class (`ClassSummaries.HasPair`), since a flow stands under its own method
whatever way it came in; and two stores with the same pairs, the same listed classes
and the same declared ones are equal (`SummaryStore.ext_pairs`). The laws of merging
and the independence of the order of records are therefore laws of `∨`.

A method is looked for on two paths. In one class its flows are looked up under the
method. In several classes the tables are filtered first, and what is left of them is
gathered. Both lead to the same flows (`SummaryStore.flowsForMethod?_of_methodFlows`).

Stores are filled in five ways, and those that are merged were filled before.
`Supply` is such a course of filling, and `Supply.Gives` says which pairs it is about
without looking at a store.

## Main results

* `SummaryStore.find?_methodFlows`: what a lookup in several classes finds.
* `SummaryStore.flowsForMethod?_of_methodFlows`: it is what a lookup in one class finds.
* `SummaryStore.hasPair_merge`, `SummaryStore.hasPair_ofRecords`: the pairs of a store.
* `stores_are_sets_of_pairs`: what queries answer after any course of filling.
-/

namespace TaintReplay

theorem OrdSet.isEmpty_eq_false_iff {α : Type} [Ord α] {s : OrdSet α} :
    s.isEmpty = false ↔ ∃ x, x ∈ s := by
  rw [Bool.eq_false_iff, Ne, isEmpty_iff]
  simp only [not_forall, not_not]

theorem MethodSummaries.isEmpty_eq_false_iff {s : MethodSummaries} :
    s.isEmpty = false ↔ ∃ flow, flow ∈ s.allFlows := by
  rw [Bool.eq_false_iff, Ne, isEmpty_iff]
  simp only [not_forall, not_not]

/-! ## Flows of several classes -/

namespace ClassSummaries

variable {s t : ClassSummaries} {className other : String} {flow : Flow}

/-- A flow is given for a class. -/
def HasPair (s : ClassSummaries) (className : String) (flow : Flow) : Prop :=
  ∃ flows, s.find? className = some flows ∧ flow ∈ flows.allFlows

theorem mem_classes_iff : className ∈ s.classes ↔ ∃ flows, s.find? className = some flows := by
  rw [classes, OrdMap.mem_keys_iff, OrdMap.contains, Option.isSome_iff_exists]
  rfl

theorem find?_addFlow (s : ClassSummaries) (className other : String) (flow : Flow) :
    (s.addFlow className flow).find? other =
      if other = className then some (((s.find? className).getD .empty).addFlow flow)
      else s.find? other := by
  by_cases h : other = className
  · subst h
    rw [if_pos rfl]
    exact OrdMap.find?_alter_self _ _ _
  · rw [if_neg h]
    exact OrdMap.find?_alter_of_ne h _ _

theorem find?_merge (s : ClassSummaries) (className other : String) (flows : MethodSummaries) :
    (s.merge className flows).find? other =
      if other = className then some (((s.find? className).getD .empty).merge flows)
      else s.find? other := by
  by_cases h : other = className
  · subst h
    rw [if_pos rfl]
    exact OrdMap.find?_alter_self _ _ _
  · rw [if_neg h]
    exact OrdMap.find?_alter_of_ne h _ _

theorem find?_mergeAll (s t : ClassSummaries) (className : String) :
    (s.mergeAll t).find? className =
      ((t.find? className).map ((s.find? className).getD .empty).merge).or (s.find? className) :=
  OrdMap.find?_alterAll _ _ _ _

/-- Adding a flow adds a pair. -/
theorem hasPair_addFlow {added : Flow} :
    (s.addFlow className added).HasPair other flow ↔
      s.HasPair other flow ∨ other = className ∧ flow = added := by
  unfold HasPair
  rw [find?_addFlow]
  by_cases h : other = className
  · subst h
    cases s.find? other <;> simp [MethodSummaries.mem_allFlows_addFlow]
  · simp [h]

/-- Merging adds the pairs of one class. -/
theorem hasPair_merge {flows : MethodSummaries} :
    (s.merge className flows).HasPair other flow ↔
      s.HasPair other flow ∨ other = className ∧ flow ∈ flows.allFlows := by
  unfold HasPair
  rw [find?_merge]
  by_cases h : other = className
  · subst h
    cases s.find? other <;> simp [MethodSummaries.mem_allFlows_merge]
  · simp [h]

theorem hasPair_mergeAll :
    (s.mergeAll t).HasPair className flow ↔ s.HasPair className flow ∨ t.HasPair className flow := by
  unfold HasPair
  rw [find?_mergeAll]
  cases s.find? className <;> cases t.find? className <;> simp [MethodSummaries.mem_allFlows_merge]

theorem mem_classes_addFlow {added : Flow} :
    other ∈ (s.addFlow className added).classes ↔ other ∈ s.classes ∨ other = className := by
  simp only [mem_classes_iff, find?_addFlow]
  by_cases h : other = className <;> simp [h]

theorem mem_classes_merge {flows : MethodSummaries} :
    other ∈ (s.merge className flows).classes ↔ other ∈ s.classes ∨ other = className := by
  simp only [mem_classes_iff, find?_merge]
  by_cases h : other = className <;> simp [h]

theorem mem_classes_mergeAll :
    className ∈ (s.mergeAll t).classes ↔ className ∈ s.classes ∨ className ∈ t.classes := by
  simp only [mem_classes_iff, find?_mergeAll]
  cases s.find? className <;> cases t.find? className <;> simp

theorem mem_allFlows_iff : flow ∈ s.allFlows ↔ ∃ className, s.HasPair className flow := by
  simp only [allFlows, FlowSet.mem_unions, List.mem_map, exists_exists_and_eq_and]
  exact OrdMap.exists_mem_values_iff

/-- Class by class, the flows of a method are looked up under it. -/
theorem mem_allFlowsForMethod_iff {subSignature : String} :
    flow ∈ s.allFlowsForMethod subSignature ↔ flow ∈ s.allFlows ∧ flow.method = subSignature := by
  simp only [allFlowsForMethod, allFlows, FlowSet.mem_unions, List.mem_filterMap, List.mem_map]
  constructor
  · rintro ⟨found, ⟨flows, hflows, hfound⟩, hflow⟩
    obtain ⟨hall, hmethod⟩ := (MethodSummaries.mem_iff_of_flowsForMethod? hfound).1 hflow
    exact ⟨⟨_, ⟨flows, hflows, rfl⟩, hall⟩, hmethod⟩
  · rintro ⟨⟨_, ⟨flows, hflows, rfl⟩, hall⟩, rfl⟩
    cases hfound : flows.flowsForMethod? flow.method with
    | none => exact absurd rfl (MethodSummaries.flowsForMethod?_eq_none_iff.1 hfound flow hall)
    | some found =>
        exact ⟨found, ⟨flows, hflows, hfound⟩,
          (MethodSummaries.mem_iff_of_flowsForMethod? hfound).2 ⟨hall, rfl⟩⟩

/-- Summaries with the same classes and the same pairs are equal. -/
theorem ext_pairs (classes : ∀ c, c ∈ s.classes ↔ c ∈ t.classes)
    (pairs : ∀ c f, s.HasPair c f ↔ t.HasPair c f) : s = t := by
  have hfind : ∀ c, s.table.find? c = t.table.find? c := by
    intro c
    have hclass := classes c
    have hpair := pairs c
    simp only [mem_classes_iff, HasPair, find?] at hclass hpair
    cases hs : s.table.find? c with
    | none =>
        cases ht : t.table.find? c with
        | none => rfl
        | some flows => simp [hs, ht] at hclass
    | some flows =>
        cases ht : t.table.find? c with
        | none => simp [hs, ht] at hclass
        | some flows' =>
            congr 1
            refine MethodSummaries.ext_flows fun f => ?_
            simpa [hs, ht] using hpair f
  have htable : s.table = t.table := OrdMap.ext_find? hfind
  cases s
  cases t
  cases htable
  rfl

end ClassSummaries

/-! ## Queries -/

namespace SummaryStore

variable {s : SummaryStore} {className subSignature : String} {classes : OrdSet String} {flow : Flow}

/-- A flow is given for a class. -/
def HasPair (s : SummaryStore) (className : String) (flow : Flow) : Prop :=
  s.summaries.HasPair className flow

theorem not_hasPair_empty (className : String) (flow : Flow) :
    ¬ HasPair empty className flow := by
  rintro ⟨flows, hnone, -⟩
  cases hnone

/-- What is found by looking a method up. -/
theorem mem_classMethodFlows_iff :
    flow ∈ s.classMethodFlows className subSignature ↔
      s.HasPair className flow ∧ flow.method = subSignature := by
  unfold classMethodFlows HasPair ClassSummaries.HasPair
  cases s.summaries.find? className with
  | none => simp
  | some flows => simp [MethodSummaries.mem_getD_flowsForMethod?]

/-- What filtering leaves of a class. -/
theorem filtered?_eq_some_iff {left : MethodSummaries} :
    s.filtered? className subSignature = some left ↔
      ∃ flows, s.summaries.find? className = some flows ∧ flows.filterMethod subSignature = left ∧
        ∃ flow, flow ∈ left.allFlows := by
  simp only [filtered?, Option.filter_eq_some_iff, Option.map_eq_some_iff, Bool.not_eq_true',
    MethodSummaries.isEmpty_eq_false_iff]
  grind

/-- Looking in one more class adds what filtering leaves of it. A class that was met
before has all of that already. -/
theorem find?_mergeFiltered (s : SummaryStore) {subSignature : String} {found : ClassSummaries}
    (hfound : ∀ c flows, found.find? c = some flows → s.filtered? c subSignature = some flows)
    (name c : String) :
    ((s.filtered? name subSignature).elim found (found.merge name)).find? c =
      if c = name then s.filtered? name subSignature else found.find? c := by
  cases hleft : s.filtered? name subSignature with
  | none =>
      have hname : found.find? name = none := by
        rw [Option.eq_none_iff_forall_ne_some]
        intro flows hflows
        cases hleft.symm.trans (hfound name flows hflows)
      rw [Option.elim_none]
      split
      · rename_i heq
        rw [heq, hname]
      · rfl
  | some left =>
      rw [Option.elim_some, ClassSummaries.find?_merge]
      cases hold : found.find? name with
      | none => simp [MethodSummaries.empty_merge]
      | some flows =>
          obtain rfl : left = flows :=
            Option.some.inj (hleft.symm.trans (hfound name flows hold))
          simp [MethodSummaries.merge_self]

/-- Looking in several classes, one after the other. -/
theorem find?_foldl_mergeFiltered (s : SummaryStore) {subSignature : String} (names : List String)
    {found : ClassSummaries}
    (hfound : ∀ c flows, found.find? c = some flows → s.filtered? c subSignature = some flows)
    (className : String) :
    (names.foldl (fun found c => (s.filtered? c subSignature).elim found (found.merge c))
        found).find? className =
      if className ∈ names then s.filtered? className subSignature else found.find? className := by
  induction names generalizing found with
  | nil => simp
  | cons name names ih =>
      have hstep := s.find?_mergeFiltered hfound name
      rw [List.foldl_cons, ih fun c flows hc => ?_, hstep]
      · by_cases heq : className = name
        · simp [heq]
        · simp [heq]
      · rw [hstep] at hc
        split at hc
        · rename_i heq
          rw [heq]
          exact hc
        · exact hfound c flows hc

/-- A lookup in several classes finds what filtering leaves of each, if anything. -/
theorem find?_methodFlows (s : SummaryStore) (classes : OrdSet String)
    (subSignature className : String) :
    (s.methodFlows classes subSignature).find? className =
      if className ∈ classes then s.filtered? className subSignature else none :=
  s.find?_foldl_mergeFiltered classes.toList (fun _ _ hc => by cases hc) className

/-- Both paths lead to the same flows: what a lookup in several classes has for the
method in one of them is what a lookup in this class finds. -/
theorem flowsForMethod?_of_methodFlows {left : MethodSummaries}
    (h : (s.methodFlows classes subSignature).find? className = some left) :
    left.flowsForMethod? subSignature = some (s.classMethodFlows className subSignature) := by
  rw [find?_methodFlows] at h
  obtain ⟨-, h⟩ := Option.ite_none_right_eq_some.1 h
  obtain ⟨flows, hflows, rfl, flow, hflow⟩ := filtered?_eq_some_iff.1 h
  rw [MethodSummaries.flowsForMethod?_filterMethod, classMethodFlows, hflows, Option.bind_some]
  cases hfound : flows.flowsForMethod? subSignature with
  | none =>
      obtain ⟨hall, hmethod⟩ := MethodSummaries.mem_allFlows_filterMethod.1 hflow
      exact absurd hmethod (MethodSummaries.flowsForMethod?_eq_none_iff.1 hfound flow hall)
  | some found => rfl

/-- The pairs that a lookup finds. -/
theorem hasPair_methodFlows :
    (s.methodFlows classes subSignature).HasPair className flow ↔
      className ∈ classes ∧ s.HasPair className flow ∧ flow.method = subSignature := by
  rw [ClassSummaries.HasPair, find?_methodFlows]
  constructor
  · rintro ⟨left, hleft, hflow⟩
    obtain ⟨hclass, hleft⟩ := Option.ite_none_right_eq_some.1 hleft
    obtain ⟨flows, hflows, rfl, -⟩ := filtered?_eq_some_iff.1 hleft
    obtain ⟨hall, hmethod⟩ := MethodSummaries.mem_allFlows_filterMethod.1 hflow
    exact ⟨hclass, ⟨flows, hflows, hall⟩, hmethod⟩
  · rintro ⟨hclass, ⟨flows, hflows, hall⟩, hmethod⟩
    have hflow := MethodSummaries.mem_allFlows_filterMethod.2 ⟨hall, hmethod⟩
    rw [if_pos hclass]
    exact ⟨_, filtered?_eq_some_iff.2 ⟨flows, hflows, rfl, flow, hflow⟩, hflow⟩

/-- The classes that a lookup lists are those with a flow. -/
theorem mem_classes_methodFlows :
    className ∈ (s.methodFlows classes subSignature).classes ↔
      className ∈ classes ∧ ∃ flow, s.HasPair className flow ∧ flow.method = subSignature := by
  rw [ClassSummaries.mem_classes_iff]
  constructor
  · rintro ⟨left, hleft⟩
    have hfound := hleft
    rw [find?_methodFlows] at hfound
    obtain ⟨hclass, hfound⟩ := Option.ite_none_right_eq_some.1 hfound
    obtain ⟨-, -, -, flow, hflow⟩ := filtered?_eq_some_iff.1 hfound
    exact ⟨hclass, flow, (hasPair_methodFlows.1 ⟨left, hleft, hflow⟩).2⟩
  · rintro ⟨hclass, flow, hpair⟩
    obtain ⟨left, hleft, -⟩ := hasPair_methodFlows.2 ⟨hclass, hpair⟩
    exact ⟨left, hleft⟩

/-! ## Merging -/

/-- Stores with the same classes, the same pairs and the same declared classes are
equal. -/
theorem ext_pairs {s t : SummaryStore}
    (classes : ∀ c, c ∈ s.summaries.classes ↔ c ∈ t.summaries.classes)
    (pairs : ∀ c f, s.HasPair c f ↔ t.HasPair c f)
    (declared : ∀ c, c ∈ s.declared ↔ c ∈ t.declared) : s = t := by
  have hsummaries : s.summaries = t.summaries := ClassSummaries.ext_pairs classes pairs
  have hdeclared : s.declared = t.declared := OrdSet.ext_mem declared
  cases s
  cases t
  cases hsummaries
  cases hdeclared
  rfl

variable {t : SummaryStore}

theorem hasPair_merge :
    (s.merge t).HasPair className flow ↔ s.HasPair className flow ∨ t.HasPair className flow :=
  ClassSummaries.hasPair_mergeAll

theorem mem_classes_merge :
    className ∈ (s.merge t).summaries.classes ↔
      className ∈ s.summaries.classes ∨ className ∈ t.summaries.classes :=
  ClassSummaries.mem_classes_mergeAll

theorem mem_declared_merge :
    className ∈ (s.merge t).declared ↔ className ∈ s.declared ∨ className ∈ t.declared :=
  OrdSet.mem_union

theorem merge_comm (s t : SummaryStore) : s.merge t = t.merge s :=
  ext_pairs (fun _ => by simp only [mem_classes_merge, or_comm])
    (fun _ _ => by simp only [hasPair_merge, or_comm])
    (fun _ => by simp only [mem_declared_merge, or_comm])

theorem merge_assoc (s t u : SummaryStore) : (s.merge t).merge u = s.merge (t.merge u) :=
  ext_pairs (fun _ => by simp only [mem_classes_merge, or_assoc])
    (fun _ _ => by simp only [hasPair_merge, or_assoc])
    (fun _ => by simp only [mem_declared_merge, or_assoc])

theorem merge_self (s : SummaryStore) : s.merge s = s :=
  ext_pairs (fun _ => by simp only [mem_classes_merge, or_self])
    (fun _ _ => by simp only [hasPair_merge, or_self])
    (fun _ => by simp only [mem_declared_merge, or_self])

/-- A store answers every query as the union of two: with the flows of both, for the
classes of both. The classes it calls loadable are those that one of them calls so and
none of them supports. -/
structure UnionOf (u s t : SummaryStore) : Prop where
  classMethodFlows : ∀ className subSignature,
    u.classMethodFlows className subSignature =
      (s.classMethodFlows className subSignature).union (t.classMethodFlows className subSignature)
  classes : ∀ classes subSignature,
    (u.methodFlows classes subSignature).classes =
      (s.methodFlows classes subSignature).classes.union
        (t.methodFlows classes subSignature).classes
  allFlows : ∀ classes subSignature,
    (u.methodFlows classes subSignature).allFlows =
      (s.methodFlows classes subSignature).allFlows.union
        (t.methodFlows classes subSignature).allFlows
  supported : u.supportedClasses = s.supportedClasses.union t.supportedClasses
  loadable : u.loadableClasses =
    (s.loadableClasses.union t.loadableClasses).filter fun c => !s.supports c && !t.supports c

theorem supports_iff : s.supports className = true ↔ className ∈ s.summaries.classes :=
  OrdMap.mem_keys_iff.symm

theorem mem_loadableClasses_iff :
    className ∈ s.loadableClasses ↔ className ∈ s.declared ∧ ¬ className ∈ s.summaries.classes := by
  simp [loadableClasses, ← supports_iff]

theorem unionOf_merge (s t : SummaryStore) : (s.merge t).UnionOf s t where
  classMethodFlows _ _ := OrdSet.ext_mem fun f => by
    simp only [OrdSet.mem_union, mem_classMethodFlows_iff, hasPair_merge, or_and_right]
  classes _ _ := OrdSet.ext_mem fun c => by
    simp only [OrdSet.mem_union, mem_classes_methodFlows, hasPair_merge, or_and_right, exists_or,
      and_or_left]
  allFlows _ _ := OrdSet.ext_mem fun f => by
    simp only [OrdSet.mem_union, ClassSummaries.mem_allFlows_iff, hasPair_methodFlows,
      hasPair_merge, or_and_right, and_or_left, exists_or]
  supported := OrdSet.ext_mem fun c => by
    simp only [OrdSet.mem_union, supportedClasses, mem_classes_merge]
  loadable := OrdSet.ext_mem fun c => by
    simp only [OrdSet.mem_filter, OrdSet.mem_union, mem_loadableClasses_iff, mem_declared_merge,
      mem_classes_merge, Bool.and_eq_true, Bool.not_eq_true', ← Bool.not_eq_true, supports_iff]
    grind

/-! ## Records -/

theorem hasPair_addClass {other : String} {flows : MethodSummaries} :
    (s.addClass other flows).HasPair className flow ↔
      s.HasPair className flow ∨ className = other ∧ flow ∈ flows.allFlows :=
  ClassSummaries.hasPair_merge

theorem hasPair_addFlow {other : String} {added : Flow} :
    (s.addFlow other added).HasPair className flow ↔
      s.HasPair className flow ∨ className = other ∧ flow = added :=
  ClassSummaries.hasPair_addFlow

theorem mem_classes_addClass {other : String} {flows : MethodSummaries} :
    className ∈ (s.addClass other flows).summaries.classes ↔
      className ∈ s.summaries.classes ∨ className = other :=
  ClassSummaries.mem_classes_merge

theorem mem_classes_addFlow {other : String} {added : Flow} :
    className ∈ (s.addFlow other added).summaries.classes ↔
      className ∈ s.summaries.classes ∨ className = other :=
  ClassSummaries.mem_classes_addFlow

end SummaryStore

/-- Why a record cannot be used: the first of its flows whose method is blank. -/
def Record.fault? (r : Record) : Option RecordError :=
  (r.flows.find? fun f => Text.isBlankText f.method).map (RecordError.missingMethod r.className)

theorem Record.isSome_fault? {r : Record} :
    r.fault?.isSome = true ↔ ∃ f ∈ r.flows, Text.isBlankText f.method = true := by
  rw [fault?, Option.isSome_map, List.find?_isSome]

namespace SummaryStore

/-- A store with a usable record: its flows are added and its class is declared. -/
def withRecord (s : SummaryStore) (r : Record) : SummaryStore :=
  (r.flows.foldl (fun s flow => s.addFlow r.className flow) s).declare r.className

theorem addRecord_eq (s : SummaryStore) (r : Record) :
    s.addRecord r = r.fault?.elim (.ok (s.withRecord r)) .error := by
  obtain ⟨name, flows⟩ := r
  rw [addRecord, withRecord, Record.fault?]
  induction flows generalizing s with
  | nil => rfl
  | cons first flows ih =>
      rw [List.foldlM_cons, List.find?_cons]
      by_cases hblank : Text.isBlankText first.method = true
      · simp only [hblank, if_true]
        rfl
      · rw [if_neg hblank, Bool.eq_false_iff.2 hblank]
        exact ih (s.addFlow name first)

/-- Records are used up to the first that cannot be. -/
theorem ofRecords_eq (records : List Record) :
    ofRecords records =
      (records.findSome? Record.fault?).elim (.ok (records.foldl withRecord empty)) .error := by
  rw [ofRecords]
  generalize empty = s
  induction records generalizing s with
  | nil => rfl
  | cons r records ih =>
      rw [List.foldlM_cons, addRecord_eq, List.findSome?_cons]
      cases r.fault? with
      | some e => rfl
      | none => exact ih (s.withRecord r)

theorem exists_error_ofRecords {records : List Record} :
    (∃ e, ofRecords records = .error e) ↔
      ∃ r ∈ records, ∃ f ∈ r.flows, Text.isBlankText f.method = true := by
  simp only [← Record.isSome_fault?, ← List.findSome?_isSome_iff]
  rw [ofRecords_eq]
  cases records.findSome? Record.fault? <;> simp

/-- Flows added one by one are the flows of their class. -/
theorem fold_addFlow (name : String) (flows : List Flow) (s : SummaryStore) :
    (∀ c f, (flows.foldl (fun s flow => s.addFlow name flow) s).HasPair c f ↔
      s.HasPair c f ∨ c = name ∧ f ∈ flows) ∧
    (∀ c, c ∈ (flows.foldl (fun s flow => s.addFlow name flow) s).summaries.classes ↔
      c ∈ s.summaries.classes ∨ c = name ∧ flows ≠ []) ∧
    (flows.foldl (fun s flow => s.addFlow name flow) s).declared = s.declared := by
  induction flows generalizing s with
  | nil => simp
  | cons first flows ih =>
      rw [List.foldl_cons]
      obtain ⟨hpairs, hclasses, hdeclared⟩ := ih (s.addFlow name first)
      refine ⟨fun c f => ?_, fun c => ?_, hdeclared⟩
      · rw [hpairs, hasPair_addFlow, List.mem_cons]
        grind
      · rw [hclasses, mem_classes_addFlow]
        grind

/-- The records of a list each add their flows, list their class if they have flows, and
declare it. -/
theorem fold_withRecord (records : List Record) (s : SummaryStore) :
    (∀ c f, (records.foldl withRecord s).HasPair c f ↔
      s.HasPair c f ∨ ∃ r ∈ records, r.className = c ∧ f ∈ r.flows) ∧
    (∀ c, c ∈ (records.foldl withRecord s).summaries.classes ↔
      c ∈ s.summaries.classes ∨ ∃ r ∈ records, r.className = c ∧ r.flows ≠ []) ∧
    ∀ c, c ∈ (records.foldl withRecord s).declared ↔
      c ∈ s.declared ∨ ∃ r ∈ records, r.className = c := by
  induction records generalizing s with
  | nil => simp
  | cons r records ih =>
      obtain ⟨hpairs, hclasses, hdeclared⟩ := ih (s.withRecord r)
      obtain ⟨hpairs', hclasses', hdeclared'⟩ := fold_addFlow r.className r.flows s
      have hwith : ∀ c, c ∈ (s.withRecord r).declared ↔ c = r.className ∨ c ∈ s.declared := by
        intro c
        rw [← hdeclared']
        exact OrdSet.mem_insert
      rw [List.foldl_cons]
      refine ⟨fun c f => ?_, fun c => ?_, fun c => ?_⟩
      · rw [hpairs]
        refine (or_congr_left (hpairs' c f)).trans ?_
        simp only [List.mem_cons, exists_eq_or_imp]
        grind
      · rw [hclasses]
        refine (or_congr_left (hclasses' c)).trans ?_
        simp only [List.mem_cons, exists_eq_or_imp]
        grind
      · rw [hdeclared, hwith]
        simp only [List.mem_cons, exists_eq_or_imp]
        grind

/-- The store of usable records has them all. -/
theorem foldl_withRecord_of_ofRecords {records : List Record} {store : SummaryStore}
    (h : ofRecords records = .ok store) : records.foldl withRecord empty = store := by
  rw [ofRecords_eq] at h
  cases hfault : records.findSome? Record.fault? with
  | some e =>
      rw [hfault] at h
      cases h
  | none =>
      rw [hfault] at h
      exact Except.ok.inj h

theorem hasPair_ofRecords {records : List Record} {store : SummaryStore}
    (h : ofRecords records = .ok store) {className : String} {flow : Flow} :
    store.HasPair className flow ↔ ∃ r ∈ records, r.className = className ∧ flow ∈ r.flows := by
  rw [← foldl_withRecord_of_ofRecords h, (fold_withRecord records empty).1]
  exact or_iff_right (not_hasPair_empty className flow)

/-- Lists with the same records make the same store. -/
theorem ofRecords_congr {records others : List Record} (same : ∀ r, r ∈ records ↔ r ∈ others)
    {store : SummaryStore} (h : ofRecords records = .ok store) : ofRecords others = .ok store := by
  rw [ofRecords_eq] at h ⊢
  cases hfault : records.findSome? Record.fault? with
  | some e =>
      rw [hfault] at h
      cases h
  | none =>
      rw [hfault] at h
      obtain rfl : records.foldl withRecord empty = store := Except.ok.inj h
      have hother : others.findSome? Record.fault? = none := by
        rw [List.findSome?_eq_none_iff] at hfault ⊢
        exact fun r hr => hfault r ((same r).2 hr)
      obtain ⟨hpairs, hclasses, hdeclared⟩ := fold_withRecord records empty
      obtain ⟨hpairs', hclasses', hdeclared'⟩ := fold_withRecord others empty
      rw [hother]
      refine congrArg Except.ok (ext_pairs (fun c => ?_) (fun c f => ?_) fun c => ?_)
      · simp only [hclasses, hclasses', same]
      · simp only [hpairs, hpairs', same]
      · simp only [hdeclared, hdeclared', same]

end SummaryStore

/-! ## Courses of filling -/

/-- A course in which a store is filled. -/
inductive Supply where
  | nothing
  | records (list : List Record)
  | addFlow (before : Supply) (className : String) (flow : Flow)
  | addClass (before : Supply) (className : String) (flows : MethodSummaries)
  | declare (before : Supply) (className : String)
  | merge (before other : Supply)

namespace Supply

/-- The store at the end of a course, unless records could not be used. -/
def store : Supply → Except RecordError SummaryStore
  | nothing => .ok .empty
  | .records list => SummaryStore.ofRecords list
  | addFlow before className flow => return (← before.store).addFlow className flow
  | addClass before className flows => return (← before.store).addClass className flows
  | declare before className => return (← before.store).declare className
  | merge before other => return (← before.store).merge (← other.store)

/-- A course gives a flow for a class. -/
def Gives : Supply → String → Flow → Prop
  | nothing, _, _ => False
  | .records list, c, f => ∃ r ∈ list, r.className = c ∧ f ∈ r.flows
  | addFlow before className flow, c, f => before.Gives c f ∨ c = className ∧ f = flow
  | addClass before className flows, c, f => before.Gives c f ∨ c = className ∧ f ∈ flows.allFlows
  | declare before _, c, f => before.Gives c f
  | merge before other, c, f => before.Gives c f ∨ other.Gives c f

theorem exists_of_bind_eq_ok {ε α β : Type} {x : Except ε α} {f : α → Except ε β} {b : β}
    (h : x >>= f = .ok b) : ∃ a, x = .ok a ∧ f a = .ok b := by
  cases x with
  | error e => cases h
  | ok a => exact ⟨a, rfl, h⟩

/-- What the steps of filling keep holds at the end of every course. -/
theorem store_induction {motive : Supply → SummaryStore → Prop}
    (nothing : motive nothing .empty)
    (records : ∀ {list s}, SummaryStore.ofRecords list = .ok s → motive (.records list) s)
    (addFlow : ∀ {before s} className flow, motive before s →
      motive (.addFlow before className flow) (s.addFlow className flow))
    (addClass : ∀ {before s} className flows, motive before s →
      motive (.addClass before className flows) (s.addClass className flows))
    (declare : ∀ {before s} className, motive before s →
      motive (.declare before className) (s.declare className))
    (merge : ∀ {before other s t}, motive before s → motive other t →
      motive (.merge before other) (s.merge t))
    {supply : Supply} {s : SummaryStore} (h : supply.store = .ok s) : motive supply s := by
  induction supply generalizing s with
  | nothing =>
      obtain rfl : SummaryStore.empty = s := Except.ok.inj h
      exact nothing
  | records list => exact records h
  | addFlow before className flow ih =>
      obtain ⟨t, ht, h⟩ := exists_of_bind_eq_ok h
      obtain rfl : t.addFlow className flow = s := Except.ok.inj h
      exact addFlow className flow (ih ht)
  | addClass before className flows ih =>
      obtain ⟨t, ht, h⟩ := exists_of_bind_eq_ok h
      obtain rfl : t.addClass className flows = s := Except.ok.inj h
      exact addClass className flows (ih ht)
  | declare before className ih =>
      obtain ⟨t, ht, h⟩ := exists_of_bind_eq_ok h
      obtain rfl : t.declare className = s := Except.ok.inj h
      exact declare className (ih ht)
  | merge before other ih ih' =>
      obtain ⟨t, ht, h⟩ := exists_of_bind_eq_ok h
      obtain ⟨u, hu, h⟩ := exists_of_bind_eq_ok h
      obtain rfl : t.merge u = s := Except.ok.inj h
      exact merge (ih ht) (ih' hu)

/-- A store has the pairs that its course gave. -/
theorem hasPair_iff {supply : Supply} {s : SummaryStore} (h : supply.store = .ok s) {c : String}
    {f : Flow} : s.HasPair c f ↔ supply.Gives c f := by
  refine store_induction (motive := fun supply s => s.HasPair c f ↔ supply.Gives c f) ?nothing
    (fun hread => SummaryStore.hasPair_ofRecords hread) ?addFlow ?addClass (fun _ ih => ih) ?merge h
  case nothing => exact iff_of_false (SummaryStore.not_hasPair_empty c f) id
  case addFlow =>
    intro before s className flow ih
    rw [SummaryStore.hasPair_addFlow, ih, Gives]
  case addClass =>
    intro before s className flows ih
    rw [SummaryStore.hasPair_addClass, ih, Gives]
  case merge =>
    intro before other s t ih ih'
    rw [SummaryStore.hasPair_merge, ih, ih', Gives]

end Supply

/-- A store answers the queries about flows from pairs of classes and flows. Under a
method of a class there are the flows of this method that are paired with the class, and
the two paths to them agree. -/
structure SummaryStore.AnswersFrom (s : SummaryStore) (pairs : String → Flow → Prop) : Prop where
  filed : ∀ c flows m found, s.summaries.find? c = some flows → flows.flowsForMethod? m = some found →
    ∀ f, f ∈ found ↔ pairs c f ∧ f.method = m
  classMethodFlows : ∀ c m f, f ∈ s.classMethodFlows c m ↔ pairs c f ∧ f.method = m
  listed : ∀ cs m c, c ∈ (s.methodFlows cs m).classes ↔ c ∈ cs ∧ ∃ f, pairs c f ∧ f.method = m
  classFlows : ∀ cs m c left, (s.methodFlows cs m).find? c = some left →
    left.flowsForMethod? m = some (s.classMethodFlows c m) ∧
      ∀ f, f ∈ left.allFlows ↔ pairs c f ∧ f.method = m
  allFlows : ∀ cs m f, f ∈ (s.methodFlows cs m).allFlows ↔ ∃ c ∈ cs, pairs c f ∧ f.method = m
  allFlowsForMethod : ∀ cs m f,
    f ∈ (s.methodFlows cs m).allFlowsForMethod m ↔ ∃ c ∈ cs, pairs c f ∧ f.method = m

theorem SummaryStore.answersFrom (s : SummaryStore) : s.AnswersFrom s.HasPair where
  filed c flows m found hflows hfound f := by
    rw [MethodSummaries.mem_iff_of_flowsForMethod? hfound]
    refine and_congr_left fun _ => ⟨fun hall => ⟨flows, hflows, hall⟩, ?_⟩
    rintro ⟨others, hothers, hall⟩
    cases hflows.symm.trans hothers
    exact hall
  classMethodFlows _ _ _ := mem_classMethodFlows_iff
  listed _ _ _ := mem_classes_methodFlows
  classFlows cs m c left hleft := by
    refine ⟨flowsForMethod?_of_methodFlows hleft, fun f => ?_⟩
    rw [find?_methodFlows] at hleft
    obtain ⟨-, hleft⟩ := Option.ite_none_right_eq_some.1 hleft
    obtain ⟨flows, hflows, rfl, -⟩ := filtered?_eq_some_iff.1 hleft
    rw [← mem_classMethodFlows_iff, classMethodFlows, hflows, Option.bind_some,
      MethodSummaries.mem_getD_flowsForMethod?, MethodSummaries.mem_allFlows_filterMethod]
  allFlows cs m f := by simp only [ClassSummaries.mem_allFlows_iff, hasPair_methodFlows]
  allFlowsForMethod cs m f := by
    simp only [ClassSummaries.mem_allFlowsForMethod_iff, ClassSummaries.mem_allFlows_iff,
      hasPair_methodFlows]
    grind

/-- A store is a set of pairs of a class and a flow. After any course of filling its
queries answer from the pairs that were given, with every flow under its own method and
the same flows on both paths to a method. Merging is union. Records are refused
exactly if the method of some flow is blank, and neither their order nor their number
matters otherwise. -/
theorem stores_are_sets_of_pairs :
    (∀ supply store, Supply.store supply = .ok store → store.AnswersFrom supply.Gives) ∧
    (∀ s t u : SummaryStore, (s.merge t).UnionOf s t ∧ s.merge t = t.merge s ∧
      (s.merge t).merge u = s.merge (t.merge u) ∧ s.merge s = s) ∧
    (∀ records, (∃ e, SummaryStore.ofRecords records = .error e) ↔
      ∃ r ∈ records, ∃ f ∈ r.flows, Text.isBlankText f.method = true) ∧
    (∀ records others store, (∀ r, r ∈ records ↔ r ∈ others) →
      SummaryStore.ofRecords records = .ok store → SummaryStore.ofRecords others = .ok store) := by
  refine ⟨fun supply store h => ?_, fun s t u => ?_, fun records => ?_,
    fun records others store same h => SummaryStore.ofRecords_congr same h⟩
  · have hpairs : store.HasPair = supply.Gives :=
      funext fun c => funext fun f => propext (supply.hasPair_iff h)
    exact hpairs ▸ store.answersFrom
  · exact ⟨s.unionOf_merge t, s.merge_comm t, s.merge_assoc t u, s.merge_self⟩
  · exact SummaryStore.exists_error_ofRecords

namespace Sample

/-- A flow from the first parameter to the returned value. -/
def passing (method : String) : Flow :=
  ⟨method, .parameter 0 "java.lang.Object", .ofKind .returned "java.lang.Object", false⟩

/-- The flow of one method for two classes, in two records for the one and by merging for
the other, and a class without flows. -/
def supply : Supply :=
  .merge (.records [⟨"lib.Box", [passing "m()"]⟩, ⟨"lib.Box", [passing "n()", passing "m()"]⟩])
    (.declare (.addClass (.addFlow .nothing "lib.Map" (passing "m()")) "lib.Set" .empty)
      "lib.Map")

theorem supply_is_set_of_pairs :
    (∃ store, supply.store = .ok store ∧
      passing "m()" ∈ store.classMethodFlows "lib.Map" "m()" ∧
      ¬ "lib.Set" ∈ (store.methodFlows (.ofList ["lib.Set", "lib.Box"]) "m()").classes) ∧
    (∃ store, SummaryStore.ofRecords [⟨"lib.Box", []⟩, ⟨"lib.Map", [passing "m()"]⟩] = .ok store ∧
      SummaryStore.ofRecords
        [⟨"lib.Map", [passing "m()"]⟩, ⟨"lib.Box", []⟩, ⟨"lib.Map", [passing "m()"]⟩] =
          .ok store) ∧
    ∃ e, SummaryStore.ofRecords [⟨"lib.Box", [passing "m()", passing " \t"]⟩] = .error e := by
  obtain ⟨hanswers, -, hrefused, horder⟩ := stores_are_sets_of_pairs
  have hstore : supply.store.toOption.isSome = true := by decide +kernel
  obtain ⟨store, hstore⟩ := Option.isSome_iff_exists.1 hstore
  have hstore := eq_ok_of_toOption hstore
  have hfrom := hanswers supply store hstore
  have hrecords : (SummaryStore.ofRecords
      [⟨"lib.Box", []⟩, ⟨"lib.Map", [passing "m()"]⟩]).toOption.isSome = true := by decide +kernel
  obtain ⟨both, hboth⟩ := Option.isSome_iff_exists.1 hrecords
  have hboth := eq_ok_of_toOption hboth
  refine ⟨⟨store, hstore, ?_, ?_⟩, ⟨both, hboth, horder _ _ both (fun r => ?_) hboth⟩, ?_⟩
  · exact (hfrom.classMethodFlows _ _ _).2 ⟨.inr (.inl (.inr ⟨rfl, rfl⟩)), rfl⟩
  · rw [hfrom.listed]
    rintro ⟨-, f, hgives, -⟩
    simp [supply, Supply.Gives] at hgives
  · simp only [List.mem_cons, List.not_mem_nil]
    grind
  · exact (hrefused _).2 ⟨_, List.mem_cons_self, passing " \t", by simp, by decide +kernel⟩

end Sample

end TaintReplay
