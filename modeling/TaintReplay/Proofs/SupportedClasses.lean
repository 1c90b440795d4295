import TaintReplay.Proofs.SummaryPairs

/-!
# Supported and loadable classes

A class is supported if it has an entry, and an entry is made by whatever is added for the class:
a flow, a record with flows, or a set of flows that may be empty. So a class can be supported
though it has no flow. It was added *bare* (`Supply.AddsBare`), in the course of the store itself
or in that of a store merged into it, and given no flow since. Apart from this the two lists of
classes are what they should be: the supported classes are those with a flow, and the loadable
classes are those that were declared and have none.

## Main results

* `Supply.mem_classes_iff`, `Supply.mem_declared_iff`: which classes have an entry after a
  course, and which are declared.
* `classes_are_supported_by_flows_or_bare`: the supported and the loadable classes after any
  course of filling, and when bare classes show.
-/

namespace TaintReplay

namespace SummaryStore

variable {s : SummaryStore} {className : String}

/-- The store has a flow of some method of the class. -/
def HasFlows (s : SummaryStore) (className : String) : Prop :=
  ∃ subSignature, (s.classMethodFlows className subSignature).isEmpty = false

/-- A class has flows if it has one of whatever method. -/
theorem hasFlows_iff : s.HasFlows className ↔ ∃ flow, s.HasPair className flow := by
  simp only [HasFlows, OrdSet.isEmpty_eq_false_iff, mem_classMethodFlows_iff]
  constructor
  · rintro ⟨_, flow, hpair, -⟩
    exact ⟨flow, hpair⟩
  · rintro ⟨flow, hpair⟩
    exact ⟨flow.method, flow, hpair, rfl⟩

theorem not_mem_classes_empty (className : String) : className ∉ empty.summaries.classes := by
  rw [ClassSummaries.mem_classes_iff]
  rintro ⟨flows, hnone⟩
  cases hnone

/-- Records make entries for the classes that they have flows for. -/
theorem mem_classes_ofRecords {records : List Record} (h : ofRecords records = .ok s) :
    className ∈ s.summaries.classes ↔ ∃ r ∈ records, r.className = className ∧ r.flows ≠ [] := by
  rw [← foldl_withRecord_of_ofRecords h, (fold_withRecord records empty).2.1]
  exact or_iff_right (not_mem_classes_empty className)

/-- Records declare their classes. -/
theorem mem_declared_ofRecords {records : List Record} (h : ofRecords records = .ok s) :
    className ∈ s.declared ↔ ∃ r ∈ records, r.className = className := by
  rw [← foldl_withRecord_of_ofRecords h, (fold_withRecord records empty).2.2]
  exact or_iff_right (OrdSet.not_mem_empty className)

end SummaryStore

namespace Supply

/-- A course adds a class with an empty set of flows. -/
def AddsBare : Supply → String → Prop
  | nothing, _ => False
  | .records _, _ => False
  | addFlow before _ _, c => before.AddsBare c
  | addClass before className flows, c => before.AddsBare c ∨ c = className ∧ flows.isEmpty = true
  | declare before _, c => before.AddsBare c
  | merge before other, c => before.AddsBare c ∨ other.AddsBare c

/-- A course declares a class to be loadable. -/
def Declares : Supply → String → Prop
  | nothing, _ => False
  | .records list, c => ∃ r ∈ list, r.className = c
  | addFlow before _ _, c => before.Declares c
  | addClass before _ _, c => before.Declares c
  | declare before className, c => before.Declares c ∨ c = className
  | merge before other, c => before.Declares c ∨ other.Declares c

variable {supply : Supply} {s : SummaryStore} {c : String}

/-- The classes with an entry are those with a flow and those that were added bare. -/
theorem mem_classes_iff (h : supply.store = .ok s) :
    c ∈ s.summaries.classes ↔ (∃ f, supply.Gives c f) ∨ supply.AddsBare c := by
  refine store_induction (motive := fun supply s => c ∈ s.summaries.classes ↔
    (∃ f, supply.Gives c f) ∨ supply.AddsBare c) ?nothing ?records ?addFlow ?addClass
    (fun _ ih => ih) ?merge h
  case nothing => simp [SummaryStore.not_mem_classes_empty, Gives, AddsBare]
  case records =>
    intro list s hread
    rw [SummaryStore.mem_classes_ofRecords hread]
    constructor
    · rintro ⟨r, hr, hname, hne⟩
      obtain ⟨f, hf⟩ := List.exists_mem_of_ne_nil _ hne
      exact .inl ⟨f, r, hr, hname, hf⟩
    · rintro (⟨f, r, hr, hname, hf⟩ | hbare)
      · exact ⟨r, hr, hname, List.ne_nil_of_mem hf⟩
      · exact hbare.elim
  case addFlow =>
    intro before s className flow ih
    rw [SummaryStore.mem_classes_addFlow, ih]
    simp only [Gives, AddsBare]
    grind
  case addClass =>
    intro before s className flows ih
    rw [SummaryStore.mem_classes_addClass, ih]
    simp only [Gives, AddsBare, exists_or]
    -- the flows that are added are either none, or one of them is given
    cases hempty : flows.isEmpty with
    | true =>
        rw [MethodSummaries.isEmpty_iff] at hempty
        simp only [hempty, and_false, exists_false, or_false, and_true, or_assoc]
    | false =>
        obtain ⟨flow, hflow⟩ := MethodSummaries.isEmpty_eq_false_iff.1 hempty
        grind
  case merge =>
    intro before other s t ih ih'
    rw [SummaryStore.mem_classes_merge, ih, ih']
    simp only [Gives, AddsBare]
    grind

/-- The classes that a course declares are those of its store. -/
theorem mem_declared_iff (h : supply.store = .ok s) : c ∈ s.declared ↔ supply.Declares c := by
  refine store_induction (motive := fun supply s => c ∈ s.declared ↔ supply.Declares c) ?nothing
    (fun hread => SummaryStore.mem_declared_ofRecords hread) (fun _ _ ih => ih) (fun _ _ ih => ih)
    ?declare ?merge h
  case nothing => exact iff_of_false (OrdSet.not_mem_empty c) id
  case declare =>
    intro before s className ih
    rw [SummaryStore.declare, OrdSet.mem_insert, ih, Declares, or_comm]
  case merge =>
    intro before other s t ih ih'
    rw [SummaryStore.mem_declared_merge, ih, ih', Declares]

end Supply

/-- **Classes are supported by their flows, or bare.** After any course of filling a class is
supported exactly if it has flows or was added bare. No class is both supported and loadable, and
a class is loadable exactly if it was declared, has no flows and was not added bare. So the
supported classes are those with flows, and the loadable classes those declared without, exactly
if each class that was added bare has flows. -/
theorem classes_are_supported_by_flows_or_bare (supply : Supply) (store : SummaryStore)
    (h : supply.store = .ok store) :
    (∀ c, store.supports c = true ↔ store.HasFlows c ∨ supply.AddsBare c) ∧
    (∀ c, c ∈ store.supportedClasses ↔ store.supports c = true) ∧
    (∀ c, ¬ (c ∈ store.supportedClasses ∧ c ∈ store.loadableClasses)) ∧
    (∀ c, c ∈ store.loadableClasses ↔
      supply.Declares c ∧ ¬ store.HasFlows c ∧ ¬ supply.AddsBare c) ∧
    ((∀ c, (store.supports c = true ↔ store.HasFlows c) ∧
        (c ∈ store.loadableClasses ↔ supply.Declares c ∧ ¬ store.HasFlows c)) ↔
      ∀ c, supply.AddsBare c → store.HasFlows c) := by
  have hclasses : ∀ c, c ∈ store.summaries.classes ↔ store.HasFlows c ∨ supply.AddsBare c := by
    intro c
    simp only [Supply.mem_classes_iff h, SummaryStore.hasFlows_iff, Supply.hasPair_iff h]
  have hloadable : ∀ c, c ∈ store.loadableClasses ↔
      supply.Declares c ∧ ¬ store.HasFlows c ∧ ¬ supply.AddsBare c := by
    intro c
    rw [SummaryStore.mem_loadableClasses_iff, Supply.mem_declared_iff h, hclasses, not_or]
  refine ⟨fun c => SummaryStore.supports_iff.trans (hclasses c),
    fun c => SummaryStore.supports_iff.symm, fun c => ?_, hloadable, ?_⟩
  · rintro ⟨hsupported, hlisted⟩
    exact (SummaryStore.mem_loadableClasses_iff.1 hlisted).2 hsupported
  · simp only [SummaryStore.supports_iff, hclasses, hloadable]
    grind

namespace Sample

/-- A class that is declared and then added without flows. -/
def bareCourse : Supply := .addClass (.declare .nothing "lib.Box") "lib.Box" .empty

/-- The bare class is supported without any flow, and not loadable though it was declared. -/
theorem bareCourse_supported_without_flows :
    ∃ store, bareCourse.store = .ok store ∧ store.supports "lib.Box" = true ∧
      ¬ store.HasFlows "lib.Box" ∧ bareCourse.Declares "lib.Box" ∧
      "lib.Box" ∉ store.loadableClasses := by
  refine ⟨_, rfl, by decide +kernel, ?_, .inr rfl, by decide +kernel⟩
  rw [SummaryStore.hasFlows_iff]
  rintro ⟨flow, hpair⟩
  rw [Supply.hasPair_iff (show bareCourse.store = .ok _ from rfl)] at hpair
  simp [bareCourse, Supply.Gives] at hpair

/-- A record with flows and one without, merged with a store in which a class was added bare and
given a flow later. -/
def fullCourse : Supply :=
  .merge (.records [⟨"lib.Box", [passing "m()"]⟩, ⟨"lib.Map", []⟩])
    (.addFlow (.addClass .nothing "lib.Set" .empty) "lib.Set" (passing "n()"))

/-- No bare class shows after the full course. -/
theorem fullCourse_supported_by_flows :
    ∃ store, fullCourse.store = .ok store ∧
      (∀ c, store.supports c = true ↔ store.HasFlows c) ∧
      store.supports "lib.Set" = true ∧ "lib.Map" ∈ store.loadableClasses := by
  have hstore : fullCourse.store.toOption.isSome = true := by decide +kernel
  obtain ⟨store, hstore⟩ := Option.isSome_iff_exists.1 hstore
  have hstore := eq_ok_of_toOption hstore
  obtain ⟨hsupported, -, -, -, hfull⟩ :=
    classes_are_supported_by_flows_or_bare fullCourse store hstore
  have hbare : ∀ c, fullCourse.AddsBare c → store.HasFlows c := by
    rintro c (hnone | hnone | ⟨rfl, -⟩)
    · exact hnone.elim
    · exact hnone.elim
    · rw [SummaryStore.hasFlows_iff]
      exact ⟨passing "n()", (Supply.hasPair_iff hstore).2 (.inr (.inr ⟨rfl, rfl⟩))⟩
  have hmap : ¬ store.HasFlows "lib.Map" := by
    rw [SummaryStore.hasFlows_iff]
    rintro ⟨flow, hpair⟩
    rw [Supply.hasPair_iff hstore] at hpair
    simp [fullCourse, Supply.Gives] at hpair
  refine ⟨store, hstore, fun c => (hfull.2 hbare c).1, ?_, ?_⟩
  · exact (hsupported _).2 (.inr (.inr (.inr ⟨rfl, by decide +kernel⟩)))
  · exact (hfull.2 hbare "lib.Map").2.2 ⟨.inl ⟨⟨"lib.Map", []⟩, by simp, rfl⟩, hmap⟩

end Sample

end TaintReplay
