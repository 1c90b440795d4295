import TaintReplay.Proofs.ArrangedPrograms
import TaintReplay.Proofs.LinkRelation
import TaintReplay.Proofs.ProgramParts

/-!
# Down the hierarchy and up again

A walk upwards follows every link. A walk downwards looks where it stands: from an interface
it goes to the classes that implement it and to the interfaces that extend it, from a class to
the classes that extend it. Where links are of the kinds that declarations have
(`Hierarchy.WellKinded`), this leaves out the interfaces below the root class and nothing else.
So below any other type the two walks agree, also where links go round in circles or the type
is not known.

## Main results

* `Hierarchy.WellKinded.mem_below_iff`: below a type other than the root class every link is
  followed.
* `Hierarchy.WellKinded.mem_descendants_iff`: what is found below such a type are its subtypes.
* `walks_down_find_subtypes`: the classes of the values of a type and the methods that may run
  for a method are those of the subtypes.
-/

namespace TaintReplay

open Relation

/-! ## Well-kinded hierarchies -/

namespace Hierarchy

variable {h : Hierarchy} {name child : String}

/-- Links are of the kinds that a declaration can have: classes extend classes and interfaces
extend interfaces or, if they extend nothing, the root class; classes implement interfaces.
The root class has no parent. -/
structure WellKinded (h : Hierarchy) : Prop where
  extension : ∀ l ∈ h.links, l.kind = .extension →
    h.isInterface l.child = h.isInterface l.parent ∨
      h.isInterface l.child = true ∧ l.parent = JavaType.objectName
  implementation : ∀ l ∈ h.links, l.kind = .implementation →
    h.isInterface l.child = false ∧ h.isInterface l.parent = true
  root : ∀ l ∈ h.links, l.child ≠ JavaType.objectName

/-- Below a type other than the root class the walk follows every link. -/
theorem WellKinded.mem_below_iff (hkinds : h.WellKinded) (hname : name ≠ JavaType.objectName) :
    child ∈ h.below name ↔ h.IsParent child name := by
  refine ⟨isParent_of_mem_below, ?_⟩
  rintro ⟨kind, hlink⟩
  unfold below implementers subinterfaces subclasses
  cases kind with
  | implementation =>
      obtain ⟨hchild, hparent⟩ := hkinds.implementation _ hlink rfl
      rw [if_pos hparent]
      exact List.mem_append_left _ (mem_children_iff.2 ⟨hlink, hchild⟩)
  | extension =>
      -- an interface below the root class is the one case that the walk leaves out
      have hsame : h.isInterface child = h.isInterface name := by
        rcases hkinds.extension _ hlink rfl with hsame | ⟨-, hroot⟩
        · exact hsame
        · exact absurd hroot hname
      split
      · rename_i hinterface
        exact List.mem_append_right _ (mem_children_iff.2 ⟨hlink, hsame.trans hinterface⟩)
      · rename_i hclass
        exact mem_children_iff.2 ⟨hlink, hsame.trans (Bool.eq_false_iff.2 hclass)⟩

/-- What is below a type other than the root class are its subtypes. -/
theorem WellKinded.mem_descendants_iff (hkinds : h.WellKinded)
    (hname : name ≠ JavaType.objectName) :
    child ∈ h.descendants name ↔ h.isSubtype child name = true := by
  rw [mem_descendants_iff_below, isSubtype_iff_reflTransGen]
  constructor
  · intro hchain
    have hlinks : ReflTransGen (Function.swap h.IsParent) name child :=
      ReflTransGen.mono (fun _ _ hbelow => isParent_of_mem_below hbelow) _ _ hchain
    exact reflTransGen_swap.1 hlinks
  · intro hchain
    induction hchain using ReflTransGen.head_induction_on with
    | refl => exact .refl
    | head hlink hrest ih =>
        rename_i child parent
        -- the parent is the type itself or has a parent, so it is not the root class
        have hparent : parent ≠ JavaType.objectName := by
          rcases ReflTransGen.cases_head hrest with rfl | ⟨_, ⟨kind, hnext⟩, -⟩
          · exact hname
          · exact hkinds.root _ hnext
        exact ih.tail ((hkinds.mem_below_iff hparent).2 hlink)

end Hierarchy

/-! ## Methods below a class -/

namespace Program

variable {p : Program} {h : Hierarchy} {m : Method}

/-- In a class without a colon in its name, the method with a sub-signature is found. -/
theorem Built.findMethodInClass?_eq_some_iff (hbuilt : p.Built) {cls sub : String} {id : MethodId}
    (hcls : ':' ∉ cls.toList) :
    p.findMethodInClass? cls sub = some id ↔
      ∃ n, p.method? id = some n ∧ n.className = cls ∧ n.subSignature = sub := by
  rw [findMethodInClass?, hbuilt.findText?_eq_some_iff]
  refine exists_congr fun n => and_congr_right fun hn => ?_
  constructor
  · exact (hbuilt.declared n (mem_methods hn)).legible.of_render_eq hcls
  · rintro ⟨rfl, rfl⟩
    rfl

/-- The methods that may run for a method are those with its sub-signature in its class and
below. -/
theorem Built.mem_implementors_iff (hbuilt : p.Built) (hlegible : h.Legible) (hm : m ∈ p.methods)
    {id : MethodId} :
    id ∈ p.implementors h m ↔
      ∃ n, p.method? id = some n ∧ n.subSignature = m.subSignature ∧
        n.className ∈ h.descendants m.className := by
  have hfree : ∀ cls ∈ h.descendants m.className, ':' ∉ cls.toList := by
    intro cls hcls
    rcases Hierarchy.mem_descendants hcls with rfl | hknown
    · exact (hbuilt.declared m hm).legible.className
    · exact hlegible cls hknown
  rw [implementors, OrdSet.mem_ofList, List.mem_filterMap]
  constructor
  · rintro ⟨cls, hcls, hfound⟩
    obtain ⟨n, hn, rfl, hsub⟩ := (hbuilt.findMethodInClass?_eq_some_iff (hfree cls hcls)).1 hfound
    exact ⟨n, hn, hsub, hcls⟩
  · rintro ⟨n, hn, hsub, hcls⟩
    exact ⟨n.className, hcls,
      (hbuilt.findMethodInClass?_eq_some_iff (hfree _ hcls)).2 ⟨n, hn, rfl, hsub⟩⟩

end Program

/-- **Walks down find what walks up find.** The walk downwards ends in every hierarchy whose
links are of the right kinds, cyclic or not. For a type other than the root class, known or
not, the classes that its values may have are the classes among its subtypes, and the methods
that may run for a method of such a type are those of its sub-signature that a subtype
declares. -/
theorem walks_down_find_subtypes {h : Hierarchy} (hkinds : h.WellKinded) :
    (∀ name, Graph.Walk h.below [name] [] (h.descendants name)) ∧
      (∀ name, name ≠ JavaType.objectName → ∀ cls, cls ∈ h.instanceClasses name ↔
        h.isInterface cls = false ∧ (cls = name ∨ h.isSubtype cls name = true)) ∧
      ∀ p : Program, p.Built → h.Legible → ∀ id m, p.method? id = some m →
        m.className ≠ JavaType.objectName → ∀ other, other ∈ p.implementors h m ↔
          ∃ n, p.method? other = some n ∧ n.subSignature = m.subSignature ∧
            (n.className = m.className ∨ h.isSubtype n.className m.className = true) := by
  have hself : ∀ cls name,
      cls = name ∨ h.isSubtype cls name = true ↔ h.isSubtype cls name = true := by
    intro cls name
    rw [Hierarchy.isSubtype_iff, ← or_assoc, or_self]
  refine ⟨h.walk_descendants, fun name hname cls => ?_, ?_⟩
  · rw [Hierarchy.instanceClasses, OrdSet.mem_ofList, List.mem_filter,
      hkinds.mem_descendants_iff hname, hself, and_comm, Bool.not_eq_true']
  · intro p hbuilt hlegible id m hm hname other
    rw [hbuilt.mem_implementors_iff hlegible (Program.mem_methods hm)]
    simp only [hkinds.mem_descendants_iff hname, hself]

namespace Sample

/-- Two interfaces that extend each other, a class that implements one of them, and a class
that extends this class and is extended by it. -/
def entwined : Hierarchy :=
  .after [.define "Source" .interface, .define "Filter" .interface, .define "Reader" .abstract,
    .define "FileReader" .concrete, .link "Filter" "Source" .extension,
    .link "Source" "Filter" .extension, .link "Source" JavaType.objectName .extension,
    .link "Reader" "Filter" .implementation, .link "FileReader" "Reader" .extension,
    .link "Reader" "FileReader" .extension]

/-- The method of an interface, a method of a class below it, and one of a class that is not
known. -/
def readers : Program :=
  .after [.method "<Source: int read()>" false true, .method "<FileReader: int read()>" false false,
    .method "<Socket: int read()>" false false]

theorem wellKinded_entwined : entwined.WellKinded where
  extension := by decide +kernel
  implementation := by decide +kernel
  root := by decide +kernel

theorem legible_entwined : entwined.Legible := by
  have hnames : ∀ name ∈ entwined.nodes.map (·.name), ':' ∉ name.toList := by decide +kernel
  intro name hname
  exact hnames name (Hierarchy.contains_iff.1 hname)

/-- The walk down ends although there are two circles, and finds the class behind them with its
method, but no interface and no class that only has the same method. -/
theorem entwined_walks_find_subtypes :
    let source : Method := ⟨⟨1⟩, ⟨"Source", "int", "read", []⟩, false, true, some ⟨1⟩, [], []⟩
    entwined.WellKinded ∧ entwined.Legible ∧ readers.Built ∧
      readers.method? ⟨1⟩ = some source ∧
      Graph.Walk entwined.below ["Source"] [] ["Source", "Filter", "Reader", "FileReader"] ∧
      "FileReader" ∈ entwined.instanceClasses "Source" ∧
      "Reader" ∈ entwined.instanceClasses "FileReader" ∧
      ¬ "Filter" ∈ entwined.instanceClasses "Source" ∧
      "Socket" ∈ entwined.instanceClasses "Socket" ∧
      ⟨2⟩ ∈ readers.implementors entwined source ∧
      ¬ ⟨3⟩ ∈ readers.implementors entwined source := by
  intro source
  have hbuilt : readers.Built := Program.built_after _
  have hsource : readers.method? ⟨1⟩ = some source := by decide +kernel
  have hdescendants :
      entwined.descendants "Source" = ["Source", "Filter", "Reader", "FileReader"] := by
    decide +kernel
  obtain ⟨hwalk, hclasses, hmethods⟩ := walks_down_find_subtypes wellKinded_entwined
  have hmethods := hmethods readers hbuilt legible_entwined ⟨1⟩ source hsource (by decide)
  refine ⟨wellKinded_entwined, legible_entwined, hbuilt, hsource, hdescendants ▸ hwalk "Source",
    ?_, ?_, ?_, ?_, ?_, ?_⟩
  · exact (hclasses "Source" (by decide) _).2 ⟨by decide +kernel, .inr (by decide +kernel)⟩
  · exact (hclasses "FileReader" (by decide) _).2 ⟨by decide +kernel, .inr (by decide +kernel)⟩
  · intro hfilter
    have hinterface : entwined.isInterface "Filter" = true := by decide +kernel
    rw [((hclasses "Source" (by decide) _).1 hfilter).1] at hinterface
    cases hinterface
  · exact (hclasses "Socket" (by decide) _).2 ⟨by decide +kernel, .inl rfl⟩
  · exact (hmethods _).2 ⟨⟨⟨2⟩, ⟨"FileReader", "int", "read", []⟩, false, false, some ⟨2⟩, [], []⟩,
      by decide +kernel, by decide +kernel, .inr (by decide +kernel)⟩
  · intro hsocket
    obtain ⟨n, hn, -, hclass⟩ := (hmethods _).1 hsocket
    have hname : (readers.method? ⟨3⟩).map (·.className) = some "Socket" := by decide +kernel
    rw [hn, Option.map_some, Option.some.injEq] at hname
    rw [hname] at hclass
    revert hclass
    decide +kernel

end Sample

end TaintReplay
