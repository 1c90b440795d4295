import Mathlib.Data.Finset.Card
import TaintReplay.Proofs.Descents

/-!
# Closing a hierarchy

Closing gives the root class as a parent to every type that has none. In an acyclic hierarchy
every way up ends in a type without a parent, so afterwards all types are below the root class
if one looks upwards. A link that closing adds is of use only to what leads on from the root
class, so nothing else changes, and closing again finds nothing to do.

Looking downwards is another matter. From a class the walk follows extensions only, and a class
that implements an interface has a parent, so closing leaves it alone. If it extends nothing it
is a subtype of the root class by way of its interfaces, and is not found below it
(`Sample.implementor_missed_below_root`). What is found are the classes with a superclass, near
or far, that has no parent at all.

## Main results

* `Hierarchy.Acyclic.exists_end`: in an acyclic hierarchy every way up comes to an end.
* `Hierarchy.isSubtype_close_iff`: which types are subtypes after closing.
* `closing_completes_upwards`: all types become subtypes of the root class, and closing does
  nothing else.
* `Hierarchy.mem_descendants_of_class`: what is found below a class.
* `closing_completes_superclasses`: which classes are found below the root class after closing.
-/

namespace TaintReplay

open Relation

/-- Where steps to one name are added, a way is as before, or it goes to one of the places that
got such a step and on from that name. -/
theorem Graph.reflTransGen_step_to_iff {α : Type} {step : α → α → Prop} {loose : α → Prop}
    {root a b : α} :
    ReflTransGen (fun x y => step x y ∨ loose x ∧ y = root) a b ↔
      ReflTransGen step a b ∨
        (∃ top, loose top ∧ ReflTransGen step a top) ∧ ReflTransGen step root b := by
  constructor
  · intro hway
    induction hway with
    | refl => exact .inl .refl
    | tail _ hlast ih =>
        rcases hlast with hstep | ⟨hloose, rfl⟩
        · exact ih.imp (·.tail hstep) (And.imp_right (·.tail hstep))
        · rcases ih with hbefore | ⟨htop, -⟩
          · exact .inr ⟨⟨_, hloose, hbefore⟩, .refl⟩
          · exact .inr ⟨htop, .refl⟩
  · have hkept : ∀ {x y}, ReflTransGen step x y →
        ReflTransGen (fun x y => step x y ∨ loose x ∧ y = root) x y :=
      fun hway => ReflTransGen.mono (fun _ _ => .inl) _ _ hway
    rintro (hbefore | ⟨⟨top, hloose, hup⟩, hon⟩)
    · exact hkept hbefore
    · exact ((hkept hup).tail (.inr ⟨hloose, rfl⟩)).trans (hkept hon)

variable {h : Hierarchy} {name child parent : String}

namespace Hierarchy

/-! ## Acyclic hierarchies -/

/-- No chain of links leads from a type back to it. -/
def Acyclic (h : Hierarchy) : Prop := ∀ name, ¬ TransGen h.IsParent name name

/-- A hierarchy is acyclic if no parent is a subtype of its child. -/
theorem acyclic_iff : h.Acyclic ↔ ∀ l ∈ h.links, ¬ h.isSubtype l.parent l.child = true := by
  simp only [isSubtype_iff_reflTransGen]
  constructor
  · intro hacyclic l hl hback
    exact hacyclic l.child (TransGen.head' ⟨l.kind, hl⟩ hback)
  · intro hlinks name hcycle
    obtain ⟨next, ⟨kind, hl⟩, hback⟩ := TransGen.head'_iff.1 hcycle
    exact hlinks _ hl hback

instance : Decidable h.Acyclic := decidable_of_iff _ acyclic_iff.symm

/-- In an acyclic hierarchy a type has an ancestor more than each of its parents, namely
itself. -/
theorem Acyclic.card_ancestors_lt (hacyclic : h.Acyclic) (hparent : h.IsParent child parent) :
    (h.ancestors parent).toFinset.card < (h.ancestors child).toFinset.card := by
  have hchild : h.contains child = true := contains_of_isParent hparent
  refine Finset.card_lt_card ((Finset.ssubset_iff_of_subset fun name hname => ?_).2 ⟨child, ?_, ?_⟩)
  · rw [List.mem_toFinset, mem_ancestors_iff] at hname ⊢
    exact ⟨hchild, hname.2.head hparent⟩
  · rw [List.mem_toFinset, mem_ancestors_iff]
    exact ⟨hchild, .refl⟩
  · rw [List.mem_toFinset, mem_ancestors_iff]
    exact fun hback => hacyclic child (TransGen.head' hparent hback.2)

theorem Acyclic.wellFounded (hacyclic : h.Acyclic) : WellFounded (Function.swap h.IsParent) :=
  Subrelation.wf hacyclic.card_ancestors_lt
    (measure fun name => (h.ancestors name).toFinset.card).wf

/-- Going up along links, or along some of them, comes to an end. -/
theorem Acyclic.exists_end (hacyclic : h.Acyclic) {up : String → String → Prop}
    (hup : ∀ a b, up a b → h.IsParent a b) (name : String) :
    ∃ top, ReflTransGen up name top ∧ ∀ next, ¬ up top next := by
  induction name using hacyclic.wellFounded.induction with
  | h name ih =>
      by_cases hnext : ∃ next, up name next
      · obtain ⟨next, hnext⟩ := hnext
        obtain ⟨top, hchain, hend⟩ := ih next (hup name next hnext)
        exact ⟨top, hchain.head hnext, hend⟩
      · exact ⟨name, .refl, not_exists.1 hnext⟩

/-! ## What closing adds -/

/-- Closing mentions the root class and no other. -/
theorem contains_close : h.close.contains name = true ↔
    name = JavaType.objectName ∨ h.contains name = true := contains_ensure

@[simp]
theorem isInterface_close (h : Hierarchy) (name : String) :
    h.close.isInterface name = h.isInterface name := isInterface_ensure h _ name

/-- Mentioning the root class makes no orphans. -/
theorem orphans_ensure_object (h : Hierarchy) :
    (h.ensure JavaType.objectName).orphans = h.orphans := by
  simp only [orphans, parents_ensure]
  by_cases known : h.contains JavaType.objectName = true
  · rw [ensure_of_known known]
  · rw [ensure_of_new known, addNode, List.map_append, List.filter_append]
    simp

theorem links_close (h : Hierarchy) :
    h.close.links =
      h.links ++ h.orphans.map fun name => ⟨name, JavaType.objectName, .extension⟩ := by
  show (h.ensure _).links ++ (h.ensure _).orphans.map _ = _
  rw [links_ensure, orphans_ensure_object]

theorem isParent_close_iff : h.close.IsParent child parent ↔
    h.IsParent child parent ∨ child ∈ h.orphans ∧ parent = JavaType.objectName := by
  simp only [IsParent, links_close, List.mem_append, List.mem_map, Link.mk.injEq, exists_or]
  grind

theorem parents_eq_nil_iff : h.parents name = [] ↔ ∀ parent, ¬ h.IsParent name parent := by
  simp only [List.eq_nil_iff_forall_not_mem, mem_parents_iff]

/-- The orphans are the known types without parents, but for the root class. -/
theorem mem_orphans_iff_parents : name ∈ h.orphans ↔
    h.contains name = true ∧ name ≠ JavaType.objectName ∧ h.parents name = [] := by
  rw [mem_orphans_iff, contains_iff_standing, parents_eq_nil_iff]

/-- Closing leaves no orphan. -/
theorem orphans_close (h : Hierarchy) : h.close.orphans = [] := by
  rw [List.eq_nil_iff_forall_not_mem]
  intro name hname
  obtain ⟨hknown, hroot, hnone⟩ := mem_orphans_iff_parents.1 hname
  rw [parents_eq_nil_iff] at hnone
  have hbefore : h.parents name = [] :=
    parents_eq_nil_iff.2 fun parent hparent => hnone parent (isParent_close_iff.2 (.inl hparent))
  have horphan : name ∈ h.orphans :=
    mem_orphans_iff_parents.2 ⟨(contains_close.1 hknown).resolve_left hroot, hroot, hbefore⟩
  exact hnone _ (isParent_close_iff.2 (.inr ⟨horphan, rfl⟩))

/-- The index says nothing that the nodes do not say. -/
theorem eq_of_nodes_of_links {g : Hierarchy} (hnodes : g.nodes = h.nodes)
    (hlinks : g.links = h.links) : g = h := by
  have hindex : g.index = h.index := OrdMap.ext_find? fun name => by
    rw [g.indexed, h.indexed, hnodes]
  cases g
  cases h
  cases hnodes
  cases hlinks
  cases hindex
  rfl

/-- Closing again finds nothing to do. -/
theorem close_close (h : Hierarchy) : h.close.close = h.close := by
  refine eq_of_nodes_of_links ?_ ?_
  · show (h.close.ensure JavaType.objectName).nodes = _
    rw [ensure_of_known (contains_close.2 (.inl rfl))]
  · rw [links_close, orphans_close, List.map_nil, List.append_nil]

/-! ## Upwards -/

/-- The subtypes after closing are those before and, of the root class and what is above it,
all types with an orphan above them. -/
theorem isSubtype_close_iff : h.close.isSubtype child parent = true ↔
    h.isSubtype child parent = true ∨
      (∃ top ∈ h.orphans, h.isSubtype child top = true) ∧
        h.isSubtype JavaType.objectName parent = true := by
  have hlinks : h.close.IsParent =
      fun a b => h.IsParent a b ∨ a ∈ h.orphans ∧ b = JavaType.objectName :=
    funext fun a => funext fun b => propext isParent_close_iff
  simp only [isSubtype_iff_reflTransGen, hlinks, Graph.reflTransGen_step_to_iff]

/-- A chain of links from a known type leads to known types. -/
theorem contains_of_isSubtype (hchild : h.contains child = true)
    (hsubtype : h.isSubtype child parent = true) : h.contains parent = true := by
  rcases (isSubtype_iff_reflTransGen.1 hsubtype).cases_tail with rfl | ⟨_, -, kind, hl⟩
  · exact hchild
  · exact contains_iff.2 (h.linked _ hl).2

/-- Closing an acyclic hierarchy puts every type below the root class. -/
theorem Acyclic.isSubtype_close (hacyclic : h.Acyclic) (hknown : h.close.contains name = true) :
    h.close.isSubtype name JavaType.objectName = true := by
  obtain ⟨top, hchain, hend⟩ := hacyclic.exists_end (fun _ _ hparent => hparent) name
  have hsubtype : h.isSubtype name top = true := isSubtype_iff_reflTransGen.2 hchain
  rw [isSubtype_close_iff]
  by_cases htop : top = JavaType.objectName
  · exact .inl (htop ▸ hsubtype)
  · rcases contains_close.1 hknown with rfl | hbefore
    · exact .inl (isSubtype_iff.2 (.inl rfl))
    · have horphan : top ∈ h.orphans := mem_orphans_iff_parents.2
        ⟨contains_of_isSubtype hbefore hsubtype, htop, parents_eq_nil_iff.2 hend⟩
      exact .inr ⟨⟨top, horphan, hsubtype⟩, isSubtype_iff.2 (.inl rfl)⟩

end Hierarchy

/-- **Closing completes a hierarchy upwards.** After closing, every known type of an acyclic
hierarchy is a subtype of the root class. In any hierarchy, what closing adds are extensions of
the root class, one by each type that had no parent; subtypes stay the same but for those of the
root class and of what is above it, and closing again changes nothing. -/
theorem closing_completes_upwards (h : Hierarchy) :
    (h.Acyclic → ∀ name, h.close.contains name = true →
      h.close.isSubtype name JavaType.objectName = true) ∧
    (∃ orphans : List String,
      h.close.links = h.links ++ orphans.map (⟨·, JavaType.objectName, .extension⟩) ∧
        ∀ name, name ∈ orphans ↔
          h.contains name = true ∧ name ≠ JavaType.objectName ∧ h.parents name = []) ∧
    (∀ child parent, h.isSubtype JavaType.objectName parent = false →
      h.close.isSubtype child parent = h.isSubtype child parent) ∧
    h.close.close = h.close := by
  refine ⟨fun hacyclic name => hacyclic.isSubtype_close,
    ⟨h.orphans, h.links_close, fun name => Hierarchy.mem_orphans_iff_parents⟩,
    fun child parent habove => ?_, h.close_close⟩
  rw [Bool.eq_iff_iff, Hierarchy.isSubtype_close_iff, habove]
  simp

namespace Sample

/-- The root class is only mentioned and has a parent of its own; a class implements an
interface and extends nothing. -/
def rooted : Hierarchy :=
  .after [.ensure JavaType.objectName, .link JavaType.objectName "Any" .extension,
    .define "Port" .interface, .define "Socket" .concrete, .link "Socket" "Port" .implementation]

/-- Closing puts all types below the root class, its own parent included, so that there is a
cycle now; interfaces get no new subtypes. -/
theorem rooted_completed_upwards :
    rooted.Acyclic ∧ ¬ rooted.close.Acyclic ∧
      rooted.isSubtype "Socket" JavaType.objectName = false ∧
      rooted.close.isSubtype "Socket" JavaType.objectName = true ∧
      rooted.close.isSubtype "Any" JavaType.objectName = true ∧
      rooted.close.isSubtype "Any" "Port" = rooted.isSubtype "Any" "Port" ∧
      rooted.close.close = rooted.close := by
  obtain ⟨hup, -, hsame, hagain⟩ := closing_completes_upwards rooted
  have hacyclic : rooted.Acyclic := by decide +kernel
  exact ⟨hacyclic, by decide +kernel, by decide +kernel, hup hacyclic "Socket" (by decide +kernel),
    hup hacyclic "Any" (by decide +kernel), hsame "Any" "Port" (by decide +kernel), hagain⟩

end Sample

namespace Hierarchy

/-! ## Downwards -/

/-- A class extends a type. -/
def IsSubclass (h : Hierarchy) (child parent : String) : Prop :=
  (⟨child, parent, .extension⟩ : Link) ∈ h.links ∧ h.isInterface child = false

theorem IsSubclass.isParent (hsub : h.IsSubclass child parent) : h.IsParent child parent :=
  ⟨_, hsub.1⟩

/-- Below a class the walk follows extensions by classes. -/
theorem mem_below_of_class (hclass : h.isInterface name = false) :
    child ∈ h.below name ↔ h.IsSubclass child name := by
  rw [below, hclass, if_neg Bool.false_ne_true, subclasses, mem_children_iff, IsSubclass]

/-- What is found below a class are the classes that extend it, directly or not. -/
theorem mem_descendants_of_class (hclass : h.isInterface name = false) :
    child ∈ h.descendants name ↔ ReflTransGen h.IsSubclass child name := by
  rw [mem_descendants_iff_below]
  constructor
  · intro hway
    -- on its way down the walk never comes to an interface
    have hboth : ReflTransGen h.IsSubclass child name ∧ h.isInterface child = false := by
      induction hway with
      | refl => exact ⟨.refl, hclass⟩
      | tail _ hlast ih =>
          have hsub := (mem_below_of_class ih.2).1 hlast
          exact ⟨ih.1.head hsub, hsub.2⟩
    exact hboth.1
  · intro hchain
    induction hchain using ReflTransGen.head_induction_on with
    | refl => exact .refl
    | head hfirst hrest ih =>
        rename_i child parent
        have hparent : h.isInterface parent = false := by
          rcases hrest.cases_head with rfl | ⟨_, hnext, -⟩
          · exact hclass
          · exact hnext.2
        exact ih.tail ((mem_below_of_class hparent).2 hfirst)

/-- The root class is a class, and classes extend classes. -/
structure SuperclassesAreClasses (h : Hierarchy) : Prop where
  root : h.isInterface JavaType.objectName = false
  extension : ∀ l ∈ h.links, l.kind = .extension →
    h.isInterface l.child = false → h.isInterface l.parent = false

theorem SuperclassesAreClasses.isInterface_of_chain (hclasses : h.SuperclassesAreClasses)
    (hname : h.isInterface name = false) {top : String}
    (hchain : ReflTransGen h.IsSubclass name top) : h.isInterface top = false := by
  induction hchain with
  | refl => exact hname
  | tail _ hlast ih => exact hclasses.extension _ hlast.1 rfl ih

theorem isSubclass_close_iff : h.close.IsSubclass child parent ↔
    h.IsSubclass child parent ∨
      (child ∈ h.orphans ∧ h.isInterface child = false) ∧ parent = JavaType.objectName := by
  simp only [IsSubclass, links_close, List.mem_append, List.mem_map, Link.mk.injEq,
    isInterface_close]
  grind

/-- After closing, a class is found below the root class if a superclass of it, or the class
itself, is the root class or has no parent. -/
theorem SuperclassesAreClasses.mem_instanceClasses_close (hclasses : h.SuperclassesAreClasses)
    (hknown : h.close.contains name = true) (hname : h.isInterface name = false) :
    name ∈ h.close.instanceClasses JavaType.objectName ↔
      ∃ top, ReflTransGen h.IsSubclass name top ∧
        (top = JavaType.objectName ∨ h.parents top = []) := by
  have hroot : h.close.isInterface JavaType.objectName = false := by
    rw [isInterface_close, hclasses.root]
  have hlinks : h.close.IsSubclass = fun a b => h.IsSubclass a b ∨
      (a ∈ h.orphans ∧ h.isInterface a = false) ∧ b = JavaType.objectName :=
    funext fun a => funext fun b => propext isSubclass_close_iff
  rw [instanceClasses, OrdSet.mem_ofList, List.mem_filter, mem_descendants_of_class hroot, hlinks,
    Graph.reflTransGen_step_to_iff, isInterface_close, hname]
  simp only [Bool.not_false, and_true]
  constructor
  · rintro (hchain | ⟨⟨top, ⟨horphan, -⟩, hchain⟩, -⟩)
    · exact ⟨_, hchain, .inl rfl⟩
    · exact ⟨top, hchain, .inr (mem_orphans_iff_parents.1 horphan).2.2⟩
  · rintro ⟨top, hchain, htop⟩
    by_cases hobject : top = JavaType.objectName
    · exact .inl (hobject ▸ hchain)
    · rcases contains_close.1 hknown with rfl | hbefore
      · exact .inl .refl
      · have hsubtype : h.isSubtype name top = true := isSubtype_iff_reflTransGen.2
          (ReflTransGen.mono (fun _ _ => IsSubclass.isParent) _ _ hchain)
        have horphan : top ∈ h.orphans := mem_orphans_iff_parents.2
          ⟨contains_of_isSubtype hbefore hsubtype, hobject, htop.resolve_left hobject⟩
        exact .inr ⟨⟨top, ⟨horphan, hclasses.isInterface_of_chain hname hchain⟩, hchain⟩, .refl⟩

end Hierarchy

/-- **Closing completes superclasses.** In an acyclic hierarchy in which classes extend classes,
closing makes the walk down from the root class find a class exactly if going up along
superclasses one comes to the root class or to a class without parents. So all classes are found
exactly if none but the root class has interfaces for its only parents. -/
theorem closing_completes_superclasses {h : Hierarchy} (hclasses : h.SuperclassesAreClasses)
    (hacyclic : h.Acyclic) :
    (∀ cls, h.close.contains cls = true → h.close.isInterface cls = false →
      (cls ∈ h.close.instanceClasses JavaType.objectName ↔
        ∃ top, ReflTransGen h.IsSubclass cls top ∧
          (top = JavaType.objectName ∨ h.parents top = []))) ∧
    ((∀ cls, h.close.contains cls = true → h.close.isInterface cls = false →
        cls ∈ h.close.instanceClasses JavaType.objectName) ↔
      ∀ cls, h.isInterface cls = false → cls ≠ JavaType.objectName → h.parents cls ≠ [] →
        ∃ parent, h.IsSubclass cls parent) := by
  simp only [Hierarchy.isInterface_close]
  have hfound : ∀ cls, h.close.contains cls = true → h.isInterface cls = false →
      (cls ∈ h.close.instanceClasses JavaType.objectName ↔
        ∃ top, ReflTransGen h.IsSubclass cls top ∧
          (top = JavaType.objectName ∨ h.parents top = [])) :=
    fun cls hknown hcls => hclasses.mem_instanceClasses_close hknown hcls
  refine ⟨hfound, fun hall cls hcls hroot hparents => ?_, fun hsuper cls hknown hcls => ?_⟩
  · have hknown : h.contains cls = true := by
      by_contra hunknown
      exact hparents (h.parents_of_unknown hunknown)
    have hbelow := hall cls (Hierarchy.contains_close.2 (.inr hknown)) hcls
    obtain ⟨top, hchain, htop⟩ := (hfound cls (Hierarchy.contains_close.2 (.inr hknown)) hcls).1 hbelow
    rcases hchain.cases_head with rfl | ⟨parent, hsub, -⟩
    · exact absurd htop (not_or.2 ⟨hroot, hparents⟩)
    · exact ⟨parent, hsub⟩
  · obtain ⟨top, hchain, hend⟩ :=
      hacyclic.exists_end (fun _ _ => Hierarchy.IsSubclass.isParent) cls
    refine (hfound cls hknown hcls).2 ⟨top, hchain, ?_⟩
    by_contra hneither
    obtain ⟨hroot, hparents⟩ := not_or.1 hneither
    obtain ⟨next, hnext⟩ := hsuper top (hclasses.isInterface_of_chain hcls hchain) hroot hparents
    exact hend next hnext

namespace Sample

/-- A class that implements an interface and extends nothing, and a class that implements it and
extends a class without parents. -/
def messages : Hierarchy :=
  .after [.define "Message" .interface, .define "Event" .concrete,
    .link "Event" "Message" .implementation, .define "Packet" .abstract,
    .define "Frame" .concrete, .link "Frame" "Packet" .extension,
    .link "Frame" "Message" .implementation]

/-- A class without superclass is a subtype of the root class through its interface, and is not
found below the root class. -/
theorem implementor_missed_below_root :
    messages.Acyclic ∧ messages.WellKinded ∧ messages.close.contains "Event" = true ∧
      messages.close.isInterface "Event" = false ∧
      messages.close.isSubtype "Event" JavaType.objectName = true ∧
      ¬ "Event" ∈ messages.close.instanceClasses JavaType.objectName := by
  refine ⟨by decide +kernel, ⟨?_, ?_, ?_⟩, ?_, ?_, ?_, ?_⟩ <;> decide +kernel

/-- A class whose superclass has no parent is found, whatever it implements. -/
theorem subclass_found_below_root :
    messages.SuperclassesAreClasses ∧ messages.Acyclic ∧
      messages.close.contains "Frame" = true ∧ messages.close.isInterface "Frame" = false ∧
      "Frame" ∈ messages.close.instanceClasses JavaType.objectName := by
  have hclasses : messages.SuperclassesAreClasses := ⟨by decide +kernel, by decide +kernel⟩
  have hacyclic : messages.Acyclic := by decide +kernel
  have hknown : messages.close.contains "Frame" = true := by decide +kernel
  have hclass : messages.close.isInterface "Frame" = false := by decide +kernel
  have hsub : messages.IsSubclass "Frame" "Packet" := ⟨by decide +kernel, by decide +kernel⟩
  refine ⟨hclasses, hacyclic, hknown, hclass, ?_⟩
  exact ((closing_completes_superclasses hclasses hacyclic).1 "Frame" hknown hclass).2
    ⟨"Packet", .single hsub, .inr (by decide +kernel)⟩

end Sample

end TaintReplay
