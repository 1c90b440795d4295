import TaintReplay.Proofs.Phantoms
import TaintReplay.Proofs.StoredTypes

/-!
# What a mention changes

A class that is mentioned becomes known as a phantom, and may be mentioned in the middle of a
query. Some questions have other answers afterwards: the class is known, there is one more, it
counts as concrete and is among its own ancestors. Replays do not ask these questions, or ask
them together with others. `Hierarchy.View` collects what is asked while summaries are looked up,
flows applied and gaps resolved, and a mention leaves all of it as it was. That the new phantom
is concrete does not show, since only classes that are no phantoms are entered.

Nothing else changes either: all that is known of other classes stays, and a class that is known
is not touched.

## Main results

* `Hierarchy.view_ensure`: a mention leaves what a replay sees of a hierarchy as it was.
* `mentions_are_unseen`: what mentions change, and what they leave.
-/

namespace TaintReplay

/-- What is asked of a hierarchy while summaries are looked up, flows applied and gaps
resolved. -/
@[ext]
structure Hierarchy.View where
  isSubtype : String → String → Bool
  canStore : JavaType → JavaType → Bool
  castCompatible : JavaType → JavaType → Bool
  isInterface : String → Bool
  isPhantom : String → Bool
  subclasses : String → List String
  implementers : String → List String
  subinterfaces : String → List String
  instanceClasses : String → OrdSet String
  implementors : Program → Method → OrdSet MethodId
  /-- Whether a class is concrete and no phantom. -/
  isInstantiable : String → Bool
  canEnter : Method → Bool

namespace Hierarchy

variable {h : Hierarchy} {name other : String}

/-- What a replay sees of a hierarchy. -/
def view (h : Hierarchy) : View where
  isSubtype := h.isSubtype
  canStore := h.canStore
  castCompatible := h.castCompatible
  isInterface := h.isInterface
  isPhantom := h.isPhantom
  subclasses := h.subclasses
  implementers := h.implementers
  subinterfaces := h.subinterfaces
  instanceClasses := h.instanceClasses
  implementors program method := program.implementors h method
  isInstantiable name := h.isConcrete name && !h.isPhantom name
  canEnter := Engine.canEnter h

/-! ## What stays -/

/-- A mention leaves what a replay sees of a hierarchy as it was. -/
theorem view_ensure (h : Hierarchy) (name : String) : (h.ensure name).view = h.view :=
  View.ext (funext fun child => funext (isSubtype_ensure h name child))
    (funext fun child => funext (canStore_ensure h name child))
    (funext fun base => funext (castCompatible_ensure h name base))
    (funext (isInterface_ensure h name)) (funext (isPhantom_ensure h name))
    (funext fun other => children_ensure h name other .extension false)
    (funext fun other => children_ensure h name other .implementation false)
    (funext fun other => children_ensure h name other .extension true)
    (funext (instanceClasses_ensure h name))
    (funext fun program => funext (program.implementors_ensure h name))
    (funext (isConcrete_and_not_isPhantom_ensure h name))
    (funext (Engine.canEnter_ensure h name))

/-- What is known of other classes stays. -/
theorem find?_ensure_of_ne (hne : other ≠ name) : (h.ensure name).find? other = h.find? other := by
  rw [find?_ensure, if_neg fun hboth => hne hboth.1]

theorem ancestors_ensure_of_ne (hne : other ≠ name) :
    (h.ensure name).ancestors other = h.ancestors other := by
  have hparents : (h.ensure name).parents = h.parents := funext (parents_ensure h name)
  have hbound : (h.ensure name).walkBound = h.walkBound := by rw [walkBound, walkBound, links_ensure]
  rw [ancestors, ancestors, hparents, hbound, contains_eq, contains_eq, find?_ensure_of_ne hne]

/-! ## What changes -/

theorem find?_ensure_of_unknown (hunknown : ¬ h.contains name = true) :
    (h.ensure name).find? name = some ⟨name, .concrete, true⟩ := by
  have hnone : h.find? name = none := by simpa [contains_eq] using hunknown
  rw [find?_ensure, if_pos ⟨rfl, hnone⟩]

theorem size_ensure_of_unknown (hunknown : ¬ h.contains name = true) :
    (h.ensure name).size = h.size + 1 := by
  rw [ensure_of_new hunknown]
  exact List.length_append

/-- A class that has just been mentioned has no ancestor but itself. -/
theorem ancestors_ensure_of_unknown (hunknown : ¬ h.contains name = true) :
    (h.ensure name).ancestors name = [name] := by
  have hparents : (h.ensure name).parents name = [] := by
    rw [parents_ensure, parents_of_unknown h hunknown]
  rw [ancestors, if_pos (contains_ensure.2 (.inl rfl)), visit_of_no_parents _ hparents]

end Hierarchy

/-- **Mentions are unseen.** A mention leaves as it was all that a replay asks of a hierarchy, and
any number of mentions does. Of other classes the entry stays, and with it whether they are known
and concrete, and so do their ancestors. A class that is known is not touched. One that is not
becomes a phantom, counts as concrete, and has no ancestor but itself. -/
theorem mentions_are_unseen (h : Hierarchy) (name : String) :
    (h.ensure name).view = h.view ∧
    (∀ names, (h.ensureAll names).view = h.view) ∧
    (∀ other, other ≠ name →
      (h.ensure name).find? other = h.find? other ∧
      (h.ensure name).contains other = h.contains other ∧
      (h.ensure name).isConcrete other = h.isConcrete other ∧
      (h.ensure name).ancestors other = h.ancestors other) ∧
    (h.contains name = true → h.ensure name = h) ∧
    (h.contains name = false →
      (h.ensure name).contains name = true ∧
      (h.ensure name).find? name = some ⟨name, .concrete, true⟩ ∧
      (h.ensure name).size = h.size + 1 ∧
      h.isConcrete name = false ∧ (h.ensure name).isConcrete name = true ∧
      h.ancestors name = [] ∧ (h.ensure name).ancestors name = [name]) := by
  refine ⟨h.view_ensure name, h.ensureAll_eq Hierarchy.view_ensure, fun other hne => ?_,
    Hierarchy.ensure_of_known, fun hnew => ?_⟩
  · have hfind : (h.ensure name).find? other = h.find? other := Hierarchy.find?_ensure_of_ne hne
    refine ⟨hfind, ?_, ?_, Hierarchy.ancestors_ensure_of_ne hne⟩
    · rw [Hierarchy.contains_eq, Hierarchy.contains_eq, hfind]
    · rw [Hierarchy.isConcrete, Hierarchy.isConcrete, hfind]
  · have hunknown : ¬ h.contains name = true := Bool.eq_false_iff.1 hnew
    have hnone : h.find? name = none := by simpa [Hierarchy.contains_eq] using hunknown
    have hfind := Hierarchy.find?_ensure_of_unknown hunknown
    refine ⟨Hierarchy.contains_ensure.2 (.inl rfl), hfind, Hierarchy.size_ensure_of_unknown hunknown,
      ?_, ?_, if_neg hunknown, Hierarchy.ancestors_ensure_of_unknown hunknown⟩
    · rw [Hierarchy.isConcrete, hnone]
      rfl
    · rw [Hierarchy.isConcrete, hfind]
      rfl

namespace Sample

/-- Circles become known and concrete. Points and shapes stay what they are, and what is below
shapes does too. -/
theorem circle_is_unseen :
    copies.contains "Circle" = false ∧ (copies.ensure "Circle").isConcrete "Circle" = true ∧
      (copies.ensure "Circle").ancestors "Circle" = ["Circle"] ∧
      (copies.ensure "Circle").ancestors "Point" = copies.ancestors "Point" ∧
      (copies.ensure "Circle").view.instanceClasses "Shape" =
        copies.view.instanceClasses "Shape" ∧
      (copies.ensure "Circle").view.isInstantiable "Circle" = false ∧
      copies.contains "Point" = true ∧ copies.ensure "Point" = copies := by
  obtain ⟨hview, -, hothers, -, hnew⟩ := mentions_are_unseen copies "Circle"
  have hunknown : copies.contains "Circle" = false := by decide +kernel
  have hknown : copies.contains "Point" = true := by decide +kernel
  obtain ⟨-, -, -, -, hconcrete, -, hancestors⟩ := hnew hunknown
  obtain ⟨-, -, -, hpoint⟩ := hothers "Point" (by decide)
  refine ⟨hunknown, hconcrete, hancestors, hpoint, by rw [hview], ?_, hknown, ?_⟩
  · rw [hview]
    decide +kernel
  · exact (mentions_are_unseen copies "Point").2.2.2.1 hknown

end Sample

end TaintReplay
