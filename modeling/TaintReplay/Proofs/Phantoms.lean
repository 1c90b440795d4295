import TaintReplay.Engine.Callback
import TaintReplay.FlowApplication

/-!
# Mentioning a class changes no answer

While a replay runs, classes that fields are declared in become known to the
hierarchy as phantoms. Such a phantom has no links and is a concrete class of
which nothing but the name is known, which is how an unknown class is treated
too. So mentioning a class leaves every question of the replay with the answer
it had: subtypes, casts, the classes below a class, the methods that may run in
a gap and whether the solver can be sent into them.

## Main results

* `Hierarchy.isSubtype_ensure`, `Hierarchy.castCompatible_ensure`: types are related as before.
* `Hierarchy.descendants_ensure`: the same classes are below a class.
* `Engine.canEnter_ensure`: the solver can be sent into the same methods.
* `Hierarchy.ensureAll_eq`: what one mention leaves alone, any number of them does.
-/

namespace TaintReplay

namespace Hierarchy

variable (h : Hierarchy) (name : String)

/-! ## Looking a class up -/

/-- The entry of a class after a mention: a phantom for the one mentioned if it
was not known, and what was there for the others. -/
theorem find?_ensure (other : String) :
    (h.ensure name).find? other =
      if other = name ∧ h.find? other = none then some ⟨name, .concrete, true⟩
      else h.find? other := by
  by_cases known : h.contains name = true
  · rw [ensure_of_known known]
    split
    · rename_i hboth
      obtain ⟨rfl, hnone⟩ := hboth
      simp [contains_eq, hnone] at known
    · rfl
  · rw [ensure_of_new known, find?_addNode]
    have hname : h.find? name = none := by simpa [contains_eq] using known
    by_cases heq : other = name
    · simp [heq, hname]
    · simp [heq]

@[simp]
theorem links_ensure : (h.ensure name).links = h.links := by
  by_cases known : h.contains name = true
  · rw [ensure_of_known known]
  · rw [ensure_of_new known]
    rfl

/-- A test of the entry of a class keeps its outcome if it treats a phantom like
an unknown class. -/
theorem test_ensure (test : Option ClassNode → Bool) (other : String)
    (same : test (some ⟨name, .concrete, true⟩) = test none) :
    test ((h.ensure name).find? other) = test (h.find? other) := by
  rw [find?_ensure]
  split
  · rename_i hboth
    rw [hboth.2, same]
  · rfl

@[simp]
theorem isInterface_ensure (other : String) :
    (h.ensure name).isInterface other = h.isInterface other := by
  unfold isInterface
  exact test_ensure h name (Option.any fun node => node.kind == .interface) other rfl

@[simp]
theorem isPhantom_ensure (other : String) :
    (h.ensure name).isPhantom other = h.isPhantom other := by
  unfold isPhantom
  exact test_ensure h name (Option.all fun node => node.phantom) other rfl

/-- A phantom is concrete and an unknown class is not, but of neither more than the name is
known. -/
theorem isConcrete_and_not_isPhantom_ensure (other : String) :
    ((h.ensure name).isConcrete other && !(h.ensure name).isPhantom other) =
      (h.isConcrete other && !h.isPhantom other) := by
  unfold isConcrete isPhantom
  exact test_ensure h name (fun node =>
    (node.any fun n => n.kind == .concrete) && !(node.all fun n => n.phantom)) other rfl

/-! ## Walking -/

@[simp]
theorem parents_ensure (other : String) : (h.ensure name).parents other = h.parents other := by
  simp [parents]

/-- An unknown class has no parents, since links join known classes. -/
theorem parents_of_unknown {name : String} (unknown : ¬ h.contains name = true) :
    h.parents name = [] := by
  rw [parents, List.map_eq_nil_iff, List.filter_eq_nil_iff]
  intro l hl hchild
  have hmem := (h.linked l hl).1
  rw [beq_iff_eq.1 hchild] at hmem
  exact unknown (contains_iff.2 hmem)

/-- A class without parents has no ancestor but itself. -/
theorem visit_of_no_parents {name : String} (none : h.parents name = []) :
    Graph.visit h.parents h.walkBound [name] [] = [name] := by
  rw [walkBound, Graph.visit]
  simp only [List.not_mem_nil, if_false, List.nil_append, none]
  cases h.links.length <;> rfl

@[simp]
theorem isSubtype_ensure (child parent : String) :
    (h.ensure name).isSubtype child parent = h.isSubtype child parent := by
  have hparents : (h.ensure name).parents = h.parents := funext (parents_ensure h name)
  have hbound : (h.ensure name).walkBound = h.walkBound := by simp [walkBound]
  simp only [isSubtype, ancestors, hparents, hbound]
  by_cases hchild : h.contains child = true
  · simp [hchild, contains_ensure.2 (.inr hchild)]
  · by_cases heq : child = name
    · -- the one class that has become known has no ancestor but itself
      subst heq
      have hvisit := visit_of_no_parents h (parents_of_unknown h hchild)
      simp only [contains_ensure.2 (.inl rfl), if_true, hvisit, hchild]
      cases hcp : child == parent with
      | true => rfl
      | false =>
          have : parent ≠ child := fun e => by simp [e] at hcp
          simp [this]
    · have hstill : ¬ (h.ensure name).contains child = true := by
        rw [contains_ensure]
        exact fun hor => hor.elim heq hchild
      simp [hchild, hstill]

@[simp]
theorem children_ensure (other : String) (kind : LinkKind) (interfaces : Bool) :
    (h.ensure name).children other kind interfaces = h.children other kind interfaces := by
  simp only [children, links_ensure, isInterface_ensure]

@[simp]
theorem below_ensure (other : String) : (h.ensure name).below other = h.below other := by
  simp only [below, subclasses, implementers, subinterfaces, children_ensure, isInterface_ensure]

@[simp]
theorem descendants_ensure (other : String) :
    (h.ensure name).descendants other = h.descendants other := by
  have hbelow : (h.ensure name).below = h.below := funext (below_ensure h name)
  simp [descendants, hbelow, walkBound]

@[simp]
theorem instanceClasses_ensure (other : String) :
    (h.ensure name).instanceClasses other = h.instanceClasses other := by
  simp [instanceClasses]

/-! ## Types -/

@[simp]
theorem canStore_ensure (child parent : JavaType) :
    (h.ensure name).canStore child parent = h.canStore child parent := by
  fun_induction canStore h child parent with
  | case1 child parent => simp [canStore]
  | case2 element parent => simp [canStore]
  | case3 child parent ih => simp [canStore, ih]
  | case4 child parent h1 h2 h3 => rw [canStore.eq_4 _ _ _ h1 h2 h3]

@[simp]
theorem castCompatible_ensure (base check : JavaType) :
    (h.ensure name).castCompatible base check = h.castCompatible base check := by
  simp [castCompatible]

/-! ## Several mentions -/

/-- What one mention leaves alone, any number of them does. -/
theorem ensureAll_eq {β : Type} {f : Hierarchy → β} (same : ∀ h name, f (ensure h name) = f h)
    (names : List String) : f (h.ensureAll names) = f h := by
  induction names generalizing h with
  | nil => rfl
  | cons name names ih =>
      show f ((h.ensure name).ensureAll names) = f h
      rw [ih, same]

end Hierarchy

/-! ## Methods that may run -/

@[simp]
theorem Program.implementors_ensure (p : Program) (h : Hierarchy) (name : String) (m : Method) :
    p.implementors (h.ensure name) m = p.implementors h m := by
  simp [Program.implementors]

@[simp]
theorem Program.targetClasses_ensure (p : Program) (h : Hierarchy) (name : String) (s : StmtId) :
    p.targetClasses (h.ensure name) s = p.targetClasses h s := by
  simp [Program.targetClasses]

/-- A concrete class of which more than the name is known was so before. -/
@[simp]
theorem Engine.canEnter_ensure (h : Hierarchy) (name : String) (m : Method) :
    canEnter (h.ensure name) m = canEnter h m := by
  simp only [canEnter, Bool.and_assoc, Hierarchy.isConcrete_and_not_isPhantom_ensure]

end TaintReplay
