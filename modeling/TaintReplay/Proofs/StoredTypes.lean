import Mathlib.Data.Fintype.EquivFin
import TaintReplay.Hierarchy.Assignability
import TaintReplay.Proofs.LinkRelation

/-!
# Storing is a preorder

Whether a value of a type can be stored in a variable of another is decided by three rules:
along the hierarchy between classes, along the elements between arrays, and by a short list of
types that take every array. What can be stored twice in a row can be stored at once if the
rules agree where they meet. The hierarchy comes in behind the other two: a class or an array
is stored as an object and goes on to what is above the root class, or an array is stored as
one of its interfaces and goes on to what is above that. Nothing else can go wrong, so storing
is transitive exactly if the hierarchy has nothing unexpected above these types
(`Hierarchy.TopsOut`).

## Main results

* `Hierarchy.canStore_array_array`: arrays are stored as their elements are.
* `Hierarchy.TopsOut.canStore_trans`: storing is transitive.
* `storing_is_preorder`: it is reflexive, and transitive in these hierarchies only.
-/

namespace TaintReplay

namespace Hierarchy

variable {h : Hierarchy} {cls sup : String} {a b c : JavaType}

/-! ## The rules -/

theorem canStore_self (h : Hierarchy) (t : JavaType) : h.canStore t t = true := by
  cases t <;> simp [canStore]

theorem canStore_class_class :
    h.canStore (.class cls) (.class sup) = true ↔
      sup = JavaType.objectName ∨ h.isSubtype cls sup = true := by
  simp only [canStore, Bool.or_eq_true, beq_iff_eq, isSubtype_iff]
  grind

theorem canStore_array_class :
    h.canStore (.array a) (.class sup) = true ↔
      sup = JavaType.objectName ∨ sup ∈ JavaType.arrayInterfaces := by
  simp only [canStore, Bool.or_eq_true, beq_iff_eq, List.contains_iff_mem]

/-- What a class is stored in is a class. -/
theorem eq_class_of_canStore_class (hstore : h.canStore (.class cls) b = true) :
    ∃ sup, b = .class sup := by
  cases b <;> simp_all [canStore]

/-- What an array is stored in is a class or an array. -/
theorem eq_class_or_array_of_canStore_array (hstore : h.canStore (.array a) b = true) :
    (∃ sup, b = .class sup) ∨ ∃ element, b = .array element := by
  cases b <;> simp_all [canStore]

/-- Types that are not references are stored as what they are. -/
theorem isReference_of_canStore (hstore : h.canStore a b = true) :
    a = b ∨ a.isReference = true ∧ b.isReference = true := by
  cases a <;> cases b <;> simp_all [canStore, JavaType.isReference]

/-- Arrays are stored as their elements are. -/
theorem canStore_array_array : h.canStore (.array a) (.array b) = h.canStore a b := by
  rw [Bool.eq_iff_iff]
  simp only [canStore, Bool.or_eq_true, beq_iff_eq, Bool.and_eq_true]
  constructor
  · rintro (rfl | ⟨-, hstore⟩)
    · exact h.canStore_self a
    · exact hstore
  · intro hstore
    exact (isReference_of_canStore hstore).imp_right fun hrefs => ⟨hrefs, hstore⟩

/-! ## Two in a row -/

/-- Nothing is above the root class, and above the interfaces of arrays there is only the root
class and they themselves. -/
structure TopsOut (h : Hierarchy) : Prop where
  root : ∀ sup ∈ h.ancestors JavaType.objectName, sup = JavaType.objectName
  arrays : ∀ cls ∈ JavaType.arrayInterfaces, ∀ sup ∈ h.ancestors cls,
    sup = JavaType.objectName ∨ sup ∈ JavaType.arrayInterfaces

instance : Decidable h.TopsOut :=
  decidable_of_iff
    ((∀ sup ∈ h.ancestors JavaType.objectName, sup = JavaType.objectName) ∧
      ∀ cls ∈ JavaType.arrayInterfaces, ∀ sup ∈ h.ancestors cls,
        sup = JavaType.objectName ∨ sup ∈ JavaType.arrayInterfaces)
    ⟨fun htops => ⟨htops.1, htops.2⟩, fun htops => ⟨htops.root, htops.arrays⟩⟩

theorem isSubtype_iff_mem_ancestors :
    h.isSubtype cls sup = true ↔ cls = sup ∨ sup ∈ h.ancestors cls := by
  rw [isSubtype, Bool.or_eq_true, beq_iff_eq, List.contains_iff_mem]

theorem TopsOut.eq_of_isSubtype_root (htops : h.TopsOut)
    (hsubtype : h.isSubtype JavaType.objectName sup = true) : sup = JavaType.objectName :=
  (isSubtype_iff_mem_ancestors.1 hsubtype).elim Eq.symm (htops.root sup)

/-- What takes an array takes it to nothing else by way of the hierarchy. -/
theorem TopsOut.canStore_array_of_class (htops : h.TopsOut)
    (hfirst : h.canStore (.array a) (.class cls) = true)
    (hsecond : h.canStore (.class cls) (.class sup) = true) :
    h.canStore (.array a) (.class sup) = true := by
  rw [canStore_array_class] at hfirst ⊢
  rcases canStore_class_class.1 hsecond with hroot | hsubtype
  · exact .inl hroot
  · rcases hfirst with rfl | hinterface
    · exact .inl (htops.eq_of_isSubtype_root hsubtype)
    · rcases isSubtype_iff_mem_ancestors.1 hsubtype with rfl | habove
      · exact .inr hinterface
      · exact htops.arrays cls hinterface sup habove

theorem TopsOut.canStore_class_of_class (htops : h.TopsOut) {mid : String}
    (hfirst : h.canStore (.class cls) (.class mid) = true)
    (hsecond : h.canStore (.class mid) (.class sup) = true) :
    h.canStore (.class cls) (.class sup) = true := by
  rw [canStore_class_class] at hfirst hsecond ⊢
  rcases hsecond with hroot | hupper
  · exact .inl hroot
  · rcases hfirst with rfl | hlower
    · exact .inl (htops.eq_of_isSubtype_root hupper)
    · rw [isSubtype_iff_reflTransGen] at hlower hupper ⊢
      exact .inr (hlower.trans hupper)

/-- What can be stored twice in a row can be stored at once. -/
theorem TopsOut.canStore_trans (htops : h.TopsOut) (hab : h.canStore a b = true)
    (hbc : h.canStore b c = true) : h.canStore a c = true := by
  induction a generalizing b c with
  | void =>
      obtain rfl : .void = b := (isReference_of_canStore hab).resolve_right fun hrefs => nomatch hrefs.1
      exact hbc
  | primitive p =>
      obtain rfl : .primitive p = b :=
        (isReference_of_canStore hab).resolve_right fun hrefs => nomatch hrefs.1
      exact hbc
  | «class» cls =>
      obtain ⟨mid, rfl⟩ := eq_class_of_canStore_class hab
      obtain ⟨sup, rfl⟩ := eq_class_of_canStore_class hbc
      exact htops.canStore_class_of_class hab hbc
  | array element ih =>
      rcases eq_class_or_array_of_canStore_array hab with ⟨mid, rfl⟩ | ⟨mid, rfl⟩
      · obtain ⟨sup, rfl⟩ := eq_class_of_canStore_class hbc
        exact htops.canStore_array_of_class hab hbc
      · rcases eq_class_or_array_of_canStore_array hbc with ⟨sup, rfl⟩ | ⟨sup, rfl⟩
        · -- whatever the elements, the same classes take an array
          exact canStore_array_class.2 (canStore_array_class.1 hbc)
        · rw [canStore_array_array] at hab hbc ⊢
          exact ih hab hbc

/-! ## What is needed -/

/-- A class that is not known is stored in no class but itself and the root class. -/
theorem canStore_of_unknown (hunknown : ¬ h.contains cls = true) :
    h.canStore (.class cls) (.class sup) = true ↔ sup = JavaType.objectName ∨ cls = sup := by
  rw [canStore_class_class, isSubtype_iff_mem_ancestors, mem_ancestors_iff]
  simp [hunknown]

/-- There is always a class that is not known. -/
theorem exists_unknown (h : Hierarchy) (names : List String) :
    ∃ cls, ¬ h.contains cls = true ∧ cls ∉ names := by
  obtain ⟨cls, hcls⟩ :=
    Infinite.exists_notMem_finset (h.nodes.map (·.name) ++ names).toFinset
  rw [List.mem_toFinset, List.mem_append, not_or] at hcls
  exact ⟨cls, contains_iff.not.2 hcls.1, hcls.2⟩

/-- If storing is transitive, nothing unexpected is above the types that take arrays. -/
theorem topsOut_of_canStore_trans
    (htrans : ∀ a b c, h.canStore a b = true → h.canStore b c = true → h.canStore a c = true) :
    h.TopsOut := by
  refine ⟨fun sup habove => ?_, fun cls hcls sup habove => ?_⟩
  · -- every class is stored as an object, a class without parents also
    obtain ⟨cls, hunknown, hnew⟩ := h.exists_unknown [sup]
    have hobject : h.canStore (.class cls) (.class JavaType.objectName) = true :=
      canStore_class_class.2 (.inl rfl)
    have hsup : h.canStore (.class JavaType.objectName) (.class sup) = true :=
      canStore_class_class.2 (.inr (isSubtype_iff_mem_ancestors.2 (.inr habove)))
    exact ((canStore_of_unknown hunknown).1 (htrans _ _ _ hobject hsup)).resolve_right
      fun heq => hnew (List.mem_singleton.2 heq)
  · have harray : h.canStore (.array .void) (.class cls) = true :=
      canStore_array_class.2 (.inr hcls)
    have hsup : h.canStore (.class cls) (.class sup) = true :=
      canStore_class_class.2 (.inr (isSubtype_iff_mem_ancestors.2 (.inr habove)))
    exact canStore_array_class.1 (htrans _ _ _ harray hsup)

end Hierarchy

/-- **Storing is a preorder.** Every type can be stored as itself. What can be stored twice in a
row can be stored at once, arrays of any dimension included, if nothing is above the root class
and nothing but it and each other above the interfaces of arrays; and in no other hierarchy. -/
theorem storing_is_preorder (h : Hierarchy) :
    (∀ t, h.canStore t t = true) ∧
      (h.TopsOut ↔ ∀ a b c, h.canStore a b = true → h.canStore b c = true →
        h.canStore a c = true) := by
  refine ⟨h.canStore_self, fun htops a b c hab hbc => ?_, fun htrans => ?_⟩
  · exact htops.canStore_trans hab hbc
  · exact Hierarchy.topsOut_of_canStore_trans htrans

namespace Sample

/-- One of the interfaces of arrays, and a class that implements another interface. -/
def copies : Hierarchy :=
  .after [.define "java.lang.Cloneable" .interface, .define "Shape" .interface,
    .define "Point" .concrete, .link "Point" "Shape" .implementation, .close]

/-- An array of arrays of points is stored as an array of cloneable things, and this as an array
of objects. -/
theorem arrays_stored_twice :
    copies.TopsOut ∧
      copies.canStore (.array (.array (.class "Point"))) (.array (.class "java.lang.Cloneable")) =
        true ∧
      copies.canStore (.array (.class "java.lang.Cloneable")) (.array (.class JavaType.objectName)) =
        true ∧
      copies.canStore (.array (.array (.class "Point"))) (.array (.class JavaType.objectName)) =
        true := by
  have htops : copies.TopsOut := by decide +kernel
  have hfirst : copies.canStore (.array (.array (.class "Point")))
      (.array (.class "java.lang.Cloneable")) = true := by decide +kernel
  have hsecond : copies.canStore (.array (.class "java.lang.Cloneable"))
      (.array (.class JavaType.objectName)) = true := by decide +kernel
  exact ⟨htops, hfirst, hsecond, (storing_is_preorder copies).2.1 htops _ _ _ hfirst hsecond⟩

end Sample

end TaintReplay
