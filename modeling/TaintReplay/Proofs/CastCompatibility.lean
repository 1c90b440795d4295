import TaintReplay.Proofs.ReversedFlows
import TaintReplay.Proofs.StoredTypes

/-!
# Casts are stores one way or the other

Two types are cast compatible if a value may have both. If one of them is the root class, it is
enough that the other is a reference, and the hierarchy is not asked. This is a short cut and no
rule of its own: a type is stored as an object exactly if it is a reference
(`Hierarchy.canStore_object`), and nothing but references takes an object. So compatibility is
storing one way or the other for all types, whether classes are known or not.

Storing follows links, and links are never taken away. So what is compatible stays compatible,
whatever a hierarchy comes to know.

## Main results

* `Hierarchy.castCompatible_eq`: casts are stores one way or the other.
* `Hierarchy.canStore_mono`: links that are added take away nothing.
* `casts_are_stores_either_way`: both, with reflexivity and symmetry.
-/

namespace TaintReplay

namespace Hierarchy

variable {h g : Hierarchy} {a b : JavaType} {child parent : String}

/-! ## The short cut -/

/-- The references are the types that are stored as objects. -/
theorem canStore_object (h : Hierarchy) (a : JavaType) :
    h.canStore a (.class JavaType.objectName) = a.isReference := by
  cases a <;> simp [canStore, JavaType.isReference]

/-- With the root class on one side, storing one way or the other asks for a reference on the
other side, whatever is above the root class. -/
theorem canStore_object_or (h : Hierarchy) (b : JavaType) :
    (h.canStore (.class JavaType.objectName) b || h.canStore b (.class JavaType.objectName)) =
      b.isReference := by
  rw [canStore_object]
  cases hstore : h.canStore (.class JavaType.objectName) b with
  | false => rfl
  | true =>
      obtain ⟨sup, rfl⟩ := eq_class_of_canStore_class hstore
      rfl

/-- Casts are stores one way or the other. -/
theorem castCompatible_eq (h : Hierarchy) (a b : JavaType) :
    h.castCompatible a b = (h.canStore a b || h.canStore b a) := by
  unfold castCompatible
  split
  · rename_i hobject
    rw [beq_iff_eq.1 hobject, canStore_object_or]
  · split
    · rename_i hobject
      rw [beq_iff_eq.1 hobject, Bool.or_comm, canStore_object_or]
    · -- the comparison for equality adds nothing, as types are stored as themselves
      cases hsame : a == b with
      | false => rfl
      | true => rw [beq_iff_eq.1 hsame, canStore_self, Bool.true_or, Bool.true_or]

/-! ## More links -/

theorem isSubtype_mono (hlinks : h.links ⊆ g.links) (hsubtype : h.isSubtype child parent = true) :
    g.isSubtype child parent = true := by
  rw [isSubtype_iff_reflTransGen] at hsubtype ⊢
  refine Relation.ReflTransGen.mono ?_ _ _ hsubtype
  rintro x y ⟨kind, hlink⟩
  exact ⟨kind, hlinks hlink⟩

/-- Links that are added take away nothing that can be stored. -/
theorem canStore_mono (hlinks : h.links ⊆ g.links) (hstore : h.canStore a b = true) :
    g.canStore a b = true := by
  -- along the elements of arrays; the hierarchy is asked between classes only
  induction a generalizing b with
  | void | primitive _ =>
      obtain rfl | hrefs := isReference_of_canStore hstore
      · exact g.canStore_self _
      · cases hrefs.1
  | «class» cls =>
      obtain ⟨sup, rfl⟩ := eq_class_of_canStore_class hstore
      rw [canStore_class_class] at hstore ⊢
      exact hstore.imp_right (isSubtype_mono hlinks)
  | array element ih =>
      rcases eq_class_or_array_of_canStore_array hstore with ⟨sup, rfl⟩ | ⟨other, rfl⟩
      · exact canStore_array_class.2 (canStore_array_class.1 hstore)
      · rw [canStore_array_array] at hstore ⊢
        exact ih hstore

theorem castCompatible_mono (hlinks : h.links ⊆ g.links) (hcast : h.castCompatible a b = true) :
    g.castCompatible a b = true := by
  rw [castCompatible_eq, Bool.or_eq_true] at hcast ⊢
  exact hcast.imp (canStore_mono hlinks) (canStore_mono hlinks)

/-- No change takes a link away, made or refused. -/
theorem links_subset_foldl_attempt (h : Hierarchy) (edits : List Edit) :
    h.links ⊆ (edits.foldl attempt h).links := by
  induction edits generalizing h with
  | nil => exact List.Subset.refl _
  | cons edit edits ih =>
      exact List.Subset.trans (fun _ hl => mem_links_of_attempt hl edit) (ih (h.attempt edit))

end Hierarchy

/-- **Casts are stores one way or the other.** Two types are cast compatible exactly if a value of
one can be stored as the other, in every hierarchy and for all types, the root class included. So
every type is compatible with itself, and compatibility goes both ways. No change of a hierarchy
makes compatible types incompatible. -/
theorem casts_are_stores_either_way (h : Hierarchy) :
    (∀ a b, h.castCompatible a b = (h.canStore a b || h.canStore b a)) ∧
    (∀ a, h.castCompatible a a = true) ∧
    (∀ a b, h.castCompatible a b = h.castCompatible b a) ∧
    ∀ (edits : List Hierarchy.Edit) (a b : JavaType), h.castCompatible a b = true →
      (edits.foldl Hierarchy.attempt h).castCompatible a b = true :=
  ⟨h.castCompatible_eq, h.castCompatible_self, h.castCompatible_comm,
    fun edits _ _ => Hierarchy.castCompatible_mono (h.links_subset_foldl_attempt edits)⟩

namespace Sample

/-- The array of points stays compatible with the array of shapes when the interface is linked
below the class, the other way round, and a class is defined twice. A number is no object. -/
theorem points_stay_shapes :
    copies.castCompatible (.array (.class "Shape")) (.array (.class "Point")) = true ∧
      ([.link "Shape" "Point" .extension, .define "Point" .abstract, .close].foldl
        Hierarchy.attempt copies).castCompatible (.array (.class "Shape")) (.array (.class "Point")) =
          true ∧
      copies.castCompatible (.class JavaType.objectName) (.primitive .int) = false := by
  obtain ⟨hstores, -, hboth, hlasts⟩ := casts_are_stores_either_way copies
  have hcast : copies.castCompatible (.array (.class "Shape")) (.array (.class "Point")) = true := by
    rw [hboth, hstores]
    decide +kernel
  refine ⟨hcast, hlasts _ _ _ hcast, ?_⟩
  rw [hstores]
  decide +kernel

end Sample

end TaintReplay
