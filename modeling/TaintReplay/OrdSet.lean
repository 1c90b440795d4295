/-!
# Finite sets kept in increasing order

Every answer of the analysis that is a set is shown in one fixed order: flows,
taints, access paths and class names are listed increasingly. A set is
therefore stored as the strictly increasing list of its members. The list is
the set: two sets with the same members are the same value (`OrdSet.ext_mem`),
so set laws (commutativity of union, independence of the insertion order) are
equations and not merely equivalences.

The order only has to be transitive. Where it also separates distinct values
(`Std.LawfulEqOrd`) membership behaves as usual. Facts are ordered by their
access path alone; for them insertion keeps the member that is already there.

## Main results

* `OrdSet.mem_insert`: the members after an insertion.
* `OrdSet.mem_union`, `OrdSet.mem_ofList`, `OrdSet.mem_filter`: the same for the derived operations.
* `OrdSet.ext_mem`: sets with the same members are equal.
-/

namespace TaintReplay

/-- An order by a key separates what the key separates. -/
theorem lawfulEqCmp_compareOn {α β : Type} [Ord β] [Std.LawfulEqOrd β] {key : α → β}
    (separates : ∀ {a b}, key a = key b → a = b) : Std.LawfulEqCmp (compareOn key) where
  compare_self := Std.ReflCmp.compare_self
  eq_of_compare h := separates (Std.LawfulEqOrd.eq_of_compare h)

/-- Lists whose members increase strictly. -/
def Increasing {α : Type} [Ord α] (xs : List α) : Prop :=
  xs.Pairwise fun a b => compare a b = .lt

/-- Insertion at the place the order asks for. A member that compares equal
stays and the new value is dropped. -/
def insertIncreasing {α : Type} [Ord α] (x : α) : List α → List α
  | [] => [x]
  | y :: ys =>
    match compare x y with
    | .lt => x :: y :: ys
    | .eq => y :: ys
    | .gt => y :: insertIncreasing x ys

section Insertion

variable {α : Type} [Ord α]

theorem increasing_nil : Increasing ([] : List α) := List.Pairwise.nil

/-- Insertion brings in no other value than the one inserted. -/
theorem eq_or_mem_of_mem_insertIncreasing {x z : α} {ys : List α}
    (h : z ∈ insertIncreasing x ys) : z = x ∨ z ∈ ys := by
  induction ys with
  | nil => simpa [insertIncreasing] using h
  | cons y ys ih =>
    rw [insertIncreasing] at h
    split at h
    · simpa using h
    · exact .inr h
    · rcases List.mem_cons.1 h with hz | hz
      · exact .inr (by simp [hz])
      · rcases ih hz with hz | hz
        · exact .inl hz
        · exact .inr (List.mem_cons_of_mem _ hz)

/-- Insertion loses no member. -/
theorem mem_insertIncreasing_of_mem {x z : α} {ys : List α} (h : z ∈ ys) :
    z ∈ insertIncreasing x ys := by
  induction ys with
  | nil => cases h
  | cons y ys ih =>
    rw [insertIncreasing]
    split
    · exact List.mem_cons_of_mem _ h
    · exact h
    · rcases List.mem_cons.1 h with hz | hz
      · simp [hz]
      · exact List.mem_cons_of_mem _ (ih hz)

/-- The inserted value is a member, where the order separates values. -/
theorem mem_insertIncreasing_self [Std.LawfulEqOrd α] (x : α) (ys : List α) :
    x ∈ insertIncreasing x ys := by
  induction ys with
  | nil => simp [insertIncreasing]
  | cons y ys ih =>
    rw [insertIncreasing]
    split
    · simp
    · rename_i h
      simp [Std.LawfulEqOrd.eq_of_compare h]
    · exact List.mem_cons_of_mem _ ih

/-- Insertion keeps a list increasing. -/
theorem increasing_insertIncreasing [Std.TransOrd α] {x : α} {ys : List α}
    (h : Increasing ys) : Increasing (insertIncreasing x ys) := by
  induction ys with
  | nil => simp [insertIncreasing, Increasing]
  | cons y ys ih =>
    have hy : ∀ z ∈ ys, compare y z = .lt := (List.pairwise_cons.1 h).1
    have hys : Increasing ys := (List.pairwise_cons.1 h).2
    rw [insertIncreasing]
    split
    · rename_i hxy
      refine List.pairwise_cons.2 ⟨fun z hz => ?_, h⟩
      rcases List.mem_cons.1 hz with rfl | hz
      · exact hxy
      · exact Std.TransCmp.lt_trans hxy (hy z hz)
    · exact h
    · rename_i hxy
      refine List.pairwise_cons.2 ⟨fun z hz => ?_, ih hys⟩
      rcases eq_or_mem_of_mem_insertIncreasing hz with rfl | hz
      · exact Std.OrientedCmp.gt_iff_lt.1 hxy
      · exact hy z hz

/-- Two increasing lists with the same members are the same list. -/
theorem Increasing.eq_of_mem_iff [Std.TransOrd α] {xs ys : List α}
    (hx : Increasing xs) (hy : Increasing ys) (h : ∀ z, z ∈ xs ↔ z ∈ ys) : xs = ys := by
  induction xs generalizing ys with
  | nil =>
    cases ys with
    | nil => rfl
    | cons y ys => exact absurd ((h y).2 (by simp)) (by simp)
  | cons x xs ih =>
    cases ys with
    | nil => exact absurd ((h x).1 (by simp)) (by simp)
    | cons y ys =>
      have hxs := List.pairwise_cons.1 hx
      have hys := List.pairwise_cons.1 hy
      have irrefl : ∀ a : α, compare a a ≠ .lt := fun a ha => by
        simp [Std.ReflCmp.compare_self] at ha
      -- the heads agree: otherwise each would be smaller than the other
      have hxy : x = y := by
        rcases List.mem_cons.1 ((h x).1 (by simp)) with e | hx'
        · exact e
        · rcases List.mem_cons.1 ((h y).2 (by simp)) with e | hy'
          · exact e.symm
          · exact absurd (Std.TransCmp.lt_trans (hxs.1 y hy') (hys.1 x hx')) (irrefl x)
      subst hxy
      congr 1
      refine ih hxs.2 hys.2 fun z => ⟨fun hz => ?_, fun hz => ?_⟩
      · rcases List.mem_cons.1 ((h z).1 (List.mem_cons_of_mem _ hz)) with e | hz'
        · subst e
          exact absurd (hxs.1 z hz) (irrefl z)
        · exact hz'
      · rcases List.mem_cons.1 ((h z).2 (List.mem_cons_of_mem _ hz)) with e | hz'
        · subst e
          exact absurd (hys.1 z hz) (irrefl z)
        · exact hz'

end Insertion

/-- A finite set, as the increasing list of its members. -/
structure OrdSet (α : Type) [Ord α] where
  /-- The members, in increasing order. -/
  toList : List α
  increasing : Increasing toList

namespace OrdSet

variable {α : Type} [Ord α]

instance : Membership α (OrdSet α) := ⟨fun s x => x ∈ s.toList⟩

instance [DecidableEq α] (x : α) (s : OrdSet α) : Decidable (x ∈ s) :=
  inferInstanceAs (Decidable (x ∈ s.toList))

@[ext]
theorem ext {s t : OrdSet α} (h : s.toList = t.toList) : s = t := by
  cases s
  cases t
  cases h
  rfl

instance [DecidableEq α] : DecidableEq (OrdSet α) := fun s t =>
  decidable_of_iff (s.toList = t.toList) ⟨ext, fun h => h ▸ rfl⟩

instance [BEq α] : BEq (OrdSet α) := ⟨fun s t => s.toList == t.toList⟩

instance : Ord (OrdSet α) := ⟨compareOn toList⟩

instance [Std.TransOrd α] : Std.TransOrd (OrdSet α) :=
  inferInstanceAs (Std.TransCmp (compareOn toList))

instance [Std.LawfulEqOrd α] : Std.LawfulEqOrd (OrdSet α) := lawfulEqCmp_compareOn ext

/-- The empty set. -/
def empty : OrdSet α := ⟨[], increasing_nil⟩

instance : EmptyCollection (OrdSet α) := ⟨empty⟩

instance : Inhabited (OrdSet α) := ⟨empty⟩

/-- Number of members. -/
def size (s : OrdSet α) : Nat := s.toList.length

/-- Whether there is no member. -/
def isEmpty (s : OrdSet α) : Bool := s.toList.isEmpty

/-- The members that satisfy a test. -/
def filter (p : α → Bool) (s : OrdSet α) : OrdSet α :=
  ⟨s.toList.filter p, s.increasing.filter p⟩

section Insert

variable [Std.TransOrd α]

/-- Adds a value. A member that compares equal is kept in its stead. -/
def insert (x : α) (s : OrdSet α) : OrdSet α :=
  ⟨insertIncreasing x s.toList, increasing_insertIncreasing s.increasing⟩

/-- Adds the values of a list from left to right. -/
def insertAll (s : OrdSet α) (xs : List α) : OrdSet α := xs.foldl (fun acc x => acc.insert x) s

/-- The set of the values of a list. -/
def ofList (xs : List α) : OrdSet α := empty.insertAll xs

/-- The set of one value. -/
def singleton (x : α) : OrdSet α := empty.insert x

/-- Adds the members of the second set to the first. -/
def union (s t : OrdSet α) : OrdSet α := s.insertAll t.toList

end Insert

/-! ## Membership -/

theorem mem_toList {x : α} {s : OrdSet α} : x ∈ s.toList ↔ x ∈ s := Iff.rfl

@[simp]
theorem not_mem_empty (x : α) : ¬ x ∈ (empty : OrdSet α) := by
  simp [← mem_toList, empty]

@[simp]
theorem mem_filter {p : α → Bool} {s : OrdSet α} {x : α} :
    x ∈ s.filter p ↔ x ∈ s ∧ p x = true := List.mem_filter

theorem isEmpty_iff {s : OrdSet α} : s.isEmpty = true ↔ ∀ x, ¬ x ∈ s := by
  simp [isEmpty, List.isEmpty_iff, List.eq_nil_iff_forall_not_mem, ← mem_toList]

variable [Std.TransOrd α]

/-- Sets with the same members are equal. -/
theorem ext_mem {s t : OrdSet α} (h : ∀ x, x ∈ s ↔ x ∈ t) : s = t :=
  ext (s.increasing.eq_of_mem_iff t.increasing h)

/-- A member of an insertion is the new value or was there before. -/
theorem eq_or_mem_of_mem_insert {x z : α} {s : OrdSet α} (h : z ∈ s.insert x) : z = x ∨ z ∈ s :=
  eq_or_mem_of_mem_insertIncreasing h

theorem mem_insert_of_mem {x z : α} {s : OrdSet α} (h : z ∈ s) : z ∈ s.insert x :=
  mem_insertIncreasing_of_mem h

variable [Std.LawfulEqOrd α]

@[simp]
theorem mem_insert {x z : α} {s : OrdSet α} : z ∈ s.insert x ↔ z = x ∨ z ∈ s := by
  refine ⟨eq_or_mem_of_mem_insert, fun h => ?_⟩
  rcases h with rfl | h
  · exact mem_insertIncreasing_self z s.toList
  · exact mem_insert_of_mem h

@[simp]
theorem mem_insertAll {xs : List α} {z : α} {s : OrdSet α} :
    z ∈ s.insertAll xs ↔ z ∈ xs ∨ z ∈ s := by
  induction xs generalizing s with
  | nil => simp [insertAll]
  | cons x xs ih =>
    have step : s.insertAll (x :: xs) = (s.insert x).insertAll xs := rfl
    simp only [step, ih, mem_insert, List.mem_cons]
    grind

@[simp]
theorem mem_ofList {xs : List α} {z : α} : z ∈ ofList xs ↔ z ∈ xs := by
  simp [ofList]

@[simp]
theorem mem_singleton {x z : α} : z ∈ singleton x ↔ z = x := by
  simp [singleton]

@[simp]
theorem mem_union {s t : OrdSet α} {z : α} : z ∈ s.union t ↔ z ∈ s ∨ z ∈ t := by
  simp only [union, mem_insertAll, mem_toList]
  exact Or.comm

end OrdSet

end TaintReplay
