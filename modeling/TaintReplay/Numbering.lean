import Std.Data.TreeMap

/-!
# Numbered values

Values are numbered from zero in the order they are first met. Two values that
the order does not separate are one value here and have one number, that of the
first of them.

The values are what counts: `Numbering.toList` lists them in the order of their
numbers, and every operation is determined by that list. Two search trees beside
it, one for each direction, find the value of a number and the number of a value
without going through the list. They are persistent, so an old numbering stays
valid and costs little to keep.

## Main results

* `Numbering.get?_eq`: the value of a number is its place in the list.
* `Numbering.number?_eq`: the number of a value is its first place in the list.
* `Numbering.toList_intern`: interning adds a value at the end unless it has a number.
-/

namespace TaintReplay

/-- Values numbered in the order they were first met. -/
structure Numbering (α : Type) [BEq α] [Ord α] where
  /-- The values, the latest first. -/
  latest : List α
  /-- Number of values. -/
  size : Nat
  /-- The values by their numbers. -/
  values : Std.TreeMap Nat α
  /-- The numbers by their values. -/
  numbers : Std.TreeMap α Nat
  size_eq : size = latest.length
  values_eq : ∀ i : Nat, values[i]? = latest.reverse[i]?
  numbers_eq : ∀ x : α, numbers[x]? = latest.reverse.findIdx? (· == x)

namespace Numbering

variable {α : Type} [BEq α] [Ord α]

/-- The values in the order of their numbers. -/
def toList (n : Numbering α) : List α := n.latest.reverse

/-- The value of a number. -/
def get? (n : Numbering α) (i : Nat) : Option α := n.values[i]?

/-- The number of a value, if it has one. -/
def number? (n : Numbering α) (x : α) : Option Nat := n.numbers[x]?

/-- With the next number for a value, values are still found by their numbers. -/
theorem values_insert (n : Numbering α) (x : α) (i : Nat) :
    (n.values.insert n.size x)[i]? = (x :: n.latest).reverse[i]? := by
  rw [Std.TreeMap.getElem?_insert, n.values_eq, n.size_eq, List.reverse_cons]
  rcases Nat.lt_trichotomy i n.latest.length with h | h | h
  · rw [List.getElem?_append_left (by simpa using h)]
    simp [Nat.ne_of_gt h]
  · simp [h]
  · have hne : n.latest.length ≠ i := Nat.ne_of_lt h
    simp [hne, List.getElem?_eq_none (l := n.latest.reverse) (i := i) (by simp; omega),
      List.getElem?_eq_none (l := n.latest.reverse ++ [x]) (i := i) (by simp; omega)]

section Intern

variable [Std.TransOrd α]

/-- The numbering without values. -/
def empty : Numbering α where
  latest := []
  size := 0
  values := ∅
  numbers := ∅
  size_eq := rfl
  values_eq _ := by simp
  numbers_eq _ := by simp

instance : Inhabited (Numbering α) := ⟨empty⟩

variable [Std.LawfulBEqOrd α]

/-- With the next number for a new value, numbers are still found by their values. -/
theorem numbers_insert (n : Numbering α) (x : α) (new : n.number? x = none) (y : α) :
    (n.numbers.insert x n.size)[y]? = (x :: n.latest).reverse.findIdx? (· == y) := by
  rw [Std.TreeMap.getElem?_insert, List.reverse_cons, List.findIdx?_append, ← n.numbers_eq]
  by_cases h : compare x y = .eq
  · have absent : n.numbers[y]? = none := by
      rw [← Std.TreeMap.getElem?_congr h]
      exact new
    simp [h, absent, n.size_eq, List.findIdx?_cons, Std.LawfulBEqCmp.compare_eq_iff_beq.1 h]
  · have hne : (x == y) = false := by
      cases hxy : x == y with
      | false => rfl
      | true => exact absurd (Std.LawfulBEqCmp.compare_eq_iff_beq.2 hxy) h
    simp [h, hne, List.findIdx?_cons]

/-- Gives the next number to a value that has none. -/
def push (n : Numbering α) (x : α) (new : n.number? x = none) : Numbering α where
  latest := x :: n.latest
  size := n.size + 1
  values := n.values.insert n.size x
  numbers := n.numbers.insert x n.size
  size_eq := congrArg (· + 1) n.size_eq
  values_eq := n.values_insert x
  numbers_eq := n.numbers_insert x new

/-- The number of a value, which gets the next one if it has none. -/
def intern (n : Numbering α) (x : α) : Nat × Numbering α :=
  match h : n.number? x with
  | some i => (i, n)
  | none => (n.size, n.push x h)

end Intern

/-! ## The list -/

@[simp]
theorem size_eq_length (n : Numbering α) : n.size = n.toList.length := by
  simp [toList, n.size_eq]

theorem get?_eq (n : Numbering α) (i : Nat) : n.get? i = n.toList[i]? := n.values_eq i

theorem number?_eq (n : Numbering α) (x : α) : n.number? x = n.toList.findIdx? (· == x) :=
  n.numbers_eq x

variable [Std.TransOrd α]

@[simp]
theorem toList_empty : (empty : Numbering α).toList = [] := rfl

variable [Std.LawfulBEqOrd α]

@[simp]
theorem toList_push (n : Numbering α) (x : α) (new : n.number? x = none) :
    (n.push x new).toList = n.toList ++ [x] := by
  simp [toList, push]

/-- A value with a number keeps it, and nothing changes. -/
theorem intern_of_number? {n : Numbering α} {x : α} {i : Nat} (h : n.number? x = some i) :
    n.intern x = (i, n) := by
  unfold intern
  split
  · simp_all
  · simp_all

/-- A value without a number gets the next one. -/
theorem intern_of_new {n : Numbering α} {x : α} (new : n.number? x = none) :
    n.intern x = (n.size, n.push x new) := by
  unfold intern
  split
  · simp_all
  · rfl

/-- The number given to a value. -/
theorem fst_intern (n : Numbering α) (x : α) :
    (n.intern x).1 = (n.toList.findIdx? (· == x)).getD n.toList.length := by
  rw [← number?_eq]
  cases h : n.number? x with
  | some i => simp [intern_of_number? h]
  | none => simp [intern_of_new h]

/-- Interning adds a value at the end unless it has a number. -/
theorem toList_intern (n : Numbering α) (x : α) :
    (n.intern x).2.toList = if n.toList.any (· == x) then n.toList else n.toList ++ [x] := by
  cases h : n.number? x with
  | some i =>
    have hx : n.toList.any (· == x) = true := by
      rw [← List.findIdx?_isSome, ← number?_eq, h]
      rfl
    simp [intern_of_number? h, hx]
  | none =>
    have hx : n.toList.any (· == x) = false := by
      rw [← List.findIdx?_isSome, ← number?_eq, h]
      rfl
    simp only [intern_of_new h, toList_push, hx, Bool.false_eq_true, if_false]

end Numbering

end TaintReplay
