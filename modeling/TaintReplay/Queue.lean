/-!
# Queues

What comes first is treated first. A queue is kept as two lists, the values that
are next and those that came last, the latest first; `Queue.toList` puts them
together. Every operation is stated by what it does to that list.

## Main results

* `Queue.toList_push`: a new value goes to the end.
* `Queue.toList_eq_of_pop?`: what is taken is the first value, and the others remain.
* `Queue.pop?_eq_none_iff`: nothing can be taken from an empty queue only.
-/

namespace TaintReplay

/-- Values that wait in line. -/
structure Queue (α : Type) where
  /-- The values that are next. -/
  front : List α
  /-- The values behind them, the latest first. -/
  back : List α

namespace Queue

variable {α : Type}

/-- The values in line, the first first. -/
def toList (q : Queue α) : List α := q.front ++ q.back.reverse

/-- The queue of the values of a list. -/
def ofList (xs : List α) : Queue α := ⟨xs, []⟩

/-- Number of values in line. -/
def size (q : Queue α) : Nat := q.front.length + q.back.length

/-- Adds a value at the end. -/
def push (q : Queue α) (x : α) : Queue α := ⟨q.front, x :: q.back⟩

/-- Takes the first value. -/
def pop? (q : Queue α) : Option (α × Queue α) :=
  match q.front with
  | x :: front => some (x, ⟨front, q.back⟩)
  | [] =>
    match q.back.reverse with
    | x :: front => some (x, ⟨front, []⟩)
    | [] => none

@[simp]
theorem toList_ofList (xs : List α) : (ofList xs).toList = xs := by simp [toList, ofList]

@[simp]
theorem size_eq_length (q : Queue α) : q.size = q.toList.length := by simp [size, toList]

@[simp]
theorem toList_push (q : Queue α) (x : α) : (q.push x).toList = q.toList ++ [x] := by
  simp [toList, push]

theorem pop?_eq_none_iff {q : Queue α} : q.pop? = none ↔ q.toList = [] := by
  obtain ⟨front, back⟩ := q
  cases front with
  | cons x front => simp [pop?, toList]
  | nil => cases h : back.reverse <;> simp [pop?, toList, h]

theorem toList_eq_of_pop? {q rest : Queue α} {x : α} (h : q.pop? = some (x, rest)) :
    q.toList = x :: rest.toList := by
  obtain ⟨front, back⟩ := q
  cases front with
  | cons y front =>
    simp only [pop?, Option.some.injEq, Prod.mk.injEq] at h
    obtain ⟨rfl, rfl⟩ := h
    rfl
  | nil =>
    cases hb : back.reverse with
    | nil => simp [pop?, hb] at h
    | cons y ys =>
      simp only [pop?, hb, Option.some.injEq, Prod.mk.injEq] at h
      obtain ⟨rfl, rfl⟩ := h
      simp [toList, hb]

end Queue

end TaintReplay
