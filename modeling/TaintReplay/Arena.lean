import TaintReplay.Numbering
import TaintReplay.Propagator

/-!
# Arenas

The propagators of a replay are kept in an arena, in the order they were first
met, and named by their place. Equal propagators are kept once, so a name
stands for a whole stack of frames: the propagator itself and, through the
parents, everything below it.

An arena only grows. Propagators name parents that were there before them, so
following parents goes down and ends.

## Main results

* `Arena.get?_eq`: a name is a place in the list of propagators.
* `Arena.get?_intern`: the name of a propagator leads back to one equal to it.
* `Arena.get?_intern_of_some`: interning leaves the names there are alone.
-/

namespace TaintReplay

/-- The propagators of a replay, each once, in the order they were first met. -/
structure Arena where
  numbering : Numbering Propagator

namespace Arena

/-- The arena without propagators. -/
def empty : Arena := ⟨Numbering.empty⟩

instance : Inhabited Arena := ⟨empty⟩

/-- The propagators in the order they were first met. -/
def toList (a : Arena) : List Propagator := a.numbering.toList

/-- Number of propagators. -/
def size (a : Arena) : Nat := a.numbering.size

/-- The propagator of a name. -/
def get? (a : Arena) (id : PropagatorId) : Option Propagator := a.numbering.get? id.index

/-- The name of a propagator, which is added at the end if there is none equal
to it. -/
def intern (a : Arena) (p : Propagator) : PropagatorId × Arena :=
  let (i, numbering) := a.numbering.intern p
  (⟨i⟩, ⟨numbering⟩)

@[simp]
theorem toList_empty : empty.toList = [] := rfl

@[simp]
theorem size_eq_length (a : Arena) : a.size = a.toList.length := a.numbering.size_eq_length

theorem get?_eq (a : Arena) (id : PropagatorId) : a.get? id = a.toList[id.index]? :=
  a.numbering.get?_eq id.index

/-- Interning adds a propagator at the end unless there is one equal to it. -/
theorem toList_intern (a : Arena) (p : Propagator) :
    (a.intern p).2.toList = if a.toList.any (· == p) then a.toList else a.toList ++ [p] :=
  a.numbering.toList_intern p

/-- The name of a propagator is the first place of one equal to it, or the end. -/
theorem index_intern (a : Arena) (p : Propagator) :
    (a.intern p).1.index = (a.toList.findIdx? (· == p)).getD a.toList.length :=
  a.numbering.fst_intern p

/-- Interning leaves the names there are alone. -/
theorem get?_intern_of_some {a : Arena} {id : PropagatorId} {q : Propagator} (p : Propagator)
    (h : a.get? id = some q) : (a.intern p).2.get? id = some q := by
  rw [get?_eq] at h ⊢
  rw [toList_intern]
  split
  · exact h
  · have bound : id.index < a.toList.length := (List.getElem?_eq_some_iff.1 h).1
    rw [List.getElem?_append_left bound]
    exact h

/-- The name of a propagator leads back to one equal to it. -/
theorem get?_intern (a : Arena) (p : Propagator) :
    ∃ q, (a.intern p).2.get? (a.intern p).1 = some q ∧ (q == p) = true := by
  rw [get?_eq, toList_intern, index_intern]
  cases h : a.toList.findIdx? (· == p) with
  | some i =>
    obtain ⟨bound, hp, -⟩ := List.findIdx?_eq_some_iff_getElem.1 h
    have present : a.toList.any (· == p) = true := by
      rw [← List.findIdx?_isSome, h]
      rfl
    exact ⟨a.toList[i], by simp [present, bound], hp⟩
  | none =>
    have absent : a.toList.any (· == p) = false := by
      rw [← List.findIdx?_isSome, h]
      rfl
    refine ⟨p, by simp [absent], ?_⟩
    exact Std.LawfulBEqCmp.compare_eq_iff_beq.1 Std.ReflOrd.compare_self

/-! ## Stacks -/

/-- Up to `fuel` names from one downwards, along the parents. -/
def chainFrom (a : Arena) : Nat → PropagatorId → List PropagatorId
  | 0, _ => []
  | fuel + 1, id =>
    id ::
      match (a.get? id).bind (·.parent) with
      | none => []
      | some parent => a.chainFrom fuel parent

/-- The names from one down to the bottom of its stack. A stack without cycles
is no higher than the arena has propagators. -/
def chain (a : Arena) (id : PropagatorId) : List PropagatorId := a.chainFrom a.size id

/-- Number of frames above the bottom. -/
def depth (a : Arena) (id : PropagatorId) : Nat := (a.chain id).length - 1

/-- The bottom of the stack. -/
def rootOf (a : Arena) (id : PropagatorId) : PropagatorId := ((a.chain id).getLast?).getD id

/-- The propagator a gap was entered from. -/
def parentOf? (a : Arena) (id : PropagatorId) : Option Propagator :=
  ((a.get? id).bind (·.parent)).bind a.get?

/-- The frame below that of a propagator: the one its parent is in, or its own
at the bottom. -/
def callerFrame (a : Arena) (p : Propagator) : Frame :=
  match p.parent.bind a.get? with
  | some parent => ⟨parent.parent, parent.gap, parent.site⟩
  | none => ⟨none, none, p.site⟩

/-- The propagators by which taints leave the frame of a propagator. -/
def leaveFrame (a : Arena) (p : Propagator) (taints : List Taint) : List Propagator :=
  taints.map fun taint => .inFrame taint (a.callerFrame p)

end Arena

end TaintReplay
