import Mathlib.Data.List.Forall2
import TaintReplay.Proofs.Courses
import TaintReplay.Proofs.StackDiscipline

/-!
# Names identify stacks

An arena compares propagators one at a time, and a propagator holds only the name of what is
below it. That comparing names compares whole stacks rests on two facts about every arena that
was filled by interning: equal propagators have one name (`Arena.Distinct`), and parents were
there before (`Arena.Grounded`). The second is up to those who intern, and `Arena.Founds` says
what they have to observe.

The way down from a propagator is a loop that reads parents until there is none.
`Arena.Descent` is this loop as a relation, without a bound on the number of rounds: an instance
of it is a way that comes to an end, with the propagators that were passed and the last name.
Call sites along the way count as equal if their statements and the paths of their facts are,
wherever the facts were derived.

## Main results

* `Arena.Distinct.intern_eq`: interning what is equal to a stored propagator changes nothing.
* `Arena.Grounded.descent`: every way down ends, at the depth and bottom that are computed.
* `Arena.Descent.eq_iff`: names are equal if the propagators on the ways down are.
* `names_identify_stacks`: all of this for every sequence of propagators.
-/

namespace TaintReplay

namespace Propagator

variable {p q r : Propagator}

/-- Two propagators are equal but for their parents. -/
structure SameLayer (p q : Propagator) : Prop where
  taint : p.taint = q.taint
  gap : p.gap = q.gap
  site : (p.site == q.site) = true
  inverse : p.inverse = q.inverse

theorem sameLayer_iff : p.SameLayer q ↔ p.layer = q.layer := by
  -- with the parent of the other put in its place, one propagator equals the other
  have hlayer : (p == { q with parent := p.parent }) = true ↔
      p.layer = q.layer ∧ p.parent = p.parent := beq_iff_layer
  rw [beq_iff] at hlayer
  simp only [true_and, and_true] at hlayer
  rw [← hlayer]
  constructor
  · intro hsame
    exact ⟨hsame.taint, hsame.gap, hsame.site, hsame.inverse⟩
  · rintro ⟨htaint, hgap, hsite, hinverse⟩
    exact ⟨htaint, hgap, hsite, hinverse⟩

theorem beq_trans (hpq : (p == q) = true) (hqr : (q == r) = true) : (p == r) = true := by
  rw [beq_iff_layer] at hpq hqr ⊢
  exact ⟨hpq.1.trans hqr.1, hpq.2.trans hqr.2⟩

theorem beq_symm (hpq : (p == q) = true) : (q == p) = true := by
  rw [beq_iff_layer] at hpq ⊢
  exact ⟨hpq.1.symm, hpq.2.symm⟩

end Propagator

namespace Arena

variable {a : Arena} {id id' parent : PropagatorId} {p q : Propagator} {props : List Propagator}

/-! ## Equal propagators -/

/-- What is equal to a stored propagator has its name already, and the arena does not grow. -/
theorem Distinct.intern_eq (h : a.Distinct) (hp : a.get? id = some p) (hsame : (p == q) = true) :
    a.intern q = (id, a) := by
  have hsome : (a.toList.findIdx? (· == q)).isSome = true := by
    rw [List.findIdx?_isSome, List.any_eq_true]
    rw [get?_eq] at hp
    exact ⟨p, List.mem_of_getElem? hp, hsame⟩
  obtain ⟨i, hi⟩ := Option.isSome_iff_exists.1 hsome
  obtain ⟨hlt, hfirst, -⟩ := List.findIdx?_eq_some_iff_getElem.1 hi
  have hstored : a.get? ⟨i⟩ = some a.toList[i] := by
    rw [get?_eq]
    exact List.getElem?_eq_getElem hlt
  have hid : (⟨i⟩ : PropagatorId) = id :=
    h hstored hp (Propagator.beq_trans hfirst (Propagator.beq_symm hsame))
  have hnumber : a.numbering.number? q = some i := (a.numbering.number?_eq q).trans hi
  rw [Arena.intern, Numbering.intern_of_number? hnumber, ← hid]

/-! ## Interning one after the other -/

/-- The arena of propagators that are interned one after the other. -/
def ofList (props : List Propagator) : Arena := empty.internAll props

/-- Of propagators that are interned one after the other, each names a parent that is there by
then, or none. -/
def Founds : Arena → List Propagator → Prop
  | _, [] => True
  | a, p :: props => a.HasParent p ∧ (a.intern p).2.Founds props

theorem within_internAll (a : Arena) (props : List Propagator) : a.Within (a.internAll props) := by
  induction props generalizing a with
  | nil => exact .refl a
  | cons p props ih => exact (within_intern a p).trans (ih _)

theorem Distinct.internAll (h : a.Distinct) (props : List Propagator) :
    (a.internAll props).Distinct := by
  induction props generalizing a with
  | nil => exact h
  | cons p props ih => exact ih (h.intern p)

theorem Grounded.internAll (h : a.Grounded) (hfounds : a.Founds props) :
    (a.internAll props).Grounded := by
  induction props generalizing a with
  | nil => exact h
  | cons p props ih => exact ih (h.intern hfounds.1) hfounds.2

/-- A propagator keeps its name, whatever is interned later, and has no other. -/
theorem Distinct.intern_internAll (h : a.Distinct) (hsame : (p == q) = true)
    (more : List Propagator) :
    ((a.intern p).2.internAll more).intern q = ((a.intern p).1, (a.intern p).2.internAll more) := by
  obtain ⟨stored, hstored, hequal⟩ := get?_intern a p
  have hlater := (within_internAll (a.intern p).2 more).get? hstored
  exact ((h.intern p).internAll more).intern_eq hlater (Propagator.beq_trans hequal hsame)

/-! ## The way down -/

/-- Following parents from a name: the propagators that are passed, the own one first, and the
name where there is no parent any more. -/
inductive Descent (a : Arena) : PropagatorId → List Propagator → PropagatorId → Prop
  | bottom {id : PropagatorId} {p : Propagator} (stored : a.get? id = some p)
      (last : p.parent = none) : Descent a id [p] id
  | down {id parent root : PropagatorId} {p : Propagator} {below : List Propagator}
      (stored : a.get? id = some p) (next : p.parent = some parent)
      (rest : Descent a parent below root) : Descent a id (p :: below) root

/-- Every way down comes to an end, namely at the bottom, after as many steps as the depth
says. -/
theorem Grounded.descent (h : a.Grounded) (hp : a.get? id = some p) :
    ∃ passed, a.Descent id passed (a.rootOf id) ∧ passed.length = a.depth id + 1 := by
  -- induction on the number: parents have smaller ones
  induction hi : id.index using Nat.strongRecOn generalizing id p with
  | ind i ih =>
      cases hparent : p.parent with
      | none =>
          refine ⟨[p], (rootOf_of_root h hp hparent).symm ▸ .bottom hp hparent, ?_⟩
          rw [depth_of_root h hp hparent]
          rfl
      | some parent =>
          obtain ⟨caller, hcaller⟩ := exists_get?_of_lt (h.hasParent hp parent hparent)
          have hlt := h hp hparent
          obtain ⟨below, hbelow, hlength⟩ := ih parent.index (by omega) hcaller rfl
          refine ⟨p :: below, (rootOf_of_parent h hp hparent).symm ▸ .down hp hparent hbelow, ?_⟩
          rw [List.length_cons, hlength, depth_of_parent h hp hparent]

/-- What is passed on the way down are the layers of the stack. -/
theorem Descent.map_layer {root : PropagatorId} {passed : List Propagator} (h : a.Grounded)
    (hdown : a.Descent id passed root) : passed.map (·.layer) = a.stack id := by
  induction hdown with
  | bottom stored last =>
      rw [stack_eq h stored, stackOver, last]
      rfl
  | down stored next rest ih =>
      rw [stack_eq h stored, stackOver, next, List.map_cons, ih]
      rfl

theorem Descent.holds {root : PropagatorId} {passed : List Propagator} (h : a.Grounded)
    (hdown : a.Descent id passed root) : a.Holds id (passed.map (·.layer)) := by
  refine ⟨(hdown.map_layer h).symm, ?_⟩
  cases hdown <;> exact List.cons_ne_nil _ _

/-- Names are equal exactly if the propagators on the ways down are, one by one and but for the
names of their parents. -/
theorem Descent.eq_iff {root root' : PropagatorId} {passed passed' : List Propagator}
    (h : a.Grounded) (hdistinct : a.Distinct) (hdown : a.Descent id passed root)
    (hdown' : a.Descent id' passed' root') :
    id = id' ↔ List.Forall₂ Propagator.SameLayer passed passed' := by
  have hlayers : List.Forall₂ Propagator.SameLayer passed passed' ↔
      passed.map (·.layer) = passed'.map (·.layer) := by
    have hrelation : Propagator.SameLayer = fun p q => p.layer = q.layer :=
      funext fun p => funext fun q => propext Propagator.sameLayer_iff
    rw [← List.forall₂_eq_eq_eq, List.forall₂_map_left_iff, List.forall₂_map_right_iff, hrelation]
  rw [hlayers]
  constructor
  · rintro rfl
    rw [hdown.map_layer h, hdown'.map_layer h]
  · intro hsame
    exact (hdown.holds h).unique h hdistinct (hsame ▸ hdown'.holds h)

end Arena

/-- **Names identify stacks.** Whatever is interned one after the other, with parents that are
there by then: a name leads to what it was given for, and goes on to lead to it. An equal
propagator gets the name that is there, however much was interned in between, and the arena
stays as it is. Every way down from a name ends, at the bottom and after as many steps as the
depth says. Two names are equal exactly if the ways down pass equal taints, gaps, calls and
directions, one by one. -/
theorem names_identify_stacks (props : List Propagator) (hfounds : Arena.empty.Founds props) :
    (∀ p, ∃ q, ((Arena.ofList props).intern p).2.get? ((Arena.ofList props).intern p).1 = some q ∧
      (q == p) = true) ∧
    (∀ id p more, (Arena.ofList props).get? id = some p →
      (Arena.ofList (props ++ more)).get? id = some p) ∧
    (∀ p q more, (p == q) = true →
      (Arena.ofList (props ++ p :: more)).intern q =
        (((Arena.ofList props).intern p).1, Arena.ofList (props ++ p :: more))) ∧
    (∀ id p, (Arena.ofList props).get? id = some p →
      ∃ passed, (Arena.ofList props).Descent id passed ((Arena.ofList props).rootOf id) ∧
        passed.length = (Arena.ofList props).depth id + 1) ∧
    ∀ id id' root root' passed passed', (Arena.ofList props).Descent id passed root →
      (Arena.ofList props).Descent id' passed' root' →
        (id = id' ↔ List.Forall₂ Propagator.SameLayer passed passed') := by
  have hgrounded : (Arena.ofList props).Grounded := Arena.grounded_empty.internAll hfounds
  have hdistinct : (Arena.ofList props).Distinct := Arena.distinct_empty.internAll props
  have happend : ∀ more, Arena.ofList (props ++ more) = (Arena.ofList props).internAll more :=
    fun more => List.foldl_append
  refine ⟨(Arena.ofList props).get?_intern, fun id p more hp => ?_, fun p q more hsame => ?_,
    fun id p hp => hgrounded.descent hp, fun id id' root root' passed passed' hdown hdown' => ?_⟩
  · rw [happend]
    exact ((Arena.ofList props).within_internAll more).get? hp
  · rw [happend]
    exact hdistinct.intern_internAll hsame more
  · exact hdown.eq_iff hgrounded hdistinct hdown'

namespace Sample

/-- The taint of an argument at a call, with facts that were derived somewhere. -/
def argumentAt (stmt : Nat) (origin : Option StmtId) : Propagator :=
  .root ((localPath 1 false).toTaint (.parameter (some 0)) none)
    ⟨⟨stmt⟩, ⟨localPath 1 false, origin⟩, ⟨localPath 1 false, origin⟩⟩ false

/-- The taint of the argument in a callback, entered from a propagator. -/
def argumentIn (parent : Nat) : Propagator :=
  ⟨(localPath 1 false).toTaint (.parameter (some 0)) none, some callback, some ⟨parent⟩, none, false⟩

/-- The same callback is entered at two calls. -/
def twoCalls : List Propagator :=
  [argumentAt 1 none, argumentIn 0, argumentAt 2 none, argumentIn 2]

/-- In the callback the propagators are equal but for their parents, and have different names.
The first call is found again when its facts were derived elsewhere. -/
theorem twoCalls_have_names :
    Arena.empty.Founds twoCalls ∧
    (argumentAt 1 none == argumentAt 1 (some ⟨7⟩)) = true ∧
    (Arena.ofList twoCalls).intern (argumentAt 1 (some ⟨7⟩)) = (⟨0⟩, Arena.ofList twoCalls) ∧
    (Arena.ofList twoCalls).Descent ⟨1⟩ [argumentIn 0, argumentAt 1 none] ⟨0⟩ ∧
    (Arena.ofList twoCalls).Descent ⟨3⟩ [argumentIn 2, argumentAt 2 none] ⟨2⟩ ∧
    (argumentIn 0).SameLayer (argumentIn 2) ∧
    ¬ (argumentAt 1 none).SameLayer (argumentAt 2 none) := by
  have hfounds : Arena.empty.Founds twoCalls := by
    refine ⟨?_, ?_, ?_, ?_, trivial⟩
    · rintro parent ⟨⟩
    · rintro parent ⟨⟩
      decide +kernel
    · rintro parent ⟨⟩
    · rintro parent ⟨⟩
      decide +kernel
  have hequal : (argumentAt 1 none == argumentAt 1 (some ⟨7⟩)) = true := by decide +kernel
  obtain ⟨-, -, -, -, hnames⟩ := names_identify_stacks twoCalls hfounds
  have hfirst : (Arena.ofList twoCalls).Descent ⟨1⟩ [argumentIn 0, argumentAt 1 none] ⟨0⟩ :=
    .down rfl rfl (.bottom rfl rfl)
  have hsecond : (Arena.ofList twoCalls).Descent ⟨3⟩ [argumentIn 2, argumentAt 2 none] ⟨2⟩ :=
    .down rfl rfl (.bottom rfl rfl)
  have hsame : (argumentIn 0).SameLayer (argumentIn 2) := ⟨rfl, rfl, rfl, rfl⟩
  refine ⟨hfounds, hequal, ?_, hfirst, hsecond, hsame, fun hbottoms => ?_⟩
  · exact (names_identify_stacks [] trivial).2.2.1 _ _ twoCalls.tail hequal
  · have hclash := (hnames _ _ _ _ _ _ hfirst hsecond).2 (.cons hsame (.cons hbottoms .nil))
    cases hclash

end Sample

end TaintReplay
