import TaintReplay.Proofs.Deliveries
import TaintReplay.Proofs.StackDiscipline

/-!
# Arenas keep call stacks

A propagator names its parent, its gap and, at the bottom, its call. What it stands for is a
stack of calls: the gaps from its own down to the bottom (`Arena.gaps`) and the call there
(`Arena.callOf?`). Propagators share their parents, and leaving a frame copies what the parent
has, so that arenas keep such stacks at all has to be shown.

A flow whose sink is in a gap puts that gap on top; the taint is then relative to the method
called back. Any other flow takes the top gap off, and the taint is at the boundary of the gap
that was left. Taints that leave a frame do the same. The call at the bottom stays. Calls count
as the same by their statement and by the paths of their facts, as everywhere.

## Main results

* `Arena.Stacked.framed_stack`: every layer of a stack but the bottom is in a gap.
* `Arena.Stacked.standsIn`: where an interned propagator stands can be read off its stack.
* `flows_enter_and_leave_calls`: what flows and exits do to the stack of calls.
-/

namespace TaintReplay

/-! ## Layers in gaps -/

namespace Stack

/-- The gaps of a stack, the top first. -/
def gaps (st : Stack) : List Gap := st.filterMap (·.gap)

/-- Every layer but the bottom is in a gap. -/
inductive Framed : Stack → Prop
  | bottom {layer : Layer} (outside : layer.gap = none) : Framed [layer]
  | above {layer : Layer} {gap : Gap} {below : Stack} (inside : layer.gap = some gap)
      (framed : Framed below) : Framed (layer :: below)

variable {st below : Stack} {layer : Layer} {gap : Gap}

theorem gaps_cons_of_some (h : layer.gap = some gap) :
    gaps (layer :: below) = gap :: gaps below :=
  List.filterMap_cons_some h

/-- There is one layer more than there are gaps. -/
theorem Framed.length_eq (h : st.Framed) : st.length = st.gaps.length + 1 := by
  induction h with
  | bottom outside => simp [gaps, outside]
  | above inside _ ih => rw [gaps_cons_of_some inside, List.length_cons, List.length_cons, ih]

/-- The gap of the top layer is the first one. -/
theorem Framed.gap_eq_head? (h : Framed (layer :: below)) :
    layer.gap = (gaps (layer :: below)).head? := by
  cases h with
  | bottom outside => simp [gaps, outside]
  | above inside _ => rw [gaps_cons_of_some inside, inside, List.head?_cons]

/-- Leaving the top frame takes the first gap off. -/
theorem Framed.gaps_leave (h : st.Framed) (t : Taint) : gaps (Stack.leave t st) = st.gaps.tail := by
  cases h with
  | bottom outside => simp [Stack.leave, gaps, outside]
  | above inside framed =>
      rename_i below
      rw [gaps_cons_of_some inside, List.tail_cons]
      cases below with
      | nil => cases framed
      | cons caller below => rfl

end Stack

/-! ## Stacks of calls -/

namespace Arena

/-- The gaps that a propagator stands in, from its own down to the bottom of its stack. -/
def gaps (a : Arena) (id : PropagatorId) : List Gap :=
  (a.chain id).filterMap fun i => (a.get? i).bind (·.gap)

/-- The call at the bottom of the stack of a propagator. -/
def callOf? (a : Arena) (id : PropagatorId) : Option CallSite :=
  (a.get? (a.rootOf id)).bind (·.site)

variable {a : Arena} {id : PropagatorId} {p q : Propagator}

theorem gaps_eq (a : Arena) (id : PropagatorId) : a.gaps id = (a.stack id).gaps := by
  rw [gaps, Stack.gaps, stack, List.filterMap_filterMap]
  refine List.filterMap_congr fun i _ => ?_
  cases a.get? i <;> rfl

/-- A stack has a layer for each name from a stored propagator downwards. -/
theorem length_stack (h : a.Grounded) (hp : a.get? id = some p) :
    (a.stack id).length = (a.chain id).length := by
  -- induction on the number: parents have smaller ones
  induction hi : id.index using Nat.strongRecOn generalizing id p with
  | ind i ih =>
      rw [stack_eq h hp, chain_eq h hp, stackOver]
      cases hparent : p.parent with
      | none => rfl
      | some parent =>
          obtain ⟨caller, hcaller⟩ := exists_get?_of_lt (h.hasParent hp parent hparent)
          have hlt := h hp hparent
          simp [ih parent.index (by omega) hcaller rfl]

theorem callOf?_eq (h : a.Grounded) (hp : a.get? id = some p) :
    (a.callOf? id).map CallSite.key = (a.stack id).site? := by
  obtain ⟨root, hroot, -, hlast⟩ := exists_get?_rootOf h hp
  rw [callOf?, hroot, Stack.site?, hlast]
  rfl

/-- Every layer of a stack but the bottom is in a gap. -/
theorem Stacked.framed_stack (h : a.Stacked) (hp : a.get? id = some p) :
    (a.stack id).Framed := by
  -- induction on the number: parents have smaller ones
  induction hi : id.index using Nat.strongRecOn generalizing id p with
  | ind i ih =>
      have hgap := (h.framed hp).gap
      rw [stack_eq h.grounded hp, stackOver]
      cases hparent : p.parent with
      | none =>
          rw [hparent] at hgap
          exact .bottom (Option.isNone_iff_eq_none.1 (Option.isSome_eq_false_iff.1 hgap))
      | some parent =>
          rw [hparent] at hgap
          obtain ⟨gap, hinside⟩ := Option.isSome_iff_exists.1 hgap
          obtain ⟨caller, hcaller⟩ := exists_get?_of_lt (h.grounded.hasParent hp parent hparent)
          have hlt := h.grounded hp hparent
          exact .above hinside (ih parent.index (by omega) hcaller rfl)

/-- The depth of a propagator is the number of gaps that it stands in. -/
theorem Stacked.depth_eq (h : a.Stacked) (hp : a.get? id = some p) :
    a.depth id = (a.gaps id).length := by
  rw [depth, ← length_stack h.grounded hp, (h.framed_stack hp).length_eq, gaps_eq,
    Nat.add_sub_cancel]

/-- A stack has a call at the bottom. -/
theorem Stacked.exists_callOf? (h : a.Stacked) (hp : a.get? id = some p) :
    ∃ site, a.callOf? id = some site := by
  obtain ⟨root, hroot, hbottom, -⟩ := exists_get?_rootOf h.grounded hp
  have hsite := (h.framed hroot).site
  rw [hbottom] at hsite
  rw [callOf?, hroot]
  exact Option.isSome_iff_exists.1 (Option.isNone_eq_false_iff.1 hsite)

/-- Interned, the propagator `q` stands in `gaps`, that many frames above the bottom, and
above the same call as `id`. It follows flows forward. -/
structure StandsIn (a : Arena) (id : PropagatorId) (q : Propagator) (gaps : List Gap)
    (depth : Nat) : Prop where
  gaps : (a.intern q).2.gaps (a.intern q).1 = gaps
  depth : (a.intern q).2.depth (a.intern q).1 = depth
  call : ∃ site site', a.callOf? id = some site ∧
    (a.intern q).2.callOf? (a.intern q).1 = some site' ∧ (site' == site) = true
  forward : q.inverse = false

/-- Where an interned propagator stands can be read off the stack that it makes with that of
its parent. -/
theorem Stacked.standsIn (h : a.Stacked) (hp : a.get? id = some p)
    (hq : a.Derives (fun _ => True) q) (hforward : q.inverse = false)
    (hcall : (a.stackOver q).site? = (a.stack id).site?) :
    a.StandsIn id q (a.stackOver q).gaps (a.stackOver q).gaps.length := by
  have hgrown := h.intern hq
  obtain ⟨stored, hstored, -⟩ := get?_intern a q
  have hstack := stack_intern h.grounded (hq.hasParent h.grounded)
  have hgaps : (a.intern q).2.gaps (a.intern q).1 = (a.stackOver q).gaps := by
    rw [gaps_eq, hstack]
  refine ⟨hgaps, by rw [hgrown.depth_eq hstored, hgaps], ?_, hforward⟩
  obtain ⟨site, hsite⟩ := h.exists_callOf? hp
  obtain ⟨site', hsite'⟩ := hgrown.exists_callOf? hstored
  refine ⟨site, site', hsite, hsite', CallSite.beq_iff_key.2 (Option.some.inj ?_)⟩
  calc some site'.key
      _ = ((a.intern q).2.callOf? (a.intern q).1).map CallSite.key := by rw [hsite', Option.map_some]
      _ = (a.stackOver q).site? := by rw [callOf?_eq hgrown.grounded hstored, hstack]
      _ = (a.callOf? id).map CallSite.key := by rw [hcall, callOf?_eq h.grounded hp]
      _ = some site.key := by rw [hsite, Option.map_some]

/-! ## Entering and leaving -/

/-- A taint that leaves the frame of a stored propagator takes its gap off. -/
theorem Stacked.standsIn_inFrame (h : a.Stacked) (hp : a.get? id = some p) (t : Taint) :
    a.StandsIn id (.inFrame t (a.callerFrame p)) (a.gaps id).tail (a.depth id - 1) := by
  have hstack := stackOver_inFrame h.grounded hp t
  have hleft := h.standsIn hp (.leave t hp) rfl (by rw [hstack, Stack.site?_leave])
  have hgaps : (a.stackOver (.inFrame t (a.callerFrame p))).gaps = (a.gaps id).tail := by
    rw [hstack, (h.framed_stack hp).gaps_leave, gaps_eq]
  rw [hgaps, List.length_tail, ← h.depth_eq hp] at hleft
  exact hleft

/-- The gap of a stored propagator is the first that it stands in. -/
theorem Stacked.gap_eq_head? (h : a.Stacked) (hp : a.get? id = some p) :
    p.gap = (a.gaps id).head? := by
  have hframed := h.framed_stack hp
  rw [gaps_eq]
  rw [stack_eq h.grounded hp] at hframed ⊢
  exact hframed.gap_eq_head?

/-- A flow into a gap puts it on top. -/
theorem Stacked.standsIn_of_enters (h : a.Stacked) {hierarchy : Hierarchy} {flow : Flow} {gap : Gap}
    (hq : hierarchy.applyFlow? a flow id = some q) (hsink : flow.sink.gap = some gap) :
    a.StandsIn id q (gap :: a.gaps id) (a.depth id + 1) ∧ q.taint.gap = none := by
  obtain ⟨p, moved, hp, -, hmoved, heq⟩ := Hierarchy.applyFlow?_eq_some_iff.1 hq
  simp only [targetFrame, hsink] at heq hmoved
  have hstack : a.stackOver q = ⟨moved, some gap, none, false⟩ :: a.stack id := by
    rw [heq]
    rfl
  have hcall : (a.stackOver q).site? = (a.stack id).site? := by
    rw [hstack, stack_eq h.grounded hp]
    rfl
  have hentered := h.standsIn hp (.flow hq) (by rw [heq]; rfl) hcall
  have hgaps : (a.stackOver q).gaps = gap :: a.gaps id := by
    rw [hstack, Stack.gaps_cons_of_some rfl, gaps_eq]
  rw [hgaps, List.length_cons, ← h.depth_eq hp] at hentered
  refine ⟨hentered, ?_⟩
  rw [heq]
  exact congrArg Place.gap (Hierarchy.sinkTaint?_eq_some_iff.1 hmoved).2

/-- Any other flow takes the top gap off, and the taint is at its boundary. -/
theorem Stacked.standsIn_of_leaves (h : a.Stacked) {hierarchy : Hierarchy} {flow : Flow}
    (hq : hierarchy.applyFlow? a flow id = some q) (hsink : flow.sink.gap = none) :
    a.StandsIn id q (a.gaps id).tail (a.depth id - 1) ∧ q.taint.gap = (a.gaps id).head? := by
  obtain ⟨p, moved, hp, -, hmoved, heq⟩ := Hierarchy.applyFlow?_eq_some_iff.1 hq
  simp only [targetFrame, hsink] at heq hmoved
  rw [heq]
  refine ⟨h.standsIn_inFrame hp moved, ?_⟩
  rw [← h.gap_eq_head? hp]
  exact congrArg Place.gap (Hierarchy.sinkTaint?_eq_some_iff.1 hmoved).2

/-- Taints at an exit are at the boundary of the gap that is left. -/
theorem gap_of_mem_taintsOnReturn {program : Program} {path : AccessPath} {s : StmtId}
    {gap : Option Gap} {t : Taint} (ht : t ∈ program.taintsOnReturn path s gap) : t.gap = gap := by
  unfold Program.taintsOnReturn at ht
  split at ht
  · obtain ⟨role, -, rfl⟩ := List.mem_map.1 (OrdSet.mem_ofList.1 ht)
    rfl
  · exact absurd ht (OrdSet.not_mem_empty t)

end Arena

/-- In every arena filled by what replays make, a flow with a sink in a gap enters the gap and
any other leaves the top one, if there is one; the call at the bottom stays. The taint is
relative to the method entered, or at the boundary of the gap that was left. Taints that leave
the frame of a propagator leave the top gap too, and those of an exit are at its boundary. -/
theorem flows_enter_and_leave_calls (steps : List Arena.Growth) :
    (∀ (h : Hierarchy) (flow : Flow) (id : PropagatorId) (q : Propagator),
      h.applyFlow? (Arena.grown steps) flow id = some q →
        (∀ gap, flow.sink.gap = some gap →
          (Arena.grown steps).StandsIn id q (gap :: (Arena.grown steps).gaps id)
            ((Arena.grown steps).depth id + 1) ∧ q.taint.gap = none) ∧
        (flow.sink.gap = none →
          (Arena.grown steps).StandsIn id q ((Arena.grown steps).gaps id).tail
            ((Arena.grown steps).depth id - 1) ∧
          q.taint.gap = ((Arena.grown steps).gaps id).head?)) ∧
    ∀ (id : PropagatorId) (p : Propagator), (Arena.grown steps).get? id = some p →
      (∀ taints, ((Arena.grown steps).leaveFrame p taints).map (·.taint) = taints ∧
        ∀ q ∈ (Arena.grown steps).leaveFrame p taints,
          (Arena.grown steps).StandsIn id q ((Arena.grown steps).gaps id).tail
            ((Arena.grown steps).depth id - 1)) ∧
      ∀ (program : Program) (path : AccessPath) (s : StmtId),
        ∀ t ∈ program.taintsOnReturn path s p.gap,
          t.gap = ((Arena.grown steps).gaps id).head? := by
  have hstacked := Arena.stacked_grown steps
  refine ⟨fun h flow id q hq => ⟨fun gap => ?_, ?_⟩, fun id p hp => ⟨fun taints => ⟨?_, ?_⟩, ?_⟩⟩
  · exact hstacked.standsIn_of_enters hq
  · exact hstacked.standsIn_of_leaves hq
  · rw [Arena.leaveFrame, List.map_map]
    exact List.map_id taints
  · intro q hq
    obtain ⟨t, -, rfl⟩ := List.mem_map.1 hq
    exact hstacked.standsIn_inFrame hp t
  · intro program path s t ht
    rw [Arena.gap_of_mem_taintsOnReturn ht, hstacked.gap_eq_head? hp]

namespace Sample

/-- The taint of the argument goes into the callback, and there into the callback again. -/
def nesting : List Arena.Growth :=
  [.root ((localPath 1 false).toTaint (.parameter (some 0)) none) site false,
    .flow hierarchy intoCallback ⟨0⟩, .flow hierarchy intoCallback ⟨1⟩]

/-- A method that returns its argument. -/
def handBack : Flow :=
  ⟨apply.subSignature, .parameter 0 object, .ofKind .returned object, false⟩

/-- From two callbacks, a flow enters a third, and another leaves for the first. -/
theorem nesting_enters_and_leaves :
    (Arena.grown nesting).gaps ⟨2⟩ = [callback, callback] ∧
    (∃ q, hierarchy.applyFlow? (Arena.grown nesting) intoCallback ⟨2⟩ = some q ∧
      (Arena.grown nesting).StandsIn ⟨2⟩ q [callback, callback, callback] 3 ∧
      q.taint.gap = none) ∧
    ∃ q, hierarchy.applyFlow? (Arena.grown nesting) handBack ⟨2⟩ = some q ∧
      (Arena.grown nesting).StandsIn ⟨2⟩ q [callback] 1 ∧ q.taint.gap = some callback := by
  have hgaps : (Arena.grown nesting).gaps ⟨2⟩ = [callback, callback] := by decide +kernel
  have hdepth : (Arena.grown nesting).depth ⟨2⟩ = 2 := by decide +kernel
  have henters : (hierarchy.applyFlow? (Arena.grown nesting) intoCallback ⟨2⟩).isSome = true := by
    decide +kernel
  have hleaves : (hierarchy.applyFlow? (Arena.grown nesting) handBack ⟨2⟩).isSome = true := by
    decide +kernel
  refine ⟨hgaps, ?_, ?_⟩
  · obtain ⟨q, hq⟩ := Option.isSome_iff_exists.1 henters
    have hentered := ((flows_enter_and_leave_calls nesting).1 hierarchy _ _ q hq).1 callback rfl
    rw [hgaps, hdepth] at hentered
    exact ⟨q, hq, hentered⟩
  · obtain ⟨q, hq⟩ := Option.isSome_iff_exists.1 hleaves
    have hleft := ((flows_enter_and_leave_calls nesting).1 hierarchy _ _ q hq).2 rfl
    rw [hgaps, hdepth] at hleft
    exact ⟨q, hq, hleft⟩

end Sample

end TaintReplay
