import TaintReplay.Proofs.FlowApplication

/-!
# Stacks

A propagator of an arena stands for a stack: the taint in its own frame and,
along the parents, what was left behind in the frames below. Names depend on
the order in which propagators were met and on everything else that was
interned; stacks do not. Two replays, or two moments of one, are therefore
compared by stacks.

An arena is *grounded* if parents were there before the propagators that name
them. Then every stack ends, and a stored propagator puts one layer on the
stack of its parent.

Flows act on stacks: a sink in a gap puts a layer on top, any other takes the
top layer off and changes the taint of the one that is seen then.

## Main results

* `Arena.stack_eq`: a stored propagator is a layer on the stack of its parent.
* `Arena.stack_of_within`: stacks stay as they are when an arena grows.
* `Arena.stack_intern`: the name of a propagator stands for its stack.
* `Hierarchy.applyToStack?_stack`: applying a flow to a propagator applies it to its stack.
-/

namespace TaintReplay

/-! ## Layers -/

/-- What tells calls apart: facts count by their paths. -/
structure SiteKey where
  stmt : StmtId
  context : AccessPath
  fact : AccessPath
deriving DecidableEq

/-- What tells a call from others. -/
def CallSite.key (site : CallSite) : SiteKey := ⟨site.stmt, site.context.path, site.fact.path⟩

theorem CallSite.beq_iff_key {a b : CallSite} : (a == b) = true ↔ a.key = b.key := by
  rw [CallSite.beq_iff]
  show a.stmt = b.stmt ∧ (a.context.path == b.context.path) = true ∧
    (a.fact.path == b.fact.path) = true ↔ _
  simp [CallSite.key]

/-- What a propagator adds to the stack of its parent. -/
structure Layer where
  taint : Taint
  gap : Option Gap
  site : Option SiteKey
  inverse : Bool
deriving DecidableEq

/-- The layers of a stack, the top first. -/
abbrev Stack := List Layer

namespace Propagator

/-- The layer of a propagator. -/
def layer (p : Propagator) : Layer := ⟨p.taint, p.gap, p.site.map CallSite.key, p.inverse⟩

/-- Propagators are the same if their layers and parents are. -/
theorem beq_iff_layer {p q : Propagator} :
    (p == q) = true ↔ p.layer = q.layer ∧ p.parent = q.parent := by
  rw [beq_iff]
  have hsite : (p.site == q.site) = true ↔ p.site.map CallSite.key = q.site.map CallSite.key := by
    cases p.site with
    | none => cases q.site <;> simp
    | some a =>
        cases q.site with
        | none => simp
        | some b =>
            rw [Option.map_some, Option.map_some, Option.some.injEq]
            exact CallSite.beq_iff_key
  rw [hsite, layer, layer, Layer.mk.injEq]
  constructor
  · rintro ⟨ht, hg, hp, hs, hi⟩
    exact ⟨⟨ht, hg, hs, hi⟩, hp⟩
  · rintro ⟨⟨ht, hg, hs, hi⟩, hp⟩
    exact ⟨ht, hg, hp, hs, hi⟩

end Propagator

namespace Arena

/-! ## Growing -/

/-- All propagators of an arena are in another, under the same names. -/
def Within (a b : Arena) : Prop := a.toList <+: b.toList

theorem Within.refl (a : Arena) : a.Within a := List.prefix_refl _

theorem Within.trans {a b c : Arena} (hab : a.Within b) (hbc : b.Within c) : a.Within c :=
  List.IsPrefix.trans hab hbc

theorem Within.get? {a b : Arena} (h : a.Within b) {id : PropagatorId} {p : Propagator}
    (hp : a.get? id = some p) : b.get? id = some p := by
  rw [get?_eq] at hp ⊢
  obtain ⟨rest, hrest⟩ := h
  have hlt := (List.getElem?_eq_some_iff.1 hp).1
  rw [← hrest, List.getElem?_append_left hlt, hp]

theorem within_intern (a : Arena) (p : Propagator) : a.Within (a.intern p).2 := by
  unfold Within
  rw [toList_intern]
  split
  · exact List.prefix_refl _
  · exact List.prefix_append _ _

theorem index_lt_of_get? {a : Arena} {id : PropagatorId} {p : Propagator}
    (h : a.get? id = some p) : id.index < a.toList.length := by
  rw [get?_eq] at h
  exact (List.getElem?_eq_some_iff.1 h).1

theorem exists_get?_of_lt {a : Arena} {id : PropagatorId} (h : id.index < a.toList.length) :
    ∃ p, a.get? id = some p := by
  rw [get?_eq]
  exact ⟨a.toList[id.index], List.getElem?_eq_getElem h⟩

/-! ## Grounded arenas -/

/-- Parents were there before the propagators that name them. -/
def Grounded (a : Arena) : Prop :=
  ∀ ⦃id p parent⦄, a.get? id = some p → p.parent = some parent → parent.index < id.index

/-- The parent of a propagator, if it has one, is in the arena. -/
def HasParent (a : Arena) (p : Propagator) : Prop :=
  ∀ parent, p.parent = some parent → parent.index < a.toList.length

theorem grounded_empty : empty.Grounded := by
  intro id p parent hp
  rw [get?_eq] at hp
  simp at hp

theorem Within.grounded {a b : Arena} (h : a.Within b) (hb : b.Grounded) : a.Grounded :=
  fun _ _ _ hp hparent => hb (h.get? hp) hparent

theorem Within.hasParent {a b : Arena} (h : a.Within b) {p : Propagator} (hp : a.HasParent p) :
    b.HasParent p :=
  fun parent hparent => Nat.lt_of_lt_of_le (hp parent hparent) h.length_le

theorem Grounded.hasParent {a : Arena} (h : a.Grounded) {id : PropagatorId} {p : Propagator}
    (hp : a.get? id = some p) : a.HasParent p :=
  fun _ hparent => Nat.lt_trans (h hp hparent) (index_lt_of_get? hp)

/-- A propagator that an arena has after interning was there, or is the new one
at the end. -/
theorem get?_of_get?_intern {a : Arena} {q p : Propagator} {id : PropagatorId}
    (h : (a.intern q).2.get? id = some p) :
    a.get? id = some p ∨ p = q ∧ id.index = a.toList.length := by
  rw [get?_eq, toList_intern] at h
  split at h
  · exact .inl (by rw [get?_eq]; exact h)
  · by_cases hlt : id.index < a.toList.length
    · rw [List.getElem?_append_left hlt] at h
      exact .inl (by rw [get?_eq]; exact h)
    · rw [List.getElem?_append_right (Nat.le_of_not_lt hlt)] at h
      obtain ⟨hzero, hq⟩ := List.getElem?_eq_some_iff.1 h
      rw [List.length_singleton] at hzero
      rw [List.getElem_singleton] at hq
      exact .inr ⟨hq.symm, by omega⟩

theorem Grounded.intern {a : Arena} (h : a.Grounded) {q : Propagator} (hq : a.HasParent q) :
    (a.intern q).2.Grounded := by
  intro id p parent hp hparent
  rcases get?_of_get?_intern hp with hold | ⟨rfl, hid⟩
  · exact h hold hparent
  · rw [hid]
    exact hq parent hparent

/-! ## Stacks of propagators -/

/-- The stack that a name stands for. -/
def stack (a : Arena) (id : PropagatorId) : Stack :=
  (a.chain id).filterMap fun i => (a.get? i).map Propagator.layer

/-- The stack that a propagator makes with that of its parent. -/
def stackOver (a : Arena) (p : Propagator) : Stack :=
  p.layer :: ((p.parent.map a.stack).getD [])

/-- Along parents that were there before, more fuel than the number of a name is
enough. -/
theorem chainFrom_eq_of_lt {a : Arena} (h : a.Grounded) {id : PropagatorId} {m n : Nat}
    (hm : id.index < m) (hn : id.index < n) : a.chainFrom m id = a.chainFrom n id := by
  induction m generalizing id n with
  | zero => omega
  | succ m ih =>
      obtain ⟨n, rfl⟩ : ∃ k, n = k + 1 := ⟨n - 1, by omega⟩
      rw [chainFrom, chainFrom]
      cases hp : (a.get? id).bind (·.parent) with
      | none => rfl
      | some parent =>
          obtain ⟨p, hget, hparent⟩ := Option.bind_eq_some_iff.1 hp
          have hlt := h hget hparent
          exact congrArg (id :: ·) (ih (by omega) (by omega))

/-- The names from a stored propagator downwards are its own and those from its
parent. -/
theorem chain_eq {a : Arena} (h : a.Grounded) {id : PropagatorId} {p : Propagator}
    (hp : a.get? id = some p) : a.chain id = id :: ((p.parent.map a.chain).getD []) := by
  have hsize : id.index < a.size := by
    rw [size_eq_length]
    exact index_lt_of_get? hp
  obtain ⟨n, hn⟩ : ∃ n, a.size = n + 1 := ⟨a.size - 1, by omega⟩
  rw [chain, hn, chainFrom, hp, Option.bind_some]
  cases hparent : p.parent with
  | none => rfl
  | some parent =>
      have hlt := h hp hparent
      have hchain : a.chainFrom n parent = a.chain parent := by
        rw [chain]
        exact chainFrom_eq_of_lt h (by omega) (by omega)
      exact congrArg (id :: ·) hchain

/-- At the bottom of a stack there is nothing to go down to. -/
theorem chain_of_root {a : Arena} (h : a.Grounded) {id : PropagatorId} {p : Propagator}
    (hp : a.get? id = some p) (hparent : p.parent = none) : a.chain id = [id] := by
  rw [chain_eq h hp, hparent]
  rfl

theorem chain_of_parent {a : Arena} (h : a.Grounded) {id parent : PropagatorId} {p : Propagator}
    (hp : a.get? id = some p) (hparent : p.parent = some parent) :
    a.chain id = id :: a.chain parent := by
  rw [chain_eq h hp, hparent]
  rfl

theorem chain_ne_nil {a : Arena} (h : a.Grounded) {id : PropagatorId} {p : Propagator}
    (hp : a.get? id = some p) : a.chain id ≠ [] := by
  rw [chain_eq h hp]
  exact List.cons_ne_nil _ _

theorem rootOf_of_root {a : Arena} (h : a.Grounded) {id : PropagatorId} {p : Propagator}
    (hp : a.get? id = some p) (hparent : p.parent = none) : a.rootOf id = id := by
  rw [rootOf, chain_of_root h hp hparent]
  rfl

/-- A propagator and its parent stand on the same bottom. -/
theorem rootOf_of_parent {a : Arena} (h : a.Grounded) {id parent : PropagatorId} {p : Propagator}
    (hp : a.get? id = some p) (hparent : p.parent = some parent) :
    a.rootOf id = a.rootOf parent := by
  obtain ⟨caller, hcaller⟩ := exists_get?_of_lt (h.hasParent hp parent hparent)
  have hne := chain_ne_nil h hcaller
  rw [rootOf, rootOf, chain_of_parent h hp hparent, List.getLast?_cons_of_ne_nil hne,
    List.getLast?_eq_some_getLast hne, Option.getD_some, Option.getD_some]

theorem depth_of_root {a : Arena} (h : a.Grounded) {id : PropagatorId} {p : Propagator}
    (hp : a.get? id = some p) (hparent : p.parent = none) : a.depth id = 0 := by
  rw [depth, chain_of_root h hp hparent]
  rfl

/-- A propagator is one frame above its parent. -/
theorem depth_of_parent {a : Arena} (h : a.Grounded) {id parent : PropagatorId} {p : Propagator}
    (hp : a.get? id = some p) (hparent : p.parent = some parent) :
    a.depth id = a.depth parent + 1 := by
  obtain ⟨caller, hcaller⟩ := exists_get?_of_lt (h.hasParent hp parent hparent)
  have hpos : 0 < (a.chain parent).length := List.length_pos_iff.2 (chain_ne_nil h hcaller)
  rw [depth, depth, chain_of_parent h hp hparent, List.length_cons]
  omega

/-- A stored propagator is a layer on the stack of its parent. -/
theorem stack_eq {a : Arena} (h : a.Grounded) {id : PropagatorId} {p : Propagator}
    (hp : a.get? id = some p) : a.stack id = a.stackOver p := by
  rw [stack, chain_eq h hp, stackOver]
  cases hparent : p.parent with
  | none => simp [hp]
  | some parent => simp [hp, stack]

theorem stack_of_get?_none {a : Arena} {id : PropagatorId} (hp : a.get? id = none) :
    a.stack id = [] := by
  rw [stack, chain]
  cases a.size with
  | zero => rfl
  | succ n => simp [chainFrom, hp]

theorem stack_ne_nil {a : Arena} (h : a.Grounded) {id : PropagatorId} {p : Propagator}
    (hp : a.get? id = some p) : a.stack id ≠ [] := by
  rw [stack_eq h hp]
  exact List.cons_ne_nil _ _

/-- Stacks stay as they are when an arena grows. -/
theorem stack_of_within {a b : Arena} (hab : a.Within b) (hb : b.Grounded) {id : PropagatorId}
    {p : Propagator} (hp : a.get? id = some p) : b.stack id = a.stack id := by
  have ha := hab.grounded hb
  -- induction on the number: parents have smaller ones
  induction hi : id.index using Nat.strongRecOn generalizing id p with
  | ind i ih =>
      rw [stack_eq ha hp, stack_eq hb (hab.get? hp), stackOver, stackOver]
      cases hparent : p.parent with
      | none => rfl
      | some parent =>
          have hlt := ha hp hparent
          have hstored := exists_get?_of_lt (Nat.lt_trans hlt (index_lt_of_get? hp))
          obtain ⟨q, hq⟩ := hstored
          have hsame := ih parent.index (by omega) hq rfl
          simp only [Option.map_some, Option.getD_some, hsame]

/-- So do the stacks that propagators make. -/
theorem stackOver_of_within {a b : Arena} (hab : a.Within b) (hb : b.Grounded) {q : Propagator}
    (hq : a.HasParent q) : b.stackOver q = a.stackOver q := by
  rw [stackOver, stackOver]
  cases hparent : q.parent with
  | none => rfl
  | some parent =>
      obtain ⟨p, hp⟩ := exists_get?_of_lt (hq parent hparent)
      simp only [Option.map_some, Option.getD_some, stack_of_within hab hb hp]

/-- The name of a propagator stands for its stack. -/
theorem stack_intern {a : Arena} (h : a.Grounded) {q : Propagator} (hq : a.HasParent q) :
    (a.intern q).2.stack (a.intern q).1 = a.stackOver q := by
  have hgrown := h.intern hq
  obtain ⟨p, hp, hsame⟩ := get?_intern a q
  obtain ⟨hlayer, hparent⟩ := Propagator.beq_iff_layer.1 hsame
  rw [stack_eq hgrown hp, ← stackOver_of_within (within_intern a q) hgrown hq, stackOver, stackOver,
    hlayer, hparent]

/-- A propagator is at the bottom if its stack has one layer. -/
theorem stackOver_eq_singleton_iff {a : Arena} (h : a.Grounded) {q : Propagator}
    (hq : a.HasParent q) : a.stackOver q = [q.layer] ↔ q.parent = none := by
  rw [stackOver]
  cases hparent : q.parent with
  | none => simp
  | some parent =>
      obtain ⟨p, hp⟩ := exists_get?_of_lt (hq parent hparent)
      simp [stack_ne_nil h hp]

/-- The bottom of a stack: a propagator without parent, whose layer is the last. -/
theorem exists_get?_rootOf {a : Arena} (h : a.Grounded) {id : PropagatorId} {p : Propagator}
    (hp : a.get? id = some p) :
    ∃ root, a.get? (a.rootOf id) = some root ∧ root.parent = none ∧
      (a.stack id).getLast? = some root.layer := by
  -- induction on the number: parents have smaller ones
  induction hi : id.index using Nat.strongRecOn generalizing id p with
  | ind i ih =>
      cases hparent : p.parent with
      | none =>
          refine ⟨p, (rootOf_of_root h hp hparent).symm ▸ hp, hparent, ?_⟩
          rw [stack_eq h hp, stackOver, hparent]
          rfl
      | some parent =>
          have hlt := h hp hparent
          obtain ⟨q, hq⟩ := exists_get?_of_lt (Nat.lt_trans hlt (index_lt_of_get? hp))
          obtain ⟨root, hroot, hbottom, hlast⟩ := ih parent.index (by omega) hq rfl
          refine ⟨root, (rootOf_of_parent h hp hparent).symm ▸ hroot, hbottom, ?_⟩
          rw [stack_eq h hp, stackOver, hparent, Option.map_some, Option.getD_some,
            List.getLast?_cons, hlast]
          rfl

end Arena

/-! ## Flows on stacks -/

/-- A taint leaves the top frame of a stack, or moves at the bottom. -/
def Stack.leave (t : Taint) : Stack → Stack
  | [] => []
  | [bottom] => [⟨t, none, bottom.site, false⟩]
  | _ :: caller :: below => ⟨t, caller.gap, caller.site, false⟩ :: below

/-- A taint that leaves the frame of a stored propagator leaves its stack. -/
theorem Arena.stackOver_inFrame {a : Arena} (h : a.Grounded) {id : PropagatorId} {p : Propagator}
    (hp : a.get? id = some p) (t : Taint) :
    a.stackOver (.inFrame t (a.callerFrame p)) = Stack.leave t (a.stack id) := by
  rw [stack_eq h hp, stackOver, stackOver]
  cases hparent : p.parent with
  | none => simp [callerFrame, hparent, Propagator.inFrame, Propagator.layer, Stack.leave]
  | some parent =>
      obtain ⟨caller, hcaller⟩ := exists_get?_of_lt (h.hasParent hp parent hparent)
      simp only [Option.map_some, Option.getD_some]
      rw [stack_eq h hcaller, stackOver]
      simp [callerFrame, hparent, hcaller, Propagator.inFrame, Propagator.layer, Stack.leave]

/-- The frame a stored propagator returns to has its parent in the arena. -/
theorem Arena.hasParent_inFrame {a : Arena} (h : a.Grounded) {id : PropagatorId} {p : Propagator}
    (hp : a.get? id = some p) (t : Taint) : a.HasParent (.inFrame t (a.callerFrame p)) := by
  intro k hk
  change (a.callerFrame p).parent = some k at hk
  rw [callerFrame] at hk
  cases hparent : p.parent with
  | none => simp [hparent] at hk
  | some parent =>
      obtain ⟨caller, hcaller⟩ := exists_get?_of_lt (h.hasParent hp parent hparent)
      simp only [hparent, Option.bind_some, hcaller] at hk
      exact h.hasParent hcaller k hk

/-- Applies a flow to the taint on top of a stack. -/
def Hierarchy.applyToStack? (h : Hierarchy) (flow : Flow) : Stack → Option Stack
  | [] => none
  | top :: below =>
    if h.admits flow top.taint then
      match flow.sink.gap with
      | some gap =>
        (h.sinkTaint? flow.source flow.sink top.taint none).map fun t =>
          ⟨t, some gap, none, false⟩ :: top :: below
      | none =>
        (h.sinkTaint? flow.source flow.sink top.taint top.gap).map fun t =>
          Stack.leave t (top :: below)
    else none

namespace Hierarchy

/-- A flow opens a gap over the stack, or leaves its top frame. -/
theorem applyToStack?_cases {h : Hierarchy} {flow : Flow} {top : Layer} {below out : Stack}
    (hout : h.applyToStack? flow (top :: below) = some out) :
    (∃ gap, flow.sink.gap = some gap ∧
      out = ⟨top.taint.movedTo flow.source flow.sink none, some gap, none, false⟩ ::
        top :: below) ∨
      flow.sink.gap = none ∧
        out = Stack.leave (top.taint.movedTo flow.source flow.sink top.gap) (top :: below) := by
  rw [applyToStack?] at hout
  split at hout
  · split at hout
    · rename_i gap hgap
      obtain ⟨t, ht, rfl⟩ := Option.map_eq_some_iff.1 hout
      exact .inl ⟨gap, hgap, by rw [(sinkTaint?_eq_some_iff.1 ht).2]⟩
    · rename_i hgap
      obtain ⟨t, ht, rfl⟩ := Option.map_eq_some_iff.1 hout
      exact .inr ⟨hgap, by rw [(sinkTaint?_eq_some_iff.1 ht).2]⟩
  · cases hout

/-- What a flow makes of a stored propagator has its parent in the arena. -/
theorem hasParent_of_applyFlow? {h : Hierarchy} {a : Arena} (grounded : a.Grounded) {flow : Flow}
    {id : PropagatorId} {q : Propagator} (hq : h.applyFlow? a flow id = some q) :
    a.HasParent q := by
  obtain ⟨p, moved, hp, -, -, rfl⟩ := applyFlow?_eq_some_iff.1 hq
  cases hgap : flow.sink.gap with
  | none =>
      simp only [Arena.targetFrame, hgap]
      exact Arena.hasParent_inFrame grounded hp moved
  | some gap =>
      intro k hk
      simp only [Arena.targetFrame, hgap, Propagator.inFrame, Option.some.injEq] at hk
      exact hk ▸ Arena.index_lt_of_get? hp

/-- Applying a flow to a propagator applies it to its stack. -/
theorem applyToStack?_stack (h : Hierarchy) {a : Arena} (grounded : a.Grounded) (flow : Flow)
    (id : PropagatorId) :
    h.applyToStack? flow (a.stack id) = (h.applyFlow? a flow id).map a.stackOver := by
  cases hp : a.get? id with
  | none =>
      rw [Arena.stack_of_get?_none hp]
      simp [applyToStack?, applyFlow?, hp]
  | some p =>
      have hstack := Arena.stack_eq grounded hp
      rw [hstack, Arena.stackOver, applyToStack?]
      by_cases hadmits : h.admits flow p.layer.taint = true
      · rw [if_pos hadmits]
        have htests : h.applyFlow? a flow id =
            (h.sinkTaint? flow.source flow.sink p.taint (a.targetFrame id p flow.sink).2).map
              fun t => .inFrame t (a.targetFrame id p flow.sink).1 := by
          ext q
          rw [applyFlow?_eq_some_iff, Option.map_eq_some_iff]
          constructor
          · rintro ⟨p', t, hp', -, ht, rfl⟩
            cases hp.symm.trans hp'
            exact ⟨t, ht, rfl⟩
          · rintro ⟨t, ht, rfl⟩
            exact ⟨p, t, hp, hadmits, ht, rfl⟩
        rw [htests, Option.map_map]
        cases hgap : flow.sink.gap with
        | none =>
            simp only [Arena.targetFrame, hgap]
            refine Option.map_congr fun t _ => ?_
            rw [Function.comp_apply, Arena.stackOver_inFrame grounded hp, hstack, Arena.stackOver]
        | some gap =>
            simp only [Arena.targetFrame, hgap]
            refine Option.map_congr fun t _ => ?_
            rw [Function.comp_apply, Arena.stackOver, ← Arena.stackOver, ← hstack]
            rfl
      · rw [if_neg hadmits]
        cases hq : h.applyFlow? a flow id with
        | none => rfl
        | some q =>
            obtain ⟨p', -, hp', hadmits', -⟩ := applyFlow?_eq_some_iff.1 hq
            cases hp.symm.trans hp'
            exact absurd hadmits' hadmits

end Hierarchy

end TaintReplay
