import TaintReplay.Proofs.Closure

/-!
# Replays with known exits

What is left of a gap depends on the exits that the solver knows when it is
asked, and in general these change while a replay goes on. For a solver that
answers from a table they do not: what is left of a gap is then a function of the
stack (`Session.leaves`), and a replay computes a closure that its rules and the
table determine.

## Main results

* `Replay.Resolved.settled`: a gap that a replay came to was resolved for good.
* `Replay.Resolved.eq_leaves`: what a table leaves of a gap.
* `Replay.Replayed.collects_iff`: with a table, what a replay collects is determined.
-/

namespace TaintReplay

variable {σ : Type}

/-- What a table leaves of the gap on top of a stack. -/
def Session.leaves (s : Session σ) (table : ExitTable) : Stack → List Stack
  | [] => []
  | top :: below =>
    match top.gap with
    | none => []
    | some gap =>
      ((s.gapMethods gap).filter (Engine.canEnter s.hierarchy)).flatMap fun m =>
        (s.program.exitTaints (table.exitsFor m top.taint) (some gap)).map fun t =>
          Stack.leave t (top :: below)

/-- What a table leaves of gaps stays the same while a session grows. -/
theorem Session.Grows.leaves {s t : Session σ} (h : s.Grows t) (table : ExitTable) (st : Stack) :
    t.leaves table st = s.leaves table st := by
  cases st with
  | nil => rfl
  | cons top below =>
      have henters : Engine.canEnter t.hierarchy = Engine.canEnter s.hierarchy := funext h.canEnter
      simp only [Session.leaves, h.gapMethods, h.program, henters]

namespace Session

/-- What was left of a gap is what a table says if the solver answers from it. -/
theorem Resolved.map_stackOver {t : Session σ} (grounded : t.Grounded) {solver : Solver σ}
    {table : ExitTable} (htable : ∀ state, solver.table state = table)
    {sent : PathEdge → Session σ → Prop} {e : EngineId} {c : Continuation} {p : Propagator}
    {gap : Gap} {left : List Propagator}
    (hp : (t.arena c.arena).get? c.id = some p) (hgap : p.gap = some gap)
    (h : t.Resolved solver sent e c p gap left) :
    left.map (t.arena c.arena).stackOver = t.leaves table ((t.arena c.arena).stack c.id) := by
  obtain ⟨found, rfl, hfound⟩ := h
  have hstack := Arena.stack_eq (grounded c.arena) hp
  rw [hstack, Arena.stackOver, Session.leaves, show p.layer.gap = some gap from hgap]
  simp only
  rw [← Arena.stackOver, ← hstack]
  -- method by method
  generalize t.gapMethods gap = methods at hfound
  induction hfound with
  | nil => rfl
  | @cons m left _ _ htried _ ih =>
      rw [List.flatten_cons, List.map_append, ih]
      rw [Tried] at htried
      by_cases henter : Engine.canEnter t.hierarchy m = true
      · rw [if_pos henter] at htried
        obtain ⟨state, hleft⟩ := htried.left
        rw [List.filter_cons_of_pos henter, List.flatMap_cons, hleft, htable, hgap,
          Arena.leaveFrame, List.map_map]
        congr 1
        exact List.map_congr_left fun taint _ => Arena.stackOver_inFrame (grounded c.arena) hp taint
      · rw [if_neg henter] at htried
        rw [List.filter_cons_of_neg henter, htried, List.map_nil, List.nil_append]

end Session

namespace Replay

variable {x : Replay σ} {policy : Policy σ} {P : Session σ → Prop}
  {sent : PathEdge → Session σ → Prop} {t : Session σ} {st : Stack} {left : List Stack}

/-- The propagators of a replay that stand for a stack may wait for exits. -/
def StackMayWait (x : Replay σ) (policy : Policy σ) (P : Session σ → Prop) (st : Stack) : Prop :=
  ∀ t id, P t → policy.Evolves x.session t → (t.arena x.arena).Holds id st →
    policy.waits t x.engine ⟨x.arena, id⟩

theorem stackMayWait_of_lenient (h : policy.Lenient) : x.StackMayWait policy P st :=
  fun t id _ _ _ => h.waits t x.engine ⟨x.arena, id⟩

/-- A gap that a replay resolved is settled for good: the propagator waits, its
seeds were sent, and what was left is known. -/
theorem Resolved.settled (h : policy.Admits P) (hhost : policy.Hosts P sent x.host)
    (hs : P x.session) (hwaits : x.StackMayWait policy P st) (hres : x.Resolved policy t st left) :
    ∃ id p gap found, (t.arena x.arena).get? id = some p ∧ (t.arena x.arena).stack id = st ∧
      p.gap = some gap ∧ t.Resolved policy.solver sent x.engine ⟨x.arena, id⟩ p gap found ∧
      left = found.map (t.arena x.arena).stackOver := by
  obtain ⟨n, s, v, ⟨id, p, ⟨f, rest, -, -, hp⟩, hstack, hresolves⟩, hxs, hvt⟩ := hres
  obtain ⟨gap, flows, u, found, hgap, hlook, hempty, hrun, rfl⟩ := hresolves
  have hPs := h.stable hs hxs
  have hw : policy.Evolves s (Engine.taking s x.arena id p) := .single (.report s _)
  obtain ⟨hwu, hflows⟩ := (Engine.meets_flowsForGap h x.engine gap).of_ok (h.stable hPs hw) hlook
  have hsu : policy.Evolves s u := hw.trans hwu
  have hu := h.stable hPs hsu
  -- from `u` on the propagator stands for the stack, and its gap has no flows
  have hsince := h.and (Law.Stable.since u)
  have hstored : ∀ t, P t ∧ policy.law.step u t → (t.arena x.arena).get? id = some p :=
    fun t ht => (Policy.Evolves.grows (hsu.trans ht.2)).get? hp
  have hheld : ∀ t, P t ∧ policy.law.step u t → (t.arena x.arena).Holds id st := by
    intro t ht
    have hheldS := hstack ▸ Arena.Holds.of_get? (h.grounded hPs x.arena) hp
    exact hheldS.within ((Policy.Evolves.grows (hsu.trans ht.2)).arena x.arena)
      (h.grounded ht.1 x.arena)
  have hunsummarised : ∀ t, P t ∧ policy.law.step u t →
      (t.gapFlows x.engine gap).isEmpty = true := by
    intro t ht
    rw [(Policy.Evolves.grows ht.2).gapFlows, ← hflows]
    exact hempty
  have hresolve := Engine.meets_resolveGap hsince hhost.and hgap
    (fun t ht => ⟨hstored t ht, hunsummarised t ht⟩)
    fun t ht => hwaits t id ht.1 ((hxs.trans hsu).trans ht.2) (hheld t ht)
  obtain ⟨huv, hresolved⟩ := hresolve.of_ok ⟨hu, .refl⟩ hrun
  have hv := h.stable hu huv
  have ht := h.stable hv hvt
  have hpv := hstored v ⟨hv, huv⟩
  refine ⟨id, p, gap, found, hstored t ⟨ht, huv.trans hvt⟩, (hheld t ⟨ht, huv.trans hvt⟩).1, hgap,
    (Engine.stable_resolved h hhost ⟨⟨hv, hpv⟩, hresolved⟩ hvt).2, ?_⟩
  refine List.map_congr_left fun q hq => ?_
  obtain ⟨taint, rfl⟩ := Engine.exists_of_mem_resolved hresolved hq
  exact (Arena.stackOver_of_within (hvt.grows.arena x.arena) (h.grounded ht x.arena)
    (Arena.hasParent_inFrame (h.grounded hv x.arena) hpv taint)).symm

variable {table : ExitTable} {res : Option (OrdSet AccessPath)}

/-- What a table leaves of a gap that a replay resolved. -/
theorem Resolved.eq_leaves (h : policy.Admits P) (hhost : policy.Hosts P sent x.host)
    (hs : P x.session) (htable : ∀ state, policy.solver.table state = table)
    (hwaits : x.StackMayWait policy P st) (hxt : policy.Evolves x.session t)
    (hres : x.Resolved policy t st left) : left = x.session.leaves table st := by
  obtain ⟨id, p, gap, found, hp, rfl, hgap, hresolved, rfl⟩ := hres.settled h hhost hs hwaits
  rw [hresolved.map_stackOver (h.grounded (h.stable hs hxt)) htable hp hgap, hxt.grows.leaves]

/-- The stacks that a replay reaches if the solver answers from a table. -/
def ReachWith (x : Replay σ) (table : ExitTable) : Stack → Prop :=
  x.Reach fun st out => out ∈ x.session.leaves table st

/-- The paths that a replay collects if the solver answers from a table. -/
def CollectsWith (x : Replay σ) (table : ExitTable) : AccessPath → Prop :=
  x.Collects fun st out => out ∈ x.session.leaves table st

/-- With a table, what a replay reaches is determined. -/
theorem Replayed.reach_iff (h : policy.Admits P) (hhost : policy.Hosts P sent x.host)
    (hs : P x.session) (htable : ∀ state, policy.solver.table state = table)
    (hwaits : ∀ st, x.Reach x.Left st → x.StackMayWait policy P st)
    (hxt : policy.Evolves x.session t) (hreplayed : x.Replayed policy res t) :
    x.Reach x.Left st ↔ x.ReachWith table st := by
  constructor
  · refine Rules.Reach.of_reached fun top below out hreach _ _ hout => ?_
    obtain ⟨n, hout⟩ := hout
    obtain ⟨left, hres, hmem⟩ := (hreplayed.logged n).resolved hout
    exact hres.eq_leaves h hhost hs htable (hwaits _ hreach) hxt ▸ hmem
  · refine Rules.Reach.of_reached fun top below out _ hreach hun hout => ?_
    obtain ⟨left, hres, hall⟩ := hreplayed.asked top below hreach hun
    exact hall out (hres.eq_leaves h hhost hs htable (hwaits _ hreach) hxt ▸ hout)

/-- With a table, what a replay collects is determined. -/
theorem Replayed.collects_iff (h : policy.Admits P) (hhost : policy.Hosts P sent x.host)
    (hs : P x.session) (htable : ∀ state, policy.solver.table state = table)
    (hwaits : ∀ st, x.Reach x.Left st → x.StackMayWait policy P st)
    (hxt : policy.Evolves x.session t) (hreplayed : x.Replayed policy res t)
    {path : AccessPath} : x.Collects x.Left path ↔ x.CollectsWith table path := by
  refine exists_congr fun st => exists_congr fun out => and_congr ?_ Iff.rfl
  exact hreplayed.reach_iff h hhost hs htable hwaits hxt

end Replay

end TaintReplay
