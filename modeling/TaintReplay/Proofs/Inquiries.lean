import TaintReplay.Proofs.Deliveries

/-!
# What resumed replays reach

A call is asked about with a solver that knows no exits, and the exits of a table
are reported afterwards. Whatever replays come of this, the first as well as those
that go on after an exit, stay inside the closure that the table determines for
the call (`Inquiry.Reached`): they start from stacks in it, they go by its rules,
and they get no further without another report. So every edge that the solver is
given is a seed, or leads to a successor of the call with a path that the closure
collects.

This is stated as a policy (`Inquiry.policy`): only replays with a stack in the
closure may wait, and only such edges may be sent.

## Main results

* `Inquiry.prepared_of_connect`: an engine that was just connected can be asked.
* `Inquiry.Begun.reached`, `Inquiry.Begun.collected`: a replay stays inside the closure.
* `Inquiry.Prepared.mayAnswer`: so do the replays that go on after an exit of the table.
-/

namespace TaintReplay

/-- A call that is asked about in a session, and the exits of the methods that it
may call back. -/
structure Inquiry where
  base : Session (List PathEdge)
  table : ExitTable
  direction : Direction
  site : CallSite

namespace Inquiry

/-! ## The closure of an inquiry -/

/-- The rules of replays about the call. -/
def rules (k : Inquiry) : Rules := k.base.callRules 0 k.site.stmt

/-- The stacks of the fact at the call. -/
def roots (k : Inquiry) : List Stack :=
  (Engine.queried k.direction k.site k.base).toList.map (k.site.stack (k.direction = .backward))

/-- What the table leaves of gaps. -/
def left (k : Inquiry) (st out : Stack) : Prop := out ∈ k.base.leaves k.table st

/-- The stacks that are reached with the table. -/
def Reached (k : Inquiry) : Stack → Prop := k.rules.Reach k.left (· ∈ k.roots)

/-- The paths that are collected with the table. -/
def Collected (k : Inquiry) : AccessPath → Prop := k.rules.Collects k.left (· ∈ k.roots)

/-- The policy of an inquiry without known exits: what waits is reached, and what is
sent is a seed or is collected. -/
def policy (k : Inquiry) : Policy (List PathEdge) where
  solver := recorder fun _ _ => none
  waits s _ c := ∃ st, (s.arena c.arena).Holds c.id st ∧ k.Reached st
  sends s edge := s.Seeds edge ∨
    edge.target ∈ k.base.program.successors k.site.stmt ∧ k.Collected edge.fact.path
  errors _ := True
  tells _ := True

/-- An engine listens that was just connected, and the exits of the table are in
the methods they are exits of. -/
structure Prepared (k : Inquiry) : Prop where
  consistent : k.base.program.Consistent
  exits : ∀ m seed, ∀ exit ∈ k.table m seed,
    ∃ method, k.base.program.methodOf? exit.stmt = some method ∧ method.id = m
  sound : k.base.Sound
  idle : ∀ e seed c, (k.base.engine e).waiting.contains seed c = false
  unsent : k.base.solver = []
  listener : k.base.listener = some 0
  alive : k.base.isAlive 0 = true
  alone : k.base.chain 0 = [0]
  engines : 0 < k.base.engines.length
  unlimited : (k.base.engine 0).options.maxSteps = none

variable {k : Inquiry} {s t : Session (List PathEdge)}

/-- An engine that was just connected is prepared, if the program was built. -/
theorem prepared_of_connect {hierarchy : Hierarchy} {program : Program} {bodies : Bodies}
    {store : SummaryStore} {options : Options} (built : program.Built)
    (unlimited : options.maxSteps = none)
    (exits : ∀ m seed, ∀ exit ∈ k.table m seed,
      ∃ method, program.methodOf? exit.stmt = some method ∧ method.id = m)
    (connected : (Engine.connect 0).exec (Session.start hierarchy program bodies []
      (Session.created [(store, options, none)])) = (.ok (), k.base)) : k.Prepared := by
  rcases Engine.exec_connect 0 (Session.start hierarchy program bodies []
    (Session.created [(store, options, none)])) with hrun | ⟨names, history, hrun⟩
  · cases connected.symm.trans hrun
  obtain ⟨base, table, direction, site⟩ := k
  cases (Prod.mk.inj (connected.symm.trans hrun)).2
  -- connecting leaves alone what waits
  have hwaiting : ∀ e, (((Session.start hierarchy program bodies ([] : List PathEdge)
      (Session.created [(store, options, none)])).modifyEngine 0 fun engine =>
        { engine with connected := true }).engine e).waiting = MultiMap.empty := by
    intro e
    rw [Session.waiting_modifyEngine, Session.waiting_start]
    exact fun _ => rfl
  have hsound := Session.sound_start hierarchy program bodies ([] : List PathEdge)
    [(store, options, none)]
  exact {
    consistent := built.consistent
    exits := exits
    sound := hsound.of_same rfl (fun _ => rfl) fun e =>
      (hwaiting e).trans (Session.waiting_start ..).symm
    idle := fun e seed c => congrArg (·.contains seed c) (hwaiting e)
    unsent := rfl
    listener := rfl
    alive := rfl
    alone := rfl
    engines := Nat.zero_lt_one
    unlimited := unlimited }

/-- What came from the base is admitted. -/
theorem Prepared.admits (h : k.Prepared) (hs : k.policy.Evolves k.base s) :
    k.policy.Admits (k.policy.Evolves s) where
  stable := Law.Stable.since s
  grounded _ hst := Policy.Evolves.grounded (hs.trans hst) h.sound.grounded
  excused _ := .inl trivial

theorem hosts (k : Inquiry) (s : Session (List PathEdge)) (fuel depth : Nat) :
    k.policy.Hosts (k.policy.Evolves s) (SentSince s)
      (Engine.host (recorder fun _ _ => none) fuel depth) :=
  Policy.hosts_recorder rfl (fun _ ht => ht) (fun _ _ _ hseeds => Or.inl hseeds) fuel depth

/-- The rules of the call stay the same. -/
theorem callRules_eq (hs : k.policy.Evolves k.base s) : s.callRules 0 k.site.stmt = k.rules := by
  rw [Session.callRules, hs.grows.callFlows, hs.grows.rules]
  rfl

/-! ## Replays stay inside -/

/-- A replay that was begun since a session and starts inside the closure. -/
structure Begun (k : Inquiry) (s : Session (List PathEdge)) (x : Replay (List PathEdge)) :
    Prop where
  host : ∃ fuel depth, x.host = Engine.host (recorder fun _ _ => none) fuel depth
  engine : x.engine = 0
  rules : x.rules = k.rules
  starts : ∀ st ∈ x.starts, k.Reached st
  since : k.policy.Evolves s x.session

/-- Propagators that stand for a reached stack may wait. -/
theorem stackMayWait {x : Replay (List PathEdge)} {P : Session (List PathEdge) → Prop} {st : Stack}
    (hst : k.Reached st) : x.StackMayWait k.policy P st :=
  fun _ _ _ _ hheld => ⟨st, hheld, hst⟩

theorem Begun.hosts {x : Replay (List PathEdge)} (hx : k.Begun s x) :
    k.policy.Hosts (k.policy.Evolves s) (SentSince s) x.host := by
  obtain ⟨fuel, depth, hhost⟩ := hx.host
  rw [hhost]
  exact k.hosts s fuel depth

/-- Without known exits nothing is left of gaps. -/
theorem leaves_none (s : Session (List PathEdge)) (st : Stack) :
    s.leaves (fun _ _ => []) st = [] := by
  cases st with
  | nil => rfl
  | cons top below =>
      refine List.eq_nil_iff_forall_not_mem.2 fun out hout => ?_
      obtain ⟨gap, m, path, exit, t, -, -, -, -, hexit, -⟩ := Session.mem_leaves.1 hout
      exact absurd hexit List.not_mem_nil

/-- What a replay reaches is reached, given that what is left of gaps comes from
gaps that were resolved. -/
theorem Begun.reached_of {x : Replay (List PathEdge)} (h : k.Prepared)
    (hs : k.policy.Evolves k.base s) (hx : k.Begun s x) (hxt : k.policy.Evolves x.session t)
    {resolved : Stack → Stack → Prop}
    (hresolved : ∀ st out, resolved st out → ∃ left, x.Resolved k.policy t st left ∧ out ∈ left)
    {st : Stack} (hst : x.Reach resolved st) : k.Reached st := by
  unfold Replay.Reach at hst
  rw [hx.rules] at hst
  induction hst with
  | start hst => exact hx.starts _ hst
  | resolve _ _ hleft ih =>
      obtain ⟨left, hres, hout⟩ := hresolved _ _ hleft
      have htable : ∀ state, k.policy.solver.table state = fun _ _ => [] := fun _ => rfl
      have hnone := hres.eq_leaves (h.admits hs) hx.hosts hx.since htable (stackMayWait ih) hxt
      rw [hnone, leaves_none] at hout
      exact absurd hout List.not_mem_nil
  | follow _ leads kept ih => exact .follow ih leads kept
  | invert _ leads kept may ih => exact .invert ih leads kept may

/-- A replay that is under way lets only reached propagators wait. -/
theorem Begun.mayWait {x : Replay (List PathEdge)} (h : k.Prepared)
    (hs : k.policy.Evolves k.base s) (hx : k.Begun s x) (hxt : k.policy.Evolves x.session t) :
    x.MayWait k.policy t :=
  fun _ _ st hheld hlogged hst =>
    ⟨st, hheld, hx.reached_of h hs hxt (fun _ _ hout => hlogged.resolved hout) hst⟩

section Over

variable {x : Replay (List PathEdge)} {res : Option (OrdSet AccessPath)}

/-- What a replay has reached when it is over is reached. -/
theorem Begun.reached (h : k.Prepared) (hs : k.policy.Evolves k.base s) (hx : k.Begun s x)
    (hxt : k.policy.Evolves x.session t) (hreplayed : x.Replayed k.policy res t) {st : Stack}
    (hst : x.Reach x.Left st) : k.Reached st := by
  refine hx.reached_of h hs hxt (fun st out hout => ?_) hst
  obtain ⟨n, hout⟩ := hout
  exact (hreplayed.logged n).resolved hout

theorem Begun.collected (h : k.Prepared) (hs : k.policy.Evolves k.base s) (hx : k.Begun s x)
    (hxt : k.policy.Evolves x.session t) (hreplayed : x.Replayed k.policy res t)
    {path : AccessPath} (hpath : x.Collects x.Left path) : k.Collected path := by
  obtain ⟨st, out, hst, hleads, hsurface, hat⟩ := hpath
  rw [hx.rules] at hleads hat
  exact ⟨st, out, hx.reached h hs hxt hreplayed hst, hleads, hsurface, hat⟩

end Over

/-! ## Exits of the table -/

/-- The report is about an exit that the table has for its seed. -/
def Due (k : Inquiry) (r : ExitReport) : Prop :=
  ∃ exit method, k.base.program.methodOf? r.stmt = some method ∧
    exit ∈ k.table method.id (.ofPath r.seed.path) ∧ exit.stmt = r.stmt ∧ exit.fact = r.fact

/-- An edge that was sent is a seed, or it leads to a successor of the call with a
path that is collected. -/
theorem Prepared.sent (h : k.Prepared) (hs : k.policy.Evolves k.base s) {edge : PathEdge}
    (hedge : edge ∈ s.solver) :
    s.Seeds edge ∨
      edge.target ∈ k.base.program.successors k.site.stmt ∧ k.Collected edge.fact.path := by
  obtain ⟨u, hsends, -, hus⟩ := hs.recorded rfl h.unsent hedge
  exact hsends.imp_left hus.grows.seeds

/-- A seed is no successor of the call. -/
theorem Prepared.not_mem_successors (h : k.Prepared) (hs : k.policy.Evolves k.base s)
    {edge : PathEdge} (hedge : s.Seeds edge) :
    edge.target ∉ k.base.program.successors k.site.stmt := by
  obtain ⟨e, seed, c, p, gap, m, -, -, htarget, -⟩ := hedge
  rw [hs.grows.program] at htarget
  exact h.consistent.not_mem_successors htarget

/-- What the table has of edges that were sent is due. -/
theorem Prepared.due (h : k.Prepared) (hs : k.policy.Evolves k.base s) {edges : List PathEdge}
    (hedges : ∀ edge ∈ edges, edge ∈ s.solver) {r : ExitReport}
    (hr : r ∈ k.table.reports k.base.program edges) : k.Due r := by
  obtain ⟨edge, hedge, m, hentered, exit, hexit, rfl⟩ := ExitTable.mem_reports.1 hr
  obtain ⟨method, hmethod, rfl⟩ := h.exits m edge.context exit hexit
  refine ⟨exit, method, hmethod, ?_, rfl, rfl⟩
  -- the edge starts a method, so it is a seed
  rcases h.sent hs (hedges edge hedge) with hseed | ⟨hnext, -⟩
  · obtain ⟨e, seed, c, p, gap, m, -, -, -, hcontext, -⟩ := hseed
    rw [hcontext] at hexit ⊢
    exact hexit
  · exact absurd hnext
      (h.consistent.not_mem_successors (h.consistent.mem_startPoints_iff.2 hentered))

/-- A replay that waits is in a gap of the closure that it has a reason to wait in. -/
theorem Prepared.waiting (h : k.Prepared) (hs : k.policy.Evolves k.base s) {seed : Seed}
    {c : Continuation} (hc : (s.engine 0).waiting.contains seed c = true) :
    ∃ p gap m, s.Awaits 0 seed c p gap m ∧ k.Reached ((s.arena c.arena).stack c.id) := by
  obtain ⟨u, p, gap, m, ⟨st, hheld, hst⟩, hawaits, hbu, hus⟩ := hs.waiting h.idle hc
  have hgrounded := (Policy.Evolves.grounded hs h.sound.grounded) c.arena
  refine ⟨p, gap, m, hus.grows.awaits hawaits, ?_⟩
  rw [(hheld.within (hus.grows.arena c.arena) hgrounded).1]
  exact hst

/-- By an exit of the table, a replay that waits for it gets to what the table
leaves of its gap. -/
theorem Prepared.left_of_leaving (h : k.Prepared) (hs : k.policy.Evolves k.base s)
    {r : ExitReport} (hr : k.Due r) {method : Method}
    (hmethod : k.base.program.methodOf? r.stmt = some method) {c : Continuation} {p : Propagator}
    {gap : Gap} {m : Method} (hawaits : s.Awaits 0 ⟨r.seed.path, method.id⟩ c p gap m)
    {out : Stack} (hout : out ∈ s.leaving c p r.stmt r.fact) :
    k.left ((s.arena c.arena).stack c.id) out := by
  obtain ⟨exit, method', hmethod', hexit, hstmt, hfact⟩ := hr
  cases hmethod.symm.trans hmethod'
  obtain ⟨t, ht, rfl⟩ := List.mem_map.1 hout
  have hgrounded := (Policy.Evolves.grounded hs h.sound.grounded) c.arena
  rw [left, ← hs.grows.leaves, Arena.stack_eq hgrounded hawaits.stored, Arena.stackOver,
    Session.mem_leaves]
  refine ⟨gap, m, r.seed.path, exit, t, hawaits.inGap, hawaits.method, hawaits.enterable,
    hawaits.path, ?_, ?_, rfl⟩
  · rw [hawaits.id]
    exact hexit
  · rw [hstmt, hfact, ← hawaits.inGap]
    exact OrdSet.mem_toList.1 ht

/-- Below every reached stack is the call asked about. -/
theorem site?_of_reached {st : Stack} (hst : k.Reached st) : st.site? = some k.site.key := by
  refine Session.site?_of_reach (fun st hst => ?_) hst
  obtain ⟨t, -, rfl⟩ := List.mem_map.1 hst
  rfl

/-- A replay that goes on after an exit of the table is one about the call, and
starts inside the closure. -/
theorem Prepared.begun_of_restarts (h : k.Prepared) (hs : k.policy.Evolves k.base s)
    {r : ExitReport} (hr : k.Due r) {method : Method}
    (hmethod : k.base.program.methodOf? r.stmt = some method) {c : Continuation}
    (hc : (s.engine 0).waiting.contains ⟨r.seed.path, method.id⟩ c = true)
    {P : Session (List PathEdge) → Prop} (hP : ∀ u, P u → k.policy.Evolves s u) {fuel depth : Nat}
    {s' : Session (List PathEdge)} {p : Propagator} {site : CallSite} {x : Replay (List PathEdge)}
    (hx : Engine.Restarts k.policy (Engine.host (recorder fun _ _ => none) fuel depth) P 0 r.stmt
      r.fact c s' p site x) : k.Begun s x ∧ site.stmt = k.site.stmt := by
  have hss' := hP s' hx.looked
  have hs' : k.policy.Evolves k.base s' := hs.trans hss'
  have hgrounded := (Policy.Evolves.grounded hs' h.sound.grounded) c.arena
  obtain ⟨p', gap, m, hawaits, hreached⟩ :=
    h.waiting hs' ((hss'.grows.engine 0).waiting _ c hc)
  cases hawaits.stored.symm.trans hx.resumable.stored
  -- the call at the bottom is the one asked about
  have hsite : site.stmt = k.site.stmt := by
    obtain ⟨root, hroot, hcall⟩ := hx.resumable.bottom
    obtain ⟨root', hroot', -, hlast⟩ := Arena.exists_get?_rootOf hgrounded hawaits.stored
    cases hroot.symm.trans hroot'
    have hkey := site?_of_reached hreached
    rw [Stack.site?, hlast, Option.bind_some, Propagator.layer, hcall, Option.map_some,
      Option.some.injEq] at hkey
    exact congrArg SiteKey.stmt hkey
  refine ⟨⟨⟨fuel, depth, hx.host⟩, hx.engine, ?_, fun out hout => ?_, hss'.trans hx.since⟩, hsite⟩
  · rw [hx.rules, hsite, callRules_eq hs']
  · rw [hx.starts] at hout
    have hleft := h.left_of_leaving hs' hr hmethod hawaits hout
    rw [Arena.stack_eq hgrounded hawaits.stored, Arena.stackOver] at hreached hleft
    refine .resolve hreached ⟨gap, hawaits.inGap, ?_⟩ hleft
    have hempty := hawaits.unsummarised
    rw [hs'.grows.gapFlows] at hempty
    exact hempty

/-- Answering a report of an exit of the table keeps to the policy. -/
theorem Prepared.mayAnswer (h : k.Prepared) (hs : k.policy.Evolves k.base s) {r : ExitReport}
    (hr : k.Due r) (fuel depth steps : Nat) :
    Engine.MayAnswer k.policy (Engine.host (recorder fun _ _ => none) fuel depth)
      (k.policy.Evolves s) steps 0 r := by
  intro s₁ method c hs₁ hmethod hc
  have hbase : k.policy.Evolves k.base s₁ := hs.trans hs₁
  rw [hbase.grows.program] at hmethod
  constructor
  · intro s' p site x t hrestarts _ hxt
    obtain ⟨hbegun, -⟩ := h.begun_of_restarts hbase hr hmethod hc (fun _ hu => hu.2) hrestarts
    exact hbegun.mayWait h hbase hxt
  · intro s' p site x u t paths hrestarts _ hreplayed hxu _ _ path hpath next hnext
    obtain ⟨hbegun, hsite⟩ :=
      h.begun_of_restarts hbase hr hmethod hc (fun _ hu => hu.2) hrestarts
    have hgrows := Policy.Evolves.grows (hbase.trans hrestarts.looked.2)
    rw [hgrows.program, hsite] at hnext
    have hlimit : (s'.engine 0).options.maxSteps = none := by
      rw [(hgrows.engine 0).options]
      exact h.unlimited
    exact .inr ⟨hnext, hbegun.collected h hbase hxu (hreplayed hlimit)
      (((hreplayed hlimit).mem path).1 ⟨paths, rfl, hpath⟩)⟩

end Inquiry

end TaintReplay
