import TaintReplay.Engine.Resume
import TaintReplay.Proofs.Closure

/-!
# Resuming replays

What the report of an exit leads to. A replay that waits for the exit goes on
from the stacks by which the fact leaves its gap, with the flows of the call at
the bottom of its stack, and what it collects is sent to the successors of that
call (`Engine.Resumed`).

Handing an edge to the solver may lead to reports that are answered at once, and
these to further edges. Under a policy that permits what reports lead to, handing
over edges keeps to the policy however deep this nests.

## Main results

* `Engine.runs_collectOne`: what a replay that goes on collects.
* `Engine.meets_resumeOne`, `Engine.meets_resume`, `Engine.meets_handleExit`: what resuming does.
* `Engine.hosts_deliver`: the solver as an engine sees it is a host.
-/

namespace TaintReplay

variable {σ : Type}

/-! ## What is resumed -/

namespace Session

/-- The flows of the method called at a statement. -/
def callFlows (s : Session σ) (e : EngineId) (stmt : StmtId) : FlowSet :=
  match s.program.call? stmt with
  | none => OrdSet.empty
  | some call =>
    (s.summaries e (some stmt) call.callee).allFlowsForMethod call.callee.subSignature

theorem Serves.callFlows {s t : Session σ} (h : s.Serves t) (e : EngineId) (stmt : StmtId) :
    t.callFlows e stmt = s.callFlows e stmt := by
  simp only [Session.callFlows, h.program, h.summaries]

theorem Grows.callFlows {s t : Session σ} (h : s.Grows t) (e : EngineId) (stmt : StmtId) :
    t.callFlows e stmt = s.callFlows e stmt :=
  h.serves.callFlows e stmt

/-- The rules of a replay about a call. -/
def callRules (s : Session σ) (e : EngineId) (stmt : StmtId) : Rules :=
  s.rules e (s.callFlows e stmt)

theorem Serves.callRules {s t : Session σ} (h : s.Serves t) (e : EngineId) (stmt : StmtId) :
    t.callRules e stmt = s.callRules e stmt := by
  rw [Session.callRules, Session.callRules, h.callFlows, h.rules]

/-- A propagator that waits entered a gap, and below it is a call. -/
structure Resumable (s : Session σ) (c : Continuation) (p : Propagator) (site : CallSite) :
    Prop where
  stored : (s.arena c.arena).get? c.id = some p
  nested : p.parent.isSome = true
  bottom : ∃ root, (s.arena c.arena).get? ((s.arena c.arena).rootOf c.id) = some root ∧
    root.site = some site

theorem Resumable.unique {s : Session σ} {c : Continuation} {p p' : Propagator}
    {site site' : CallSite} (h : s.Resumable c p site) (h' : s.Resumable c p' site') :
    p = p' ∧ site = site' := by
  obtain ⟨hstored, -, root, hroot, hsite⟩ := h
  obtain ⟨hstored', -, root', hroot', hsite'⟩ := h'
  cases hstored.symm.trans hstored'
  cases hroot.symm.trans hroot'
  cases hsite.symm.trans hsite'
  exact ⟨rfl, rfl⟩

/-- The stacks by which a fact at an exit leaves the gap of a propagator. -/
def leaving (s : Session σ) (c : Continuation) (p : Propagator) (stmt : StmtId) (fact : Fact) :
    List Stack :=
  (s.program.taintsOnReturn fact.path stmt p.gap).toList.map fun t =>
    Stack.leave t ((s.arena c.arena).stack c.id)

/-- In a sound session what is in a gap can be resumed. -/
theorem Sound.resumable {s : Session σ} (h : s.Sound) {c : Continuation} {p : Propagator}
    (hp : (s.arena c.arena).get? c.id = some p) (hgap : p.gap.isSome = true) :
    ∃ site, s.Resumable c p site := by
  have hstacked := h.stacked c.arena
  obtain ⟨root, hroot, hbottom, -⟩ := Arena.exists_get?_rootOf hstacked.grounded hp
  have hsite := (hstacked.framed hroot).site
  rw [hbottom] at hsite
  cases hcall : root.site with
  | none =>
      rw [hcall] at hsite
      cases hsite
  | some site => exact ⟨site, hp, (hstacked.framed hp).gap ▸ hgap, root, hroot, hcall⟩

end Session

section Resume

variable {policy : Policy σ} {P : Session σ → Prop} {sent : PathEdge → Session σ → Prop}
  {host : Host σ} {e : EngineId}

namespace Engine

/-- The replay of a propagator that waited and goes on after an exit, as looked at
in a session. -/
structure Restarts (policy : Policy σ) (host : Host σ) (P : Session σ → Prop) (e : EngineId)
    (stmt : StmtId) (fact : Fact) (c : Continuation) (s : Session σ) (p : Propagator)
    (site : CallSite) (x : Replay σ) : Prop where
  looked : P s
  resumable : s.Resumable c p site
  host : x.host = host
  engine : x.engine = e
  arena : x.arena = c.arena
  rules : x.rules = s.callRules e site.stmt
  starts : x.starts = s.leaving c p stmt fact
  since : policy.Evolves s x.session
  admitted : P x.session

/-- A replay that waited has gone on after an exit: it was replayed from the stacks
by which the fact leaves the gap, and what was collected is sent to the successors
of the call. -/
def Resumed (policy : Policy σ) (host : Host σ) (P : Session σ → Prop)
    (sent : PathEdge → Session σ → Prop) (e : EngineId) (stmt : StmtId) (fact : Fact)
    (c : Continuation) (t : Session σ) : Prop :=
  ∃ s, P s ∧ policy.Evolves s t ∧
    ∀ p site, s.Resumable c p site → s.leaving c p stmt fact ≠ [] →
      (s.engine e).options.maxSteps = none →
        ∃ x res u, Restarts policy host P e stmt fact c s p site x ∧
          x.Replayed policy res u ∧ policy.Evolves x.session u ∧ policy.Evolves u t ∧
          ∀ path, x.Collects x.Left path → ∀ next ∈ s.program.successors site.stmt,
            sent ⟨site.context, next, .derivedAt path site.stmt⟩ t

theorem Restarts.mono {Q : Session σ → Prop} (hPQ : ∀ s, P s → Q s) {stmt : StmtId} {fact : Fact}
    {c : Continuation} {s : Session σ} {p : Propagator} {site : CallSite} {x : Replay σ}
    (h : Restarts policy host P e stmt fact c s p site x) :
    Restarts policy host Q e stmt fact c s p site x :=
  { h with looked := hPQ s h.looked, admitted := hPQ x.session h.admitted }

theorem Resumed.mono {Q : Session σ → Prop} (hPQ : ∀ s, P s → Q s) {stmt : StmtId} {fact : Fact}
    {c : Continuation} {t : Session σ} (h : Resumed policy host P sent e stmt fact c t) :
    Resumed policy host Q sent e stmt fact c t := by
  obtain ⟨s, hs, hst, hafter⟩ := h
  refine ⟨s, hPQ s hs, hst, fun p site hresumable hleaving hlimit => ?_⟩
  obtain ⟨x, res, u, hrestarts, hreplayed⟩ := hafter p site hresumable hleaving hlimit
  exact ⟨x, res, u, hrestarts.mono hPQ, hreplayed⟩

theorem stable_resumed (hhost : policy.Hosts P sent host) {Q : Session σ → Prop} {stmt : StmtId}
    {fact : Fact} {c : Continuation} :
    policy.law.Stable (Resumed policy host Q sent e stmt fact c) := by
  rintro t v ⟨s, hs, hst, hafter⟩ htv
  refine ⟨s, hs, hst.trans htv, fun p site hresumable hleaving hlimit => ?_⟩
  obtain ⟨x, res, u, hrestarts, hreplayed, hxu, hut, hsent⟩ :=
    hafter p site hresumable hleaving hlimit
  exact ⟨x, res, u, hrestarts, hreplayed, hxu, hut.trans htv,
    fun path hpath next hnext => hhost.stable _ (hsent path hpath next hnext) htv⟩

end Engine

/-- What a policy has to permit for a replay to go on after an exit. -/
structure Policy.MayResume (policy : Policy σ) (P : Session σ → Prop) (host : Host σ) (fuel : Nat)
    (e : EngineId) (m : Method) (stmt : StmtId) (fact : Fact) (c : Continuation) : Prop where
  waits : ∀ s p site x t, Engine.Restarts policy host P e stmt fact c s p site x → P t →
    policy.Evolves x.session t → x.MayWait policy t
  sends : ∀ s p site x u t paths, Engine.Restarts policy host P e stmt fact c s p site x →
    (Engine.collectOne host fuel e m stmt fact c).exec s = (.ok (some (site, paths)), u) →
    ((s.engine e).options.maxSteps = none → x.Replayed policy (some paths) u) →
    policy.Evolves x.session u → P t → policy.Evolves u t →
    ∀ path ∈ paths, ∀ next ∈ s.program.successors site.stmt,
      policy.sends t ⟨site.context, next, .derivedAt path site.stmt⟩

theorem Policy.MayResume.anti {Q : Session σ → Prop} (hQP : ∀ s, Q s → P s) {fuel : Nat} {m : Method}
    {stmt : StmtId} {fact : Fact} {c : Continuation}
    (h : policy.MayResume P host fuel e m stmt fact c) :
    policy.MayResume Q host fuel e m stmt fact c where
  waits s p site x t hrestarts ht := h.waits s p site x t (hrestarts.mono hQP) (hQP t ht)
  sends s p site x u t paths hrestarts hcollects hreplayed hxu ht :=
    h.sends s p site x u t paths (hrestarts.mono hQP) hcollects hreplayed hxu (hQP t ht)

theorem Policy.MayResume.of_lenient (h : policy.Lenient) {fuel : Nat} {m : Method} {stmt : StmtId}
    {fact : Fact} {c : Continuation} : policy.MayResume P host fuel e m stmt fact c where
  waits _ _ _ x t _ _ _ := x.mayWait_of_lenient h t
  sends _ _ _ _ _ t _ _ _ _ _ _ _ _ _ _ _ := h.sends t _

namespace Engine

/-! ## Going on -/

/-- The call at the bottom of a stack, which in a sound session has one. -/
theorem meets_callSiteOf (h : policy.Admits P) {root : Propagator}
    (hroot : ∀ s, P s → s.Sound → root.site.isSome = true) :
    policy.law.Meets P (callSiteOf root) fun site _ => root.site = some site := by
  unfold callSiteOf
  cases hsite : root.site with
  | none =>
      refine Law.Meets.fail fun s hs => h.errors_of_unsound hs fun hsound => ?_
      have := hroot s hs hsound
      rw [hsite] at this
      cases this
  | some site => exact Law.Meets.pure fun _ _ => rfl

/-- The flows of a call. In a sound session the statement has to be one. -/
theorem meets_flowsAtCall (h : policy.Admits P) {stmt : StmtId}
    (hcall : ∀ s, P s → s.Sound → s.IsCall stmt) :
    policy.law.Meets P (flowsAtCall e stmt) fun flows t => flows = t.callFlows e stmt := by
  unfold flowsAtCall
  refine Law.Meets.get_bind fun s hs => ?_
  have hsince := h.and (Law.Stable.since s)
  cases hsome : s.program.call? stmt with
  | none =>
      refine Law.Meets.fail fun _ _ => h.errors_of_unsound hs fun hsound => ?_
      have := hcall s hs hsound
      rw [Session.IsCall, hsome] at this
      cases this
  | some call =>
      refine Law.Meets.bind hsince.stable (meets_summariesFor hsince e _ _) fun found => ?_
      refine Law.Meets.pure fun t ht => ?_
      rw [Session.callFlows, (Policy.Evolves.grows ht.1.2).program, hsome, ht.2]

/-- Sending paths to the successors of a call. -/
theorem meets_injectAfter (h : policy.Admits P) (hhost : policy.Hosts P sent host)
    {site : CallSite} {paths : OrdSet AccessPath}
    (hsends : ∀ s, P s → ∀ path ∈ paths, ∀ next ∈ s.program.successors site.stmt,
      policy.sends s ⟨site.context, next, .derivedAt path site.stmt⟩) :
    policy.law.Meets P (injectAfter host site paths) fun _ t =>
      ∀ path ∈ paths, ∀ next ∈ t.program.successors site.stmt,
        sent ⟨site.context, next, .derivedAt path site.stmt⟩ t := by
  unfold injectAfter
  refine Law.Meets.get_bind fun s hs => ?_
  have hsince := h.and (Law.Stable.since s)
  have hprogram : ∀ t, policy.law.step s t → t.program = s.program :=
    fun t ht => (Policy.Evolves.grows ht).program
  let achieved : AccessPath → Session σ → Prop := fun path t =>
    ∀ next ∈ s.program.successors site.stmt, sent ⟨site.context, next, .derivedAt path site.stmt⟩ t
  have hachieved : ∀ path, policy.law.Stable (achieved path) := fun path =>
    .all fun next => .all fun _ : next ∈ s.program.successors site.stmt => hhost.stable _
  have hpath : ∀ path ∈ paths.toList, policy.law.Meets (fun t => P t ∧ policy.law.step s t)
      ((s.program.successors site.stmt).forM fun next =>
        host.deliver ⟨site.context, next, .derivedAt path site.stmt⟩) fun _ => achieved path := by
    intro path hpath
    refine Law.Meets.forM hsince.stable (fun next => hhost.stable _) fun next hnext => ?_
    refine (hhost.deliver _).strengthen fun t ht => ⟨ht.1, ?_⟩
    exact hsends t ht.1 path hpath next ((hprogram t ht.2).symm ▸ hnext)
  refine ((Law.Meets.forM hsince.stable hachieved hpath).keep hsince.stable).weaken ?_
  exact fun _ t ht path hpath next hnext => ht.2 path hpath next (hprogram t ht.1.2 ▸ hnext)

/-- Interning the propagators by which a fact leaves the gap of a stored one. -/
theorem meets_internLeaving (h : policy.Admits P) {s : Session σ} (hs : s.Grounded)
    {c : Continuation} {p : Propagator} (hp : (s.arena c.arena).get? c.id = some p)
    (hsince : ∀ t, P t → policy.Evolves s t) (stmt : StmtId) (fact : Fact) :
    policy.law.Meets P
      (((s.arena c.arena).leaveFrame p
        (s.program.taintsOnReturn fact.path stmt p.gap).toList).mapM (Run.intern c.arena))
      fun ids t => (t.arena c.arena).HoldsAll ids (s.leaving c p stmt fact) := by
  have hstacks : s.leaving c p stmt fact = ((s.arena c.arena).leaveFrame p
      (s.program.taintsOnReturn fact.path stmt p.gap).toList).map (s.arena c.arena).stackOver := by
    rw [Arena.leaveFrame, List.map_map, Session.leaving]
    exact List.map_congr_left fun taint _ => (Arena.stackOver_inFrame (hs _) hp taint).symm
  rw [hstacks]
  refine meets_internLeft h hs hp (fun q hq => ?_) hsince
  obtain ⟨taint, -, rfl⟩ := List.mem_map.1 hq
  exact ⟨taint, rfl⟩

section One

variable {stmt : StmtId} {fact : Fact} {c : Continuation}

/-- What was collected by a replay that may have gone on from a session: nothing if the fact
does not leave its gap, or else what a replay collects that starts from the stacks by which
it does. -/
def Collected (policy : Policy σ) (host : Host σ) (P : Session σ → Prop) (e : EngineId)
    (stmt : StmtId) (fact : Fact) (c : Continuation) (s : Session σ)
    (found : Option (CallSite × OrdSet AccessPath)) (u : Session σ) : Prop :=
  (found = none ∧ ∀ p site, s.Resumable c p site → s.leaving c p stmt fact = []) ∨
    ∃ p site x res, Restarts policy host P e stmt fact c s p site x ∧
      found = res.map (fun paths => (site, paths)) ∧
      ((s.engine e).options.maxSteps = none → x.Replayed policy res u) ∧
      policy.Evolves x.session u

/-- Replaying from the stacks by which a fact leaves a gap. -/
theorem meets_replayLeaving (h : policy.Admits P) (hhost : policy.Hosts P sent host) {fuel : Nat}
    {m : Method} (hmay : policy.MayResume P host fuel e m stmt fact c) {s : Session σ} (hs : P s)
    {p : Propagator} {site : CallSite} (hresumable : s.Resumable c p site) :
    policy.law.Meets (fun t => P t ∧ policy.law.step s t)
      (do
        let flows ← flowsAtCall e site.stmt
        let initial ← ((s.arena c.arena).leaveFrame p
          (s.program.taintsOnReturn fact.path stmt p.gap).toList).mapM (Run.intern c.arena)
        let collected ← replay host fuel e c.arena flows initial
        return collected.map fun paths => (site, paths))
      (Collected policy host P e stmt fact c s) := by
  have hsince := h.and (Law.Stable.since s)
  obtain ⟨root, hroot, hsite⟩ := hresumable.bottom
  have hcall : ∀ t, P t ∧ policy.law.step s t → t.Sound → t.IsCall site.stmt :=
    fun t ht hsound => hsound.calls c.arena _ root site
      ((Policy.Evolves.grows ht.2).get? hroot) hsite
  have hflows : policy.law.Meets (fun t => P t ∧ policy.law.step s t) (flowsAtCall e site.stmt)
      fun flows _ => flows = s.callFlows e site.stmt := by
    refine ((meets_flowsAtCall hsince hcall).keep hsince.stable).weaken ?_
    rintro flows t ⟨ht, rfl⟩
    exact (Policy.Evolves.grows ht.2).callFlows e site.stmt
  refine Law.Meets.bind hsince.stable hflows fun flows => Law.Meets.assume fun hflows => ?_
  subst hflows
  refine Law.Meets.bind hsince.stable (meets_internLeaving hsince (h.grounded hs)
    hresumable.stored (fun t ht => ht.2) stmt fact) fun ids => ?_
  -- from here on the replay is known: it starts in the session that was come to
  rintro w ⟨⟨hw, hsw⟩, hids⟩
  let x : Replay σ := ⟨host, e, c.arena, s.callFlows e site.stmt, ids, w⟩
  have hrestarts : Restarts policy host P e stmt fact c s p site x :=
    ⟨hs, hresumable, rfl, rfl, rfl, (Policy.Evolves.grows hsw).rules e _, hids.map_stack, hsw, hw⟩
  have hstored : ∀ id ∈ x.initial, ∃ st, (w.arena c.arena).Holds id st := by
    intro id hid
    obtain ⟨st, -, hst⟩ := exists_right_of_forall₂ hids hid
    exact ⟨st, hst⟩
  have hoptions : (w.engine e).options.maxSteps = (s.engine e).options.maxSteps := by
    rw [((Policy.Evolves.grows hsw).engine e).options]
  refine (Replay.runs_replay (x := x) h hhost hw hstored
    (fun t ht hwt => hmay.waits s p site x t hrestarts ht hwt) fuel).bind
    fun res u _ hwu hreplayed => ⟨.refl, ?_⟩
  exact .inr ⟨p, site, x, res, hrestarts, rfl, fun hlimit => hreplayed (hoptions.trans hlimit), hwu⟩

/-- What a replay that goes on after an exit collects. In a sound session it has to be in a
gap. -/
theorem runs_collectOne (h : policy.Admits P) (hhost : policy.Hosts P sent host)
    (hwaiting : ∀ s, P s → s.Sound → ∃ p, (s.arena c.arena).get? c.id = some p ∧
      p.gap.isSome = true) {fuel : Nat} {m : Method}
    (hmay : policy.MayResume P host fuel e m stmt fact c) {s : Session σ} (hs : P s) :
    policy.law.Runs s (collectOne host fuel e m stmt fact c)
      (Collected policy host P e stmt fact c s) := by
  unfold collectOne
  refine Law.Runs.get_bind ?_
  have hsince := h.and (Law.Stable.since s)
  -- where nothing can be resumed nothing has to be done
  have hidle : (∀ p site, s.Resumable c p site → s.leaving c p stmt fact = []) →
      policy.law.Runs s (pure none) (Collected policy host P e stmt fact c s) :=
    fun hidle => ⟨.refl, .inl ⟨rfl, hidle⟩⟩
  cases hp : (s.arena c.arena).get? c.id with
  | none =>
      simp only [hp]
      refine hidle fun p site hresumable => ?_
      cases hp.symm.trans hresumable.stored
  | some p =>
      simp only [hp]
      by_cases hlost : p.parent.isNone = true
      · rw [if_pos hlost]
        refine ⟨.refl, h.errors_of_unsound hs fun hsound => ?_⟩
        obtain ⟨p', hp', hgap⟩ := hwaiting s hs hsound
        cases hp.symm.trans hp'
        rw [((hsound.stacked c.arena).framed hp).gap, Option.isNone_iff_eq_none.1 hlost] at hgap
        cases hgap
      · rw [if_neg hlost]
        by_cases hempty : (s.program.taintsOnReturn fact.path stmt p.gap).isEmpty = true
        · rw [if_pos hempty]
          refine hidle fun p' site hresumable => ?_
          cases hp.symm.trans hresumable.stored
          rw [Session.leaving, List.isEmpty_iff.1 hempty]
          rfl
        · rw [if_neg hempty]
          refine Law.Meets.andThen hsince.stable (Run.meets_report _) (fun _ => ?_) s ⟨hs, .refl⟩
          obtain ⟨root, hroot, hbottom, -⟩ :=
            Arena.exists_get?_rootOf (h.grounded hs c.arena) hp
          have hframed : ∀ t, P t ∧ policy.law.step s t → t.Sound → root.site.isSome = true := by
            intro t ht hsound
            have hsite := ((hsound.stacked c.arena).framed
              ((Policy.Evolves.grows ht.2).get? hroot)).site
            rw [hbottom] at hsite
            simpa using hsite
          simp only [hroot]
          refine Law.Meets.bind hsince.stable (meets_callSiteOf hsince hframed) fun site => ?_
          refine Law.Meets.assume fun hsite => ?_
          have hnested : p.parent.isSome = true := by
            rw [Option.isSome_iff_ne_none]
            simpa using hlost
          exact meets_replayLeaving h hhost hmay hs ⟨hp, hnested, root, hroot, hsite⟩

/-- Going on with one waiting replay after an exit, and sending on what that collects. -/
theorem meets_resumeOne (h : policy.Admits P) (hhost : policy.Hosts P sent host)
    (hwaiting : ∀ s, P s → s.Sound → ∃ p, (s.arena c.arena).get? c.id = some p ∧
      p.gap.isSome = true) {fuel : Nat} {m : Method}
    (hmay : policy.MayResume P host fuel e m stmt fact c) :
    policy.law.Meets P (resumeOne host fuel e m stmt fact c) fun _ =>
      Resumed policy host P sent e stmt fact c := by
  intro s hs
  refine (runs_collectOne h hhost hwaiting hmay hs).bind fun found u hexec hsu hcollected => ?_
  cases found with
  | none =>
      refine ⟨.refl, s, hs, hsu, fun p site hresumable hleaving hlimit => ?_⟩
      rcases hcollected with ⟨-, hidle⟩ | ⟨p', site', x, res, hrestarts, hfound, hreplayed, hxu⟩
      · exact absurd (hidle p site hresumable) hleaving
      · obtain rfl : res = none := Option.map_eq_none_iff.1 hfound.symm
        obtain ⟨rfl, rfl⟩ := hresumable.unique hrestarts.resumable
        refine ⟨x, none, u, hrestarts, hreplayed hlimit, hxu, .refl, fun path hpath => ?_⟩
        exact absurd hpath ((hreplayed hlimit).none.1 rfl path)
  | some found =>
      rcases hcollected with ⟨hnone, -⟩ | ⟨p, site, x, res, hrestarts, hfound, hreplayed, hxu⟩
      · cases hnone
      · obtain ⟨paths, rfl, rfl⟩ := Option.map_eq_some_iff.1 hfound.symm
        have hnow := h.and (Law.Stable.since u)
        have hprogram : ∀ t, policy.law.step u t → t.program = s.program :=
          fun t ht => (Policy.Evolves.grows (hsu.trans ht)).program
        have hinject := meets_injectAfter hnow hhost.and fun t ht path hpath next hnext =>
          hmay.sends s p site x u t paths hrestarts hexec hreplayed hxu ht.1 ht.2 path hpath next
            (hprogram t ht.2 ▸ hnext)
        refine (hinject u ⟨h.stable hs hsu, .refl⟩).weaken fun _ t _ hut hsent => ?_
        refine ⟨s, hs, hsu.trans hut, fun p' site' hresumable' _ hlimit => ?_⟩
        obtain ⟨rfl, rfl⟩ := hresumable'.unique hrestarts.resumable
        refine ⟨x, some paths, u, hrestarts, hreplayed hlimit, hxu, hut,
          fun path hpath next hnext => ?_⟩
        obtain ⟨found, hfound, hmem⟩ := ((hreplayed hlimit).mem path).2 hpath
        cases hfound
        exact hsent path hmem next ((hprogram t hut).symm ▸ hnext)

end One

/-! ## Reports -/

/-- The report was answered: every replay of an engine that waited for the exit
when it came has gone on. -/
def Answers (policy : Policy σ) (host : Host σ) (P : Session σ → Prop)
    (sent : PathEdge → Session σ → Prop) (e : EngineId) (r : ExitReport) (s t : Session σ) : Prop :=
  ∀ m c, s.program.methodOf? r.stmt = some m →
    (s.engine e).waiting.contains ⟨r.seed.path, m.id⟩ c = true →
      Resumed policy host (fun u => P u ∧ policy.law.step s u) sent e r.stmt r.fact c t

/-- What a policy has to permit for a report to be answered. -/
def MayAnswer (policy : Policy σ) (host : Host σ) (P : Session σ → Prop) (fuel : Nat) (e : EngineId)
    (r : ExitReport) : Prop :=
  ∀ s m c, P s → s.program.methodOf? r.stmt = some m →
    (s.engine e).waiting.contains ⟨r.seed.path, m.id⟩ c = true →
      policy.MayResume (fun u => P u ∧ policy.law.step s u) host fuel e m r.stmt r.fact c

theorem mayAnswer_of_lenient (h : policy.Lenient) (fuel : Nat) (r : ExitReport) :
    MayAnswer policy host P fuel e r :=
  fun _ _ _ _ _ _ => .of_lenient h

theorem mem_waiting_iff {engine : Engine} {seed : Seed} {waiting : OrdSet Continuation}
    (h : engine.waiting.find? seed = some waiting) {c : Continuation} :
    c ∈ waiting ↔ engine.waiting.contains seed c = true := by
  rw [MultiMap.contains, h, Option.any_some, decide_eq_true_iff]

/-- Going on with all replays that wait for an exit. -/
theorem meets_resume (h : policy.Admits P) (hhost : policy.Hosts P sent host) {r : ExitReport}
    {fuel : Nat} (hmay : MayAnswer policy host P fuel e r) :
    policy.law.Meets P (resume host fuel e r) fun _ t =>
      ∃ s, P s ∧ policy.Evolves s t ∧ Answers policy host P sent e r s t := by
  unfold resume
  refine Law.Meets.get_bind fun s hs => ?_
  have hsince := h.and (Law.Stable.since s)
  simp only
  by_cases hconnected : (!(s.engine e).connected) = true
  · rw [if_pos hconnected]
    exact Law.Meets.fail fun _ _ => h.errors_of_not_internal id
  · rw [if_neg hconnected]
    cases hm : s.program.methodOf? r.stmt with
    | none =>
        refine Law.Meets.pure fun t ht => ⟨s, hs, ht.2, fun m c hm' => ?_⟩
        cases hm.symm.trans hm'
    | some m =>
        simp only
        cases hfind : (s.engine e).waiting.find? ⟨r.seed.path, m.id⟩ with
        | none =>
            refine Law.Meets.pure fun t ht => ⟨s, hs, ht.2, fun m' c hm' hc => ?_⟩
            cases hm.symm.trans hm'
            rw [MultiMap.contains, hfind] at hc
            cases hc
        | some waiting =>
            have hone : ∀ c ∈ waiting.toList, policy.law.Meets
                (fun t => P t ∧ policy.law.step s t) (resumeOne host fuel e m r.stmt r.fact c)
                fun _ => Resumed policy host (fun u => P u ∧ policy.law.step s u) sent e r.stmt
                  r.fact c := by
              intro c hc
              have hcontains := (mem_waiting_iff hfind).1 hc
              refine meets_resumeOne hsince hhost.and (fun t ht hsound => ?_)
                (hmay s m c hs hm hcontains)
              exact hsound.waiting e _ c
                (((Policy.Evolves.grows ht.2).engine e).waiting _ c hcontains)
            have hall := Law.Meets.forM hsince.stable (fun c => stable_resumed hhost) hone
            refine (hall.keep hsince.stable).weaken ?_
            rintro _ t ⟨ht, hresumed⟩
            refine ⟨s, hs, ht.2, fun m' c hm' hc => ?_⟩
            cases hm.symm.trans hm'
            exact hresumed c ((mem_waiting_iff hfind).2 hc)

/-- Passing an exit on to the engine that listens. -/
theorem meets_handleExit (h : policy.Admits P) (hhost : policy.Hosts P sent host) {r : ExitReport}
    {fuel : Nat} (hmay : ∀ s e, P s → s.listener = some e → MayAnswer policy host P fuel e r) :
    policy.law.Meets P (handleExit host fuel r) fun _ t =>
      ∃ s, P s ∧ policy.Evolves s t ∧ ∀ e, s.listener = some e → s.isAlive e = true →
        Answers policy host P sent e r s t := by
  unfold handleExit
  refine Law.Meets.get_bind fun s hs => ?_
  have hsince := h.and (Law.Stable.since s)
  cases hlistener : s.listener with
  | none =>
      refine Law.Meets.pure fun t ht => ⟨s, hs, ht.2, fun e he => ?_⟩
      cases hlistener.symm.trans he
  | some e =>
      simp only
      by_cases halive : s.isAlive e = true
      · rw [if_pos halive]
        -- the engine goes on from here
        have hanswer : MayAnswer policy host (fun t => P t ∧ policy.law.step s t) fuel e r :=
          fun s' m c hs' hm hc => (hmay s e hs hlistener s' m c hs'.1 hm hc).anti
            fun u hu => ⟨hu.1.1, hu.2⟩
        refine Law.Meets.bind hsince.stable (meets_resume hsince hhost.and hanswer) fun _ => ?_
        refine Law.Meets.pure ?_
        rintro t ⟨-, s', hs', hevolves, hanswers⟩
        refine ⟨s', hs'.1, hevolves, fun e' he' _ m c hm hc => ?_⟩
        rw [(Policy.Evolves.grows hs'.2).listener] at he'
        cases hlistener.symm.trans he'
        exact (hanswers m c hm hc).mono fun u hu => ⟨hu.1.1, hu.2⟩
      · rw [if_neg halive]
        refine Law.Meets.andThen hsince.stable (Run.meets_report _) fun _ => ?_
        refine Law.Meets.pure fun t ht => ⟨s, hs, ht.2, fun e' he' halive' => ?_⟩
        cases hlistener.symm.trans he'
        exact absurd halive' halive

/-! ## Handing edges over -/

/-- The solver may be told of the errors that passing an exit on fails with. -/
def MayTell (policy : Policy σ) (host : Host σ) (P : Session σ → Prop) (fuel : Nat)
    (r : ExitReport) : Prop :=
  ∀ s err t, P s → (handleExit host fuel r).exec s = (.error (.error err), t) → policy.tells err

theorem mayTell_of_errors (h : policy.Admits P) (hhost : policy.Hosts P sent host) {fuel : Nat}
    {r : ExitReport} (hmay : ∀ s e, P s → s.listener = some e → MayAnswer policy host P fuel e r)
    (htells : ∀ e, policy.errors e → policy.tells e) : MayTell policy host P fuel r := by
  intro s err t hs hrun
  obtain ⟨-, hout⟩ := meets_handleExit h hhost hmay s hs
  rw [hrun] at hout
  exact htells err hout

/-- Reports are answered within a policy that permits what they lead to. An error in
doing so goes to the solver. -/
theorem meets_respond (h : policy.Admits P) (hhost : policy.Hosts P sent host) (fuel : Nat)
    {r : ExitReport} (hmay : ∀ s e, P s → s.listener = some e → MayAnswer policy host P fuel e r)
    (htell : MayTell policy host P fuel r) :
    policy.law.Meets P (respond host fuel r) fun _ _ => True := by
  unfold respond
  refine Law.Meets.tryCatch (Law.Meets.map ?_) fun s f t hs hrun _ _ => ?_
  · exact (meets_handleExit h hhost hmay).weaken fun _ _ _ => trivial
  · cases f with
    | outOfFuel => exact ⟨.refl, trivial⟩
    | error err =>
        have herror : (handleExit host fuel r).exec s = (.error (.error err), t) :=
          Run.exec_map_eq_error_iff.1 hrun
        rw [hhost.solver]
        exact ⟨.single (.reject t (htell s err t hs herror)), trivial⟩

/-- The solver as an engine sees it is a host, however deep reports nest, under a
policy that permits seeds and what reports lead to that are made at once. -/
theorem hosts_deliver (h : policy.Admits P) {fuel : Nat}
    (hseeds : ∀ s edge, P s → s.Seeds edge → policy.sends s edge)
    {reported : ExitReport → Session σ → Prop} (hreported : ∀ r, policy.law.Stable (reported r))
    (hreports : ∀ s edge r, P s → policy.sends s edge → r ∈ (policy.solver.accept s.solver edge).2 →
      reported r { s with solver := (policy.solver.accept s.solver edge).1 })
    {depth : Nat}
    (hmay : ∀ d < depth, policy.Hosts P (fun _ _ => True) (Engine.host policy.solver fuel d) →
      ∀ r, (∀ s e, P s ∧ reported r s → s.listener = some e →
        MayAnswer policy (Engine.host policy.solver fuel d) (fun s => P s ∧ reported r s) fuel e r) ∧
        MayTell policy (Engine.host policy.solver fuel d) (fun s => P s ∧ reported r s) fuel r) :
    policy.Hosts P (fun _ _ => True) (Engine.host policy.solver fuel depth) := by
  have hover : ∀ edge, policy.law.Meets (fun s => P s ∧ policy.sends s edge)
      (handOver policy.solver edge) fun reports t => P t ∧ ∀ r ∈ reports, reported r t := by
    intro edge s hs
    have hstep := Policy.Step.send s hs.2
    exact ⟨.single hstep, h.stable hs.1 (.single hstep), fun r hr => hreports s edge r hs.1 hs.2 hr⟩
  induction depth with
  | zero =>
      refine ⟨rfl, fun edge s hs => ?_, fun _ => .true, hseeds⟩
      show policy.law.Runs s (deliver policy.solver fuel 0 edge) _
      unfold deliver
      refine (hover edge s hs).bind fun reports t _ _ ht => ?_
      split
      · exact ⟨.refl, trivial⟩
      · exact ⟨.refl, trivial⟩
  | succ depth ih =>
      have hbelow := ih fun d hd => hmay d (Nat.lt_succ_of_lt hd)
      have hanswer := hmay depth (Nat.lt_succ_self depth) hbelow
      refine ⟨rfl, fun edge s hs => ?_, fun _ => .true, hseeds⟩
      show policy.law.Runs s (deliver policy.solver fuel (depth + 1) edge) _
      unfold deliver
      refine (hover edge s hs).bind fun reports t _ _ ht => ?_
      have hall := Law.Meets.forM (h.stable.and (.all fun r => .all fun _ : r ∈ reports => hreported r))
        (fun _ => .true) fun r (hr : r ∈ reports) =>
          (meets_respond (h.and (hreported r)) hbelow.and fuel (hanswer r).1
            (hanswer r).2).strengthen fun u hu => ⟨hu.1, hu.2 r hr⟩
      exact (hall t ht).weaken fun _ _ _ _ _ => trivial

/-- So it is under every lenient policy. -/
theorem hosts_deliver_of_lenient (h : policy.Admits P) (hlenient : policy.Lenient)
    (fuel depth : Nat) :
    policy.Hosts P (fun _ _ => True) (Engine.host policy.solver fuel depth) := by
  refine hosts_deliver h (fun s edge _ _ => hlenient.sends s edge) (fun _ => .true)
    (fun _ _ _ _ _ _ => trivial) fun d _ hhost r => ?_
  have hmay : ∀ s e, P s ∧ True → s.listener = some e →
      MayAnswer policy (Engine.host policy.solver fuel d) (fun s => P s ∧ True) fuel e r :=
    fun _ _ _ _ => mayAnswer_of_lenient hlenient fuel r
  exact ⟨hmay, mayTell_of_errors (h.and .true) hhost.and hmay hlenient.tells⟩

end Engine

end Resume

/-! ## Everything permitted -/

/-- Under the policy that permits everything, only groundedness has to be assumed. -/
theorem Policy.free_admits (solver : Solver σ) : (Policy.free solver).Admits Session.Grounded where
  stable _ _ hs hst := Policy.Evolves.grounded hst hs
  grounded _ hs := hs
  excused _ := .inl trivial

theorem Policy.free_hosts (solver : Solver σ) (fuel depth : Nat) :
    (Policy.free solver).Hosts Session.Grounded (fun _ _ => True)
      (Engine.host solver fuel depth) :=
  Engine.hosts_deliver_of_lenient (Policy.free_admits solver) (Policy.free_lenient solver) fuel depth

end TaintReplay
