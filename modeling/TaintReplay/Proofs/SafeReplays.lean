import TaintReplay.Proofs.CallbackExits
import TaintReplay.Proofs.WaitingStacks

/-!
# Replays that avoid errors

The error of treating a propagator can be told from its stack. So if none of the
stacks that a replay comes to has an error of some kind, the replay does not end in
one. Under a watch these stacks are covered: it is enough that no covered stack has
such an error (`Watch.Safe`). Then queries at the call and replays that go on after
an exit avoid the errors too.

A report is passed on to several replays in turn. If that ends in an error, it is the
error of one of them.

## Main results

* `Replay.faults_round`: treating a propagator ends in the error of a stack that was reached.
* `Watch.Lawful.runs_replay`: a replay from covered stacks avoids what these avoid.
* `Watch.Lawful.avoids_query`: so does a query.
* `Watch.Lawful.avoids_resumeOne`: so does a replay that goes on after an exit.
* `Watch.Lawful.exec_handleExit_error`: whose error passing an exit on ends in.
-/

namespace TaintReplay

variable {σ α β : Type} {bad : AnalysisError → Prop}

/-! ## Programs that avoid errors -/

namespace Run

variable {s : Session σ}

/-- From a session, the program does not end in an error of a kind. -/
def Avoids (bad : AnalysisError → Prop) (s : Session σ) (x : Run σ α) : Prop :=
  ∀ e t, x.exec s = (.error (.error e), t) → ¬ bad e

theorem Faults.avoids {stalls : Prop} {fault : Option AnalysisError} {x : Run σ α}
    (h : Faults stalls s x fault) (hfault : ∀ e, fault = some e → ¬ bad e) : Avoids bad s x :=
  fun e _ hrun => hfault e (h.of_error hrun)

theorem Total.avoids {x : Run σ α} (h : x.Total) : Avoids bad s x := by
  intro e t hrun
  obtain ⟨a, u, hok⟩ := h s
  cases hok.symm.trans hrun

protected theorem Avoids.bind {x : Run σ β} {f : β → Run σ α} (hx : Avoids bad s x)
    (hf : ∀ b t, x.exec s = (.ok b, t) → Avoids bad t (f b)) : Avoids bad s (x >>= f) := by
  intro e u hrun
  rw [exec_bind] at hrun
  match hfirst : x.exec s with
  | (.ok b, t) =>
      rw [hfirst] at hrun
      exact hf b t hfirst e u hrun
  | (.error failure, t) =>
      rw [hfirst] at hrun
      cases hrun
      exact hx e _ hfirst

theorem Avoids.get_bind {f : Session σ → Run σ α} (h : Avoids bad s (f s)) :
    Avoids bad s (get >>= f) := by
  intro e t hrun
  rw [exec_get_bind] at hrun
  exact h e t hrun

/-- A loop that fails does so in one of its rounds, after those before it. -/
theorem exec_forM_error {f : β → Run σ PUnit} {xs : List β} {failure : Failure} {t : Session σ}
    (hrun : (xs.forM f).exec s = (.error failure, t)) :
    ∃ before x after u, xs = before ++ x :: after ∧ (before.forM f).exec s = (.ok (), u) ∧
      (f x).exec u = (.error failure, t) := by
  induction xs generalizing s with
  | nil => cases hrun
  | cons x xs ih =>
      change (f x >>= fun _ => xs.forM f).exec s = _ at hrun
      rw [exec_bind] at hrun
      match hfirst : (f x).exec s with
      | (.error other, u) =>
          rw [hfirst] at hrun
          cases hrun
          exact ⟨[], x, xs, s, rfl, rfl, hfirst⟩
      | (.ok _, u) =>
          rw [hfirst] at hrun
          obtain ⟨before, y, after, v, rfl, hbefore, hlast⟩ := ih hrun
          refine ⟨x :: before, y, after, v, rfl, ?_, hlast⟩
          change (f x >>= fun _ => before.forM f).exec s = _
          rw [exec_bind_of_ok hfirst]
          exact hbefore

end Run

open Run

namespace Law

variable {law : Law σ} {s : Session σ} {x : Run σ α} {Q : α → Session σ → Prop}

/-- The law that forbids errors of a kind. -/
def avoiding (law : Law σ) (bad : AnalysisError → Prop) : Law σ :=
  { law with errors := fun e => law.errors e ∧ ¬ bad e }

theorem Runs.avoiding (h : law.Runs s x Q) (hx : Avoids bad s x) :
    (law.avoiding bad).Runs s x Q := by
  obtain ⟨hstep, hout⟩ := h
  refine ⟨hstep, ?_⟩
  match hrun : x.exec s with
  | (.ok a, t) =>
      rw [hrun] at hout
      exact hout
  | (.error (.error e), t) =>
      rw [hrun] at hout
      exact ⟨hout, hx e t hrun⟩
  | (.error .outOfFuel, t) => trivial

theorem Runs.avoids (h : (law.avoiding bad).Runs s x Q) : Avoids bad s x := by
  intro e t hrun
  have hout := h.2
  rw [hrun] at hout
  exact hout.2

end Law

/-! ## Replays -/

namespace Replay

variable {x : Replay σ} {policy : Policy σ} {P : Session σ → Prop}
  {sent : PathEdge → Session σ → Prop} {f : Frontier} {s : Session σ} {n : Nat}
  {id : PropagatorId} {rest : Queue PropagatorId} {stalls : Prop}

/-- Treating the first propagator of the queue ends in the error of a stack that was
reached. -/
theorem faults_round (h : policy.Admits P) (hsound : ∀ s, P s → s.Sound)
    (hhost : policy.Hosts P sent x.host) (hreliable : x.host.Reliable stalls)
    (hwaits : ∀ t, P t → policy.Evolves x.session t → x.MayWait policy t)
    (hpop : f.queue.pop? = some (id, rest)) (hs : P s) (hnow : x.Underway policy n f s) :
    ∃ st, x.Reach (x.LeftBy n) st ∧
      Faults stalls s (Engine.expand x.host x.engine x.arena x.flows id)
        (x.rules.fault x.session.entrances st) := by
  obtain ⟨top, below, hreach, htreating⟩ := hnow.treating hpop
  have hfaults := Engine.faults_expand (admits_treating h) (fun t ht => hsound t ht.1) hhost.and
    hreliable (fun t ht => ht.2.since.grows.rules x.engine x.flows) (fun t ht => ht.2.held)
    (fun t ht => hwaits t ht.1 ht.2.since n id _ ht.2.held ht.2.progress.logged hreach)
    (s := s) ⟨hs, htreating⟩
  rw [hnow.since.grows.entrances] at hfaults
  exact ⟨top :: below, hreach, hfaults⟩

/-- A replay avoids the errors that the stacks it comes to avoid. -/
theorem runs_replay_avoiding (h : policy.Admits P) (hsound : ∀ s, P s → s.Sound)
    (hhost : policy.Hosts P sent x.host) (hreliable : x.host.Reliable stalls) (hs : P x.session)
    (hstored : ∀ id ∈ x.initial, ∃ st, (x.session.arena x.arena).Holds id st)
    (hwaits : ∀ t, P t → policy.Evolves x.session t → x.MayWait policy t)
    (hsafe : ∀ t n st err, P t → x.Logged policy n t → x.Reach (x.LeftBy n) st →
      x.rules.fault x.session.entrances st = some err → ¬ bad err) (fuel : Nat) :
    (policy.law.avoiding bad).Runs x.session
      (Engine.replay x.host fuel x.engine x.arena x.flows x.initial)
      fun res t => (x.session.engine x.engine).options.maxSteps = none →
        x.Replayed policy res t := by
  refine runs_replay_of_rounds (fun event s => ?_) (fun n f id rest s hpop hs hnow => ?_) hs hstored
    fuel
  · exact (Run.meets_report (P := fun _ => True) event s trivial).avoiding (total_report event).avoids
  · obtain ⟨st, hreach, hfaults⟩ := faults_round h hsound hhost hreliable hwaits hpop hs hnow
    refine (runs_round h hhost hwaits hpop hs hnow).avoiding (hfaults.avoids fun err => ?_)
    exact hsafe s n st err hs hnow.progress.logged hreach

end Replay

/-! ## Passing exits on -/

namespace Engine

variable {host : Host σ} {fuel : Nat} {s : Session σ}

/-- Giving the solver what is tainted after a call does not fail. -/
theorem faults_injectAfter {stalls : Prop} (hreliable : host.Reliable stalls) (site : CallSite)
    (paths : OrdSet AccessPath) : Faults stalls s (injectAfter host site paths) none := by
  unfold injectAfter
  refine Faults.get_bind ?_
  exact .forM (fun path t => .forM (fun next t => hreliable _ t) _) _

/-- An error of passing an exit on is one of going on, unless the engine was not
connected. -/
theorem exec_handleExit_error {r : ExitReport} {err : AnalysisError} {t : Session σ}
    (hrun : (handleExit host fuel r).exec s = (.error (.error err), t))
    (hconnected : err ≠ .uninitialized) :
    ∃ e m waiting, s.listener = some e ∧ s.program.methodOf? r.stmt = some m ∧
      (s.engine e).waiting.find? ⟨r.seed.path, m.id⟩ = some waiting ∧
      (waiting.toList.forM (resumeOne host fuel e m r.stmt r.fact)).exec s =
        (.error (.error err), t) := by
  unfold handleExit at hrun
  rw [exec_get_bind] at hrun
  cases hlistener : s.listener with
  | none =>
      rw [hlistener] at hrun
      cases hrun
  | some e =>
      simp only [hlistener] at hrun
      by_cases halive : s.isAlive e = true
      · rw [if_pos halive] at hrun
        have hresume : (resume host fuel e r).exec s = (.error (.error err), t) := by
          rw [exec_bind] at hrun
          match hfirst : (resume host fuel e r).exec s with
          | (.ok _, u) =>
              rw [hfirst] at hrun
              cases hrun
          | (.error failure, u) =>
              rw [hfirst] at hrun
              cases hrun
              rfl
        unfold resume at hresume
        rw [exec_get_bind] at hresume
        simp only at hresume
        split at hresume
        · cases hresume
          exact absurd rfl hconnected
        · cases hm : s.program.methodOf? r.stmt with
          | none =>
              rw [hm] at hresume
              cases hresume
          | some m =>
              simp only [hm] at hresume
              cases hfind : (s.engine e).waiting.find? ⟨r.seed.path, m.id⟩ with
              | none =>
                  rw [hfind] at hresume
                  cases hresume
              | some waiting =>
                  rw [hfind] at hresume
                  exact ⟨e, m, waiting, rfl, rfl, hfind, hresume⟩
      · rw [if_neg halive] at hrun
        cases hrun

end Engine

/-! ## Under a watch -/

namespace Watch

/-- No stack that is covered about a call has an error of a kind. -/
def Safe (w : Watch σ) (bad : AnalysisError → Prop) (e : EngineId) (key : SiteKey) : Prop :=
  ∀ a flows st err, (∀ flow ∈ flows, flow ∈ w.base.callFlows e key.stmt) →
    st.site? = some key → w.inside e a key st →
    (w.base.rules e flows).fault w.base.entrances st = some err → ¬ bad err

section Hosted

variable {w : Watch σ} {s : Session σ} {sent : PathEdge → Session σ → Prop} {host : Host σ}
  {stalls : Prop} {e : EngineId}

/-- A replay about a call that starts from covered stacks avoids what these avoid. -/
theorem Lawful.runs_replay (h : w.Lawful) {x : Replay σ} (key : SiteKey)
    (hhost : w.policy.Hosts w.Holds sent x.host) (hreliable : x.host.Reliable stalls)
    (hs : w.Holds x.session)
    (hflows : ∀ flow ∈ x.flows, flow ∈ w.base.callFlows x.engine key.stmt)
    (hstarts : ∀ st ∈ x.starts, st.site? = some key ∧ w.inside x.engine x.arena key st)
    (hstems : ∀ id, w.Stems key x.session ⟨x.arena, id⟩)
    {named : List Stack} (hstored : (x.session.arena x.arena).HoldsAll x.initial named)
    (hsafe : w.Safe bad x.engine key) (fuel : Nat) :
    (w.policy.law.avoiding bad).Runs x.session
      (Engine.replay x.host fuel x.engine x.arena x.flows x.initial) fun _ _ => True := by
  have hrules : x.rules = w.base.rules x.engine x.flows :=
    hs.since.grows.rules x.engine x.flows
  refine (Replay.runs_replay_avoiding w.admits (fun _ hs => hs.sound) hhost hreliable hs
    (fun id hid => ?_) (fun t ht hxt => h.mayWait key hhost hs hflows hstarts hstems ht hxt) ?_
    fuel).weaken fun _ _ _ _ _ => trivial
  · obtain ⟨st, -, hst⟩ := exists_right_of_forall₂ hstored hid
    exact ⟨st, hst⟩
  · intro t n st err ht hlogged hreach hfault
    obtain ⟨hsite, hinside⟩ := h.inside_of_reach hhost hs hflows hstarts hstems ht hlogged hreach
    rw [hrules, hs.since.grows.entrances] at hfault
    exact hsafe x.arena x.flows st err hflows hsite hinside hfault

/-! ## Queries -/

section Calls

variable {site : CallSite} {inverse : Bool} {taints : OrdSet Taint} {a : Nat}

/-- Replaying the flows of one class after the other. -/
theorem Lawful.avoids_replayClasses (h : w.Lawful) (hhost : w.policy.Hosts w.Holds sent host)
    (hreliable : host.Reliable stalls) (hs : w.Holds s) (hknown : a < s.arenas.length)
    (hcall : s.IsCall site.stmt) (hsafe : w.Safe bad e site.key)
    (hstarts : ∀ taint, w.inside e a site.key (site.stack inverse taint))
    (hasks : w.asks site.key) (hopened : w.base.arenas.length ≤ a) {classes : List FlowSet}
    (hclasses : ∀ flows ∈ classes, ∀ flow ∈ flows, flow ∈ w.base.callFlows e site.stmt)
    (fuel : Nat) (facts : FactSet) :
    Avoids bad s (Engine.replayClasses host fuel e a site inverse taints classes facts) := by
  induction classes generalizing s facts with
  | nil => exact (Total.pure _).avoids
  | cons flows rest ih =>
      rw [Engine.replayClasses]
      refine (Total.mapM (fun t => total_intern a _) taints.toList).avoids.bind fun ids t hrun => ?_
      -- the arena and the call are there in every session from here on
      have hthere : ∀ t, w.Holds t ∧ w.policy.law.step s t →
          a < t.arenas.length ∧ t.IsCall site.stmt := by
        intro t ht
        have hst := Policy.Evolves.grows ht.2
        refine ⟨Nat.lt_of_lt_of_le hknown hst.arenas, ?_⟩
        rw [Session.IsCall, hst.program]
        exact hcall
      obtain ⟨hst, hids⟩ := (Engine.meets_internRoots (w.admits.and (Law.Stable.since s))
        (fun t ht => (hthere t ht).1) (fun t ht => (hthere t ht).2) inverse taints.toList).of_ok
        ⟨hs, .refl⟩ hrun
      have ht := hs.evolves hst
      let x : Replay σ := ⟨host, e, a, flows, ids, t⟩
      have hx : ∀ st ∈ x.starts, st.site? = some site.key ∧ w.inside e a site.key st := by
        intro st hmem
        rw [show x.starts = taints.toList.map (site.stack inverse) from hids.map_stack] at hmem
        obtain ⟨taint, -, rfl⟩ := List.mem_map.1 hmem
        exact ⟨rfl, hstarts taint⟩
      have hreplay := h.runs_replay (x := x) site.key hhost hreliable ht
        (hclasses flows List.mem_cons_self) hx (fun _ => .asked hasks hopened) hids hsafe fuel
      refine hreplay.avoids.bind fun res u hdone => ?_
      have htu : w.policy.Evolves t u := (hreplay.of_ok hdone).1
      obtain ⟨hknown', hcall'⟩ := hthere u ⟨ht.evolves htu, hst.trans htu⟩
      exact ih (ht.evolves htu) hknown' hcall'
        (fun other hother => hclasses other (List.mem_cons_of_mem _ hother)) _

/-- The answer of an engine that has summaries for a call. -/
theorem Lawful.avoids_answer (h : w.Lawful) (hhost : w.policy.Hosts w.Holds sent host)
    (hreliable : host.Reliable stalls) {direction : Direction} {call : Call} (hs : w.Holds s)
    (hcall : s.program.call? site.stmt = some call) (hsafe : w.Safe bad e site.key)
    (hasks : w.asks site.key)
    (hstarts : ∀ a taint, w.base.arenas.length ≤ a →
      w.inside e a site.key (site.stack (direction = .backward) taint)) (fuel : Nat) :
    Avoids bad s (Engine.answer host fuel e direction site call.callee
      (s.summaries e (some site.stmt) call.callee)) := by
  unfold Engine.answer
  refine Avoids.get_bind ?_
  simp only
  split
  · exact (Total.pure _).avoids
  · refine total_openArena.avoids.bind fun a t hrun => ?_
    obtain ⟨hst, hold, hknown⟩ := (Run.meets_openArena (n := s.arenas.length) fun t ht =>
      (Policy.Evolves.grows ht).arenas).of_ok (w.policy.law.refl s) hrun
    have hcalled : t.program.call? site.stmt = some call := by
      rw [(Policy.Evolves.grows hst).program]
      exact hcall
    have hopened := Nat.le_trans hs.since.grows.arenas hold
    refine Avoids.bind (h.avoids_replayClasses hhost hreliable (hs.evolves hst) hknown ?_ hsafe
      (fun taint => hstarts a taint hopened) hasks hopened ?_ fuel _) fun facts u _ => ?_
    · rw [Session.IsCall, hcalled]
      rfl
    · intro flows hflows flow hflow
      rw [← hs.since.grows.callFlows]
      exact Session.mem_callFlows hcall hflows hflow
    · exact (Total.bind (total_report _) fun _ => .pure _).avoids

/-- A query goes along a chain of engines. It avoids what all of them avoid. -/
theorem Lawful.avoids_queryChain (h : w.Lawful) (hhost : w.policy.Hosts w.Holds sent host)
    (hreliable : host.Reliable stalls) (hbad : ¬ bad .uninitialized) {direction : Direction}
    {chain : List EngineId} (hs : w.Holds s) (hsafe : ∀ k ∈ chain, w.Safe bad k site.key)
    (hasks : w.asks site.key)
    (hstarts : ∀ k ∈ chain, ∀ a taint, w.base.arenas.length ≤ a →
      w.inside k a site.key (site.stack (direction = .backward) taint)) (fuel : Nat) :
    Avoids bad s (Engine.queryChain host fuel direction site chain) := by
  induction chain generalizing s with
  | nil => exact (Total.pure _).avoids
  | cons e rest ih =>
      rw [Engine.queryChain]
      refine Avoids.get_bind ?_
      by_cases hconnected : (!(s.engine e).connected) = true
      · rw [if_pos hconnected]
        intro err t hrun
        cases hrun
        exact hbad
      · rw [if_neg hconnected]
        cases hcall : s.program.call? site.stmt with
        | none => exact (Total.pure _).avoids
        | some call =>
            refine (Engine.total_summariesFor e (some site.stmt) call.callee).avoids.bind
              fun found t hrun => ?_
            obtain ⟨hst, hfound⟩ := (Engine.meets_summariesFor w.admits e _ _).of_ok hs hrun
            have ht : w.Holds t := hs.evolves hst
            by_cases hempty : found.isEmpty = true
            · rw [if_pos hempty]
              refine (Engine.total_countMiss e direction call.callee).avoids.bind fun _ u hrun => ?_
              obtain ⟨htu, -⟩ := (Engine.meets_countMiss w.admits e direction _).of_ok ht hrun
              exact ih (ht.evolves htu) (fun k hk => hsafe k (List.mem_cons_of_mem _ hk))
                fun k hk => hstarts k (List.mem_cons_of_mem _ hk)
            · rw [if_neg hempty]
              refine (Engine.total_countHit e direction).avoids.bind fun _ u hrun => ?_
              obtain ⟨htu, -⟩ := (Engine.meets_countHit e direction).of_ok ht hrun
              have hcalled : u.program.call? site.stmt = some call := by
                rw [(Policy.Evolves.grows (hst.trans htu)).program]
                exact hcall
              have hsame : found = u.summaries e (some site.stmt) call.callee := by
                rw [hfound, (Policy.Evolves.grows htu).summaries]
              rw [hsame]
              refine Avoids.bind ?_ fun _ _ _ => (Total.pure _).avoids
              exact h.avoids_answer hhost hreliable (ht.evolves htu) hcalled
                (hsafe e List.mem_cons_self) hasks (hstarts e List.mem_cons_self) fuel

/-- A query avoids what the engines it is put to avoid. -/
theorem Lawful.avoids_query (h : w.Lawful) (hhost : w.policy.Hosts w.Holds sent host)
    (hreliable : host.Reliable stalls) (hbad : ¬ bad .uninitialized) {direction : Direction}
    (hs : w.Holds s) (hsafe : ∀ k ∈ s.chain e, w.Safe bad k site.key) (hasks : w.asks site.key)
    (hstarts : ∀ k ∈ s.chain e, ∀ a taint, w.base.arenas.length ≤ a →
      w.inside k a site.key (site.stack (direction = .backward) taint)) (fuel : Nat) :
    Avoids bad s (Engine.query host fuel e direction site) := by
  unfold Engine.query
  exact Avoids.get_bind (h.avoids_queryChain hhost hreliable hbad hs hsafe hasks hstarts fuel)

end Calls

/-! ## Exits -/

variable {r : ExitReport} {m : Method} {c : Continuation}

/-- A replay that is woken avoids what the stacks about its call avoid. -/
theorem Lawful.avoids_resumeOne (h : w.Lawful) (hhost : w.policy.Hosts w.Holds sent host)
    (hreliable : host.Reliable stalls) (hs : w.Holds s) (hwakes : w.Wakes r e m c s) {key : SiteKey}
    (hkey : ((s.arena c.arena).stack c.id).site? = some key) (hsafe : w.Safe bad e key)
    (fuel : Nat) : Avoids bad s (Engine.resumeOne host fuel e m r.stmt r.fact c) := by
  obtain ⟨p, hp, hgap⟩ := hs.sound.waiting e _ c hwakes.waits
  obtain ⟨key', hkey', hinside, hstems⟩ := hs.waiting e _ c hwakes.waits
  obtain rfl : key = key' := Option.some.inj (hkey.symm.trans hkey')
  by_cases hnone : (s.program.taintsOnReturn r.fact.path r.stmt p.gap).isEmpty = true
  · have hnested : ¬ p.parent.isNone = true := by
      rw [((hs.sound.stacked c.arena).framed hp).gap] at hgap
      simp [Option.isSome_iff_ne_none.1 hgap]
    have hnothing : (Engine.collectOne host fuel e m r.stmt r.fact c).exec s = (.ok none, s) := by
      unfold Engine.collectOne
      rw [Run.exec_get_bind]
      simp only [hp]
      rw [if_neg hnested, if_pos hnone]
      rfl
    intro err t hrun
    rw [Engine.resumeOne, Run.exec_bind_of_ok hnothing] at hrun
    cases hrun
  · obtain ⟨site, ids, t, hresumable, hst, hids, hexec⟩ := Engine.exec_resumeOne w.admits host fuel e
      m hs hs.sound hp hgap (Bool.eq_false_iff.2 hnone)
    obtain rfl : key = site.key :=
      Option.some.inj (hkey.symm.trans (hresumable.site? hs.sound.grounded))
    -- the replay starts where the fact leaves the gap of the stack that waited
    let x : Replay σ := ⟨host, e, c.arena, s.callFlows e site.stmt, ids, t⟩
    have hflows : ∀ flow ∈ x.flows, flow ∈ w.base.callFlows e site.stmt := by
      intro flow hflow
      rw [← hs.since.grows.callFlows]
      exact hflow
    have hstarts : ∀ st ∈ x.starts, st.site? = some site.key ∧ w.inside e c.arena site.key st := by
      intro st hmem
      rw [show x.starts = s.leaving c p r.stmt r.fact from hids.map_stack] at hmem
      obtain ⟨taint, -, rfl⟩ := List.mem_map.1 hmem
      have hkeeps := h.keeps e c.arena site.key _ hflows
      exact ⟨(Stack.site?_leave taint _).trans hkey, hkeeps.leave taint _ hinside⟩
    have hreplay := h.runs_replay (x := x) site.key hhost hreliable (hs.evolves hst) hflows hstarts
      (fun _ => .woken hstems hwakes (leads_of_evolves hst) rfl) hids hsafe fuel
    have hgoOn : Avoids bad t
        (Engine.goOn host fuel e c.arena site (s.callFlows e site.stmt) ids) := by
      refine hreplay.avoids.bind fun paths u _ => ?_
      cases paths with
      | none => exact (Total.pure _).avoids
      | some paths => exact (Engine.faults_injectAfter hreliable site paths).avoids fun _ h => nomatch h
    intro err u hrun
    exact hgoOn err u (hexec.symm.trans hrun)

/-- If passing an exit on ends in an error, one of the replays that it wakes has gone on
to that error, after others. -/
theorem Lawful.exec_handleExit_error (h : w.Lawful) {depth : Nat}
    (hhost : w.policy.Hosts w.Holds sent (w.host depth)) (hdepth : depth ≤ w.depth)
    (hs : w.Holds s ∧ w.Reported r s) {err : AnalysisError} {t : Session σ}
    (hrun : (Engine.handleExit (w.host depth) w.fuel r).exec s = (.error (.error err), t))
    (hconnected : err ≠ .uninitialized) :
    ∃ e m c u, w.Wakes r e m c s ∧ w.policy.Evolves s u ∧
      (Engine.resumeOne (w.host depth) w.fuel e m r.stmt r.fact c).exec u =
        (.error (.error err), t) := by
  obtain ⟨e, m, waiting, hlistener, hm, hfind, hloop⟩ :=
    Engine.exec_handleExit_error hrun hconnected
  obtain ⟨before, c, after, u, hsplit, hbefore, hlast⟩ := exec_forM_error hloop
  have hwaits : ∀ c ∈ waiting.toList,
      (s.engine e).waiting.contains ⟨r.seed.path, m.id⟩ c = true :=
    fun c hc => (Engine.mem_waiting_iff hfind).1 hc
  -- those before have kept to the policy
  have hsince := (w.admits.and (w.stable_reported r)).and (Law.Stable.since s)
  have hone : ∀ c ∈ before, w.policy.law.Meets
      (fun t => (w.Holds t ∧ w.Reported r t) ∧ w.policy.law.step s t)
      (Engine.resumeOne (w.host depth) w.fuel e m r.stmt r.fact c) fun _ _ => True := by
    intro c hc
    have hcontains := hwaits c (hsplit ▸ List.mem_append_left _ hc)
    refine (Engine.meets_resumeOne hsince hhost.and.and (fun t ht hsound => ?_)
      (h.mayAnswer hhost hdepth (hs.1.listener hlistener) r s m c hs hm hcontains)).weaken
        fun _ _ _ => trivial
    exact hsound.waiting e _ c (((Policy.Evolves.grows ht.2).engine e).waiting _ c hcontains)
  obtain ⟨hsu, -⟩ := (Law.Meets.forM hsince.stable (fun _ => .true) hone).of_ok ⟨hs, .refl⟩ hbefore
  have hc := hwaits c (hsplit ▸ by simp)
  exact ⟨e, m, c, u, ⟨hs.1.since, hs.2, hlistener, hm, hc⟩, hsu, hlast⟩

end Hosted

end Watch

end TaintReplay
