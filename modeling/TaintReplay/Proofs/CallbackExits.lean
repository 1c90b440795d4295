import TaintReplay.Proofs.Faults
import TaintReplay.Proofs.RecordedRuns

/-!
# No exit of a callback is lost

A solver may report the exit of a callback while it is still being given the seed.
That no exit is lost therefore depends on the order of things: the replay is entered
as waiting before its seed is given away, and what waits is never taken back. To say
that the order is right the host is put on guard (`Host.guarded`): it stops the run
if it is given a seed that the replay does not wait for yet. It never does, since a
replay goes the same way with it as without.

A report is then passed on to all that wait for its seed when it comes, in turn, up
to the first that fails. Each goes on with the work list, from the stacks by which
the fact leaves its gap.

## Main results

* `Engine.exec_spawn_guarded`: seeds are given away after the replay was entered as waiting.
* `Engine.exec_collectOne`: going on after an exit runs the work list.
* `Engine.exec_handleExit`: a report is passed on to all that wait for it.
* `no_callback_exit_is_lost`: the three together, in every run.
-/

namespace TaintReplay

variable {σ α β : Type}

/-! ## Programs from one session -/

namespace Run

variable {s t : Session σ}

theorem exec_bind_of_ok {x : Run σ α} {a : α} (hrun : x.exec s = (.ok a, t)) (f : α → Run σ β) :
    (x >>= f).exec s = (f a).exec t := by
  rw [exec_bind, hrun]

/-- Programs agree if they begin alike and agree from there. -/
theorem exec_bind_congr {x : Run σ α} {f g : α → Run σ β}
    (h : ∀ a t, x.exec s = (.ok a, t) → (f a).exec t = (g a).exec t) :
    (x >>= f).exec s = (x >>= g).exec s := by
  rw [exec_bind, exec_bind]
  match hrun : x.exec s with
  | (.ok a, t) => exact h a t hrun
  | (.error f, t) => rfl

theorem forM_append_cons (f : α → Run σ PUnit) (before : List α) (x : α) (after : List α) :
    (before ++ x :: after).forM f = (do before.forM f; f x; after.forM f) := by
  rw [List.forM_eq_forM, List.forM_append]
  rfl

end Run

/-! ## Waiting first -/

/-- A host that hands over an edge only if a replay waits for its fact in a method by
then, and stops otherwise. -/
def Host.guarded (host : Host σ) (e : EngineId) (m : MethodId) (c : Continuation) : Host σ where
  solver := host.solver
  deliver edge := do
    if ((← get).engine e).waiting.contains ⟨edge.fact.path, m⟩ c then host.deliver edge
    else throw .outOfFuel

/-- Only an engine of the session is connected. -/
theorem Session.lt_of_connected {s : Session σ} {e : EngineId}
    (h : (s.engine e).connected = true) : e < s.engines.length := by
  refine Nat.lt_of_not_le fun hle => ?_
  rw [Session.engine, List.getElem?_eq_none hle] at h
  cases h

namespace Engine

variable {solver : Solver σ} {fuel depth : Nat} {s : Session σ} {e : EngineId}

/-- Seeds that are waited for pass the guard. -/
theorem exec_forM_guarded {path : AccessPath} {m : MethodId} {c : Continuation}
    (hs : s.Grounded) (hc : (s.engine e).waiting.contains ⟨path, m⟩ c = true)
    (starts : List StmtId) :
    (starts.forM fun start =>
        (host solver fuel depth).deliver ⟨.ofPath path, start, .ofPath path⟩).exec s =
      (starts.forM fun start =>
        ((host solver fuel depth).guarded e m c).deliver
          ⟨.ofPath path, start, .ofPath path⟩).exec s := by
  induction starts generalizing s with
  | nil => rfl
  | cons start starts ih =>
      have hfirst : (((host solver fuel depth).guarded e m c).deliver
          ⟨.ofPath path, start, .ofPath path⟩).exec s =
          ((host solver fuel depth).deliver ⟨.ofPath path, start, .ofPath path⟩).exec s := by
        show Run.exec (get >>= fun session => if (session.engine e).waiting.contains ⟨path, m⟩ c
          then (host solver fuel depth).deliver _ else throw .outOfFuel) s = _
        rw [Run.exec_get_bind, if_pos hc]
      show Run.exec (_ >>= fun _ => starts.forM _) s = Run.exec (_ >>= fun _ => starts.forM _) s
      rw [Run.exec_bind, Run.exec_bind, hfirst]
      match hrun : ((host solver fuel depth).deliver
        ⟨.ofPath path, start, .ofPath path⟩).exec s with
      | (.error f, t) => rfl
      | (.ok _, t) =>
          have hmeets := (Policy.free_hosts solver fuel depth).deliver
            ⟨.ofPath path, start, .ofPath path⟩
          obtain ⟨hst, -⟩ := hmeets.of_ok ⟨hs, trivial⟩ hrun
          exact ih (Policy.Evolves.grounded hst hs)
            (((Policy.Evolves.grows hst).engine e).waiting _ c hc)

/-- A replay is entered as waiting for a seed before the seed is given away: the guard
never stops it. -/
theorem exec_spawn_guarded (solver : Solver σ) (fuel depth : Nat) (hs : s.Grounded)
    (he : e < s.engines.length) (a : Nat) (id : PropagatorId) (p : Propagator) (m : Method) :
    (spawn (host solver fuel depth) e a id p m).exec s =
      (spawn ((host solver fuel depth).guarded e m.id ⟨a, id⟩) e a id p m).exec s := by
  have hadmits := Policy.free_admits solver
  unfold spawn
  refine Run.exec_bind_congr fun _ t ht => ?_
  obtain ⟨hst, -⟩ := (meets_ensureBody hadmits m).of_ok hs ht
  refine Run.exec_bind_congr fun path u hu => ?_
  have htgrounded := Policy.Evolves.grounded hst hs
  obtain ⟨htu, -⟩ := (meets_pathInside hadmits p.taint m).of_ok htgrounded hu
  have hsu := (Policy.Evolves.grows hst).trans (Policy.Evolves.grows htu)
  cases path with
  | none => rfl
  | some path =>
      refine Run.exec_bind_congr fun _ v hv => ?_
      have hlater : v = u.modifyEngine e fun engine =>
          { engine with waiting := engine.waiting.put ⟨path, m.id⟩ ⟨a, id⟩ } :=
        (Prod.mk.inj hv).2.symm
      have hugrounded : u.Grounded := Policy.Evolves.grounded htu htgrounded
      have hv : v.Grounded := by
        rw [hlater]
        exact hugrounded
      have hc : (v.engine e).waiting.contains ⟨path, m.id⟩ ⟨a, id⟩ = true := by
        rw [hlater, Session.engine_modifyEngine, if_pos ⟨rfl, hsu.engines ▸ he⟩]
        exact (MultiMap.contains_put _ _ _ _ _).2 (.inl ⟨rfl, rfl⟩)
      rw [Run.exec_get_bind, Run.exec_get_bind, Run.exec_bind, Run.exec_bind,
        exec_forM_guarded hv hc]
      rfl

/-! ## Exits -/

/-- Runs the work list and gives the solver what it collects, after the call. -/
def goOn (host : Host σ) (fuel : Nat) (e : EngineId) (a : Nat) (site : CallSite) (flows : FlowSet)
    (initial : List PropagatorId) : Run σ Unit := do
  let some paths ← replay host fuel e a flows initial | return
  injectAfter host site paths

section Going

variable {policy : Policy σ} {P : Session σ → Prop} {c : Continuation} {p : Propagator}
  {stmt : StmtId} {fact : Fact}

/-- Looking up the flows of a call succeeds. -/
theorem exec_flowsAtCall (h : policy.Admits P) (e : EngineId) (hs : P s) {stmt : StmtId}
    (hcall : s.IsCall stmt) :
    ∃ t, policy.Evolves s t ∧ (flowsAtCall e stmt).exec s = (.ok (s.callFlows e stmt), t) := by
  obtain ⟨call, hsome⟩ := Option.isSome_iff_exists.1 hcall
  have htotal : ∃ flows t, (flowsAtCall e stmt).exec s = (.ok flows, t) := by
    unfold flowsAtCall
    rw [Run.exec_get_bind, hsome]
    exact (Run.Total.bind (total_summariesFor e (some stmt) call.callee) fun _ => .pure _) s
  obtain ⟨flows, t, hrun⟩ := htotal
  obtain ⟨hst, hflows⟩ := (meets_flowsAtCall (h.and (Law.Stable.since s)) fun t ht _ => by
    rw [Session.IsCall, (Policy.Evolves.grows ht.2).program]
    exact hcall).of_ok ⟨hs, .refl⟩ hrun
  refine ⟨t, hst, ?_⟩
  rw [hrun, hflows, (Policy.Evolves.grows hst).callFlows]

/-- Interning the propagators by which a fact leaves a gap succeeds. -/
theorem exec_internLeaving (h : policy.Admits P) (hs : P s)
    (hp : (s.arena c.arena).get? c.id = some p) {t : Session σ} (hst : policy.Evolves s t)
    (stmt : StmtId) (fact : Fact) :
    ∃ ids u, policy.Evolves s u ∧
      (u.arena c.arena).HoldsAll ids (s.leaving c p stmt fact) ∧
      (((s.arena c.arena).leaveFrame p (s.program.taintsOnReturn fact.path stmt p.gap).toList).mapM
        (Run.intern c.arena)).exec t = (.ok ids, u) := by
  obtain ⟨ids, u, hrun⟩ := Run.Total.mapM (Run.total_intern c.arena)
    ((s.arena c.arena).leaveFrame p (s.program.taintsOnReturn fact.path stmt p.gap).toList) t
  have hmeets := meets_internLeaving (h.and (Law.Stable.since s)) (h.grounded hs) hp
    (fun _ ht => ht.2) stmt fact
  obtain ⟨htu, hids⟩ := hmeets.of_ok ⟨h.stable hs hst, hst⟩ hrun
  exact ⟨ids, u, hst.trans htu, hids, hrun⟩

/-- Going on after an exit runs the work list, from the stacks by which the fact
leaves the gap, unless it leaves by none. -/
theorem exec_collectOne (h : policy.Admits P) (host : Host σ) (fuel : Nat) (e : EngineId)
    (m : Method) (hs : P s) (hsound : s.Sound) (hp : (s.arena c.arena).get? c.id = some p)
    (hgap : p.gap.isSome = true)
    (hleaves : (s.program.taintsOnReturn fact.path stmt p.gap).isEmpty = false) :
    ∃ site ids t, s.Resumable c p site ∧ policy.Evolves s t ∧
      (t.arena c.arena).HoldsAll ids (s.leaving c p stmt fact) ∧
      (collectOne host fuel e m stmt fact c).exec s =
        (Option.map (fun paths => (site, paths)) <$>
          replay host fuel e c.arena (s.callFlows e site.stmt) ids).exec t := by
  obtain ⟨site, hresumable⟩ := hsound.resumable hp hgap
  obtain ⟨root, hroot, hsite⟩ := hresumable.bottom
  have hcall := hsound.calls c.arena _ root site hroot hsite
  -- the report that the replay goes on
  let s₁ : Session σ := { s with history := .resumed p m.signature :: s.history }
  have hfirst : policy.Evolves s s₁ := .single (.report s _)
  have hcalled : s₁.IsCall site.stmt := hcall
  obtain ⟨s₂, hsecond, hflows⟩ := exec_flowsAtCall h e (h.stable hs hfirst) hcalled
  obtain ⟨ids, t, hst, hids, hintern⟩ :=
    exec_internLeaving h hs hp (hfirst.trans hsecond) stmt fact
  refine ⟨site, ids, t, hresumable, hst, hids, ?_⟩
  unfold collectOne
  rw [Run.exec_get_bind]
  simp only [hp]
  rw [if_neg (by simpa using Option.ne_none_iff_isSome.2 hresumable.nested),
    if_neg (by simp [hleaves])]
  rw [Run.exec_bind_of_ok (show (Run.report (.resumed p m.signature)).exec s = (.ok (), s₁) from rfl)]
  simp only [hroot]
  rw [Run.exec_bind_of_ok (show (callSiteOf root).exec s₁ = (.ok site, s₁) by
    rw [callSiteOf, hsite]
    rfl)]
  rw [Run.exec_bind_of_ok hflows, Run.exec_bind_of_ok hintern, map_eq_pure_bind]
  rfl

/-- What is collected in going on is given to the solver. -/
theorem exec_resumeOne (h : policy.Admits P) (host : Host σ) (fuel : Nat) (e : EngineId)
    (m : Method) (hs : P s) (hsound : s.Sound) (hp : (s.arena c.arena).get? c.id = some p)
    (hgap : p.gap.isSome = true)
    (hleaves : (s.program.taintsOnReturn fact.path stmt p.gap).isEmpty = false) :
    ∃ site ids t, s.Resumable c p site ∧ policy.Evolves s t ∧
      (t.arena c.arena).HoldsAll ids (s.leaving c p stmt fact) ∧
      (resumeOne host fuel e m stmt fact c).exec s =
        (goOn host fuel e c.arena site (s.callFlows e site.stmt) ids).exec t := by
  obtain ⟨site, ids, t, hresumable, hst, hids, hcollect⟩ :=
    exec_collectOne h host fuel e m hs hsound hp hgap hleaves
  refine ⟨site, ids, t, hresumable, hst, hids, ?_⟩
  unfold resumeOne goOn
  rw [Run.exec_bind, hcollect, Run.exec_map, Run.exec_bind]
  rcases (replay host fuel e c.arena (s.callFlows e site.stmt) ids).exec t with ⟨_ | paths, u⟩
  · rfl
  · cases paths <;> rfl

end Going

/-- A report is passed on to all that wait for its seed when it comes, in turn. -/
theorem exec_handleExit (host : Host σ) (fuel : Nat) {r : ExitReport} {m : Method}
    (hlistener : s.listener = some e) (halive : s.isAlive e = true)
    (hconnected : (s.engine e).connected = true) (hm : s.program.methodOf? r.stmt = some m) :
    ∃ waiting : List Continuation,
      (∀ c, c ∈ waiting ↔ (s.engine e).waiting.contains ⟨r.seed.path, m.id⟩ c = true) ∧
      (handleExit host fuel r).exec s =
        (do waiting.forM (resumeOne host fuel e m r.stmt r.fact); return true).exec s := by
  have hresume : ∀ x : Run σ Unit, (resume host fuel e r).exec s = x.exec s →
      (handleExit host fuel r).exec s = (do x; return true).exec s := by
    intro x hx
    unfold handleExit
    rw [Run.exec_get_bind, hlistener]
    simp only
    rw [if_pos halive, Run.exec_bind, Run.exec_bind, hx]
  cases hfind : (s.engine e).waiting.find? ⟨r.seed.path, m.id⟩ with
  | none =>
      refine ⟨[], fun c => ?_, hresume _ ?_⟩
      · simp [MultiMap.contains, hfind]
      · unfold resume
        rw [Run.exec_get_bind]
        simp [hconnected, hm, hfind]
  | some waiting =>
      refine ⟨waiting.toList, fun c => mem_waiting_iff hfind, hresume _ ?_⟩
      unfold resume
      rw [Run.exec_get_bind]
      simp [hconnected, hm, hfind]

/-- A replay that waits in a gap goes on after an exit by which the fact leaves the
gap: the work list is run from the stacks by which it does. -/
def GoesOn (host : Host σ) (fuel : Nat) (e : EngineId) (m : Method) (r : ExitReport)
    (c : Continuation) (s : Session σ) : Prop :=
  ∃ p, (s.arena c.arena).get? c.id = some p ∧ p.gap.isSome = true ∧
    ((s.program.taintsOnReturn r.fact.path r.stmt p.gap).isEmpty = false →
      ∃ site ids t, s.Resumable c p site ∧ s.Grows t ∧
        (t.arena c.arena).HoldsAll ids (s.leaving c p r.stmt r.fact) ∧
        (resumeOne host fuel e m r.stmt r.fact c).exec s =
          (goOn host fuel e c.arena site (s.callFlows e site.stmt) ids).exec t)

/-- What waits for a seed goes on when its turn comes, if those before it have ended
well. -/
theorem goesOn_of_waiting (hs : s.Sound) {r : ExitReport} {m : Method} {seed : Seed}
    {before : List Continuation}
    (hbefore : ∀ c ∈ before, (s.engine e).waiting.contains seed c = true)
    {c : Continuation} (hc : (s.engine e).waiting.contains seed c = true) {t : Session σ}
    (hrun : (before.forM (resumeOne (host solver fuel depth) fuel e m r.stmt r.fact)).exec s =
      (.ok (), t)) :
    GoesOn (host solver fuel depth) fuel e m r c t := by
  have hsince := (Policy.orderly_admits solver).and (Law.Stable.since s)
  have hhosts := Policy.orderly_hosts solver fuel depth
  have hone : ∀ c ∈ before, (Policy.orderly solver).law.Meets
      (fun t => t.Sound ∧ (Policy.orderly solver).law.step s t)
      (resumeOne (host solver fuel depth) fuel e m r.stmt r.fact c) fun _ _ => True := by
    intro c hc
    refine (meets_resumeOne hsince hhosts.and (fun t ht hsound => ?_)
      (.of_lenient (Policy.orderly_lenient solver))).weaken fun _ _ _ => trivial
    exact hsound.waiting e seed c
      (((Policy.Evolves.grows ht.2).engine e).waiting seed c (hbefore c hc))
  obtain ⟨hst, -⟩ := (Law.Meets.forM hsince.stable (fun _ => .true) hone).of_ok ⟨hs, .refl⟩ hrun
  have ht := Policy.Evolves.sound hst hs
  obtain ⟨p, hp, hgap⟩ := ht.waiting e seed c (((Policy.Evolves.grows hst).engine e).waiting seed c hc)
  refine ⟨p, hp, hgap, fun hleaves => ?_⟩
  obtain ⟨site, ids, u, hresumable, htu, hids, hexec⟩ :=
    exec_resumeOne (Policy.orderly_admits solver) (host solver fuel depth) fuel e m ht ht hp hgap
      hleaves
  exact ⟨site, ids, u, hresumable, htu.grows, hids, hexec⟩

/-- Answering a report keeps to the policy that permits everything but internal errors. -/
theorem meets_respond_orderly (solver : Solver σ) (fuel depth : Nat) (r : ExitReport) :
    (Policy.orderly solver).law.Meets Session.Sound (respond (host solver fuel depth) fuel r)
      fun _ _ => True := by
  have hadmits := Policy.orderly_admits solver
  have hhosts := Policy.orderly_hosts solver fuel depth
  have hmay : ∀ (s : Session σ) e, s.Sound → s.listener = some e →
      MayAnswer (Policy.orderly solver) (host solver fuel depth) Session.Sound fuel e r :=
    fun _ _ _ _ => mayAnswer_of_lenient (Policy.orderly_lenient solver) fuel r
  exact meets_respond hadmits hhosts fuel hmay (mayTell_of_errors hadmits hhosts hmay fun _ => id)

end Engine

/-! ## In every run -/

/-- The session is sound, and everything that waited still waits. -/
structure Session.Retains (s t : Session σ) : Prop where
  sound : t.Sound
  waiting : ∀ e seed c, (s.engine e).waiting.contains seed c = true →
    (t.engine e).waiting.contains seed c = true

/-- Programs of the engine take back nothing that waits. -/
theorem Session.Sound.retains {s : Session σ} (hs : s.Sound) {solver : Solver σ} {x : Run σ α}
    {Q : α → Session σ → Prop} (h : (Policy.orderly solver).law.Runs s x Q) :
    s.Retains (x.exec s).2 where
  sound := Policy.Evolves.sound h.1 hs
  waiting e seed c hc := ((Policy.Evolves.grows h.1).engine e).waiting seed c hc

/-- Whatever is asked of a session that has just begun, and whatever is reported in
between, nothing that waits is taken back. From every session that is come to, a
replay that is sent into a method is entered as waiting for the seed before the seed
is given away; and a report is passed on to exactly those that wait for its seed in
the method of the exit, in turn, up to the first that fails. Each of them runs the
work list from the stacks by which the fact leaves its gap, if it does. -/
theorem no_callback_exit_is_lost (k : Setup σ) :
    (∀ requests more, (k.after requests).Sound ∧
      (k.after requests).Retains (k.after (requests ++ more))) ∧
    ∀ (depth : Nat) (s : Session (Ledger σ)), s.Sound →
      (∀ edge, s.Retains (((k.host depth).deliver edge).exec s).2) ∧
      (∀ r, s.Retains ((Engine.respond (k.host depth) k.fuel r).exec s).2) ∧
      (∀ e a id p m, (s.engine e).connected = true →
        (Engine.spawn (k.host depth) e a id p m).exec s =
          (Engine.spawn ((k.host depth).guarded e m.id ⟨a, id⟩) e a id p m).exec s) ∧
      ∀ e r m, s.listener = some e → s.isAlive e = true → (s.engine e).connected = true →
        s.program.methodOf? r.stmt = some m →
        ∃ waiting : List Continuation,
          (∀ c, c ∈ waiting ↔ (s.engine e).waiting.contains ⟨r.seed.path, m.id⟩ c = true) ∧
          ∀ before c after t, waiting = before ++ c :: after →
            (before.forM (Engine.resumeOne (k.host depth) k.fuel e m r.stmt r.fact)).exec s =
              (.ok (), t) →
            Engine.GoesOn (k.host depth) k.fuel e m r c t ∧
            (Engine.handleExit (k.host depth) k.fuel r).exec s =
              (do
                Engine.resumeOne (k.host depth) k.fuel e m r.stmt r.fact c
                after.forM (Engine.resumeOne (k.host depth) k.fuel e m r.stmt r.fact)
                return true).exec t := by
  refine ⟨fun requests more => ?_, fun depth s hs => ⟨fun edge => ?_, fun r => ?_, ?_, ?_⟩⟩
  · have hsound := (k.tidy_after requests).sound
    refine ⟨hsound, (k.tidy_after (requests ++ more)).sound, fun e seed c hc => ?_⟩
    rw [k.after_append]
    exact (k.tidy_after requests).contains_waiting k.solver.logging k.fuel k.depth _ hc
  · exact hs.retains ((Policy.orderly_hosts _ k.fuel depth).deliver edge s ⟨hs, trivial⟩)
  · exact hs.retains (Engine.meets_respond_orderly k.solver.logging.recording k.fuel depth r s hs)
  · intro e a id p m hconnected
    exact Engine.exec_spawn_guarded _ _ _ hs.grounded (Session.lt_of_connected hconnected) a id p m
  · intro e r m hlistener halive hconnected hm
    obtain ⟨waiting, hwaiting, hexec⟩ :=
      Engine.exec_handleExit (k.host depth) k.fuel hlistener halive hconnected hm
    refine ⟨waiting, hwaiting, fun before c after t hsplit hbefore => ⟨?_, ?_⟩⟩
    · refine Engine.goesOn_of_waiting hs (fun c hc => (hwaiting c).1 ?_) ((hwaiting _).1 ?_) hbefore
      · rw [hsplit]
        exact List.mem_append_left _ hc
      · rw [hsplit]
        simp
    · rw [hexec, hsplit, Run.forM_append_cons, bind_assoc, Run.exec_bind_of_ok hbefore, bind_assoc]

namespace Sample

/-- The session after the call was asked about. -/
def asked : Session (Ledger Scripted) := setup.after [.connect 0, .query 0 .forward site]

/-- The callback returns its argument. -/
def left : ExitReport := ⟨.ofPath (localPath 4 true), ⟨3⟩, .ofPath (localPath 4 true)⟩

/-- The method that is called back. -/
def inside : Method := ⟨⟨2⟩, call, false, false, some ⟨3⟩, [⟨4⟩], [⟨3⟩]⟩

/-- The replay of the call waits for the callback. When that is left, the work list is
run from the two stacks by which its argument and its result leave the gap. -/
theorem callback_exit_runs_work_list : ∃ c p site ids t, ∃ after : List Continuation,
    (asked.engine 0).waiting.contains ⟨localPath 4 true, ⟨2⟩⟩ c = true ∧
    asked.Resumable c p site ∧ ids.length = 2 ∧
    (t.arena c.arena).HoldsAll ids (asked.leaving c p ⟨3⟩ left.fact) ∧
    (Engine.handleExit (setup.host 5) 20 left).exec asked =
      (do
        Engine.resumeOne (setup.host 5) 20 0 inside ⟨3⟩ left.fact c
        after.forM (Engine.resumeOne (setup.host 5) 20 0 inside ⟨3⟩ left.fact)
        return true).exec asked ∧
    (Engine.resumeOne (setup.host 5) 20 0 inside ⟨3⟩ left.fact c).exec asked =
      (Engine.goOn (setup.host 5) 20 0 c.arena site (asked.callFlows 0 site.stmt) ids).exec t := by
  have hmethod : asked.program.methodOf? left.stmt = some inside := by
    rw [show asked.program = program from setup.program_after _]
    decide
  obtain ⟨hlistener, halive, hconnected, hwaits, hleaves⟩ : asked.listener = some 0 ∧
      asked.isAlive 0 = true ∧ (asked.engine 0).connected = true ∧
      ((asked.engine 0).waiting.find? ⟨localPath 4 true, ⟨2⟩⟩).map (·.toList) =
        some [⟨0, ⟨1⟩⟩] ∧
      ((asked.arena 0).get? ⟨1⟩).map (fun p =>
        (asked.program.taintsOnReturn left.fact.path left.stmt p.gap).toList.length) = some 2 := by
    decide +kernel
  obtain ⟨found, hfound, hlist⟩ := Option.map_eq_some_iff.1 hwaits
  have hlost := no_callback_exit_is_lost setup
  obtain ⟨-, -, -, hexits⟩ := hlost.2 5 asked (hlost.1 _ []).1
  obtain ⟨waiting, hwaiting, hsplit⟩ := hexits 0 left inside hlistener halive hconnected hmethod
  -- what waits is the one replay of the call
  have honly : ∀ c, c ∈ waiting ↔ c = ⟨0, ⟨1⟩⟩ := by
    intro c
    have hmem : c ∈ found.toList ↔ c = ⟨0, ⟨1⟩⟩ := by
      rw [hlist, List.mem_singleton]
    exact ((hwaiting c).trans (Engine.mem_waiting_iff hfound).symm).trans hmem
  match waiting, (honly ⟨0, ⟨1⟩⟩).2 rfl with
  | c :: after, _ =>
      obtain rfl : c = ⟨0, ⟨1⟩⟩ := (honly c).1 List.mem_cons_self
      obtain ⟨⟨p, hp, -, hgoes⟩, hexec⟩ := hsplit [] _ after asked rfl rfl
      rw [hp] at hleaves
      have hlength : (asked.program.taintsOnReturn left.fact.path left.stmt p.gap).toList.length =
        2 := Option.some.inj hleaves
      have hsome : (asked.program.taintsOnReturn left.fact.path left.stmt p.gap).isEmpty = false := by
        rw [OrdSet.isEmpty, List.isEmpty_eq_false_iff]
        intro hnone
        rw [hnone] at hlength
        cases hlength
      obtain ⟨site, ids, t, hresumable, -, hids, hrun⟩ := hgoes hsome
      refine ⟨_, p, site, ids, t, after, (hwaiting _).1 List.mem_cons_self, hresumable, ?_, hids,
        hexec, hrun⟩
      rw [hids.length_eq, Session.leaving, List.length_map]
      exact hlength

end Sample

end TaintReplay
