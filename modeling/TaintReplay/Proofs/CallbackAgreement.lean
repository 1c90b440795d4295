import TaintReplay.Proofs.Inquiries

/-!
# Exits known at once and exits reported later

A query that finds the exits of called-back methods known goes on with them at
once. If they are not known it waits, and goes on when they are reported. Both
ways come to the same: what the one answers is what the other answers at first or
gives the solver later, after the call.

The one direction is that nothing more is found by waiting (`Inquiry.Begun`). For
the other, `Inquiry.Progress` is an invariant of the deliveries: what has been
reached so far is closed under flows, and an exit of a gap in it has been gone on
with or is still to be reported. When nothing is left to report, all that the
table leads to has been reached.

## Main results

* `Inquiry.Progress.next`: delivering a report keeps the invariant.
* `Inquiry.Progress.delivers`: at the end nothing is missing.
* `resumed_replays_agree`: exits that are known at once and exits that are reported later give the
  same paths.
-/

namespace TaintReplay

namespace Inquiry

variable {k : Inquiry} {s t : Session (List PathEdge)}

/-! ## What is still to come -/

/-- Reporting an exit would lead from a stack to another. -/
def Resumes (k : Inquiry) (s : Session (List PathEdge)) (r : ExitReport) (st out : Stack) : Prop :=
  ∃ method c p, k.base.program.methodOf? r.stmt = some method ∧
    (s.engine 0).waiting.contains ⟨r.seed.path, method.id⟩ c = true ∧
    (s.arena c.arena).get? c.id = some p ∧ (s.arena c.arena).stack c.id = st ∧
    out ∈ s.leaving c p r.stmt r.fact

theorem leaving_eq (hst : s.Grows t) (ht : t.Grounded) {c : Continuation} {p : Propagator}
    (hp : (s.arena c.arena).get? c.id = some p) (stmt : StmtId) (fact : Fact) :
    t.leaving c p stmt fact = s.leaving c p stmt fact := by
  rw [Session.leaving, Session.leaving, hst.program,
    Arena.stack_of_within (hst.arena c.arena) (ht c.arena) hp]

theorem Resumes.later (hst : s.Grows t) (ht : t.Grounded) {r : ExitReport} {st out : Stack}
    (h : k.Resumes s r st out) : k.Resumes t r st out := by
  obtain ⟨method, c, p, hmethod, hc, hp, hstack, hout⟩ := h
  refine ⟨method, c, p, hmethod, (hst.engine 0).waiting _ c hc, hst.get? hp, ?_, ?_⟩
  · rw [Arena.stack_of_within (hst.arena c.arena) (ht c.arena) hp, hstack]
  · rw [leaving_eq hst ht hp]
    exact hout

/-- The solver was given a path after the call. -/
def Injected (k : Inquiry) (s : Session (List PathEdge)) (path : AccessPath) : Prop :=
  ∃ edge ∈ s.solver, edge.target ∈ k.base.program.successors k.site.stmt ∧ edge.fact.path = path

/-- Of a gap that a replay has reached, the exits in the table are to be reported. -/
theorem Prepared.exists_report (h : k.Prepared) (hs : k.policy.Evolves k.base s)
    {x : Replay (List PathEdge)} (hx : k.Begun s x) (hover : Engine.Finished k.policy t x)
    {new : List PathEdge} (hnew : t.solver = new ++ s.solver) {top : Layer} {below out : Stack}
    (hst : x.Reach x.Left (top :: below)) (hun : k.rules.Unsummarised top)
    (hout : k.left (top :: below) out) :
    ∃ r ∈ k.table.reports k.base.program new, k.Resumes t r (top :: below) out := by
  obtain ⟨res, u, hreplayed, hxu, hut⟩ := hover
  have hreached := hx.reached h hs hxu hreplayed hst
  obtain ⟨leaving, hres, -⟩ := hreplayed.asked top below hst (hx.rules ▸ hun)
  obtain ⟨id, p, gap, found, hp, hstack, hgap, hresolved, -⟩ :=
    hres.settled (h.admits hs) hx.hosts hx.since (stackMayWait hreached)
  have hu : k.policy.Evolves k.base u := hs.trans (hx.since.trans hxu)
  have hgrounded := Policy.Evolves.grounded hu h.sound.grounded
  -- the exit that leads on is one of a method that was entered
  rw [left, ← hu.grows.leaves] at hout
  obtain ⟨gap', m, path, exit, taint, hgap', hm, henter, hpath, hexit, htaint, rfl⟩ :=
    Session.mem_leaves.1 hout
  have htop : p.layer = top := by
    have hstack' := hstack
    rw [Arena.stack_eq (hgrounded x.arena) hp, Arena.stackOver] at hstack'
    exact (List.cons.inj hstack').1
  subst htop
  cases hgap'.symm.trans hgap
  obtain ⟨found, rfl, hfound⟩ := hresolved
  obtain ⟨left, -, htried⟩ := exists_right_of_forall₂ hfound hm
  rw [Session.Tried, if_pos henter] at htried
  -- its seed was sent, and the exit is in the table
  obtain ⟨method, hmethod, hid⟩ := h.exits m.id _ exit hexit
  obtain ⟨start, hstart⟩ := h.consistent.exists_mem_startPoints hmethod
  rw [hid] at hstart
  have hsent := htried.sent path hpath start (hu.grows.program ▸ hstart)
  obtain ⟨new', hnew', hedge⟩ := Policy.stable_sentSince rfl s _ hsent hut
  cases List.append_cancel_right (hnew'.symm.trans hnew)
  have hregistered := htried.registered path hpath
    (hx.engine ▸ hu.grows.engines ▸ h.engines)
  refine ⟨⟨.ofPath path, exit.stmt, exit.fact⟩, ExitTable.mem_reports.2 ⟨_, hedge, m.id,
    h.consistent.mem_startPoints_iff.1 hstart, exit, hexit, rfl⟩, ?_⟩
  refine Resumes.later hut.grows (Policy.Evolves.grounded hut hgrounded) ?_
  refine ⟨method, ⟨x.arena, id⟩, p, hmethod, ?_, hp, hstack, ?_⟩
  · rw [hid, ← hx.engine]
    exact hregistered
  · refine List.mem_map.2 ⟨taint, ?_, by rw [hstack]⟩
    rw [hgap]
    exact htaint

/-! ## Deliveries on their way -/

/-- What was seen so far when some reports are pending: it is closed under flows,
and what the table leaves of its gaps has been seen too or will be by a pending
report. The paths it collects are known from the answer or were given to the
solver. -/
structure Progress (k : Inquiry) (known : AccessPath → Prop) (s : Session (List PathEdge))
    (pending : List ExitReport) (seen : Stack → Prop) : Prop where
  start : ∀ st ∈ k.roots, seen st
  follow : ∀ st out, seen st → k.rules.Leads st out → k.rules.Kept out → seen out
  invert : ∀ st top below, seen st → k.rules.Leads st (top :: below) →
    k.rules.Kept (top :: below) → top.mayAlias = true → seen (Stack.invert (top :: below))
  resolve : ∀ top below out, seen (top :: below) → k.rules.Unsummarised top →
    k.left (top :: below) out → seen out ∨ ∃ r ∈ pending, k.Resumes s r (top :: below) out
  collect : ∀ st out path, seen st → k.rules.Leads st out → out.isSurface = true →
    k.rules.program.pathAt out = some path → known path ∨ k.Injected s path

variable {known : AccessPath → Prop} {pending : List ExitReport} {seen : Stack → Prop}

/-- When nothing is pending, all that is collected with the table is known or was
given to the solver. -/
theorem Progress.finished (h : k.Progress known s [] seen) {path : AccessPath}
    (hpath : k.Collected path) : known path ∨ k.Injected s path := by
  have hseen : ∀ {st}, k.Reached st → seen st := by
    intro st hst
    induction hst with
    | start hst => exact h.start _ hst
    | resolve _ hun hleft ih =>
        rcases h.resolve _ _ _ ih hun hleft with hout | ⟨r, hr, -⟩
        · exact hout
        · cases hr
    | follow _ leads kept ih => exact h.follow _ _ ih leads kept
    | invert _ leads kept may ih => exact h.invert _ _ _ ih leads kept may
  obtain ⟨st, out, hst, hleads, hsurface, hat⟩ := hpath
  exact h.collect st out path (hseen hst) hleads hsurface hat

/-- A replay that went on between two sessions, with what it collected given to the
solver. -/
structure WentOn (k : Inquiry) (s t : Session (List PathEdge)) (x : Replay (List PathEdge)) :
    Prop where
  begun : k.Begun s x
  finished : Engine.Finished k.policy t x
  injected : ∀ path, x.Collects x.Left path → k.Injected t path

/-- Once a replay has gone on after an exit, it has seen what the exit leads to. -/
theorem Prepared.exists_wentOn (h : k.Prepared) (hnext : k.base.program.successors k.site.stmt ≠ [])
    (hs : k.policy.Evolves k.base s) {r : ExitReport} (hr : k.Due r) {fuel depth : Nat}
    {u : Session (List PathEdge)} (hsu : k.policy.Evolves s u)
    (hanswers : Engine.Answers k.policy (Engine.host (recorder fun _ _ => none) fuel depth)
      (k.policy.Evolves s) (SentSince s) 0 r u t) {st out : Stack}
    (hresumes : k.Resumes s r st out) : ∃ x, k.WentOn s t x ∧ out ∈ x.starts := by
  obtain ⟨method, c, p, hmethod, hc, hp, rfl, hout⟩ := hresumes
  have hu : k.policy.Evolves k.base u := hs.trans hsu
  obtain ⟨v, ⟨hsv, -⟩, hvt, hafter⟩ := hanswers method c (hu.grows.program ▸ hmethod)
    ((hsu.grows.engine 0).waiting _ c hc)
  have hv : k.policy.Evolves k.base v := hs.trans hsv
  have hsound := Policy.Evolves.sound hv h.sound
  -- what waits is in a gap, so it can be resumed
  obtain ⟨p', gap, m, hawaits, -⟩ := h.waiting hs hc
  cases hp.symm.trans hawaits.stored
  have hgap : p.gap.isSome = true := by
    rw [hawaits.inGap]
    rfl
  obtain ⟨site, hresumable⟩ := hsound.resumable (hsv.grows.get? hp) hgap
  have hleaving := leaving_eq hsv.grows hsound.grounded hp r.stmt r.fact
  have hlimit : (v.engine 0).options.maxSteps = none := by
    rw [(hv.grows.engine 0).options]
    exact h.unlimited
  obtain ⟨x, res, w, hrestarts, hreplayed, hxw, hwt, hsent⟩ :=
    hafter p site hresumable (hleaving ▸ List.ne_nil_of_mem hout) hlimit
  obtain ⟨hbegun, hsite⟩ :=
    h.begun_of_restarts hs hr hmethod hc (fun _ hu => hu.1) hrestarts
  refine ⟨x, ⟨hbegun, ⟨res, w, hreplayed, hxw, hwt⟩, fun path hpath => ?_⟩, ?_⟩
  · obtain ⟨next, hmem⟩ := List.exists_mem_of_ne_nil _ hnext
    have hmem' : next ∈ v.program.successors site.stmt := by
      rw [hv.grows.program, hsite]
      exact hmem
    obtain ⟨new, hnew, hedge⟩ := hsent path hpath next hmem'
    refine ⟨⟨site.context, next, .derivedAt path site.stmt⟩, ?_, hmem, rfl⟩
    rw [hnew]
    exact List.mem_append_left _ hedge
  · rw [hrestarts.starts, hleaving]
    exact hout

theorem Injected.later (hst : k.policy.Evolves s t) {path : AccessPath} (h : k.Injected s path) :
    k.Injected t path := by
  obtain ⟨edge, hedge, htarget, hpath⟩ := h
  obtain ⟨new, hnew⟩ := hst.solver_append rfl
  refine ⟨edge, ?_, htarget, hpath⟩
  rw [hnew]
  exact List.mem_append_right _ hedge

/-- Handling a report keeps to the policy, and every replay that waited for it has
gone on. -/
theorem Prepared.handleExit (h : k.Prepared) (hs : k.policy.Evolves k.base s) {r : ExitReport}
    (hr : k.Due r) {fuel depth steps : Nat} {handled : Bool}
    (run : (Engine.handleExit (Engine.host (recorder fun _ _ => none) fuel depth) steps r).exec s =
      (.ok handled, t)) :
    k.policy.Evolves s t ∧ ∃ u, k.policy.Evolves s u ∧
      Engine.Answers k.policy (Engine.host (recorder fun _ _ => none) fuel depth)
        (k.policy.Evolves s) (SentSince s) 0 r u t := by
  have hlistener : ∀ u, k.policy.Evolves s u → u.listener = some 0 := by
    intro u hsu
    rw [(Policy.Evolves.grows (hs.trans hsu)).listener]
    exact h.listener
  have hmay : ∀ u e, k.policy.Evolves s u → u.listener = some e →
      Engine.MayAnswer k.policy (Engine.host (recorder fun _ _ => none) fuel depth)
        (k.policy.Evolves s) steps e r := by
    intro u e hsu he
    cases (hlistener u hsu).symm.trans he
    exact h.mayAnswer hs hr fuel depth steps
  obtain ⟨hst, u, hsu, -, hanswers⟩ := (Engine.meets_handleExit (h.admits hs)
    (k.hosts s fuel depth) hmay).of_ok .refl run
  refine ⟨hst, u, hsu, hanswers 0 (hlistener u hsu) ?_⟩
  rw [(Policy.Evolves.grows (hs.trans hsu)).isAlive]
  exact h.alive

/-- Delivering a report keeps the invariant. -/
theorem Progress.next (hprogress : k.Progress known s pending seen) (h : k.Prepared)
    (hnext : k.base.program.successors k.site.stmt ≠ []) (hs : k.policy.Evolves k.base s)
    {before after : List ExitReport} {r : ExitReport} (hpending : pending = before ++ r :: after)
    (hr : k.Due r) {fuel depth steps : Nat} {handled : Bool}
    (run : (Engine.handleExit (Engine.host (recorder fun _ _ => none) fuel depth) steps r).exec s =
      (.ok handled, t)) {new : List PathEdge} (hnew : t.solver = new ++ s.solver) :
    ∃ seen', k.Progress known t (before ++ after ++ k.table.reports k.base.program new) seen' := by
  obtain ⟨hst, u, hsu, hanswers⟩ := h.handleExit hs hr run
  have hgrounded := Policy.Evolves.grounded (hs.trans hst) h.sound.grounded
  refine ⟨fun st => seen st ∨ ∃ x, k.WentOn s t x ∧ x.Reach x.Left st, ?_⟩
  constructor
  · exact fun st hst => .inl (hprogress.start st hst)
  · rintro st out (hseen | ⟨x, hx, hreach⟩) hleads hkept
    · exact .inl (hprogress.follow st out hseen hleads hkept)
    · rw [← hx.begun.rules] at hleads hkept
      exact .inr ⟨x, hx, .follow hreach hleads hkept⟩
  · rintro st top below (hseen | ⟨x, hx, hreach⟩) hleads hkept hmay
    · exact .inl (hprogress.invert st top below hseen hleads hkept hmay)
    · rw [← hx.begun.rules] at hleads hkept
      exact .inr ⟨x, hx, .invert hreach hleads hkept hmay⟩
  · rintro top below out (hseen | ⟨x, hx, hreach⟩) hun hout
    · -- an exit of a gap seen before was gone on with, or it is this one, or it is still pending
      rcases hprogress.resolve top below out hseen hun hout with hseen | ⟨r', hr', hresumes⟩
      · exact .inl (.inl hseen)
      · rw [hpending] at hr'
        rcases List.mem_append.1 hr' with hbefore | hr'
        · exact .inr ⟨r', by simp [hbefore], hresumes.later hst.grows hgrounded⟩
        · rcases List.mem_cons.1 hr' with rfl | hafter
          · obtain ⟨x, hx, hmem⟩ := h.exists_wentOn hnext hs hr hsu hanswers hresumes
            exact .inl (.inr ⟨x, hx, .start hmem⟩)
          · exact .inr ⟨r', by simp [hafter], hresumes.later hst.grows hgrounded⟩
    · obtain ⟨r', hr', hresumes⟩ :=
        h.exists_report hs hx.begun hx.finished hnew hreach hun hout
      exact .inr ⟨r', List.mem_append_right _ hr', hresumes⟩
  · rintro st out path (hseen | ⟨x, hx, hreach⟩) hleads hsurface hat
    · exact (hprogress.collect st out path hseen hleads hsurface hat).imp_right (·.later hst)
    · rw [← hx.begun.rules] at hleads hat
      exact .inr (hx.injected path ⟨st, out, hreach, hleads, hsurface, hat⟩)

/-- After a report has been delivered, what is pending is due. -/
theorem Prepared.due_next (h : k.Prepared) (ht : k.policy.Evolves k.base t)
    {before after : List ExitReport} {r : ExitReport}
    (hdue : ∀ r' ∈ before ++ r :: after, k.Due r') {new : List PathEdge}
    (edges : t.solver = new ++ s.solver) :
    ∀ r' ∈ before ++ after ++ k.table.reports t.program new, k.Due r' := by
  intro r' hr'
  rcases List.mem_append.1 hr' with hold | hnew
  · refine hdue r' ?_
    rcases List.mem_append.1 hold with hbefore | hafter
    · exact List.mem_append_left _ hbefore
    · exact List.mem_append_right _ (List.mem_cons_of_mem _ hafter)
  · refine h.due ht (fun edge hedge => ?_) (ht.grows.program ▸ hnew)
    rw [edges]
    exact List.mem_append_left _ hedge

/-- All that is done in delivering reports is permitted. -/
theorem Prepared.evolves_of_delivers (h : k.Prepared) (hs : k.policy.Evolves k.base s)
    (hdue : ∀ r ∈ pending, k.Due r) {fuel depth : Nat}
    (hdelivers : Delivers k.table (Engine.host (recorder fun _ _ => none) fuel depth) s pending t) :
    k.policy.Evolves k.base t := by
  induction hdelivers with
  | done s => exact hs
  | next run edges rest ih =>
      rename_i r _ _ _
      obtain ⟨hst, -⟩ := h.handleExit hs (hdue r (by simp)) run
      exact ih (hs.trans hst) (h.due_next (hs.trans hst) hdue edges)

/-- At the end nothing is missing. -/
theorem Progress.delivers (hprogress : k.Progress known s pending seen) (h : k.Prepared)
    (hnext : k.base.program.successors k.site.stmt ≠ []) (hs : k.policy.Evolves k.base s)
    (hdue : ∀ r ∈ pending, k.Due r) {fuel depth : Nat}
    (hdelivers : Delivers k.table (Engine.host (recorder fun _ _ => none) fuel depth) s pending t) :
    ∀ path, k.Collected path → known path ∨ k.Injected t path := by
  induction hdelivers generalizing seen with
  | done s => exact fun path hpath => hprogress.finished hpath
  | next run edges rest ih =>
      rename_i s t u before after r steps handled new
      have hr := hdue r (by simp)
      obtain ⟨hst, -⟩ := h.handleExit hs hr run
      have ht : k.policy.Evolves k.base t := hs.trans hst
      obtain ⟨seen', hnow⟩ := hprogress.next h hnext hs rfl hr run edges
      rw [← ht.grows.program] at hnow
      exact ih hnow ht (h.due_next ht hdue edges)

/-! ## Calls with summaries of one class -/

/-- The call has summaries of at most one class. -/
def SingleClass (k : Inquiry) : Prop :=
  ∀ call, k.base.program.call? k.site.stmt = some call →
    (k.base.summaries 0 (some k.site.stmt) call.callee).size ≤ 1

/-- If the method called has no flows, nothing is collected. -/
theorem not_collected_of_isEmpty (hempty : (k.base.callFlows 0 k.site.stmt).isEmpty = true)
    (path : AccessPath) : ¬ k.Collected path := by
  have hnowhere : ∀ {st out}, st ∈ k.roots → ¬ k.rules.Leads st out := by
    rintro _ out hst ⟨top, below, flow, rfl, hflow, -⟩
    obtain ⟨t, -, hroot⟩ := List.mem_map.1 hst
    cases hroot
    obtain ⟨stated, hstated, -⟩ := List.mem_filterMap.1 hflow
    exact OrdSet.isEmpty_iff.1 hempty stated hstated
  have hroots : ∀ {st}, k.Reached st → st ∈ k.roots := by
    intro st hst
    induction hst with
    | start hst => exact hst
    | resolve _ hun _ ih =>
        obtain ⟨t, -, hroot⟩ := List.mem_map.1 ih
        obtain ⟨gap, hgap, -⟩ := hun
        cases hroot
        cases hgap
    | follow _ leads _ ih => exact absurd leads (hnowhere ih)
    | invert _ leads _ _ ih => exact absurd leads (hnowhere ih)
  rintro ⟨st, out, hst, hleads, -⟩
  exact hnowhere (hroots hst) hleads

/-- If the fact is no taint at the call, nothing is collected. -/
theorem not_collected_of_roots (hempty : k.roots = []) (path : AccessPath) :
    ¬ k.Collected path := by
  have hnone : ∀ {st}, ¬ k.Reached st := by
    intro st hst
    induction hst with
    | start hst => exact absurd (hempty ▸ hst) List.not_mem_nil
    | resolve _ _ _ ih => exact ih
    | follow _ _ _ ih => exact ih
    | invert _ _ _ _ ih => exact ih
  rintro ⟨st, out, hst, -⟩
  exact hnone hst

/-! ## Replies -/

/-- A replay of an inquiry: the first one, from the fact at the call. -/
structure Asks (k : Inquiry) (policy : Policy (List PathEdge)) (host : Host (List PathEdge))
    (x : Replay (List PathEdge)) : Prop where
  host : x.host = host
  engine : x.engine = 0
  rules : x.rules = k.rules
  starts : x.starts = k.roots
  since : policy.Evolves k.base x.session

variable {policy : Policy (List PathEdge)} {P : Session (List PathEdge) → Prop}
  {host : Host (List PathEdge)} {s t : Session (List PathEdge)}

/-- The flows that a query replays are those of the call. -/
theorem SingleClass.classFlows_eq (hsingle : k.SingleClass) {call : Call}
    (hcall : k.base.program.call? k.site.stmt = some call) :
    Engine.classFlows (k.base.summaries 0 (some k.site.stmt) call.callee) call.callee =
      if (k.base.callFlows 0 k.site.stmt).isEmpty then []
      else [k.base.callFlows 0 k.site.stmt] := by
  have hflows : k.base.callFlows 0 k.site.stmt =
      (k.base.summaries 0 (some k.site.stmt) call.callee).allFlowsForMethod
        call.callee.subSignature := by
    rw [Session.callFlows, hcall]
  rw [Engine.classFlows_eq (hsingle call hcall), hflows]

/-- Every replay that a query makes is the first of the inquiry. -/
theorem SingleClass.asks (hsingle : k.SingleClass) {call : Call}
    (hcall : k.base.program.call? k.site.stmt = some call) (hs : policy.Evolves k.base s) {a : Nat}
    {flows : FlowSet} (hflows : flows ∈ Engine.classFlows
      (k.base.summaries 0 (some k.site.stmt) call.callee) call.callee)
    {x : Replay (List PathEdge)}
    (hx : Engine.Begins policy host P 0 a k.site (k.direction = .backward)
      (Engine.queried k.direction k.site s) s flows x) : k.Asks policy host x := by
  have hxs : policy.Evolves k.base x.session := hs.trans hx.since
  refine ⟨hx.host, hx.engine, ?_, ?_, hxs⟩
  · rw [hsingle.classFlows_eq hcall] at hflows
    split at hflows
    · cases hflows
    · rw [Replay.rules, hx.engine, hx.flows, List.mem_singleton.1 hflows, hxs.grows.rules]
      rfl
  · rw [hx.starts, Engine.queried, hs.grows.program]
    rfl

/-- If a query has nothing to replay, nothing is collected. -/
theorem SingleClass.not_collected (hsingle : k.SingleClass) {call : Call}
    (hcall : k.base.program.call? k.site.stmt = some call) (hs : policy.Evolves k.base s)
    (hnothing : (if (Engine.queried k.direction k.site s).isEmpty then [] else
      Engine.classFlows (k.base.summaries 0 (some k.site.stmt) call.callee) call.callee) = [])
    (path : AccessPath) : ¬ k.Collected path := by
  by_cases hqueried : (Engine.queried k.direction k.site s).isEmpty = true
  · refine not_collected_of_roots ?_ path
    rw [Engine.queried, hs.grows.program] at hqueried
    rw [roots, Engine.queried, List.isEmpty_iff.1 hqueried]
    rfl
  · rw [if_neg hqueried, hsingle.classFlows_eq hcall] at hnothing
    refine not_collected_of_isEmpty ?_ path
    by_contra hflows
    rw [if_neg hflows] at hnothing
    cases hnothing

/-- The call has summaries, or is no call. -/
def Covered (k : Inquiry) : Prop :=
  ∀ call, k.base.program.call? k.site.stmt = some call →
    (k.base.summaries 0 (some k.site.stmt) call.callee).isEmpty = false

/-- The reply to an inquiry has the fact, if the call is covered, and what the
replays of the inquiry collect. There is such a replay if there is something to
collect. -/
theorem SingleClass.exists_asks (hsingle : k.SingleClass)
    (unlimited : (k.base.engine 0).options.maxSteps = none) (ht : policy.Evolves k.base t)
    {reply : Option FactSet}
    (hreplied : Engine.Replied policy host (policy.Evolves k.base) k.direction k.site t [0] reply) :
    ∃ xs, (∀ x ∈ xs, k.Asks policy host x ∧ Engine.Finished policy t x) ∧
      (xs = [] → ∀ path, ¬ k.Collected path) ∧
      ∀ path, path ∈ replyPaths reply ↔
        k.Covered ∧ path = k.site.fact.path ∨ ∃ x ∈ xs, x.Collects x.Left path := by
  cases hreplied with
  | noCall call =>
      rw [ht.grows.program] at call
      refine ⟨[], by simp, fun _ => not_collected_of_isEmpty ?_, fun path => ?_⟩
      · rw [Session.callFlows, call]
        rfl
      · have hcovered : k.Covered := by
          intro c hc
          cases call.symm.trans hc
        show path ∈ FactSet.paths (OrdSet.singleton k.site.fact) ↔ _
        simp [FactSet.mem_paths_singleton, hcovered]
  | pass call missing rest =>
      cases rest
      rename_i c
      rw [ht.grows.program] at call
      rw [ht.grows.summaries] at missing
      refine ⟨[], by simp, fun _ => not_collected_of_isEmpty ?_, fun path => ?_⟩
      · rw [Session.callFlows, call]
        exact ClassSummaries.isEmpty_allFlowsForMethod missing _
      · have huncovered : ¬ k.Covered := by
          intro hcovered
          rw [hcovered c call] at missing
          cases missing
        simp [replyPaths, huncovered]
  | answer call found looked since answered =>
      rename_i c s facts
      rw [ht.grows.program] at call
      rw [ht.grows.summaries] at found answered
      have hlimit : (s.engine 0).options.maxSteps = none := by
        rw [(looked.grows.engine 0).options]
        exact unlimited
      obtain ⟨a, xs, hxs, hpaths⟩ := answered hlimit
      refine ⟨xs, fun x hx => ?_, fun hnone => ?_, fun path => ?_⟩
      · obtain ⟨flows, hflows, hmade⟩ := exists_left_of_forall₂ hxs hx
        split at hflows
        · cases hflows
        · exact ⟨hsingle.asks call looked hflows hmade.1, hmade.2⟩
      · subst hnone
        exact hsingle.not_collected call looked (List.forall₂_nil_right_iff.1 hxs)
      · have hcovered : k.Covered := by
          intro c' hc'
          cases call.symm.trans hc'
          exact found
        show path ∈ FactSet.paths facts ↔ _
        rw [hpaths]
        simp [hcovered]

/-! ## Known exits -/

/-- The solver that knows the exits of the table. -/
def knowing (k : Inquiry) : Solver (List PathEdge) := recorder fun m seed => some (k.table m seed)

theorem Prepared.knowing_admits (h : k.Prepared) :
    (Policy.free k.knowing).Admits ((Policy.free k.knowing).Evolves k.base) where
  stable := Law.Stable.since k.base
  grounded _ hs := Policy.Evolves.grounded hs h.sound.grounded
  excused _ := .inl trivial

theorem knowing_hosts (k : Inquiry) (fuel depth : Nat) :
    (Policy.free k.knowing).Hosts ((Policy.free k.knowing).Evolves k.base) (SentSince k.base)
      (Engine.host k.knowing fuel depth) :=
  Policy.hosts_recorder rfl (fun _ hs => hs) (fun _ _ _ _ => trivial) fuel depth

/-- With known exits, the replays of an inquiry collect what the table determines. -/
theorem Asks.collects_iff {x : Replay (List PathEdge)} {fuel depth : Nat} (h : k.Prepared)
    (hx : k.Asks (Policy.free k.knowing) (Engine.host k.knowing fuel depth) x)
    (hover : Engine.Finished (Policy.free k.knowing) t x) {path : AccessPath} :
    x.Collects x.Left path ↔ k.Collected path := by
  obtain ⟨res, u, hreplayed, hxu, -⟩ := hover
  have hleaves : x.session.leaves k.table = k.base.leaves k.table :=
    funext fun st => hx.since.grows.leaves k.table st
  have htable : ∀ state, (Policy.free k.knowing).solver.table state = k.table := fun _ => rfl
  have hcollects : x.Collects x.Left path ↔ x.CollectsWith k.table path :=
    hreplayed.collects_iff h.knowing_admits (hx.host ▸ k.knowing_hosts fuel depth) hx.since htable
      (fun _ _ => Replay.stackMayWait_of_lenient (Policy.free_lenient k.knowing)) hxu
  rw [hcollects, Replay.CollectsWith, Replay.Collects, hx.rules, hx.starts, hleaves]
  rfl

/-- With known exits, the reply to an inquiry has what the table determines. -/
theorem Prepared.mem_reply_iff (h : k.Prepared) (hsingle : k.SingleClass) {fuel depth steps : Nat}
    {reply : Option FactSet}
    (run : (Engine.query (Engine.host k.knowing fuel depth) steps 0 k.direction k.site).exec
      k.base = (.ok reply, t)) (path : AccessPath) :
    path ∈ replyPaths reply ↔ k.Covered ∧ path = k.site.fact.path ∨ k.Collected path := by
  obtain ⟨ht, hreplied⟩ := (Engine.runs_query h.knowing_admits (k.knowing_hosts fuel depth) steps
    .refl fun _ _ _ _ _ _ => Engine.mayBegin_of_lenient (Policy.free_lenient _) _ _).of_ok run
  rw [h.alone] at hreplied
  obtain ⟨xs, hxs, hnone, hpaths⟩ := hsingle.exists_asks h.unlimited ht hreplied
  rw [hpaths]
  refine or_congr_right ⟨?_, fun hpath => ?_⟩
  · rintro ⟨x, hx, hpath⟩
    exact ((hxs x hx).1.collects_iff h (hxs x hx).2).1 hpath
  · obtain ⟨x, hx⟩ := List.exists_mem_of_ne_nil xs fun hempty => hnone hempty path hpath
    exact ⟨x, hx, ((hxs x hx).1.collects_iff h (hxs x hx).2).2 hpath⟩

/-! ## Exits that are not known yet -/

theorem Asks.begun {x : Replay (List PathEdge)} {fuel depth : Nat}
    (hx : k.Asks k.policy (Engine.host (recorder fun _ _ => none) fuel depth) x) :
    k.Begun k.base x :=
  ⟨⟨fuel, depth, hx.host⟩, hx.engine, hx.rules, fun _ hst => .start (hx.starts ▸ hst), hx.since⟩

/-- Without known exits, an inquiry keeps to its policy. -/
theorem Prepared.replied (h : k.Prepared) (hsingle : k.SingleClass) {fuel depth steps : Nat}
    {reply : Option FactSet}
    (run : (Engine.query (Engine.host (recorder fun _ _ => none) fuel depth) steps 0 k.direction
      k.site).exec k.base = (.ok reply, t)) :
    k.policy.Evolves k.base t ∧ Engine.Replied k.policy
      (Engine.host (recorder fun _ _ => none) fuel depth) (k.policy.Evolves k.base) k.direction
      k.site t [0] reply := by
  rw [← h.alone]
  refine (Engine.runs_query (h.admits .refl) (k.hosts k.base fuel depth) steps .refl ?_).of_ok run
  intro s e he call hs hcall s' a x t flows hflows hs' hbegins _ hxt
  rw [h.alone] at he
  cases List.mem_singleton.1 he
  rw [Policy.Evolves.grows hs |>.program] at hcall
  rw [Policy.Evolves.grows hs |>.summaries] at hflows
  exact (hsingle.asks hcall hs' hflows hbegins).begun.mayWait h .refl hxt

/-- After an inquiry, the exits of the seeds that were sent are all that is missing. -/
theorem Asks.progress {x : Replay (List PathEdge)} {fuel depth : Nat} (h : k.Prepared)
    (hx : k.Asks k.policy (Engine.host (recorder fun _ _ => none) fuel depth) x)
    (hover : Engine.Finished k.policy t x) {known : AccessPath → Prop}
    (hknown : ∀ path, x.Collects x.Left path → known path) :
    k.Progress known t (k.table.reports k.base.program t.solver) (x.Reach x.Left) := by
  constructor
  · exact fun st hst => .start (hx.starts ▸ hst)
  · intro st out hst hleads hkept
    rw [← hx.rules] at hleads hkept
    exact .follow hst hleads hkept
  · intro st top below hst hleads hkept hmay
    rw [← hx.rules] at hleads hkept
    exact .invert hst hleads hkept hmay
  · intro top below out hst hun hout
    have hnew : t.solver = t.solver ++ k.base.solver := by rw [h.unsent, List.append_nil]
    exact .inr (h.exists_report .refl hx.begun hover hnew hst hun hout)
  · intro st out path hst hleads hsurface hat
    rw [← hx.rules] at hleads hat
    exact .inl (hknown path ⟨st, out, hst, hleads, hsurface, hat⟩)

/-- Without known exits, what the table determines is in the reply or is given to
the solver after the call once its exits are reported. -/
theorem Prepared.mem_reply_or_injected_iff (h : k.Prepared) (hsingle : k.SingleClass)
    (hnext : k.base.program.successors k.site.stmt ≠ []) {fuel depth steps : Nat}
    {reply : Option FactSet} {u : Session (List PathEdge)}
    (run : (Engine.query (Engine.host (recorder fun _ _ => none) fuel depth) steps 0 k.direction
      k.site).exec k.base = (.ok reply, t))
    (hdelivers : Delivers k.table (Engine.host (recorder fun _ _ => none) fuel depth) t
      (k.table.reports k.base.program t.solver) u) (path : AccessPath) :
    path ∈ replyPaths reply ∨ k.Injected u path ↔
      k.Covered ∧ path = k.site.fact.path ∨ k.Collected path := by
  obtain ⟨ht, hreplied⟩ := h.replied hsingle run
  obtain ⟨xs, hxs, hnone, hpaths⟩ := hsingle.exists_asks h.unlimited ht hreplied
  have hdue : ∀ r ∈ k.table.reports k.base.program t.solver, k.Due r :=
    fun r hr => h.due ht (fun _ hedge => hedge) hr
  have hu := h.evolves_of_delivers ht hdue hdelivers
  constructor
  · rintro (hreply | ⟨edge, hedge, htarget, rfl⟩)
    · refine ((hpaths path).1 hreply).imp_right ?_
      rintro ⟨x, hx, hpath⟩
      obtain ⟨hasks, res, v, hreplayed, hxv, -⟩ := hxs x hx
      exact hasks.begun.collected h .refl hxv hreplayed hpath
    · rcases h.sent hu hedge with hseed | ⟨-, hpath⟩
      · exact absurd htarget (h.not_mem_successors hu hseed)
      · exact .inr hpath
  · rintro (hfact | hpath)
    · exact .inl ((hpaths path).2 (.inl hfact))
    · obtain ⟨x, hx⟩ := List.exists_mem_of_ne_nil xs fun hempty => hnone hempty path hpath
      have hprogress := (hxs x hx).1.progress h (hxs x hx).2
        fun path hpath => (hpaths path).2 (.inr ⟨x, hx, hpath⟩)
      exact hprogress.delivers h hnext ht hdue hdelivers path hpath

end Inquiry

/-! ## Agreement -/

/-- A call of a built program with summaries of at most one class is asked about,
without a limit on steps. Once the exits of called-back methods are known from a
table. Once they are not, and are reported afterwards, for every seed that the
solver was given, in any order and until nothing is left to report. The paths in the
first answer are those in the second and those that were given to the solver after
the call. -/
theorem resumed_replays_agree {hierarchy : Hierarchy} {program : Program} {bodies : Bodies}
    {store : SummaryStore} {options : Options} {table : ExitTable} {direction : Direction}
    {site : CallSite} {base known unknown ended : Session (List PathEdge)}
    {answer first : Option FactSet} {fuel depth steps fuel' depth' steps' : Nat}
    (built : program.Built) (unlimited : options.maxSteps = none)
    (exits : ∀ m seed, ∀ exit ∈ table m seed,
      ∃ method, program.methodOf? exit.stmt = some method ∧ method.id = m)
    (next : program.successors site.stmt ≠ [])
    (connected : (Engine.connect 0).exec (Session.start hierarchy program bodies []
      (Session.created [(store, options, none)])) = (.ok (), base))
    (single : ∀ call, program.call? site.stmt = some call →
      (base.summaries 0 (some site.stmt) call.callee).size ≤ 1)
    (atOnce : (Engine.query (Engine.host (recorder fun m seed => some (table m seed)) fuel depth)
      steps 0 direction site).exec base = (.ok answer, known))
    (waiting : (Engine.query (Engine.host (recorder fun _ _ => none) fuel' depth')
      steps' 0 direction site).exec base = (.ok first, unknown))
    (reported : Delivers table (Engine.host (recorder fun _ _ => none) fuel' depth') unknown
      (table.reports program unknown.solver) ended) (path : AccessPath) :
    path ∈ replyPaths answer ↔ path ∈ replyPaths first ∨
      ∃ edge ∈ ended.solver, edge.target ∈ program.successors site.stmt ∧
        edge.fact.path = path := by
  let k : Inquiry := ⟨base, table, direction, site⟩
  have hprepared : k.Prepared := Inquiry.prepared_of_connect built unlimited exits connected
  have hprogram : base.program = program := Engine.program_of_connect connected
  subst hprogram
  rw [hprepared.mem_reply_iff single atOnce path,
    ← hprepared.mem_reply_or_injected_iff single next waiting reported path]
  rfl

namespace Sample

/-- The callback returns its parameter. -/
def table : ExitTable :=
  fun m _ => if m = ⟨2⟩ then [⟨⟨3⟩, .ofPath (localPath 4 true)⟩] else []

def connected : Session (List PathEdge) :=
  ((Engine.connect 0).exec (Session.start hierarchy program Bodies.empty []
    (Session.created [(store, .default, none)]))).2

theorem exec_connect_sample : (Engine.connect 0).exec (Session.start hierarchy program
    Bodies.empty [] (Session.created [(store, .default, none)])) = (.ok (), connected) :=
  Run.exec_of_value (by decide +kernel)

theorem exits_table (m : MethodId) (seed : Fact) : ∀ exit ∈ table m seed,
    ∃ method, program.methodOf? exit.stmt = some method ∧ method.id = m := by
  intro exit hexit
  rw [table] at hexit
  split at hexit
  · rename_i hm
    cases List.mem_singleton.1 hexit
    exact ⟨_, rfl, hm.symm⟩
  · cases hexit

/-- The question about the call, where the solver knows some exits. -/
def asks (exits : MethodId → Fact → Option (List Exit)) : Run (List PathEdge) (Option FactSet) :=
  Engine.query (Engine.host (recorder exits) 20 5) 20 0 .forward site

/-- What the callback returns is in the answer if it is known, and otherwise only
comes when its exit was reported, in an edge after the call. -/
theorem callback_agrees : ∃ answer first known unknown ended,
    (asks fun m seed => some (table m seed)).exec connected = (.ok answer, known) ∧
    (asks fun _ _ => none).exec connected = (.ok first, unknown) ∧
    Delivers table (Engine.host (recorder fun _ _ => none) 20 5) unknown
      (table.reports program unknown.solver) ended ∧
    localPath 2 true ∈ replyPaths answer ∧ localPath 2 true ∉ replyPaths first ∧
    ∃ edge ∈ ended.solver, edge.target ∈ program.successors site.stmt ∧
      edge.fact.path = localPath 2 true := by
  have hknown : (((asks fun m seed => some (table m seed)).exec connected).1.toOption.filter
      fun answer => localPath 2 true ∈ replyPaths answer).isSome = true := by decide +kernel
  have hunknown : (((asks fun _ _ => none).exec connected).1.toOption.filter
      fun first => localPath 2 true ∉ replyPaths first).isSome = true := by decide +kernel
  have hdone : (deliverAll table (Engine.host (recorder fun _ _ => none) 20 5) 20 5
      ((asks fun _ _ => none).exec connected).2
      (table.reports program ((asks fun _ _ => none).exec connected).2.solver)).isSome = true := by
    decide +kernel
  have hsingle : (program.call? site.stmt).all fun call =>
      (connected.summaries 0 (some site.stmt) call.callee).size ≤ 1 := by decide +kernel
  obtain ⟨answer, hanswer⟩ := Option.isSome_iff_exists.1 hknown
  obtain ⟨hanswer, hin⟩ := Option.filter_eq_some_iff.1 hanswer
  obtain ⟨first, hfirst⟩ := Option.isSome_iff_exists.1 hunknown
  obtain ⟨hfirst, hout⟩ := Option.filter_eq_some_iff.1 hfirst
  obtain ⟨ended, hended⟩ := Option.isSome_iff_exists.1 hdone
  have hatOnce := Run.exec_of_value hanswer
  have hwaiting := Run.exec_of_value hfirst
  have hprepared : Inquiry.Prepared ⟨connected, table, .forward, site⟩ :=
    Inquiry.prepared_of_connect built_program rfl exits_table exec_connect_sample
  have hgrounded := grounded_of_query hprepared.sound.grounded hwaiting
  have hreported := delivers_of_deliverAll hgrounded hended
  refine ⟨answer, first, _, _, ended, hatOnce, hwaiting, hreported, of_decide_eq_true hin,
    of_decide_eq_true hout, ?_⟩
  have hagree := resumed_replays_agree built_program rfl exits_table (by decide +kernel)
    exec_connect_sample
    (fun call hcall => by simpa [hcall] using hsingle) hatOnce hwaiting hreported (localPath 2 true)
  exact (hagree.1 (of_decide_eq_true hin)).resolve_left (of_decide_eq_true hout)

end Sample

end TaintReplay
