import TaintReplay.Proofs.RecordedRuns
import TaintReplay.Proofs.SafeReplays
import TaintReplay.Proofs.SummaryPairs

/-!
# Returned values do not enter methods

What a method returns leaves it. A replay that was to take a returned value into a
method called back ends in an error (`AnalysisError.IsReturnEntry`), and so ends the
whole query.

A returned value stands in a frame for one of two reasons. A flow has led to the result
of the gap that the frame is of, or the value was returned into the frame from a gap
further up. The second kind is never taken anywhere: a flow was followed from the frame
when that gap was entered, so the gap of the frame has flows. This is what the stacks
of a replay look like (`Stack.Guarded`). It rests on two things. No flow may be
followed to the result of a gap, and that includes alias flows that are followed the
other way round, *from* their sink (`Flow.Outbound`). And a gap that has flows has to
keep them: a change of the hierarchy can take them away while a replay waits further up
(`Setup.KeepsSummaries`).

It is not enough that no flow is stated to end at the result of a gap
(`Sample.result_enters_callback`).

## Main results

* `Setup.states_of_mem_gapFlows`, `Setup.states_of_mem_callFlows`: flows come from summaries.
* `Session.keeps_guarded`: what the stacks of a replay look like.
* `Session.not_isReturnEntry_of_fault`: such a stack has no error of a returned value.
* `Setup.guards_after`: what waits after some requests, and what the solver was told of.
* `returned_values_never_enter`: no request ends in the error, and the solver is not told of it.
-/

namespace TaintReplay

variable {σ : Type}

/-! ## Flows come from summaries -/

namespace SummaryStore

variable {store : SummaryStore} {subSignature : String} {flow : Flow}

theorem mem_allFlows_of_mem_classMethodFlows {className : String}
    (h : flow ∈ store.classMethodFlows className subSignature) : flow ∈ store.summaries.allFlows :=
  ClassSummaries.mem_allFlows_iff.2 ⟨className, (mem_classMethodFlows_iff.1 h).1⟩

/-- What is found for a method is in the store. -/
theorem mem_allFlows_of_mem_methodFlows {classes : OrdSet String}
    (h : flow ∈ (store.methodFlows classes subSignature).allFlows) :
    flow ∈ store.summaries.allFlows := by
  obtain ⟨className, hpair⟩ := ClassSummaries.mem_allFlows_iff.1 h
  exact ClassSummaries.mem_allFlows_iff.2 ⟨className, (hasPair_methodFlows.1 hpair).2.1⟩

end SummaryStore

namespace Setup

variable (k : Setup σ)

/-- The summaries of some engine state the flow. -/
def States (flow : Flow) : Prop := ∃ engine ∈ k.engines, flow ∈ engine.1.summaries.allFlows

/-- An engine has no flows but those stated. -/
theorem states_of_mem_store {e : EngineId} {flow : Flow}
    (h : flow ∈ (k.begun.engine e).store.summaries.allFlows) : k.States flow := by
  change flow ∈ (((Session.created k.engines)[e]?).getD default).store.summaries.allFlows at h
  rw [Session.created, List.getElem?_map] at h
  cases hengine : k.engines[e]? with
  | none =>
      rw [hengine] at h
      exact absurd h (OrdSet.not_mem_empty flow)
  | some engine =>
      rw [hengine] at h
      exact ⟨engine, List.mem_of_getElem? hengine, h⟩

/-- Requests that do not change the hierarchy leave alone what lookups find. -/
theorem serves_append_singleton (requests : List (Request σ)) {request : Request σ}
    (hfixed : request.isEdit = false) :
    (k.after requests).Serves (k.after (requests ++ [request])) := by
  have hlogged : request.logged.isEdit = false := by
    cases request <;> first | rfl | cases hfixed
  rw [after_append_singleton]
  exact Request.serves (k.tidy_after requests).sound hlogged

/-- With one more request, engines have the same summaries and find the same in them. -/
theorem same_lookups (requests : List (Request σ)) (request : Request σ) (e : EngineId) :
    ((k.after (requests ++ [request])).engine e).store = ((k.after requests).engine e).store ∧
      ∀ classes subSignature,
        ((k.after (requests ++ [request])).engine e).found classes subSignature =
          ((k.after requests).engine e).found classes subSignature := by
  by_cases hedit : request.isEdit = true
  · -- a change of the hierarchy leaves the engines alone
    have hengines : (k.after (requests ++ [request])).engine e = (k.after requests).engine e := by
      rw [after_append_singleton]
      generalize k.after requests = s
      cases request with
      | edit change => rfl
      | _ => cases hedit
    rw [hengines]
    exact ⟨rfl, fun _ _ => rfl⟩
  · have hserves := k.serves_append_singleton requests (Bool.eq_false_iff.2 hedit)
    exact ⟨hserves.store e, hserves.found e⟩

/-- Whatever is asked, an engine finds what its summaries state. -/
theorem found_after (requests : List (Request σ)) (e : EngineId) :
    ((k.after requests).engine e).store = (k.begun.engine e).store ∧
      ∀ classes subSignature, ((k.after requests).engine e).found classes subSignature =
        (k.begun.engine e).store.methodFlows classes subSignature := by
  induction requests using List.reverseRecOn with
  | nil =>
      refine ⟨rfl, fun classes subSignature => ?_⟩
      show (((Session.created k.engines)[e]?).getD default).found classes subSignature =
        (((Session.created k.engines)[e]?).getD default).store.methodFlows classes subSignature
      rw [Session.created, List.getElem?_map]
      cases k.engines[e]? with
      | none => rfl
      | some engine => rfl
  | append_singleton requests request ih =>
      obtain ⟨hstore, hfound⟩ := k.same_lookups requests request e
      exact ⟨hstore.trans ih.1, fun classes sub => (hfound classes sub).trans (ih.2 classes sub)⟩

theorem states_of_mem_summaries {requests : List (Request σ)} {e : EngineId} {stmt : Option StmtId}
    {callee : MethodSignature} {flow : Flow}
    (h : flow ∈ ((k.after requests).summaries e stmt callee).allFlows) : k.States flow := by
  have hfound : ∀ classes, flow ∈ (((k.after requests).engine e).found classes
      callee.subSignature).allFlows → k.States flow := by
    intro classes hflow
    rw [(k.found_after requests e).2] at hflow
    exact k.states_of_mem_store (SummaryStore.mem_allFlows_of_mem_methodFlows hflow)
  unfold Session.summaries at h
  simp only at h
  split at h
  · split at h
    · exact hfound _ h
    · rename_i hsome
      exact absurd rfl hsome
  · split at h
    · exact hfound _ h
    · exact hfound _ h

/-- The flows of gaps are stated. -/
theorem states_of_mem_gapFlows {requests : List (Request σ)} {e : EngineId} {gap : Gap} {flow : Flow}
    (h : flow ∈ (k.after requests).gapFlows e gap) : k.States flow := by
  unfold Session.gapFlows at h
  simp only at h
  split at h
  · unfold Session.storedFlows at h
    rw [(k.found_after requests e).1, SummaryStore.flowsForSignature] at h
    cases hparse : MethodSignature.parse gap.signature with
    | error err =>
        rw [hparse] at h
        exact absurd h (OrdSet.not_mem_empty flow)
    | ok signature =>
        rw [hparse] at h
        exact k.states_of_mem_store (SummaryStore.mem_allFlows_of_mem_classMethodFlows h)
  · cases hmethod : ((k.after requests).program.findMethod? gap.signature).bind
      (k.after requests).program.method? with
    | none =>
        rw [hmethod] at h
        exact absurd h (OrdSet.not_mem_empty flow)
    | some m =>
        rw [hmethod] at h
        exact k.states_of_mem_summaries h

/-- The flows of calls are stated. -/
theorem states_of_mem_callFlows {requests : List (Request σ)} {e : EngineId} {stmt : StmtId}
    {flow : Flow} (h : flow ∈ (k.after requests).callFlows e stmt) : k.States flow := by
  rw [Session.callFlows] at h
  split at h
  · exact absurd h (OrdSet.not_mem_empty flow)
  · exact k.states_of_mem_summaries (ClassSummaries.mem_allFlowsForMethod_iff.1 h).1

end Setup

/-! ## Results of gaps -/

/-- The endpoint is what the method called in a gap returns. -/
def Endpoint.IsGapResult (p : Endpoint) : Prop := p.kind = .returned ∧ p.gap.isSome = true

instance : DecidablePred Endpoint.IsGapResult := fun _ => inferInstanceAs (Decidable (_ ∧ _))

/-- However the flow is followed, it does not lead to the result of a gap. -/
def Flow.Outbound (flow : Flow) : Prop :=
  ∀ inverse followed, flow.along inverse = some followed → ¬ Endpoint.IsGapResult followed.sink

/-- A flow is followed to its sink, and to its source if it can be followed the other
way round. -/
theorem Flow.outbound_of {flow : Flow} (hsink : ¬ Endpoint.IsGapResult flow.sink)
    (hsource : (flow.along true).isSome = true → ¬ Endpoint.IsGapResult flow.source) :
    flow.Outbound := by
  intro inverse followed halong
  cases inverse with
  | false =>
      cases halong
      exact hsink
  | true =>
      have hback := hsource (by rw [halong]; rfl)
      unfold Flow.along at halong
      split at halong
      · split at halong
        · cases halong
          exact hback
        · cases halong
      · cases halong
        exact hsink

/-- A taint that moves somewhere else is no returned value. -/
theorem Taint.role_movedTo_ne {source sink : Endpoint} (h : sink.kind ≠ .returned) (t : Taint)
    (gap : Option Gap) : (t.movedTo source sink gap).role ≠ .returned := by
  show TaintRole.ofKind _ _ ≠ _
  cases hkind : sink.kind with
  | returned => exact absurd hkind h
  | gapBase => split <;> exact fun heq => nomatch heq
  | parameter | field | receiver =>
      rw [if_neg fun hboth => nomatch hboth.1]
      exact fun heq => nomatch heq

/-- A returned value was to enter a method. -/
def AnalysisError.IsReturnEntry : AnalysisError → Prop
  | returnIntoMethod _ => True
  | _ => False

instance : DecidablePred AnalysisError.IsReturnEntry
  | .returnIntoMethod _ => .isTrue trivial
  | .gapWithoutParent _ | .rootWithoutCallSite _ | .noSuchPlace _ _ | .notACall _ | .program _
  | .uninitialized | .initializedTwice => .isFalse id

/-- Methods refuse nothing else with this error. -/
theorem Method.role_of_isReturnEntry {m : Method} {t : Taint} {err : AnalysisError}
    (herr : faultOf (m.pathInside t) = some err) (hentry : err.IsReturnEntry) :
    t.role = .returned := by
  rw [Method.pathInside, faultOf_map, Method.localInside] at herr
  cases hrole : t.role with
  | returned => rfl
  | parameter index =>
      simp only [hrole] at herr
      split at herr
      · cases herr
      · cases herr
        exact hentry.elim
  | field | gapBase =>
      simp only [hrole] at herr
      split at herr
      · cases herr
      · cases herr
        exact hentry.elim

/-- At a call there is a place for what is returned. -/
theorem Program.not_isReturnEntry_of_pathOnCall {program : Program} {t : Taint} {stmt : StmtId}
    {err : AnalysisError} (herr : faultOf (program.pathOnCall t stmt) = some err) :
    ¬ err.IsReturnEntry := by
  rw [Program.pathOnCall] at herr
  cases hstmt : program.stmt? stmt with
  | none =>
      rw [hstmt] at herr
      cases herr
      exact fun h => h
  | some code =>
      simp only [hstmt, faultOf_map, Stmt.localOnCall] at herr
      cases hcall : code.call? with
      | none =>
          rw [hcall] at herr
          cases herr
          exact fun h => h
      | some call =>
          simp only [hcall] at herr
          split at herr
          · cases herr
          · split at herr
            · cases herr
            · cases herr
              exact fun h => h
          all_goals
            split at herr
            · cases herr
            · cases herr
              exact fun h => h

/-! ## What stacks look like -/

namespace Stack

/-- Given the gaps that have flows: all gaps below the top have them, and the gap on top
has them unless the taint there is no returned value. -/
def Guarded (summarised : Gap → Prop) : Stack → Prop
  | [] => True
  | top :: below =>
    (∀ gap, top.gap = some gap → summarised gap ∨ top.taint.role ≠ .returned) ∧
      ∀ l ∈ below, ∀ gap, l.gap = some gap → summarised gap

variable {summarised : Gap → Prop} {st : Stack}

theorem Guarded.mono {wider : Gap → Prop} (h : st.Guarded summarised)
    (hwider : ∀ gap, summarised gap → wider gap) : st.Guarded wider := by
  cases st with
  | nil => trivial
  | cons top below =>
      refine ⟨fun gap hgap => ?_, fun l hl gap hgap => hwider gap (h.2 l hl gap hgap)⟩
      exact (h.1 gap hgap).imp_left (hwider gap)

theorem guarded_of_gap_eq_none {l : Layer} (hgap : l.gap = none) : Guarded summarised [l] := by
  refine ⟨fun gap hsome => ?_, fun _ hl => nomatch hl⟩
  rw [hgap] at hsome
  cases hsome

/-- What is returned into a frame is not taken anywhere from there. -/
theorem Guarded.leave (h : st.Guarded summarised) (t : Taint) :
    Guarded summarised (Stack.leave t st) := by
  match st, h with
  | [], _ => trivial
  | [bottom], _ => exact guarded_of_gap_eq_none rfl
  | top :: caller :: below, ⟨_, hbelow⟩ =>
      refine ⟨fun gap hgap => .inl (hbelow caller List.mem_cons_self gap hgap), fun l hl => ?_⟩
      exact hbelow l (List.mem_cons_of_mem _ hl)

theorem Guarded.invert (h : st.Guarded summarised) : Guarded summarised st.invert := by
  cases st with
  | nil => trivial
  | cons top below => exact h

end Stack

namespace Session

/-- The engine has flows for the gap. -/
def Summarised (s : Session σ) (e : EngineId) (gap : Gap) : Prop :=
  (s.gapFlows e gap).isEmpty = false

variable {s : Session σ} {e : EngineId} {flows : FlowSet}

/-- What the stacks of a replay look like, step by step. -/
theorem keeps_guarded (hflows : ∀ flow ∈ flows, flow.Outbound)
    (hgaps : ∀ gap, ∀ flow ∈ s.gapFlows e gap, flow.Outbound) :
    (s.rules e flows).Keeps (Stack.Guarded (s.Summarised e)) where
  leads st out hst hleads := by
    obtain ⟨top, below, flow, rfl, hflow, happlied⟩ := hleads
    obtain ⟨stated, hstated, halong⟩ := List.mem_filterMap.1 hflow
    rcases Hierarchy.applyToStack?_cases happlied with ⟨gap, hgap, rfl⟩ | ⟨-, rfl⟩
    · -- a gap is entered, and not at its result, from a frame that has flows
      have houtbound : stated.Outbound := by
        cases htop : top.gap with
        | none =>
            rw [htop] at hstated
            exact hflows stated hstated
        | some other =>
            rw [htop] at hstated
            exact hgaps other stated hstated
      have hkind : flow.sink.kind ≠ .returned := by
        intro hkind
        exact houtbound top.inverse flow halong ⟨hkind, by rw [hgap]; rfl⟩
      refine ⟨fun _ _ => .inr (Taint.role_movedTo_ne hkind _ _), fun l hl other hother => ?_⟩
      rcases List.mem_cons.1 hl with rfl | hl
      · rw [hother] at hstated
        exact Bool.eq_false_iff.2 fun hempty => OrdSet.isEmpty_iff.1 hempty stated hstated
      · exact hst.2 l hl other hother
    · exact hst.leave _
  invert _ hst := hst.invert
  leave t _ hst := hst.leave t

/-- So treating a stack takes no returned value into a method. -/
theorem not_isReturnEntry_of_fault {st : Stack} (hst : st.Guarded (s.Summarised e))
    {err : AnalysisError} (hfault : (s.rules e flows).fault s.entrances st = some err) :
    ¬ err.IsReturnEntry := by
  cases st with
  | nil => cases hfault
  | cons top below =>
      rcases Option.or_eq_some_iff.1 hfault with hentry | ⟨-, hfollow⟩
      · obtain ⟨gap, hgap, hentry⟩ := Option.bind_eq_some_iff.1 hentry
        split at hentry
        · rename_i hempty
          obtain ⟨m, -, hinside⟩ := List.exists_of_findSome?_eq_some hentry
          intro hreturn
          rcases hst.1 gap hgap with hsummarised | hrole
          · exact Bool.eq_false_iff.1 hsummarised hempty
          · exact hrole (Method.role_of_isReturnEntry hinside hreturn)
        · cases hentry
      · obtain ⟨flow, -, hflow⟩ := List.exists_of_findSome?_eq_some hfollow
        obtain ⟨out, -, hat⟩ := Option.bind_eq_some_iff.1 hflow
        unfold Program.faultAt at hat
        split at hat
        · split at hat
          · obtain ⟨key, -, hpath⟩ := Option.bind_eq_some_iff.1 hat
            exact Program.not_isReturnEntry_of_pathOnCall hpath
          · cases hat
        · cases hat

end Session

/-! ## Runs -/

namespace Setup

variable (k : Setup σ)

/-- The host makes no change to the hierarchy by which an engine loses the flows of a
gap. -/
def KeepsSummaries (requests : List (Request σ)) : Prop :=
  ∀ first change, first ++ [.edit change] <+: requests → ∀ e gap,
    (k.after first).Summarised e gap → (k.after (first ++ [.edit change])).Summarised e gap

theorem keepsSummaries_of_fixed {requests : List (Request σ)}
    (fixed : ∀ request ∈ requests, request.isEdit = false) : k.KeepsSummaries requests := by
  intro first change hfirst
  cases fixed (.edit change) (hfirst.subset (by simp))

variable {k} {requests : List (Request σ)}

theorem KeepsSummaries.of_append {rest : List (Request σ)} (h : k.KeepsSummaries (requests ++ rest)) :
    k.KeepsSummaries requests :=
  fun first change hfirst => h first change (hfirst.trans (List.prefix_append _ _))

/-- Gaps that have flows keep them. -/
theorem KeepsSummaries.summarised {request : Request σ}
    (h : k.KeepsSummaries (requests ++ [request])) {e : EngineId} {gap : Gap}
    (hgap : (k.after requests).Summarised e gap) :
    (k.after (requests ++ [request])).Summarised e gap := by
  by_cases hedit : request.isEdit = true
  · cases request with
    | edit change => exact h requests change (List.prefix_refl _) e gap hgap
    | _ => cases hedit
  · rw [Session.Summarised, (k.serves_append_singleton requests (Bool.eq_false_iff.2 hedit)).gapFlows]
    exact hgap

variable (k) in
/-- All stacks that wait are guarded, and the solver is told of no returned value that
was to enter a method. -/
def guards (requests : List (Request σ)) : Watch (Ledger σ) where
  toEpisode := k.episode requests (fun _ => True) fun _ => True
  inside e _ _ st := st.Guarded ((k.after requests).Summarised e)
  sends _ _ := True
  tells err := ¬ err.IsReturnEntry

theorem guards_safe (e : EngineId) (key : SiteKey) :
    (k.guards requests).Safe AnalysisError.IsReturnEntry e key :=
  fun _ _ _ _ _ _ hinside hfault => Session.not_isReturnEntry_of_fault hinside hfault

section Outbound

variable (outbound : ∀ flow, k.States flow → flow.Outbound)
include outbound

theorem guards_lawful : (k.guards requests).Lawful where
  keeps _ _ _ _ hflows :=
    Session.keeps_guarded
      (fun flow hflow => outbound flow (k.states_of_mem_callFlows (hflows flow hflow)))
      fun _ flow hflow => outbound flow (k.states_of_mem_gapFlows hflow)
  seeds _ _ _ _ := trivial
  returns _ _ _ _ _ _ _ _ _ _ _ _ _ := trivial

/-- Passing an exit on takes no returned value into a method. -/
theorem guards_avoids_handleExit {depth : Nat}
    (hhost : (k.guards requests).policy.Hosts (k.guards requests).Holds (fun _ _ => True)
      (k.host depth)) (hdepth : depth ≤ k.depth) {s : Session (Ledger σ)}
    (hs : (k.guards requests).Holds s) (r : ExitReport) :
    Run.Avoids AnalysisError.IsReturnEntry s (Engine.handleExit (k.host depth) k.fuel r) := by
  intro err t hrun hentry
  have hlawful : (k.guards requests).Lawful := guards_lawful outbound
  have hconnected : err ≠ .uninitialized := by
    rintro rfl
    exact hentry
  obtain ⟨e, m, c, u, hwakes, hsu, hlast⟩ :=
    hlawful.exec_handleExit_error hhost hdepth ⟨hs, .inl trivial⟩ hrun hconnected
  have hu := hs.evolves hsu
  have hwakes' := hwakes.leads (Watch.leads_of_evolves hsu)
  obtain ⟨key, hkey, -⟩ := hu.waiting e _ c hwakes'.waits
  exact hlawful.avoids_resumeOne hhost (Engine.reliable_host _ _ _) hu hwakes' hkey
    (guards_safe e key) k.fuel err t hlast hentry

theorem guards_hosts : (k.guards requests).policy.Hosts (k.guards requests).Holds (fun _ _ => True)
    (k.host k.depth) := by
  have hlawful : (k.guards requests).Lawful := guards_lawful outbound
  refine hlawful.hosts fun depth hdepth hhost r s err t hs hrun => ?_
  exact guards_avoids_handleExit outbound hhost (Nat.le_of_lt hdepth) hs.1 r err t hrun

/-- What waits after some requests is guarded, and the solver was told of no returned
value. -/
theorem guards_after (kept : k.KeepsSummaries requests) :
    (k.guards requests).Holds (k.after requests) ∧ ∀ err ∈ k.told requests, ¬ err.IsReturnEntry := by
  induction requests using List.reverseRecOn with
  | nil => exact ⟨k.holds_nil rfl, fun _ herr => nomatch herr⟩
  | append_singleton requests request ih =>
      obtain ⟨hbefore, htold⟩ := ih kept.of_append
      have hrequest := k.evolves_or_idles_of_watch (guards_lawful outbound) rfl
        (guards_hosts outbound) hbefore request (fun _ _ => trivial) (fun _ _ _ _ => trivial)
        fun _ _ _ _ _ _ _ _ _ => Stack.guarded_of_gap_eq_none rfl
      -- what was guarded still is, since gaps keep their flows
      refine ⟨k.holds_append_singleton rfl hbefore hrequest fun e a key st hguarded =>
        hguarded.mono fun gap hgap => kept.summarised hgap, fun err herr => ?_⟩
      rcases k.told_append_singleton rfl hrequest herr with hold | htells
      · exact htold err hold
      · exact htells

end Outbound

end Setup

/-- No flow is stated to end at the result of a gap, and none that can be followed the
other way round starts at one. Then, as long as no change of the hierarchy takes the
flows of a gap away, no request ends because a returned value was to enter a method:
neither a query in either direction nor passing an exit on. Nor is the solver told of
such an error while it is answered. -/
theorem returned_values_never_enter (k : Setup σ)
    (sinks : ∀ flow, k.States flow → ¬ Endpoint.IsGapResult flow.sink)
    (sources : ∀ flow, k.States flow → (flow.along true).isSome = true →
      ¬ Endpoint.IsGapResult flow.source)
    (requests : List (Request σ)) (kept : k.KeepsSummaries requests) :
    (∀ request err t, (k.ask request).exec (k.after requests) = (.error (.error err), t) →
      ¬ err.IsReturnEntry) ∧
    ∀ err ∈ k.told requests, ¬ err.IsReturnEntry := by
  have houtbound : ∀ flow, k.States flow → flow.Outbound :=
    fun flow hflow => Flow.outbound_of (sinks flow hflow) (sources flow hflow)
  obtain ⟨hholds, htold⟩ := Setup.guards_after houtbound kept
  have hhosts : (k.guards requests).policy.Hosts (k.guards requests).Holds (fun _ _ => True)
      (k.host k.depth) := Setup.guards_hosts houtbound
  refine ⟨fun request err t hrun => ?_, htold⟩
  cases request with
  | query e direction site =>
      exact (Setup.guards_lawful houtbound).avoids_query hhosts (Engine.reliable_host _ _ _)
        (fun h => h) hholds (fun j _ => Setup.guards_safe j site.key) trivial
        (fun _ _ _ _ _ => Stack.guarded_of_gap_eq_none rfl) k.fuel err t
        (Run.exec_map_eq_error_iff.1 hrun)
  | exit r =>
      exact Setup.guards_avoids_handleExit houtbound hhosts (Nat.le_refl _) hholds r err t
        (Run.exec_map_eq_error_iff.1 hrun)
  | connect e =>
      change (Engine.connect e).exec (k.after requests) = _ at hrun
      rcases Engine.exec_connect e (k.after requests) with hfailed | ⟨names, history, hdone⟩
      · cases hfailed.symm.trans hrun
        exact fun h => h
      · cases hdone.symm.trans hrun
  | release e => cases hrun
  | edit change => cases hrun
  | work f => cases hrun

namespace Sample

/-- What the callback returns is the argument of the library method. -/
def resultOfArgument : Flow :=
  ⟨apply.subSignature, (Endpoint.ofKind .returned object).inGap callback, .parameter 0 object, true⟩

/-- A text that the callback returns is the result. Nothing else can be reached through
a text, so this is not followed the other way round. -/
def textOutOfCallback : Flow :=
  ⟨apply.subSignature, (Endpoint.ofKind .returned "java.lang.String").inGap callback,
    .ofKind .returned "java.lang.String", true⟩

/-- The run with other flows of the library method. -/
def withFlows (flows : List Flow) : Setup Scripted :=
  { setup with
    engines := [(SummaryStore.empty.addClass "Lib" (.ofList flows), .default, none)] }

theorem mem_of_states {flows : List Flow} {flow : Flow} (h : (withFlows flows).States flow) :
    flow ∈ flows := by
  obtain ⟨engine, hengine, hflow⟩ := h
  obtain rfl := List.mem_singleton.1 hengine
  obtain ⟨className, hpair⟩ := ClassSummaries.mem_allFlows_iff.1 hflow
  rcases SummaryStore.hasPair_addClass.1 hpair with hnone | ⟨-, hflow⟩
  · exact absurd hnone (SummaryStore.not_hasPair_empty className flow)
  · exact MethodSummaries.mem_allFlows_ofList.1 hflow

/-- A run in which the result of the callback is only spoken of where it leaves. -/
def outgoing : Setup Scripted := withFlows [intoCallback, outOfCallback, textOutOfCallback]

/-- A run in which it is an alias of the argument. -/
def aliasing : Setup Scripted := withFlows [resultOfArgument]

/-- No flow ends at the result of the callback. In search of what the argument may be an
alias of, the flow is followed the other way round, and the query ends in the error. -/
theorem result_enters_callback :
    (∀ flow, aliasing.States flow → ¬ Endpoint.IsGapResult flow.sink) ∧
    ∃ err t, (aliasing.ask (.query 0 .backward site)).exec (aliasing.after [.connect 0]) =
      (.error (.error err), t) ∧ err.IsReturnEntry := by
  refine ⟨fun flow hflow => ?_, ?_⟩
  · obtain rfl := List.mem_singleton.1 (mem_of_states hflow)
    decide
  · have hends : (match ((aliasing.ask (.query 0 .backward site)).exec
        (aliasing.after [.connect 0])).1 with
      | .error (.error err) => decide err.IsReturnEntry
      | _ => false) = true := by decide +kernel
    rcases hrun : (aliasing.ask (.query 0 .backward site)).exec (aliasing.after [.connect 0]) with
      ⟨out, t⟩
    rw [hrun] at hends
    cases out with
    | ok _ => cases hends
    | error failure =>
        cases failure with
        | outOfFuel => cases hends
        | error err => exact ⟨err, t, rfl, of_decide_eq_true hends⟩

/-- The call is asked about and its callback is left with the argument as the result,
which goes on to the result of the call. No returned value is taken into the callback,
then or later. -/
theorem result_leaves_callback :
    (∀ flow, outgoing.States flow → ¬ Endpoint.IsGapResult flow.sink) ∧
    (∀ flow, outgoing.States flow → (flow.along true).isSome = true →
      ¬ Endpoint.IsGapResult flow.source) ∧
    outgoing.KeepsSummaries requests ∧
    (∀ request err t, (outgoing.ask request).exec (outgoing.after requests) =
      (.error (.error err), t) → ¬ err.IsReturnEntry) ∧
    ∀ err ∈ outgoing.told requests, ¬ err.IsReturnEntry := by
  have hflows : ∀ flow, outgoing.States flow → ¬ Endpoint.IsGapResult flow.sink ∧
      ((flow.along true).isSome = true → ¬ Endpoint.IsGapResult flow.source) := by
    intro flow hflow
    have hmem := mem_of_states hflow
    simp only [List.mem_cons, List.not_mem_nil, or_false] at hmem
    rcases hmem with rfl | rfl | rfl <;> decide +kernel
  have hkept : outgoing.KeepsSummaries requests := by
    refine outgoing.keepsSummaries_of_fixed fun request hrequest => ?_
    simp only [requests, List.mem_cons, List.not_mem_nil, or_false] at hrequest
    rcases hrequest with rfl | rfl | rfl <;> rfl
  have hsinks : ∀ flow, outgoing.States flow → ¬ Endpoint.IsGapResult flow.sink :=
    fun flow hflow => (hflows flow hflow).1
  have hsources : ∀ flow, outgoing.States flow → (flow.along true).isSome = true →
      ¬ Endpoint.IsGapResult flow.source :=
    fun flow hflow => (hflows flow hflow).2
  exact ⟨hsinks, hsources, hkept, returned_values_never_enter outgoing hsinks hsources requests hkept⟩

end Sample

end TaintReplay
