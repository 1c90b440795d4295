import TaintReplay.Proofs.ReturnedValues
import TaintReplay.Proofs.SummaryPairs

/-!
# Calls that an engine answers for alone

Whether an engine answers for a call alone and whether it has an answer are found out in
different ways. It claims a call if it has an entry for the class that the call names. It
answers a call if it has a flow of the method for one of the classes whose code may run
there: those of the targets known for the call, or those that the receiver may have
(`Session.MayRun`). The class of the call need not be one of these, and a class with an
entry need not have a flow of the method; so a call may be claimed and left unanswered
(`Sample.claimed_call_unanswered`). What holds is that a claimed call is answered exactly if
there is such a flow.

## Main results

* `Engine.query_eq_none_iff`: when an engine without fallback has no answer.
* `Setup.isEmpty_summaries_iff`: when nothing is found for a call.
* `claimed_calls_are_answered_from_flows`: which of the calls that are claimed are answered.
-/

namespace TaintReplay

variable {σ : Type}

/-! ## What is found -/

theorem ClassSummaries.isEmpty_iff {s : ClassSummaries} :
    s.isEmpty = true ↔ ∀ flow, flow ∉ s.allFlows := by
  simp only [isEmpty, List.all_eq_true, MethodSummaries.isEmpty_iff, allFlows, FlowSet.mem_unions,
    List.mem_map]
  grind

/-- A lookup finds nothing if no class has a flow of the method. -/
theorem SummaryStore.isEmpty_methodFlows_iff {s : SummaryStore} {classes : OrdSet String}
    {subSignature : String} :
    (s.methodFlows classes subSignature).isEmpty = true ↔
      ∀ c ∈ classes, ∀ flow, flow ∉ s.classMethodFlows c subSignature := by
  simp only [ClassSummaries.isEmpty_iff, ClassSummaries.mem_allFlows_iff, hasPair_methodFlows,
    mem_classMethodFlows_iff]
  grind

/-- Code of the class may run at a call: the class is one of those that the targets known
for the call declare, or one that the receiver may have. -/
def Session.MayRun (s : Session σ) (stmt : StmtId) (callee : MethodSignature)
    (className : String) : Prop :=
  className ∈ s.program.targetClasses s.hierarchy stmt ∨
    className ∈ s.hierarchy.instanceClasses (s.program.staticClass (some stmt) callee)

/-- Nothing is found for a call exactly if no class whose code may run there has a flow of
the method. -/
theorem Setup.isEmpty_summaries_iff (k : Setup σ) (requests : List (Request σ)) (e : EngineId)
    (stmt : StmtId) (callee : MethodSignature) :
    ((k.after requests).summaries e (some stmt) callee).isEmpty = true ↔
      ∀ c, (k.after requests).MayRun stmt callee c → ∀ flow,
        flow ∉ ((k.after requests).engine e).store.classMethodFlows c callee.subSignature := by
  obtain ⟨hstore, hfound⟩ := k.found_after requests e
  rw [hstore]
  let targets := (k.after requests).program.targetClasses (k.after requests).hierarchy stmt
  let static := (k.after requests).hierarchy.instanceClasses
    ((k.after requests).program.staticClass (some stmt) callee)
  let first := if targets.isEmpty then ClassSummaries.empty
    else (k.begun.engine e).store.methodFlows targets callee.subSignature
  have hsummaries : (k.after requests).summaries e (some stmt) callee =
      if first.isEmpty then (k.begun.engine e).store.methodFlows static callee.subSignature
      else first := by
    simp only [Session.summaries, hfound]
    rfl
  have hfirst : first.isEmpty = true ↔ ∀ c ∈ targets, ∀ flow,
      flow ∉ (k.begun.engine e).store.classMethodFlows c callee.subSignature := by
    by_cases hnone : targets.isEmpty = true
    · simp only [first, if_pos hnone]
      exact iff_of_true rfl fun c hc => absurd hc (OrdSet.isEmpty_iff.1 hnone c)
    · simp only [first, if_neg hnone]
      exact SummaryStore.isEmpty_methodFlows_iff
  have hboth : ((k.after requests).summaries e (some stmt) callee).isEmpty = true ↔
      first.isEmpty = true ∧
        ((k.begun.engine e).store.methodFlows static callee.subSignature).isEmpty = true := by
    rw [hsummaries]
    by_cases hempty : first.isEmpty = true
    · rw [if_pos hempty]
      exact ⟨fun hrest => ⟨hempty, hrest⟩, And.right⟩
    · rw [if_neg hempty]
      exact iff_of_false hempty fun hand => hempty hand.1
  rw [hboth, hfirst, SummaryStore.isEmpty_methodFlows_iff]
  constructor
  · rintro ⟨hleft, hright⟩ c hc
    exact hc.elim (hleft c) (hright c)
  · intro hall
    exact ⟨fun c hc => hall c (.inl hc), fun c hc => hall c (.inr hc)⟩

/-! ## Claims and answers -/

/-- A connected engine without fallback is asked alone. -/
theorem Session.chain_eq_singleton {s : Session σ} {e : EngineId}
    (connected : (s.engine e).connected = true) (alone : (s.engine e).fallback = none) :
    s.chain e = [e] := by
  cases hlength : s.engines.length with
  | zero =>
      rw [Session.engine, List.length_eq_zero_iff.1 hlength] at connected
      cases connected
  | succ n => rw [Session.chain, hlength, Session.chainFrom, alone]

namespace Engine

variable {s : Session σ} {e : EngineId}

/-- An engine claims the calls of the classes that it has an entry for. -/
theorem isExclusive_iff (connected : (s.engine e).connected = true)
    (alone : (s.engine e).fallback = none) {stmt : StmtId} :
    isExclusive s e stmt = true ↔ ∃ call, s.program.call? stmt = some call ∧
      (s.engine e).store.supports call.callee.className = true := by
  rw [isExclusive, Session.chain_eq_singleton connected alone, List.any_cons, List.any_nil,
    Bool.or_false, supportsStmt, connected, Bool.true_and, Option.any_eq_true]
  rfl

/-- An engine has no answer to a query about a call exactly if it finds no summaries. -/
theorem query_eq_none_iff (solver : Solver σ) (hs : s.Sound)
    (connected : (s.engine e).connected = true) (alone : (s.engine e).fallback = none)
    (host : Host σ) (fuel : Nat) (direction : Direction) (site : CallSite) :
    ((query host fuel e direction site).exec s).1 = .ok none ↔
      ∃ call, s.program.call? site.stmt = some call ∧
        (s.summaries e (some site.stmt) call.callee).isEmpty = true := by
  unfold query
  rw [Run.exec_get_bind, Session.chain_eq_singleton connected alone, queryChain, Run.exec_get_bind,
    if_neg (by simp [connected])]
  cases hcall : s.program.call? site.stmt with
  | none =>
      refine iff_of_false (fun hnone => ?_) ?_
      · cases hnone
      · rintro ⟨call, hsome, -⟩
        cases hsome
  | some call =>
      obtain ⟨found, t, hrun⟩ := total_summariesFor (σ := σ) e (some site.stmt) call.callee s
      obtain ⟨hst, hfound⟩ :=
        (meets_summariesFor (Policy.orderly_admits solver) e _ _).of_ok hs hrun
      rw [(Policy.Evolves.grows hst).summaries] at hfound
      simp only
      rw [Run.exec_bind, hrun]
      simp only [hfound]
      by_cases hempty : (s.summaries e (some site.stmt) call.callee).isEmpty = true
      · obtain ⟨_, u, hmiss⟩ := total_countMiss e direction call.callee t
        rw [if_pos hempty, Run.exec_bind, hmiss]
        exact iff_of_true rfl ⟨call, rfl, hempty⟩
      · -- an answer may fail, but it is not the absence of one
        obtain ⟨_, u, hhit⟩ := total_countHit e direction t
        rw [if_neg hempty, Run.exec_bind, hhit]
        simp only
        rw [← map_eq_pure_bind, Run.exec_map]
        refine iff_of_false (fun hnone => ?_) ?_
        · cases hanswer : ((answer host fuel e direction site call.callee
              (s.summaries e (some site.stmt) call.callee)).exec u).1 with
          | ok facts =>
              rw [hanswer] at hnone
              cases hnone
          | error failure =>
              rw [hanswer] at hnone
              cases hnone
        · rintro ⟨other, hother, hnothing⟩
          obtain rfl := Option.some.inj hother
          exact hempty hnothing

end Engine

/-- A call that an engine without fallback claims is one of a class that it has an entry for.
It is answered exactly if a class whose code may run there has a flow of the method
called. -/
theorem claimed_calls_are_answered_from_flows (k : Setup σ) (requests : List (Request σ))
    {e : EngineId} (connected : ((k.after requests).engine e).connected = true)
    (alone : ((k.after requests).engine e).fallback = none) (host : Host (Ledger σ)) (fuel : Nat)
    (direction : Direction) (site : CallSite)
    (claimed : Engine.isExclusive (k.after requests) e site.stmt = true) :
    ∃ call, (k.after requests).program.call? site.stmt = some call ∧
      ((k.after requests).engine e).store.supports call.callee.className = true ∧
      (((Engine.query host fuel e direction site).exec (k.after requests)).1 ≠ .ok none ↔
        ∃ c, (k.after requests).MayRun site.stmt call.callee c ∧
          ∃ flow, flow ∈ ((k.after requests).engine e).store.classMethodFlows c
            call.callee.subSignature) := by
  obtain ⟨call, hcall, hsupported⟩ := (Engine.isExclusive_iff connected alone).1 claimed
  refine ⟨call, hcall, hsupported, ?_⟩
  have hnone := Engine.query_eq_none_iff k.solver.logging.recording (k.tidy_after requests).sound
    connected alone host fuel direction site
  rw [Ne, hnone, hcall]
  simp only [Option.some.injEq, exists_eq_left', k.isEmpty_summaries_iff]
  simp only [not_forall, not_not, exists_prop]

namespace Sample

/-- A flow of another method of the library. -/
def ofOther : Flow :=
  ⟨"java.lang.Object other(java.lang.Object)", .parameter 0 object, .ofKind .returned object, false⟩

/-- The library has a summary, but not of the method called. -/
def uncovered : Setup Scripted := withFlows [ofOther]

/-- The call has a receiver, whose static type is below the class of the library. -/
def below : Setup Scripted where
  hierarchy := (Hierarchy.empty.applyAll [.define "Lib" .concrete, .define "Sub" .concrete,
    .link "Sub" "Lib" .extension]).2
  program := (main.declare ⟨"s", .class "Sub", ⟨1⟩⟩).2.pushStmt ⟨1⟩
    (.invoke (some ⟨2⟩) ⟨apply, some ⟨3⟩, [.ofLocal ⟨1⟩]⟩)
  bodies := .empty
  engines := stores
  solver := Scripted.solver
  state := eager
  fuel := 20
  depth := 5

/-- The question about the call, in a run whose only engine was connected. -/
def outcome (k : Setup Scripted) : Except Failure (Option FactSet) :=
  ((Engine.query (Engine.host k.solver.logging.recording 20 5) 20 0 .forward site).exec
    (k.after [.connect 0])).1

/-- The only engine of a run claims the call and has no answer. -/
def LeftUnanswered (k : Setup Scripted) : Prop :=
  ((k.after [.connect 0]).engine 0).connected = true ∧
    ((k.after [.connect 0]).engine 0).fallback = none ∧
    Engine.isExclusive (k.after [.connect 0]) 0 site.stmt = true ∧ outcome k = .ok none

/-- A call is claimed and not answered, where the class has flows of another method only, and
where it has flows of the method but the receiver is of a class without any. -/
theorem claimed_call_unanswered : LeftUnanswered uncovered ∧ LeftUnanswered below := by
  have hanswer : ∀ x : Except Failure (Option FactSet),
      (x.toOption.any Option.isNone) = true → x = .ok none := by
    intro x hnone
    obtain ⟨reply, hreply, hnone⟩ := (Option.any_eq_true _ _).1 hnone
    rw [eq_ok_of_toOption hreply, Option.isNone_iff_eq_none.1 hnone]
  exact ⟨⟨by decide +kernel, by decide +kernel, by decide +kernel,
      hanswer _ (by decide +kernel)⟩,
    ⟨by decide +kernel, by decide +kernel, by decide +kernel, hanswer _ (by decide +kernel)⟩⟩

/-- The call of the library method is claimed, and answered because the library has flows
of it. -/
theorem claimed_call_answered :
    ((setup.after [.connect 0]).engine 0).connected = true ∧
    ((setup.after [.connect 0]).engine 0).fallback = none ∧
    Engine.isExclusive (setup.after [.connect 0]) 0 site.stmt = true ∧
    (setup.after [.connect 0]).MayRun site.stmt apply "Lib" ∧
    intoCallback ∈ ((setup.after [.connect 0]).engine 0).store.classMethodFlows "Lib"
      apply.subSignature ∧
    outcome setup ≠ .ok none := by
  have hconnected : ((setup.after [.connect 0]).engine 0).connected = true := by decide +kernel
  have halone : ((setup.after [.connect 0]).engine 0).fallback = none := by decide +kernel
  have hclaimed : Engine.isExclusive (setup.after [.connect 0]) 0 site.stmt = true := by
    decide +kernel
  have hruns : (setup.after [.connect 0]).MayRun site.stmt apply "Lib" := .inr (by decide +kernel)
  have hflow : intoCallback ∈ ((setup.after [.connect 0]).engine 0).store.classMethodFlows "Lib"
      apply.subSignature := by decide +kernel
  obtain ⟨call, hcall, -, hanswered⟩ := claimed_calls_are_answered_from_flows setup [.connect 0]
    hconnected halone (Engine.host setup.solver.logging.recording 20 5) 20 .forward site hclaimed
  rw [setup.program_after] at hcall
  obtain rfl : (⟨apply, none, [.ofLocal ⟨1⟩]⟩ : Call) = call := Option.some.inj hcall
  exact ⟨hconnected, halone, hclaimed, hruns, hflow, hanswered.2 ⟨"Lib", hruns, _, hflow⟩⟩

end Sample

end TaintReplay
