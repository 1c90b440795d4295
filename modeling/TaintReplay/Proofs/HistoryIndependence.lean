import Mathlib.Logic.Equiv.Basic
import TaintReplay.Proofs.Deliveries
import TaintReplay.Proofs.Histories

/-!
# Answers do not depend on the past

An engine learns: it remembers lookups, its session registers classes, and replays
of earlier queries go on waiting. None of this shows in its answers. If the exits
that the solver knows do not change, the answer to a query is a function of the
statement, the direction and the path of the fact asked about
(`Session.answerOf`): it is read off the courses of the replays, which are the same
in every session that has grown from the same one. The context that the solver
asks in is part of the call site of a replay and of nothing else, so exchanging it
changes no course.

## Main results

* `Engine.foresees_query`: a query ends as foreseen.
* `Session.answerOf_mono`: more fuel keeps an answer.
* `Session.paths_answerOf`: answers about the same path at the same statement have the same paths.
* `answers_ignore_history_and_context`: the answer to a query depends on the statement, the
  direction and the path asked about.
-/

namespace TaintReplay

variable {σ α β : Type}

/-! ## Outcomes -/

/-- The outcome is not for want of fuel. -/
def Ended (outcome : Except Failure α) : Prop := outcome ≠ .error .outOfFuel

theorem Foreseen.eq_of_ended {stalls : Prop} {outcome expected : Except Failure α}
    (h : Foreseen stalls outcome expected) (hended : Ended outcome) : outcome = expected :=
  h.resolve_right fun hstalled => hended hstalled.2

theorem Foreseen.eq_of_not {stalls : Prop} {outcome expected : Except Failure α}
    (h : Foreseen stalls outcome expected) (hnot : ¬ stalls) : outcome = expected :=
  h.resolve_right fun hstalled => hnot hstalled.1

theorem Foreseen.map {stalls : Prop} {outcome expected : Except Failure α} (f : α → β)
    (h : Foreseen stalls outcome expected) :
    Foreseen stalls (outcome.map f) (expected.map f) := by
  rcases h with rfl | ⟨hstalls, rfl⟩
  · exact .inl rfl
  · exact .inr ⟨hstalls, rfl⟩

/-- A program that hands on the value it was given does not change an outcome. -/
theorem Run.outcome_bind_of_same {x : Run σ α} {f : α → Run σ α}
    (hf : ∀ a t, ((f a).exec t).1 = .ok a) (s : Session σ) :
    ((x >>= f).exec s).1 = (x.exec s).1 := by
  rw [exec_bind]
  match x.exec s with
  | (.ok a, t) => exact hf a t
  | (.error e, t) => rfl

/-- A solver reports nothing at once. -/
def Solver.Quiet (solver : Solver σ) : Prop :=
  ∀ state edge, (solver.accept state edge).2 = []

/-- Handing an edge to a solver that reports nothing at once never runs out of fuel. -/
theorem Engine.reliable_of_quiet {solver : Solver σ} (hquiet : solver.Quiet) (fuel depth : Nat) :
    (Engine.host solver fuel depth).Reliable False := by
  have hover : ∀ edge s, (handOver solver edge).exec s =
      (.ok [], { s with solver := (solver.accept s.solver edge).1 }) := by
    intro edge s
    rw [← hquiet s.solver edge]
    rfl
  intro edge s
  show Run.Faults False s (deliver solver fuel depth edge) none
  cases depth with
  | zero =>
      rw [Run.Faults, deliver, Run.exec_bind, hover]
      rfl
  | succ depth =>
      rw [Run.Faults, deliver, Run.exec_bind, hover]
      rfl

/-! ## Answers foreseen -/

/-- Facts with the paths of a replay added, as derived at a statement. -/
def FactSet.addPaths (facts : FactSet) (stmt : StmtId) (paths : Option (OrdSet AccessPath)) :
    FactSet :=
  facts.insertAll (((paths.map (·.toList)).getD []).map fun path => Fact.derivedAt path stmt)

/-- What the courses of several replays add to some facts, one after the other. -/
def Course.collect (fuel : Nat) (starts : List Stack) (stmt : StmtId) :
    List Course → FactSet → Except Failure FactSet
  | [], facts => .ok facts
  | w :: rest, facts =>
    match w.run fuel (.start starts) with
    | .ok paths => collect fuel starts stmt rest (facts.addPaths stmt paths)
    | .error f => .error f

namespace Session

/-- The stacks that the replays of a query start from. -/
def startsOf (s : Session σ) (direction : Direction) (site : CallSite) : List Stack :=
  (Engine.queried direction site s).toList.map (site.stack (direction = .backward))

/-- The courses of the replays that an engine makes with some summaries. -/
def coursesOf (s : Session σ) (table : ExitTable) (e : EngineId) (summaries : ClassSummaries)
    (callee : MethodSignature) : List Course :=
  (Engine.classFlows summaries callee).map fun flows => s.course e flows table

/-- How an engine without fallback answers a query, if the solver answers from a
table. -/
def answerOf (s : Session σ) (table : ExitTable) (fuel : Nat) (e : EngineId) (direction : Direction)
    (site : CallSite) : Except Failure (Option FactSet) :=
  match s.program.call? site.stmt with
  | none => .ok (some (OrdSet.singleton site.fact))
  | some call =>
    let summaries := s.summaries e (some site.stmt) call.callee
    if summaries.isEmpty then .ok none
    else if (Engine.queried direction site s).isEmpty then
      .ok (some (OrdSet.singleton site.fact))
    else
      (Course.collect fuel (s.startsOf direction site) site.stmt
        (s.coursesOf table e summaries call.callee) (OrdSet.singleton site.fact)).map some

/-- Answers stay the same while a session grows. -/
theorem Grows.answerOf {s t : Session σ} (h : s.Grows t) (table : ExitTable) (fuel : Nat)
    (e : EngineId) (direction : Direction) (site : CallSite) :
    t.answerOf table fuel e direction site = s.answerOf table fuel e direction site := by
  have hqueried : Engine.queried direction site t = Engine.queried direction site s := by
    rw [Engine.queried, Engine.queried, h.program]
  simp only [Session.answerOf, Session.startsOf, Session.coursesOf, h.program, h.summaries, hqueried,
    h.course]

end Session

namespace Engine

section Foresee

variable {policy : Policy σ} {sent : PathEdge → Session σ → Prop} {host : Host σ} {stalls : Prop}
  {table : ExitTable} {e : EngineId} {a : Nat} {site : CallSite} {direction : Direction}
  {s : Session σ}

/-- What is assumed of a policy and a host so that replays take their course. -/
structure Steady (policy : Policy σ) (sent : PathEdge → Session σ → Prop) (host : Host σ)
    (stalls : Prop) (table : ExitTable) : Prop where
  admits : policy.Admits Session.Tidy
  lenient : policy.Lenient
  hosts : policy.Hosts Session.Tidy sent host
  reliable : host.Reliable stalls
  table : ∀ state, policy.solver.table state = table

/-- Replaying the flows of one class after the other. -/
theorem foresees_replayClasses (h : Steady policy sent host stalls table) (fuel : Nat)
    {inverse : Bool} {taints : OrdSet Taint} {classes : List FlowSet} {facts : FactSet}
    (hs : s.Tidy) (hknown : a < s.arenas.length) (hcall : s.IsCall site.stmt) :
    Foreseen stalls ((replayClasses host fuel e a site inverse taints classes facts).exec s).1
      (Course.collect fuel (taints.toList.map (site.stack inverse)) site.stmt
        (classes.map fun flows => s.course e flows table) facts) := by
  induction classes generalizing facts s with
  | nil => exact .inl rfl
  | cons flows rest ih =>
      rw [replayClasses, Run.exec_bind, List.map_cons, Course.collect]
      -- the roots are interned, and stand for the stacks to start from
      obtain ⟨ids, v, hrun⟩ := Run.Total.mapM
        (fun t => Run.total_intern a (.root t site inverse)) taints.toList s
      have hsince := h.admits.and (Law.Stable.since s)
      have hroots := meets_internRoots (a := a) hsince
        (fun t ht => Nat.lt_of_lt_of_le hknown (Policy.Evolves.grows ht.2).arenas)
        (fun t ht => by
          rw [Session.IsCall, (Policy.Evolves.grows ht.2).program]
          exact hcall) inverse taints.toList
      obtain ⟨hsv, hids⟩ := hroots.of_ok ⟨hs, .refl⟩ hrun
      have hv := h.admits.stable hs hsv
      simp only [hrun]
      have hreplay := foresees_replay h.admits (fun _ ht => ht.sound) (fun _ ht => ht.distinct)
        h.hosts h.reliable h.lenient h.table e flows fuel hv hids
      rw [(Policy.Evolves.grows hsv).course] at hreplay
      rw [Run.exec_bind]
      rcases hout : (replay host fuel e a flows ids).exec v with ⟨out, u⟩
      cases out with
      | ok paths =>
          rw [hout] at hreplay
          rw [← hreplay.eq_of_ended (by simp [Ended])]
          -- the other classes follow from where the replay has ended
          let x : Replay σ := ⟨host, e, a, flows, ids, v⟩
          have hstored : ∀ id ∈ x.initial, ∃ st, (v.arena a).Holds id st := fun id hid =>
            (exists_right_of_forall₂ hids hid).imp fun _ hst => hst.2
          have hvu := ((Replay.runs_replay (x := x) h.admits h.hosts hv hstored
            (fun t _ _ => x.mayWait_of_lenient h.lenient t) fuel).of_ok hout).1
          have hsu := Policy.Evolves.grows (hsv.trans hvu)
          have hrest : Foreseen stalls ((replayClasses host fuel e a site inverse taints rest
              (facts.addPaths site.stmt paths)).exec u).1 _ :=
            ih (h.admits.stable hv hvu) (Nat.lt_of_lt_of_le hknown hsu.arenas)
              (by rw [Session.IsCall, hsu.program]; exact hcall)
          simp only [hsu.course] at hrest
          exact hrest
      | error f =>
          rw [hout] at hreplay
          rcases hreplay with heq | ⟨hstalls, heq⟩
          · rw [← heq]
            exact .inl rfl
          · cases heq
            exact .inr ⟨hstalls, rfl⟩

/-- Answering with some summaries. -/
theorem foresees_answer (h : Steady policy sent host stalls table) (fuel : Nat) (hs : s.Tidy)
    (hcall : s.IsCall site.stmt) (callee : MethodSignature) (summaries : ClassSummaries) :
    Foreseen stalls ((answer host fuel e direction site callee summaries).exec s).1
      (if (queried direction site s).isEmpty then .ok (OrdSet.singleton site.fact)
      else Course.collect fuel (s.startsOf direction site) site.stmt
        (s.coursesOf table e summaries callee) (OrdSet.singleton site.fact)) := by
  unfold answer
  rw [Run.exec_get_bind]
  have hqueried : s.program.taintsOnCall site.fact.path site.stmt (direction = .backward) =
    queried direction site s := rfl
  simp only [hqueried]
  by_cases hempty : (queried direction site s).isEmpty = true
  · rw [if_pos hempty, if_pos hempty]
    exact .inl rfl
  · rw [if_neg hempty, if_neg hempty, Run.exec_bind, Run.exec_openArena]
    let t : Session σ := { s with arenas := s.arenas ++ [Arena.empty] }
    have hst : policy.Evolves s t := .single (.openArena s)
    have hgrows := hst.grows
    have ht := h.admits.stable hs hst
    have hclasses : Foreseen stalls ((replayClasses host fuel e s.arenas.length site
        (direction = .backward) (queried direction site s) (classFlows summaries callee)
        (OrdSet.singleton site.fact)).exec t).1 _ :=
      foresees_replayClasses h fuel ht (by simp [t])
        (by rw [Session.IsCall, hgrows.program]; exact hcall)
    simp only [hgrows.course] at hclasses
    simp only
    rw [Run.outcome_bind_of_same fun facts u => rfl]
    exact hclasses

/-- A query to a connected engine without fallback ends as foreseen. -/
theorem foresees_query (h : Steady policy sent host stalls table) (fuel : Nat) (hs : s.Tidy)
    (hconnected : (s.engine e).connected = true) (halone : (s.engine e).fallback = none) :
    Foreseen stalls ((query host fuel e direction site).exec s).1
      (s.answerOf table fuel e direction site) := by
  have hchain : s.chain e = [e] := by
    cases hlength : s.engines.length with
    | zero =>
        rw [Session.engine, List.length_eq_zero_iff.1 hlength] at hconnected
        cases hconnected
    | succ n => rw [Session.chain, hlength, Session.chainFrom, halone]
  unfold query
  rw [Run.exec_get_bind, hchain, queryChain, Run.exec_get_bind, if_neg (by simp [hconnected]),
    Session.answerOf]
  cases hcall : s.program.call? site.stmt with
  | none => exact .inl rfl
  | some call =>
      simp only
      obtain ⟨found, t, hrun⟩ :=
        total_summariesFor (σ := σ) e (some site.stmt) call.callee s
      obtain ⟨hst, hfound⟩ := (meets_summariesFor h.admits e _ _).of_ok hs hrun
      rw [(Policy.Evolves.grows hst).summaries] at hfound
      have ht := h.admits.stable hs hst
      rw [Run.exec_bind, hrun]
      simp only [hfound]
      by_cases hempty : (s.summaries e (some site.stmt) call.callee).isEmpty = true
      · rw [if_pos hempty, if_pos hempty, Run.exec_bind]
        obtain ⟨_, u, hmiss⟩ := total_countMiss e direction call.callee t
        rw [hmiss]
        exact .inl rfl
      · rw [if_neg hempty, if_neg hempty, Run.exec_bind]
        obtain ⟨_, u, hhit⟩ := total_countHit e direction t
        obtain ⟨htu, -⟩ := (meets_countHit e direction).of_ok ht hhit
        have hsu := Policy.Evolves.grows (hst.trans htu)
        have hisCall : u.IsCall site.stmt := by
          rw [Session.IsCall, hsu.program, hcall]
          rfl
        have hqueried : queried direction site u = queried direction site s := by
          rw [queried, queried, hsu.program]
        have hanswer : Foreseen stalls ((answer host fuel e direction site call.callee
            (s.summaries e (some site.stmt) call.callee)).exec u).1 _ :=
          foresees_answer h fuel (h.admits.stable ht htu) hisCall call.callee _
        simp only [Session.startsOf, Session.coursesOf, hsu.course, hqueried] at hanswer
        rw [hhit]
        simp only
        rw [← map_eq_pure_bind, Run.exec_map]
        by_cases hnone : (queried direction site s).isEmpty = true
        · rw [if_pos hnone] at hanswer ⊢
          exact hanswer.map some
        · rw [if_neg hnone] at hanswer ⊢
          exact hanswer.map some

end Foresee

end Engine

/-! ## Fuel and call sites -/

namespace Course

variable {stmt : StmtId} {starts : List Stack}

/-- More fuel keeps what courses add. -/
theorem collect_mono {m n : Nat} (hmn : m ≤ n) {courses : List Course} {facts : FactSet}
    (hended : Ended (collect m starts stmt courses facts)) :
    collect n starts stmt courses facts = collect m starts stmt courses facts := by
  induction courses generalizing facts with
  | nil => rfl
  | cons w rest ih =>
      rw [collect] at hended ⊢
      have hrun : w.run n (.start starts) = w.run m (.start starts) := by
        refine w.run_mono hmn fun hout => ?_
        rw [hout] at hended
        exact hended rfl
      rw [collect, hrun]
      cases hout : w.run m (.start starts) with
      | error f => rfl
      | ok paths =>
          rw [hout] at hended
          exact ih hended

/-- Courses that do not tell call sites apart add the same from exchanged ones. -/
theorem collect_relabel {ρ : SiteKey → SiteKey} (hρ : ρ.Injective) (fuel : Nat)
    {courses : List Course} (hblind : ∀ w ∈ courses, w.Blind ρ) (facts : FactSet) :
    collect fuel (starts.map (Stack.relabel ρ)) stmt courses facts =
      collect fuel starts stmt courses facts := by
  induction courses generalizing facts with
  | nil => rfl
  | cons w rest ih =>
      have hrun : w.run fuel (.start (starts.map (Stack.relabel ρ))) = w.run fuel (.start starts) :=
        w.run_relabel (hblind w List.mem_cons_self) hρ fuel (.start starts)
      rw [collect, collect, hrun]
      cases w.run fuel (.start starts) with
      | error f => rfl
      | ok paths => exact ih (fun w hw => hblind w (List.mem_cons_of_mem _ hw)) _

end Course

theorem FactSet.paths_insertAll {facts facts' : FactSet} (h : facts'.paths = facts.paths)
    (new : List Fact) :
    FactSet.paths (facts'.insertAll new) = FactSet.paths (facts.insertAll new) := by
  induction new generalizing facts facts' with
  | nil => exact h
  | cons fact new ih =>
      have hinsert : ∀ set : FactSet,
          FactSet.paths (set.insert fact) = insertIncreasing fact.path set.paths :=
        fun set => map_path_insertIncreasing fact set.toList
      exact ih (by rw [hinsert, hinsert, h])

/-- Which paths courses add does not depend on where the facts come from. -/
theorem Course.paths_collect (fuel : Nat) (starts : List Stack) (stmt : StmtId)
    (courses : List Course) {facts facts' : FactSet} (h : facts'.paths = facts.paths) :
    (collect fuel starts stmt courses facts').map FactSet.paths =
      (collect fuel starts stmt courses facts).map FactSet.paths := by
  induction courses generalizing facts facts' with
  | nil => exact congrArg Except.ok h
  | cons w rest ih =>
      rw [collect, collect]
      cases w.run fuel (.start starts) with
      | error f => rfl
      | ok paths => exact ih (FactSet.paths_insertAll h _)

/-- The paths of an answer. -/
def answerPaths (outcome : Except Failure (Option FactSet)) :
    Except Failure (Option (List AccessPath)) :=
  outcome.map (Option.map FactSet.paths)

namespace Session

variable (s : Session σ) (table : ExitTable)

/-- More fuel keeps an answer. -/
theorem answerOf_mono {m n : Nat} (hmn : m ≤ n) {e : EngineId} {direction : Direction}
    {site : CallSite} (hended : Ended (s.answerOf table m e direction site)) :
    s.answerOf table n e direction site = s.answerOf table m e direction site := by
  unfold answerOf at hended ⊢
  cases hcall : s.program.call? site.stmt with
  | none => rfl
  | some call =>
      simp only [hcall] at hended ⊢
      split
      · rfl
      · split
        · rfl
        · rename_i hfound hqueried
          rw [if_neg hfound, if_neg hqueried] at hended
          rw [Course.collect_mono hmn fun hout => hended (by rw [hout]; rfl)]

variable {site site' : CallSite} (hstmt : site'.stmt = site.stmt)
  (hpath : site'.fact.path = site.fact.path)
include hstmt hpath

/-- Queries about the same path at the same statement start from stacks with the
call sites exchanged. -/
theorem startsOf_relabel (direction : Direction) :
    s.startsOf direction site' =
      (s.startsOf direction site).map (Stack.relabel (Equiv.swap site.key site'.key)) := by
  rw [startsOf, startsOf, Engine.queried, Engine.queried, hstmt, hpath, List.map_map]
  refine List.map_congr_left fun t _ => ?_
  show _ = Stack.relabel _ [_]
  rw [Stack.relabel, List.map_singleton]
  simp only [Propagator.layer, Layer.relabel, Propagator.root, Option.map_some, Equiv.swap_apply_left]
  rfl

/-- From there the same is added. -/
theorem collect_startsOf (fuel : Nat) (e : EngineId) (direction : Direction)
    (summaries : ClassSummaries) (callee : MethodSignature) (facts : FactSet) :
    Course.collect fuel (s.startsOf direction site') site.stmt
        (s.coursesOf table e summaries callee) facts =
      Course.collect fuel (s.startsOf direction site) site.stmt
        (s.coursesOf table e summaries callee) facts := by
  have hswap : ∀ key, (Equiv.swap site.key site'.key key).stmt = key.stmt := by
    intro key
    rw [Equiv.swap_apply_def]
    split
    · rename_i heq
      rw [heq]
      exact hstmt
    · split
      · rename_i heq
        rw [heq]
        exact hstmt.symm
      · rfl
  rw [s.startsOf_relabel hstmt hpath]
  refine Course.collect_relabel (Equiv.injective _) fuel (fun w hw => ?_) facts
  obtain ⟨flows, -, rfl⟩ := List.mem_map.1 hw
  exact s.blind_course e flows table hswap

/-- Answers about the same path at the same statement have the same paths, and are
the same if they are about the same fact. -/
theorem paths_answerOf (fuel : Nat) (e : EngineId) (direction : Direction) :
    answerPaths (s.answerOf table fuel e direction site') =
        answerPaths (s.answerOf table fuel e direction site) ∧
      (site'.fact = site.fact →
        s.answerOf table fuel e direction site' = s.answerOf table fuel e direction site) := by
  have hqueried : Engine.queried direction site' s = Engine.queried direction site s := by
    rw [Engine.queried, Engine.queried, hstmt, hpath]
  have hsingle : FactSet.paths (OrdSet.singleton site'.fact) =
      FactSet.paths (OrdSet.singleton site.fact) := by
    show [site'.fact.path] = [site.fact.path]
    rw [hpath]
  unfold answerOf
  simp only [hqueried, hstmt, s.collect_startsOf table hstmt hpath]
  refine ⟨?_, fun hfact => by rw [hfact]⟩
  cases s.program.call? site.stmt with
  | none => exact congrArg (fun paths => Except.ok (some paths)) hsingle
  | some call =>
      simp only
      split
      · rfl
      · split
        · exact congrArg (fun paths => Except.ok (some paths)) hsingle
        · have hmap : ∀ outcome : Except Failure FactSet,
              answerPaths (outcome.map some) = (outcome.map FactSet.paths).map some := by
            intro outcome
            cases outcome <;> rfl
          rw [hmap, hmap, Course.paths_collect fuel _ _ _ hsingle]

end Session

/-! ## Answers ignore history and context -/

/-- How a query ends in a session. -/
def Session.ask (solver : Solver σ) (fuel depth : Nat) (s : Session (σ × List AnalysisError))
    (e : EngineId) (direction : Direction) (site : CallSite) : Except Failure (Option FactSet) :=
  ((Engine.query (Engine.host solver.recording fuel depth) fuel e direction site).exec s).1

/-- Replays take their course in tidy sessions, and only a solver that reports at
once can keep them from ending. -/
theorem Engine.steady_host (solver : Solver σ) (fuel depth : Nat) {table : ExitTable}
    (htable : ∀ state, solver.table state = table) :
    Steady (Policy.free solver) (fun _ _ => True) (host solver fuel depth) (¬ solver.Quiet)
      table := by
  have hadmits : (Policy.free solver).Admits Session.Tidy :=
    ⟨fun _ _ hs hst => hs.evolves hst, fun _ hs => hs.sound.grounded, fun _ => .inl trivial⟩
  have hreliable : (host solver fuel depth).Reliable (¬ solver.Quiet) := by
    by_cases hquiet : solver.Quiet
    · exact fun edge s => (reliable_of_quiet hquiet fuel depth edge s).mono False.elim
    · exact fun edge s => (reliable_host solver fuel depth edge s).mono fun _ => hquiet
  exact ⟨hadmits, Policy.free_lenient solver,
    hosts_deliver_of_lenient hadmits (Policy.free_lenient solver) fuel depth, hreliable, htable⟩

/-- In a session that has grown from another, a query ends as foreseen there. -/
theorem Session.Tidy.foresees_ask {solver : Solver σ} {table : ExitTable}
    (htable : ∀ state, solver.table state = table) {s t : Session (σ × List AnalysisError)}
    (hst : s.Grows t) (ht : t.Tidy) {e : EngineId} (hconnected : (s.engine e).connected = true)
    (halone : (s.engine e).fallback = none) (fuel depth : Nat) (direction : Direction)
    (site : CallSite) :
    Foreseen (¬ solver.Quiet) (t.ask solver fuel depth e direction site)
      (s.answerOf table fuel e direction site) := by
  have hquiet : solver.recording.Quiet ↔ solver.Quiet :=
    ⟨fun h state edge => h (state, []) edge, fun h state edge => h state.1 edge⟩
  have hsteady := Engine.steady_host solver.recording fuel depth fun state => htable state.1
  rw [hquiet] at hsteady
  rw [← hst.answerOf]
  exact Engine.foresees_query hsteady fuel ht ((hst.engine e).connected.trans hconnected)
    ((hst.engine e).fallback.trans halone)

/-- The answer of a connected engine without fallback depends on the statement, the
direction and the path asked about. Whatever else was asked or reported before, and
in whatever context the solver asks, the answers have the same paths, or are the
same error; they are the same in all if the facts asked about are. If fuel runs out,
nothing is said, except that a solver that reports nothing at once cannot make a
difference to that. -/
theorem answers_ignore_history_and_context (solver : Solver σ)
    (fixed : ∀ state state', solver.endSummary state = solver.endSummary state')
    (hierarchy : Hierarchy) (program : Program) (bodies : Bodies) (state : σ)
    (engines : List (SummaryStore × Options × Option EngineId)) (fuel depth : Nat)
    (setup : List (Request σ)) (e : EngineId) (ready : Session (σ × List AnalysisError))
    (begun : ((Session.start hierarchy program bodies (state, [])
      (Session.created engines)).perform solver fuel depth setup).2 = ready)
    (connected : (ready.engine e).connected = true) (alone : (ready.engine e).fallback = none)
    (history history' : List (Request σ)) (used : ∀ request ∈ history, request.isUse = true)
    (used' : ∀ request ∈ history', request.isUse = true) (direction : Direction)
    (site site' : CallSite) (stmt : site'.stmt = site.stmt)
    (path : site'.fact.path = site.fact.path) (m k m' k' : Nat) :
    let first := (ready.perform solver fuel depth history).2.ask solver m k e direction site
    let second := (ready.perform solver fuel depth history').2.ask solver m' k' e direction site'
    (Ended first → Ended second → answerPaths second = answerPaths first ∧
        (site'.fact = site.fact → second = first)) ∧
      (solver.Quiet → m' = m → answerPaths second = answerPaths first) := by
  intro first second
  have htable : ∀ other, solver.table other = solver.table state := by
    intro other
    funext m seed
    show (solver.endSummary other m seed).getD [] = (solver.endSummary state m seed).getD []
    rw [fixed other state]
  have hready : ready.Tidy :=
    begun ▸ (Session.tidy_start hierarchy program bodies _ engines).perform solver fuel depth setup
  have hfirst : Foreseen (¬ solver.Quiet) first _ :=
    (hready.perform solver fuel depth history).foresees_ask htable
      (.perform hready solver fuel depth used) connected alone m k direction site
  have hsecond : Foreseen (¬ solver.Quiet) second _ :=
    (hready.perform solver fuel depth history').foresees_ask htable
      (.perform hready solver fuel depth used') connected alone m' k' direction site'
  refine ⟨fun hended hended' => ?_, fun hquiet hfuel => ?_⟩
  · -- with the larger amount of fuel both are what is foreseen
    have hone := hfirst.eq_of_ended hended
    have htwo := hsecond.eq_of_ended hended'
    rw [← ready.answerOf_mono _ (Nat.le_max_left m m') (hone ▸ hended)] at hone
    rw [← ready.answerOf_mono _ (Nat.le_max_right m m') (htwo ▸ hended')] at htwo
    rw [hone, htwo]
    exact ready.paths_answerOf _ stmt path _ e direction
  · rw [hfirst.eq_of_not fun hnot => hnot hquiet, hsecond.eq_of_not fun hnot => hnot hquiet, hfuel]
    exact (ready.paths_answerOf _ stmt path m e direction).1

namespace Sample

/-- A solver that knows from the start that the callback returns its parameter. -/
def returning : Solver (List PathEdge) :=
  recorder fun m seed => if m = ⟨2⟩ then some [⟨⟨3⟩, seed⟩] else none

def ready : Session (List PathEdge × List AnalysisError) :=
  ((Session.start hierarchy program Bodies.empty ([], []) (Session.created stores)).perform
    returning 20 5 [.connect 0]).2

/-- The call was asked about before, and the callback was left once more. -/
def past : List (Request (List PathEdge)) :=
  [.query 0 .forward site, .exit ⟨.ofPath (localPath 4 true), ⟨3⟩, .ofPath (localPath 4 true)⟩]

/-- The same call, asked about in another context. -/
def elsewhere : CallSite := { site with context := .ofPath (localPath 2 true) }

/-- What the callback returns is assigned to `r`, also after the call was asked about
and in another context. -/
theorem answer_elsewhere_after_past :
    answerPaths ((ready.perform returning 20 5 past).2.ask returning 20 5 0 .forward elsewhere) =
      .ok (some [localPath 1 false, localPath 2 true]) := by
  have hfirst : (answerPaths (ready.ask returning 20 5 0 .forward site)).toOption =
      some (some [localPath 1 false, localPath 2 true]) := by decide +kernel
  have hsame := (answers_ignore_history_and_context returning (fun _ _ => rfl) hierarchy program
    Bodies.empty [] stores 20 5 [.connect 0] 0 ready rfl (by decide +kernel) (by decide +kernel) []
    past (fun _ h => absurd h List.not_mem_nil) (by decide +kernel) .forward site elsewhere rfl rfl
    20 5 20 5).2 (fun _ _ => rfl) rfl
  exact hsame.trans (eq_ok_of_toOption hfirst)

end Sample

end TaintReplay
