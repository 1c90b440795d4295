import Mathlib.Logic.Relation
import TaintReplay.Proofs.Derivations
import TaintReplay.Proofs.Growth
import TaintReplay.Proofs.Runs

/-!
# What engines do to a session

Whatever engines do is made of a few kinds of steps, listed in `Policy.Step`.
Most of them are open to every program: to report, to mention a class, to
remember, to load a body, to intern what is derived, to count. Three are up to
a `Policy`: which replays may wait, which edges the solver may be given, and
which errors it may be told of; a wider policy permits more. Which errors
programs may fail with is up to it too. A replay only waits for a seed if it has
a reason to, which `Session.Awaits` states.

Every step lets the session grow and keeps it sound: arenas stay stacked, call
sites stay at calls, and waiting replays stay in a gap.

## Main results

* `Policy.Step.grows`, `Policy.Step.grounded`, `Policy.Step.sound`: what one step preserves.
* `Policy.Evolves.grows`, `Policy.Evolves.grounded`, `Policy.Evolves.sound`: what runs preserve.
-/

namespace TaintReplay

variable {σ : Type}

/-! ## Places without a session -/

/-- The fields of a taint, if all of them can be read. -/
def Taint.fields? (t : Taint) : Option (List PathField) :=
  match (readFields t.path).error with
  | none => some (readFields t.path).fields
  | some _ => none

/-- The access path a taint stands for at a call, if it stands for one. -/
def Program.pathOnCall (p : Program) (t : Taint) (s : StmtId) :
    Except AnalysisError (Option AccessPath) :=
  match p.stmt? s with
  | none => .error (.notACall s)
  | some stmt =>
    (stmt.localOnCall t).map fun base =>
      base.bind fun l => t.fields?.map fun fields => t.toPath l fields t.subFields

/-- The access path a taint stands for inside a method, if it stands for one. -/
def Method.pathInside (m : Method) (t : Taint) : Except AnalysisError (Option AccessPath) :=
  (m.localInside t).map fun base => t.fields?.map fun fields => t.toPath base fields true

/-- The methods of the program that may run in a gap. -/
def Session.gapMethods (s : Session σ) (gap : Gap) : List Method :=
  match (s.program.findMethod? gap.signature).bind s.program.method? with
  | none => []
  | some callee => (s.program.implementors s.hierarchy callee).toList.filterMap s.program.method?

/-! ## Reasons -/

/-- The statement is a call. -/
def Session.IsCall (s : Session σ) (stmt : StmtId) : Prop := (s.program.call? stmt).isSome = true

/-- A replay has a reason to wait for a seed: its propagator is in a gap without
flows, the method may run there and can be entered, and the seed is the taint
seen from inside. -/
structure Session.Awaits (s : Session σ) (e : EngineId) (seed : Seed) (c : Continuation)
    (p : Propagator) (gap : Gap) (m : Method) : Prop where
  stored : (s.arena c.arena).get? c.id = some p
  inGap : p.gap = some gap
  unsummarised : (s.gapFlows e gap).isEmpty = true
  method : m ∈ s.gapMethods gap
  enterable : Engine.canEnter s.hierarchy m = true
  id : m.id = seed.method
  path : m.pathInside p.taint = .ok (some seed.path)

/-- A replay is entered as waiting with an engine, if there is that engine. -/
def Session.Registered (t : Session σ) (e : EngineId) (seed : Seed) (c : Continuation) : Prop :=
  e < t.engines.length → (t.engine e).waiting.contains seed c = true

/-- The edge gives the solver a seed that a replay waits for. -/
def Session.Seeds (s : Session σ) (edge : PathEdge) : Prop :=
  ∃ e seed c p gap m, s.Awaits e seed c p gap m ∧ s.Registered e seed c ∧
    edge.target ∈ s.program.startPoints seed.method ∧
    edge.context = .ofPath seed.path ∧ edge.fact = .ofPath seed.path

/-- All arenas are grounded. -/
def Session.Grounded (s : Session σ) : Prop := ∀ a, (s.arena a).Grounded

/-- All arenas are stacked, call sites are at calls, and what waits is in a gap. -/
structure Session.Sound (s : Session σ) : Prop where
  stacked : ∀ a, (s.arena a).Stacked
  calls : ∀ a id p site, (s.arena a).get? id = some p → p.site = some site → s.IsCall site.stmt
  waiting : ∀ e seed c, (s.engine e).waiting.contains seed c = true →
    ∃ p, (s.arena c.arena).get? c.id = some p ∧ p.gap.isSome = true

theorem Session.Sound.grounded {s : Session σ} (h : s.Sound) : s.Grounded :=
  fun a => (h.stacked a).grounded

/-! ## Steps -/

/-- What is left open about the steps of programs. -/
structure Policy (σ : Type) where
  solver : Solver σ
  /-- Replays of an engine that may wait. -/
  waits : Session σ → EngineId → Continuation → Prop
  /-- Edges that the solver may be given. -/
  sends : Session σ → PathEdge → Prop
  /-- Errors that programs may fail with. -/
  errors : AnalysisError → Prop
  /-- Errors that the solver may be told of. -/
  tells : AnalysisError → Prop

namespace Policy

/-- The policy that permits everything. -/
def free (solver : Solver σ) : Policy σ :=
  ⟨solver, fun _ _ _ => True, fun _ _ => True, fun _ => True, fun _ => True⟩

/-- Every replay may wait, every edge may be sent and every error may be told that
programs may fail with. -/
structure Lenient (policy : Policy σ) : Prop where
  waits : ∀ s e c, policy.waits s e c
  sends : ∀ s edge, policy.sends s edge
  tells : ∀ e, policy.errors e → policy.tells e

theorem free_lenient (solver : Solver σ) : (free solver).Lenient :=
  ⟨fun _ _ _ => trivial, fun _ _ => trivial, fun _ _ => trivial⟩

/-- The steps that programs of the engine are made of. -/
inductive Step (policy : Policy σ) : Session σ → Session σ → Prop
  | report (s : Session σ) (event : Event) : Step policy s { s with history := event :: s.history }
  | mention (s : Session σ) (name : String) :
      Step policy s { s with hierarchy := s.hierarchy.ensure name }
  | learn (s : Session σ) (e : EngineId) (key : LookupKey) :
      Step policy s
        (s.modifyEngine e fun engine => { engine with memo := (s.engine e).learn key })
  | load (s : Session σ) (bodies : Bodies) : Step policy s { s with bodies }
  | count (s : Session σ) (e : EngineId) (hits misses : Engine → Nat) :
      Step policy s
        (s.modifyEngine e fun engine =>
          { engine with hits := hits engine, misses := misses engine })
  | openArena (s : Session σ) : Step policy s { s with arenas := s.arenas ++ [Arena.empty] }
  | intern (s : Session σ) {a : Nat} {q : Propagator} (known : a < s.arenas.length)
      (derived : (s.arena a).Derives s.IsCall q) :
      Step policy s { s with arenas := s.arenas.set a ((s.arena a).intern q).2 }
  | wait (s : Session σ) {e : EngineId} {seed : Seed} {c : Continuation} {p : Propagator}
      {gap : Gap} {m : Method} (awaits : s.Awaits e seed c p gap m)
      (permitted : policy.waits s e c) :
      Step policy s
        (s.modifyEngine e fun engine => { engine with waiting := engine.waiting.put seed c })
  | send (s : Session σ) {edge : PathEdge} (permitted : policy.sends s edge) :
      Step policy s { s with solver := (policy.solver.accept s.solver edge).1 }
  | reject (s : Session σ) {e : AnalysisError} (permitted : policy.tells e) :
      Step policy s { s with solver := policy.solver.reject s.solver e }

/-- Steps in any number. -/
abbrev Evolves (policy : Policy σ) : Session σ → Session σ → Prop :=
  Relation.ReflTransGen policy.Step

/-- What programs may do under a policy. -/
def law (policy : Policy σ) : Law σ where
  step := policy.Evolves
  errors := policy.errors
  refl _ := .refl
  trans := .trans

variable {policy : Policy σ} {s t : Session σ}

theorem Step.free (h : policy.Step s t) : (Policy.free policy.solver).Step s t := by
  cases h with
  | report event => exact .report s event
  | mention name => exact .mention s name
  | learn e key => exact .learn s e key
  | load bodies => exact .load s bodies
  | count e hits misses => exact .count s e hits misses
  | openArena => exact .openArena s
  | intern known derived => exact .intern s known derived
  | wait awaits => exact .wait s awaits trivial
  | send => exact .send s trivial
  | reject => exact .reject s trivial

/-- What can be done under a policy can be done if everything is permitted. -/
theorem Evolves.free (h : policy.Evolves s t) : (Policy.free policy.solver).Evolves s t :=
  Relation.ReflTransGen.mono (fun _ _ => Step.free) _ _ h

/-! ## What one step preserves -/

/-- Nothing but the solver, the loaded bodies and the history has changed. -/
theorem grows_of_same (program : t.program = s.program) (hierarchy : t.hierarchy = s.hierarchy)
    (listener : t.listener = s.listener) (engines : t.engines = s.engines)
    (arenas : t.arenas = s.arenas) : s.Grows t where
  program := program
  hierarchy := ⟨[], hierarchy⟩
  listener := listener
  engines := by rw [engines]
  engine e := by
    rw [Session.engine, Session.engine, engines]
    exact .refl _
  arenas := Nat.le_of_eq (by rw [arenas])
  arena a := by
    rw [Session.arena, Session.arena, arenas]
    exact .refl _

/-- An engine that changes in one place of the session grows if it does there. -/
theorem grows_modifyEngine (s : Session σ) (e : EngineId) {f : Engine → Engine}
    (hf : e < s.engines.length → (s.engine e).Grows (f (s.engine e))) :
    s.Grows (s.modifyEngine e f) where
  program := rfl
  hierarchy := ⟨[], rfl⟩
  listener := rfl
  engines := by simp [Session.modifyEngine]
  engine k := by
    rw [Session.engine_modifyEngine]
    split
    · rename_i hk
      obtain ⟨rfl, hlt⟩ := hk
      exact hf hlt
    · exact .refl _
  arenas := Nat.le_refl _
  arena a := .refl _

theorem grows_setArena (s : Session σ) {a : Nat} (known : a < s.arenas.length) {arena : Arena}
    (hw : (s.arena a).Within arena) : s.Grows { s with arenas := s.arenas.set a arena } where
  program := rfl
  hierarchy := ⟨[], rfl⟩
  listener := rfl
  engines := rfl
  engine _ := .refl _
  arenas := by simp
  arena k := by
    rw [Session.arena_set s a k arena known]
    split
    · rename_i hk
      exact hk ▸ hw
    · exact .refl _

theorem arena_openArena (s : Session σ) (a : Nat) :
    ({ s with arenas := s.arenas ++ [Arena.empty] } : Session σ).arena a = s.arena a := by
  show ((s.arenas ++ [Arena.empty])[a]?).getD Arena.empty = (s.arenas[a]?).getD Arena.empty
  by_cases ha : a < s.arenas.length
  · rw [List.getElem?_append_left ha]
  · rw [List.getElem?_append_right (Nat.le_of_not_lt ha),
      List.getElem?_eq_none (l := s.arenas) (Nat.le_of_not_lt ha)]
    cases a - s.arenas.length with
    | zero => rfl
    | succ n => rfl

theorem Step.grows (h : policy.Step s t) : s.Grows t := by
  cases h with
  | report event => exact grows_of_same rfl rfl rfl rfl rfl
  | mention name =>
      exact ⟨rfl, ⟨[name], rfl⟩, rfl, rfl, fun _ => .refl _, Nat.le_refl _, fun _ => .refl _⟩
  | learn e key =>
      refine grows_modifyEngine s e fun _ => ?_
      exact ⟨rfl, rfl, rfl, rfl, rfl, fun classes sub => Engine.found_learn _ key classes sub,
        fun _ _ => id⟩
  | load bodies => exact grows_of_same rfl rfl rfl rfl rfl
  | count e hits misses =>
      exact grows_modifyEngine s e fun _ =>
        ⟨rfl, rfl, rfl, rfl, rfl, fun _ _ => rfl, fun _ _ => id⟩
  | openArena =>
      exact ⟨rfl, ⟨[], rfl⟩, rfl, rfl, fun _ => .refl _, by simp,
        fun a => by rw [arena_openArena]; exact .refl _⟩
  | intern known derived => exact grows_setArena s known (Arena.within_intern _ _)
  | wait awaits permitted =>
      refine grows_modifyEngine s _ fun _ => ?_
      exact ⟨rfl, rfl, rfl, rfl, rfl, fun _ _ => rfl,
        fun seed c hc => (MultiMap.contains_put _ _ _ _ _).2 (.inr hc)⟩
  | send permitted => exact grows_of_same rfl rfl rfl rfl rfl
  | reject permitted => exact grows_of_same rfl rfl rfl rfl rfl

/-- Arenas after a step: those there were, except that one may have taken in what
is derived there. -/
theorem Step.arena (h : policy.Step s t) (a : Nat) :
    t.arena a = s.arena a ∨
      ∃ q, (s.arena a).Derives s.IsCall q ∧ t.arena a = ((s.arena a).intern q).2 := by
  cases h with
  | openArena => exact .inl (arena_openArena s a)
  | intern known derived =>
      rename_i k q
      rw [Session.arena_set s k a _ known]
      split
      · rename_i hk
        subst hk
        exact .inr ⟨q, derived, rfl⟩
      · exact .inl rfl
  | _ => exact .inl rfl

theorem Step.grounded (h : policy.Step s t) (hs : s.Grounded) : t.Grounded := by
  intro a
  rcases h.arena a with heq | ⟨q, hq, heq⟩
  · rw [heq]
    exact hs a
  · rw [heq]
    exact (hs a).intern (hq.hasParent (hs a))

/-- What waits after a step waited before, or has a reason to. -/
theorem Step.waiting (h : policy.Step s t) {e : EngineId} {seed : Seed} {c : Continuation}
    (hc : (t.engine e).waiting.contains seed c = true) :
    (s.engine e).waiting.contains seed c = true ∨
      policy.waits s e c ∧ ∃ p gap m, s.Awaits e seed c p gap m := by
  cases h with
  | learn k key =>
      rw [Session.engine_modifyEngine] at hc
      split at hc
      · rename_i hk
        exact .inl (hk.1 ▸ hc)
      · exact .inl hc
  | count k hits misses =>
      rw [Session.engine_modifyEngine] at hc
      split at hc
      · rename_i hk
        exact .inl (hk.1 ▸ hc)
      · exact .inl hc
  | wait awaits permitted =>
      rename_i k seed' c' p gap m
      rw [Session.engine_modifyEngine] at hc
      split at hc
      · rename_i hk
        obtain ⟨rfl, -⟩ := hk
        rcases (MultiMap.contains_put _ _ _ _ _).1 hc with ⟨rfl, rfl⟩ | hold
        · exact .inr ⟨permitted, p, gap, m, awaits⟩
        · exact .inl hold
      · exact .inl hc
  | _ => exact .inl hc

theorem Step.sound (h : policy.Step s t) (hs : s.Sound) : t.Sound where
  stacked a := by
    rcases h.arena a with heq | ⟨q, hq, heq⟩
    · rw [heq]
      exact hs.stacked a
    · rw [heq]
      exact (hs.stacked a).intern hq
  calls a id p site hp hsite := by
    have hcall : s.IsCall site.stmt := by
      rcases h.arena a with heq | ⟨q, hq, heq⟩
      · rw [heq] at hp
        exact hs.calls a id p site hp hsite
      · rw [heq] at hp
        rcases Arena.get?_of_get?_intern hp with hold | ⟨rfl, -⟩
        · exact hs.calls a id p site hold hsite
        · exact hq.site (hs.calls a) hsite
    rw [Session.IsCall, h.grows.program]
    exact hcall
  waiting e seed c hc := by
    rcases h.waiting hc with hold | ⟨-, p, gap, m, hawaits⟩
    · obtain ⟨p, hp, hgap⟩ := hs.waiting e seed c hold
      exact ⟨p, h.grows.get? hp, hgap⟩
    · exact ⟨p, h.grows.get? hawaits.stored, by rw [hawaits.inGap]; rfl⟩

/-! ## What runs preserve -/

theorem Evolves.grows (h : policy.Evolves s t) : s.Grows t := by
  induction h with
  | refl => exact .refl _
  | tail _ hstep ih => exact ih.trans hstep.grows

theorem Evolves.grounded (h : policy.Evolves s t) (hs : s.Grounded) : t.Grounded := by
  induction h with
  | refl => exact hs
  | tail _ hstep ih => exact hstep.grounded ih

theorem Evolves.sound (h : policy.Evolves s t) (hs : s.Sound) : t.Sound := by
  induction h with
  | refl => exact hs
  | tail _ hstep ih => exact hstep.sound ih

/-- What growth keeps, runs keep. -/
theorem stable_of_grows {P : Session σ → Prop} (h : ∀ ⦃s t⦄, s.Grows t → P s → P t) :
    policy.law.Stable P :=
  fun _ _ hs hst => h (Evolves.grows hst) hs

end Policy

/-! ## Reasons later -/

theorem Session.Serves.gapMethods {s t : Session σ} (h : s.Serves t) (gap : Gap) :
    t.gapMethods gap = s.gapMethods gap := by
  simp only [Session.gapMethods, h.program, fun m => h.program ▸ h.implementors m]

namespace Session.Grows

variable {s t : Session σ}

theorem gapMethods (h : s.Grows t) (gap : Gap) : t.gapMethods gap = s.gapMethods gap :=
  h.serves.gapMethods gap

theorem awaits (h : s.Grows t) {e : EngineId} {seed : Seed} {c : Continuation} {p : Propagator}
    {gap : Gap} {m : Method} (ha : s.Awaits e seed c p gap m) : t.Awaits e seed c p gap m where
  stored := h.get? ha.stored
  inGap := ha.inGap
  unsummarised := by rw [h.gapFlows]; exact ha.unsummarised
  method := by rw [h.gapMethods]; exact ha.method
  enterable := by rw [h.canEnter]; exact ha.enterable
  id := ha.id
  path := ha.path

theorem seeds (h : s.Grows t) {edge : PathEdge} (hs : s.Seeds edge) : t.Seeds edge := by
  obtain ⟨e, seed, c, p, gap, m, hawaits, hregistered, htarget, hcontext, hfact⟩ := hs
  refine ⟨e, seed, c, p, gap, m, h.awaits hawaits, ?_, ?_, hcontext, hfact⟩
  · intro he
    exact (h.engine e).waiting seed c (hregistered (h.engines ▸ he))
  · rw [h.program]
    exact htarget

end Session.Grows

/-! ## Sessions that have just begun -/

namespace Session

/-- Soundness is about the program, the arenas and what waits. -/
theorem Sound.of_same {s t : Session σ} (h : s.Sound) (program : t.program = s.program)
    (arena : ∀ a, t.arena a = s.arena a)
    (waiting : ∀ e, (t.engine e).waiting = (s.engine e).waiting) : t.Sound where
  stacked a := arena a ▸ h.stacked a
  calls a id p site hp hsite := by
    rw [arena] at hp
    rw [Session.IsCall, program]
    exact h.calls a id p site hp hsite
  waiting e seed c hc := by
    rw [waiting] at hc
    rw [arena]
    exact h.waiting e seed c hc

/-- Changing engines in other respects changes nothing that waits. -/
theorem waiting_modifyEngine (s : Session σ) (e k : EngineId) {f : Engine → Engine}
    (hf : ∀ engine, (f engine).waiting = engine.waiting) :
    ((s.modifyEngine e f).engine k).waiting = (s.engine k).waiting := by
  rw [Session.engine_modifyEngine]
  split
  · rename_i hk
    rw [hf, hk.1]
  · rfl

/-- Engines that were just created. -/
def created (engines : List (SummaryStore × Options × Option EngineId)) : List Engine :=
  engines.map fun (store, options, fallback) => Engine.create store options fallback

/-- In a session that has just begun nothing waits. -/
theorem waiting_start (hierarchy : Hierarchy) (program : Program) (bodies : Bodies) (state : σ)
    (engines : List (SummaryStore × Options × Option EngineId)) (e : EngineId) :
    ((Session.start hierarchy program bodies state (created engines)).engine e).waiting =
      MultiMap.empty := by
  show (((created engines)[e]?).getD default).waiting = _
  rw [created, List.getElem?_map]
  cases engines[e]? <;> rfl

/-- A session that has just begun is sound. -/
theorem sound_start (hierarchy : Hierarchy) (program : Program) (bodies : Bodies) (state : σ)
    (engines : List (SummaryStore × Options × Option EngineId)) :
    (Session.start hierarchy program bodies state (created engines)).Sound where
  stacked a := Arena.stacked_empty
  calls a id p site hp := by
    have hempty : Arena.empty.get? id = some p := hp
    rw [Arena.get?_eq] at hempty
    cases hempty
  waiting e seed c hc := by
    rw [waiting_start] at hc
    cases hc

end Session

end TaintReplay
