import TaintReplay.Proofs.BuiltPrograms
import TaintReplay.Proofs.Queries
import TaintReplay.Solver.Scripted

/-!
# Stacks stay in order

A propagator is in a gap exactly if it has a parent and exactly if it has no call
site, and parents are older than the propagators that name them. This holds in
every arena that was filled by the four kinds of propagators a replay makes
(`Arena.grown`).

Sessions inherit it. Whatever a host asks of the engines of a session, in whatever
order, and whatever the solver reports while it is given an edge, no engine comes
upon a propagator in a gap that it did not enter from anywhere, on one at the
bottom that belongs to no call, or on a call that is none. The errors that would
tell of these are not returned by a request, and the solver is not told of them
either (`Solver.recording`).

## Main results

* `Arena.stacked_grown`: arenas stay stacked as they fill.
* `Session.Orderly.request`, `Session.Orderly.perform`: what one request and what all preserve.
* `stacks_stay_in_order`: propagators are in order, and internal errors do not occur.
-/

namespace TaintReplay

/-! ## Arenas as they fill -/

namespace Arena

/-- The ways in which a replay fills an arena. -/
inductive Growth where
  | root (t : Taint) (site : CallSite) (inverse : Bool)
  | flow (h : Hierarchy) (flow : Flow) (id : PropagatorId)
  | inverse (id : PropagatorId)
  | leave (id : PropagatorId) (taints : List Taint)

/-- Interns propagators one after the other. -/
def internAll (a : Arena) (props : List Propagator) : Arena :=
  props.foldl (fun b q => (b.intern q).2) a

/-- Fills an arena with what can be made of what it has. -/
def grow (a : Arena) : Growth → Arena
  | .root t site inverse => a.internAll [.root t site inverse]
  | .flow h flow id => a.internAll (h.applyFlow? a flow id).toList
  | .inverse id => a.internAll ((a.get? id).map (·.toInverse)).toList
  | .leave id taints => a.internAll (((a.get? id).map (a.leaveFrame · taints)).getD [])

/-- An arena filled from the start. -/
def grown (steps : List Growth) : Arena := steps.foldl grow empty

variable {a : Arena}

/-- Interning what can be derived keeps an arena stacked. -/
theorem Stacked.internAll {props : List Propagator} (h : a.Stacked)
    (hprops : ∀ q ∈ props, a.Derives (fun _ => True) q) : (a.internAll props).Stacked := by
  induction props generalizing a with
  | nil => exact h
  | cons q props ih =>
      have hnext := h.intern (hprops q List.mem_cons_self)
      refine ih hnext fun other hother => ?_
      exact (hprops other (List.mem_cons_of_mem _ hother)).within (within_intern a q) hnext.grounded

theorem Stacked.grow (h : a.Stacked) (step : Growth) : (a.grow step).Stacked := by
  cases step with
  | root t site inverse =>
      refine h.internAll fun q hq => ?_
      rw [List.mem_singleton.1 hq]
      exact .root t inverse trivial
  | flow hierarchy flow id =>
      refine h.internAll fun q hq => ?_
      exact .flow (Option.mem_toList.1 hq)
  | inverse id =>
      refine h.internAll fun q hq => ?_
      obtain ⟨p, hp, rfl⟩ := Option.map_eq_some_iff.1 (Option.mem_toList.1 hq)
      exact .inverse hp (Propagator.beq_iff_layer.2 ⟨rfl, rfl⟩)
  | leave id taints =>
      refine h.internAll fun q hq => ?_
      cases hp : a.get? id with
      | none =>
          rw [hp] at hq
          cases hq
      | some p =>
          rw [hp] at hq
          obtain ⟨t, -, rfl⟩ := List.mem_map.1 hq
          exact .leave t hp

theorem stacked_grown (steps : List Growth) : (grown steps).Stacked := by
  have hall : ∀ (steps : List Growth) (a : Arena), a.Stacked → (steps.foldl grow a).Stacked := by
    intro steps
    induction steps with
    | nil => exact fun a ha => ha
    | cons step steps ih => exact fun a ha => ih _ (ha.grow step)
  exact hall steps empty stacked_empty

end Arena

/-! ## Solvers that record what they are told -/

variable {σ : Type}

/-- A solver that keeps a record of the errors it is told of, the latest first. -/
def Solver.recording (solver : Solver σ) : Solver (σ × List AnalysisError) where
  endSummary state := solver.endSummary state.1
  accept state edge :=
    let (next, reports) := solver.accept state.1 edge
    ((next, state.2), reports)
  reject state e := (solver.reject state.1 e, e :: state.2)

/-! ## Requests -/

/-- What a host asks of a session, and what else it does in between. -/
inductive Request (σ : Type) where
  | connect (e : EngineId)
  | query (e : EngineId) (direction : Direction) (site : CallSite)
  | exit (r : ExitReport)
  | release (e : EngineId)
  | edit (change : Hierarchy.Edit)
  /-- The solver works on its own. -/
  | work (f : σ → σ)

/-- Carries out a request. -/
def Request.run (solver : Solver σ) (fuel depth : Nat) :
    Request σ → Run (σ × List AnalysisError) Unit
  | connect e => Engine.connect e
  | query e direction site =>
    discard (Engine.query (Engine.host solver.recording fuel depth) fuel e direction site)
  | exit r => discard (Engine.handleExit (Engine.host solver.recording fuel depth) fuel r)
  | release e => modify (·.release e)
  | edit change => modify fun s => (s.editHierarchy change).2
  | work f => modify fun s => { s with solver := (f s.solver.1, s.solver.2) }

/-- Carries out requests one after the other, also after one has failed. Returns
how each of them ended. -/
def Session.perform (solver : Solver σ) (fuel depth : Nat)
    (s : Session (σ × List AnalysisError)) :
    List (Request σ) → List (Except Failure Unit) × Session (σ × List AnalysisError)
  | [] => ([], s)
  | request :: rest =>
    let (outcome, t) := (request.run solver fuel depth).exec s
    let (outcomes, u) := t.perform solver fuel depth rest
    (outcome :: outcomes, u)

/-! ## What requests preserve -/

/-- The policy that permits everything but internal errors. -/
def Policy.orderly (solver : Solver σ) : Policy σ :=
  ⟨solver, fun _ _ _ => True, fun _ _ => True, fun e => ¬ e.IsInternal, fun e => ¬ e.IsInternal⟩

theorem Policy.orderly_lenient (solver : Solver σ) : (Policy.orderly solver).Lenient :=
  ⟨fun _ _ _ => trivial, fun _ _ => trivial, fun _ => id⟩

theorem Policy.orderly_admits (solver : Solver σ) :
    (Policy.orderly solver).Admits Session.Sound where
  stable _ _ hs hst := Policy.Evolves.sound hst hs
  grounded _ hs := hs.grounded
  excused e := by
    by_cases he : e.IsInternal
    · exact .inr ⟨he, fun _ hs => hs⟩
    · exact .inl he

theorem Policy.orderly_hosts (solver : Solver σ) (fuel depth : Nat) :
    (Policy.orderly solver).Hosts Session.Sound (fun _ _ => True)
      (Engine.host solver fuel depth) :=
  Engine.hosts_deliver_of_lenient (Policy.orderly_admits solver) (Policy.orderly_lenient solver)
    fuel depth

/-- The session is sound, and the solver was told of no internal error. -/
structure Session.Orderly (s : Session (σ × List AnalysisError)) : Prop where
  sound : s.Sound
  told : ∀ e ∈ s.solver.2, ¬ e.IsInternal

theorem Policy.Step.orderly {solver : Solver σ} {s t : Session (σ × List AnalysisError)}
    (h : (Policy.orderly solver.recording).Step s t) (hs : s.Orderly) : t.Orderly := by
  refine ⟨h.sound hs.sound, ?_⟩
  cases h with
  | reject permitted =>
      intro e he
      rcases List.mem_cons.1 he with rfl | he
      · exact permitted
      · exact hs.told e he
  | _ => exact hs.told

theorem Policy.Evolves.orderly {solver : Solver σ} {s t : Session (σ × List AnalysisError)}
    (h : (Policy.orderly solver.recording).Evolves s t) (hs : s.Orderly) : t.Orderly := by
  induction h with
  | refl => exact hs
  | tail _ hstep ih => exact hstep.orderly ih

/-- Programs that keep to the policy leave an orderly session, and fail with no
internal error. -/
theorem Session.Orderly.of_meets {s : Session (σ × List AnalysisError)} (hs : s.Orderly)
    (solver : Solver σ) {α : Type} {x : Run (σ × List AnalysisError) α}
    (h : (Policy.orderly solver.recording).law.Meets Session.Sound x fun _ _ => True) :
    (x.exec s).2.Orderly ∧ Satisfies (fun e => ¬ e.IsInternal) (fun _ => True) (x.exec s).1 := by
  obtain ⟨hstep, hout⟩ := h s hs.sound
  exact ⟨Policy.Evolves.orderly hstep hs, hout⟩

/-- Orderliness is about the program, the arenas, what waits and what the solver
was told. -/
theorem Session.Orderly.of_same {s t : Session (σ × List AnalysisError)} (h : s.Orderly)
    (program : t.program = s.program) (arena : ∀ a, t.arena a = s.arena a)
    (waiting : ∀ e, (t.engine e).waiting = (s.engine e).waiting) (told : t.solver.2 = s.solver.2) :
    t.Orderly :=
  ⟨h.sound.of_same program arena waiting, told ▸ h.told⟩

/-- What one request preserves. -/
theorem Session.Orderly.request {s : Session (σ × List AnalysisError)} (h : s.Orderly)
    (solver : Solver σ) (fuel depth : Nat) (request : Request σ) :
    ((request.run solver fuel depth).exec s).2.Orderly ∧
      Satisfies (fun e => ¬ e.IsInternal) (fun _ => True)
        ((request.run solver fuel depth).exec s).1 := by
  have hadmits := Policy.orderly_admits solver.recording
  have hhosts := Policy.orderly_hosts solver.recording fuel depth
  have hlenient := Policy.orderly_lenient solver.recording
  cases request with
  | connect e =>
      rw [Request.run]
      rcases Engine.exec_connect e s with hrun | ⟨names, history, hrun⟩
      · rw [hrun]
        exact ⟨h, id⟩
      · rw [hrun]
        refine ⟨h.of_same rfl (fun _ => rfl) (fun k => ?_) rfl, trivial⟩
        exact s.waiting_modifyEngine e k fun _ => rfl
  | query e direction site =>
      refine h.of_meets solver (Law.Meets.map fun s hs => ?_)
      refine (Engine.runs_query hadmits hhosts fuel hs ?_).weaken fun _ _ _ _ _ => trivial
      exact fun _ _ _ _ _ _ => Engine.mayBegin_of_lenient hlenient _ _
  | exit r =>
      refine h.of_meets solver (Law.Meets.map ?_)
      refine (Engine.meets_handleExit hadmits hhosts fun _ _ _ _ => ?_).weaken fun _ _ _ => trivial
      exact Engine.mayAnswer_of_lenient hlenient fuel r
  | release e =>
      refine ⟨h.of_same rfl (fun _ => rfl) (fun k => ?_) rfl, trivial⟩
      exact s.waiting_modifyEngine e k fun _ => rfl
  | edit change => exact ⟨h.of_same rfl (fun _ => rfl) (fun _ => rfl) rfl, trivial⟩
  | work f => exact ⟨h.of_same rfl (fun _ => rfl) (fun _ => rfl) rfl, trivial⟩

/-- What all requests preserve. -/
theorem Session.Orderly.perform {s : Session (σ × List AnalysisError)} (h : s.Orderly)
    (solver : Solver σ) (fuel depth : Nat) (requests : List (Request σ)) :
    (s.perform solver fuel depth requests).2.Orderly ∧
      ∀ outcome ∈ (s.perform solver fuel depth requests).1,
        Satisfies (fun e => ¬ e.IsInternal) (fun _ => True) outcome := by
  induction requests generalizing s with
  | nil => exact ⟨h, fun _ hout => absurd hout List.not_mem_nil⟩
  | cons request rest ih =>
      obtain ⟨hnext, hfirst⟩ := h.request solver fuel depth request
      obtain ⟨hlast, hrest⟩ := ih hnext
      refine ⟨hlast, fun outcome hout => ?_⟩
      rcases List.mem_cons.1 hout with rfl | hout
      · exact hfirst
      · exact hrest outcome hout

/-! ## Order in every arena and in every session -/

/-- In every arena filled by what replays make, being in a gap, having a parent and
having no call site are one, and parents are older. Whatever is asked of a session
that has just begun, no request ends in an internal error, and the solver is told
of none. -/
theorem stacks_stay_in_order :
    (∀ (steps : List Arena.Growth) (id : PropagatorId) (p : Propagator),
      (Arena.grown steps).get? id = some p →
        (p.gap.isSome = true ↔ p.parent.isSome = true) ∧
        (p.parent.isSome = true ↔ p.site.isNone = true) ∧
        ∀ parent, p.parent = some parent → parent.index < id.index) ∧
    ∀ (σ : Type) (solver : Solver σ) (hierarchy : Hierarchy) (program : Program) (bodies : Bodies)
      (state : σ) (engines : List (SummaryStore × Options × Option EngineId)) (fuel depth : Nat)
      (requests : List (Request σ)),
      let begun := Session.start hierarchy program bodies (state, []) (Session.created engines)
      let ended := begun.perform solver fuel depth requests
      (∀ e, .error (.error e) ∈ ended.1 → ¬ e.IsInternal) ∧
        ∀ e ∈ ended.2.solver.2, ¬ e.IsInternal := by
  refine ⟨fun steps id p hp => ?_, ?_⟩
  · have hstacked := Arena.stacked_grown steps
    have hframed := hstacked.framed hp
    refine ⟨by rw [hframed.gap], by rw [hframed.site], fun parent hparent => ?_⟩
    exact hstacked.grounded hp hparent
  · intro σ solver hierarchy program bodies state engines fuel depth requests
    have hbegun : (Session.start hierarchy program bodies (state, ([] : List AnalysisError))
        (Session.created engines)).Orderly :=
      ⟨Session.sound_start hierarchy program bodies _ engines,
        fun _ he => absurd he List.not_mem_nil⟩
    obtain ⟨hended, houtcomes⟩ := hbegun.perform solver fuel depth requests
    exact ⟨fun e he => houtcomes _ he, hended.told⟩

namespace Sample

/-- The taint of the argument goes into the callback and is turned around there. -/
def filling : List Arena.Growth :=
  [.root ((localPath 1 false).toTaint (.parameter (some 0)) none) site false,
    .flow hierarchy intoCallback ⟨0⟩, .inverse ⟨1⟩]

/-- The solver reports the exit of the callback as soon as it is entered. -/
def eager : Scripted := Scripted.empty.setEager ⟨3⟩ ⟨3⟩

/-- The call is asked about, and the callback is left once more. -/
def requests : List (Request Scripted) :=
  [.connect 0, .query 0 .forward site,
    .exit ⟨.ofPath (localPath 4 true), ⟨3⟩, .ofPath (localPath 4 true)⟩]

def stores : List (SummaryStore × Options × Option EngineId) :=
  [(store, .default, none)]

def begun : Session (Scripted × List AnalysisError) :=
  Session.start hierarchy program Bodies.empty (eager, []) (Session.created stores)

/-- The inverse in the callback is in its gap, has a parent and no call site, and
the requests all end well. -/
theorem callback_in_order :
    (∃ p, (Arena.grown filling).get? ⟨2⟩ = some p ∧ p.inverse = true ∧ p.gap.isSome = true ∧
      p.parent.isSome = true ∧ p.site.isNone = true) ∧
    (begun.perform Scripted.solver 20 5 requests).1.map (·.toOption) = [some (), some (), some ()] ∧
    ∀ e ∈ (begun.perform Scripted.solver 20 5 requests).2.solver.2, ¬ e.IsInternal := by
  have hinverse : (((Arena.grown filling).get? ⟨2⟩).filter fun p =>
      p.inverse && p.gap.isSome).isSome = true := by decide +kernel
  refine ⟨?_, by decide +kernel, ?_⟩
  · obtain ⟨p, hp⟩ := Option.isSome_iff_exists.1 hinverse
    obtain ⟨hstored, htest⟩ := Option.filter_eq_some_iff.1 hp
    obtain ⟨hinverse, hgap⟩ := Bool.and_eq_true_iff.1 htest
    obtain ⟨hparent, hsite, -⟩ := stacks_stay_in_order.1 filling ⟨2⟩ p hstored
    exact ⟨p, hstored, hinverse, hgap, hparent.1 hgap, hsite.1 (hparent.1 hgap)⟩
  · have hordered := stacks_stay_in_order.2 Scripted Scripted.solver hierarchy program Bodies.empty
      eager stores 20 5 requests
    unfold begun
    exact And.right hordered

end Sample

end TaintReplay
