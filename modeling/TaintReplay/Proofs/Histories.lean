import TaintReplay.Proofs.Courses
import TaintReplay.Proofs.StackDiscipline

/-!
# Sessions with a history

What a session has been through before a request matters little to it. Queries and
reports let a session grow. The other requests leave the program, the arenas and
what waits alone (`Session.Keeps`), and so do failures in between. Whatever was
asked of a session that has just begun, its arenas are in order and equal
propagators have one name there (`Session.Tidy`).

## Main results

* `Request.evolves_or_keeps`: what a request does to a session.
* `Request.serves`: as long as the hierarchy is not changed, lookups find what they did.
* `Session.Tidy.perform`: sessions with a history are tidy.
* `Session.Grows.perform`: with queries, reports and the solver's own work a session grows.
-/

namespace TaintReplay

variable {σ : Type}

/-! ## Single requests -/

/-- The program, the arenas, what waits and what the solver was told are the same. -/
structure Session.Keeps (s t : Session (σ × List AnalysisError)) : Prop where
  program : t.program = s.program
  arenas : t.arenas = s.arenas
  waiting : ∀ e, (t.engine e).waiting = (s.engine e).waiting
  told : t.solver.2 = s.solver.2

theorem Session.Keeps.refl (s : Session (σ × List AnalysisError)) : s.Keeps s :=
  ⟨rfl, rfl, fun _ => rfl, rfl⟩

theorem Session.Keeps.arena {s t : Session (σ × List AnalysisError)} (h : s.Keeps t) (a : Nat) :
    t.arena a = s.arena a := by
  rw [Session.arena, Session.arena, h.arenas]

namespace Request

/-- Queries, reports and the solver's own work. -/
def isUse : Request σ → Bool
  | query _ _ _ => true
  | exit _ => true
  | work _ => true
  | _ => false

variable {solver : Solver σ} {fuel depth : Nat} {s : Session (σ × List AnalysisError)}

theorem evolves_query (hs : s.Sound) (e : EngineId) (direction : Direction) (site : CallSite) :
    (Policy.orderly solver.recording).Evolves s
      (((query e direction site).run solver fuel depth).exec s).2 := by
  have hlenient := Policy.orderly_lenient solver.recording
  have hruns : (Policy.orderly solver.recording).law.Meets Session.Sound
      ((query e direction site).run solver fuel depth) fun _ _ => True := by
    refine Law.Meets.map fun s hs => ?_
    refine (Engine.runs_query (Policy.orderly_admits _) (Policy.orderly_hosts _ fuel depth) fuel hs
      ?_).weaken fun _ _ _ _ _ => trivial
    exact fun _ _ _ _ _ _ => Engine.mayBegin_of_lenient hlenient _ _
  exact (hruns s hs).1

theorem evolves_exit (hs : s.Sound) (r : ExitReport) :
    (Policy.orderly solver.recording).Evolves s (((exit r).run solver fuel depth).exec s).2 := by
  have hlenient := Policy.orderly_lenient solver.recording
  have hruns : (Policy.orderly solver.recording).law.Meets Session.Sound
      ((exit r).run solver fuel depth) fun _ _ => True := by
    refine Law.Meets.map ?_
    exact (Engine.meets_handleExit (Policy.orderly_admits _) (Policy.orderly_hosts _ fuel depth)
      fun _ _ _ _ => Engine.mayAnswer_of_lenient hlenient fuel r).weaken fun _ _ _ => trivial
  exact (hruns s hs).1

/-- The solver's own work leaves everything else alone. -/
theorem grows_work (f : σ → σ) :
    s.Grows (((work f).run solver fuel depth).exec s).2 :=
  Policy.grows_of_same rfl rfl rfl rfl rfl

/-- Queries and reports are made of steps, and the other requests leave alone what
these work on. -/
theorem evolves_or_keeps (hs : s.Sound) (request : Request σ) :
    (Policy.orderly solver.recording).Evolves s ((request.run solver fuel depth).exec s).2 ∨
      s.Keeps ((request.run solver fuel depth).exec s).2 := by
  cases request with
  | query e direction site => exact .inl (evolves_query hs e direction site)
  | exit r => exact .inl (evolves_exit hs r)
  | connect e =>
      right
      rw [Request.run]
      rcases Engine.exec_connect e s with hrun | ⟨names, history, hrun⟩
      · rw [hrun]
        exact .refl s
      · rw [hrun]
        exact ⟨rfl, rfl, fun k => s.waiting_modifyEngine e k fun _ => rfl, rfl⟩
  | release e => exact .inr ⟨rfl, rfl, fun k => s.waiting_modifyEngine e k fun _ => rfl, rfl⟩
  | edit change => exact .inr ⟨rfl, rfl, fun _ => rfl, rfl⟩
  | work f => exact .inr ⟨rfl, rfl, fun _ => rfl, rfl⟩

/-- Changes of the hierarchy by the host. -/
def isEdit : Request σ → Bool
  | edit _ => true
  | _ => false

/-- As long as the host does not change the hierarchy, lookups find what they did. -/
theorem serves (hs : s.Sound) {request : Request σ} (hfixed : request.isEdit = false) :
    s.Serves ((request.run solver fuel depth).exec s).2 := by
  cases request with
  | query e direction site => exact (evolves_query hs e direction site).grows.serves
  | exit r => exact (evolves_exit hs r).grows.serves
  | connect e =>
      rw [Request.run]
      rcases Engine.exec_connect e s with hrun | ⟨names, history, hrun⟩
      · rw [hrun]
        exact (Session.Grows.refl s).serves
      · rw [hrun]
        have hconnected := s.serves_modifyEngine e (f := fun engine => { engine with connected := true })
          (fun _ => rfl) (fun _ => rfl) fun _ => rfl
        exact hconnected.trans ⟨rfl, ⟨names, rfl⟩, rfl, fun _ => rfl, fun _ => rfl, fun _ _ _ => rfl⟩
  | release e => exact s.serves_modifyEngine e (fun _ => rfl) (fun _ => rfl) fun _ => rfl
  | edit change => cases hfixed
  | work f => exact (grows_work f).serves

/-- What waits goes on waiting. -/
theorem contains_waiting (hs : s.Sound) (request : Request σ) {e : EngineId} {seed : Seed}
    {c : Continuation} (hc : (s.engine e).waiting.contains seed c = true) :
    ((((request.run solver fuel depth).exec s).2).engine e).waiting.contains seed c = true := by
  rcases evolves_or_keeps hs request with hevolves | hkeeps
  · exact (hevolves.grows.engine e).waiting seed c hc
  · rw [hkeeps.waiting]
    exact hc

/-- Queries, reports and the solver's own work let a session grow. -/
theorem grows_of_isUse (solver : Solver σ) (fuel depth : Nat) (hs : s.Sound)
    {request : Request σ} (huse : request.isUse = true) :
    s.Grows ((request.run solver fuel depth).exec s).2 := by
  cases request with
  | query e direction site => exact (evolves_query hs e direction site).grows
  | exit r => exact (evolves_exit hs r).grows
  | work f => exact grows_work f
  | connect e => cases huse
  | release e => cases huse
  | edit change => cases huse

end Request

/-! ## All requests -/

namespace Session

/-- The session is sound, and equal propagators have one name. -/
structure Tidy (s : Session σ) : Prop where
  sound : s.Sound
  distinct : s.Distinct

theorem tidy_start (hierarchy : Hierarchy) (program : Program) (bodies : Bodies) (state : σ)
    (engines : List (SummaryStore × Options × Option EngineId)) :
    (Session.start hierarchy program bodies state (created engines)).Tidy :=
  ⟨sound_start hierarchy program bodies state engines, fun _ => Arena.distinct_empty⟩

/-- What runs preserve. -/
theorem Tidy.evolves {s t : Session σ} (h : s.Tidy) {policy : Policy σ} (hst : policy.Evolves s t) :
    t.Tidy :=
  ⟨hst.sound h.sound, hst.distinct h.distinct⟩

variable {s : Session (σ × List AnalysisError)}

/-- What one request preserves. -/
theorem Tidy.request (h : s.Tidy) (solver : Solver σ) (fuel depth : Nat) (request : Request σ) :
    (((request.run solver fuel depth).exec s).2).Tidy := by
  rcases Request.evolves_or_keeps h.sound request with hevolves | hkeeps
  · exact h.evolves hevolves
  · refine ⟨h.sound.of_same hkeeps.program hkeeps.arena hkeeps.waiting, fun a => ?_⟩
    rw [hkeeps.arena]
    exact h.distinct a

/-- What all requests preserve. -/
theorem Tidy.perform (h : s.Tidy) (solver : Solver σ) (fuel depth : Nat)
    (requests : List (Request σ)) : (s.perform solver fuel depth requests).2.Tidy := by
  induction requests generalizing s with
  | nil => exact h
  | cons request rest ih => exact ih (h.request solver fuel depth request)

/-- With queries, reports and the solver's own work a session grows. -/
theorem Grows.perform (h : s.Tidy) (solver : Solver σ) (fuel depth : Nat)
    {requests : List (Request σ)} (huse : ∀ request ∈ requests, request.isUse = true) :
    s.Grows (s.perform solver fuel depth requests).2 := by
  induction requests generalizing s with
  | nil => exact .refl s
  | cons request rest ih =>
      have hfirst := Request.grows_of_isUse solver fuel depth h.sound
        (huse request List.mem_cons_self)
      exact hfirst.trans (ih (h.request solver fuel depth request) fun other hother =>
        huse other (List.mem_cons_of_mem _ hother))

/-- What waits goes on waiting, whatever is asked. -/
theorem Tidy.contains_waiting (h : s.Tidy) (solver : Solver σ) (fuel depth : Nat)
    (requests : List (Request σ)) {e : EngineId} {seed : Seed} {c : Continuation}
    (hc : (s.engine e).waiting.contains seed c = true) :
    ((s.perform solver fuel depth requests).2.engine e).waiting.contains seed c = true := by
  induction requests generalizing s with
  | nil => exact hc
  | cons request rest ih =>
      exact ih (h.request solver fuel depth request) (Request.contains_waiting h.sound request hc)

end Session

end TaintReplay
