import TaintReplay.Proofs.Rounds

/-!
# Changes that rounds do not see

Treating a propagator reads the program, the hierarchy, the loaded bodies, the
arenas and what the engine has looked up. It does not read the options of engines,
nor what a solver has put on record. A change to such a part of the session is
*unseen*: a program that runs after it has the same outcome, and leaves the session
that the change makes of the one it would have left (`Run.Ignores`).

The limit on steps is read once, before the first round. Changing it is unseen by
the rounds, so replays with different limits go through the same rounds.

## Main results

* `Engine.ignores_expand`: treating a propagator ignores unseen changes.
* `Replay.after_changed`, `Replay.ends_of_changed`: a replay after an unseen change goes through
  the same rounds and ends in the same way.
-/

namespace TaintReplay

variable {σ α β : Type}

/-! ## Programs that ignore a change -/

namespace Run

/-- Whether the session was changed before or is changed after the program ran makes
no difference. -/
def Ignores (change : Session σ → Session σ) (x : Run σ α) : Prop :=
  ∀ s, x.exec (change s) = ((x.exec s).1, change (x.exec s).2)

namespace Ignores

variable {change : Session σ → Session σ}

protected theorem pure (a : α) : Ignores change (pure a : Run σ α) := fun _ => rfl

protected theorem fail (e : AnalysisError) : Ignores change (fail e : Run σ α) := fun _ => rfl

protected theorem ofExcept (x : Except AnalysisError α) :
    Ignores change (Run.ofExcept x : Run σ α) := by
  cases x with
  | ok a => exact .pure a
  | error e => exact .fail e

protected theorem modify {g : Session σ → Session σ} (hg : ∀ s, g (change s) = change (g s)) :
    Ignores change (modify g : Run σ PUnit) :=
  fun s => congrArg (Prod.mk _) (hg s)

protected theorem bind {x : Run σ β} {f : β → Run σ α} (hx : Ignores change x)
    (hf : ∀ b, Ignores change (f b)) : Ignores change (x >>= f) := by
  intro s
  rw [exec_bind, exec_bind, hx s]
  rcases x.exec s with ⟨outcome, t⟩
  cases outcome with
  | ok b => exact hf b t
  | error e => rfl

/-- A program may read what the change leaves alone. -/
protected theorem get_bind {f : Session σ → Run σ α} (hsame : ∀ s, f (change s) = f s)
    (hf : ∀ s, Ignores change (f s)) : Ignores change (get >>= f) := by
  intro s
  rw [exec_get_bind, exec_get_bind, hsame]
  exact hf s s

protected theorem map {x : Run σ β} (g : β → α) (hx : Ignores change x) :
    Ignores change (g <$> x) := by
  rw [map_eq_pure_bind]
  exact hx.bind fun b => .pure _

protected theorem mapM {f : β → Run σ α} (hf : ∀ b, Ignores change (f b)) (xs : List β) :
    Ignores change (xs.mapM f) := by
  induction xs with
  | nil => exact .pure _
  | cons x xs ih =>
      rw [List.mapM_cons]
      exact (hf x).bind fun _ => ih.bind fun _ => .pure _

protected theorem forM {f : β → Run σ PUnit} (hf : ∀ b, Ignores change (f b)) (xs : List β) :
    Ignores change (xs.forM f) := by
  induction xs with
  | nil => exact .pure _
  | cons x xs ih => exact (hf x).bind fun _ => ih

end Ignores

end Run

/-! ## Unseen changes -/

/-- A change of sessions that the rounds of a replay do not see: it leaves alone what
they read, and it can be made before or after what they write. -/
structure Session.Unseen (change : Session σ → Session σ) : Prop where
  program : ∀ s, (change s).program = s.program
  hierarchy : ∀ s, (change s).hierarchy = s.hierarchy
  bodies : ∀ s, (change s).bodies = s.bodies
  arenas : ∀ s, (change s).arenas = s.arenas
  history : ∀ s, (change s).history = s.history
  store : ∀ s e, ((change s).engine e).store = (s.engine e).store
  memo : ∀ s e, ((change s).engine e).memo = (s.engine e).memo
  setHierarchy : ∀ s hierarchy, { change s with hierarchy } = change { s with hierarchy }
  setBodies : ∀ s bodies, { change s with bodies } = change { s with bodies }
  setArenas : ∀ s arenas, { change s with arenas } = change { s with arenas }
  setHistory : ∀ s history, { change s with history } = change { s with history }
  learn : ∀ s e memo, (change s).modifyEngine e (fun engine => { engine with memo }) =
    change (s.modifyEngine e fun engine => { engine with memo })
  wait : ∀ s e seed c,
    (change s).modifyEngine e (fun engine =>
        { engine with waiting := engine.waiting.put seed c }) =
      change (s.modifyEngine e fun engine => { engine with waiting := engine.waiting.put seed c })

/-- A host that does not see a change either. -/
structure Host.Ignores (change : Session σ → Session σ) (host : Host σ) : Prop where
  deliver : ∀ edge, Run.Ignores change (host.deliver edge)
  endSummary : ∀ s, host.solver.endSummary (change s).solver = host.solver.endSummary s.solver

open Run

namespace Session.Unseen

variable {change : Session σ → Session σ}

theorem arena (h : Unseen change) (s : Session σ) (a : Nat) : (change s).arena a = s.arena a := by
  rw [Session.arena, Session.arena, h.arenas]

theorem ignores_report (h : Unseen change) (event : Event) :
    Ignores change (report event : Run σ Unit) := by
  refine .modify fun s => ?_
  rw [h.history, h.setHistory]

theorem ignores_reportIf (h : Unseen change) (c : Bool) (event : Event) :
    Ignores change (reportIf c event : Run σ Unit) := by
  cases c with
  | true => exact h.ignores_report event
  | false => exact .pure _

theorem ignores_ensureClass (h : Unseen change) (name : String) :
    Ignores change (ensureClass name : Run σ Unit) := by
  unfold ensureClass
  refine .get_bind (fun s => by rw [h.hierarchy]) fun s => ?_
  split
  · refine .bind (h.ignores_report _) fun _ => .modify fun s => ?_
    rw [h.hierarchy, h.setHierarchy]
  · exact .pure _

theorem ignores_intern (h : Unseen change) (a : Nat) (p : Propagator) :
    Ignores change (intern a p : Run σ PropagatorId) := by
  intro s
  rw [exec_intern, exec_intern, h.arena, h.arenas, h.setArenas]

end Session.Unseen

namespace Engine

open Session (Unseen)

variable {change : Session σ → Session σ}

/-! ## Looking up -/

theorem ignores_lookup (h : Unseen change) (e : EngineId) (classes : OrdSet String)
    (sub : String) : Ignores change (lookup e classes sub : Run σ ClassSummaries) := by
  unfold lookup
  refine .get_bind (fun s => by simp only [h.memo, h.store]) fun s => ?_
  refine .bind (h.ignores_reportIf _ _) fun _ => .bind (.modify fun s => ?_) fun _ => .pure _
  exact h.learn s e _

theorem ignores_lookupTargets (h : Unseen change) (e : EngineId) (targets : OrdSet String)
    (sub : String) : Ignores change (lookupTargets e targets sub : Run σ ClassSummaries) := by
  unfold lookupTargets
  split
  · exact .pure _
  · exact ignores_lookup h e targets sub

theorem ignores_summariesFor (h : Unseen change) (e : EngineId) (stmt : Option StmtId)
    (callee : MethodSignature) :
    Ignores change (summariesFor e stmt callee : Run σ ClassSummaries) := by
  unfold summariesFor
  refine .get_bind (fun s => by simp only [h.program, h.hierarchy]) fun s => ?_
  refine .bind (ignores_lookupTargets h _ _ _) fun found => ?_
  split
  · exact ignores_lookup h _ _ _
  · exact .pure _

theorem ignores_flowsForGap (h : Unseen change) (e : EngineId) (g : Gap) :
    Ignores change (flowsForGap e g : Run σ FlowSet) := by
  have hmethod : ∀ m, Ignores change (flowsForMethod e m : Run σ FlowSet) := by
    intro m
    cases m with
    | none => exact .pure _
    | some m => exact .map _ (ignores_summariesFor h _ _ _)
  unfold flowsForGap
  refine .get_bind (fun s => by simp only [h.program, h.store]) fun s => ?_
  refine .bind (hmethod _) fun flows => ?_
  split
  · split
    · exact .pure _
    · exact .bind (h.ignores_report _) fun _ => .pure _
  · exact .pure _

/-! ## Paths and bodies -/

theorem ignores_resolveFields (h : Unseen change) (t : Taint) :
    Ignores change (resolveFields t : Run σ _) := by
  unfold resolveFields
  refine .bind (.forM h.ignores_ensureClass _) fun _ => ?_
  split
  · exact .pure _
  · exact .bind (h.ignores_report _) fun _ => .pure _

theorem ignores_pathOnCall (h : Unseen change) (t : Taint) (stmt : StmtId) :
    Ignores change (pathOnCall t stmt : Run σ _) := by
  unfold pathOnCall
  refine .get_bind (fun s => by simp only [h.program]) fun s => ?_
  split
  · refine .bind (.ofExcept _) fun base => ?_
    split
    · refine .bind (ignores_resolveFields h t) fun fields => ?_
      split <;> exact .pure _
    · exact .pure _
  · exact .fail _

theorem ignores_pathInside (h : Unseen change) (t : Taint) (m : Method) :
    Ignores change (pathInside t m : Run σ _) := by
  unfold pathInside
  refine .bind (.ofExcept _) fun base => .bind (ignores_resolveFields h t) fun fields => ?_
  split <;> exact .pure _

theorem ignores_ensureBody (h : Unseen change) (m : Method) :
    Ignores change (ensureBody m : Run σ Unit) := by
  unfold ensureBody
  refine .get_bind (fun s => by simp only [h.bodies]) fun s => ?_
  split
  · exact .pure _
  · split
    · exact .fail _
    · refine .bind (h.ignores_report _) fun _ => .bind (h.ignores_report _) fun _ => ?_
      exact .modify fun s => h.setBodies s _

/-! ## Gaps -/

theorem ignores_spawn (h : Unseen change) {host : Host σ} (hhost : host.Ignores change)
    (e : EngineId) (a : Nat) (id : PropagatorId) (p : Propagator) (m : Method) :
    Ignores change (spawn host e a id p m) := by
  unfold spawn
  refine .bind (ignores_ensureBody h m) fun _ => .bind (ignores_pathInside h _ m) fun path => ?_
  split
  · refine .bind (.modify fun s => h.wait s e _ _) fun _ => ?_
    refine .get_bind (fun s => by simp only [h.program]) fun s => ?_
    refine .bind (.forM (fun start => hhost.deliver _) _) fun _ => ?_
    refine .bind (h.ignores_report _) fun _ => .get_bind (fun s => ?_) fun _ => .pure _
    simp only [h.program, h.arena, hhost.endSummary]
  · exact .pure _

theorem ignores_resolveGap (h : Unseen change) {host : Host σ} (hhost : host.Ignores change)
    (e : EngineId) (a : Nat) (id : PropagatorId) (p : Propagator) (gap : Gap) :
    Ignores change (resolveGap host e a id p gap) := by
  unfold resolveGap
  refine .get_bind (fun s => by simp only [h.program, h.hierarchy]) fun s => ?_
  dsimp only
  split
  · exact .bind (h.ignores_report _) fun _ => .pure _
  · refine .bind (.mapM (fun m => ?_) _) fun found => .pure _
    refine .get_bind (fun s => by simp only [h.hierarchy]) fun s => ?_
    split
    · exact ignores_spawn h hhost e a id p m
    · exact .pure _

/-! ## Treating a propagator -/

theorem ignores_internWithInverse (h : Unseen change) (a : Nat) (p : Propagator) :
    Ignores change (internWithInverse a p : Run σ _) := by
  unfold internWithInverse
  refine .bind (h.ignores_intern a p) fun id => ?_
  split
  · exact .bind (h.ignores_intern _ _) fun _ => .pure _
  · exact .pure _

theorem ignores_follow (h : Unseen change) (a : Nat) (id : PropagatorId) (flow : Flow) :
    Ignores change (follow a id flow : Run σ Expansion) := by
  unfold follow
  refine .get_bind (fun s => by simp only [h.hierarchy, h.arena]) fun s => ?_
  split
  · exact .pure _
  · split
    · split
      · refine .bind (ignores_pathOnCall h _ _) fun path => ?_
        split
        · refine .bind (h.ignores_report _) fun _ => ?_
          exact .bind (ignores_internWithInverse h _ _) fun _ => .pure _
        · exact .pure _
      · exact .fail _
    · exact .bind (ignores_internWithInverse h _ _) fun _ => .pure _

theorem ignores_flowsOf (h : Unseen change) {host : Host σ} (hhost : host.Ignores change)
    (e : EngineId) (a : Nat) (flows : FlowSet) (id : PropagatorId) (p : Propagator) :
    Ignores change (flowsOf host e a flows id p) := by
  unfold flowsOf
  split
  · exact .pure _
  · refine .bind (ignores_flowsForGap h e _) fun flows => ?_
    split
    · refine .bind (ignores_resolveGap h hhost e a id p _) fun left => ?_
      exact .bind (.mapM (h.ignores_intern a) left) fun _ => .pure _
    · exact .pure _

/-- Treating a propagator ignores unseen changes. -/
theorem ignores_expand (h : Unseen change) {host : Host σ} (hhost : host.Ignores change)
    (e : EngineId) (a : Nat) (flows : FlowSet) (id : PropagatorId) :
    Ignores change (expand host e a flows id) := by
  unfold expand
  refine .get_bind (fun s => by simp only [h.arena]) fun s => ?_
  dsimp only
  split
  · refine .bind (h.ignores_report _) fun _ => ?_
    split
    · exact .fail _
    · refine .bind (ignores_flowsOf h hhost e a flows id _) fun found => ?_
      exact .bind (.mapM (ignores_follow h a id) _) fun _ => .pure _
  · exact .pure _

end Engine

/-! ## Rounds -/

namespace Replay

variable {change : Session σ → Session σ}

/-- The replay that starts after a change. -/
def changed (x : Replay σ) (change : Session σ → Session σ) : Replay σ :=
  { x with session := change x.session }

/-- A replay after an unseen change goes through the same rounds. -/
theorem after_changed (h : Session.Unseen change) {x : Replay σ} (hhost : x.host.Ignores change)
    (n : Nat) :
    (x.changed change).after n = (x.after n).map fun (f, s) => (f, change s) := by
  induction n with
  | zero => rfl
  | succ n ih =>
      rw [after, after, ih]
      cases x.after n with
      | none => rfl
      | some now =>
          obtain ⟨f, s⟩ := now
          simp only [Option.map_some, Option.bind_some]
          cases f.queue.pop? with
          | none => rfl
          | some next =>
              obtain ⟨id, rest⟩ := next
              simp only [Option.bind_some]
              have hexpand := Engine.ignores_expand h hhost x.engine x.arena x.flows id s
              simp only [changed, hexpand]
              rcases (Engine.expand x.host x.engine x.arena x.flows id).exec s with ⟨outcome, t⟩
              cases outcome <;> rfl

/-- A replay after an unseen change ends as it does without it. -/
theorem ends_of_changed (h : Session.Unseen change) {x : Replay σ} (hhost : x.host.Ignores change)
    {most : Option Nat} {fuel : Nat} {outcome : Except Failure (Option (OrdSet AccessPath))}
    {t : Session σ} (hends : (x.changed change).Ends most fuel outcome t) :
    ∃ u, x.Ends most fuel outcome u ∧ t = change u := by
  have hrounds : ∀ {n f s}, (x.changed change).after n = some (f, s) →
      ∃ u, x.after n = some (f, u) ∧ s = change u := by
    intro n f s hafter
    rw [after_changed h hhost, Option.map_eq_some_iff] at hafter
    obtain ⟨⟨g, u⟩, hafter, heq⟩ := hafter
    cases heq
    exact ⟨u, hafter, rfl⟩
  cases hends with
  | done rounds within fuelled done =>
      obtain ⟨u, hafter, rfl⟩ := hrounds rounds
      exact ⟨u, .done hafter within fuelled done, rfl⟩
  | cutOff rounds reached fuelled waiting =>
      obtain ⟨u, hafter, rfl⟩ := hrounds rounds
      refine ⟨_, .cutOff hafter reached fuelled waiting, ?_⟩
      rw [h.history, h.setHistory]
  | failed rounds within fuelled taken fails =>
      obtain ⟨u, hafter, rfl⟩ := hrounds rounds
      obtain ⟨hfails, rfl⟩ :=
        Prod.mk.inj ((Engine.ignores_expand h hhost _ _ _ _ u).symm.trans fails)
      exact ⟨_, .failed hafter within fuelled taken (Prod.ext hfails rfl), rfl⟩
  | exhausted rounds within waiting =>
      obtain ⟨u, hafter, rfl⟩ := hrounds rounds
      exact ⟨u, .exhausted hafter within waiting, rfl⟩

end Replay

end TaintReplay
