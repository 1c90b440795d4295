import TaintReplay.Proofs.Closure

/-!
# How a replay ends

In each round a replay treats one propagator (`Replay.after`). The rounds do not
depend on the limit on steps or on the fuel; these decide in which round the replay
stops. There are four ways to stop (`Replay.Ends`): the queue is empty, the limit is
reached, a round fails, or the fuel is used up. Every statement about when a replay
ends or what it has found by then is read off the rounds.

## Main results

* `Replay.ends_run`: a replay ends in one of the four ways.
* `Replay.Ends.stops`: a replay with an answer stopped after as many rounds as its limit and its
  fuel allow.
* `Replay.tainted_of_le`: what is tainted after a round stays tainted.
-/

namespace TaintReplay

variable {σ : Type}

/-! ## Counting rounds -/

namespace Frontier

variable {f : Frontier} {limit : Option Nat}

theorem steps_foldl_push (f : Frontier) (ids : List PropagatorId) :
    (ids.foldl push f).steps = f.steps := by
  induction ids generalizing f with
  | nil => rfl
  | cons id ids ih =>
      rw [List.foldl_cons, ih]
      unfold push
      split <;> rfl

@[simp]
theorem steps_advance (rest : Queue PropagatorId) (x : Expansion) :
    (f.advance rest x).steps = f.steps + 1 :=
  steps_foldl_push _ x.successors

theorem isSpent_iff : f.isSpent limit = true ↔ ∃ m ∈ limit, m ≤ f.steps := by
  cases limit <;> simp [isSpent]

theorem tainted_iff {path : AccessPath} :
    f.Tainted path ↔ path ∈ f.collected.getD OrdSet.empty := by
  unfold Tainted
  cases f.collected <;> simp

/-- Whether some propagator waits to be treated. -/
def Waiting (f : Frontier) : Prop := f.queue.toList ≠ []

theorem waiting_of_pop? {id : PropagatorId} {rest : Queue PropagatorId}
    (h : f.queue.pop? = some (id, rest)) : f.Waiting := by
  rw [Waiting, Queue.toList_eq_of_pop? h]
  exact List.cons_ne_nil id rest.toList

theorem not_waiting_of_pop? (h : f.queue.pop? = none) : ¬ f.Waiting :=
  not_not_intro (Queue.pop?_eq_none_iff.1 h)

end Frontier

namespace Replay

variable {x : Replay σ} {n k fuel : Nat} {f g : Frontier} {s t : Session σ} {most : Option Nat}

/-- A further round treats the first propagator of the queue. -/
theorem after_succ_eq_some (h : x.after (n + 1) = some (g, t)) :
    ∃ f s id rest yielded, x.after n = some (f, s) ∧ f.queue.pop? = some (id, rest) ∧
      (Engine.expand x.host x.engine x.arena x.flows id).exec s = (.ok yielded, t) ∧
      g = f.advance rest yielded := by
  rw [after, Option.bind_eq_some_iff] at h
  obtain ⟨⟨f, s⟩, hafter, h⟩ := h
  obtain ⟨⟨id, rest⟩, hpop, h⟩ := Option.bind_eq_some_iff.1 h
  rcases hrun : (Engine.expand x.host x.engine x.arena x.flows id).exec s with ⟨outcome, u⟩
  cases outcome with
  | error failure => simp [hrun] at h
  | ok yielded =>
      simp only [hrun, Option.some.injEq, Prod.mk.injEq] at h
      obtain ⟨rfl, rfl⟩ := h
      exact ⟨f, s, id, rest, yielded, hafter, hpop, hrun, rfl⟩

/-- The work list counts the rounds. -/
theorem steps_after (h : x.after n = some (f, s)) : f.steps = n := by
  induction n generalizing f s with
  | zero =>
      cases h
      rfl
  | succ n ih =>
      obtain ⟨g, t, id, rest, yielded, hafter, -, -, rfl⟩ := after_succ_eq_some h
      rw [Frontier.steps_advance, ih hafter]

/-- A replay that gets somewhere has been everywhere before. -/
theorem after_of_le (h : x.after n = some (f, s)) (hk : k ≤ n) :
    ∃ g t, x.after k = some (g, t) := by
  induction hk generalizing f s with
  | refl => exact ⟨f, s, h⟩
  | step _ ih =>
      obtain ⟨g, t, id, rest, yielded, hafter, -⟩ := after_succ_eq_some h
      exact ih hafter

/-- A replay that went on had something to treat. -/
theorem waiting_of_lt (h : x.after n = some (f, s)) (hk : k < n) (hafter : x.after k = some (g, t)) :
    g.Waiting := by
  obtain ⟨f', s', hnext⟩ := after_of_le h hk
  obtain ⟨g', t', id, rest, yielded, hafter', hpop, -⟩ := after_succ_eq_some hnext
  cases hafter.symm.trans hafter'
  exact Frontier.waiting_of_pop? hpop

/-- What holds of one round after another holds from any round to any later one. -/
theorem rounds_induction {R : Frontier × Session σ → Frontier × Session σ → Prop}
    (refl : ∀ y, R y y) (trans : ∀ {y z w}, R y z → R z w → R y w)
    (step : ∀ k f s id rest yielded t, x.after k = some (f, s) → f.queue.pop? = some (id, rest) →
      (Engine.expand x.host x.engine x.arena x.flows id).exec s = (.ok yielded, t) →
        R (f, s) (f.advance rest yielded, t)) (hk : k ≤ n) (hafter : x.after k = some (g, t))
    (h : x.after n = some (f, s)) : R (g, t) (f, s) := by
  induction hk generalizing f s with
  | refl =>
      cases hafter.symm.trans h
      exact refl _
  | step _ ih =>
      obtain ⟨f', s', id, rest, yielded, hbefore, hpop, hrun, rfl⟩ := after_succ_eq_some h
      exact trans (ih hbefore) (step _ f' s' id rest yielded s hbefore hpop hrun)

/-- What is tainted after a round stays tainted. -/
theorem tainted_of_le (hk : k ≤ n) (hafter : x.after k = some (g, t))
    (h : x.after n = some (f, s)) {path : AccessPath} (hpath : g.Tainted path) : f.Tainted path :=
  rounds_induction (R := fun y z => y.1.Tainted path → z.1.Tainted path) (fun _ h => h)
    (fun hyz hzw h => hzw (hyz h))
    (fun _ _ _ _ _ _ _ _ _ _ h => Frontier.tainted_advance.2 (.inl h)) hk hafter h hpath

/-! ## Ways to end -/

/-- What a replay comes to with some fuel, and the session it leaves. -/
def run (x : Replay σ) (fuel : Nat) : Except Failure (Option (OrdSet AccessPath)) × Session σ :=
  (Engine.replay x.host fuel x.engine x.arena x.flows x.initial).exec x.session

theorem run_of_value {found : Option (OrdSet AccessPath)}
    (h : (x.run fuel).1.toOption = some found) : x.run fuel = (.ok found, (x.run fuel).2) :=
  Run.exec_of_value h

/-- The limit on the number of steps. -/
def limit (x : Replay σ) : Option Nat := (x.session.engine x.engine).options.maxSteps

/-- How a replay ends with a limit and some fuel, and the session it leaves then. -/
inductive Ends (x : Replay σ) (most : Option Nat) (fuel : Nat) :
    Except Failure (Option (OrdSet AccessPath)) → Session σ → Prop where
  /-- Nothing is left to be treated. -/
  | done {n : Nat} {f : Frontier} {s : Session σ} (rounds : x.after n = some (f, s))
      (within : ∀ m ∈ most, n ≤ m) (fuelled : n ≤ fuel) (done : ¬ f.Waiting) :
      Ends x most fuel (.ok f.collected) s
  /-- The limit is reached. -/
  | cutOff {n : Nat} {f : Frontier} {s : Session σ} (rounds : x.after n = some (f, s))
      (reached : most = some n) (fuelled : n ≤ fuel) (waiting : f.Waiting) :
      Ends x most fuel (.ok f.collected)
        { s with history := .cutOff f.steps f.queue.size :: s.history }
  /-- A round fails. -/
  | failed {n : Nat} {f : Frontier} {s t : Session σ} {id : PropagatorId}
      {rest : Queue PropagatorId} {failure : Failure} (rounds : x.after n = some (f, s))
      (within : ∀ m ∈ most, n < m) (fuelled : n < fuel) (taken : f.queue.pop? = some (id, rest))
      (fails : (Engine.expand x.host x.engine x.arena x.flows id).exec s = (.error failure, t)) :
      Ends x most fuel (.error failure) t
  /-- The fuel is used up. -/
  | exhausted {f : Frontier} {s : Session σ} (rounds : x.after fuel = some (f, s))
      (within : ∀ m ∈ most, fuel < m) (waiting : f.Waiting) : Ends x most fuel (.error .outOfFuel) s

/-- A replay with an answer stopped after a number of rounds that its limit and its
fuel allow, and it stopped early only at its limit. -/
theorem Ends.stops {found : Option (OrdSet AccessPath)} (h : x.Ends most fuel (.ok found) t) :
    ∃ k f s, x.after k = some (f, s) ∧ f.collected = found ∧ t.solver = s.solver ∧ k ≤ fuel ∧
      (∀ m ∈ most, k ≤ m) ∧ (f.Waiting → most = some k) := by
  cases h with
  | done rounds within fuelled done =>
      exact ⟨_, _, _, rounds, rfl, rfl, fuelled, within, fun hwaiting => absurd hwaiting done⟩
  | cutOff rounds reached fuelled waiting =>
      refine ⟨_, _, _, rounds, rfl, rfl, fuelled, fun m hm => ?_, fun _ => reached⟩
      cases reached.symm.trans hm
      exact Nat.le_refl _

/-- A replay without an answer had something to treat after a number of rounds that
its limit exceeds, and has got no further than its fuel allows. -/
theorem Ends.stuck {failure : Failure} (h : x.Ends most fuel (.error failure) t) :
    ∃ k f s, x.after k = some (f, s) ∧ f.Waiting ∧ (∀ m ∈ most, k < m) ∧
      (x.after (k + 1) = none ∨ k = fuel) := by
  cases h with
  | failed rounds within fuelled taken fails =>
      refine ⟨_, _, _, rounds, Frontier.waiting_of_pop? taken, within, .inl ?_⟩
      simp only [after, rounds, Option.bind_some, taken, fails]
  | exhausted rounds within waiting => exact ⟨fuel, _, _, rounds, waiting, within, .inr rfl⟩

/-- The outcome of what is left of a replay, with a limit and some fuel. -/
def rest (x : Replay σ) (most : Option Nat) (fuel : Nat) (f : Frontier) (s : Session σ) :
    Except Failure (Option (OrdSet AccessPath)) × Session σ :=
  (Engine.drain (Engine.expand x.host x.engine x.arena x.flows) most fuel f).exec s

/-- From a round on, a replay ends in one of the four ways if it does so from the
next round on. -/
theorem ends_rest_of_next (hafter : x.after n = some (f, s)) (hwithin : ∀ m ∈ most, n ≤ m)
    (hnext : ∀ less g t, fuel = less + 1 → x.after (n + 1) = some (g, t) →
      (∀ m ∈ most, n + 1 ≤ m) →
        x.Ends most (n + fuel) (x.rest most less g t).1 (x.rest most less g t).2) :
    x.Ends most (n + fuel) (x.rest most fuel f s).1 (x.rest most fuel f s).2 := by
  have hsteps := steps_after hafter
  unfold rest Engine.drain
  cases hpop : f.queue.pop? with
  | none => exact .done hafter hwithin (Nat.le_add_right n fuel) (Frontier.not_waiting_of_pop? hpop)
  | some next =>
      obtain ⟨id, rest⟩ := next
      have hwaiting := Frontier.waiting_of_pop? hpop
      by_cases hspent : f.isSpent most = true
      · simp only [if_pos hspent]
        obtain ⟨m, rfl, hm⟩ := Frontier.isSpent_iff.1 hspent
        have hreached : m = n := Nat.le_antisymm (hsteps ▸ hm) (hwithin m rfl)
        exact .cutOff hafter (congrArg some hreached) (Nat.le_add_right n fuel) hwaiting
      · simp only [if_neg hspent]
        have hbelow : ∀ m ∈ most, n < m := fun m hm =>
          Nat.lt_of_not_le fun hle => hspent (Frontier.isSpent_iff.2 ⟨m, hm, hsteps.symm ▸ hle⟩)
        cases fuel with
        | zero => exact .exhausted hafter hbelow hwaiting
        | succ fuel =>
            rw [Run.exec_bind]
            rcases hrun : (Engine.expand x.host x.engine x.arena x.flows id).exec s with
              ⟨outcome, t⟩
            cases outcome with
            | error failure => exact .failed hafter hbelow (by omega) hpop hrun
            | ok yielded => exact hnext fuel _ t rfl (after_succ hafter hpop hrun) hbelow

/-- From any of its rounds on, a replay ends in one of the four ways. -/
theorem ends_rest (hafter : x.after n = some (f, s)) (hwithin : ∀ m ∈ most, n ≤ m) (fuel : Nat) :
    x.Ends most (n + fuel) (x.rest most fuel f s).1 (x.rest most fuel f s).2 := by
  induction fuel generalizing n f s with
  | zero => exact ends_rest_of_next hafter hwithin fun less _ _ hless => by omega
  | succ fuel ih =>
      refine ends_rest_of_next hafter hwithin fun less g t hless hnext hbelow => ?_
      cases hless
      have hends := ih hnext hbelow
      rwa [Nat.add_right_comm] at hends

/-- A replay ends in one of the four ways. -/
theorem ends_run (x : Replay σ) (fuel : Nat) :
    x.Ends x.limit fuel (x.run fuel).1 (x.run fuel).2 := by
  have hends : x.Ends x.limit (0 + fuel) (x.run fuel).1 (x.run fuel).2 :=
    ends_rest rfl (fun m _ => Nat.zero_le m) fuel
  rwa [Nat.zero_add] at hends

end Replay

end TaintReplay
