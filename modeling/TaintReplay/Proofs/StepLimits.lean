import TaintReplay.Proofs.HistoryIndependence
import TaintReplay.Proofs.RecordedRuns
import TaintReplay.Proofs.UnseenChanges

/-!
# Limits on the number of steps

A limit on the number of steps cuts a replay off and does nothing else. The rounds
of a replay do not see its limit, so a replay with a smaller limit goes through the
first rounds of one with a larger limit or none: it has found some of the paths, it
has given the solver the first of the edges, and if the rounds that it is cut off
from were never needed, it has found all paths. In particular it has an answer
whenever the longer one has; a round that fails is not made good by a limit, but a
limit can keep a replay from getting there.

## Main results

* `Session.unseen_limited`: the rounds of a replay do not see its limit.
* `Replay.Ends.truncated`: a replay with a smaller limit stops in an earlier round.
* `step_limits_only_truncate`: limits only truncate.
-/

namespace TaintReplay

variable {σ α : Type}

/-! ## Changing the limit -/

/-- The session in which an engine has another limit on the number of steps. -/
def Session.limited (s : Session σ) (e : EngineId) (most : Option Nat) : Session σ :=
  s.modifyEngine e fun engine => { engine with options := { engine.options with maxSteps := most } }

/-- Two changes to engines can be made in either order if it does not matter for one
engine. -/
theorem Session.modifyEngine_comm (s : Session σ) (e k : EngineId) {f g : Engine → Engine}
    (hfg : f ∘ g = g ∘ f) : (s.modifyEngine e f).modifyEngine k g =
      (s.modifyEngine k g).modifyEngine e f := by
  have hengines : (s.engines.modify e f).modify k g = (s.engines.modify k g).modify e f := by
    by_cases he : e = k
    · subst he
      rw [List.modify_modify_eq, List.modify_modify_eq, hfg]
    · exact List.modify_modify_ne f g s.engines he
  exact congrArg (fun engines => { s with engines }) hengines

/-- The rounds of a replay do not see its limit. -/
theorem Session.unseen_limited (e : EngineId) (most : Option Nat) :
    Session.Unseen fun s : Session σ => s.limited e most where
  program _ := rfl
  hierarchy _ := rfl
  bodies _ := rfl
  arenas _ := rfl
  history _ := rfl
  store s k := by
    rw [limited, engine_modifyEngine]
    split
    · rename_i hk
      rw [hk.1]
    · rfl
  memo s k := by
    rw [limited, engine_modifyEngine]
    split
    · rename_i hk
      rw [hk.1]
    · rfl
  setHierarchy _ _ := rfl
  setBodies _ _ := rfl
  setArenas _ _ := rfl
  setHistory _ _ := rfl
  learn s k _ := modifyEngine_comm s e k rfl
  wait s k _ _ := modifyEngine_comm s e k rfl

/-! ## Edges on record -/

/-- The session in which edges had been given to the solver before. -/
def Session.withPast (past : List PathEdge) (s : Session (σ × List PathEdge)) :
    Session (σ × List PathEdge) :=
  { s with solver := (s.solver.1, s.solver.2 ++ past) }

/-- The rounds of a replay do not see which edges are on record. -/
theorem Session.unseen_withPast (past : List PathEdge) :
    Session.Unseen (Session.withPast (σ := σ) past) where
  program _ := rfl
  hierarchy _ := rfl
  bodies _ := rfl
  arenas _ := rfl
  history _ := rfl
  store _ _ := rfl
  memo _ _ := rfl
  setHierarchy _ _ := rfl
  setBodies _ _ := rfl
  setArenas _ _ := rfl
  setHistory _ _ := rfl
  learn _ _ _ := rfl
  wait _ _ _ _ := rfl

/-- A program that ignores what was on record before adds to the record. -/
theorem Run.Ignores.suffix {x : Run (σ × List PathEdge) α}
    (h : ∀ past, Run.Ignores (Session.withPast past) x) (s : Session (σ × List PathEdge)) :
    s.solver.2 <:+ (x.exec s).2.solver.2 := by
  have hpast := h s.solver.2 { s with solver := (s.solver.1, []) }
  have hsame : Session.withPast s.solver.2 { s with solver := (s.solver.1, []) } = s := rfl
  rw [hsame] at hpast
  rw [hpast]
  exact List.suffix_append _ _

/-! ## Quiet solvers -/

namespace Engine

variable {solver : Solver σ}

/-- A solver that reports nothing at once takes an edge and that is all. -/
theorem exec_deliver_of_quiet (hquiet : solver.Quiet) (fuel depth : Nat) (edge : PathEdge)
    (s : Session σ) : (deliver solver fuel depth edge).exec s =
      (.ok (), { s with solver := (solver.accept s.solver edge).1 }) := by
  have hover : (handOver solver edge).exec s =
      (.ok [], { s with solver := (solver.accept s.solver edge).1 }) := by
    rw [← hquiet s.solver edge]
    rfl
  cases depth with
  | zero =>
      rw [deliver, Run.exec_bind, hover]
      rfl
  | succ depth =>
      rw [deliver, Run.exec_bind, hover]
      rfl

theorem ignores_host {change : Session σ → Session σ} (hquiet : solver.Quiet) (fuel depth : Nat)
    (haccept : ∀ s edge, ({ change s with solver := (solver.accept (change s).solver edge).1 }) =
      change { s with solver := (solver.accept s.solver edge).1 })
    (hexits : ∀ s, solver.endSummary (change s).solver = solver.endSummary s.solver) :
    (host solver fuel depth).Ignores change where
  deliver edge s := by
    have hdeliver : ∀ s, ((host solver fuel depth).deliver edge).exec s = _ :=
      exec_deliver_of_quiet hquiet fuel depth edge
    rw [hdeliver, hdeliver, haccept]
  endSummary := hexits

end Engine

/-! ## Replays cut off -/

namespace Replay

/-- The replay with another limit on the number of steps. -/
def limited (x : Replay σ) (most : Option Nat) : Replay σ :=
  x.changed fun s => s.limited x.engine most

theorem limit_limited {x : Replay σ} (known : x.engine < x.session.engines.length)
    (most : Option Nat) : (x.limited most).limit = most := by
  show ((x.session.limited x.engine most).engine x.engine).options.maxSteps = most
  rw [Session.limited, Session.engine_modifyEngine, if_pos ⟨rfl, known⟩]

variable {x : Replay σ} {most : Option Nat} {fuel n : Nat} {t u : Session σ}
  {found : Option (OrdSet AccessPath)} {outcome : Except Failure (Option (OrdSet AccessPath))}

/-- A replay that has an answer with a limit has one with a smaller limit, and stops in
the same round or earlier. It stops in the same round if it has no more rounds than the
smaller limit allows. -/
theorem Ends.truncated (h : x.Ends most fuel (.ok found) t) (hbelow : ∀ m ∈ most, n ≤ m)
    (h' : x.Ends (some n) fuel outcome u) :
    ∃ k k' f g s v, x.after k = some (f, s) ∧ x.after k' = some (g, v) ∧ k' ≤ k ∧ k' ≤ n ∧
      found = f.collected ∧ outcome = .ok g.collected ∧ t.solver = s.solver ∧
      u.solver = v.solver ∧ (g.Waiting → k' = n) ∧ (x.after (n + 1) = none → k' = k) := by
  obtain ⟨k, f, s, hafter, rfl, hsolver, hfuel, -, hearly⟩ := h.stops
  -- whoever stops with something to treat has gone as far as the smaller limit
  have hfar : f.Waiting → n ≤ k := fun hwaiting => hbelow k (hearly hwaiting)
  cases outcome with
  | error failure =>
      exfalso
      obtain ⟨k', g, v, hafter', hwaiting, hlimit, hstuck⟩ := h'.stuck
      have hlt : k' < n := hlimit n rfl
      have hle : k ≤ k' := by
        rcases hstuck with hnone | rfl
        · refine Nat.le_of_not_lt fun hgt => ?_
          obtain ⟨f', s', hnext⟩ := after_of_le hafter hgt
          cases hnone.symm.trans hnext
        · exact hfuel
      have hwaiting' : f.Waiting := by
        rcases Nat.lt_or_eq_of_le hle with hgt | rfl
        · exact waiting_of_lt hafter' hgt hafter
        · cases hafter.symm.trans hafter'
          exact hwaiting
      exact absurd (hfar hwaiting') (by omega)
  | ok less =>
      obtain ⟨k', g, v, hafter', rfl, hsolver', -, hlimit, hearly'⟩ := h'.stops
      have hn : k' ≤ n := hlimit n rfl
      have hstopped : g.Waiting → k' = n := fun hwaiting => (Option.some.inj (hearly' hwaiting)).symm
      have hle : k' ≤ k := by
        refine Nat.le_of_not_lt fun hgt => ?_
        have := hfar (waiting_of_lt hafter' hgt hafter)
        omega
      refine ⟨k, k', f, g, s, v, hafter, hafter', hle, hn, rfl, rfl, hsolver, hsolver', hstopped, ?_⟩
      intro hnone
      have hmost : k ≤ n := by
        refine Nat.le_of_not_lt fun hgt => ?_
        obtain ⟨f', s', hnext⟩ := after_of_le hafter hgt
        cases hnone.symm.trans hnext
      rcases Nat.lt_or_eq_of_le hle with hgt | heq
      · have := hstopped (waiting_of_lt hafter hgt hafter')
        omega
      · exact heq

/-- Replays do not take edges off the record. -/
theorem record_of_le {x : Replay (σ × List PathEdge)}
    (hpast : ∀ past, x.host.Ignores (Session.withPast past)) {i j : Nat} {f g : Frontier}
    {s v : Session (σ × List PathEdge)} (hij : i ≤ j) (hi : x.after i = some (g, v))
    (hj : x.after j = some (f, s)) : v.solver.2 <:+ s.solver.2 := by
  refine x.rounds_induction (R := fun y z => y.2.solver.2 <:+ z.2.solver.2)
    (fun y => List.suffix_refl _) (fun hyz hzw => hyz.trans hzw) ?_ hij hi hj
  intro k f s id rest yielded t _ _ hrun
  have hadds := Run.Ignores.suffix (fun past => Engine.ignores_expand
    (Session.unseen_withPast past) (hpast past) x.engine x.arena x.flows id) s
  rw [hrun] at hadds
  exact hadds

/-- The replay ends with an answer after treating a number of propagators. -/
def EndsAfter (x : Replay σ) (fuel k : Nat) (found : Option (OrdSet AccessPath)) (t : Session σ) :
    Prop :=
  x.run fuel = (.ok found, t) ∧ ∃ f s, x.after k = some (f, s) ∧ f.steps = k ∧
    f.collected = found ∧ (f.Waiting → x.limit = some k)

/-- The replay treats no more than a number of propagators, however much fuel it has. -/
def TreatsAtMost (x : Replay σ) (n : Nat) : Prop := x.after (n + 1) = none

end Replay

/-- A limit on the number of steps only truncates. If a replay with a limit, or without
one, has an answer, then it has an answer with a smaller limit too. It treats no more
propagators than that limit allows; the paths it finds are among those found with the
larger limit; the edges it gives to the solver, the latest first, are an end of those
given with the larger limit. Nothing is missing if the replay without limit treats no
more propagators. The solver reports nothing at once. -/
theorem step_limits_only_truncate {solver : Solver σ} (quiet : solver.Quiet) {steps depth : Nat}
    (x : Replay (σ × List PathEdge)) (hosted : x.host = Engine.host solver.logging steps depth)
    (known : x.engine < x.session.engines.length) {n : Nat} {most : Option Nat}
    (below : ∀ m ∈ most, n ≤ m) {fuel : Nat} {found : Option (OrdSet AccessPath)}
    {t : Session (σ × List PathEdge)} (run : (x.limited most).run fuel = (.ok found, t)) :
    ∃ k less u, (x.limited (some n)).EndsAfter fuel k less u ∧ k ≤ n ∧
      (∀ path ∈ less.getD OrdSet.empty, path ∈ found.getD OrdSet.empty) ∧
      x.session.solver.2 <:+ u.solver.2 ∧ u.solver.2 <:+ t.solver.2 ∧
      ((x.limited none).TreatsAtMost n → less = found) := by
  have hquiet : solver.logging.Quiet := fun state edge => quiet state.1 edge
  have hlimits : ∀ most, x.host.Ignores fun s => s.limited x.engine most := fun most =>
    hosted ▸ Engine.ignores_host hquiet steps depth (fun _ _ => rfl) fun _ => rfl
  have hpast : ∀ past, x.host.Ignores (Session.withPast past) := fun past =>
    hosted ▸ Engine.ignores_host hquiet steps depth (fun _ _ => rfl) fun _ => rfl
  have hends : ∀ most, ∃ u, x.Ends most fuel ((x.limited most).run fuel).1 u ∧
      ((x.limited most).run fuel).2 = u.limited x.engine most := by
    intro most
    have hends := (x.limited most).ends_run fuel
    rw [x.limit_limited known] at hends
    exact x.ends_of_changed (Session.unseen_limited x.engine most) (hlimits most) hends
  obtain ⟨t', hmost, ht⟩ := hends most
  obtain ⟨u', hless, hu⟩ := hends (some n)
  rw [run] at hmost ht
  obtain ⟨k, k', f, g, s, v, hf, hg, hle, hn, rfl, hok, htsolver, husolver, hearly, hall⟩ :=
    hmost.truncated below hless
  have hrounds : (x.limited (some n)).after k' = some (g, v.limited x.engine (some n)) := by
    rw [Replay.limited, x.after_changed (Session.unseen_limited x.engine (some n)) (hlimits _), hg]
    rfl
  refine ⟨k', g.collected, u'.limited x.engine (some n), ⟨Prod.ext hok hu, g, _, hrounds,
    Replay.steps_after hg, rfl, fun hwaiting => ?_⟩, hn, fun path hpath => ?_, ?_, ?_, fun hnone => ?_⟩
  · rw [x.limit_limited known, hearly hwaiting]
  · exact Frontier.tainted_iff.1 (Replay.tainted_of_le hle hg hf (Frontier.tainted_iff.2 hpath))
  · show x.session.solver.2 <:+ u'.solver.2
    rw [husolver]
    exact Replay.record_of_le hpast (Nat.zero_le k') rfl hg
  · cases ht
    show u'.solver.2 <:+ t'.solver.2
    rw [husolver, htsolver]
    exact Replay.record_of_le hpast hle hg hf
  · rw [Replay.TreatsAtMost, Replay.limited,
      x.after_changed (Session.unseen_limited x.engine none) (hlimits _),
      Option.map_eq_none_iff] at hnone
    cases hall hnone
    cases hf.symm.trans hg
    rfl

namespace Sample

/-- A replay of the library method from its argument, where the solver knows that the
callback returns its parameter and keeps a record of its edges. -/
def recordedReplay : Replay (List PathEdge × List PathEdge) where
  host := Engine.host returning.logging 20 5
  engine := 0
  arena := 0
  flows := flows
  initial := [⟨0⟩]
  session :=
    let taint := (localPath 1 false).toTaint (.parameter (some 0)) none
    { Session.start hierarchy program Bodies.empty ([], []) [engine] with
      arenas := [(Arena.empty.intern (.root taint site false)).2] }

/-- Cut off in the callback, the replay has not found that `r` is tainted. -/
theorem recordedReplay_cut_off :
    ((recordedReplay.limited none).run 20).1.toOption =
        some (some (OrdSet.singleton (localPath 2 true))) ∧
      ∃ k less u, (recordedReplay.limited (some 2)).EndsAfter 20 k less u ∧ k ≤ 2 ∧
        u.solver.2 <:+ ((recordedReplay.limited none).run 20).2.solver.2 ∧ less = none := by
  have hvalue : ((recordedReplay.limited none).run 20).1.toOption =
      some (some (OrdSet.singleton (localPath 2 true))) := by decide +kernel
  have hcut : ((recordedReplay.limited (some 2)).run 20).1.toOption = some none := by
    decide +kernel
  obtain ⟨k, less, u, hends, hk, -, -, hedges, -⟩ := step_limits_only_truncate (n := 2)
    (fun _ _ => rfl) recordedReplay rfl (by decide) (fun m hm => by cases hm)
    (Replay.run_of_value hvalue)
  refine ⟨hvalue, k, less, u, hends, hk, hedges, ?_⟩
  rw [hends.1] at hcut
  exact Option.some.inj hcut

end Sample

end TaintReplay
