import TaintReplay.Proofs.BuiltPrograms
import TaintReplay.Proofs.Exits
import TaintReplay.Proofs.Resumption
import TaintReplay.Solver.Scripted

/-!
# Replays compute least fixed points

A replay works through a queue of interned propagators, and what it finds on the
way depends on the queue, on the arena, on the memos and on what the solver says
when. Its answer does not: without a limit it is what the least set collects that
has the initial stacks, what is left of gaps without flows, and what flows lead
to.

The order in which propagators are queued can matter through the solver alone. If
the same is left of gaps in two replays, they have the same answer.

## Main results

* `Replay.replayed_of_exec`: an answer of a replay is that of its rules.
* `Replay.agreesOnGaps_of_table`: replays agree on gaps if the solver has its answers from a table.
* `replay_answers_least_closure`: the answer of a replay is that of the least closed set, in
  whatever order it starts.
-/

namespace TaintReplay

variable {σ : Type}

namespace Replay

variable {x y : Replay σ} {solver : Solver σ} {fuel depth steps : Nat}
  {res : Option (OrdSet AccessPath)} {t : Session σ}

/-- A replay that can be run: its arenas are grounded, the propagators it starts
from are stored, and it is not limited. -/
structure Ready (x : Replay σ) : Prop where
  grounded : x.session.Grounded
  stored : ∀ id ∈ x.initial, ((x.session.arena x.arena).get? id).isSome = true
  unlimited : (x.session.engine x.engine).options.maxSteps = none

/-- An answer of a replay is that of its rules. -/
theorem replayed_of_exec (hhost : x.host = Engine.host solver fuel depth) (hready : x.Ready)
    (hrun : (Engine.replay x.host steps x.engine x.arena x.flows x.initial).exec x.session =
      (.ok res, t)) :
    (Policy.free solver).Evolves x.session t ∧ x.Replayed (Policy.free solver) res t := by
  have hstored : ∀ id ∈ x.initial, ∃ st, (x.session.arena x.arena).Holds id st := by
    intro id hid
    obtain ⟨p, hp⟩ := Option.isSome_iff_exists.1 (hready.stored id hid)
    exact ⟨_, .of_get? (hready.grounded x.arena) hp⟩
  have hruns := runs_replay (x := x) (Policy.free_admits solver)
    (hhost ▸ Policy.free_hosts solver fuel depth) hready.grounded hstored
    (fun t _ _ => x.mayWait_of_lenient (Policy.free_lenient solver) t) steps
  obtain ⟨hevolves, hreplayed⟩ := hruns.of_ok hrun
  exact ⟨hevolves, hreplayed hready.unlimited⟩

/-- Where both of two replays resolve the gap on top of a stack, the same is left. -/
def AgreesOnGaps (x y : Replay σ) : Prop :=
  ∀ st n s v left n' s' v' left', x.Resolves n st s v left → y.Resolves n' st s' v' left' →
    ∀ out, out ∈ left ↔ out ∈ left'

theorem AgreesOnGaps.symm (h : x.AgreesOnGaps y) : y.AgreesOnGaps x :=
  fun st n s v left n' s' v' left' hx hy out =>
    (h st n' s' v' left' n s v left hy hx out).symm

/-- What one replay reaches another does, if it starts from no less, goes by the
same rules and agrees on gaps. -/
theorem AgreesOnGaps.reach (h : x.AgreesOnGaps y) (hrules : x.rules = y.rules)
    (hstarts : ∀ st, st ∈ x.starts ↔ st ∈ y.starts) {policy : Policy σ}
    (hy : y.Replayed policy res t) {st : Stack} (hst : x.Reach x.Left st) : y.Reach y.Left st := by
  have hinitial : (· ∈ x.starts) = (· ∈ y.starts) := funext fun st => propext (hstarts st)
  rw [Replay.Reach, hrules, hinitial] at hst
  refine hst.of_reached fun top below out _ hreach hun hout => ?_
  -- what is left in the first replay comes from a gap that the second resolved too
  obtain ⟨-, k, s, v, left, -, hresolves, hmem⟩ := hout
  obtain ⟨left', ⟨n, s', v', hresolves', -⟩, hall⟩ := hy.asked top below hreach hun
  exact hall out ((h _ k s v left n s' v' left' hresolves hresolves' out).1 hmem)

theorem AgreesOnGaps.collects (h : x.AgreesOnGaps y) (hrules : x.rules = y.rules)
    (hstarts : ∀ st, st ∈ x.starts ↔ st ∈ y.starts) {policy : Policy σ}
    (hy : y.Replayed policy res t) {path : AccessPath} (hpath : x.Collects x.Left path) :
    y.Collects y.Left path := by
  obtain ⟨st, out, hst, hleads, hsurface, hat⟩ := hpath
  rw [hrules] at hleads hat
  exact ⟨st, out, h.reach hrules hstarts hy hst, hleads, hsurface, hat⟩

/-- Replays that collect the same have the same answer. -/
theorem Replayed.eq_of_collects {policy policy' : Policy σ} (hx : x.Replayed policy res t)
    {res' : Option (OrdSet AccessPath)} {t' : Session σ} (hy : y.Replayed policy' res' t')
    (h : ∀ path, y.Collects y.Left path ↔ x.Collects x.Left path) : res' = res := by
  have hmem : ∀ path, (∃ paths, res' = some paths ∧ path ∈ paths) ↔
      ∃ paths, res = some paths ∧ path ∈ paths :=
    fun path => (hy.mem path).trans ((h path).trans (hx.mem path).symm)
  have hnone : res' = .none ↔ res = .none := by
    rw [hx.none, hy.none]
    exact forall_congr' fun path => not_congr (h path)
  cases res with
  | none => exact hnone.2 rfl
  | some paths =>
    cases res' with
    | none => exact absurd (hnone.1 rfl) (by simp)
    | some paths' =>
      have hpaths : paths' = paths := OrdSet.ext_mem fun path => by simpa using hmem path
      rw [hpaths]

/-- Replays from one session agree on gaps if the solver has its answers from a
table. -/
theorem agreesOnGaps_of_table {table : ExitTable} (htable : ∀ state, solver.table state = table)
    (hsession : y.session = x.session) (hx : x.host = Engine.host solver fuel depth)
    (hy : y.host = Engine.host solver fuel depth) (hreadyX : x.Ready) (hreadyY : y.Ready)
    {resX resY : Option (OrdSet AccessPath)} {steps' : Nat} {t' : Session σ}
    (hrunX : (Engine.replay x.host steps x.engine x.arena x.flows x.initial).exec x.session =
      (.ok resX, t))
    (hrunY : (Engine.replay y.host steps' y.engine y.arena y.flows y.initial).exec y.session =
      (.ok resY, t')) : x.AgreesOnGaps y := by
  intro st n s v left n' s' v' left' hresX hresY out
  have hleft : ∀ (z : Replay σ) (steps : Nat) (res : Option (OrdSet AccessPath)) (t : Session σ),
      z.host = Engine.host solver fuel depth → z.Ready →
      (Engine.replay z.host steps z.engine z.arena z.flows z.initial).exec z.session =
        (.ok res, t) → ∀ n s v left, z.Resolves n st s v left →
      left = z.session.leaves table st := by
    intro z steps res t hz hready hrun n s v left hresolves
    obtain ⟨hevolves, hreplayed⟩ := replayed_of_exec hz hready hrun
    have hlogged := hreplayed.logged (n + 1) n st s v left (Nat.lt_succ_self n) hresolves
    have hresolved : z.Resolved (Policy.free solver) t st left := ⟨n, s, v, hresolves, hlogged⟩
    exact hresolved.eq_leaves (Policy.free_admits solver)
      (hz ▸ Policy.free_hosts solver fuel depth) hready.grounded htable
      (fun _ _ _ _ _ => trivial) hevolves
  rw [hleft x steps resX t hx hreadyX hrunX n s v left hresX,
    hleft y steps' resY t' hy hreadyY hrunY n' s' v' left' hresY, hsession]

end Replay

/-- Without a limit, the answer of a replay is what the least set of stacks
collects that has the initial ones and is closed under the rules, where gaps
without flows lead to what resolving them in the course of the replay left. Every
such gap that is reached has been resolved. In whatever order the replay starts,
the answer is the same as long as the same is left of gaps. -/
theorem replay_answers_least_closure (x : Replay σ) {solver : Solver σ} {fuel depth steps : Nat}
    (hosted : x.host = Engine.host solver fuel depth) (ready : x.Ready)
    {res : Option (OrdSet AccessPath)} {t : Session σ}
    (run : (Engine.replay x.host steps x.engine x.arena x.flows x.initial).exec x.session =
      (.ok res, t)) :
    (res = none ↔ ∀ path, ¬ x.Collects x.Left path) ∧
      (∀ path, path ∈ res.getD OrdSet.empty ↔ x.Collects x.Left path) ∧
      (∀ top below, x.Reach x.Left (top :: below) → x.rules.Unsummarised top →
        ∃ n s v left, x.Resolves n (top :: below) s v left) ∧
      ∀ order steps' res' t', (∀ id, id ∈ order ↔ id ∈ x.initial) →
        x.AgreesOnGaps { x with initial := order } →
        (Engine.replay x.host steps' x.engine x.arena x.flows order).exec x.session =
          (.ok res', t') → res' = res := by
  obtain ⟨-, hx⟩ := x.replayed_of_exec hosted ready run
  have hmem : ∀ path, path ∈ res.getD OrdSet.empty ↔ x.Collects x.Left path := by
    intro path
    rw [← hx.mem path]
    cases res with
    | none => simp
    | some paths => simp
  refine ⟨hx.none, hmem, fun top below hreach hun => ?_, ?_⟩
  · obtain ⟨left, ⟨n, s, v, hresolves, -⟩, -⟩ := hx.asked top below hreach hun
    exact ⟨n, s, v, left, hresolves⟩
  · intro order steps' res' t' horder hagrees run'
    let y : Replay σ := { x with initial := order }
    have hready : y.Ready :=
      ⟨ready.grounded, fun id hid => ready.stored id ((horder id).1 hid), ready.unlimited⟩
    obtain ⟨-, hy⟩ := y.replayed_of_exec hosted hready run'
    have hstarts : ∀ st, st ∈ y.starts ↔ st ∈ x.starts := by
      intro st
      simp only [Replay.starts, List.mem_map]
      exact exists_congr fun id => and_congr_left fun _ => horder id
    exact hx.eq_of_collects hy fun path =>
      ⟨hagrees.symm.collects rfl hstarts hx, hagrees.collects rfl (fun st => (hstarts st).symm) hy⟩

namespace Sample

/-- A replay of the library method from its argument, where the solver knows that
the callback returns its parameter. -/
def replayOfCall : Replay Scripted where
  host := Scripted.host 5
  engine := 0
  arena := 0
  flows := flows
  initial := [⟨0⟩]
  session :=
    let solver := Scripted.empty.setExits ⟨2⟩ [⟨⟨3⟩, .ofPath (localPath 4 true)⟩]
    let taint := (localPath 1 false).toTaint (.parameter (some 0)) none
    { Session.start hierarchy program Bodies.empty solver [engine] with
      arenas := [(Arena.empty.intern (.root taint site false)).2] }

theorem ready_replayOfCall : replayOfCall.Ready where
  grounded a := by
    cases a with
    | zero => exact Arena.grounded_empty.intern fun parent hparent => by cases hparent
    | succ n => exact Arena.grounded_empty
  stored := by decide +kernel
  unlimited := by decide +kernel

/-- What the callback returns is assigned to `r`, and nothing else is tainted. -/
theorem replayOfCall_collects : replayOfCall.Ready ∧
    (∃ t, (Engine.replay replayOfCall.host 20 replayOfCall.engine replayOfCall.arena
      replayOfCall.flows replayOfCall.initial).exec replayOfCall.session =
        (.ok (some (OrdSet.singleton (localPath 2 true))), t)) ∧
    ∀ path, replayOfCall.Collects replayOfCall.Left path ↔ path = localPath 2 true := by
  have hvalue : ((Engine.replay replayOfCall.host 20 replayOfCall.engine replayOfCall.arena
      replayOfCall.flows replayOfCall.initial).exec replayOfCall.session).1.toOption =
        some (some (OrdSet.singleton (localPath 2 true))) := by decide +kernel
  have hrun := Run.exec_of_value hvalue
  refine ⟨ready_replayOfCall, ⟨_, hrun⟩, fun path => ?_⟩
  have hmem := (replay_answers_least_closure replayOfCall rfl ready_replayOfCall hrun).2.1 path
  rw [← hmem]
  exact OrdSet.mem_singleton

end Sample

end TaintReplay
