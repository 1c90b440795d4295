import TaintReplay.Proofs.Expansions

/-!
# The closure a replay computes

The rules of a replay, free of arenas, queues and sessions: `Rules.Reach` is the
least set of stacks that has the initial ones and is closed under resolving gaps
without flows and following the flows of the method on top, and
`Rules.Collects` are the paths that its members taint at the call.

The work list computes both. Its invariant (`Replay.Progress`) says that what was
ever queued is reached, and that what is no longer queued has led to everything
the rules ask for; when the queue is empty, nothing is missing. What the solver
leaves of a gap is not determined by the rules. It is kept as a relation that
grows with every gap that is resolved in the course of the replay.

## Main results

* `Engine.meets_drain`: an invariant of single rounds holds when the queue is empty.
* `Replay.runs_round`: treating a propagator keeps the invariant.
* `Replay.runs_replay`: a replay without limit collects what the rules do.
-/

namespace TaintReplay

variable {σ : Type}

/-! ## Reached stacks -/

namespace Rules

/-- A flow of the method on top leads from a stack to another. -/
def Leads (r : Rules) (st out : Stack) : Prop :=
  ∃ top below flow, st = top :: below ∧ flow ∈ r.flowsFrom top ∧ r.apply flow st = some out

/-- A stack goes on unless it is a taint at the call that stands for no path. -/
def Kept (r : Rules) (out : Stack) : Prop :=
  out.isSurface = true → (r.program.pathAt out).isSome = true

/-- The stacks that a replay gets to from some initial ones, given what is left of
gaps without flows. -/
inductive Reach (r : Rules) (resolved : Stack → Stack → Prop) (initial : Stack → Prop) :
    Stack → Prop
  | start {st : Stack} (h : initial st) : Reach r resolved initial st
  /-- What is left of a gap without flows. -/
  | resolve {top : Layer} {below out : Stack} (h : Reach r resolved initial (top :: below))
      (unsummarised : r.Unsummarised top) (left : resolved (top :: below) out) :
      Reach r resolved initial out
  /-- What a flow leads to. -/
  | follow {st out : Stack} (h : Reach r resolved initial st) (leads : r.Leads st out)
      (kept : r.Kept out) : Reach r resolved initial out
  /-- The inverse of what a flow leads to, where it may have aliases. -/
  | invert {st below : Stack} {top : Layer} (h : Reach r resolved initial st)
      (leads : r.Leads st (top :: below)) (kept : r.Kept (top :: below))
      (may : top.mayAlias = true) : Reach r resolved initial (Stack.invert (top :: below))

/-- The paths that a replay taints at the call. -/
def Collects (r : Rules) (resolved : Stack → Stack → Prop) (initial : Stack → Prop)
    (path : AccessPath) : Prop :=
  ∃ st out, r.Reach resolved initial st ∧ r.Leads st out ∧ out.isSurface = true ∧
    r.program.pathAt out = some path

variable {r : Rules} {resolved other : Stack → Stack → Prop} {initial : Stack → Prop}

/-- What is left of gaps counts where they are reached and have no flows. -/
theorem Reach.of_reached
    (hother : ∀ top below out, r.Reach resolved initial (top :: below) →
      r.Reach other initial (top :: below) → r.Unsummarised top → resolved (top :: below) out →
        other (top :: below) out) {st : Stack}
    (h : r.Reach resolved initial st) : r.Reach other initial st := by
  induction h with
  | start h => exact .start h
  | resolve hst unsummarised left ih =>
      exact .resolve ih unsummarised (hother _ _ _ hst ih unsummarised left)
  | follow _ leads kept ih => exact .follow ih leads kept
  | invert _ leads kept may ih => exact .invert ih leads kept may

/-- The more is left of gaps, the more is reached. -/
theorem Reach.mono (hother : ∀ st out, resolved st out → other st out) {st : Stack}
    (h : r.Reach resolved initial st) : r.Reach other initial st :=
  h.of_reached fun top below out _ _ _ => hother (top :: below) out

theorem Collects.mono (hother : ∀ st out, resolved st out → other st out) {path : AccessPath}
    (h : r.Collects resolved initial path) : r.Collects other initial path := by
  obtain ⟨st, out, hst, hleads, hsurface, hpath⟩ := h
  exact ⟨st, out, hst.mono hother, hleads, hsurface, hpath⟩

/-! ## Yields -/

/-- The stacks that following a flow yields are those gone on with and their
inverses. -/
theorem mem_yield_nexts {st next : Stack} {flow : Flow} :
    next ∈ (r.yield st flow).nexts ↔
      ∃ out, r.apply flow st = some out ∧ r.Kept out ∧ next ∈ out.arrivals := by
  rw [yield]
  cases happlied : r.apply flow st with
  | none => simp
  | some out =>
      simp only [Option.some.injEq, exists_eq_left', yieldOf, Kept]
      by_cases hsurface : out.isSurface = true
      · rw [if_pos hsurface]
        cases hpath : r.program.pathAt out with
        | none => simp [hsurface]
        | some path => simp
      · rw [if_neg hsurface]
        simp [hsurface]

/-- The paths that following a flow yields are those of taints at the call. -/
theorem mem_yield_paths {st : Stack} {flow : Flow} {path : AccessPath} :
    path ∈ (r.yield st flow).paths ↔
      ∃ out, r.apply flow st = some out ∧ out.isSurface = true ∧
        r.program.pathAt out = some path := by
  rw [yield]
  cases happlied : r.apply flow st with
  | none => simp
  | some out =>
      simp only [Option.some.injEq, exists_eq_left', yieldOf]
      by_cases hsurface : out.isSurface = true
      · rw [if_pos hsurface]
        cases hpath : r.program.pathAt out with
        | none => simp
        | some found => simp [hsurface, eq_comm]
      · rw [if_neg hsurface]
        simp [hsurface]

/-- Following the flows on top of a reached stack yields reached stacks. -/
theorem Reach.of_mem_yield {top : Layer} {below next : Stack} {flow : Flow}
    (h : r.Reach resolved initial (top :: below)) (hflow : flow ∈ r.flowsFrom top)
    (hnext : next ∈ (r.yield (top :: below) flow).nexts) : r.Reach resolved initial next := by
  obtain ⟨out, happlied, hkept, harrival⟩ := mem_yield_nexts.1 hnext
  have hleads : r.Leads (top :: below) out := ⟨top, below, flow, rfl, hflow, happlied⟩
  rw [Stack.arrivals] at harrival
  split at harrival
  · rename_i may
    rcases List.mem_cons.1 harrival with rfl | harrival
    · exact .follow h hleads hkept
    · rw [List.mem_singleton.1 harrival]
      cases out with
      | nil => simp at may
      | cons first rest => exact .invert h hleads hkept may
  · rw [List.mem_singleton.1 harrival]
    exact .follow h hleads hkept

/-- A set of stacks that has the initial ones, what is left of its gaps and what
its flows yield has all that is reached. -/
theorem Reach.of_closed {inside : Stack → Prop} (hstart : ∀ st, initial st → inside st)
    (hresolve : ∀ st out, inside st → resolved st out → inside out)
    (hyield : ∀ top below flow next, inside (top :: below) → flow ∈ r.flowsFrom top →
      next ∈ (r.yield (top :: below) flow).nexts → inside next) {st : Stack}
    (h : r.Reach resolved initial st) : inside st := by
  have harrivals : ∀ {st out next}, inside st → r.Leads st out → r.Kept out →
      next ∈ Stack.arrivals out → inside next := by
    rintro _ out next hst ⟨top, below, flow, rfl, hflow, happlied⟩ hkept hnext
    exact hyield top below flow next hst hflow (mem_yield_nexts.2 ⟨out, happlied, hkept, hnext⟩)
  induction h with
  | start h => exact hstart _ h
  | resolve _ _ left ih => exact hresolve _ _ ih left
  | follow _ leads kept ih =>
      refine harrivals ih leads kept ?_
      rw [Stack.arrivals]
      split <;> simp
  | invert _ leads kept may ih =>
      refine harrivals ih leads kept ?_
      simp [Stack.arrivals, may]

end Rules

/-! ## The queue -/

namespace Frontier

/-- The path was tainted so far. -/
def Tainted (f : Frontier) (path : AccessPath) : Prop :=
  ∃ paths, f.collected = some paths ∧ path ∈ paths

theorem mem_seen_push {f : Frontier} {id k : PropagatorId} :
    k ∈ (f.push id).seen ↔ k = id ∨ k ∈ f.seen := by
  unfold push
  split
  · rename_i hseen
    exact ⟨.inr, fun h => h.elim (fun heq => heq ▸ hseen) fun hk => hk⟩
  · simp only [Std.TreeSet.mem_insert, Std.LawfulEqOrd.compare_eq_iff_eq]
    rw [eq_comm]

theorem mem_queue_push {f : Frontier} {id k : PropagatorId} :
    k ∈ (f.push id).queue.toList ↔ k ∈ f.queue.toList ∨ k = id ∧ ¬ id ∈ f.seen := by
  unfold push
  split
  · rename_i hseen
    simp [hseen]
  · rename_i hseen
    simp [hseen]

/-- Queueing some propagators adds those that were never queued. -/
theorem foldl_push (f : Frontier) (ids : List PropagatorId) (k : PropagatorId) :
    (k ∈ (ids.foldl push f).seen ↔ k ∈ f.seen ∨ k ∈ ids) ∧
      (k ∈ (ids.foldl push f).queue.toList ↔ k ∈ f.queue.toList ∨ k ∈ ids ∧ ¬ k ∈ f.seen) := by
  induction ids generalizing f with
  | nil => simp
  | cons id ids ih =>
      obtain ⟨hseen, hqueue⟩ := ih (f.push id)
      rw [List.foldl_cons, hseen, hqueue, mem_seen_push, mem_queue_push, List.mem_cons]
      by_cases hk : k = id
      · subst hk
        constructor <;> grind
      · simp [hk]

theorem collected_foldl_push (f : Frontier) (ids : List PropagatorId) :
    (ids.foldl push f).collected = f.collected := by
  induction ids generalizing f with
  | nil => rfl
  | cons id ids ih =>
      rw [List.foldl_cons, ih]
      unfold push
      split <;> rfl

/-- Paths are added to those there were. -/
theorem collect_eq (old : Option (OrdSet AccessPath)) (paths : List AccessPath) :
    collect old paths =
      if paths = [] then old else some ((old.getD OrdSet.empty).insertAll paths) := by
  induction paths generalizing old with
  | nil => rfl
  | cons path paths ih =>
      show collect (some ((old.getD OrdSet.empty).insert path)) paths = _
      rw [ih, if_neg (List.cons_ne_nil _ _)]
      by_cases hpaths : paths = []
      · subst hpaths
        rfl
      · rw [if_neg hpaths]
        rfl

variable {f : Frontier} {rest : Queue PropagatorId} {x : Expansion}

theorem mem_seen_advance {k : PropagatorId} :
    k ∈ (f.advance rest x).seen ↔ k ∈ f.seen ∨ k ∈ x.successors :=
  (foldl_push _ x.successors k).1

theorem mem_queue_advance {k : PropagatorId} :
    k ∈ (f.advance rest x).queue.toList ↔ k ∈ rest.toList ∨ k ∈ x.successors ∧ ¬ k ∈ f.seen :=
  (foldl_push _ x.successors k).2

theorem tainted_advance {path : AccessPath} :
    (f.advance rest x).Tainted path ↔ f.Tainted path ∨ path ∈ x.collected := by
  unfold Tainted advance
  rw [collected_foldl_push, collect_eq]
  by_cases hx : x.collected = []
  · simp [hx]
  · rw [if_neg hx]
    cases hf : f.collected with
    | none => simp
    | some paths => simp [or_comm]

/-- Once there is a set of paths, it has one. -/
theorem inhabited_advance (h : ∀ paths, f.collected = some paths → ∃ path, path ∈ paths) :
    ∀ paths, (f.advance rest x).collected = some paths → ∃ path, path ∈ paths := by
  intro paths hpaths
  unfold advance at hpaths
  rw [collected_foldl_push, collect_eq] at hpaths
  by_cases hx : x.collected = []
  · rw [if_pos hx] at hpaths
    exact h paths hpaths
  · rw [if_neg hx, Option.some.injEq] at hpaths
    obtain ⟨path, hpath⟩ := List.exists_mem_of_ne_nil _ hx
    exact ⟨path, hpaths ▸ OrdSet.mem_insertAll.2 (.inl hpath)⟩

end Frontier

/-! ## Running the queue -/

/-- What a run of the queue without limit ends with: a frontier with the
invariant, whose queue is empty. -/
def Engine.Drained (I : Frontier → Session σ → Prop) (limit : Option Nat)
    (res : Option (OrdSet AccessPath)) (t : Session σ) : Prop :=
  limit = none → ∃ g, I g t ∧ res = g.collected ∧ g.queue.toList = []

/-- An invariant that treating a propagator keeps holds of what a run of the
queue ends with. -/
theorem Engine.meets_drain {law : Law σ} {treat : PropagatorId → Run σ Expansion}
    {limit : Option Nat} {I : Frontier → Session σ → Prop}
    (hreport : ∀ event s, law.Runs s (Run.report event) fun _ _ => True)
    (hstep : ∀ f id rest s, f.queue.pop? = some (id, rest) → I f s →
      law.Runs s (treat id) fun x t => I (f.advance rest x) t) (fuel : Nat) (f : Frontier) :
    law.Meets (I f) (drain treat limit fuel f) (Drained I limit) := by
  -- one round, given what the rounds after it do
  have hround : ∀ fuel f, (∀ n, fuel = n + 1 → ∀ g,
      law.Meets (I g) (drain treat limit n g) (Drained I limit)) →
      law.Meets (I f) (drain treat limit fuel f) (Drained I limit) := by
    intro fuel f hmore s hs
    unfold drain
    cases hpop : f.queue.pop? with
    | none => exact ⟨law.refl s, fun _ => ⟨f, hs, rfl, Queue.pop?_eq_none_iff.1 hpop⟩⟩
    | some next =>
        obtain ⟨id, rest⟩ := next
        simp only
        by_cases hspent : f.isSpent limit = true
        · rw [if_pos hspent]
          refine (hreport _ s).bind fun _ t _ _ _ => ⟨law.refl t, fun hnone => ?_⟩
          rw [hnone, Frontier.isSpent] at hspent
          cases hspent
        · rw [if_neg hspent]
          cases fuel with
          | zero => exact ⟨law.refl s, trivial⟩
          | succ n =>
              exact (hstep f id rest s hpop hs).bind fun x t _ _ ht =>
                hmore n rfl (f.advance rest x) t ht
  induction fuel generalizing f with
  | zero => exact hround 0 f fun n hn => absurd hn (by omega)
  | succ fuel ih =>
      refine hround (fuel + 1) f fun n hn g => ?_
      have hfuel : fuel = n := by omega
      exact hfuel ▸ ih g

/-! ## The course of a replay -/

/-- A replay: an engine replays flows from some propagators of an arena, starting
in a session. -/
structure Replay (σ : Type) where
  host : Host σ
  engine : EngineId
  arena : Nat
  flows : FlowSet
  initial : List PropagatorId
  session : Session σ

namespace Replay

/-- The rules that a replay goes by. -/
def rules (x : Replay σ) : Rules := x.session.rules x.engine x.flows

/-- The stacks that a replay starts from. -/
def starts (x : Replay σ) : List Stack := x.initial.map (x.session.arena x.arena).stack

/-- The stacks that the rules of a replay lead to, given what is left of gaps. -/
def Reach (x : Replay σ) (resolved : Stack → Stack → Prop) : Stack → Prop :=
  x.rules.Reach resolved (· ∈ x.starts)

/-- The paths that the rules of a replay taint at the call, given what is left of
gaps. -/
def Collects (x : Replay σ) (resolved : Stack → Stack → Prop) : AccessPath → Prop :=
  x.rules.Collects resolved (· ∈ x.starts)

/-- The work list and the session after a number of rounds, if the replay gets that
far. In each round the first propagator of the queue is treated. -/
def after (x : Replay σ) : Nat → Option (Frontier × Session σ)
  | 0 => some (.start x.initial, x.session)
  | n + 1 =>
    (x.after n).bind fun (f, s) =>
      f.queue.pop?.bind fun (id, rest) =>
        match (Engine.expand x.host x.engine x.arena x.flows id).exec s with
        | (.ok found, t) => some (f.advance rest found, t)
        | (.error _, _) => none

/-- In a round the replay takes a propagator from the queue, in a session. -/
def Takes (x : Replay σ) (n : Nat) (id : PropagatorId) (p : Propagator) (s : Session σ) : Prop :=
  ∃ f rest, x.after n = some (f, s) ∧ f.queue.pop? = some (id, rest) ∧
    (s.arena x.arena).get? id = some p

/-- In a round the gap on top of a stack is resolved, and what is left of it in a
session. -/
def Resolves (x : Replay σ) (n : Nat) (st : Stack) (s v : Session σ) (left : List Stack) : Prop :=
  ∃ id p, x.Takes n id p s ∧ (s.arena x.arena).stack id = st ∧
    Engine.Resolves x.host x.engine x.arena id p (Engine.taking s x.arena id p) v left

/-- What was left of gaps in a number of rounds. -/
def LeftBy (x : Replay σ) (n : Nat) (st out : Stack) : Prop :=
  ∃ k s v left, k < n ∧ x.Resolves k st s v left ∧ out ∈ left

/-- What was left of gaps in the course of a replay. -/
def Left (x : Replay σ) (st out : Stack) : Prop := ∃ n, x.LeftBy n st out

/-- In the course of a replay the gap on top of a stack was resolved, all by
permitted steps. -/
def Resolved (x : Replay σ) (policy : Policy σ) (t : Session σ) (st : Stack) (left : List Stack) :
    Prop :=
  ∃ n s v, x.Resolves n st s v left ∧ policy.Evolves x.session s ∧ policy.Evolves v t

theorem Resolved.later {x : Replay σ} {policy : Policy σ} {t u : Session σ} {st : Stack}
    {left : List Stack} (h : x.Resolved policy t st left) (htu : policy.Evolves t u) :
    x.Resolved policy u st left := by
  obtain ⟨n, s, v, hresolves, hsince, hvt⟩ := h
  exact ⟨n, s, v, hresolves, hsince, hvt.trans htu⟩

/-- The gaps of a number of rounds were resolved by permitted steps. -/
def Logged (x : Replay σ) (policy : Policy σ) (n : Nat) (t : Session σ) : Prop :=
  ∀ k st s v left, k < n → x.Resolves k st s v left →
    policy.Evolves x.session s ∧ policy.Evolves v t

theorem Logged.resolved {x : Replay σ} {policy : Policy σ} {n : Nat} {t : Session σ}
    (h : x.Logged policy n t) {st out : Stack} (hout : x.LeftBy n st out) :
    ∃ left, x.Resolved policy t st left ∧ out ∈ left := by
  obtain ⟨k, s, v, left, hk, hresolves, hmem⟩ := hout
  exact ⟨left, ⟨k, s, v, hresolves, h k st s v left hk hresolves⟩, hmem⟩

/-- The gap on top of a stack, if it has no flows, was resolved. -/
def Asked (x : Replay σ) (policy : Policy σ) (t : Session σ) (resolved : Stack → Stack → Prop)
    (top : Layer) (below : Stack) : Prop :=
  x.rules.Unsummarised top → ∃ left, x.Resolved policy t (top :: below) left ∧
    ∀ out ∈ left, resolved (top :: below) out

/-- What a stack leads to was queued, and what it taints was noted. -/
structure Treated (x : Replay σ) (f : Frontier) (t : Session σ) (top : Layer) (below : Stack) :
    Prop where
  nexts : ∀ flow ∈ x.rules.flowsFrom top, ∀ next ∈ (x.rules.yield (top :: below) flow).nexts,
    ∃ id ∈ f.seen, (t.arena x.arena).Holds id next
  paths : ∀ flow ∈ x.rules.flowsFrom top, ∀ path ∈ (x.rules.yield (top :: below) flow).paths,
    f.Tainted path

/-- The work list on its way, after a number of rounds. -/
structure Progress (x : Replay σ) (policy : Policy σ) (n : Nat) (f : Frontier) (t : Session σ) :
    Prop where
  queued : ∀ id ∈ f.queue.toList, id ∈ f.seen
  reached : ∀ id ∈ f.seen, ∃ st, (t.arena x.arena).Holds id st ∧ x.Reach (x.LeftBy n) st
  started : ∀ st ∈ x.starts, ∃ id ∈ f.seen, (t.arena x.arena).Holds id st
  treated : ∀ id ∈ f.seen, id ∈ f.queue.toList ∨ ∃ top below,
    (t.arena x.arena).Holds id (top :: below) ∧ x.Treated f t top below ∧
      x.Asked policy t (x.LeftBy n) top below
  logged : x.Logged policy n t
  left : ∀ st out, x.LeftBy n st out → ∃ id ∈ f.seen, (t.arena x.arena).Holds id out
  sound : ∀ path, f.Tainted path → x.Collects (x.LeftBy n) path
  inhabited : ∀ paths, f.collected = some paths → ∃ path, path ∈ paths

variable {x : Replay σ} {policy : Policy σ} {P : Session σ → Prop}
  {sent : PathEdge → Session σ → Prop} {resolved more : Stack → Stack → Prop} {f g : Frontier}
  {s t : Session σ} {n : Nat} {id : PropagatorId} {rest : Queue PropagatorId}

/-! ## Rounds -/

/-- One round further. -/
theorem after_succ (hafter : x.after n = some (f, s)) (hpop : f.queue.pop? = some (id, rest))
    {found : Expansion}
    (hrun : (Engine.expand x.host x.engine x.arena x.flows id).exec s = (.ok found, t)) :
    x.after (n + 1) = some (f.advance rest found, t) := by
  simp only [after, hafter, Option.bind_some, hpop, hrun]

/-- With an empty queue the replay is over. -/
theorem after_eq_none (hafter : x.after n = some (f, s)) (hempty : f.queue.pop? = none) {k : Nat}
    (hk : n < k) : x.after k = none := by
  induction hk with
  | refl => simp only [after, hafter, Option.bind_some, hempty, Option.bind_none]
  | step _ ih => simp only [after, ih, Option.bind_none]

/-- Only one propagator is taken in a round. -/
theorem Takes.unique {p p' : Propagator} {id' : PropagatorId} {s' : Session σ}
    (h : x.Takes n id p s) (h' : x.Takes n id' p' s') : id = id' ∧ p = p' ∧ s = s' := by
  obtain ⟨f, rest, hafter, hpop, hp⟩ := h
  obtain ⟨f', rest', hafter', hpop', hp'⟩ := h'
  cases hafter.symm.trans hafter'
  cases hpop.symm.trans hpop'
  cases hp.symm.trans hp'
  exact ⟨rfl, rfl, rfl⟩

/-- With an empty queue no further gap is resolved. -/
theorem Resolves.lt (hafter : x.after n = some (f, s)) (hempty : f.queue.pop? = none) {k : Nat}
    {st : Stack} {u v : Session σ} {left : List Stack} (h : x.Resolves k st u v left) : k < n := by
  obtain ⟨id', p', ⟨f', rest', hafter', hpop', -⟩, -⟩ := h
  by_contra hk
  rcases Nat.lt_or_eq_of_le (Nat.le_of_not_lt hk) with hlt | rfl
  · rw [after_eq_none hafter hempty hlt] at hafter'
    cases hafter'
  · cases hafter.symm.trans hafter'
    cases hempty.symm.trans hpop'

/-! ## What rounds preserve -/

/-- Before the first propagator is treated. -/
theorem progress_start (hstored : ∀ id ∈ x.initial, ∃ st, (x.session.arena x.arena).Holds id st) :
    x.Progress policy 0 (.start x.initial) x.session := by
  have hseen : ∀ id, id ∈ (Frontier.start x.initial).seen ↔ id ∈ x.initial := by
    simp [Frontier.start]
  have hqueue : ∀ id, id ∈ (Frontier.start x.initial).queue.toList ↔ id ∈ x.initial := by
    simp [Frontier.start]
  have hheld : ∀ id ∈ x.initial, (x.session.arena x.arena).Holds id
      ((x.session.arena x.arena).stack id) := by
    intro id hid
    obtain ⟨st, hst⟩ := hstored id hid
    exact ⟨rfl, hst.1 ▸ hst.2⟩
  refine ⟨?_, ?_, ?_, ?_, fun k _ _ _ _ hk => absurd hk (Nat.not_lt_zero k), ?_, ?_, ?_⟩
  · exact fun id hid => (hseen id).2 ((hqueue id).1 hid)
  · intro id hid
    have hmem := (hseen id).1 hid
    exact ⟨_, hheld id hmem, .start (List.mem_map_of_mem hmem)⟩
  · intro st hst
    obtain ⟨id, hid, rfl⟩ := List.mem_map.1 hst
    exact ⟨id, (hseen id).2 hid, hheld id hid⟩
  · exact fun id hid => .inl ((hqueue id).2 ((hseen id).1 hid))
  · rintro st out ⟨k, _, _, _, hk, -⟩
    exact absurd hk (Nat.not_lt_zero k)
  · rintro path ⟨paths, hnone, -⟩
    cases hnone
  · intro paths hnone
    cases hnone

/-- What was achieved for a stack stays achieved when more propagators were queued
and more was left of gaps. -/
theorem Treated.mono {top : Layer} {below : Stack} {u : Session σ} (h : x.Treated f t top below)
    (hseen : ∀ st, (∃ id ∈ f.seen, (t.arena x.arena).Holds id st) →
      ∃ id ∈ g.seen, (u.arena x.arena).Holds id st)
    (htainted : ∀ path, f.Tainted path → g.Tainted path) : x.Treated g u top below where
  nexts flow hflow next hnext := hseen next (h.nexts flow hflow next hnext)
  paths flow hflow path hpath := htainted path (h.paths flow hflow path hpath)

theorem Asked.mono {top : Layer} {below : Stack} {u : Session σ}
    (h : x.Asked policy t resolved top below) (htu : policy.Evolves t u)
    (hmore : ∀ st out, resolved st out → more st out) : x.Asked policy u more top below := by
  intro hun
  obtain ⟨left, hresolves, hleft⟩ := h hun
  exact ⟨left, hresolves.later htu, fun out hout => hmore _ out (hleft out hout)⟩

/-- The work list has not changed while the session grew. -/
theorem Progress.later (h : x.Progress policy n f t) {u : Session σ} (hu : u.Grounded)
    (htu : policy.Evolves t u) : x.Progress policy n f u := by
  have hholds : ∀ {id st}, (t.arena x.arena).Holds id st → (u.arena x.arena).Holds id st :=
    fun hst => hst.within (htu.grows.arena x.arena) (hu x.arena)
  have hmember : ∀ st, (∃ id ∈ f.seen, (t.arena x.arena).Holds id st) →
      ∃ id ∈ f.seen, (u.arena x.arena).Holds id st :=
    fun st ⟨id, hseen, hst⟩ => ⟨id, hseen, hholds hst⟩
  refine ⟨h.queued, ?_, ?_, ?_, ?_, ?_, h.sound, h.inhabited⟩
  · intro id hid
    obtain ⟨st, hst, hreach⟩ := h.reached id hid
    exact ⟨st, hholds hst, hreach⟩
  · exact fun st hst => hmember st (h.started st hst)
  · intro id hid
    refine (h.treated id hid).imp_right ?_
    rintro ⟨top, below, hst, htreated, hasked⟩
    exact ⟨top, below, hholds hst, htreated.mono hmember fun _ h => h,
      hasked.mono htu fun _ _ h => h⟩
  · intro k st s v left hk hresolves
    obtain ⟨hxs, hvt⟩ := h.logged k st s v left hk hresolves
    exact ⟨hxs, hvt.trans htu⟩
  · exact fun st out hout => hmember out (h.left st out hout)

/-- A round: a propagator is taken, and what is left of its gap if that has no
flows. -/
structure Round (x : Replay σ) (policy : Policy σ) (n : Nat) (id : PropagatorId) (p : Propagator)
    (below : Stack) (s t : Session σ) (entered : List Stack) : Prop where
  takes : x.Takes n id p s
  stack : (s.arena x.arena).stack id = p.layer :: below
  since : policy.Evolves x.session s
  enters : Engine.Enters policy x.host x.rules x.engine x.arena id p (Engine.taking s x.arena id p)
    t entered

section Round

variable {p : Propagator} {below : Stack} {entered : List Stack}

/-- What was left of gaps one round later. -/
theorem Round.leftBy_iff (h : x.Round policy n id p below s t entered) {st out : Stack} :
    x.LeftBy (n + 1) st out ↔
      x.LeftBy n st out ∨ st = p.layer :: below ∧ out ∈ entered := by
  constructor
  · rintro ⟨k, s', v, left, hk, hresolves, hout⟩
    rcases Nat.lt_succ_iff_lt_or_eq.1 hk with hk | rfl
    · exact .inl ⟨k, s', v, left, hk, hresolves, hout⟩
    · obtain ⟨id', p', htakes, hstack, hresolves⟩ := hresolves
      obtain ⟨rfl, rfl, rfl⟩ := h.takes.unique htakes
      exact .inr ⟨hstack.symm.trans h.stack, (h.enters.eq_of_resolves hresolves).1 ▸ hout⟩
  · rintro (⟨k, s', v, left, hk, hresolves, hout⟩ | ⟨rfl, hout⟩)
    · exact ⟨k, s', v, left, Nat.lt_succ_of_lt hk, hresolves, hout⟩
    · obtain ⟨v, hresolves, -⟩ := h.enters.resolves (h.enters.unsummarised_of_mem hout)
      exact ⟨n, s, v, entered, Nat.lt_succ_self n, ⟨id, p, h.takes, h.stack, hresolves⟩, hout⟩

/-- The gap on top of the stack taken was resolved. -/
theorem Round.asked (h : x.Round policy n id p below s t entered) :
    x.Asked policy t (x.LeftBy (n + 1)) p.layer below := by
  intro hun
  obtain ⟨v, hresolves, hvt⟩ := h.enters.resolves hun
  refine ⟨entered, ⟨n, s, v, ⟨id, p, h.takes, h.stack, hresolves⟩, h.since, hvt⟩, ?_⟩
  exact fun out hout => h.leftBy_iff.2 (.inr ⟨rfl, hout⟩)

theorem Round.logged (h : x.Round policy n id p below s t entered)
    (hlogged : x.Logged policy n t) : x.Logged policy (n + 1) t := by
  intro k st s' v left hk hresolves
  rcases Nat.lt_succ_iff_lt_or_eq.1 hk with hk | rfl
  · exact hlogged k st s' v left hk hresolves
  · obtain ⟨id', p', htakes, -, hresolves⟩ := hresolves
    obtain ⟨rfl, rfl, rfl⟩ := h.takes.unique htakes
    exact ⟨h.since, (h.enters.eq_of_resolves hresolves).2⟩

/-- What a round leads to was reached, by what was left of the gap or by flows. -/
theorem Round.reach (h : x.Round policy n id p below s t entered)
    (hreach : x.Reach (x.LeftBy (n + 1)) (p.layer :: below)) {next : Stack}
    (hnext : next ∈ entered ++ (x.rules.flowsFrom p.layer).flatMap fun flow =>
      (x.rules.yield (p.layer :: below) flow).nexts) : x.Reach (x.LeftBy (n + 1)) next := by
  rcases List.mem_append.1 hnext with hnext | hnext
  · exact .resolve hreach (h.enters.unsummarised_of_mem hnext)
      (h.leftBy_iff.2 (.inr ⟨rfl, hnext⟩))
  · obtain ⟨flow, hflow, hnext⟩ := List.mem_flatMap.1 hnext
    exact Rules.Reach.of_mem_yield hreach hflow hnext

end Round

/-- Treating the first propagator of the queue is progress. What was left of its
gap, if it has no flows, joins what was left of gaps before. -/
theorem Progress.advance (h : x.Progress policy n f s) (hafter : x.after n = some (f, s))
    (hsince : policy.Evolves x.session s) (hpop : f.queue.pop? = some (id, rest)) {top : Layer}
    {below : Stack} (hid : (s.arena x.arena).Holds id (top :: below))
    (hreach : x.Reach (x.LeftBy n) (top :: below)) (hst : policy.Evolves s t) (ht : t.Grounded)
    {found : Expansion}
    (hx : Engine.Expands policy x.host x.rules x.engine x.arena id s top below found t) :
    x.Progress policy (n + 1) (f.advance rest found) t := by
  obtain ⟨p, entered, hp, rfl, henters, hholds, hcollected⟩ := hx
  have hround : x.Round policy n id p below s t entered :=
    ⟨⟨f, rest, hafter, hpop, hp⟩, hid.1, hsince, henters⟩
  have hqueue := Queue.toList_eq_of_pop? hpop
  have hnow := h.later ht hst
  have hmore : ∀ st out, x.LeftBy n st out → x.LeftBy (n + 1) st out :=
    fun st out hout => hround.leftBy_iff.2 (.inl hout)
  have hreach' : x.Reach (x.LeftBy (n + 1)) (p.layer :: below) := hreach.mono hmore
  -- the successors are what was entered and what the flows yield
  have hnamed : ∀ next ∈ entered ++ (x.rules.flowsFrom p.layer).flatMap fun flow =>
      (x.rules.yield (p.layer :: below) flow).nexts,
      ∃ k ∈ (f.advance rest found).seen, (t.arena x.arena).Holds k next := by
    intro next hnext
    obtain ⟨k, hk, hheld⟩ := exists_left_of_forall₂ hholds hnext
    exact ⟨k, Frontier.mem_seen_advance.2 (.inr hk), hheld⟩
  have hold : ∀ st, (∃ k ∈ f.seen, (t.arena x.arena).Holds k st) →
      ∃ k ∈ (f.advance rest found).seen, (t.arena x.arena).Holds k st :=
    fun st ⟨k, hk, hheld⟩ => ⟨k, Frontier.mem_seen_advance.2 (.inl hk), hheld⟩
  have hkept : ∀ path, f.Tainted path → (f.advance rest found).Tainted path :=
    fun path hpath => Frontier.tainted_advance.2 (.inl hpath)
  have htreated : x.Treated (f.advance rest found) t p.layer below := by
    refine ⟨fun flow hflow next hnext => hnamed next ?_, fun flow hflow path hpath => ?_⟩
    · exact List.mem_append_right _ (List.mem_flatMap.2 ⟨flow, hflow, hnext⟩)
    · refine Frontier.tainted_advance.2 (.inr ?_)
      rw [hcollected]
      exact List.mem_flatMap.2 ⟨flow, hflow, hpath⟩
  refine ⟨?_, ?_, ?_, ?_, hround.logged hnow.logged, ?_, ?_,
    Frontier.inhabited_advance h.inhabited⟩
  · intro k hk
    rw [Frontier.mem_seen_advance]
    rcases Frontier.mem_queue_advance.1 hk with hk | hk
    · exact .inl (h.queued k (hqueue ▸ List.mem_cons_of_mem _ hk))
    · exact .inr hk.1
  · intro k hk
    rcases Frontier.mem_seen_advance.1 hk with hk | hk
    · obtain ⟨st, hst, hst'⟩ := hnow.reached k hk
      exact ⟨st, hst, hst'.mono hmore⟩
    · obtain ⟨st, hmem, hst⟩ := exists_right_of_forall₂ hholds hk
      exact ⟨st, hst, hround.reach hreach' hmem⟩
  · exact fun st hst => hold st (hnow.started st hst)
  · intro k hk
    -- the propagator treated is done now, those done before stay so, the others are queued
    by_cases hseen : k ∈ f.seen
    · rcases hnow.treated k hseen with hqueued | ⟨top', below', hst', htreated', hasked'⟩
      · rw [hqueue] at hqueued
        rcases List.mem_cons.1 hqueued with rfl | hrest
        · exact .inr ⟨p.layer, below, hid.within (hst.grows.arena x.arena) (ht x.arena), htreated,
            hround.asked⟩
        · exact .inl (Frontier.mem_queue_advance.2 (.inl hrest))
      · exact .inr ⟨top', below', hst', htreated'.mono hold hkept, hasked'.mono .refl hmore⟩
    · have hnew := (Frontier.mem_seen_advance.1 hk).resolve_left hseen
      exact .inl (Frontier.mem_queue_advance.2 (.inr ⟨hnew, hseen⟩))
  · intro st out hout
    rcases hround.leftBy_iff.1 hout with hbefore | ⟨rfl, hnew⟩
    · exact hold out (hnow.left st out hbefore)
    · exact hnamed out (List.mem_append_left _ hnew)
  · intro path hpath
    rcases Frontier.tainted_advance.1 hpath with hpath | hpath
    · exact (h.sound path hpath).mono hmore
    · rw [hcollected] at hpath
      obtain ⟨flow, hflow, hpath⟩ := List.mem_flatMap.1 hpath
      obtain ⟨out, happlied, hsurface, hpath⟩ := Rules.mem_yield_paths.1 hpath
      exact ⟨_, out, hreach', ⟨p.layer, below, flow, rfl, hflow, happlied⟩, hsurface, hpath⟩

/-- The invariant of a replay: after some rounds it came to the work list and the
session, and the work list is on its way. -/
structure Underway (x : Replay σ) (policy : Policy σ) (n : Nat) (f : Frontier) (t : Session σ) :
    Prop where
  after : x.after n = some (f, t)
  since : policy.Evolves x.session t
  progress : x.Progress policy n f t

/-- Reached propagators of a replay may wait for exits, given what was left of gaps
so far. -/
def MayWait (x : Replay σ) (policy : Policy σ) (t : Session σ) : Prop :=
  ∀ n id st, (t.arena x.arena).Holds id st → x.Logged policy n t → x.Reach (x.LeftBy n) st →
    policy.waits t x.engine ⟨x.arena, id⟩

theorem mayWait_of_lenient (h : policy.Lenient) (x : Replay σ) (t : Session σ) :
    x.MayWait policy t :=
  fun _ id _ _ _ _ => h.waits t x.engine ⟨x.arena, id⟩

/-- While a propagator is treated, all that is known of the work list stays so, and
the propagator stands for the same stack. -/
structure Treating (x : Replay σ) (policy : Policy σ) (n : Nat) (f : Frontier) (id : PropagatorId)
    (st : Stack) (t : Session σ) : Prop where
  since : policy.Evolves x.session t
  progress : x.Progress policy n f t
  held : (t.arena x.arena).Holds id st

theorem admits_treating (h : policy.Admits P) {st : Stack} :
    policy.Admits fun t => P t ∧ x.Treating policy n f id st t := by
  refine h.of_stable ?_
  rintro t u ⟨ht, hnow⟩ htu
  have hgrounded := h.grounded (h.stable ht htu)
  exact ⟨h.stable ht htu, hnow.since.trans htu, hnow.progress.later hgrounded htu,
    hnow.held.within ((Policy.Evolves.grows htu).arena x.arena) (hgrounded x.arena)⟩

/-- The first propagator of the queue stands for a stack that was reached. -/
theorem Underway.treating (h : x.Underway policy n f s) (hpop : f.queue.pop? = some (id, rest)) :
    ∃ top below, x.Reach (x.LeftBy n) (top :: below) ∧
      x.Treating policy n f id (top :: below) s := by
  have hfirst : id ∈ f.queue.toList := Queue.toList_eq_of_pop? hpop ▸ List.mem_cons_self
  obtain ⟨st, hst, hreach⟩ := h.progress.reached id (h.progress.queued id hfirst)
  cases st with
  | nil => exact absurd rfl hst.2
  | cons top below => exact ⟨top, below, hreach, h.since, h.progress, hst⟩

/-- Treating a propagator keeps the invariant. -/
theorem runs_round (h : policy.Admits P) (hhost : policy.Hosts P sent x.host)
    (hwaits : ∀ t, P t → policy.Evolves x.session t → x.MayWait policy t)
    (hpop : f.queue.pop? = some (id, rest)) (hs : P s) (hnow : x.Underway policy n f s) :
    policy.law.Runs s (Engine.expand x.host x.engine x.arena x.flows id) fun found t =>
      P t ∧ x.Underway policy (n + 1) (f.advance rest found) t := by
  obtain ⟨top, below, hreach, htreating⟩ := hnow.treating hpop
  have hexpand := Engine.runs_expand (admits_treating h) hhost.and
    (fun t ht => ht.2.since.grows.rules x.engine x.flows) (fun t ht => ht.2.held)
    (fun t ht => hwaits t ht.1 ht.2.since n id _ ht.2.held ht.2.progress.logged hreach)
    (s := s) ⟨hs, htreating⟩
  refine hexpand.weaken fun found t hrun hstep hx => ?_
  have ht := h.stable hs hstep
  exact ⟨ht, after_succ hnow.after hpop hrun, hnow.since.trans hstep,
    hnow.progress.advance hnow.after hnow.since hpop htreating.held hreach hstep (h.grounded ht) hx⟩

/-! ## A whole replay -/

/-- What a replay without limit ends with: all gaps that were reached have been
asked about, and the paths are those that the rules collect. -/
structure Replayed (x : Replay σ) (policy : Policy σ) (res : Option (OrdSet AccessPath))
    (t : Session σ) : Prop where
  logged : ∀ n, x.Logged policy n t
  asked : ∀ top below, x.Reach x.Left (top :: below) → x.Asked policy t x.Left top below
  mem : ∀ path, (∃ paths, res = some paths ∧ path ∈ paths) ↔ x.Collects x.Left path
  none : res = none ↔ ∀ path, ¬ x.Collects x.Left path

/-- Once the queue is empty nothing is missing. -/
theorem Underway.replayed (h : x.Underway policy n f t) (hempty : f.queue.toList = []) :
    x.Replayed policy f.collected t := by
  obtain ⟨hafter, -, h⟩ := h
  have hover : ∀ {k st s v left}, x.Resolves k st s v left → k < n :=
    fun hresolves => hresolves.lt hafter (Queue.pop?_eq_none_iff.2 hempty)
  have hleft : x.Left = x.LeftBy n := by
    funext st out
    refine propext ⟨?_, fun h => ⟨n, h⟩⟩
    rintro ⟨-, k, s, v, left, -, hresolves, hout⟩
    exact ⟨k, s, v, left, hover hresolves, hresolves, hout⟩
  -- what was ever queued was treated
  have hdone : ∀ id top below, id ∈ f.seen → (t.arena x.arena).Holds id (top :: below) →
      x.Treated f t top below ∧ x.Asked policy t (x.LeftBy n) top below := by
    intro id top below hid hst
    have hnot : ¬ id ∈ f.queue.toList := by
      rw [hempty]
      exact List.not_mem_nil
    obtain ⟨top', below', hst', htreated⟩ := (h.treated id hid).resolve_left hnot
    obtain ⟨rfl, rfl⟩ := List.cons.inj (hst'.1.symm.trans hst.1)
    exact htreated
  have hseen : ∀ st, x.Reach (x.LeftBy n) st → ∃ id ∈ f.seen, (t.arena x.arena).Holds id st := by
    intro st hst
    refine Rules.Reach.of_closed h.started (fun st out _ hout => h.left st out hout) ?_ hst
    rintro top below flow next ⟨id, hid, hheld⟩ hflow hnext
    exact (hdone id top below hid hheld).1.nexts flow hflow next hnext
  have hmem : ∀ path, f.Tainted path ↔ x.Collects (x.LeftBy n) path := by
    refine fun path => ⟨h.sound path, ?_⟩
    rintro ⟨_, out, hst, ⟨top, below, flow, rfl, hflow, happlied⟩, hsurface, hpath⟩
    obtain ⟨id, hid, hheld⟩ := hseen _ hst
    exact (hdone id top below hid hheld).1.paths flow hflow path
      (Rules.mem_yield_paths.2 ⟨out, happlied, hsurface, hpath⟩)
  refine ⟨fun m k st s v left _ hresolves => ?_, ?_, hleft ▸ hmem, ?_⟩
  · exact h.logged k st s v left (hover hresolves) hresolves
  · intro top below hst
    rw [hleft] at hst ⊢
    obtain ⟨id, hid, hheld⟩ := hseen _ hst
    exact (hdone id top below hid hheld).2
  · rw [hleft]
    constructor
    · intro hnone path hpath
      obtain ⟨paths, hsome, -⟩ := (hmem path).2 hpath
      rw [hnone] at hsome
      cases hsome
    · intro hall
      cases hsome : f.collected with
      | none => rfl
      | some paths =>
          obtain ⟨path, hpath⟩ := h.inhabited paths hsome
          exact absurd ((hmem path).1 ⟨paths, hsome, hpath⟩) (hall path)

/-- A replay is made of rounds: whatever these keep to, the replay does, and without
limit it collects what the rules do. -/
theorem runs_replay_of_rounds {law : Law σ}
    (hreport : ∀ event s, law.Runs s (Run.report event) fun _ _ => True)
    (hround : ∀ n f id rest s, f.queue.pop? = some (id, rest) → P s → x.Underway policy n f s →
      law.Runs s (Engine.expand x.host x.engine x.arena x.flows id) fun found t =>
        P t ∧ x.Underway policy (n + 1) (f.advance rest found) t) (hs : P x.session)
    (hstored : ∀ id ∈ x.initial, ∃ st, (x.session.arena x.arena).Holds id st) (fuel : Nat) :
    law.Runs x.session (Engine.replay x.host fuel x.engine x.arena x.flows x.initial)
      fun res t => (x.session.engine x.engine).options.maxSteps = none →
        x.Replayed policy res t := by
  unfold Engine.replay
  refine Law.Runs.get_bind ?_
  let I : Frontier → Session σ → Prop := fun f t => P t ∧ ∃ n, x.Underway policy n f t
  have hstep : ∀ f id rest s, f.queue.pop? = some (id, rest) → I f s →
      law.Runs s (Engine.expand x.host x.engine x.arena x.flows id) fun found t =>
        I (f.advance rest found) t := by
    rintro f id rest s hpop ⟨hs, n, hnow⟩
    exact (hround n f id rest s hpop hs hnow).weaken fun found t _ _ ht => ⟨ht.1, n + 1, ht.2⟩
  have hdrain : law.Meets (I (.start x.initial))
      (Engine.drain (Engine.expand x.host x.engine x.arena x.flows)
        (x.session.engine x.engine).options.maxSteps fuel (.start x.initial))
      (Engine.Drained I (x.session.engine x.engine).options.maxSteps) :=
    Engine.meets_drain hreport hstep fuel _
  have hstart : I (.start x.initial) x.session :=
    ⟨hs, 0, rfl, .refl, progress_start hstored⟩
  refine (hdrain x.session hstart).weaken fun res t _ _ hdrained hlimit => ?_
  obtain ⟨f, ⟨-, n, hnow⟩, rfl, hempty⟩ := hdrained hlimit
  exact hnow.replayed hempty

/-- A replay without limit collects what the rules do. -/
theorem runs_replay (h : policy.Admits P) (hhost : policy.Hosts P sent x.host) (hs : P x.session)
    (hstored : ∀ id ∈ x.initial, ∃ st, (x.session.arena x.arena).Holds id st)
    (hwaits : ∀ t, P t → policy.Evolves x.session t → x.MayWait policy t) (fuel : Nat) :
    policy.law.Runs x.session (Engine.replay x.host fuel x.engine x.arena x.flows x.initial)
      fun res t => (x.session.engine x.engine).options.maxSteps = none →
        x.Replayed policy res t :=
  runs_replay_of_rounds (fun event s => Run.meets_report (P := fun _ => True) event s trivial)
    (fun _ _ _ _ _ hpop hs hnow => runs_round h hhost hwaits hpop hs hnow) hs hstored fuel

end Replay

end TaintReplay
