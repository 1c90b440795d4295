import TaintReplay.Proofs.Exits
import TaintReplay.Proofs.Faults

/-!
# The course of a replay on stacks

With a solver that answers from a table, the course of a replay is determined by
the stacks it starts from. `Course.run` is the work list on stacks, free of arenas
and sessions: it has the same queue, the same limit and the same errors as
`Engine.replay`, and comes to the same outcome. Arenas make this possible since
equal propagators are interned once, so that a stack has one name only.

Which call a stack stands on matters to a course only through the statement.
Exchanging call sites at the same statement changes the names of stacks, and
nothing that a course comes to.

## Main results

* `Arena.Holds.unique`: a stack has one name.
* `Engine.treats_expand`: treating a propagator leads to what its stack leads to.
* `Engine.foresees_drain`, `Engine.foresees_replay`: a replay comes to what its course does.
* `Course.run_mono`: more fuel keeps an outcome.
* `Course.run_relabel`: call sites at the same statement can be exchanged.
-/

namespace TaintReplay

variable {σ α : Type}

/-! ## Names of stacks -/

namespace Arena

variable {a : Arena}

/-- Equal propagators have one name. -/
def Distinct (a : Arena) : Prop :=
  ∀ ⦃id id' p p'⦄, a.get? id = some p → a.get? id' = some p' → (p == p') = true → id = id'

theorem distinct_empty : empty.Distinct := by
  intro id id' p p' hp
  rw [get?_eq] at hp
  simp at hp

theorem Distinct.intern (h : a.Distinct) (q : Propagator) : (a.intern q).2.Distinct := by
  intro id id' p p' hp hp' hsame
  by_cases hany : a.toList.any (· == q) = true
  · have hget : ∀ k, (a.intern q).2.get? k = a.get? k := by
      intro k
      rw [get?_eq, get?_eq, toList_intern, if_pos hany]
    rw [hget] at hp hp'
    exact h hp hp' hsame
  · have hnew : ∀ {k r}, a.get? k = some r → ¬ (r == q) = true := by
      intro k r hr heq
      rw [get?_eq] at hr
      exact hany (List.any_eq_true.2 ⟨r, List.mem_of_getElem? hr, heq⟩)
    rcases get?_of_get?_intern hp with hold | ⟨rfl, hid⟩
    · rcases get?_of_get?_intern hp' with hold' | ⟨rfl, hid'⟩
      · exact h hold hold' hsame
      · exact absurd hsame (hnew hold)
    · rcases get?_of_get?_intern hp' with hold' | ⟨rfl, hid'⟩
      · obtain ⟨hlayer, hparent⟩ := Propagator.beq_iff_layer.1 hsame
        exact absurd (Propagator.beq_iff_layer.2 ⟨hlayer.symm, hparent.symm⟩) (hnew hold')
      · cases id
        cases id'
        exact congrArg PropagatorId.mk (hid.trans hid'.symm)

/-- A stack has one name. -/
theorem Holds.unique (grounded : a.Grounded) (distinct : a.Distinct) {id id' : PropagatorId}
    {st : Stack} (h : a.Holds id st) (h' : a.Holds id' st) : id = id' := by
  -- induction on the number: parents have smaller ones
  induction hi : id.index using Nat.strongRecOn generalizing id id' st with
  | ind i ih =>
      obtain ⟨p, hp⟩ := h.get?
      obtain ⟨p', hp'⟩ := h'.get?
      have hstack := h.1.trans h'.1.symm
      rw [stack_eq grounded hp, stack_eq grounded hp', stackOver, stackOver, List.cons.injEq]
        at hstack
      obtain ⟨hlayer, hbelow⟩ := hstack
      have hheld : ∀ {k r parent}, a.get? k = some r → r.parent = some parent →
          a.Holds parent (a.stack parent) := by
        intro k r parent hr hparent
        obtain ⟨q, hq⟩ := exists_get?_of_lt (grounded.hasParent hr parent hparent)
        exact .of_get? grounded hq
      have hparents : p.parent = p'.parent := by
        cases hparent : p.parent with
        | none =>
            cases hparent' : p'.parent with
            | none => rfl
            | some parent' =>
                rw [hparent, hparent'] at hbelow
                exact absurd hbelow.symm (hheld hp' hparent').2
        | some parent =>
            cases hparent' : p'.parent with
            | none =>
                rw [hparent, hparent'] at hbelow
                exact absurd hbelow (hheld hp hparent).2
            | some parent' =>
                rw [hparent, hparent', Option.map_some, Option.map_some, Option.getD_some,
                  Option.getD_some] at hbelow
                have hlt := grounded hp hparent
                have hsame := ih parent.index (by omega) (hheld hp hparent)
                  (hbelow ▸ hheld hp' hparent') rfl
                rw [hsame]
      exact distinct hp hp' (Propagator.beq_iff_layer.2 ⟨hlayer, hparents⟩)

end Arena

/-- In all arenas equal propagators have one name. -/
def Session.Distinct (s : Session σ) : Prop := ∀ a, (s.arena a).Distinct

namespace Policy

variable {policy : Policy σ} {s t : Session σ}

theorem Step.distinct (h : policy.Step s t) (hs : s.Distinct) : t.Distinct := by
  intro a
  rcases h.arena a with heq | ⟨q, -, heq⟩
  · rw [heq]
    exact hs a
  · rw [heq]
    exact (hs a).intern q

theorem Evolves.distinct (h : policy.Evolves s t) (hs : s.Distinct) : t.Distinct := by
  induction h with
  | refl => exact hs
  | tail _ hstep ih => exact hstep.distinct ih

end Policy

/-! ## Work lists of stacks -/

/-- The state of a work list of stacks. -/
structure Agenda where
  /-- The stacks to be treated, in order. -/
  queue : List Stack
  /-- The stacks that were ever queued. -/
  seen : List Stack
  /-- The paths tainted so far, once there is one. -/
  collected : Option (OrdSet AccessPath)
  /-- Number of stacks treated. -/
  steps : Nat

namespace Agenda

/-- The work list that starts from some stacks. -/
def start (initial : List Stack) : Agenda := ⟨initial, initial, none, 0⟩

/-- Queues a stack that was never queued. -/
def push (g : Agenda) (st : Stack) : Agenda :=
  if st ∈ g.seen then g else { g with queue := g.queue ++ [st], seen := st :: g.seen }

/-- Goes on with the rest of the queue after the first was treated. -/
def advance (g : Agenda) (rest nexts : List Stack) (paths : List AccessPath) : Agenda :=
  nexts.foldl push { g with
    queue := rest
    collected := Frontier.collect g.collected paths
    steps := g.steps + 1 }

/-- Whether a limit on the number of steps is reached. -/
def isSpent (g : Agenda) (limit : Option Nat) : Bool := limit.any fun n => decide (n ≤ g.steps)

end Agenda

/-- A work list of names stands for one of stacks. -/
structure Arena.Mirrors (a : Arena) (f : Frontier) (g : Agenda) : Prop where
  queue : a.HoldsAll f.queue.toList g.queue
  named : ∀ st ∈ g.seen, ∃ id ∈ f.seen, a.Holds id st
  seen : ∀ id ∈ f.seen, ∃ st ∈ g.seen, a.Holds id st
  collected : f.collected = g.collected
  steps : f.steps = g.steps

namespace Arena

variable {a b : Arena} {f : Frontier} {g : Agenda}

theorem mirrors_start {ids : List PropagatorId} {sts : List Stack} (h : a.HoldsAll ids sts) :
    a.Mirrors (.start ids) (.start sts) := by
  have hseen : ∀ id, id ∈ (Frontier.start ids).seen ↔ id ∈ ids := by simp [Frontier.start]
  refine ⟨?_, ?_, ?_, rfl, rfl⟩
  · rw [Frontier.start, Queue.toList_ofList]
    exact h
  · intro st hst
    obtain ⟨id, hid, hheld⟩ := exists_left_of_forall₂ h hst
    exact ⟨id, (hseen id).2 hid, hheld⟩
  · intro id hid
    exact exists_right_of_forall₂ h ((hseen id).1 hid)

theorem Mirrors.within (h : a.Mirrors f g) (hab : a.Within b) (hb : b.Grounded) :
    b.Mirrors f g where
  queue := h.queue.within hab hb
  named st hst := by
    obtain ⟨id, hid, hheld⟩ := h.named st hst
    exact ⟨id, hid, hheld.within hab hb⟩
  seen id hid := by
    obtain ⟨st, hst, hheld⟩ := h.seen id hid
    exact ⟨st, hst, hheld.within hab hb⟩
  collected := h.collected
  steps := h.steps

/-- Since a stack has one name, it was queued if that was. -/
theorem Mirrors.mem_seen_iff (h : a.Mirrors f g) (grounded : a.Grounded) (distinct : a.Distinct)
    {id : PropagatorId} {st : Stack} (hid : a.Holds id st) : id ∈ f.seen ↔ st ∈ g.seen := by
  constructor
  · intro hseen
    obtain ⟨st', hst', hheld⟩ := h.seen id hseen
    exact hid.1.symm.trans hheld.1 ▸ hst'
  · intro hseen
    obtain ⟨id', hid', hheld⟩ := h.named st hseen
    exact hid.unique grounded distinct hheld ▸ hid'

theorem Mirrors.push (h : a.Mirrors f g) (grounded : a.Grounded) (distinct : a.Distinct)
    {id : PropagatorId} {st : Stack} (hid : a.Holds id st) : a.Mirrors (f.push id) (g.push st) := by
  have hiff := h.mem_seen_iff grounded distinct hid
  by_cases hseen : id ∈ f.seen
  · rw [Frontier.push, if_pos hseen, Agenda.push, if_pos (hiff.1 hseen)]
    exact h
  · have hmem : ∀ k, k ∈ (f.push id).seen ↔ k = id ∨ k ∈ f.seen := fun k => Frontier.mem_seen_push
    rw [Agenda.push, if_neg fun hst => hseen (hiff.2 hst)]
    refine ⟨?_, ?_, ?_, ?_, ?_⟩
    · rw [Frontier.push, if_neg hseen, Queue.toList_push]
      exact List.rel_append h.queue (.cons hid .nil)
    · intro st' hst'
      rcases List.mem_cons.1 hst' with rfl | hst'
      · exact ⟨id, (hmem id).2 (.inl rfl), hid⟩
      · obtain ⟨k, hk, hheld⟩ := h.named st' hst'
        exact ⟨k, (hmem k).2 (.inr hk), hheld⟩
    · intro k hk
      rcases (hmem k).1 hk with rfl | hk
      · exact ⟨st, List.mem_cons_self, hid⟩
      · obtain ⟨st', hst', hheld⟩ := h.seen k hk
        exact ⟨st', List.mem_cons_of_mem _ hst', hheld⟩
    · rw [Frontier.push, if_neg hseen]
      exact h.collected
    · rw [Frontier.push, if_neg hseen]
      exact h.steps

theorem Mirrors.foldl_push (h : a.Mirrors f g) (grounded : a.Grounded) (distinct : a.Distinct)
    {ids : List PropagatorId} {sts : List Stack} (hids : a.HoldsAll ids sts) :
    a.Mirrors (ids.foldl Frontier.push f) (sts.foldl Agenda.push g) := by
  induction hids generalizing f g with
  | nil => exact h
  | cons hid _ ih => exact ih (h.push grounded distinct hid)

/-- After the first was treated, the work lists still stand for each other. -/
theorem Mirrors.advance (h : a.Mirrors f g) (grounded : a.Grounded) (distinct : a.Distinct)
    {rest : Queue PropagatorId} {others nexts : List Stack} (hrest : a.HoldsAll rest.toList others)
    {x : Expansion} (hx : a.HoldsAll x.successors nexts) :
    a.Mirrors (f.advance rest x) (g.advance others nexts x.collected) := by
  have hnext : a.Mirrors
      { f with
        queue := rest
        collected := Frontier.collect f.collected x.collected
        steps := f.steps + 1 }
      { g with
        queue := others
        collected := Frontier.collect g.collected x.collected
        steps := g.steps + 1 } :=
    ⟨hrest, h.named, h.seen, by rw [h.collected], by rw [h.steps]⟩
  exact hnext.foldl_push grounded distinct hx

end Arena

/-! ## Courses -/

instance (r : Rules) (top : Layer) : Decidable (r.Unsummarised top) :=
  decidable_of_iff ((top.gap.any fun gap => (r.gapFlows gap).isEmpty) = true) <| by
    rw [Option.any_eq_true]
    rfl

/-- What the course of a replay depends on. -/
structure Course where
  rules : Rules
  /-- The methods that the solver is sent into from a gap. -/
  entrances : Gap → List Method
  /-- What is left of the gap on top of a stack. -/
  left : Stack → List Stack
  limit : Option Nat

namespace Course

/-- The stacks that a stack leads to, in order. -/
def nexts (w : Course) : Stack → List Stack
  | [] => []
  | top :: below =>
    (if w.rules.Unsummarised top then w.left (top :: below) else []) ++
      (w.rules.flowsFrom top).flatMap fun flow => (w.rules.yield (top :: below) flow).nexts

/-- The paths that a stack taints at the call, in order. -/
def paths (w : Course) : Stack → List AccessPath
  | [] => []
  | top :: below =>
    (w.rules.flowsFrom top).flatMap fun flow => (w.rules.yield (top :: below) flow).paths

/-- The error of treating a stack. -/
def fault (w : Course) (st : Stack) : Option AnalysisError := w.rules.fault w.entrances st

/-- Treats the stacks of a work list, and those they lead to, until the queue is
empty or the limit is reached. -/
def run (w : Course) : Nat → Agenda → Except Failure (Option (OrdSet AccessPath))
  | fuel, g =>
    match g.queue with
    | [] => .ok g.collected
    | st :: rest =>
      if g.isSpent w.limit then .ok g.collected
      else
        match fuel with
        | 0 => .error .outOfFuel
        | fuel + 1 =>
          match w.fault st with
          | some e => .error (.error e)
          | none => w.run fuel (g.advance rest (w.nexts st) (w.paths st))

/-- More fuel keeps an outcome. -/
theorem run_mono (w : Course) {m n : Nat} (hmn : m ≤ n) {g : Agenda}
    (hended : w.run m g ≠ .error .outOfFuel) : w.run n g = w.run m g := by
  induction m using Nat.strongRecOn generalizing n g with
  | ind m ih =>
      unfold run at hended ⊢
      cases hqueue : g.queue with
      | nil => rfl
      | cons st rest =>
          simp only [hqueue] at hended ⊢
          by_cases hspent : g.isSpent w.limit = true
          · rw [if_pos hspent, if_pos hspent]
          · rw [if_neg hspent] at hended
            rw [if_neg hspent, if_neg hspent]
            cases m with
            | zero => exact absurd rfl hended
            | succ m =>
                obtain ⟨n, rfl⟩ : ∃ k, n = k + 1 := ⟨n - 1, by omega⟩
                cases hfault : w.fault st with
                | some e => rfl
                | none =>
                    simp only [hfault] at hended ⊢
                    exact ih m (Nat.lt_succ_self m) (by omega) hended

end Course

/-- The course of a replay by an engine, if the solver answers from a table. -/
def Session.course (s : Session σ) (e : EngineId) (flows : FlowSet) (table : ExitTable) : Course :=
  ⟨s.rules e flows, s.entrances, s.leaves table, (s.engine e).options.maxSteps⟩

/-- Courses stay the same while a session grows. -/
theorem Session.Grows.course {s t : Session σ} (h : s.Grows t) (e : EngineId) (flows : FlowSet)
    (table : ExitTable) : t.course e flows table = s.course e flows table := by
  rw [Session.course, Session.course, h.rules, h.entrances, funext (h.leaves table),
    (h.engine e).options]

/-! ## Replays take their course -/

/-- The outcome is the one expected, unless fuel runs out where something stalls. -/
def Foreseen (stalls : Prop) (outcome expected : Except Failure α) : Prop :=
  outcome = expected ∨ stalls ∧ outcome = .error .outOfFuel

namespace Engine

section Treat

variable {policy : Policy σ} {P : Session σ → Prop} {sent : PathEdge → Session σ → Prop}
  {host : Host σ} {e : EngineId} {a : Nat} {id : PropagatorId} {flows : FlowSet} {table : ExitTable}
  {stalls : Prop} {s : Session σ}

/-- A program treats a stack as a course does: it ends in the error of the stack, or
leads to what the stack leads to. -/
structure Treats (policy : Policy σ) (stalls : Prop) (w : Course) (a : Nat) (s : Session σ)
    (st : Stack) (x : Run σ Expansion) : Prop where
  faults : Run.Faults stalls s x (w.fault st)
  leads : ∀ found t, x.exec s = (.ok found, t) → policy.Evolves s t ∧
    (t.arena a).HoldsAll found.successors (w.nexts st) ∧ found.collected = w.paths st

/-- What is left of the gap of a propagator is what the table says. -/
theorem Resolves.eq_leaves (h : policy.Admits P) (hhost : policy.Hosts P sent host)
    (htable : ∀ state, policy.solver.table state = table) {p : Propagator}
    (hid : ∀ s, P s → (s.arena a).get? id = some p) (hwaits : ∀ s, P s → policy.waits s e ⟨a, id⟩)
    (hs : P s) {v : Session σ} {left : List Stack} (hres : Resolves host e a id p s v left) :
    left = s.leaves table ((s.arena a).stack id) := by
  obtain ⟨gap, found, u, props, hgap, hlook, hempty, hrun, rfl⟩ := hres
  obtain ⟨hsu, hfound⟩ := (meets_flowsForGap h e gap).of_ok hs hlook
  have hsince := h.and (Law.Stable.since u)
  have hready : ∀ t, P t ∧ policy.law.step u t →
      (t.arena a).get? id = some p ∧ (t.gapFlows e gap).isEmpty = true := by
    intro t ht
    refine ⟨hid t ht.1, ?_⟩
    rw [(Policy.Evolves.grows ht.2).gapFlows, ← hfound]
    exact hempty
  have hresolve := meets_resolveGap hsince hhost.and hgap hready fun t ht => hwaits t ht.1
  obtain ⟨huv, hresolved⟩ := hresolve.of_ok ⟨h.stable hs hsu, .refl⟩ hrun
  have hsv := Policy.Evolves.grows (hsu.trans huv)
  have hv := h.stable hs (hsu.trans huv)
  rw [hresolved.map_stackOver (h.grounded hv) htable (hid v hv) hgap, hsv.leaves,
    Arena.stack_of_within (hsv.arena a) (h.grounded hv a) (hid s hs)]

/-- Treating a propagator leads to what its stack leads to. -/
theorem treats_expand (h : policy.Admits P) (hsound : ∀ s, P s → s.Sound)
    (hhost : policy.Hosts P sent host) (hreliable : host.Reliable stalls)
    (hlenient : policy.Lenient) (htable : ∀ state, policy.solver.table state = table) (hs : P s)
    {st : Stack} (hid : (s.arena a).Holds id st) :
    Treats policy stalls (s.course e flows table) a s st (expand host e a flows id) := by
  cases st with
  | nil => exact absurd rfl hid.2
  | cons top below =>
      have hsince := h.and (Law.Stable.since s)
      have hr : ∀ t, P t ∧ policy.law.step s t → t.rules e flows = s.rules e flows :=
        fun t ht => (Policy.Evolves.grows ht.2).rules e flows
      have hheld : ∀ t, P t ∧ policy.law.step s t → (t.arena a).Holds id (top :: below) :=
        fun t ht => hid.within ((Policy.Evolves.grows ht.2).arena a) (h.grounded ht.1 a)
      have hwaits : ∀ t, P t ∧ policy.law.step s t → policy.waits t e ⟨a, id⟩ :=
        fun t _ => hlenient.waits t e ⟨a, id⟩
      refine ⟨faults_expand hsince (fun t ht => hsound t ht.1) hhost.and hreliable hr hheld hwaits
        ⟨hs, .refl⟩, fun found t hrun => ?_⟩
      obtain ⟨hst, p, entered, hp, rfl, henters, hholds, hcollected⟩ :=
        (runs_expand hsince hhost.and hr hheld hwaits ⟨hs, .refl⟩).of_ok hrun
      refine ⟨hst, ?_, hcollected⟩
      -- what was entered is what the table leaves of the gap
      have hleft : entered = if (s.rules e flows).Unsummarised p.layer then
          s.leaves table (p.layer :: below) else [] := by
        by_cases hun : (s.rules e flows).Unsummarised p.layer
        · rw [if_pos hun]
          obtain ⟨v, hres, -⟩ := henters.resolves hun
          have hw : policy.Evolves s (taking s a id p) := .single (.report s _)
          have heq := hres.eq_leaves hsince hhost.and htable
            (fun t ht => (Policy.Evolves.grows ht.2).get? hp) hwaits ⟨h.stable hs hw, hw⟩
          rw [heq, (Policy.Evolves.grows hw).leaves]
          exact congrArg _ hid.1
        · rw [if_neg hun]
          exact henters.empty hun
      rw [hleft] at hholds
      exact hholds

end Treat

section Drain

variable {policy : Policy σ} {P : Session σ → Prop} {w : Course} {a : Nat} {stalls : Prop}
  {treat : PropagatorId → Run σ Expansion}

/-- The work list comes to what its course does. -/
theorem foresees_drain (hstable : policy.law.Stable P) (hgrounded : ∀ s, P s → s.Grounded)
    (hdistinct : ∀ s, P s → s.Distinct)
    (htreat : ∀ s id st, P s → (s.arena a).Holds id st →
      Treats policy stalls w a s st (treat id)) (fuel : Nat) {f : Frontier} {g : Agenda}
    {s : Session σ} (hs : P s) (hmirrors : (s.arena a).Mirrors f g) :
    Foreseen stalls ((drain treat w.limit fuel f).exec s).1 (w.run fuel g) := by
  induction fuel using Nat.strongRecOn generalizing f g s with
  | ind fuel ih =>
      have hqueue := hmirrors.queue
      unfold drain Course.run
      cases hpop : f.queue.pop? with
      | none =>
          rw [Queue.pop?_eq_none_iff.1 hpop] at hqueue
          rw [List.forall₂_nil_left_iff.1 hqueue]
          exact .inl (congrArg Except.ok hmirrors.collected)
      | some next =>
          obtain ⟨id, rest⟩ := next
          rw [Queue.toList_eq_of_pop? hpop] at hqueue
          obtain ⟨st, others, hid, hrest, hg⟩ := List.forall₂_cons_left_iff.1 hqueue
          have hspent : f.isSpent w.limit = g.isSpent w.limit := by
            rw [Frontier.isSpent, Agenda.isSpent, hmirrors.steps]
          simp only [hg, hspent]
          by_cases hlimit : g.isSpent w.limit = true
          · rw [if_pos hlimit, if_pos hlimit]
            exact .inl (congrArg Except.ok hmirrors.collected)
          · rw [if_neg hlimit, if_neg hlimit]
            cases fuel with
            | zero => exact .inl rfl
            | succ fuel =>
                obtain ⟨hfaults, hleads⟩ := htreat s id st hs hid
                simp only [Run.exec_bind]
                rcases hrun : (treat id).exec s with ⟨out, t⟩
                cases out with
                | ok x =>
                    obtain ⟨hst, hsuccessors, hpaths⟩ := hleads x t hrun
                    have ht := hstable hs hst
                    have hwithin := (Policy.Evolves.grows hst).arena a
                    have hground := hgrounded t ht a
                    rw [hfaults.of_ok hrun, ← hpaths]
                    refine ih fuel (Nat.lt_succ_self fuel) ht ?_
                    exact (hmirrors.within hwithin hground).advance hground (hdistinct t ht a)
                      (Arena.HoldsAll.within hwithin hground hrest) hsuccessors
                | error failure =>
                    cases failure with
                    | error e =>
                        rw [hfaults.of_error hrun]
                        exact .inl rfl
                    | outOfFuel =>
                        rw [Run.Faults, hrun] at hfaults
                        exact .inr ⟨hfaults, rfl⟩

end Drain

/-- In sound sessions a replay comes to what its course does. -/
theorem foresees_replay {policy : Policy σ} {P : Session σ → Prop}
    {sent : PathEdge → Session σ → Prop} {host : Host σ} {stalls : Prop} {table : ExitTable}
    (h : policy.Admits P) (hsound : ∀ s, P s → s.Sound) (hdistinct : ∀ s, P s → s.Distinct)
    (hhost : policy.Hosts P sent host) (hreliable : host.Reliable stalls)
    (hlenient : policy.Lenient) (htable : ∀ state, policy.solver.table state = table)
    (e : EngineId) {a : Nat} (flows : FlowSet) {initial : List PropagatorId} {starts : List Stack}
    (fuel : Nat) {s : Session σ} (hs : P s) (hstarts : (s.arena a).HoldsAll initial starts) :
    Foreseen stalls ((replay host fuel e a flows initial).exec s).1
      ((s.course e flows table).run fuel (.start starts)) := by
  unfold replay
  rw [Run.exec_get_bind]
  have hsince := h.and (Law.Stable.since s)
  show Foreseen stalls ((drain (expand host e a flows) (s.course e flows table).limit fuel
    (.start initial)).exec s).1 _
  refine foresees_drain hsince.stable (fun t ht => h.grounded ht.1) (fun t ht => hdistinct t ht.1)
    (fun t id st ht hid => ?_) fuel ⟨hs, .refl⟩ (Arena.mirrors_start hstarts)
  rw [← (Policy.Evolves.grows ht.2).course e flows table]
  exact treats_expand h hsound hhost hreliable hlenient htable ht.1 hid

end Engine

/-! ## Exchanging call sites -/

/-- A layer with another call site. -/
def Layer.relabel (ρ : SiteKey → SiteKey) (l : Layer) : Layer := { l with site := l.site.map ρ }

/-- A stack with other call sites. -/
def Stack.relabel (ρ : SiteKey → SiteKey) (st : Stack) : Stack := st.map (Layer.relabel ρ)

section Relabel

variable {ρ : SiteKey → SiteKey}

theorem Layer.relabel_injective (hρ : ρ.Injective) : (Layer.relabel ρ).Injective := by
  intro l l' h
  obtain ⟨taint, gap, site, inverse⟩ := l
  obtain ⟨taint', gap', site', inverse'⟩ := l'
  simp only [Layer.relabel, Layer.mk.injEq] at h
  obtain ⟨rfl, rfl, hsite, rfl⟩ := h
  rw [Option.map_injective hρ hsite]

theorem Stack.relabel_injective (hρ : ρ.Injective) : (Stack.relabel ρ).Injective :=
  List.map_injective_iff.2 (Layer.relabel_injective hρ)

namespace Stack

theorem relabel_cons (top : Layer) (below : Stack) :
    Stack.relabel ρ (top :: below) = top.relabel ρ :: Stack.relabel ρ below := rfl

theorem leave_relabel (t : Taint) (st : Stack) :
    Stack.leave t (st.relabel ρ) = (Stack.leave t st).relabel ρ := by
  match st with
  | [] => rfl
  | [bottom] => rfl
  | _ :: _ :: _ => rfl

theorem arrivals_relabel (st : Stack) :
    (st.relabel ρ).arrivals = st.arrivals.map (Stack.relabel ρ) := by
  cases st with
  | nil => rfl
  | cons top below =>
      have harrivals : ∀ (l : Layer) (rest : Stack), Stack.arrivals (l :: rest) =
          if l.mayAlias = true then [l :: rest, Stack.invert (l :: rest)] else [l :: rest] :=
        fun _ _ => rfl
      rw [relabel_cons, harrivals, harrivals, show (top.relabel ρ).mayAlias = top.mayAlias from rfl]
      by_cases hmay : top.mayAlias = true
      · rw [if_pos hmay, if_pos hmay]
        rfl
      · rw [if_neg hmay, if_neg hmay]
        rfl

theorem isSurface_relabel (st : Stack) : (st.relabel ρ).isSurface = st.isSurface := by
  match st with
  | [] => rfl
  | [_] => rfl
  | _ :: _ :: _ => rfl

end Stack

/-- Flows do not look at call sites. -/
theorem Hierarchy.applyToStack?_relabel (h : Hierarchy) (flow : Flow) (st : Stack) :
    h.applyToStack? flow (st.relabel ρ) = (h.applyToStack? flow st).map (Stack.relabel ρ) := by
  cases st with
  | nil => rfl
  | cons top below =>
      rw [Stack.relabel_cons, applyToStack?, applyToStack?]
      have htaint : (top.relabel ρ).taint = top.taint := rfl
      have hgap : (top.relabel ρ).gap = top.gap := rfl
      rw [htaint, hgap]
      split
      · cases flow.sink.gap with
        | some gap =>
            simp only [Option.map_map]
            rfl
        | none =>
            simp only [Option.map_map]
            refine Option.map_congr fun t _ => ?_
            rw [← Stack.relabel_cons, Stack.leave_relabel]
            rfl
      · rfl

section SameStmt

variable (hstmt : ∀ key, (ρ key).stmt = key.stmt)
include hstmt

/-- What a taint stands for at a call depends on the statement. -/
theorem Program.pathAt_relabel (program : Program) (st : Stack) :
    program.pathAt (st.relabel ρ) = program.pathAt st := by
  match st with
  | [] => rfl
  | [l] =>
      show (l.site.map ρ).bind _ = l.site.bind _
      cases l.site with
      | none => rfl
      | some key =>
          rw [Option.map_some, Option.bind_some, Option.bind_some, hstmt]
          rfl
  | _ :: _ :: _ => rfl

theorem Program.faultAt_relabel (program : Program) (st : Stack) :
    program.faultAt (st.relabel ρ) = program.faultAt st := by
  match st with
  | [] => rfl
  | [l] =>
      show (if l.taint.gap.isNone then (l.site.map ρ).bind _ else none) =
        if l.taint.gap.isNone then l.site.bind _ else none
      split
      · cases l.site with
        | none => rfl
        | some key =>
            rw [Option.map_some, Option.bind_some, Option.bind_some, hstmt]
            rfl
      · rfl
  | _ :: _ :: _ => rfl

end SameStmt

/-- A course does not tell call sites at the same statement apart. -/
structure Course.Blind (w : Course) (ρ : SiteKey → SiteKey) : Prop where
  nexts : ∀ st, w.nexts (st.relabel ρ) = (w.nexts st).map (Stack.relabel ρ)
  paths : ∀ st, w.paths (st.relabel ρ) = w.paths st
  fault : ∀ st, w.fault (st.relabel ρ) = w.fault st

/-- What a table leaves of a gap it leaves above the same call site. -/
theorem Session.leaves_relabel (s : Session σ) (table : ExitTable) (st : Stack) :
    s.leaves table (st.relabel ρ) = (s.leaves table st).map (Stack.relabel ρ) := by
  cases st with
  | nil => rfl
  | cons top below =>
      rw [Stack.relabel_cons, Session.leaves, Session.leaves,
        show (top.relabel ρ).gap = top.gap from rfl]
      cases top.gap with
      | none => rfl
      | some gap =>
          simp only [List.map_flatMap, List.map_map]
          refine List.flatMap_congr fun m _ => List.map_congr_left fun t _ => ?_
          rw [← Stack.relabel_cons, Stack.leave_relabel]
          rfl

namespace Session

variable (s : Session σ) (e : EngineId) (flows : FlowSet)

theorem yield_relabel (hstmt : ∀ key, (ρ key).stmt = key.stmt) (st : Stack) (flow : Flow) :
    (s.rules e flows).yield (st.relabel ρ) flow =
      ⟨((s.rules e flows).yield st flow).nexts.map (Stack.relabel ρ),
        ((s.rules e flows).yield st flow).paths⟩ := by
  have happly := s.hierarchy.applyToStack?_relabel (ρ := ρ) flow st
  rw [Rules.yield, Rules.yield, show (s.rules e flows).apply = s.hierarchy.applyToStack? from rfl,
    happly]
  cases s.hierarchy.applyToStack? flow st with
  | none => rfl
  | some out =>
      simp only [Option.map_some, Rules.yieldOf, Stack.isSurface_relabel,
        Program.pathAt_relabel hstmt, Stack.arrivals_relabel]
      split
      · cases (s.rules e flows).program.pathAt out with
        | none => rfl
        | some path => rfl
      · rfl

/-- The course of a replay does not tell call sites at the same statement apart. -/
theorem blind_course (table : ExitTable) (hstmt : ∀ key, (ρ key).stmt = key.stmt) :
    (s.course e flows table).Blind ρ where
  nexts st := by
    cases st with
    | nil => rfl
    | cons top below =>
        rw [Stack.relabel_cons, Course.nexts, Course.nexts, ← Stack.relabel_cons, List.map_append]
        refine congrArg₂ (· ++ ·) ?_ ?_
        · have hiff : (s.course e flows table).rules.Unsummarised (top.relabel ρ) ↔
            (s.course e flows table).rules.Unsummarised top := Iff.rfl
          by_cases hun : (s.course e flows table).rules.Unsummarised top
          · rw [if_pos hun, if_pos (hiff.2 hun)]
            exact s.leaves_relabel table (top :: below)
          · rw [if_neg hun, if_neg fun h => hun (hiff.1 h)]
            rfl
        · rw [List.map_flatMap]
          refine List.flatMap_congr fun flow _ => ?_
          show ((s.rules e flows).yield _ flow).nexts = _
          rw [s.yield_relabel e flows hstmt]
          rfl
  paths st := by
    cases st with
    | nil => rfl
    | cons top below =>
        rw [Stack.relabel_cons, Course.paths, Course.paths, ← Stack.relabel_cons]
        refine List.flatMap_congr fun flow _ => ?_
        show ((s.rules e flows).yield _ flow).paths = ((s.rules e flows).yield _ flow).paths
        rw [s.yield_relabel e flows hstmt]
  fault st := by
    cases st with
    | nil => rfl
    | cons top below =>
        have hflow : (s.rules e flows).flowFault (Stack.relabel ρ (top :: below)) =
            (s.rules e flows).flowFault (top :: below) := by
          funext flow
          rw [Rules.flowFault, Rules.flowFault,
            show (s.rules e flows).apply = s.hierarchy.applyToStack? from rfl,
            s.hierarchy.applyToStack?_relabel]
          cases s.hierarchy.applyToStack? flow (top :: below) with
          | none => rfl
          | some out => exact Program.faultAt_relabel hstmt _ out
        rw [Course.fault, Course.fault]
        show (s.rules e flows).fault s.entrances _ = (s.rules e flows).fault s.entrances _
        rw [Stack.relabel_cons, Rules.fault, Rules.fault, ← Stack.relabel_cons, hflow]
        rfl

end Session

namespace Agenda

/-- A work list of stacks with other call sites. -/
def relabel (ρ : SiteKey → SiteKey) (g : Agenda) : Agenda :=
  { g with queue := g.queue.map (Stack.relabel ρ), seen := g.seen.map (Stack.relabel ρ) }

theorem push_relabel (hρ : ρ.Injective) (g : Agenda) (st : Stack) :
    (g.relabel ρ).push (st.relabel ρ) = (g.push st).relabel ρ := by
  have hmem : st.relabel ρ ∈ (g.relabel ρ).seen ↔ st ∈ g.seen :=
    List.mem_map_of_injective (Stack.relabel_injective hρ)
  by_cases hst : st ∈ g.seen
  · rw [push, if_pos (hmem.2 hst), push, if_pos hst]
  · rw [push, if_neg fun h => hst (hmem.1 h), push, if_neg hst]
    simp [relabel]

theorem foldl_push_relabel (hρ : ρ.Injective) (g : Agenda) (sts : List Stack) :
    (sts.map (Stack.relabel ρ)).foldl push (g.relabel ρ) = (sts.foldl push g).relabel ρ := by
  induction sts generalizing g with
  | nil => rfl
  | cons st sts ih =>
      rw [List.map_cons, List.foldl_cons, List.foldl_cons, push_relabel hρ]
      exact ih (g.push st)

theorem advance_relabel (hρ : ρ.Injective) (g : Agenda) (rest nexts : List Stack)
    (paths : List AccessPath) :
    (g.relabel ρ).advance (rest.map (Stack.relabel ρ)) (nexts.map (Stack.relabel ρ)) paths =
      (g.advance rest nexts paths).relabel ρ :=
  foldl_push_relabel hρ { g with
    queue := rest
    collected := Frontier.collect g.collected paths
    steps := g.steps + 1 } nexts

end Agenda

/-- Call sites at the same statement can be exchanged. -/
theorem Course.run_relabel {w : Course} (h : w.Blind ρ) (hρ : ρ.Injective) (fuel : Nat)
    (g : Agenda) : w.run fuel (g.relabel ρ) = w.run fuel g := by
  induction fuel using Nat.strongRecOn generalizing g with
  | ind fuel ih =>
      unfold run
      have hqueue : (g.relabel ρ).queue = g.queue.map (Stack.relabel ρ) := rfl
      have hspent : (g.relabel ρ).isSpent w.limit = g.isSpent w.limit := rfl
      rw [hqueue]
      cases g.queue with
      | nil => rfl
      | cons st rest =>
          simp only [List.map_cons, hspent]
          by_cases hlimit : g.isSpent w.limit = true
          · rw [if_pos hlimit, if_pos hlimit]
            rfl
          · rw [if_neg hlimit, if_neg hlimit]
            cases fuel with
            | zero => rfl
            | succ fuel =>
                simp only [h.fault, h.nexts, h.paths]
                cases w.fault st with
                | some e => rfl
                | none =>
                    simp only [Agenda.advance_relabel hρ]
                    exact ih fuel (Nat.lt_succ_self fuel) _

end Relabel

end TaintReplay
