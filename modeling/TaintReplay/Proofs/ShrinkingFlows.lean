import Mathlib.Data.List.Dedup
import Mathlib.Data.List.MinMax
import Mathlib.Data.List.Perm.Subperm
import TaintReplay.Proofs.Courses
import TaintReplay.Proofs.LeastFixedPoint
import TaintReplay.Proofs.Rounds

/-!
# Flows that do not lengthen paths

A replay need not come to an end, since flows can lengthen the paths of taints. It
does if no flow lengthens them. The propagators that it can meet are then all put
together from a finite *stock*: the call sites that it starts from, the roles, types
and fields that its flows and its first taints mention, and paths no longer than the
longest of these. Each round treats a propagator of that stock, and no propagator is
queued twice, so the number of rounds is bounded by the number of propagators that can
be put together. Only what the replay starts from may be in the queue more than once.

Flows that make aliases are followed both ways, so they must not change the length of
a path at all; those that cannot be followed backwards may shorten it. What a flow does
not mention is carried along behind its sink, which is why the length of a path after a
flow has to be compared with the length before, not with the length of the sink alone.

## Main results

* `Replay.count_after`: how many propagators were treated, wait, and were ever queued.
* `Engine.settles_expand`: treating a propagator outside of gaps does not run out of fuel.
* `Stock.mem_layers`: what can be put together from a stock.
* `Replay.drawn_of_reach`: what a replay meets is put together from its stock.
* `shrinking_flows_come_to_an_end`: a replay of such flows ends after a bounded number of rounds.
-/

namespace TaintReplay

variable {σ α β : Type}

/-! ## What was ever queued -/

namespace Frontier

/-- A propagator is queued once, when it is first seen. -/
theorem count_push (f : Frontier) (id : PropagatorId) :
    (f.push id).queue.toList.length + f.seen.size =
      f.queue.toList.length + (f.push id).seen.size := by
  unfold push
  split
  · rfl
  · rename_i hnew
    have hsize : (f.seen.insert id).size = f.seen.size + 1 := by
      rw [Std.TreeSet.size_insert]
      exact if_neg hnew
    simp only [Queue.toList_push, List.length_append, List.length_singleton, hsize]
    omega

theorem count_foldl_push (f : Frontier) (ids : List PropagatorId) :
    (ids.foldl push f).queue.toList.length + f.seen.size =
      f.queue.toList.length + (ids.foldl push f).seen.size := by
  induction ids generalizing f with
  | nil => rfl
  | cons id ids ih =>
      have hfirst := f.count_push id
      have hrest := ih (f.push id)
      rw [List.foldl_cons]
      omega

theorem count_advance {f : Frontier} {id : PropagatorId} {rest : Queue PropagatorId}
    (hpop : f.queue.pop? = some (id, rest)) (x : Expansion) :
    (f.advance rest x).queue.toList.length + f.seen.size + 1 =
      f.queue.toList.length + (f.advance rest x).seen.size := by
  have hqueue := congrArg List.length (Queue.toList_eq_of_pop? hpop)
  rw [List.length_cons] at hqueue
  have hpushed := count_foldl_push { f with
    queue := rest
    collected := collect f.collected x.collected
    steps := f.steps + 1 } x.successors
  simp only [advance]
  simp only at hpushed
  omega

theorem nodup_seen (f : Frontier) : f.seen.toList.Nodup :=
  f.seen.distinct_toList.imp fun hne heq => hne (Std.LawfulEqOrd.compare_eq_iff_eq.2 heq)

theorem size_seen_start (initial : List PropagatorId) :
    (start initial).seen.size = initial.dedup.length := by
  have hperm : (start initial).seen.toList.Perm initial.dedup := by
    refine (List.perm_ext_iff_of_nodup (nodup_seen _) initial.nodup_dedup).2 fun id => ?_
    rw [Std.TreeSet.mem_toList, List.mem_dedup]
    simp [start]
  rw [← Std.TreeSet.length_toList]
  exact hperm.length_eq

end Frontier

namespace Replay

variable {x : Replay σ} {n : Nat} {f : Frontier} {s : Session σ}

/-- What was treated and what waits are, apart from repetitions at the start, what was
ever queued. -/
theorem count_after (h : x.after n = some (f, s)) :
    n + f.queue.toList.length + x.initial.dedup.length = f.seen.size + x.initial.length := by
  induction n generalizing f s with
  | zero =>
      cases h
      rw [Frontier.size_seen_start]
      simp [Frontier.start]
      omega
  | succ n ih =>
      obtain ⟨g, t, id, rest, yielded, hafter, hpop, -, rfl⟩ := after_succ_eq_some h
      have hbefore := ih hafter
      have hround := Frontier.count_advance hpop yielded
      omega

/-- The invariant of a replay holds in all of its rounds. -/
theorem underway_of_after {policy : Policy σ} {P : Session σ → Prop}
    {sent : PathEdge → Session σ → Prop} (hadmits : policy.Admits P)
    (hhost : policy.Hosts P sent x.host)
    (hwaits : ∀ t, P t → policy.Evolves x.session t → x.MayWait policy t) (hs : P x.session)
    (hstored : ∀ id ∈ x.initial, ∃ st, (x.session.arena x.arena).Holds id st)
    (h : x.after n = some (f, s)) : P s ∧ x.Underway policy n f s := by
  induction n generalizing f s with
  | zero =>
      cases h
      exact ⟨hs, rfl, .refl, progress_start hstored⟩
  | succ n ih =>
      obtain ⟨g, t, id, rest, yielded, hafter, hpop, hrun, rfl⟩ := after_succ_eq_some h
      obtain ⟨ht, hnow⟩ := ih hafter
      exact ((runs_round hadmits hhost hwaits hpop ht hnow).of_ok hrun).2

end Replay

/-! ## Programs that do not run out of fuel -/

namespace Run

/-- The program ends in a value or in an error, from every session. -/
def Settles (x : Run σ α) : Prop := ∀ s, (x.exec s).1 ≠ .error .outOfFuel

namespace Settles

theorem of_total {x : Run σ α} (h : x.Total) : x.Settles := by
  intro s
  obtain ⟨a, t, hrun⟩ := h s
  rw [hrun]
  exact fun heq => nomatch heq

protected theorem fail (e : AnalysisError) : (fail e : Run σ α).Settles := fun _ heq => nomatch heq

protected theorem ofExcept (x : Except AnalysisError α) : (Run.ofExcept x : Run σ α).Settles := by
  cases x with
  | ok a => exact .of_total (.pure a)
  | error e => exact .fail e

protected theorem bind {x : Run σ β} {f : β → Run σ α} (hx : x.Settles) (hf : ∀ b, (f b).Settles) :
    (x >>= f).Settles := by
  intro s
  have hfirst := hx s
  rw [exec_bind]
  rcases hrun : x.exec s with ⟨outcome, t⟩
  cases outcome with
  | ok b => exact hf b t
  | error e =>
      rw [hrun] at hfirst
      exact fun heq => hfirst (Except.error.inj heq ▸ rfl)

protected theorem mapM {f : β → Run σ α} (hf : ∀ b, (f b).Settles) (xs : List β) :
    (xs.mapM f).Settles := by
  induction xs with
  | nil => exact .of_total (.pure _)
  | cons x xs ih =>
      rw [List.mapM_cons]
      exact (hf x).bind fun _ => ih.bind fun _ => .of_total (.pure _)

end Settles

end Run

open Run

namespace Engine

theorem settles_pathOnCall (t : Taint) (stmt : StmtId) : (pathOnCall t stmt : Run σ _).Settles := by
  unfold pathOnCall
  refine .bind (.of_total .get) fun s => ?_
  split
  · refine .bind (.ofExcept _) fun base => ?_
    split
    · refine .bind (.of_total (total_resolveFields t)) fun fields => ?_
      split <;> exact .of_total (.pure _)
    · exact .of_total (.pure _)
  · exact .fail _

theorem settles_follow (a : Nat) (id : PropagatorId) (flow : Flow) :
    (follow a id flow : Run σ Expansion).Settles := by
  have hintern : ∀ q paths, (do return ⟨← internWithInverse a q, paths⟩ : Run σ Expansion).Settles :=
    fun q paths => .bind (.of_total (total_internWithInverse a q)) fun _ => .of_total (.pure _)
  unfold follow
  refine .bind (.of_total .get) fun s => ?_
  split
  · exact .of_total (.pure _)
  · split
    · split
      · refine .bind (settles_pathOnCall _ _) fun path => ?_
        split
        · exact .bind (.of_total (total_report _)) fun _ => hintern _ _
        · exact .of_total (.pure _)
      · exact .fail _
    · exact hintern _ _

/-- Only gaps are handed to the solver, so treating a propagator outside of gaps does not
run out of fuel. -/
theorem settles_expand (host : Host σ) (e : EngineId) (a : Nat) (flows : FlowSet)
    {id : PropagatorId} {p : Propagator} {s : Session σ} (hp : (s.arena a).get? id = some p)
    (hgap : p.gap = none) : ((expand host e a flows id).exec s).1 ≠ .error .outOfFuel := by
  unfold expand
  rw [exec_get_bind]
  simp only [hp, hgap, Option.isSome_none, Bool.false_and, Bool.false_eq_true, if_false]
  refine Settles.bind (.of_total (total_report _)) (fun _ => ?_) s
  unfold flowsOf
  rw [hgap]
  refine .bind (.of_total (.pure _)) fun found => ?_
  exact .bind (.mapM (settles_follow a id) _) fun _ => .of_total (.pure _)

end Engine

/-! ## Stocks -/

/-- The paths over some steps up to a length. -/
def pathsOver (steps : List FieldStep) : Nat → List (List FieldStep)
  | 0 => [[]]
  | n + 1 => [] :: steps.flatMap fun step => (pathsOver steps n).map (step :: ·)

theorem mem_pathsOver {steps path : List FieldStep} {n : Nat} :
    path ∈ pathsOver steps n ↔ path ⊆ steps ∧ path.length ≤ n := by
  induction n generalizing path with
  | zero =>
      cases path with
      | nil => simp [pathsOver]
      | cons step path => simp [pathsOver]
  | succ n ih =>
      cases path with
      | nil => simp [pathsOver]
      | cons step path =>
          simp only [pathsOver, List.mem_cons, reduceCtorEq, false_or, List.mem_flatMap,
            List.mem_map, List.cons.injEq, ih, List.cons_subset, List.length_cons,
            Nat.add_le_add_iff_right]
          constructor
          · rintro ⟨first, hfirst, rest, ⟨hsteps, hlength⟩, rfl, rfl⟩
            exact ⟨⟨hfirst, hsteps⟩, hlength⟩
          · rintro ⟨⟨hstep, hsteps⟩, hlength⟩
            exact ⟨step, hstep, path, ⟨hsteps, hlength⟩, rfl, rfl⟩

/-- What propagators outside of gaps can be put together from: call sites, and roles,
static types, fields and boundaries of taints, with a bound on the length of paths. -/
structure Stock where
  sites : List (Option SiteKey)
  roles : List TaintRole
  bases : List String
  steps : List FieldStep
  gaps : List (Option Gap)
  longest : Nat

namespace Stock

/-- A taint is put together from a stock. -/
structure Draws (k : Stock) (t : Taint) : Prop where
  role : t.role ∈ k.roles
  base : t.base ∈ k.bases
  steps : t.path ⊆ k.steps
  longest : t.path.length ≤ k.longest
  gap : t.gap ∈ k.gaps

/-- The taints that can be put together from a stock. -/
def taints (k : Stock) : List Taint :=
  k.roles.flatMap fun role => k.bases.flatMap fun base =>
    (pathsOver k.steps k.longest).flatMap fun path => [false, true].flatMap fun subFields =>
      k.gaps.map fun gap => ⟨role, base, path, subFields, gap⟩

/-- The layers at the bottom of a stack that can be put together from a stock. -/
def layers (k : Stock) : List Layer :=
  k.taints.flatMap fun taint => k.sites.flatMap fun site =>
    [false, true].map fun inverse => ⟨taint, none, site, inverse⟩

theorem mem_taints {k : Stock} {t : Taint} : t ∈ k.taints ↔ k.Draws t := by
  obtain ⟨role, base, path, subFields, gap⟩ := t
  simp only [taints, List.mem_flatMap, List.mem_map, Place.mk.injEq]
  constructor
  · rintro ⟨_, hrole, _, hbase, _, hpath, _, -, _, hgap, rfl, rfl, rfl, rfl, rfl⟩
    obtain ⟨hsteps, hlength⟩ := mem_pathsOver.1 hpath
    exact ⟨hrole, hbase, hsteps, hlength, hgap⟩
  · rintro ⟨hrole, hbase, hsteps, hlength, hgap⟩
    exact ⟨role, hrole, base, hbase, path, mem_pathsOver.2 ⟨hsteps, hlength⟩, subFields,
      by cases subFields <;> simp, gap, hgap, rfl, rfl, rfl, rfl, rfl⟩

theorem mem_layers {k : Stock} {l : Layer} :
    l ∈ k.layers ↔ k.Draws l.taint ∧ l.gap = none ∧ l.site ∈ k.sites := by
  obtain ⟨taint, gap, site, inverse⟩ := l
  simp only [layers, List.mem_flatMap, List.mem_map, Layer.mk.injEq, mem_taints]
  constructor
  · rintro ⟨_, htaint, _, hsite, _, -, rfl, rfl, rfl, rfl⟩
    exact ⟨htaint, rfl, hsite⟩
  · rintro ⟨htaint, rfl, hsite⟩
    exact ⟨taint, htaint, site, hsite, inverse, by cases inverse <;> simp, rfl, rfl, rfl, rfl⟩

end Stock

/-! ## Flows that do not lengthen paths -/

namespace Flow

/-- The flow stays in the method and does not lengthen paths, and if it is followed both
ways it does not shorten them either. -/
structure Shrinks (flow : Flow) : Prop where
  gapFree : flow.isGapFree = true
  length : flow.sink.path.length ≤ flow.source.path.length
  level : (flow.along true).isSome = true → flow.sink.path.length = flow.source.path.length

/-- Both ends of a flow. -/
def ends (flow : Flow) : List Endpoint := [flow.source, flow.sink]

/-- A flow as it is followed does not lengthen paths either. -/
theorem Shrinks.along {flow followed : Flow} (h : flow.Shrinks) {inverse : Bool}
    (halong : flow.along inverse = some followed) :
    followed.sink ∈ flow.ends ∧ followed.sink.gap = none ∧
      followed.sink.path.length ≤ followed.source.path.length ∧
      followed.sink.path.length ≤ flow.sink.path.length := by
  have hgaps : flow.source.gap = none ∧ flow.sink.gap = none := by
    have hfree := h.gapFree
    simpa [isGapFree] using hfree
  cases inverse with
  | false =>
      cases halong
      exact ⟨by simp [ends], hgaps.2, h.length, Nat.le_refl _⟩
  | true =>
      have hlevel := h.level (Option.isSome_iff_exists.2 ⟨followed, halong⟩)
      rw [Flow.along, if_pos rfl] at halong
      split at halong
      · cases halong
        exact ⟨by simp [ends, reverse], hgaps.1, Nat.le_of_eq hlevel.symm, Nat.le_of_eq hlevel.symm⟩
      · cases halong

end Flow

/-- The role that a taint has at an endpoint. -/
def Endpoint.taintRole (e : Endpoint) : TaintRole := .ofKind e.kind e.index

/-- The length of a path behind a flow that does not lengthen paths. -/
theorem Taint.length_movedTo_le {t : Taint} {source sink : Endpoint} {gap : Option Gap}
    (h : sink.path.length ≤ source.path.length) :
    (t.movedTo source sink gap).path.length ≤ max t.path.length sink.path.length := by
  show (sink.path ++ t.residual source).length ≤ _
  rw [Taint.residual, List.length_append, List.length_drop]
  omega

namespace Replay

/-- What a replay meets outside of gaps is put together from: where it starts and what
its flows mention. -/
def stock (x : Replay σ) : Stock where
  sites := x.starts.flatten.map (·.site)
  roles := .field :: x.starts.flatten.map (·.taint.role) ++
    (x.flows.toList.flatMap Flow.ends).map Endpoint.taintRole
  bases := x.starts.flatten.map (·.taint.base) ++ (x.flows.toList.flatMap Flow.ends).map (·.base)
  steps := x.starts.flatten.flatMap (·.taint.path) ++
    (x.flows.toList.flatMap Flow.ends).flatMap (·.path)
  gaps := none :: x.starts.flatten.map (·.taint.gap)
  longest := (x.starts.flatten.map (·.taint.path.length) ++
    x.flows.toList.map (·.sink.path.length)).foldr max 0

variable {x : Replay σ}

theorem le_longest {n : Nat} (h : n ∈ x.starts.flatten.map (·.taint.path.length) ++
    x.flows.toList.map (·.sink.path.length)) : n ≤ x.stock.longest :=
  List.le_max_of_le' 0 h (Nat.le_refl n)

/-- Where a replay starts is put together from its stock. -/
theorem mem_layers_of_start {l : Layer} (hstart : [l] ∈ x.starts) (hgap : l.gap = none) :
    l ∈ x.stock.layers := by
  have hl : l ∈ x.starts.flatten := List.mem_flatten.2 ⟨[l], hstart, List.mem_singleton_self l⟩
  refine Stock.mem_layers.2 ⟨⟨?_, ?_, ?_, ?_, ?_⟩, hgap, List.mem_map_of_mem hl⟩
  · exact List.mem_append_left _ (List.mem_cons_of_mem _ (List.mem_map.2 ⟨l, hl, rfl⟩))
  · exact List.mem_append_left _ (List.mem_map.2 ⟨l, hl, rfl⟩)
  · exact fun step hstep => List.mem_append_left _ (List.mem_flatMap.2 ⟨l, hl, hstep⟩)
  · exact le_longest (List.mem_append_left _ (List.mem_map.2 ⟨l, hl, rfl⟩))
  · exact List.mem_cons_of_mem _ (List.mem_map.2 ⟨l, hl, rfl⟩)

/-- A flow makes of a taint from the stock another one. -/
theorem draws_movedTo {flow followed : Flow} (hflow : flow ∈ x.flows) (hshrinks : flow.Shrinks)
    {inverse : Bool} (halong : flow.along inverse = some followed) {t : Taint}
    (ht : x.stock.Draws t) : x.stock.Draws (t.movedTo followed.source followed.sink none) := by
  obtain ⟨hend, -, hlength, hsink⟩ := hshrinks.along halong
  have hends : followed.sink ∈ x.flows.toList.flatMap Flow.ends :=
    List.mem_flatMap.2 ⟨flow, OrdSet.mem_toList.2 hflow, hend⟩
  refine ⟨?_, ?_, ?_, ?_, List.mem_cons_self⟩
  · -- a residual makes a field of the base object of a gap
    show TaintRole.ofKind _ _ ∈ _
    split
    · exact List.mem_cons_self
    · exact List.mem_append_right _ (List.mem_map.2 ⟨_, hends, rfl⟩)
  · exact List.mem_append_right _ (List.mem_map.2 ⟨_, hends, rfl⟩)
  · intro step hstep
    rcases List.mem_append.1 hstep with hstep | hstep
    · exact List.mem_append_right _ (List.mem_flatMap.2 ⟨_, hends, hstep⟩)
    · exact ht.steps (List.mem_of_mem_drop hstep)
  · have hlongest : flow.sink.path.length ≤ x.stock.longest :=
      le_longest (List.mem_append_right _ (List.mem_map.2 ⟨flow, OrdSet.mem_toList.2 hflow, rfl⟩))
    have hmoved : (t.movedTo followed.source followed.sink none).path.length ≤
        max t.path.length followed.sink.path.length := Taint.length_movedTo_le hlength
    have htaint := ht.longest
    omega

/-- What a replay reaches outside of gaps by flows that do not lengthen paths is put
together from its stock. -/
theorem drawn_of_reach (hstarts : ∀ st ∈ x.starts, ∃ l : Layer, st = [l] ∧ l.gap = none)
    (hflows : ∀ flow ∈ x.flows, flow.Shrinks) {resolved : Stack → Stack → Prop} {st : Stack}
    (h : x.Reach resolved st) : ∃ l ∈ x.stock.layers, st = [l] := by
  have hleads : ∀ {l : Layer} {out : Stack}, l ∈ x.stock.layers → x.rules.Leads [l] out →
      ∃ t, x.stock.Draws t ∧ out = [⟨t, none, l.site, false⟩] := by
    rintro l out hl ⟨top, below, followed, heq, hfollowed, happlied⟩
    obtain ⟨rfl, rfl⟩ := List.cons.inj heq
    obtain ⟨hdraws, hgap, -⟩ := Stock.mem_layers.1 hl
    obtain ⟨flow, hflow, halong⟩ := List.mem_filterMap.1 hfollowed
    rw [hgap] at hflow
    have hshrinks := hflows flow (OrdSet.mem_toList.1 hflow)
    rcases Hierarchy.applyToStack?_cases happlied with ⟨gap, hsink, -⟩ | ⟨-, rfl⟩
    · cases hsink.symm.trans (hshrinks.along halong).2.1
    · exact ⟨_, draws_movedTo (OrdSet.mem_toList.1 hflow) hshrinks halong hdraws, by rw [hgap]; rfl⟩
  induction h with
  | start hst =>
      obtain ⟨l, rfl, hgap⟩ := hstarts _ hst
      exact ⟨l, mem_layers_of_start hst hgap, rfl⟩
  | resolve _ unsummarised _ ih =>
      obtain ⟨l, hl, heq⟩ := ih
      obtain ⟨rfl, rfl⟩ := List.cons.inj heq
      obtain ⟨gap, hgap, -⟩ := unsummarised
      cases hgap.symm.trans (Stock.mem_layers.1 hl).2.1
  | follow _ leads _ ih =>
      obtain ⟨l, hl, rfl⟩ := ih
      obtain ⟨t, ht, rfl⟩ := hleads hl leads
      exact ⟨⟨t, none, l.site, false⟩,
        Stock.mem_layers.2 ⟨ht, rfl, (Stock.mem_layers.1 hl).2.2⟩, rfl⟩
  | invert _ leads _ _ ih =>
      obtain ⟨l, hl, rfl⟩ := ih
      obtain ⟨t, ht, heq⟩ := hleads hl leads
      obtain ⟨rfl, rfl⟩ := List.cons.inj heq
      exact ⟨⟨t, none, l.site, true⟩,
        Stock.mem_layers.2 ⟨ht, rfl, (Stock.mem_layers.1 hl).2.2⟩, rfl⟩

/-- A replay starts outside of gaps, at the bottom of its stacks. -/
def StartsAtBottom (x : Replay σ) : Prop :=
  ∀ id ∈ x.initial, ∃ p, (x.session.arena x.arena).get? id = some p ∧ p.gap = none ∧ p.parent = none

theorem StartsAtBottom.starts (h : x.StartsAtBottom) (hgrounded : x.session.Grounded) :
    ∀ st ∈ x.starts, ∃ l : Layer, st = [l] ∧ l.gap = none := by
  intro st hst
  obtain ⟨id, hid, rfl⟩ := List.mem_map.1 hst
  obtain ⟨p, hp, hgap, hparent⟩ := h id hid
  refine ⟨p.layer, ?_, hgap⟩
  rw [Arena.stack_eq (hgrounded x.arena) hp, Arena.stackOver, hparent]
  rfl

/-- How many propagators a replay can treat if it meets only what can be put together
from its stock. Those that it starts from more than once are treated each time. -/
def capacity (x : Replay σ) : Nat :=
  x.stock.layers.dedup.length + (x.initial.length - x.initial.dedup.length)

section Bounded

variable {solver : Solver σ} {steps depth n : Nat} {f : Frontier} {s : Session σ}

/-- What was ever queued is put together from the stock. -/
theorem drawn_of_seen (hosted : x.host = Engine.host solver steps depth)
    (hgrounded : x.session.Grounded) (hbottom : x.StartsAtBottom)
    (hflows : ∀ flow ∈ x.flows, flow.Shrinks) (h : x.after n = some (f, s)) :
    s.Grounded ∧ (Policy.free solver).Evolves x.session s ∧
      (∀ id ∈ f.queue.toList, id ∈ f.seen) ∧
      ∀ id ∈ f.seen, ∃ l ∈ x.stock.layers, (s.arena x.arena).Holds id [l] := by
  have hstored : ∀ id ∈ x.initial, ∃ st, (x.session.arena x.arena).Holds id st := by
    intro id hid
    obtain ⟨p, hp, -⟩ := hbottom id hid
    exact ⟨_, .of_get? (hgrounded x.arena) hp⟩
  obtain ⟨hs, hnow⟩ := underway_of_after (Policy.free_admits solver)
    (hosted ▸ Policy.free_hosts solver steps depth)
    (fun t _ _ => x.mayWait_of_lenient (Policy.free_lenient solver) t) hgrounded hstored h
  refine ⟨hs, hnow.since, hnow.progress.queued, fun id hid => ?_⟩
  obtain ⟨st, hheld, hreach⟩ := hnow.progress.reached id hid
  obtain ⟨l, hl, rfl⟩ := drawn_of_reach (hbottom.starts hgrounded) hflows hreach
  exact ⟨l, hl, hheld⟩

/-- What is taken from the queue stands outside of gaps. -/
theorem outside_of_taken (hosted : x.host = Engine.host solver steps depth)
    (hgrounded : x.session.Grounded) (hbottom : x.StartsAtBottom)
    (hflows : ∀ flow ∈ x.flows, flow.Shrinks) (h : x.after n = some (f, s)) {id : PropagatorId}
    {rest : Queue PropagatorId} (hpop : f.queue.pop? = some (id, rest)) :
    ∃ p, (s.arena x.arena).get? id = some p ∧ p.gap = none := by
  obtain ⟨hs, -, hqueued, hdrawn⟩ := drawn_of_seen hosted hgrounded hbottom hflows h
  have hfirst : id ∈ f.queue.toList := Queue.toList_eq_of_pop? hpop ▸ List.mem_cons_self
  obtain ⟨l, hl, hheld⟩ := hdrawn id (hqueued id hfirst)
  obtain ⟨p, hp⟩ := hheld.get?
  have hstack := hheld.1
  rw [Arena.stack_eq (hs x.arena) hp, Arena.stackOver] at hstack
  obtain ⟨rfl, -⟩ := List.cons.inj hstack
  exact ⟨p, hp, (Stock.mem_layers.1 hl).2.1⟩

/-- The stock bounds how many propagators were ever queued. -/
theorem size_seen_le {a : Arena} (hgrounded : a.Grounded) (hdistinct : a.Distinct)
    {layers : List Layer} (h : ∀ id ∈ f.seen, ∃ l ∈ layers, a.Holds id [l]) :
    f.seen.size ≤ layers.dedup.length := by
  -- different propagators stand for different stacks
  have hnodup : (f.seen.toList.map a.stack).Nodup := by
    refine List.Nodup.map_on (fun id hid id' hid' heq => ?_) f.nodup_seen
    obtain ⟨l, -, hl⟩ := h id (Std.TreeSet.mem_toList.1 hid)
    obtain ⟨l', -, hl'⟩ := h id' (Std.TreeSet.mem_toList.1 hid')
    exact Arena.Holds.unique hgrounded hdistinct hl ⟨heq ▸ hl.1, hl.2⟩
  have hsubset : f.seen.toList.map a.stack ⊆ layers.dedup.map fun l => [l] := by
    intro st hst
    obtain ⟨id, hid, rfl⟩ := List.mem_map.1 hst
    obtain ⟨l, hl, hheld⟩ := h id (Std.TreeSet.mem_toList.1 hid)
    exact List.mem_map.2 ⟨l, List.mem_dedup.2 hl, hheld.1.symm⟩
  have hlength := (List.Nodup.subperm hnodup hsubset).length_le
  rw [List.length_map, List.length_map, Std.TreeSet.length_toList] at hlength
  exact hlength

/-- The capacity bounds the rounds and what waits to be treated. -/
theorem rounds_le_capacity (hosted : x.host = Engine.host solver steps depth)
    (hgrounded : x.session.Grounded) (hdistinct : x.session.Distinct) (hbottom : x.StartsAtBottom)
    (hflows : ∀ flow ∈ x.flows, flow.Shrinks) (h : x.after n = some (f, s)) :
    n + f.queue.toList.length ≤ x.capacity := by
  obtain ⟨hs, hevolves, -, hdrawn⟩ := drawn_of_seen hosted hgrounded hbottom hflows h
  have hseen := size_seen_le (hs x.arena) (hevolves.distinct hdistinct x.arena) hdrawn
  have hcount := count_after h
  have hdedup : x.initial.dedup.length ≤ x.initial.length := x.initial.dedup_sublist.length_le
  rw [capacity]
  omega

end Bounded

end Replay

/-- A replay without limit of flows that do not lengthen paths comes to an end, if it
starts outside of gaps. However much fuel it has from some number on, its queue is empty
after at most that many rounds, or one of these ends in an error. The number is that of
the different propagators that can be put together from the call sites it starts from
and the roles, types and fields that its flows and its first taints mention, with paths
no longer than the longest first path or sink. A propagator that it starts from more
than once counts each time. -/
theorem shrinking_flows_come_to_an_end (x : Replay σ) {solver : Solver σ} {steps depth : Nat}
    (hosted : x.host = Engine.host solver steps depth) (grounded : x.session.Grounded)
    (distinct : x.session.Distinct) (unlimited : x.limit = none) (bottom : x.StartsAtBottom)
    (shrinking : ∀ flow ∈ x.flows, flow.Shrinks) {fuel : Nat} (enough : x.capacity ≤ fuel) :
    (x.initial.Nodup → x.capacity = x.stock.layers.dedup.length) ∧
      ((∃ n f t, n ≤ x.capacity ∧ x.after n = some (f, t) ∧ f.queue.toList = [] ∧
          x.run fuel = (.ok f.collected, t)) ∨
        ∃ n f s err t, n < x.capacity ∧ x.after n = some (f, s) ∧
          x.run fuel = (.error (.error err), t)) := by
  have hbound : ∀ {n f s}, x.after n = some (f, s) → n + f.queue.toList.length ≤ x.capacity :=
    fun h => x.rounds_le_capacity hosted grounded distinct bottom shrinking h
  have hroom : ∀ {n f s}, x.after n = some (f, s) → f.Waiting → n < x.capacity := by
    intro n f s h hwaiting
    have hsome := List.length_pos_iff.2 hwaiting
    have := hbound h
    omega
  refine ⟨fun hnodup => ?_, ?_⟩
  · rw [Replay.capacity, hnodup.dedup, Nat.sub_self, Nat.add_zero]
  · have hends := x.ends_run fuel
    rw [unlimited] at hends
    rcases hrun : x.run fuel with ⟨outcome, t⟩
    rw [hrun] at hends
    cases hends with
    | done rounds _ _ done =>
        exact .inl ⟨_, _, _, Nat.le_of_add_right_le (hbound rounds), rounds, not_not.1 done, rfl⟩
    | cutOff _ reached => cases reached
    | @failed n f s _ id rest failure rounds _ _ taken fails =>
        cases failure with
        | error err =>
            exact .inr ⟨n, f, s, err, t, hroom rounds (Frontier.waiting_of_pop? taken), rounds, rfl⟩
        | outOfFuel =>
            obtain ⟨p, hp, hgap⟩ := x.outside_of_taken hosted grounded bottom shrinking rounds taken
            refine absurd ?_ (Engine.settles_expand x.host x.engine x.arena x.flows hp hgap)
            rw [fails]
    | exhausted rounds _ waiting => exact absurd (hroom rounds waiting) (Nat.not_lt.2 enough)

namespace Sample

def content : FieldStep := ⟨"<Box: java.lang.Object content>", object⟩

/-- The content of the argument and that of the result are the same object. -/
def sharing : Flow :=
  ⟨apply.subSignature, { Endpoint.parameter 0 object with path := [content] },
    { Endpoint.ofKind .returned object with path := [content] }, true⟩

/-- A replay of the library method from the content of its argument. What is found in
the result is followed back to the argument, and from there to the result again. -/
def sharingReplay : Replay Scripted where
  host := Scripted.host 5
  engine := 0
  arena := 0
  flows := OrdSet.ofList [sharing]
  initial := [⟨0⟩]
  session :=
    let taint := .ofKind .parameter (some 0) object [content] false none
    { Session.start hierarchy program Bodies.empty Scripted.empty [engine] with
      arenas := [(Arena.empty.intern (.root taint site false)).2] }

theorem shrinks_sharing : ∀ flow ∈ sharingReplay.flows, flow.Shrinks := by
  intro flow hflow
  obtain rfl : flow = sharing := by simpa [sharingReplay, OrdSet.mem_ofList] using hflow
  exact ⟨by decide, by decide, fun _ => by decide⟩

/-- The content of the argument and that of the result lead to each other, and the replay
comes to an end. -/
theorem sharingReplay_comes_to_an_end :
    (∀ flow ∈ sharingReplay.flows, flow.Shrinks) ∧ sharingReplay.StartsAtBottom ∧
      ((∃ n f t, n ≤ sharingReplay.stock.layers.dedup.length ∧
          sharingReplay.after n = some (f, t) ∧ f.queue.toList = [] ∧
          sharingReplay.run sharingReplay.capacity = (.ok f.collected, t)) ∨
        ∃ n f s err t, n < sharingReplay.stock.layers.dedup.length ∧
          sharingReplay.after n = some (f, s) ∧
          sharingReplay.run sharingReplay.capacity = (.error (.error err), t)) := by
  have hgrounded : sharingReplay.session.Grounded := by
    intro a
    cases a with
    | zero => exact Arena.grounded_empty.intern fun parent hparent => by cases hparent
    | succ n => exact Arena.grounded_empty
  have hdistinct : sharingReplay.session.Distinct := by
    intro a
    cases a with
    | zero => exact Arena.distinct_empty.intern _
    | succ n => exact Arena.distinct_empty
  have hbottom : sharingReplay.StartsAtBottom := by
    intro id hid
    obtain rfl := List.mem_singleton.1 hid
    exact ⟨_, rfl, rfl, rfl⟩
  obtain ⟨hcapacity, hends⟩ := shrinking_flows_come_to_an_end sharingReplay rfl hgrounded
    hdistinct (by decide +kernel) hbottom shrinks_sharing (Nat.le_refl _)
  have hbound := hcapacity (by decide)
  refine ⟨shrinks_sharing, hbottom, ?_⟩
  rw [hbound] at hends
  rw [hbound]
  exact hends

end Sample

end TaintReplay
