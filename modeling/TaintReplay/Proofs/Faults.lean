import TaintReplay.Engine.Query
import TaintReplay.Proofs.Resumption

/-!
# The errors of a replay

Which error treating a propagator ends in, if it ends in one, can be told from
its stack. A replay fails where a summary speaks of a place that the method has
not: a taint that enters a gap has to stand somewhere in each method that can be
entered there, and a taint that comes out at the bottom has to stand somewhere
at the call. The first such place that is missing is the error of the replay
(`Rules.fault`), whatever the solver does in between.

`Run.Faults` says this of a program: it fails exactly with the error foreseen.
Programs that cannot fail at all are *total*. A host can keep a program from
ending by running out of fuel, but not make it fail.

## Main results

* `Run.Faults.bind`, `Run.Faults.mapM`: the error of a program is the first of those of its parts.
* `Engine.reliable_host`: handing an edge over never fails.
* `Engine.faults_expand`: treating a propagator ends in the error of its stack.
-/

namespace TaintReplay

variable {σ α β : Type}

/-! ## Programs that cannot fail -/

namespace Run

/-- The program ends in a value, from every session. -/
def Total (x : Run σ α) : Prop := ∀ s, ∃ a t, x.exec s = (.ok a, t)

namespace Total

protected theorem pure (a : α) : Total (pure a : Run σ α) := fun s => ⟨a, s, rfl⟩

protected theorem get : Total (get : Run σ (Session σ)) := fun s => ⟨s, s, rfl⟩

protected theorem modify (g : Session σ → Session σ) : Total (modify g : Run σ PUnit) :=
  fun s => ⟨(), g s, rfl⟩

protected theorem bind {x : Run σ β} {f : β → Run σ α} (hx : x.Total) (hf : ∀ b, (f b).Total) :
    (x >>= f).Total := by
  intro s
  obtain ⟨b, t, hrun⟩ := hx s
  obtain ⟨a, u, hrest⟩ := hf b t
  refine ⟨a, u, ?_⟩
  rw [exec_bind, hrun]
  exact hrest

protected theorem map {x : Run σ β} (g : β → α) (hx : x.Total) : (g <$> x).Total := by
  rw [map_eq_pure_bind]
  exact hx.bind fun b => .pure _

protected theorem mapM {f : β → Run σ α} (hf : ∀ b, (f b).Total) (xs : List β) :
    (xs.mapM f).Total := by
  induction xs with
  | nil => exact .pure _
  | cons x xs ih =>
      rw [List.mapM_cons]
      exact (hf x).bind fun _ => ih.bind fun _ => .pure _

protected theorem forM {f : β → Run σ PUnit} (hf : ∀ b, (f b).Total) (xs : List β) :
    (xs.forM f).Total := by
  induction xs with
  | nil => exact .pure _
  | cons x xs ih => exact (hf x).bind fun _ => ih

end Total

theorem total_report (event : Event) : (report event : Run σ Unit).Total := .modify _

theorem total_reportIf (c : Bool) (event : Event) : (reportIf c event : Run σ Unit).Total := by
  cases c with
  | true => exact total_report event
  | false => exact .pure _

theorem total_ensureClass (name : String) : (ensureClass name : Run σ Unit).Total := by
  unfold ensureClass
  refine .bind .get fun s => ?_
  split
  · exact .bind (total_report _) fun _ => .modify _
  · exact .pure _

theorem total_openArena : (openArena : Run σ Nat).Total := fun s => ⟨_, _, exec_openArena s⟩

theorem total_intern (a : Nat) (p : Propagator) : (intern a p : Run σ PropagatorId).Total :=
  fun s => ⟨_, _, exec_intern a p s⟩

end Run

open Run

namespace Engine

theorem total_lookup (e : EngineId) (classes : OrdSet String) (sub : String) :
    (lookup e classes sub : Run σ ClassSummaries).Total := by
  unfold lookup
  refine .bind .get fun s => ?_
  exact .bind (total_reportIf _ _) fun _ => .bind (.modify _) fun _ => .pure _

theorem total_lookupTargets (e : EngineId) (targets : OrdSet String) (sub : String) :
    (lookupTargets e targets sub : Run σ ClassSummaries).Total := by
  unfold lookupTargets
  split
  · exact .pure _
  · exact total_lookup e targets sub

theorem total_summariesFor (e : EngineId) (stmt : Option StmtId) (callee : MethodSignature) :
    (summariesFor e stmt callee : Run σ ClassSummaries).Total := by
  unfold summariesFor
  refine .bind .get fun s => .bind (total_lookupTargets _ _ _) fun found => ?_
  split
  · exact total_lookup _ _ _
  · exact .pure _

theorem total_flowsForGap (e : EngineId) (g : Gap) : (flowsForGap e g : Run σ FlowSet).Total := by
  have hmethod : ∀ m, (flowsForMethod e m : Run σ FlowSet).Total := by
    intro m
    cases m with
    | none => exact .pure _
    | some m => exact .map _ (total_summariesFor _ _ _)
  unfold flowsForGap
  refine .bind .get fun s => .bind (hmethod _) fun flows => ?_
  split
  · split
    · exact .pure _
    · exact .bind (total_report _) fun _ => .pure _
  · exact .pure _

theorem total_resolveFields (t : Taint) : (resolveFields t : Run σ _).Total := by
  unfold resolveFields
  refine .bind (.forM total_ensureClass _) fun _ => ?_
  split
  · exact .pure _
  · exact .bind (total_report _) fun _ => .pure _

theorem total_internWithInverse (a : Nat) (p : Propagator) :
    (internWithInverse a p : Run σ _).Total := by
  unfold internWithInverse
  refine .bind (total_intern a p) fun id => ?_
  split
  · exact .bind (total_intern _ _) fun _ => .pure _
  · exact .pure _

theorem total_countMiss (e : EngineId) (direction : Direction) (callee : MethodSignature) :
    (countMiss e direction callee : Run σ Unit).Total := by
  unfold countMiss
  refine .bind .get fun s => ?_
  split
  · refine .bind (.modify _) fun _ => ?_
    split
    · exact total_report _
    · exact .pure _
  · exact .pure _

theorem total_countHit (e : EngineId) (direction : Direction) :
    (countHit e direction : Run σ Unit).Total := by
  unfold countHit
  split
  · exact .modify _
  · exact .pure _

/-- The body of a method that has one can be loaded. -/
theorem total_ensureBody {m : Method} (hcode : m.isAbstract = false) :
    (ensureBody m : Run σ Unit).Total := by
  unfold ensureBody
  refine .bind .get fun s => ?_
  split
  · exact .pure _
  · have hload : s.bodies.load m = .ok { s.bodies with
        active := s.bodies.active.insert m.id, loads := s.bodies.loads + 1 } := by
      rw [Bodies.load, if_neg (by simp [hcode])]
    rw [hload]
    exact .bind (total_report _) fun _ => .bind (total_report _) fun _ => .modify _

end Engine

/-! ## Programs that fail as foreseen -/

/-- The error that a computation ends in, if it does. -/
def faultOf : Except AnalysisError α → Option AnalysisError
  | .ok _ => none
  | .error e => some e

theorem faultOf_map (f : α → β) (x : Except AnalysisError α) : faultOf (x.map f) = faultOf x := by
  cases x <;> rfl

namespace Run

/-- From a session, the program ends in an error if one is foreseen, and then in
that one. It runs out of fuel only if something stalls. -/
def Faults (stalls : Prop) (s : Session σ) (x : Run σ α) (fault : Option AnalysisError) : Prop :=
  match (x.exec s).1 with
  | .ok _ => fault = none
  | .error (.error e) => fault = some e
  | .error .outOfFuel => stalls

variable {stalls : Prop} {s : Session σ} {fault : Option AnalysisError}

theorem Total.faults {x : Run σ α} (h : x.Total) : Faults stalls s x none := by
  obtain ⟨a, t, hrun⟩ := h s
  rw [Faults, hrun]

namespace Faults

theorem of_ok {x : Run σ α} (h : Faults stalls s x fault) {a : α} {t : Session σ}
    (hrun : x.exec s = (.ok a, t)) : fault = none := by
  rw [Faults, hrun] at h
  exact h

theorem of_error {x : Run σ α} (h : Faults stalls s x fault) {e : AnalysisError} {t : Session σ}
    (hrun : x.exec s = (.error (.error e), t)) : fault = some e := by
  rw [Faults, hrun] at h
  exact h

theorem mono {x : Run σ α} (h : Faults stalls s x fault) {stalls' : Prop}
    (hstalls : stalls → stalls') : Faults stalls' s x fault := by
  rw [Faults] at h ⊢
  match hrun : (x.exec s).1 with
  | .ok a =>
      rw [hrun] at h
      exact h
  | .error (.error e) =>
      rw [hrun] at h
      exact h
  | .error .outOfFuel =>
      rw [hrun] at h
      exact hstalls h

protected theorem fail (e : AnalysisError) : Faults stalls s (fail e : Run σ α) (some e) := rfl

theorem get_bind {f : Session σ → Run σ α} (h : Faults stalls s (f s) fault) :
    Faults stalls s (get >>= f) fault := by
  rw [Faults, exec_get_bind]
  exact h

/-- The error of two programs, one after the other, is that of the first or else
that of the second. -/
protected theorem bind {x : Run σ β} {f : β → Run σ α} {rest : Option AnalysisError}
    (hx : Faults stalls s x fault)
    (hf : ∀ b t, x.exec s = (.ok b, t) → Faults stalls t (f b) rest) :
    Faults stalls s (x >>= f) (fault.or rest) := by
  rw [Faults] at hx
  rw [Faults, exec_bind]
  match hrun : x.exec s with
  | (.ok b, t) =>
      rw [hrun] at hx
      rw [show fault = none from hx, Option.none_or]
      exact hf b t hrun
  | (.error (.error e), t) =>
      rw [hrun] at hx
      rw [show fault = some e from hx]
      rfl
  | (.error .outOfFuel, t) =>
      rw [hrun] at hx
      exact hx

/-- After a program that does not fail, the error is that of the rest. -/
theorem andThen {x : Run σ β} {f : β → Run σ α} (hx : Faults stalls s x none)
    (hf : ∀ b t, x.exec s = (.ok b, t) → Faults stalls t (f b) fault) :
    Faults stalls s (x >>= f) fault :=
  hx.bind hf

/-- Before a program that does not fail, the error is that of the first. -/
theorem before {x : Run σ β} {f : β → Run σ α} (hx : Faults stalls s x fault)
    (hf : ∀ b t, x.exec s = (.ok b, t) → Faults stalls t (f b) none) :
    Faults stalls s (x >>= f) fault := by
  have hall := hx.bind hf
  rw [Option.or_none] at hall
  exact hall

theorem ofExcept (x : Except AnalysisError α) :
    Faults stalls s (Run.ofExcept x : Run σ α) (faultOf x) := by
  cases x <;> rfl

/-- The error of a loop is that of the first round that fails. -/
protected theorem mapM {law : Law σ} {P : Session σ → Prop} {f : β → Run σ α}
    {faults : β → Option AnalysisError} {xs : List β} (hP : law.Stable P)
    (hmeets : ∀ x ∈ xs, law.Meets P (f x) fun _ _ => True)
    (hf : ∀ x ∈ xs, ∀ t, P t → Faults stalls t (f x) (faults x)) (hs : P s) :
    Faults stalls s (xs.mapM f) (xs.findSome? faults) := by
  induction xs generalizing s with
  | nil => exact (Total.pure _).faults
  | cons x xs ih =>
      have hor : (x :: xs).findSome? faults = (faults x).or (xs.findSome? faults) := by
        rw [List.findSome?_cons]
        cases faults x <;> rfl
      rw [List.mapM_cons, hor]
      refine (hf x List.mem_cons_self s hs).bind fun y t hrun => ?_
      have hstep := ((hmeets x List.mem_cons_self).of_ok hs hrun).1
      have hrest := ih (fun y hy => hmeets y (List.mem_cons_of_mem _ hy))
        (fun y hy => hf y (List.mem_cons_of_mem _ hy)) (hP hs hstep)
      exact hrest.before fun _ _ _ => (Total.pure _).faults

/-- A loop none of whose rounds fails does not fail. -/
protected theorem forM {f : β → Run σ PUnit} (hf : ∀ x t, Faults stalls t (f x) none)
    (xs : List β) : Faults stalls s (xs.forM f) none := by
  induction xs generalizing s with
  | nil => exact (Total.pure _).faults
  | cons x xs ih => exact (hf x s).andThen fun _ _ _ => ih

end Faults

end Run

/-! ## Hosts -/

/-- Handing an edge over does not fail, and runs out of fuel only if something
stalls. -/
def Host.Reliable (stalls : Prop) (host : Host σ) : Prop :=
  ∀ edge s, Faults stalls s (host.deliver edge) none

/-- Handing an edge over never fails: an error in answering a report goes to the
solver. -/
theorem Engine.reliable_host (solver : Solver σ) (fuel depth : Nat) :
    (Engine.host solver fuel depth).Reliable True := by
  have hover : ∀ edge, (handOver solver edge).Total := fun edge s => ⟨_, _, rfl⟩
  have hrespond : ∀ (host : Host σ) r s, Faults True s (respond host fuel r) none := by
    intro host r s
    rw [respond, Faults, exec_tryCatch]
    match (discard (handleExit host fuel r) : Run σ PUnit).exec s with
    | (.ok a, t) => rfl
    | (.error (.error e), t) => rfl
    | (.error .outOfFuel, t) => trivial
  intro edge s
  show Faults True s (deliver solver fuel depth edge) none
  unfold deliver
  cases depth with
  | zero =>
      refine (hover edge).faults.andThen fun reports t _ => ?_
      split
      · exact (Total.pure _).faults
      · trivial
  | succ depth => exact (hover edge).faults.andThen fun reports t _ => .forM (hrespond _) reports

/-! ## The errors of stacks -/

/-- The methods that the solver is sent into from a gap without flows. -/
def Session.entrances (s : Session σ) (gap : Gap) : List Method :=
  (s.gapMethods gap).filter (Engine.canEnter s.hierarchy)

/-- They stay the same as long as lookups do. -/
theorem Session.Serves.entrances {s t : Session σ} (h : s.Serves t) :
    t.entrances = s.entrances := by
  funext gap
  rw [Session.entrances, Session.entrances, h.gapMethods, funext h.canEnter]

theorem Session.Grows.entrances {s t : Session σ} (h : s.Grows t) :
    t.entrances = s.entrances :=
  h.serves.entrances

/-- The error of a taint at the call, for a stack on the surface. -/
def Program.faultAt (program : Program) : Stack → Option AnalysisError
  | [l] =>
    if l.taint.gap.isNone then
      l.site.bind fun key => faultOf (program.pathOnCall l.taint key.stmt)
    else none
  | _ => none

namespace Rules

/-- The error of following a flow. -/
def flowFault (r : Rules) (st : Stack) (flow : Flow) : Option AnalysisError :=
  (r.apply flow st).bind r.program.faultAt

/-- The error of entering the gap that the top of a stack is in, given the methods
to enter. -/
def entryFault (r : Rules) (entrances : Gap → List Method) (top : Layer) : Option AnalysisError :=
  top.gap.bind fun gap =>
    if (r.gapFlows gap).isEmpty then
      (entrances gap).findSome? fun m => faultOf (m.pathInside top.taint)
    else none

/-- The error of treating a stack, given the methods to enter. -/
def fault (r : Rules) (entrances : Gap → List Method) : Stack → Option AnalysisError
  | [] => none
  | top :: below =>
    (r.entryFault entrances top).or ((r.flowsFrom top).findSome? (r.flowFault (top :: below)))

end Rules

namespace Engine

variable {stalls : Prop} {s : Session σ}

/-! ## Paths -/

theorem faults_pathInside (t : Taint) (m : Method) :
    Faults stalls s (pathInside t m) (faultOf (m.pathInside t)) := by
  rw [Method.pathInside, faultOf_map]
  unfold pathInside
  refine (Faults.ofExcept _).before fun base u _ => ?_
  refine (total_resolveFields t).faults.andThen fun fields v _ => ?_
  cases fields with
  | none => exact (Total.pure _).faults
  | some fields => exact (Total.pure _).faults

theorem faults_pathOnCall (t : Taint) (stmt : StmtId) :
    Faults stalls s (pathOnCall t stmt) (faultOf (s.program.pathOnCall t stmt)) := by
  unfold pathOnCall
  refine Faults.get_bind ?_
  rw [Program.pathOnCall]
  cases s.program.stmt? stmt with
  | none => exact Faults.fail _
  | some code =>
      simp only [faultOf_map]
      refine (Faults.ofExcept _).before fun base u _ => ?_
      cases base with
      | none => exact (Total.pure _).faults
      | some l =>
          refine (total_resolveFields t).faults.andThen fun fields v _ => ?_
          cases fields with
          | none => exact (Total.pure _).faults
          | some fields => exact (Total.pure _).faults

/-! ## Gaps -/

/-- Sending the solver into a method with code fails if the taint has no place
there. -/
theorem faults_spawn {host : Host σ} (hhost : host.Reliable stalls) (e : EngineId) (a : Nat)
    (id : PropagatorId) (p : Propagator) {m : Method} (hcode : m.isAbstract = false) :
    Faults stalls s (spawn host e a id p m) (faultOf (m.pathInside p.taint)) := by
  unfold spawn
  refine (total_ensureBody hcode).faults.andThen fun _ t _ => ?_
  refine (faults_pathInside p.taint m).before fun path u _ => ?_
  cases path with
  | none => exact (Total.pure _).faults
  | some path =>
      refine (Total.modify _).faults.andThen fun _ v _ => Faults.get_bind ?_
      refine (Faults.forM (fun _ _ => hhost _ _) _).andThen fun _ w _ => ?_
      refine (total_report _).faults.andThen fun _ w' _ => Faults.get_bind ?_
      exact (Total.pure _).faults

theorem not_isAbstract_of_canEnter {h : Hierarchy} {m : Method} (henter : canEnter h m = true) :
    m.isAbstract = false := by
  unfold canEnter at henter
  simp only [Bool.and_eq_true, Bool.not_eq_true'] at henter
  exact henter.1.1

/-- The first error among the members that pass a test. -/
theorem findSome?_filter (test : β → Bool) (f : β → Option α) (xs : List β) :
    (xs.filter test).findSome? f = xs.findSome? fun x => if test x then f x else none := by
  induction xs with
  | nil => rfl
  | cons x xs ih =>
      rw [List.findSome?_cons, List.filter_cons]
      by_cases hx : test x = true
      · rw [if_pos hx, if_pos hx, List.findSome?_cons, ih]
      · rw [if_neg hx, if_neg hx, ih]

section Treat

variable {policy : Policy σ} {P : Session σ → Prop} {sent : PathEdge → Session σ → Prop}
  {host : Host σ} {e : EngineId} {a : Nat} {id : PropagatorId}

/-- Sending the solver into all methods that may run in a gap without flows fails
with the first that has no place for the taint. -/
theorem faults_resolveGap (h : policy.Admits P) (hhost : policy.Hosts P sent host)
    (hreliable : host.Reliable stalls) {p : Propagator} {gap : Gap} (hgap : p.gap = some gap)
    (hready : ∀ s, P s → (s.arena a).get? id = some p ∧ (s.gapFlows e gap).isEmpty = true)
    (hwaits : ∀ s, P s → policy.waits s e ⟨a, id⟩) (hs : P s) :
    Faults stalls s (resolveGap host e a id p gap)
      ((s.entrances gap).findSome? fun m => faultOf (m.pathInside p.taint)) := by
  unfold resolveGap
  refine Faults.get_bind ?_
  have hsince := h.and (Law.Stable.since s)
  cases hcallee : (s.program.findMethod? gap.signature).bind s.program.method? with
  | none =>
      have hnone : s.entrances gap = [] := by
        rw [Session.entrances, Session.gapMethods, hcallee]
        rfl
      simp only [hcallee, hnone]
      exact (total_report _).faults.andThen fun _ _ _ => (Total.pure _).faults
  | some callee =>
      have hlist : (s.program.implementors s.hierarchy callee).toList.filterMap s.program.method? =
          s.gapMethods gap := by
        rw [Session.gapMethods, hcallee]
      simp only [hcallee, hlist]
      rw [Session.entrances, findSome?_filter]
      refine Faults.before ?_ fun found t _ => (Total.pure _).faults
      refine Faults.mapM hsince.stable (fun m hm => ?_) (fun m _ t ht => ?_)
        (show P s ∧ policy.law.step s s from ⟨hs, .refl⟩)
      · refine (meets_trySpawn hsince hhost.and hgap (fun t ht => hready t ht.1)
          (fun t ht => hwaits t ht.1) fun t ht => ?_).weaken fun _ _ _ => trivial
        rw [(Policy.Evolves.grows ht.2).gapMethods]
        exact hm
      · refine Faults.get_bind ?_
        rw [(Policy.Evolves.grows ht.2).canEnter]
        by_cases henter : canEnter s.hierarchy m = true
        · rw [if_pos henter, if_pos henter]
          exact faults_spawn hreliable e a id p (not_isAbstract_of_canEnter henter)
        · rw [if_neg henter, if_neg henter]
          exact (Total.pure _).faults

/-- Finding the flows of the method that a propagator is in fails if its gap cannot
be entered. -/
theorem faults_flowsOf (h : policy.Admits P) (hhost : policy.Hosts P sent host)
    (hreliable : host.Reliable stalls) {r : Rules} {flows : FlowSet}
    (hr : ∀ s, P s → s.rules e flows = r) {p : Propagator}
    (hid : ∀ s, P s → (s.arena a).get? id = some p)
    (hwaits : ∀ s, P s → policy.waits s e ⟨a, id⟩) (hs : P s) :
    Faults stalls s (flowsOf host e a flows id p) (r.entryFault s.entrances p.layer) := by
  unfold flowsOf
  rw [Rules.entryFault, show p.layer.gap = p.gap from rfl]
  cases hgap : p.gap with
  | none => exact (Total.pure _).faults
  | some gap =>
      refine (total_flowsForGap e gap).faults.andThen fun found t hrun => ?_
      obtain ⟨hst, hfound⟩ := (meets_flowsForGap h e gap).of_ok hs hrun
      have ht := h.stable hs hst
      have hflows : found = r.gapFlows gap := by
        rw [hfound, ← hr t ht]
        rfl
      rw [Option.bind_some, ← hflows, ← (Policy.Evolves.grows hst).entrances]
      by_cases hempty : found.isEmpty = true
      · rw [if_pos hempty, if_pos hempty]
        have hnone : ∀ t, P t → (t.gapFlows e gap).isEmpty = true := by
          intro t ht
          rw [hflows, ← hr t ht] at hempty
          exact hempty
        refine Faults.before (faults_resolveGap h hhost hreliable hgap
          (fun t ht => ⟨hid t ht, hnone t ht⟩) hwaits ht) fun left u _ => ?_
        exact (Total.mapM (total_intern a) left).faults.andThen fun _ _ _ => (Total.pure _).faults
      · rw [if_neg hempty, if_neg hempty]
        exact (Total.pure _).faults

/-! ## Propagators -/

/-- In a sound session, following a flow fails if its result is a taint that has no
place at the call. -/
theorem faults_follow {r : Rules} {flows : FlowSet} (hr : s.rules e flows = r) (hs : s.Sound)
    {st : Stack} (hid : (s.arena a).Holds id st) (flow : Flow) :
    Faults stalls s (follow a id flow) (r.flowFault st flow) := by
  unfold follow
  refine Faults.get_bind ?_
  have hgrounded := (hs.stacked a).grounded
  have happly := s.hierarchy.applyToStack?_stack hgrounded flow id
  rw [hid.1] at happly
  rw [Rules.flowFault, show r.apply = s.hierarchy.applyToStack? by rw [← hr]; rfl,
    show r.program = s.program by rw [← hr]; rfl, happly]
  cases hq : s.hierarchy.applyFlow? (s.arena a) flow id with
  | none => exact (Total.pure _).faults
  | some q =>
      have hparent := Hierarchy.hasParent_of_applyFlow? hgrounded hq
      have hderived : (s.arena a).Derives s.IsCall q := .flow hq
      have hframed := hderived.framed (hs.stacked a)
      rw [Option.map_some, Option.bind_some]
      simp only
      split
      · rename_i htop
        obtain ⟨hnone, hgap⟩ := Bool.and_eq_true_iff.1 htop
        have hbottom := Option.isNone_iff_eq_none.1 hnone
        rw [(Arena.stackOver_eq_singleton_iff hgrounded hparent).2 hbottom, Program.faultAt,
          if_pos (show q.layer.taint.gap.isNone = true from hgap),
          show q.layer.site = q.site.map CallSite.key from rfl]
        cases hsite : q.site with
        | none =>
            have hcall := hframed.site
            rw [hsite, hbottom] at hcall
            cases hcall
        | some site =>
            refine (faults_pathOnCall q.taint site.stmt).before fun path t _ => ?_
            cases path with
            | none => exact (Total.pure _).faults
            | some path =>
                refine (total_report _).faults.andThen fun _ u _ => ?_
                exact (total_internWithInverse a q).faults.andThen fun _ _ _ =>
                  (Total.pure _).faults
      · rename_i htop
        -- a result that is not on the surface has no place to miss
        have hdeep : s.program.faultAt ((s.arena a).stackOver q) = none := by
          have hsurface := Arena.isSurface_stackOver hgrounded hparent
          rw [Bool.eq_false_iff.2 htop] at hsurface
          rw [Program.faultAt.eq_def]
          split
          · rename_i l hl
            rw [hl, Stack.isSurface] at hsurface
            rw [if_neg (by simp [hsurface])]
          · rfl
        rw [hdeep]
        exact (total_internWithInverse a q).faults.andThen fun _ _ _ => (Total.pure _).faults

/-- In sound sessions, treating a propagator ends in the error of its stack. -/
theorem faults_expand (h : policy.Admits P) (hsound : ∀ s, P s → s.Sound)
    (hhost : policy.Hosts P sent host) (hreliable : host.Reliable stalls) {r : Rules}
    {flows : FlowSet} (hr : ∀ s, P s → s.rules e flows = r) {top : Layer} {below : Stack}
    (hid : ∀ s, P s → (s.arena a).Holds id (top :: below))
    (hwaits : ∀ s, P s → policy.waits s e ⟨a, id⟩) (hs : P s) :
    Faults stalls s (expand host e a flows id) (r.fault s.entrances (top :: below)) := by
  unfold expand
  refine Faults.get_bind ?_
  obtain ⟨p, hp⟩ := (hid s hs).get?
  have htop : p.layer = top := by
    have hstack := (hid s hs).1
    rw [Arena.stack_eq (h.grounded hs a) hp, Arena.stackOver, List.cons.injEq] at hstack
    exact hstack.1
  have hsince := h.and (Law.Stable.since s)
  have hstored : ∀ t, P t ∧ policy.law.step s t → (t.arena a).get? id = some p :=
    fun t ht => (Policy.Evolves.grows ht.2).get? hp
  simp only [hp]
  refine (total_report _).faults.andThen fun _ w hreport => ?_
  have hsw : policy.law.step s w := ((Run.meets_report _).of_ok hs hreport).1
  have hw : P w ∧ policy.law.step s w := ⟨h.stable hs hsw, hsw⟩
  split
  · -- in a sound session what is in a gap has a parent
    rename_i hlost
    rw [Bool.and_eq_true] at hlost
    have hgap := (((hsound s hs).stacked a).framed hp).gap
    rw [hlost.1, Option.isNone_iff_eq_none.1 hlost.2] at hgap
    cases hgap
  · rw [Rules.fault, ← (Policy.Evolves.grows hsw).entrances, ← htop]
    refine Faults.bind (faults_flowsOf hsince hhost.and hreliable (fun t ht => hr t ht.1) hstored
      (fun t ht => hwaits t ht.1) hw) fun x u hrun => ?_
    obtain ⟨hwu, hflows, -⟩ := (runs_flowsOf hsince hhost.and (fun t ht => hr t ht.1) hstored
      (fun t ht => hwaits t ht.1) hw).of_ok hrun
    obtain ⟨found, entered⟩ := x
    have hfrom : found.toList.filterMap p.orient = r.flowsFrom p.layer := by
      rw [show found = r.flowsAt p.gap from hflows]
      rfl
    rw [htop] at hfrom ⊢
    simp only [hfrom]
    refine Faults.before (Faults.mapM hsince.stable (fun flow _ => ?_) (fun flow _ t ht => ?_)
      (hsince.stable hw hwu)) fun _ _ _ => (Total.pure _).faults
    · exact (meets_follow hsince (fun t ht => hr t ht.1) (fun t ht => hid t ht.1) flow).weaken
        fun _ _ _ => trivial
    · exact faults_follow (hr t ht.1) (hsound t ht.1) (hid t ht.1) flow

end Treat

end Engine

end TaintReplay
