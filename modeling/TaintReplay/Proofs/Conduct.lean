import TaintReplay.Engine.Worklist
import TaintReplay.Proofs.Evolution

/-!
# What the parts of a replay do

One statement for each program that a replay is made of: which steps it takes,
which errors it may fail with, and what its value is. Values are described
without the session's mutable parts: what a lookup finds, what a flow makes of
a stack, and which path a taint stands for stay the same while the session
grows.

A policy *admits* an assumption about sessions if its steps keep it, arenas are
grounded under it, and errors that the policy does not permit are internal ones
that cannot occur under it. Internal errors tell of a propagator that is not
where a replay can put one; in a sound session there is no such propagator.

## Main results

* `Engine.meets_summariesFor`, `Engine.meets_flowsForGap`: what lookups find.
* `Engine.meets_pathOnCall`, `Engine.meets_pathInside`: the paths that taints stand for.
* `Run.meets_intern`: names for what is derived.
* `Engine.meets_spawn`, `Engine.meets_resolveGap`: who waits, what the solver is given, and what
  comes back at once.
-/

namespace TaintReplay

variable {σ α : Type}

/-- The errors that tell of a propagator out of place. -/
def AnalysisError.IsInternal : AnalysisError → Prop
  | gapWithoutParent _ | rootWithoutCallSite _ | notACall _ => True
  | _ => False

/-- Assumptions that programs can be judged under. -/
structure Policy.Admits (policy : Policy σ) (P : Session σ → Prop) : Prop where
  stable : policy.law.Stable P
  grounded : ∀ ⦃s⦄, P s → s.Grounded
  excused : ∀ e, policy.errors e ∨ e.IsInternal ∧ ∀ s, P s → s.Sound

namespace Policy.Admits

variable {policy : Policy σ} {P Q : Session σ → Prop}

/-- More may be assumed if steps keep it. -/
theorem and (h : policy.Admits P) (hQ : policy.law.Stable Q) :
    policy.Admits fun s => P s ∧ Q s where
  stable := h.stable.and hQ
  grounded _ hs := h.grounded hs.1
  excused e := (h.excused e).imp_right fun he => ⟨he.1, fun s hs => he.2 s hs.1⟩

/-- More may be assumed if steps keep it together with what is assumed already. -/
theorem of_stable (h : policy.Admits P) (hQ : policy.law.Stable fun s => P s ∧ Q s) :
    policy.Admits fun s => P s ∧ Q s where
  stable := hQ
  grounded _ hs := h.grounded hs.1
  excused e := (h.excused e).imp_right fun he => ⟨he.1, fun s hs => he.2 s hs.1⟩

/-- An error that is not internal is permitted. -/
theorem errors_of_not_internal (h : policy.Admits P) {e : AnalysisError} (he : ¬ e.IsInternal) :
    policy.errors e :=
  (h.excused e).resolve_right fun hex => he hex.1

/-- An error that cannot occur in a sound session is permitted where it occurs. -/
theorem errors_of_unsound (h : policy.Admits P) {e : AnalysisError} {s : Session σ} (hs : P s)
    (he : ¬ s.Sound) : policy.errors e :=
  (h.excused e).resolve_right fun hex => he (hex.2 s hs)

end Policy.Admits

section Basic

variable {policy : Policy σ} {P : Session σ → Prop}

/-! ## Single steps -/

/-- A program that takes one permitted step. -/
theorem Policy.meets_modify {g : Session σ → Session σ} (h : ∀ s, P s → policy.Step s (g s)) :
    policy.law.Meets P (modify g) fun _ _ => True :=
  Law.Meets.modify fun s hs => ⟨.single (h s hs), trivial⟩

namespace Run

theorem meets_report (event : Event) : policy.law.Meets P (report event) fun _ _ => True :=
  Policy.meets_modify fun s _ => .report s event

theorem meets_ensureClass (h : policy.Admits P) (name : String) :
    policy.law.Meets P (ensureClass name) fun _ _ => True := by
  unfold ensureClass
  refine Law.Meets.get_bind fun s hs => ?_
  split
  · refine Law.Meets.andThen (h.stable.and (.since s)) (meets_report _) fun _ => ?_
    exact Policy.meets_modify fun t _ => .mention t name
  · exact Law.Meets.pure fun _ _ => trivial

/-- A computation without session is taken over with its value or error. -/
theorem meets_ofExcept {x : Except AnalysisError α}
    (herror : ∀ e s, x = .error e → P s → policy.errors e) :
    policy.law.Meets P (ofExcept x) fun a _ => x = .ok a := by
  cases hx : x with
  | ok a => exact Law.Meets.pure fun _ _ => rfl
  | error e => exact Law.Meets.fail fun s hs => herror e s hx hs

theorem exec_openArena (s : Session σ) :
    exec openArena s = (.ok s.arenas.length, { s with arenas := s.arenas ++ [Arena.empty] }) := rfl

/-- A new arena belongs to the session, and those there were have smaller numbers. -/
theorem meets_openArena {n : Nat} (hn : ∀ s, P s → n ≤ s.arenas.length) :
    policy.law.Meets P openArena fun a t => n ≤ a ∧ a < t.arenas.length := by
  intro s hs
  rw [Law.Runs, exec_openArena]
  exact ⟨.single (.openArena s), hn s hs, by simp⟩

theorem exec_intern (a : Nat) (q : Propagator) (s : Session σ) :
    exec (intern a q) s =
      (.ok ((s.arena a).intern q).1,
        { s with arenas := s.arenas.set a ((s.arena a).intern q).2 }) := rfl

end Run

/-- A name of an arena leads to a propagator that is the same as another. -/
def Arena.Names (a : Arena) (id : PropagatorId) (q : Propagator) : Prop :=
  ∃ p, a.get? id = some p ∧ (p == q) = true

theorem Arena.Names.within {a b : Arena} (hab : a.Within b) {id : PropagatorId} {q : Propagator}
    (h : a.Names id q) : b.Names id q := by
  obtain ⟨p, hp, hsame⟩ := h
  exact ⟨p, hab.get? hp, hsame⟩

theorem Arena.Names.stack {a : Arena} (grounded : a.Grounded) {id : PropagatorId} {q : Propagator}
    (h : a.Names id q) : a.stack id = a.stackOver q := by
  obtain ⟨p, hp, hsame⟩ := h
  obtain ⟨hlayer, hparent⟩ := Propagator.beq_iff_layer.1 hsame
  rw [stack_eq grounded hp, stackOver, stackOver, hlayer, hparent]

theorem Policy.stable_names (a : Nat) (id : PropagatorId) (q : Propagator) :
    policy.law.Stable fun s => (s.arena a).Names id q :=
  Policy.stable_of_grows fun _ _ hst h => h.within (hst.arena a)

/-- Interning what is derived gives a name to it. -/
theorem Run.meets_intern {a : Nat} {q : Propagator}
    (hq : ∀ s, P s → a < s.arenas.length ∧ (s.arena a).Derives s.IsCall q) :
    policy.law.Meets P (Run.intern a q) fun id t => (t.arena a).Names id q := by
  intro s hs
  obtain ⟨hknown, hderived⟩ := hq s hs
  rw [Law.Runs, exec_intern]
  refine ⟨.single (.intern s hknown hderived), ?_⟩
  obtain ⟨p, hp, hsame⟩ := Arena.get?_intern (s.arena a) q
  refine ⟨p, ?_, hsame⟩
  rw [Session.arena_set s a a _ hknown, if_pos rfl]
  exact hp

namespace Engine

/-! ## Lookups -/

/-- Looking a method up finds what the engine knows and changes nothing else
about it. -/
theorem meets_lookup (e : EngineId) (classes : OrdSet String) (sub : String) :
    policy.law.Meets P (lookup e classes sub) fun found t =>
      found = (t.engine e).found classes sub := by
  intro s hs
  let key : LookupKey := ⟨classes, sub⟩
  let t : Session σ :=
    if ((s.engine e).memo.get? key).isNone then
      { s with history := .lookedUp sub classes.size :: s.history }
    else s
  have hexec : Run.exec (lookup e classes sub) s =
      (.ok ((s.engine e).found classes sub),
        t.modifyEngine e fun engine => { engine with memo := (s.engine e).learn key }) := by
    unfold lookup
    rw [Run.exec_get_bind, Run.exec_bind]
    have hreport : Run.exec (Run.reportIf ((s.engine e).memo.get? key).isNone
        (.lookedUp sub classes.size)) s = (.ok (), t) := by
      simp only [t, Run.reportIf]
      split <;> rfl
    rw [hreport]
    have hfound := Memo.snd_compute (s.engine e).memo key
      ((s.engine e).store.methodFlows classes sub)
    refine Prod.ext ?_ rfl
    exact congrArg (fun found => Except.ok (Option.getD found ClassSummaries.empty)) hfound
  have htwice : t.engine e = s.engine e := by
    simp only [t]
    split <;> rfl
  have hsteps : policy.Evolves s
      (t.modifyEngine e fun engine => { engine with memo := (s.engine e).learn key }) := by
    have hfirst : policy.Evolves s t := by
      simp only [t]
      split
      · exact .single (.report s _)
      · exact .refl
    exact hfirst.tail (htwice ▸ .learn t e key)
  rw [Law.Runs, hexec]
  refine ⟨hsteps, ?_⟩
  exact ((Policy.Evolves.grows hsteps).engine e).found classes sub |>.symm

theorem meets_lookupTargets (e : EngineId) (targets : OrdSet String) (sub : String) :
    policy.law.Meets P (lookupTargets e targets sub) fun found t =>
      found = if targets.isEmpty then ClassSummaries.empty
        else (t.engine e).found targets sub := by
  unfold lookupTargets
  cases targets.isEmpty with
  | true => exact Law.Meets.pure fun _ _ => rfl
  | false => exact meets_lookup e targets sub

theorem meets_summariesFor (h : policy.Admits P) (e : EngineId) (stmt : Option StmtId)
    (callee : MethodSignature) :
    policy.law.Meets P (summariesFor e stmt callee) fun found t =>
      found = t.summaries e stmt callee := by
  unfold summariesFor
  refine Law.Meets.get_bind fun s hs => ?_
  have hsince := h.stable.and (.since s)
  let targets := (stmt.map fun stmt => s.program.targetClasses s.hierarchy stmt).getD OrdSet.empty
  have htargets : policy.law.Meets (fun t => P t ∧ policy.law.step s t)
      (lookupTargets e targets callee.subSignature) fun first _ =>
        first = if targets.isEmpty then ClassSummaries.empty
          else (s.engine e).found targets callee.subSignature := by
    refine ((meets_lookupTargets e targets _).keep hsince).weaken ?_
    rintro first t ⟨⟨-, hst⟩, hfirst⟩
    rw [hfirst, ((Policy.Evolves.grows hst).engine e).found]
  refine Law.Meets.bind hsince htargets fun first => Law.Meets.assume fun hfirst => ?_
  have hall : s.summaries e stmt callee =
      if first.isEmpty then
        (s.engine e).found (s.hierarchy.instanceClasses (s.program.staticClass stmt callee))
          callee.subSignature
      else first := by
    rw [hfirst]
    rfl
  by_cases hempty : first.isEmpty = true
  · rw [if_pos hempty]
    refine ((meets_lookup e _ _).keep hsince).weaken ?_
    rintro found u ⟨⟨-, hsu⟩, hfound⟩
    have hgrows := Policy.Evolves.grows hsu
    rw [hgrows.summaries, hfound, (hgrows.engine e).found, hall, if_pos hempty]
  · rw [if_neg hempty]
    refine Law.Meets.pure fun u hu => ?_
    rw [(Policy.Evolves.grows hu.2).summaries, hall, if_neg hempty]

/-- The flows of a method that the program may have. -/
theorem meets_flowsForMethod (h : policy.Admits P) (e : EngineId) (m : Option Method) :
    policy.law.Meets P (flowsForMethod e m) fun flows t =>
      flows = (m.map fun m => (t.summaries e none m.signature).allFlows).getD OrdSet.empty := by
  cases m with
  | none => exact Law.Meets.pure fun _ _ => rfl
  | some m =>
      refine Law.Meets.map ((meets_summariesFor h e none m.signature).weaken ?_)
      rintro found t rfl
      rfl

theorem meets_flowsForGap (h : policy.Admits P) (e : EngineId) (g : Gap) :
    policy.law.Meets P (flowsForGap e g) fun flows t => flows = t.gapFlows e g := by
  unfold flowsForGap
  refine Law.Meets.get_bind fun s hs => ?_
  have hsince := h.and (Law.Stable.since s)
  let method := (s.program.findMethod? g.signature).bind s.program.method?
  have hmethod : policy.law.Meets (fun t => P t ∧ policy.law.step s t) (flowsForMethod e method)
      fun flows _ => flows = (method.map fun m =>
        (s.summaries e none m.signature).allFlows).getD OrdSet.empty := by
    refine ((meets_flowsForMethod hsince e method).keep hsince.stable).weaken ?_
    rintro flows t ⟨⟨-, hst⟩, hflows⟩
    simpa only [(Policy.Evolves.grows hst).summaries] using hflows
  refine Law.Meets.bind hsince.stable hmethod fun flows => Law.Meets.assume fun hflows => ?_
  have hall : ∀ u, policy.law.step s u → u.gapFlows e g =
      if flows.isEmpty then s.storedFlows e g.signature else flows := by
    intro u hu
    rw [(Policy.Evolves.grows hu).gapFlows, hflows]
    rfl
  by_cases hempty : flows.isEmpty = true
  · rw [if_pos hempty]
    cases hown : (s.engine e).store.flowsForSignature g.signature with
    | ok own =>
        refine Law.Meets.pure fun u hu => ?_
        rw [hall u hu.2, if_pos hempty, Session.storedFlows, hown]
    | error err =>
        refine Law.Meets.andThen hsince.stable (Run.meets_report _) fun _ => ?_
        refine Law.Meets.pure fun u hu => ?_
        rw [hall u hu.2, if_pos hempty, Session.storedFlows, hown]
  · rw [if_neg hempty]
    refine Law.Meets.pure fun u hu => ?_
    rw [hall u hu.2, if_neg hempty]

/-! ## Paths -/

/-- The fields of a taint are read, or reported as unreadable. -/
theorem meets_resolveFields (h : policy.Admits P) (t : Taint) :
    policy.law.Meets P (resolveFields t) fun fields _ => fields = t.fields? := by
  unfold resolveFields
  have hclasses : policy.law.Meets P ((readFields t.path).classes.forM Run.ensureClass)
      fun _ _ => True :=
    (Law.Meets.forM h.stable (fun _ => .true) fun name _ => Run.meets_ensureClass h name).weaken
      fun _ _ _ => trivial
  refine Law.Meets.andThen h.stable hclasses fun _ => ?_
  unfold Taint.fields?
  cases (readFields t.path).error with
  | none => exact Law.Meets.pure fun _ _ => rfl
  | some e =>
      refine Law.Meets.andThen h.stable (Run.meets_report _) fun _ => ?_
      exact Law.Meets.pure fun _ _ => rfl

/-- A call has a place for every taint or the summary does not fit: the
conversion fails for want of a call only where there is none. -/
theorem call?_eq_none_of_localOnCall {stmt : Stmt} {t : Taint} {e : AnalysisError}
    (h : stmt.localOnCall t = .error e) (internal : e.IsInternal) : stmt.call? = none := by
  unfold Stmt.localOnCall at h
  cases hcall : stmt.call? with
  | none => rfl
  | some call =>
      rw [hcall] at h
      cases hrole : t.role with
      | returned => simp [hrole] at h
      | parameter index =>
          simp only [hrole] at h
          split at h
          · simp at h
          · cases h
            exact absurd internal id
      | field =>
          simp only [hrole] at h
          split at h
          · simp at h
          · cases h
            exact absurd internal id
      | gapBase =>
          simp only [hrole] at h
          split at h
          · simp at h
          · cases h
            exact absurd internal id

theorem not_internal_of_localInside {m : Method} {t : Taint} {e : AnalysisError}
    (h : m.localInside t = .error e) : ¬ e.IsInternal := by
  unfold Method.localInside at h
  split at h
  · cases h
    exact id
  · split at h
    · cases h
    · cases h
      exact id
  all_goals
    split at h
    · cases h
    · cases h
      exact id

/-- The path of a taint at a call. In a sound session the statement has to be a
call. -/
theorem meets_pathOnCall (h : policy.Admits P) (t : Taint) {stmt : StmtId}
    (hcall : ∀ s, P s → s.Sound → s.IsCall stmt) :
    policy.law.Meets P (pathOnCall t stmt) fun path u =>
      u.program.pathOnCall t stmt = .ok path := by
  unfold pathOnCall
  refine Law.Meets.get_bind fun s hs => ?_
  have hsince := h.and (Law.Stable.since s)
  have hprogram : ∀ u, policy.law.step s u → u.program = s.program :=
    fun u hu => (Policy.Evolves.grows hu).program
  -- without a call at the statement the session is not sound, and the error is permitted
  have hnone : s.program.call? stmt = none → ∀ e, policy.errors e := by
    intro hnone e
    refine h.errors_of_unsound hs fun hsound => ?_
    have := hcall s hs hsound
    rw [Session.IsCall, hnone] at this
    cases this
  cases hstmt : s.program.stmt? stmt with
  | none =>
      refine Law.Meets.fail fun _ _ => hnone ?_ _
      rw [Program.call?, hstmt, Option.bind_none]
  | some code =>
      have hlocal : policy.law.Meets (fun u => P u ∧ policy.law.step s u)
          (Run.ofExcept (code.localOnCall t)) fun base _ => code.localOnCall t = .ok base := by
        refine Run.meets_ofExcept fun e u he hu => ?_
        by_cases hinternal : e.IsInternal
        · refine hnone ?_ e
          rw [Program.call?, hstmt, Option.bind_some]
          exact call?_eq_none_of_localOnCall he hinternal
        · exact h.errors_of_not_internal hinternal
      refine Law.Meets.bind hsince.stable hlocal fun base => Law.Meets.assume fun hbase => ?_
      have hpath : ∀ u, policy.law.step s u → u.program.pathOnCall t stmt =
          .ok (base.bind fun l => t.fields?.map fun fields => t.toPath l fields t.subFields) := by
        intro u hu
        rw [Program.pathOnCall, hprogram u hu, hstmt]
        simp only [hbase, Except.map]
      cases base with
      | none => exact Law.Meets.pure fun u hu => hpath u hu.2
      | some l =>
          refine Law.Meets.bind hsince.stable (meets_resolveFields hsince t) fun fields => ?_
          refine Law.Meets.assume fun hfields => ?_
          cases fields with
          | none =>
              refine Law.Meets.pure fun u hu => ?_
              rw [hpath u hu.2, ← hfields]
              rfl
          | some fields =>
              refine Law.Meets.pure fun u hu => ?_
              rw [hpath u hu.2, ← hfields]
              rfl

/-- The path of a taint inside a method. -/
theorem meets_pathInside (h : policy.Admits P) (t : Taint) (m : Method) :
    policy.law.Meets P (pathInside t m) fun path _ => m.pathInside t = .ok path := by
  unfold pathInside
  have hlocal : policy.law.Meets P (Run.ofExcept (m.localInside t))
      fun base _ => m.localInside t = .ok base :=
    Run.meets_ofExcept fun e _ he _ => h.errors_of_not_internal (not_internal_of_localInside he)
  refine Law.Meets.bind h.stable hlocal fun base => Law.Meets.assume fun hbase => ?_
  refine Law.Meets.bind h.stable (meets_resolveFields h t) fun fields => ?_
  refine Law.Meets.assume fun hfields => ?_
  have hpath : m.pathInside t = .ok (fields.map fun fields => t.toPath base fields true) := by
    rw [Method.pathInside, hbase, hfields]
    rfl
  cases fields with
  | none => exact Law.Meets.pure fun _ _ => hpath
  | some fields => exact Law.Meets.pure fun _ _ => hpath

theorem meets_ensureBody (h : policy.Admits P) (m : Method) :
    policy.law.Meets P (ensureBody m) fun _ _ => True := by
  unfold ensureBody
  refine Law.Meets.get_bind fun s hs => ?_
  have hsince := h.stable.and (.since s)
  split
  · exact Law.Meets.pure fun _ _ => trivial
  · cases s.bodies.load m with
    | error e => exact Law.Meets.fail fun _ _ => h.errors_of_not_internal id
    | ok bodies =>
        refine Law.Meets.andThen hsince (Run.meets_report _) fun _ => ?_
        refine Law.Meets.andThen hsince (Run.meets_report _) fun _ => ?_
        exact Policy.meets_modify fun u _ => .load u bodies.announceChange

end Engine

/-! ## Calls back into analysed code -/

/-- A host under a policy: handing over a permitted edge keeps to the policy and
leaves the edge *sent*, seeds that a replay waits for are permitted, and the
answers are those of the solver. -/
structure Policy.Hosts (policy : Policy σ) (P : Session σ → Prop)
    (sent : PathEdge → Session σ → Prop) (host : Host σ) : Prop where
  solver : host.solver = policy.solver
  deliver : ∀ edge, policy.law.Meets (fun s => P s ∧ policy.sends s edge) (host.deliver edge)
    fun _ t => sent edge t
  stable : ∀ edge, policy.law.Stable (sent edge)
  seeds : ∀ s edge, P s → s.Seeds edge → policy.sends s edge

theorem Policy.Hosts.and {sent : PathEdge → Session σ → Prop} {host : Host σ}
    (h : policy.Hosts P sent host) {Q : Session σ → Prop} :
    policy.Hosts (fun s => P s ∧ Q s) sent host where
  solver := h.solver
  deliver edge := (h.deliver edge).strengthen fun _ hs => ⟨hs.1.1, hs.2⟩
  stable := h.stable
  seeds s edge hs := h.seeds s edge hs.1

/-- The exits of methods entered with a seed. -/
abbrev ExitTable := MethodId → Fact → List Exit

/-- The exits that a solver knows in a state. -/
def Solver.table (solver : Solver σ) (state : σ) : ExitTable :=
  fun m seed => (solver.endSummary state m seed).getD []

/-- The exits that a table has for a taint taken into a method. -/
def ExitTable.exitsFor (table : ExitTable) (m : Method) (t : Taint) : List Exit :=
  match m.pathInside t with
  | .ok (some path) => table m.id (.ofPath path)
  | _ => []

/-- The taints by which exits leave a gap. -/
def Program.exitTaints (program : Program) (exits : List Exit) (gap : Option Gap) : List Taint :=
  (OrdSet.ofList (exits.flatMap fun exit =>
    (program.taintsOnReturn exit.fact.path exit.stmt gap).toList)).toList

/-- The solver was sent into a method: the replay waits, the seeds were sent,
and what is left are the taints at the exits known at some moment. -/
structure Session.Spawned (t : Session σ) (solver : Solver σ) (sent : PathEdge → Session σ → Prop)
    (e : EngineId) (c : Continuation) (p : Propagator) (m : Method) (left : List Propagator) :
    Prop where
  left : ∃ state, left = (t.arena c.arena).leaveFrame p
    (t.program.exitTaints ((solver.table state).exitsFor m p.taint) p.gap)
  registered : ∀ path, m.pathInside p.taint = .ok (some path) → t.Registered e ⟨path, m.id⟩ c
  sent : ∀ path, m.pathInside p.taint = .ok (some path) → ∀ start ∈ t.program.startPoints m.id,
    sent ⟨.ofPath path, start, .ofPath path⟩ t

/-- The solver was sent into one of the methods that may run in a gap, unless it
cannot be. -/
def Session.Tried (t : Session σ) (solver : Solver σ) (sent : PathEdge → Session σ → Prop)
    (e : EngineId) (c : Continuation) (p : Propagator) (m : Method) (left : List Propagator) :
    Prop :=
  if Engine.canEnter t.hierarchy m then t.Spawned solver sent e c p m left else left = []

/-- The solver was sent into all methods that may run in a gap. -/
def Session.Resolved (t : Session σ) (solver : Solver σ) (sent : PathEdge → Session σ → Prop)
    (e : EngineId) (c : Continuation) (p : Propagator) (gap : Gap) (left : List Propagator) :
    Prop :=
  ∃ found : List (List Propagator), left = found.flatten ∧
    List.Forall₂ (fun m left => t.Tried solver sent e c p m left) (t.gapMethods gap) found

namespace Engine

variable {sent : PathEdge → Session σ → Prop} {host : Host σ}

theorem stable_registered (e : EngineId) (seed : Seed) (c : Continuation) :
    policy.law.Stable fun t => t.Registered e seed c := by
  refine Policy.stable_of_grows fun s t hst hs he => ?_
  exact (hst.engine e).waiting _ _ (hs (hst.engines ▸ he))

/-- What the solver left of a gap stays as it is. -/
theorem stable_spawned (h : policy.Admits P) (hhost : policy.Hosts P sent host) {e : EngineId}
    {c : Continuation} {p : Propagator} {m : Method} {left : List Propagator} :
    policy.law.Stable fun t => (P t ∧ (t.arena c.arena).get? c.id = some p) ∧
      t.Spawned policy.solver sent e c p m left := by
  rintro t u ⟨⟨ht, hp⟩, hspawned⟩ htu
  have hgrows := Policy.Evolves.grows htu
  have hu := h.stable ht htu
  refine ⟨⟨hu, hgrows.get? hp⟩, ?_, ?_, ?_⟩
  · obtain ⟨state, hleft⟩ := hspawned.left
    refine ⟨state, ?_⟩
    rw [hleft, hgrows.program, Arena.leaveFrame, Arena.leaveFrame,
      Arena.callerFrame_of_within (hgrows.arena c.arena) (h.grounded hu c.arena) hp]
  · exact fun path hpath => stable_registered e _ c (hspawned.registered path hpath) htu
  · intro path hpath start hstart
    rw [hgrows.program] at hstart
    exact hhost.stable _ (hspawned.sent path hpath start hstart) htu

section Spawn

variable {e : EngineId} {c : Continuation} {p : Propagator} {gap : Gap} {m : Method}

/-- Entering a replay as waiting. -/
theorem meets_register {seed : Seed} (hawaits : ∀ s, P s → s.Awaits e seed c p gap m)
    (hwaits : ∀ s, P s → policy.waits s e c) :
    policy.law.Meets P
      (Run.modifyEngine e fun engine => { engine with waiting := engine.waiting.put seed c })
      fun _ t => t.Registered e seed c := by
  refine Law.Meets.modify fun s hs => ⟨.single (.wait s (hawaits s hs) (hwaits s hs)), fun he => ?_⟩
  have hlt : e < s.engines.length := by simpa [Session.modifyEngine] using he
  rw [Session.engine_modifyEngine, if_pos ⟨rfl, hlt⟩]
  exact (MultiMap.contains_put _ _ _ _ _).2 (.inl ⟨rfl, rfl⟩)

/-- Sending the seeds of a replay that waits. -/
theorem meets_sendSeeds (h : policy.Admits P) (hhost : policy.Hosts P sent host)
    {path : AccessPath} (hawaits : ∀ s, P s → s.Awaits e ⟨path, m.id⟩ c p gap m)
    (hregistered : ∀ s, P s → s.Registered e ⟨path, m.id⟩ c) {starts : List StmtId}
    (hstarts : ∀ s, P s → ∀ start ∈ starts, start ∈ s.program.startPoints m.id) :
    policy.law.Meets P (starts.forM fun start => host.deliver ⟨.ofPath path, start, .ofPath path⟩)
      fun _ t => ∀ start ∈ starts, sent ⟨.ofPath path, start, .ofPath path⟩ t := by
  refine Law.Meets.forM h.stable (fun start => hhost.stable _) fun start hstart => ?_
  refine (hhost.deliver _).strengthen fun t ht => ⟨ht, hhost.seeds t _ ht ?_⟩
  exact ⟨e, ⟨path, m.id⟩, c, p, gap, m, hawaits t ht, hregistered t ht,
    hstarts t ht start hstart, rfl, rfl⟩

/-- Sending the solver into a method that a replay may wait for. The replay is
entered as waiting before the seed is sent. -/
theorem meets_spawn (h : policy.Admits P) (hhost : policy.Hosts P sent host) {a : Nat}
    {id : PropagatorId}
    (hawaits : ∀ s path, P s → m.pathInside p.taint = .ok (some path) →
      s.Awaits e ⟨path, m.id⟩ ⟨a, id⟩ p gap m)
    (hwaits : ∀ s, P s → policy.waits s e ⟨a, id⟩) :
    policy.law.Meets P (spawn host e a id p m) fun left t =>
      t.Spawned policy.solver sent e ⟨a, id⟩ p m left := by
  unfold spawn
  refine Law.Meets.andThen h.stable (meets_ensureBody h m) fun _ => ?_
  refine Law.Meets.bind h.stable (meets_pathInside h p.taint m) fun path => ?_
  refine Law.Meets.assume fun hpath => ?_
  cases path with
  | none =>
      -- no path inside: nothing to wait for and nothing left
      refine Law.Meets.pure fun t ht => ⟨⟨t.solver, ?_⟩, ?_, ?_⟩
      · simp [ExitTable.exitsFor, hpath, Program.exitTaints, Arena.leaveFrame, OrdSet.ofList,
          OrdSet.insertAll, OrdSet.empty]
      · intro path hsome
        rw [hpath] at hsome
        cases hsome
      · intro path hsome
        rw [hpath] at hsome
        cases hsome
  | some path =>
      have honly : ∀ other, m.pathInside p.taint = .ok (some other) → other = path := by
        intro other hother
        rw [hpath] at hother
        cases hother
        rfl
      -- first the replay waits
      refine Law.Meets.bind h.stable
        (meets_register (fun s hs => hawaits s path hs hpath) hwaits) fun _ => ?_
      have hreg := h.and (stable_registered e ⟨path, m.id⟩ ⟨a, id⟩)
      -- then the seeds are sent
      refine Law.Meets.get_bind fun s hs => ?_
      have hsince := hreg.and (Law.Stable.since s)
      have hseeds := meets_sendSeeds hsince hhost.and.and
        (fun t ht => hawaits t path ht.1.1 hpath) (fun t ht => ht.1.2)
        fun t ht start (hstart : start ∈ s.program.startPoints m.id) => by
          rw [(Policy.Evolves.grows ht.2).program]
          exact hstart
      refine Law.Meets.bind hsince.stable hseeds fun _ => ?_
      have hall := hsince.stable.and
        (Law.Stable.all fun start => Law.Stable.all fun _ : start ∈ s.program.startPoints m.id =>
          hhost.stable ⟨.ofPath path, start, .ofPath path⟩)
      refine Law.Meets.andThen hall (Run.meets_report _) fun _ => ?_
      -- last the solver is asked what it knows
      refine Law.Meets.get_bind fun u hu => Law.Meets.pure fun t ht => ⟨⟨u.solver, ?_⟩, ?_, ?_⟩
      · have hgrows := Policy.Evolves.grows ht.2
        have hp := (hawaits u path hu.1.1.1 hpath).stored
        rw [hgrows.program, Arena.leaveFrame, Arena.leaveFrame, Arena.callerFrame_of_within
          (hgrows.arena a) (h.grounded ht.1.1.1.1 a) hp, ExitTable.exitsFor, hpath, hhost.solver]
        rfl
      · intro other hother he
        rw [honly other hother]
        exact ht.1.1.1.2 he
      · intro other hother start hstart
        rw [(Policy.Evolves.grows ht.1.1.2).program] at hstart
        rw [honly other hother]
        exact ht.1.2 start hstart

end Spawn

theorem stable_tried (h : policy.Admits P) (hhost : policy.Hosts P sent host) {e : EngineId}
    {c : Continuation} {p : Propagator} {m : Method} {left : List Propagator} :
    policy.law.Stable fun t => (P t ∧ (t.arena c.arena).get? c.id = some p) ∧
      t.Tried policy.solver sent e c p m left := by
  rintro t u ⟨ht, htried⟩ htu
  have hgrows := Policy.Evolves.grows htu
  rw [Session.Tried] at htried
  rw [Session.Tried, hgrows.canEnter]
  split at htried
  · rename_i henter
    rw [if_pos henter]
    exact stable_spawned h hhost ⟨ht, htried⟩ htu
  · rename_i henter
    rw [if_neg henter]
    exact ⟨⟨h.stable ht.1 htu, hgrows.get? ht.2⟩, htried⟩

/-- What became of a gap stays as it is. -/
theorem stable_resolved (h : policy.Admits P) (hhost : policy.Hosts P sent host) {e : EngineId}
    {c : Continuation} {p : Propagator} {gap : Gap} {left : List Propagator} :
    policy.law.Stable fun t => (P t ∧ (t.arena c.arena).get? c.id = some p) ∧
      t.Resolved policy.solver sent e c p gap left := by
  rintro t u ⟨ht, found, hleft, hfound⟩ htu
  have hgrows := Policy.Evolves.grows htu
  refine ⟨⟨h.stable ht.1 htu, hgrows.get? ht.2⟩, found, hleft, ?_⟩
  rw [hgrows.gapMethods]
  exact hfound.imp fun _ _ htried => (stable_tried h hhost ⟨ht, htried⟩ htu).2

section Gap

variable {e : EngineId} {a : Nat} {id : PropagatorId} {p : Propagator} {gap : Gap}

/-- Sending the solver into one of the methods that may run in a gap without
flows, if it can be. -/
theorem meets_trySpawn (h : policy.Admits P) (hhost : policy.Hosts P sent host)
    (hgap : p.gap = some gap)
    (hready : ∀ s, P s → (s.arena a).get? id = some p ∧ (s.gapFlows e gap).isEmpty = true)
    (hwaits : ∀ s, P s → policy.waits s e ⟨a, id⟩) {m : Method}
    (hm : ∀ s, P s → m ∈ s.gapMethods gap) :
    policy.law.Meets P
      (do if canEnter (← get).hierarchy m then spawn host e a id p m else return [])
      fun left t => t.Tried policy.solver sent e ⟨a, id⟩ p m left := by
  refine Law.Meets.get_bind fun s hs => ?_
  have hsince := h.and (Law.Stable.since s)
  have henters : ∀ t, policy.law.step s t → canEnter t.hierarchy m = canEnter s.hierarchy m :=
    fun t ht => (Policy.Evolves.grows ht).canEnter m
  by_cases henter : canEnter s.hierarchy m = true
  · rw [if_pos henter]
    have hawaits : ∀ t path, P t ∧ policy.law.step s t → m.pathInside p.taint = .ok (some path) →
        t.Awaits e ⟨path, m.id⟩ ⟨a, id⟩ p gap m := by
      intro t path ht hpath
      refine ⟨(hready t ht.1).1, hgap, (hready t ht.1).2, hm t ht.1, ?_, rfl, hpath⟩
      rw [henters t ht.2]
      exact henter
    have hspawn := meets_spawn hsince hhost.and hawaits fun t ht => hwaits t ht.1
    refine (hspawn.keep hsince.stable).weaken fun left t ht => ?_
    rw [Session.Tried, henters t ht.1.2, if_pos henter]
    exact ht.2
  · rw [if_neg henter]
    refine Law.Meets.pure fun t ht => ?_
    rw [Session.Tried, henters t ht.2, if_neg henter]

/-- Sending the solver into all methods that may run in a gap without flows. -/
theorem meets_resolveGap (h : policy.Admits P) (hhost : policy.Hosts P sent host)
    (hgap : p.gap = some gap)
    (hready : ∀ s, P s → (s.arena a).get? id = some p ∧ (s.gapFlows e gap).isEmpty = true)
    (hwaits : ∀ s, P s → policy.waits s e ⟨a, id⟩) :
    policy.law.Meets P (resolveGap host e a id p gap) fun left t =>
      t.Resolved policy.solver sent e ⟨a, id⟩ p gap left := by
  unfold resolveGap
  refine Law.Meets.get_bind fun s hs => ?_
  have hsince := h.and (Law.Stable.since s)
  have hmethods : ∀ t, policy.law.step s t → t.gapMethods gap = s.gapMethods gap :=
    fun t ht => (Policy.Evolves.grows ht).gapMethods gap
  cases hcallee : (s.program.findMethod? gap.signature).bind s.program.method? with
  | none =>
      have hnone : s.gapMethods gap = [] := by rw [Session.gapMethods, hcallee]
      simp only [hcallee]
      refine Law.Meets.andThen hsince.stable (Run.meets_report _) fun _ => ?_
      refine Law.Meets.pure fun t ht => ⟨[], rfl, ?_⟩
      rw [hmethods t ht.2, hnone]
      exact .nil
  | some callee =>
      have hlist : (s.program.implementors s.hierarchy callee).toList.filterMap s.program.method? =
          s.gapMethods gap := by
        rw [Session.gapMethods, hcallee]
      simp only [hcallee, hlist]
      have hall := Law.Meets.mapM hsince.stable
        (fun m left => stable_tried (c := ⟨a, id⟩) (m := m) hsince hhost.and)
        fun m hm => ((meets_trySpawn hsince hhost.and hgap (fun t ht => hready t ht.1)
          (fun t ht => hwaits t ht.1) fun t ht => hmethods t ht.2 ▸ hm).keep hsince.stable).weaken
          fun left t ht => ⟨⟨ht.1, (hready t ht.1.1).1⟩, ht.2⟩
      refine Law.Meets.bind hsince.stable hall fun found => Law.Meets.pure fun t ht => ?_
      refine ⟨found, rfl, ?_⟩
      rw [hmethods t ht.1.2]
      exact ht.2.imp fun _ _ htried => htried.2

end Gap

end Engine

end Basic

end TaintReplay
