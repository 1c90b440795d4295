import TaintReplay.Proofs.SafeReplays
import TaintReplay.Proofs.Signatures

/-!
# Summaries that fit their calls

A summary speaks of places: parameters, the receiver, what is returned. The call it
is used at may lack such a place, and so may a method that is called back in one of
its gaps. A replay that comes to a taint in such a place ends in an error, and so
does one that is sent into a method without code (`AnalysisError.IsMisfit`).

Not all places of a summary are looked for. A taint is looked for at the call when a
flow of the method called has led to it; the flows of methods called back end in the
frame below, at the boundary of their gap. A taint is looked for inside a method when
a flow has just entered the gap. A frame that is come back to is not entered again:
something was followed from it, so its gap has flows. This is what the stacks of a
replay look like (`Rules.Sturdy`), and flows, inverses and leaving a frame keep it.

So the summaries of an engine fit a call (`Session.FitsCall`) if the ends of its flows
outside gaps are places of the call, and those in a gap are places of the signature
that the gap is named by. The methods that may run there have the parameters of that
signature.

## Main results

* `Session.keeps_sturdy`: what the stacks of a replay look like, if the summaries fit.
* `Session.not_isMisfit_of_fault`: such a stack has no error of a place that is missing.
* `Setup.exists_astray`: whose error it is if passing an exit on ends in one.
* `Setup.fittings_after`: what waits after some requests, and what the solver was told of.
* `fitting_summaries_find_their_places`: queries and reports about calls that the summaries fit do
  not end in such an error.
-/

namespace TaintReplay

variable {σ : Type}

/-! ## Places -/

/-- A place is missing, or the code of a method is. -/
def AnalysisError.IsMisfit : AnalysisError → Prop
  | noSuchPlace _ _ | program _ => True
  | _ => False

instance : DecidablePred AnalysisError.IsMisfit
  | .noSuchPlace _ _ | .program _ => .isTrue trivial
  | .gapWithoutParent _ | .rootWithoutCallSite _ | .returnIntoMethod _ | .notACall _
  | .uninitialized | .initializedTwice => .isFalse id

/-- The place is there, given the number of parameters and whether there is a receiver.
There is always something returned. -/
def Place.IsIn {ρ : Type} [Role ρ] (p : Place ρ) (parameters : Nat) (receiver : Prop) : Prop :=
  match p.kind with
  | .returned => True
  | .parameter => ∃ i, p.index = some i ∧ i < parameters
  | .field | .receiver | .gapBase => receiver

section Places

variable {n : Nat} {receiver : Prop} {err : AnalysisError}

theorem Place.IsIn.mono {ρ : Type} [Role ρ] {p : Place ρ} {n' : Nat} {receiver' : Prop}
    (h : p.IsIn n receiver) (hn : n ≤ n') (hreceiver : receiver → receiver') :
    p.IsIn n' receiver' := by
  unfold Place.IsIn at h ⊢
  cases hkind : p.kind with
  | returned => trivial
  | parameter =>
      rw [hkind] at h
      obtain ⟨i, hi, hlt⟩ := h
      exact ⟨i, hi, by omega⟩
  | field | receiver | gapBase =>
      rw [hkind] at h
      exact hreceiver h

/-- By the roles of taints. -/
theorem Taint.isIn_iff {t : Taint} :
    t.IsIn n receiver ↔
      match t.role with
      | .returned => True
      | .parameter index => ∃ i, index = some i ∧ i < n
      | .field | .gapBase => receiver := by
  obtain ⟨role, base, path, subFields, gap⟩ := t
  cases role <;> exact Iff.rfl

/-- A taint that moves to a place is there. -/
theorem Taint.isIn_movedTo {source sink : Endpoint} (h : sink.IsIn n receiver) (t : Taint)
    (gap : Option Gap) : Place.IsIn (t.movedTo source sink gap) n receiver := by
  rw [Taint.isIn_iff, Taint.movedTo, Taint.ofKind]
  unfold Place.IsIn at h
  cases hkind : sink.kind with
  | gapBase =>
      rw [hkind] at h
      by_cases hresidual : t.residual source ≠ []
      · rw [if_pos ⟨rfl, hresidual⟩]
        exact h
      · rw [if_neg fun hboth => hresidual hboth.2]
        exact h
  | parameter | field | returned | receiver =>
      rw [hkind] at h
      rw [if_neg fun hboth => nomatch hboth.1]
      exact h

/-- A method finds the taints in its places, those in results apart. -/
theorem Method.not_isMisfit_of_localInside {m : Method} {t : Taint}
    (h : t.IsIn m.parameters.length (m.receiver.isSome = true))
    (herr : m.localInside t = .error err) : ¬ err.IsMisfit := by
  rw [Taint.isIn_iff] at h
  unfold Method.localInside at herr
  cases hrole : t.role with
  | returned =>
      rw [hrole] at herr
      cases herr
      exact fun h => h
  | parameter index =>
      simp only [hrole] at h herr
      obtain ⟨i, rfl, hi⟩ := h
      rw [Option.bind_some, List.getElem?_eq_getElem hi] at herr
      cases herr
  | field | gapBase =>
      simp only [hrole] at h herr
      obtain ⟨l, hl⟩ := Option.isSome_iff_exists.1 h
      rw [hl] at herr
      cases herr

/-- A call finds the taints in its places. -/
theorem Stmt.not_isMisfit_of_localOnCall {stmt : Stmt} {t : Taint}
    (h : ∀ call, stmt.call? = some call →
      t.IsIn call.arguments.length (call.receiver.isSome = true))
    (herr : stmt.localOnCall t = .error err) : ¬ err.IsMisfit := by
  unfold Stmt.localOnCall at herr
  cases hcall : stmt.call? with
  | none =>
      rw [hcall] at herr
      cases herr
      exact fun h => h
  | some call =>
      have hplace := Taint.isIn_iff.1 (h call hcall)
      rw [hcall] at herr
      cases hrole : t.role with
      | returned =>
          simp only [hrole] at herr
          cases herr
      | parameter index =>
          simp only [hrole] at hplace herr
          obtain ⟨i, rfl, hi⟩ := hplace
          rw [Option.bind_some, List.getElem?_eq_getElem hi] at herr
          cases herr
      | field | gapBase =>
          simp only [hrole] at hplace herr
          obtain ⟨l, hl⟩ := Option.isSome_iff_exists.1 hplace
          rw [hl] at herr
          cases herr

theorem eq_error_of_faultOf {α : Type} {x : Except AnalysisError α} (h : faultOf x = some err) :
    x = .error err := by
  cases x with
  | ok a => cases h
  | error e => exact congrArg _ (Option.some.inj h)

theorem Method.not_isMisfit_of_pathInside {m : Method} {t : Taint}
    (h : t.IsIn m.parameters.length (m.receiver.isSome = true))
    (herr : faultOf (m.pathInside t) = some err) : ¬ err.IsMisfit := by
  rw [Method.pathInside, faultOf_map] at herr
  exact Method.not_isMisfit_of_localInside h (eq_error_of_faultOf herr)

theorem Program.not_isMisfit_of_pathOnCall {program : Program} {t : Taint} {stmt : StmtId}
    (h : ∀ call, program.call? stmt = some call →
      t.IsIn call.arguments.length (call.receiver.isSome = true))
    (herr : faultOf (program.pathOnCall t stmt) = some err) : ¬ err.IsMisfit := by
  rw [Program.pathOnCall] at herr
  rw [Program.call?] at h
  cases hstmt : program.stmt? stmt with
  | none =>
      rw [hstmt] at herr
      cases herr
      exact fun h => h
  | some code =>
      rw [hstmt] at h
      simp only [hstmt, faultOf_map] at herr
      exact Stmt.not_isMisfit_of_localOnCall h (eq_error_of_faultOf herr)

end Places

/-! ## Flows that a call uses -/

/-- The flow has an end there. -/
def Flow.Ends (flow : Flow) (endpoint : Endpoint) : Prop :=
  endpoint = flow.source ∨ endpoint = flow.sink

namespace Rules

/-- The flows that matter to a replay: those of the method called and, where one of
them ends in a gap, those of the gap. -/
inductive Uses (r : Rules) : Flow → Prop
  | own {flow : Flow} (h : flow ∈ r.flows) : Uses r flow
  | inner {flow other : Flow} {endpoint : Endpoint} {gap : Gap} (h : Uses r flow)
      (ends : flow.Ends endpoint) (inGap : endpoint.gap = some gap)
      (mem : other ∈ r.gapFlows gap) : Uses r other

/-- A flow that matters ends in the gap. -/
def Opens (r : Rules) (gap : Gap) : Prop :=
  ∃ flow endpoint, r.Uses flow ∧ flow.Ends endpoint ∧ endpoint.gap = some gap

/-- Summaries fit a call, given the methods that may run in gaps. Outside gaps, the
flows of the method called end at places of the call. In a gap, flows end at places
of the signature that names it, and at a receiver only if no static method may run
there. -/
structure Fits (r : Rules) (methods : Gap → List Method) (stmt : StmtId) : Prop where
  surface : ∀ call flow endpoint, r.program.call? stmt = some call → flow ∈ r.flows →
    flow.Ends endpoint → endpoint.gap = none →
    endpoint.IsIn call.arguments.length (call.receiver.isSome = true)
  gaps : ∀ flow endpoint gap signature, r.Uses flow → flow.Ends endpoint →
    endpoint.gap = some gap → MethodSignature.parse gap.signature = .ok signature →
    endpoint.IsIn signature.parameters.length (∀ m ∈ methods gap, m.isStatic = false)

/-- Inside a method of a gap, the ends of flows there have their places. -/
theorem Fits.inside {r : Rules} {methods : Gap → List Method} {stmt : StmtId}
    (h : r.Fits methods stmt) {flow : Flow} {endpoint : Endpoint} {gap : Gap}
    (huses : r.Uses flow) (hends : flow.Ends endpoint) (hgap : endpoint.gap = some gap)
    {m : Method} (hm : m ∈ methods gap) (hnames : gap.Names m) :
    endpoint.IsIn m.parameters.length (m.receiver.isSome = true) := by
  obtain ⟨signature, hparse, hlength, hreceiver⟩ := hnames
  refine (h.gaps flow endpoint gap signature huses hends hgap hparse).mono (by omega) ?_
  intro hstatic
  rw [hreceiver, hstatic m hm]
  rfl

/-- Flows are followed as they are stated or the other way round. -/
theorem exists_ends_sink {r : Rules} {top : Layer} {flow : Flow} (h : flow ∈ r.flowsFrom top) :
    ∃ stated ∈ r.flowsAt top.gap, stated.Ends flow.sink := by
  obtain ⟨stated, hstated, halong⟩ := List.mem_filterMap.1 h
  refine ⟨stated, hstated, ?_⟩
  unfold Flow.along at halong
  split at halong
  · split at halong
    · cases halong
      exact .inl rfl
    · cases halong
  · cases halong
    exact .inr rfl

/-! ## What stacks look like -/

/-- A frame that something was followed from: its gap has flows. -/
def Firm (r : Rules) (l : Layer) : Prop :=
  ∀ gap, l.gap = some gap → r.Opens gap ∧ (r.gapFlows gap).isEmpty = false

/-- A frame on top. If its gap has no flows, the methods there have the place of the
taint. -/
def Entered (r : Rules) (methods : Gap → List Method) (l : Layer) : Prop :=
  ∀ gap, l.gap = some gap → r.Opens gap ∧
    ((r.gapFlows gap).isEmpty = true → ∀ m ∈ methods gap,
      l.taint.IsIn m.parameters.length (m.receiver.isSome = true))

/-- Something was followed from every frame below the top. -/
def Sturdy (r : Rules) (methods : Gap → List Method) : Stack → Prop
  | [] => True
  | top :: below => r.Entered methods top ∧ ∀ l ∈ below, r.Firm l

variable {r q : Rules} {methods : Gap → List Method} {l : Layer}

/-- A frame that is come back to is not entered again. -/
theorem Firm.entered (h : r.Firm l) {back : Layer} (hgap : back.gap = l.gap) :
    r.Entered methods back := by
  intro gap hback
  obtain ⟨hopens, hflows⟩ := h gap (hgap ▸ hback)
  refine ⟨hopens, fun hempty => ?_⟩
  rw [hflows] at hempty
  cases hempty

theorem sturdy_of_gap_eq_none (hgap : l.gap = none) : r.Sturdy methods [l] := by
  refine ⟨fun gap hsome => ?_, fun _ hl => nomatch hl⟩
  rw [hgap] at hsome
  cases hsome

theorem Sturdy.leave {st : Stack} (h : r.Sturdy methods st) (t : Taint) :
    r.Sturdy methods (Stack.leave t st) := by
  match st, h with
  | [], _ => trivial
  | [bottom], _ => exact sturdy_of_gap_eq_none rfl
  | top :: caller :: below, ⟨_, hbelow⟩ =>
      refine ⟨(hbelow caller List.mem_cons_self).entered rfl, fun l hl => ?_⟩
      exact hbelow l (List.mem_cons_of_mem _ hl)

theorem Sturdy.invert {st : Stack} (h : r.Sturdy methods st) : r.Sturdy methods st.invert := by
  cases st with
  | nil => trivial
  | cons top below => exact h

/-- Rules with some of the flows of the method called. -/
structure Within (q r : Rules) : Prop where
  program : q.program = r.program
  flows : ∀ flow ∈ q.flows, flow ∈ r.flows
  gapFlows : q.gapFlows = r.gapFlows

theorem Within.uses (h : q.Within r) {top : Layer} (htop : r.Entered methods top) {flow : Flow}
    (hflow : flow ∈ q.flowsAt top.gap) : r.Uses flow := by
  cases hgap : top.gap with
  | none =>
      rw [hgap] at hflow
      exact .own (h.flows flow hflow)
  | some gap =>
      rw [hgap, flowsAt, h.gapFlows] at hflow
      obtain ⟨⟨outer, endpoint, huses, hends, hin⟩, -⟩ := htop gap hgap
      exact .inner huses hends hin hflow

/-- Only frames with flows have something followed from them. -/
theorem Within.firm (h : q.Within r) {top : Layer} (htop : r.Entered methods top) {flow : Flow}
    (hflow : flow ∈ q.flowsAt top.gap) : r.Firm top := by
  intro gap hgap
  refine ⟨(htop gap hgap).1, ?_⟩
  rw [hgap, flowsAt, h.gapFlows] at hflow
  refine Bool.eq_false_iff.2 fun hempty => ?_
  exact OrdSet.isEmpty_iff.1 hempty flow hflow

end Rules

/-- Only the taint on top has changed where a frame was left. -/
theorem Stack.taint_of_leave {t : Taint} {st below : Stack} {top : Layer}
    (h : Stack.leave t st = top :: below) : top.taint = t := by
  match st with
  | [] => cases h
  | [bottom] =>
      cases h
      rfl
  | first :: caller :: rest =>
      cases h
      rfl

/-! ## Sessions -/

namespace Session

/-- The summaries of an engine fit a call. -/
def FitsCall (s : Session σ) (e : EngineId) (stmt : StmtId) : Prop :=
  (s.callRules e stmt).Fits s.gapMethods stmt

variable {s : Session σ} {e : EngineId} {stmt : StmtId} {flows : FlowSet}

theorem rules_within (hflows : ∀ flow ∈ flows, flow ∈ s.callFlows e stmt) :
    (s.rules e flows).Within (s.callRules e stmt) :=
  ⟨rfl, hflows, rfl⟩

/-- What the stacks of a replay look like, step by step. -/
theorem keeps_sturdy (hbuilt : s.program.Built) (hnames : s.hierarchy.Legible)
    (hfits : s.FitsCall e stmt) (hflows : ∀ flow ∈ flows, flow ∈ s.callFlows e stmt) :
    (s.rules e flows).Keeps ((s.callRules e stmt).Sturdy s.gapMethods) where
  leads st out hst hleads := by
    obtain ⟨top, below, flow, rfl, hflow, happlied⟩ := hleads
    have htop := hst.1
    obtain ⟨stated, hstated, hends⟩ := Rules.exists_ends_sink hflow
    have huses := (rules_within hflows).uses htop hstated
    rcases Hierarchy.applyToStack?_cases happlied with ⟨gap, hgap, rfl⟩ | ⟨-, rfl⟩
    · -- a gap is entered, from a frame that has flows
      refine ⟨fun other hother => ?_, fun l hl => ?_⟩
      · cases hother
        refine ⟨⟨stated, flow.sink, huses, hends, hgap⟩, fun _ m hm => ?_⟩
        exact Taint.isIn_movedTo
          (hfits.inside huses hends hgap hm (names_of_mem_gapMethods hbuilt hnames hm)) top.taint none
      · rcases List.mem_cons.1 hl with rfl | hl
        · exact (rules_within hflows).firm htop hstated
        · exact hst.2 l hl
    · exact hst.leave _
  invert _ hst := hst.invert
  leave t _ hst := hst.leave t

/-- Entering the gap of a stack finds the place of its taint. -/
theorem not_isMisfit_of_entryFault {top : Layer} {err : AnalysisError}
    (htop : (s.callRules e stmt).Entered s.gapMethods top)
    (hfault : (s.rules e flows).entryFault s.entrances top = some err) : ¬ err.IsMisfit := by
  obtain ⟨gap, hgap, hentry⟩ := Option.bind_eq_some_iff.1 hfault
  split at hentry
  · rename_i hempty
    obtain ⟨m, hm, hinside⟩ := List.exists_of_findSome?_eq_some hentry
    have hplace := (htop gap hgap).2 hempty m (List.mem_filter.1 hm).1
    exact Method.not_isMisfit_of_pathInside hplace hinside
  · cases hentry

/-- Following a flow of a stack finds the place of the taint it leads to. -/
theorem not_isMisfit_of_flowFault (hfits : s.FitsCall e stmt)
    (hflows : ∀ flow ∈ flows, flow ∈ s.callFlows e stmt) {top : Layer} {below : Stack} {flow : Flow}
    (hflow : flow ∈ (s.rules e flows).flowsFrom top) {key : SiteKey} (hkey : key.stmt = stmt)
    (hsite : Stack.site? (top :: below) = some key) {err : AnalysisError}
    (hfault : (s.rules e flows).flowFault (top :: below) flow = some err) : ¬ err.IsMisfit := by
  obtain ⟨out, happlied, hat⟩ := Option.bind_eq_some_iff.1 hfault
  change s.hierarchy.applyToStack? flow (top :: below) = some out at happlied
  have hbottom : Stack.site? out = some key := (Stack.site?_of_applyToStack? happlied).trans hsite
  unfold Program.faultAt at hat
  split at hat
  · rename_i l
    split at hat
    · rename_i hsurface
      have hcall : l.site = some key := hbottom
      rw [hcall, Option.bind_some, hkey] at hat
      refine Program.not_isMisfit_of_pathOnCall (fun call hcalled => ?_) hat
      -- a taint outside gaps was moved there by a flow of the method called
      rcases Hierarchy.applyToStack?_cases happlied with ⟨gap, -, hpushed⟩ | ⟨hsink, hleft⟩
      · cases hpushed
      · have htaint := Stack.taint_of_leave hleft.symm
        have hgap : top.gap = none := by
          rw [htaint] at hsurface
          exact Option.isNone_iff_eq_none.1 hsurface
        obtain ⟨stated, hstated, hends⟩ := Rules.exists_ends_sink hflow
        rw [hgap] at hstated
        rw [htaint]
        exact Taint.isIn_movedTo
          (hfits.surface call stated flow.sink hcalled (hflows stated hstated) hends hsink) _ _
    · cases hat
  · cases hat

/-- So treating a stack does not end in the error of a place that is missing. -/
theorem not_isMisfit_of_fault (hfits : s.FitsCall e stmt)
    (hflows : ∀ flow ∈ flows, flow ∈ s.callFlows e stmt) {st : Stack}
    (hst : (s.callRules e stmt).Sturdy s.gapMethods st) {key : SiteKey} (hkey : key.stmt = stmt)
    (hsite : st.site? = some key) {err : AnalysisError}
    (hfault : (s.rules e flows).fault s.entrances st = some err) : ¬ err.IsMisfit := by
  cases st with
  | nil => cases hfault
  | cons top below =>
      rcases Option.or_eq_some_iff.1 hfault with hentry | ⟨-, hfollow⟩
      · exact not_isMisfit_of_entryFault hst.1 hentry
      · obtain ⟨flow, hflow, hfollowed⟩ := List.exists_of_findSome?_eq_some hfollow
        exact not_isMisfit_of_flowFault hfits hflows hflow hkey hsite hfollowed

end Session

/-! ## Runs -/

namespace Setup

variable (k : Setup σ)

/-- Stacks wait only about calls that were asked about, and look as they should if the
summaries fit the call. The solver is told of a misfit only if some call was asked
about that they do not fit. -/
def fittings (asked : EngineId → StmtId → Prop) (requests : List (Request σ)) :
    Watch (Ledger σ) where
  toEpisode := k.episode requests (fun _ => True) fun _ => True
  inside e _ key st := asked e key.stmt ∧ (k.begun.FitsCall e key.stmt →
    (k.begun.callRules e key.stmt).Sturdy k.begun.gapMethods st)
  sends _ _ := True
  tells err := err.IsMisfit → ∃ e stmt, asked e stmt ∧ ¬ k.begun.FitsCall e stmt

/-- Every engine that a query is put to was asked about its call. -/
def Asks (asked : EngineId → StmtId → Prop) (request : Request σ) : Prop :=
  ∀ e direction site, request = .query e direction site → ∀ j ∈ k.begun.chain e, asked j site.stmt

/-- The replay went astray: it waited for an exit, about a call that the summaries do
not fit, and went on to an error when the exit was passed on to it. -/
structure Astray (r : ExitReport) (depth : Nat) (s t : Session (Ledger σ)) (err : AnalysisError)
    (e : EngineId) (m : Method) (c : Continuation) (key : SiteKey) (u : Session (Ledger σ)) :
    Prop where
  listener : s.listener = some e
  method : s.program.methodOf? r.stmt = some m
  waits : (s.engine e).waiting.contains ⟨r.seed.path, m.id⟩ c = true
  call : ((s.arena c.arena).stack c.id).site? = some key
  unfit : ¬ k.begun.FitsCall e key.stmt
  since : s.Grows u
  ends : (Engine.resumeOne (k.host depth) k.fuel e m r.stmt r.fact c).exec u =
    (.error (.error err), t)

section Fixed

variable {k} {asked : EngineId → StmtId → Prop} {requests : List (Request σ)}
  (built : k.program.Built) (legible : k.hierarchy.Legible)
  (fixed : ∀ request ∈ requests, request.isEdit = false)

include built legible fixed

theorem fittings_lawful : (k.fittings asked requests).Lawful where
  keeps e a key flows hflows := by
    have hserves := k.serves_after fixed
    change ((k.after requests).rules e flows).Keeps fun st => asked e key.stmt ∧
      (k.begun.FitsCall e key.stmt →
        (k.begun.callRules e key.stmt).Sturdy k.begun.gapMethods st)
    rw [hserves.rules]
    refine (Rules.keeps_const _ _).and (.imp fun hfits => ?_)
    refine Session.keeps_sturdy built legible hfits fun flow hflow => ?_
    rw [← hserves.callFlows]
    exact hflows flow hflow
  seeds _ _ _ _ := trivial
  returns _ _ _ _ _ _ _ _ _ _ _ _ _ := trivial

omit built legible in
theorem fittings_safe {e : EngineId} {key : SiteKey} (hfits : k.begun.FitsCall e key.stmt) :
    (k.fittings asked requests).Safe AnalysisError.IsMisfit e key := by
  intro a flows st err hflows hsite hinside hfault
  have hserves := k.serves_after fixed
  change ((k.after requests).rules e flows).fault (k.after requests).entrances st = some err at hfault
  rw [hserves.rules, hserves.entrances] at hfault
  refine Session.not_isMisfit_of_fault hfits (fun flow hflow => ?_) (hinside.2 hfits) rfl hsite hfault
  rw [← hserves.callFlows]
  exact hflows flow hflow

/-- If passing an exit on ends in a misfit, a replay went astray that was asked for. -/
theorem exists_astray {s t : Session (Ledger σ)} {r : ExitReport} {err : AnalysisError} {depth : Nat}
    (hhost : (k.fittings asked requests).policy.Hosts (k.fittings asked requests).Holds
      (fun _ _ => True) (k.host depth)) (hdepth : depth ≤ k.depth)
    (hs : (k.fittings asked requests).Holds s)
    (hrun : (Engine.handleExit (k.host depth) k.fuel r).exec s = (.error (.error err), t))
    (hmisfit : err.IsMisfit) :
    ∃ e m c key u, asked e key.stmt ∧ k.Astray r depth s t err e m c key u := by
  have hlawful : (k.fittings asked requests).Lawful := fittings_lawful built legible fixed
  have hconnected : err ≠ .uninitialized := by
    rintro rfl
    exact hmisfit
  obtain ⟨e, m, c, u, hwakes, hsu, hlast⟩ :=
    hlawful.exec_handleExit_error hhost hdepth ⟨hs, .inl trivial⟩ hrun hconnected
  obtain ⟨key, hkey, ⟨hasked, -⟩, -⟩ := hs.waiting e _ c hwakes.waits
  refine ⟨e, m, c, key, u, hasked, hwakes.listener, hwakes.method, hwakes.waits, hkey,
    fun hfits => ?_, hsu.grows, hlast⟩
  -- otherwise going on would have avoided the error
  have hu := hs.evolves hsu
  have hkey' : ((u.arena c.arena).stack c.id).site? = some key := by
    rw [hsu.grows.stack hu.sound.grounded hkey]
    exact hkey
  exact hlawful.avoids_resumeOne hhost (Engine.reliable_host _ _ _) hu
    (hwakes.leads (Watch.leads_of_evolves hsu)) hkey' (fittings_safe fixed hfits) k.fuel err t hlast
    hmisfit

theorem fittings_hosts : (k.fittings asked requests).policy.Hosts
    (k.fittings asked requests).Holds (fun _ _ => True) (k.host k.depth) := by
  have hlawful : (k.fittings asked requests).Lawful := fittings_lawful built legible fixed
  refine hlawful.hosts fun depth hdepth hhost r s err t hs hrun hmisfit => ?_
  obtain ⟨e, m, c, key, u, hasked, hastray⟩ :=
    exists_astray built legible fixed hhost (Nat.le_of_lt hdepth) hs.1 hrun hmisfit
  exact ⟨e, key.stmt, hasked, hastray.unfit⟩

/-- What a request does under the watch. -/
theorem fittings_evolves_or_idles (hs : (k.fittings asked requests).Holds (k.after requests))
    {request : Request σ} (hasks : k.Asks asked request) :
    (k.fittings asked requests).policy.Evolves (k.after requests)
        (k.after (requests ++ [request])) ∨
      (k.after requests).Idles (k.after (requests ++ [request])) := by
  refine k.evolves_or_idles_of_watch (fittings_lawful built legible fixed) rfl
    (fittings_hosts built legible fixed) hs request (fun _ _ => trivial) (fun _ _ _ _ => trivial)
    fun e direction site hquery j hj a taint _ => ?_
  rw [(k.serves_after fixed).chain] at hj
  exact ⟨hasks e direction site hquery j hj, fun _ => Rules.sturdy_of_gap_eq_none rfl⟩

/-- What waits after some requests is covered, and the solver was told of a misfit only
if a call was asked about that does not fit. -/
theorem fittings_after (hasks : ∀ request ∈ requests, k.Asks asked request) :
    (k.fittings asked requests).Holds (k.after requests) ∧
      ∀ err ∈ k.told requests, (k.fittings asked requests).tells err := by
  induction requests using List.reverseRecOn with
  | nil => exact ⟨k.holds_nil rfl, fun _ herr => nomatch herr⟩
  | append_singleton requests request ih =>
      have hfixed : ∀ other ∈ requests, other.isEdit = false :=
        fun other hother => fixed other (List.mem_append_left _ hother)
      obtain ⟨hbefore, htold⟩ :=
        ih hfixed fun other hother => hasks other (List.mem_append_left _ hother)
      -- what the watch covers and permits does not depend on what was asked before
      have hrequest :=
        fittings_evolves_or_idles built legible hfixed hbefore (hasks request (by simp))
      refine ⟨k.holds_append_singleton rfl hbefore hrequest fun _ _ _ _ => id, fun err herr => ?_⟩
      rcases k.told_append_singleton rfl hrequest herr with hold | htells
      · exact htold err hold
      · exact htells

end Fixed

end Setup

/-- The program was built, no known type has a colon in its name, and the hierarchy is
left alone. Then, whatever was asked, a query at a call does not end for want of a
place or of code, if the summaries of all engines it is put to fit the call. If
passing an exit on ends so, a replay went astray about a call that they do not fit.
So if they fit all calls that were asked about, passing exits on never ends so, and
neither has it while the solver was answered. -/
theorem fitting_summaries_find_their_places (k : Setup σ) (built : k.program.Built)
    (legible : k.hierarchy.Legible) (requests : List (Request σ))
    (fixed : ∀ request ∈ requests, request.isEdit = false) :
    (∀ e direction site err t, (∀ j ∈ k.begun.chain e, k.begun.FitsCall j site.stmt) →
      (k.ask (.query e direction site)).exec (k.after requests) = (.error (.error err), t) →
      ¬ err.IsMisfit) ∧
    (∀ r err t, (k.ask (.exit r)).exec (k.after requests) = (.error (.error err), t) →
      err.IsMisfit → ∃ e m c key u, k.Astray r k.depth (k.after requests) t err e m c key u) ∧
    ((∀ request ∈ requests, k.Asks k.begun.FitsCall request) →
      (∀ r err t, (k.ask (.exit r)).exec (k.after requests) = (.error (.error err), t) →
        ¬ err.IsMisfit) ∧
      ∀ err ∈ k.told requests, ¬ err.IsMisfit) := by
  -- all calls count as asked about, until the last part restricts them
  have hanything : ∀ request ∈ requests, k.Asks (fun _ _ => True) request :=
    fun _ _ _ _ _ _ _ _ => trivial
  have hholds := (Setup.fittings_after built legible fixed hanything).1
  refine ⟨fun e direction site err t hfit hrun => ?_, fun r err t hrun hmisfit => ?_,
    fun hfit => ⟨fun r err t hrun hmisfit => ?_, fun err herr hmisfit => ?_⟩⟩
  · have hquery := Run.exec_map_eq_error_iff.1 hrun
    refine (Setup.fittings_lawful built legible fixed).avoids_query
      (Setup.fittings_hosts built legible fixed) (Engine.reliable_host _ _ _) (fun h => h) hholds
      (fun j hj => ?_) trivial (fun j _ a taint _ => ?_) k.fuel err t hquery
    · rw [(k.serves_after fixed).chain] at hj
      exact Setup.fittings_safe fixed (hfit j hj)
    · exact ⟨trivial, fun _ => Rules.sturdy_of_gap_eq_none rfl⟩
  · obtain ⟨e, m, c, key, u, -, hastray⟩ := Setup.exists_astray built legible fixed
      (Setup.fittings_hosts built legible fixed) (Nat.le_refl _) hholds
      (Run.exec_map_eq_error_iff.1 hrun) hmisfit
    exact ⟨e, m, c, key, u, hastray⟩
  · obtain ⟨e, m, c, key, u, hasked, hastray⟩ := Setup.exists_astray built legible fixed
      (Setup.fittings_hosts built legible fixed) (Nat.le_refl _)
      (Setup.fittings_after built legible fixed hfit).1 (Run.exec_map_eq_error_iff.1 hrun) hmisfit
    exact hastray.unfit hasked
  · obtain ⟨e, stmt, hasked, hunfit⟩ :=
      (Setup.fittings_after built legible fixed hfit).2 err herr hmisfit
    exact hunfit hasked

namespace Sample

theorem legible_hierarchy : hierarchy.Legible := by
  intro name hname
  obtain rfl : name = "Callback" := List.mem_singleton.1 (Hierarchy.contains_iff.1 hname)
  decide

/-- The callback has no summary, so only the flows of the library method matter. -/
theorem mem_of_uses {flow : Flow} (h : (setup.begun.callRules 0 ⟨1⟩).Uses flow) :
    flow ∈ [intoCallback, outOfCallback] := by
  have hflows : (setup.begun.callFlows 0 ⟨1⟩).toList = [intoCallback, outOfCallback] := by
    decide +kernel
  induction h with
  | own h => exact hflows ▸ OrdSet.mem_toList.2 h
  | inner _ ends inGap mem ih =>
      have hnone : (setup.begun.gapFlows 0 callback).isEmpty = true := by decide +kernel
      rename_i gap _
      have hgap : gap = callback := by
        rcases List.mem_pair.1 ih with rfl | rfl <;> rcases ends with rfl | rfl <;>
          first
          | exact (Option.some.inj inGap).symm
          | cases inGap
      subst hgap
      exact absurd mem (OrdSet.isEmpty_iff.1 hnone _)

/-- The summary of the library fits the call. -/
theorem fits_site : setup.begun.FitsCall 0 site.stmt where
  surface call flow endpoint hcall hflow hends hgap := by
    have hargument : call.arguments.length = 1 := by
      have hlength : (program.call? ⟨1⟩).map (·.arguments.length) = some 1 := by decide
      rw [show program.call? ⟨1⟩ = some call from hcall] at hlength
      exact Option.some.inj hlength
    rw [hargument]
    rcases List.mem_pair.1 (mem_of_uses (.own hflow)) with rfl | rfl
    · rcases hends with rfl | rfl
      · exact ⟨0, rfl, by decide⟩
      · cases hgap
    · rcases hends with rfl | rfl
      · cases hgap
      · trivial
  gaps flow endpoint gap signature huses hends hgap hparse := by
    have hread : MethodSignature.parse callback.signature = .ok call := by decide +kernel
    rcases List.mem_pair.1 (mem_of_uses huses) with rfl | rfl
    · rcases hends with rfl | rfl
      · cases hgap
      · cases hgap
        cases hread.symm.trans hparse
        exact ⟨0, rfl, by decide⟩
    · rcases hends with rfl | rfl
      · trivial
      · cases hgap

/-- The library summarised as if the callback's result went into the receiver. -/
def intoReceiver : Flow :=
  ⟨apply.subSignature, (Endpoint.ofKind .returned object).inGap callback, .ofKind .receiver object,
    false⟩

/-- A run with this summary. The solver reports nothing by itself. -/
def bent : Setup Scripted :=
  { setup with
    engines := [(SummaryStore.empty.addClass "Lib" (.ofList [intoCallback, intoReceiver]),
      .default, none)]
    state := Scripted.empty }

/-- The call is asked about and its callback is left. No place is missing where the
summary fits, then or when the callback is left again or the call is asked about
again. The other summary speaks of a receiver, which the call does not have: leaving
the callback ends in an error, of a replay about a call that it does not fit. -/
theorem sample_finds_its_places :
    (∀ request ∈ requests, request.isEdit = false) ∧
    (∀ err ∈ setup.told requests, ¬ err.IsMisfit) ∧
    (∀ err t, (setup.ask (.exit left)).exec (setup.after requests) = (.error (.error err), t) →
      ¬ err.IsMisfit) ∧
    (∀ err t, (setup.ask (.query 0 .forward site)).exec (setup.after requests) =
      (.error (.error err), t) → ¬ err.IsMisfit) ∧
    ∃ err e m c key t u, err.IsMisfit ∧
      bent.Astray left 5 (bent.after [.connect 0, .query 0 .forward site]) t err e m c key u := by
  have hchain : setup.begun.chain 0 = [0] := by decide +kernel
  have hfixed : ∀ request ∈ requests, request.isEdit = false := by
    intro request hrequest
    simp only [requests, List.mem_cons, List.not_mem_nil, or_false] at hrequest
    rcases hrequest with rfl | rfl | rfl <;> rfl
  have hfit : ∀ j ∈ setup.begun.chain 0, setup.begun.FitsCall j site.stmt := by
    intro j hj
    rw [hchain, List.mem_singleton] at hj
    subst hj
    exact fits_site
  have hasks : ∀ request ∈ requests, setup.Asks setup.begun.FitsCall request := by
    intro request hrequest e direction other hquery
    subst hquery
    simp only [requests, List.mem_cons, List.not_mem_nil, or_false, Request.query.injEq,
      reduceCtorEq, false_or] at hrequest
    obtain ⟨rfl, -, rfl⟩ := hrequest
    exact hfit
  obtain ⟨hquery, -, hrest⟩ := fitting_summaries_find_their_places setup built_program
    legible_hierarchy requests hfixed
  obtain ⟨hexits, htold⟩ := hrest hasks
  refine ⟨hfixed, htold, hexits left, fun err t => hquery 0 .forward site err t hfit, ?_⟩
  have hends : (match ((bent.ask (.exit left)).exec
      (bent.after [.connect 0, .query 0 .forward site])).1 with
    | .error (.error err) => decide err.IsMisfit
    | _ => false) = true := by decide +kernel
  have hfixed' : ∀ request ∈ [Request.connect 0, .query 0 .forward site],
      (request : Request Scripted).isEdit = false := by
    intro request hrequest
    rcases List.mem_pair.1 hrequest with rfl | rfl <;> rfl
  have hbent := (fitting_summaries_find_their_places bent built_program legible_hierarchy
    [.connect 0, .query 0 .forward site] hfixed').2.1
  match hrun : (bent.ask (.exit left)).exec (bent.after [.connect 0, .query 0 .forward site]) with
  | (.error (.error err), t) =>
      rw [hrun] at hends
      have hmisfit : err.IsMisfit := of_decide_eq_true hends
      obtain ⟨e, m, c, key, u, hastray⟩ := hbent left err t hrun hmisfit
      exact ⟨err, e, m, c, key, t, u, hmisfit, hastray⟩
  | (.ok _, _) | (.error .outOfFuel, _) =>
      rw [hrun] at hends
      cases hends

end Sample

end TaintReplay
