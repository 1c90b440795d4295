import TaintReplay.Proofs.BuiltPrograms
import TaintReplay.Proofs.Exits
import TaintReplay.Proofs.Queries

/-!
# Exits delivered one by one

A solver need not know an exit when a replay asks for it. It can keep the seed
and report the exit later. `recorder` is a solver that does no more than that: it
keeps the edges it is given, and which of their exits are to be reported is read
off a table (`ExitTable.reports`). `Delivers` is the work that is left after a
query, in any order: to report an exit, which may lead to new edges and so to new
reports, until nothing is left to report.

Such a solver forgets no edge, so the edges that a program has given it are those
in front of the ones it had before (`SentSince`).

## Main results

* `Policy.hosts_recorder`: edges handed to a recorder are sent.
* `Policy.Evolves.recorded`: every edge that was kept was permitted.
* `Policy.Evolves.waiting`: every replay that waits was permitted to and has a reason.
* `delivers_of_deliverAll`: reporting exits one after the other is one way to report them all.
* `Session.site?_of_reach`: all stacks of a replay have the same call at the bottom.
-/

namespace TaintReplay

/-! ## A solver that keeps edges -/

/-- A solver that keeps the edges it is given, the latest first, and reports
nothing at once. The exits it knows do not change. -/
def recorder (exits : MethodId → Fact → Option (List Exit)) : Solver (List PathEdge) where
  endSummary _ := exits
  accept edges edge := (edge :: edges, [])
  reject edges _ := edges

variable {exits : MethodId → Fact → Option (List Exit)} {policy : Policy (List PathEdge)}
  {P : Session (List PathEdge) → Prop} {s t : Session (List PathEdge)} {edge : PathEdge}

theorem exec_deliver_recorder (exits : MethodId → Fact → Option (List Exit)) (fuel depth : Nat)
    (edge : PathEdge) (s : Session (List PathEdge)) :
    (Engine.deliver (recorder exits) fuel depth edge).exec s =
      (.ok (), { s with solver := edge :: s.solver }) := by
  cases depth with
  | zero => rfl
  | succ depth => rfl

/-- The solver was given an edge after a session. -/
def SentSince (s : Session (List PathEdge)) (edge : PathEdge) (t : Session (List PathEdge)) :
    Prop :=
  ∃ new, t.solver = new ++ s.solver ∧ edge ∈ new

namespace Policy

theorem Step.solver_append (hsolver : policy.solver = recorder exits) (h : policy.Step s t) :
    ∃ new, t.solver = new ++ s.solver := by
  cases h with
  | send permitted =>
      rename_i edge
      rw [hsolver]
      exact ⟨[edge], rfl⟩
  | reject permitted =>
      rw [hsolver]
      exact ⟨[], rfl⟩
  | _ => exact ⟨[], rfl⟩

/-- A recorder forgets no edge. -/
theorem Evolves.solver_append (hsolver : policy.solver = recorder exits)
    (h : policy.Evolves s t) : ∃ new, t.solver = new ++ s.solver := by
  induction h with
  | refl => exact ⟨[], rfl⟩
  | tail _ hstep ih =>
      obtain ⟨old, hold⟩ := ih
      obtain ⟨new, hnew⟩ := hstep.solver_append hsolver
      exact ⟨new ++ old, by rw [hnew, hold, List.append_assoc]⟩

theorem stable_sentSince (hsolver : policy.solver = recorder exits)
    (s : Session (List PathEdge)) (edge : PathEdge) :
    policy.law.Stable (SentSince s edge) := by
  rintro t u ⟨new, hnew, hedge⟩ htu
  obtain ⟨later, hlater⟩ := Evolves.solver_append hsolver htu
  exact ⟨later ++ new, by rw [hlater, hnew, List.append_assoc], List.mem_append_right _ hedge⟩

/-- Edges handed to a recorder are sent. -/
theorem hosts_recorder (hsolver : policy.solver = recorder exits)
    (hsince : ∀ t, P t → policy.Evolves s t)
    (hseeds : ∀ t edge, P t → t.Seeds edge → policy.sends t edge) (fuel depth : Nat) :
    policy.Hosts P (SentSince s) (Engine.host (recorder exits) fuel depth) where
  solver := hsolver.symm
  deliver edge := by
    rintro t ⟨ht, hsends⟩
    show policy.law.Runs t (Engine.deliver (recorder exits) fuel depth edge) _
    rw [Law.Runs, exec_deliver_recorder]
    have hstep := Step.send t hsends
    rw [hsolver] at hstep
    obtain ⟨new, hnew⟩ := (hsince t ht).solver_append hsolver
    exact ⟨.single hstep, edge :: new, congrArg (edge :: ·) hnew, List.mem_cons_self⟩
  stable := stable_sentSince hsolver s
  seeds := hseeds

/-! ## What was permitted -/

/-- Every edge that a recorder has kept was permitted when it was sent. -/
theorem Evolves.recorded (hsolver : policy.solver = recorder exits) (hempty : s.solver = [])
    (h : policy.Evolves s t) (hedge : edge ∈ t.solver) :
    ∃ u, policy.sends u edge ∧ policy.Evolves s u ∧ policy.Evolves u t := by
  induction h with
  | refl =>
      rw [hempty] at hedge
      cases hedge
  | tail hsu hstep ih =>
      rename_i u t
      -- an edge that was there before was permitted before
      have hold : edge ∈ u.solver →
          ∃ w, policy.sends w edge ∧ policy.Evolves s w ∧ policy.Evolves w t := by
        intro hedge
        obtain ⟨w, hsends, hsw, hwu⟩ := ih hedge
        exact ⟨w, hsends, hsw, hwu.tail hstep⟩
      cases hstep with
      | send permitted =>
          rw [hsolver] at hedge
          rcases List.mem_cons.1 hedge with rfl | hedge
          · exact ⟨u, permitted, hsu, .single (.send u permitted)⟩
          · exact hold hedge
      | reject permitted =>
          rw [hsolver] at hedge
          exact hold hedge
      | _ => exact hold hedge

end Policy

variable {σ : Type}

/-- Every replay that waits was permitted to and has a reason, if none waited at
first. -/
theorem Policy.Evolves.waiting {policy : Policy σ} {s t : Session σ}
    (hidle : ∀ e seed c, (s.engine e).waiting.contains seed c = false) (h : policy.Evolves s t)
    {e : EngineId} {seed : Seed} {c : Continuation}
    (hc : (t.engine e).waiting.contains seed c = true) :
    ∃ u p gap m, policy.waits u e c ∧ u.Awaits e seed c p gap m ∧ policy.Evolves s u ∧
      policy.Evolves u t := by
  induction h with
  | refl =>
      rw [hidle] at hc
      cases hc
  | tail hsu hstep ih =>
      rename_i u t
      rcases hstep.waiting hc with hold | ⟨hwaits, p, gap, m, hawaits⟩
      · obtain ⟨w, p, gap, m, hwaits, hawaits, hsw, hwu⟩ := ih hold
        exact ⟨w, p, gap, m, hwaits, hawaits, hsw, hwu.tail hstep⟩
      · exact ⟨u, p, gap, m, hwaits, hawaits, hsu, .single hstep⟩

/-! ## Reports -/

/-- The reports that a table has of some edges: the exits of the methods that they
are seeds of. -/
def ExitTable.reports (table : ExitTable) (program : Program) (edges : List PathEdge) :
    List ExitReport :=
  edges.flatMap fun edge =>
    match program.entered? edge.target with
    | none => []
    | some m => (table m edge.context).map fun exit => ⟨edge.context, exit.stmt, exit.fact⟩

theorem ExitTable.mem_reports {table : ExitTable} {program : Program} {edges : List PathEdge}
    {r : ExitReport} :
    r ∈ table.reports program edges ↔ ∃ edge ∈ edges, ∃ m, program.entered? edge.target = some m ∧
      ∃ exit ∈ table m edge.context, r = ⟨edge.context, exit.stmt, exit.fact⟩ := by
  rw [reports, List.mem_flatMap]
  refine exists_congr fun edge => and_congr_right fun _ => ?_
  cases program.entered? edge.target with
  | none => simp
  | some m => simp [eq_comm]

/-- The exits of a table are reported to a session one by one, in any order, and
so are those of the edges that this leads to, until nothing is left to report. -/
inductive Delivers (table : ExitTable) (host : Host (List PathEdge)) :
    Session (List PathEdge) → List ExitReport → Session (List PathEdge) → Prop
  | done (s : Session (List PathEdge)) : Delivers table host s [] s
  | next {s t u : Session (List PathEdge)} {before after : List ExitReport} {r : ExitReport}
      {fuel : Nat} {handled : Bool} {new : List PathEdge}
      (run : (Engine.handleExit host fuel r).exec s = (.ok handled, t))
      (edges : t.solver = new ++ s.solver)
      (rest : Delivers table host t (before ++ after ++ table.reports t.program new) u) :
      Delivers table host s (before ++ r :: after) u

/-- Reports exits one after the other, those that came first at first. -/
def deliverAll (table : ExitTable) (host : Host (List PathEdge)) (fuel : Nat) :
    Nat → Session (List PathEdge) → List ExitReport → Option (Session (List PathEdge))
  | _, s, [] => some s
  | 0, _, _ :: _ => none
  | n + 1, s, r :: rest =>
      match (Engine.handleExit host fuel r).exec s with
      | (.ok _, t) =>
          let new := t.solver.take (t.solver.length - s.solver.length)
          deliverAll table host fuel n t (rest ++ table.reports t.program new)
      | (.error _, _) => none

theorem grounded_of_query {fuel depth steps : Nat} {e : EngineId} {direction : Direction}
    {site : CallSite} {reply : Option FactSet} (hs : s.Grounded)
    (run : (Engine.query (Engine.host (recorder exits) fuel depth) steps e direction site).exec s =
      (.ok reply, t)) : t.Grounded := by
  have hlenient := Policy.free_lenient (recorder exits)
  obtain ⟨hst, -⟩ := (Engine.runs_query (Policy.free_admits (recorder exits))
    (Policy.free_hosts (recorder exits) fuel depth) steps hs
    fun _ _ _ _ _ _ => Engine.mayBegin_of_lenient hlenient _ _).of_ok run
  exact Policy.Evolves.grounded hst hs

/-- Reporting an exit makes a recorder forget nothing. -/
theorem handleExit_recorder {r : ExitReport} {fuel depth steps : Nat} {handled : Bool}
    (hs : s.Grounded)
    (run : (Engine.handleExit (Engine.host (recorder exits) fuel depth) steps r).exec s =
      (.ok handled, t)) : t.Grounded ∧ ∃ new, t.solver = new ++ s.solver := by
  have hmeets := Engine.meets_handleExit (Policy.free_admits (recorder exits))
    (Policy.free_hosts (recorder exits) fuel depth)
    fun _ _ _ _ => Engine.mayAnswer_of_lenient (Policy.free_lenient _) steps r
  obtain ⟨hst, -⟩ := (hmeets s hs).of_ok run
  exact ⟨Policy.Evolves.grounded hst hs, Policy.Evolves.solver_append rfl hst⟩

/-- If all exits could be reported one after the other, that is one order to report
them in. -/
theorem delivers_of_deliverAll {table : ExitTable} {fuel depth steps n : Nat}
    {pending : List ExitReport} (hs : s.Grounded)
    (h : deliverAll table (Engine.host (recorder exits) fuel depth) steps n s pending = some t) :
    Delivers table (Engine.host (recorder exits) fuel depth) s pending t := by
  induction n generalizing s pending with
  | zero =>
      cases pending with
      | nil =>
          cases h
          exact .done t
      | cons r rest => cases h
  | succ n ih =>
      cases pending with
      | nil =>
          cases h
          exact .done t
      | cons r rest =>
          rw [deliverAll] at h
          split at h
          · rename_i handled u run
            obtain ⟨hu, new, hnew⟩ := handleExit_recorder hs run
            have htake : u.solver.take (u.solver.length - s.solver.length) = new := by
              rw [hnew, List.length_append, Nat.add_sub_cancel, List.take_left]
            simp only [htake] at h
            exact .next run hnew (show Delivers table _ u ([] ++ rest ++ _) t from ih hu h)
          · cases h

/-! ## The call at the bottom of a stack -/

namespace Stack

/-- The call at the bottom of a stack. -/
def site? (st : Stack) : Option SiteKey := st.getLast?.bind (·.site)

theorem site?_leave (t : Taint) (st : Stack) : site? (Stack.leave t st) = site? st := by
  match st with
  | [] => rfl
  | [bottom] => rfl
  | [top, bottom] => rfl
  | top :: caller :: next :: below => rfl

theorem site?_invert (st : Stack) : site? st.invert = site? st := by
  match st with
  | [] => rfl
  | [bottom] => rfl
  | top :: next :: below => rfl

theorem site?_of_applyToStack? {h : Hierarchy} {flow : Flow} {st out : Stack}
    (hout : h.applyToStack? flow st = some out) : site? out = site? st := by
  cases st with
  | nil => cases hout
  | cons top below =>
      rcases Hierarchy.applyToStack?_cases hout with ⟨gap, -, rfl⟩ | ⟨-, rfl⟩
      · rfl
      · exact site?_leave _ (top :: below)

end Stack

/-- What a table leaves of a gap: the taints at the exits of the methods that can be
entered there. -/
theorem Session.mem_leaves {s : Session σ} {table : ExitTable} {top : Layer} {below out : Stack} :
    out ∈ s.leaves table (top :: below) ↔ ∃ gap m path exit t, top.gap = some gap ∧
      m ∈ s.gapMethods gap ∧ Engine.canEnter s.hierarchy m = true ∧
      m.pathInside top.taint = .ok (some path) ∧ exit ∈ table m.id (.ofPath path) ∧
      t ∈ s.program.taintsOnReturn exit.fact.path exit.stmt (some gap) ∧
      out = Stack.leave t (top :: below) := by
  rw [Session.leaves]
  constructor
  · intro h
    split at h
    · cases h
    · rename_i gap hgap
      obtain ⟨m, hm, hout⟩ := List.mem_flatMap.1 h
      obtain ⟨hmethod, henter⟩ := List.mem_filter.1 hm
      obtain ⟨t, ht, rfl⟩ := List.mem_map.1 hout
      rw [Program.exitTaints, OrdSet.mem_toList, OrdSet.mem_ofList] at ht
      obtain ⟨exit, hexit, ht⟩ := List.mem_flatMap.1 ht
      rw [ExitTable.exitsFor] at hexit
      split at hexit
      · rename_i path hpath
        exact ⟨gap, m, path, exit, t, hgap, hmethod, henter, hpath, hexit, ht, rfl⟩
      · cases hexit
  · rintro ⟨gap, m, path, exit, t, hgap, hmethod, henter, hpath, hexit, ht, rfl⟩
    rw [hgap]
    refine List.mem_flatMap.2 ⟨m, List.mem_filter.2 ⟨hmethod, henter⟩, List.mem_map_of_mem ?_⟩
    rw [Program.exitTaints, OrdSet.mem_toList, OrdSet.mem_ofList]
    refine List.mem_flatMap.2 ⟨exit, ?_, ht⟩
    rw [ExitTable.exitsFor, hpath]
    exact hexit

/-- All stacks of a replay have the same call at the bottom. -/
theorem Session.site?_of_reach {s : Session σ} {e : EngineId} {flows : FlowSet} {table : ExitTable}
    {initial : Stack → Prop} {site : Option SiteKey} (hinitial : ∀ st, initial st → st.site? = site)
    {st : Stack}
    (h : (s.rules e flows).Reach (fun st out => out ∈ s.leaves table st) initial st) :
    st.site? = site := by
  have hleads : ∀ {st out}, (s.rules e flows).Leads st out → Stack.site? out = Stack.site? st := by
    rintro _ out ⟨top, below, flow, rfl, -, happlied⟩
    exact Stack.site?_of_applyToStack? happlied
  induction h with
  | start h => exact hinitial _ h
  | resolve _ _ left ih =>
      obtain ⟨-, -, -, -, t, -, -, -, -, -, -, rfl⟩ := Session.mem_leaves.1 left
      exact (Stack.site?_leave t _).trans ih
  | follow _ leads _ ih => exact (hleads leads).trans ih
  | invert _ leads _ _ ih => exact (Stack.site?_invert _).trans ((hleads leads).trans ih)

end TaintReplay
