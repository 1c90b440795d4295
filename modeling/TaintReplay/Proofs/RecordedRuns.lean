import Mathlib.Data.List.Induction
import TaintReplay.Proofs.Histories
import TaintReplay.Proofs.WaitingStacks

/-!
# Runs on record

A `Setup` is all that a run depends on besides what is asked: the program, the
hierarchy and the engines that it begins with, and the solver. The solver is made to
keep the edges it is given and the errors it is told of, and does the same otherwise;
so what has come out of a run can be read off the session it has led to
(`Setup.given`, `Setup.told`).

The record only grows. Every edge on it was put there by a step of some query or
report, which was permitted if these keep to a policy (`Policy.Evolves.given`). The
other requests leave alone what queries and reports work on, and a method that could
be entered before can be entered after them (`Session.Idles`).

## Main results

* `Policy.Evolves.given`: every edge on record that is new was permitted when it was sent.
* `Engine.canEnter_apply`: changes of the hierarchy close no method.
* `Policy.Evolves.told`: the solver is told of errors only where that is permitted.
* `Setup.evolves_or_idles`: what a request does to a session with a record.
* `Setup.evolves_or_idles_of_watch`: what it does under a watch.
* `Setup.holds_nil`, `Setup.holds_append_singleton`: what is covered in the beginning, and after
  one more request.
* `Setup.suffix_given`: the record of a run has that of its beginning at the end.
-/

namespace TaintReplay

/-! ## Methods stay open -/

namespace Hierarchy

variable {h : Hierarchy} {name : String} {node : ClassNode}

theorem find?_ensure_of_some (hfound : h.find? name = some node) (other : String) :
    (h.ensure other).find? name = some node := by
  rw [find?_ensure, if_neg (by simp [hfound]), hfound]

/-- What is defined stays as it is, whatever is changed. -/
theorem find?_apply (edit : Edit) (hfound : h.find? name = some node)
    (hdefined : node.phantom = false) : (edit.apply h).2.find? name = some node := by
  cases edit with
  | define other kind =>
      show (h.define other kind).2.find? name = some node
      unfold define
      split
      · rename_i place
        rw [find?_addNode, if_neg, hfound]
        rintro rfl
        simp [find?, place] at hfound
      · rename_i i place
        split
        · -- only a phantom is replaced
          rename_i hphantom
          rw [find?_redefine, if_neg, hfound]
          rintro rfl
          simp [isPhantom, hfound, hdefined] at hphantom
        · exact hfound
  | link child parent kind =>
      show (h.link child parent kind).2.find? name = some node
      unfold link
      split
      · exact find?_ensure_of_some hfound parent
      · exact hfound
  | ensure other => exact find?_ensure_of_some hfound other
  | close => exact find?_ensure_of_some hfound _

end Hierarchy

namespace Engine

variable {h : Hierarchy} {m : Method}

/-- A method can be entered if it has code and its class is defined as one with
instances of its own. -/
theorem canEnter_iff :
    canEnter h m = true ↔ m.isAbstract = false ∧
      ∃ node, h.find? m.className = some node ∧ node.kind = .concrete ∧ node.phantom = false := by
  unfold canEnter Hierarchy.isConcrete Hierarchy.isPhantom
  cases h.find? m.className with
  | none => simp
  | some node => simp [and_assoc]

/-- A method that can be entered can still be entered after a change. -/
theorem canEnter_apply (edit : Hierarchy.Edit) (henter : canEnter h m = true) :
    canEnter (edit.apply h).2 m = true := by
  obtain ⟨hcode, node, hfound, hkind, hdefined⟩ := canEnter_iff.1 henter
  exact canEnter_iff.2 ⟨hcode, node, Hierarchy.find?_apply edit hfound hdefined, hkind, hdefined⟩

end Engine

variable {σ : Type}

/-! ## Solvers that keep what they are given -/

/-- A solver that keeps a record of the edges it is given, the latest first. -/
def Solver.logging (solver : Solver σ) : Solver (σ × List PathEdge) where
  endSummary state := solver.endSummary state.1
  accept state edge :=
    let (next, reports) := solver.accept state.1 edge
    ((next, edge :: state.2), reports)
  reject state e := (solver.reject state.1 e, state.2)

/-- The state of a solver with the edges it was given and the errors it was told of. -/
abbrev Ledger (σ : Type) := (σ × List PathEdge) × List AnalysisError

/-- The edges that the solver was given, the latest first. -/
def Session.given (s : Session (Ledger σ)) : List PathEdge := s.solver.1.2

section Given

variable {policy : Policy (Ledger σ)} {solver : Solver σ} {s t : Session (Ledger σ)}
  {edge : PathEdge} {later sooner : List PathEdge}

namespace Policy

/-- A step gives the solver one edge or none. -/
theorem Step.given (hsolver : policy.solver = solver.logging.recording) (h : policy.Step s t) :
    t.given = s.given ∨ ∃ edge, policy.sends s edge ∧ t.given = edge :: s.given := by
  cases h with
  | send permitted =>
      rename_i edge
      rw [hsolver]
      exact .inr ⟨edge, permitted, rfl⟩
  | reject permitted =>
      rw [hsolver]
      exact .inl rfl
  | _ => exact .inl rfl

/-- The record grows at its front. -/
theorem Evolves.suffix_given (hsolver : policy.solver = solver.logging.recording)
    (h : policy.Evolves s t) : s.given <:+ t.given := by
  induction h with
  | refl => exact List.suffix_refl _
  | tail _ hstep ih =>
      rcases hstep.given hsolver with hsame | ⟨edge, -, hnew⟩
      · rw [hsame]
        exact ih
      · rw [hnew]
        exact ih.trans (List.suffix_cons edge _)

/-- An edge on record was there before, or was permitted when it was sent, after the
sooner ones. -/
theorem Evolves.given (hsolver : policy.solver = solver.logging.recording)
    (h : policy.Evolves s t) (hedge : t.given = later ++ edge :: sooner) :
    (∃ rest, s.given = rest ++ edge :: sooner) ∨
      ∃ u, policy.sends u edge ∧ policy.Evolves s u ∧ policy.Evolves u t ∧ u.given = sooner := by
  induction h generalizing later with
  | refl => exact .inl ⟨later, hedge⟩
  | tail hsu hstep ih =>
      rename_i u t
      -- an edge that was there before the last step is judged by the steps before it
      have hold : ∀ {rest}, u.given = rest ++ edge :: sooner →
          (∃ rest, s.given = rest ++ edge :: sooner) ∨ ∃ v, policy.sends v edge ∧
            policy.Evolves s v ∧ policy.Evolves v t ∧ v.given = sooner := by
        intro rest hrest
        refine (ih hrest).imp_right ?_
        rintro ⟨v, hsends, hsv, hvu, hsooner⟩
        exact ⟨v, hsends, hsv, hvu.tail hstep, hsooner⟩
      rcases hstep.given hsolver with hsame | ⟨new, hsends, hnew⟩
      · exact hold (hsame.symm.trans hedge)
      · rw [hnew] at hedge
        cases later with
        | nil =>
            obtain ⟨rfl, rfl⟩ := List.cons.inj hedge
            exact .inr ⟨u, hsends, hsu, .single hstep, rfl⟩
        | cons first later => exact hold (List.cons.inj hedge).2

/-- An error that the solver was told of is an old one, or it was permitted to be told
of it. -/
theorem Evolves.told {policy : Policy (σ × List AnalysisError)}
    {s t : Session (σ × List AnalysisError)} (hsolver : policy.solver = solver.recording)
    (h : policy.Evolves s t) {err : AnalysisError} (herr : err ∈ t.solver.2) :
    err ∈ s.solver.2 ∨ policy.tells err := by
  induction h with
  | refl => exact .inl herr
  | tail _ hstep ih =>
      cases hstep with
      | send permitted =>
          rw [hsolver] at herr
          exact ih herr
      | reject permitted =>
          rw [hsolver] at herr
          rcases List.mem_cons.1 herr with rfl | hold
          · exact .inr permitted
          · exact ih hold
      | _ => exact ih herr

end Policy

end Given

/-! ## Requests on record -/

/-- The same request to a session whose solver keeps edges. The solver's own work
leaves the record alone. -/
def Request.logged : Request σ → Request (σ × List PathEdge)
  | connect e => .connect e
  | query e direction site => .query e direction site
  | exit r => .exit r
  | release e => .release e
  | edit change => .edit change
  | work f => .work fun state => (f state.1, state.2)

/-- Nothing has changed that queries and reports work on, the record is the same, and
no method was closed. -/
structure Session.Idles (s t : Session (Ledger σ)) : Prop extends s.Keeps t where
  given : t.given = s.given
  enters : ∀ m, Engine.canEnter s.hierarchy m = true → Engine.canEnter t.hierarchy m = true

/-- All that a run depends on besides what is asked. -/
structure Setup (σ : Type) where
  hierarchy : Hierarchy
  program : Program
  /-- The bodies that are loaded already. -/
  bodies : Bodies
  engines : List (SummaryStore × Options × Option EngineId)
  solver : Solver σ
  /-- The state that the solver begins in. -/
  state : σ
  fuel : Nat
  /-- How deeply reports may nest. -/
  depth : Nat

namespace Setup

/-- The session that a run begins with. -/
def begun (k : Setup σ) : Session (Ledger σ) :=
  Session.start k.hierarchy k.program k.bodies ((k.state, []), []) (Session.created k.engines)

/-- How some requests end, one after the other, and the session they lead to. -/
def run (k : Setup σ) (requests : List (Request σ)) :
    List (Except Failure Unit) × Session (Ledger σ) :=
  k.begun.perform k.solver.logging k.fuel k.depth (requests.map Request.logged)

/-- The session that some requests lead to. -/
def after (k : Setup σ) (requests : List (Request σ)) : Session (Ledger σ) := (k.run requests).2

/-- The edges that the solver was given, the latest first. -/
def given (k : Setup σ) (requests : List (Request σ)) : List PathEdge := (k.after requests).given

/-- The errors that the solver was told of, the latest first. -/
def told (k : Setup σ) (requests : List (Request σ)) : List AnalysisError :=
  (k.after requests).solver.2

/-- Carries out a request on record. -/
def ask (k : Setup σ) (request : Request σ) : Run (Ledger σ) Unit :=
  request.logged.run k.solver.logging k.fuel k.depth

/-- The solver as an engine sees it, where reports may still nest to some depth. -/
def host (k : Setup σ) (depth : Nat) : Host (Ledger σ) :=
  Engine.host k.solver.logging.recording k.fuel depth

/-- What may happen after some requests, if some exits are reported and some calls are
asked about. -/
def episode (k : Setup σ) (requests : List (Request σ)) (reports : ExitReport → Prop)
    (asks : SiteKey → Prop) : Episode (Ledger σ) where
  base := k.after requests
  solver := k.solver.logging.recording
  fuel := k.fuel
  depth := k.depth
  reports := reports
  asks := asks

end Setup

theorem Session.perform_append (solver : Solver σ) (fuel depth : Nat)
    (s : Session (σ × List AnalysisError)) (first rest : List (Request σ)) :
    s.perform solver fuel depth (first ++ rest) =
      ((s.perform solver fuel depth first).1 ++
          ((s.perform solver fuel depth first).2.perform solver fuel depth rest).1,
        ((s.perform solver fuel depth first).2.perform solver fuel depth rest).2) := by
  induction first generalizing s with
  | nil => rfl
  | cons request first ih =>
      rw [List.cons_append, Session.perform, Session.perform]
      simp only [ih, List.cons_append]

namespace Setup

variable (k : Setup σ)

theorem after_nil : k.after [] = k.begun := rfl

theorem after_append (first rest : List (Request σ)) :
    k.after (first ++ rest) =
      ((k.after first).perform k.solver.logging k.fuel k.depth (rest.map Request.logged)).2 := by
  rw [after, run, List.map_append, Session.perform_append]
  rfl

theorem after_append_singleton (requests : List (Request σ)) (request : Request σ) :
    k.after (requests ++ [request]) = ((k.ask request).exec (k.after requests)).2 :=
  k.after_append requests [request]

theorem tidy_after (requests : List (Request σ)) : (k.after requests).Tidy :=
  (Session.tidy_start k.hierarchy k.program k.bodies _ k.engines).perform k.solver.logging k.fuel
    k.depth _

/-- What is neither a query nor a report leaves things as they are for these. -/
theorem asks_or_idles (requests : List (Request σ)) (request : Request σ) :
    (∃ e direction site, request = .query e direction site) ∨ (∃ r, request = .exit r) ∨
      (k.after requests).Idles (k.after (requests ++ [request])) := by
  rw [after_append_singleton]
  generalize k.after requests = s
  cases request with
  | query e direction site => exact .inl ⟨e, direction, site, rfl⟩
  | exit r => exact .inr (.inl ⟨r, rfl⟩)
  | connect e =>
      refine .inr (.inr ?_)
      show s.Idles ((Engine.connect e).exec s).2
      rcases Engine.exec_connect e s with hrun | ⟨names, history, hrun⟩
      · rw [hrun]
        exact ⟨.refl s, rfl, fun _ => id⟩
      · rw [hrun]
        refine ⟨⟨rfl, rfl, fun j => s.waiting_modifyEngine e j fun _ => rfl, rfl⟩, rfl, ?_⟩
        intro m henter
        show Engine.canEnter (s.hierarchy.ensureAll names) m = true
        have hsame := Hierarchy.ensureAll_eq s.hierarchy (f := fun h => Engine.canEnter h m)
          (fun h name => Engine.canEnter_ensure h name m) names
        exact hsame.trans henter
  | release e =>
      refine .inr (.inr ⟨⟨rfl, rfl, fun j => ?_, rfl⟩, rfl, fun _ => id⟩)
      exact s.waiting_modifyEngine e j fun _ => rfl
  | edit change =>
      exact .inr (.inr ⟨⟨rfl, rfl, fun _ => rfl, rfl⟩, rfl, fun m => Engine.canEnter_apply change⟩)
  | work f => exact .inr (.inr ⟨⟨rfl, rfl, fun _ => rfl, rfl⟩, rfl, fun _ => id⟩)

/-- A request is made of steps, or leaves things as they are for those that are. -/
theorem evolves_or_idles (requests : List (Request σ)) (request : Request σ) :
    (Policy.orderly k.solver.logging.recording).Evolves (k.after requests)
        (k.after (requests ++ [request])) ∨
      (k.after requests).Idles (k.after (requests ++ [request])) := by
  have hs := (k.tidy_after requests).sound
  rcases k.asks_or_idles requests request with ⟨e, direction, site, rfl⟩ | ⟨r, rfl⟩ | hidles
  · left
    rw [after_append_singleton]
    exact Request.evolves_query hs e direction site
  · left
    rw [after_append_singleton]
    exact Request.evolves_exit hs r
  · exact .inr hidles

/-- What a request does under a watch of what may happen then, if the stacks that a
query starts from have the property. -/
theorem evolves_or_idles_of_watch {w : Watch (Ledger σ)} (h : w.Lawful)
    {requests : List (Request σ)} {reports : ExitReport → Prop} {asks : SiteKey → Prop}
    (hw : w.toEpisode = k.episode requests reports asks)
    (hhost : w.policy.Hosts w.Holds (fun _ _ => True) (w.host w.depth))
    (hs : w.Holds (k.after requests)) (request : Request σ)
    (hreports : ∀ r, request = .exit r → w.reports r)
    (hasks : ∀ e direction site, request = .query e direction site → w.asks site.key)
    (hstarts : ∀ e direction site, request = .query e direction site →
      ∀ j ∈ (k.after requests).chain e, ∀ a taint, w.base.arenas.length ≤ a →
        w.inside j a site.key (site.stack (direction = .backward) taint)) :
    w.policy.Evolves (k.after requests) (k.after (requests ++ [request])) ∨
      (k.after requests).Idles (k.after (requests ++ [request])) := by
  have hsame : w.host w.depth = k.host k.depth := by
    rw [hw]
    rfl
  have hfrom : ∀ x : Run (Ledger σ) Unit, w.policy.law.Runs (k.after requests) x (fun _ _ => True) →
      w.policy.Evolves (k.after requests) (x.exec (k.after requests)).2 := fun _ hx => hx.1
  rcases k.asks_or_idles requests request with ⟨e, direction, site, rfl⟩ | ⟨r, rfl⟩ | hidles
  · left
    rw [after_append_singleton]
    refine hfrom _ (Law.Meets.map (P := fun s => s = k.after requests) ?_ _ rfl)
    rintro _ rfl
    exact h.runs_query (hsame ▸ hhost) hs (hasks e direction site rfl) (hstarts e direction site rfl)
      k.fuel
  · left
    rw [after_append_singleton]
    refine hfrom _ (Law.Meets.map (P := fun s => s = k.after requests) ?_ _ rfl)
    rintro _ rfl
    have hruns := h.runs_handleExit hhost hs (.inl (hreports r rfl))
    rw [hsame, show w.fuel = k.fuel by rw [hw]; rfl] at hruns
    exact hruns
  · exact .inr hidles

/-- In the beginning nothing waits. -/
theorem not_waits_after_nil (c : Continuation) : ¬ (k.after []).Waits c := by
  rintro ⟨e, seed, hc⟩
  rw [after_nil, begun, Session.waiting_start] at hc
  cases hc

/-- So every watch covers what waits then. -/
theorem holds_nil {w : Watch (Ledger σ)} (hw : w.base = k.after []) : w.Holds (k.after []) := by
  rw [← hw]
  refine Watch.holds_base (hw ▸ (k.tidy_after []).sound) fun e seed c hc => ?_
  exact absurd ⟨e, seed, hw ▸ hc⟩ (k.not_waits_after_nil c)

/-- What is covered when a request is done has the property of the next watch, if that
is implied. -/
theorem holds_append_singleton {w next : Watch (Ledger σ)} {requests : List (Request σ)}
    {request : Request σ} (hnext : next.base = k.after (requests ++ [request]))
    (hs : w.Holds (k.after requests))
    (hrequest : w.policy.Evolves (k.after requests) (k.after (requests ++ [request])) ∨
      (k.after requests).Idles (k.after (requests ++ [request])))
    (hinside : ∀ e a key st, w.inside e a key st → next.inside e a key st) :
    next.Holds (k.after (requests ++ [request])) := by
  rw [← hnext]
  refine Watch.holds_base (hnext ▸ (k.tidy_after _).sound) fun e seed c hc => ?_
  rw [hnext] at hc ⊢
  rcases hrequest with hevolves | hidles
  · obtain ⟨key, hkey, hin, -⟩ := (hs.evolves hevolves).waiting e seed c hc
    exact ⟨key, hkey, hinside _ _ _ _ hin⟩
  · rw [hidles.waiting] at hc
    rw [hidles.arena]
    obtain ⟨key, hkey, hin, -⟩ := hs.waiting e seed c hc
    exact ⟨key, hkey, hinside _ _ _ _ hin⟩

/-- The solver is told of errors in the course of a request only if the policy permits
it. -/
theorem told_append_singleton {policy : Policy (Ledger σ)}
    (hsolver : policy.solver = k.solver.logging.recording) {requests : List (Request σ)}
    {request : Request σ}
    (hrequest : policy.Evolves (k.after requests) (k.after (requests ++ [request])) ∨
      (k.after requests).Idles (k.after (requests ++ [request])))
    {err : AnalysisError} (herr : err ∈ k.told (requests ++ [request])) :
    err ∈ k.told requests ∨ policy.tells err := by
  rcases hrequest with hevolves | hidles
  · exact Policy.Evolves.told hsolver hevolves herr
  · rw [told, hidles.told] at herr
    exact .inl herr

/-- With one more request the record grows at its front, and so does the number of
arenas. -/
theorem suffix_given_append_singleton (requests : List (Request σ)) (request : Request σ) :
    k.given requests <:+ k.given (requests ++ [request]) ∧
      (k.after requests).arenas.length ≤ (k.after (requests ++ [request])).arenas.length := by
  rcases k.evolves_or_idles requests request with hst | hidles
  · exact ⟨Policy.Evolves.suffix_given rfl hst, hst.grows.arenas⟩
  · rw [given, given, hidles.given, hidles.arenas]
    exact ⟨List.suffix_refl _, Nat.le_refl _⟩

/-- The record of a run has that of its beginning at the end, and the arenas of the
beginning are there. -/
theorem suffix_given (first rest : List (Request σ)) :
    k.given first <:+ k.given (first ++ rest) ∧
      (k.after first).arenas.length ≤ (k.after (first ++ rest)).arenas.length := by
  induction rest using List.reverseRecOn with
  | nil =>
      rw [List.append_nil]
      exact ⟨List.suffix_refl _, Nat.le_refl _⟩
  | append_singleton rest request ih =>
      rw [← List.append_assoc]
      have hstep := k.suffix_given_append_singleton (first ++ rest) request
      exact ⟨ih.1.trans hstep.1, Nat.le_trans ih.2 hstep.2⟩

/-- The program stays the same. -/
theorem program_after (requests : List (Request σ)) : (k.after requests).program = k.program := by
  induction requests using List.reverseRecOn with
  | nil => rfl
  | append_singleton requests request ih =>
      rw [← ih]
      rcases k.evolves_or_idles requests request with hst | hidles
      · exact hst.grows.program
      · exact hidles.program

/-- As long as the hierarchy is not changed, lookups find what they did in the beginning. -/
theorem serves_after {requests : List (Request σ)}
    (hfixed : ∀ request ∈ requests, request.isEdit = false) : k.begun.Serves (k.after requests) := by
  induction requests using List.reverseRecOn with
  | nil => exact (Session.Grows.refl _).serves
  | append_singleton requests request ih =>
      have hbefore := ih fun other hother => hfixed other (List.mem_append_left _ hother)
      have hlast : request.logged.isEdit = false := by
        have hrequest := hfixed request (by simp)
        cases request <;> first | rfl | cases hrequest
      rw [after_append_singleton]
      exact hbefore.trans (Request.serves (k.tidy_after requests).sound hlast)

end Setup

/-- A run with a solver that reports the exit of the callback as soon as it is entered. -/
def Sample.setup : Setup Scripted :=
  ⟨hierarchy, program, Bodies.empty, stores, Scripted.solver, eager, 20, 5⟩

end TaintReplay
