import TaintReplay.Proofs.Deliveries

/-!
# What leads to what while engines work

Engines work because they are asked about calls and because exits are reported. While
they do, the solver may report further exits, so that replays are woken in the middle
of other replays. An `Episode` is what is known about such work from outside: the
session it begins in, the solver, the calls that are asked about, and the exits that
are reported by others than the solver. The sessions that engines may come to are
related by steps (`Episode.Leads`). Steps take nothing back, so whatever a session on the
way has reported, interned or sent is found in all later ones.

Three things are said about the replays in an episode. An exit wakes a replay that waits
for just this exit (`Episode.Wakes`). A replay that was woken brings an edge
(`Episode.Brings`), if going on with it collects the path of the edge for the call at
the bottom of its stack. And a replay that waits stems from a call (`Episode.Stems`):
it came to wait when the call was asked about, or when a replay was woken that stems
from the call.

## Main results

* `Episode.Stems.leads`: a replay goes on to stem from its call.
* `Episode.Wakes.leads`: a replay that is woken can still be woken later.
-/

namespace TaintReplay

variable {σ : Type}

/-- The replay waits with some engine. -/
def Session.Waits (s : Session σ) (c : Continuation) : Prop :=
  ∃ e seed, (s.engine e).waiting.contains seed c = true

theorem Session.Waits.grows {s t : Session σ} {c : Continuation} (h : s.Waits c) (hst : s.Grows t) :
    t.Waits c := by
  obtain ⟨e, seed, hc⟩ := h
  exact ⟨e, seed, (hst.engine e).waiting seed c hc⟩

/-- What waits is in an arena that was opened. -/
theorem Session.Waits.lt_arenas {s : Session σ} {c : Continuation} (h : s.Waits c) (hs : s.Sound) :
    c.arena < s.arenas.length := by
  obtain ⟨e, seed, hc⟩ := h
  obtain ⟨p, hp, -⟩ := hs.waiting e seed c hc
  refine Nat.lt_of_not_le fun hle => ?_
  have hempty : s.arena c.arena = Arena.empty := by
    rw [Session.arena, List.getElem?_eq_none hle]
    rfl
  rw [hempty] at hp
  cases hp

/-- What is known from outside about the work of engines. -/
structure Episode (σ : Type) where
  base : Session σ
  solver : Solver σ
  fuel : Nat
  /-- How deep reports may nest. -/
  depth : Nat
  /-- Exits that are reported by others than the solver. -/
  reports : ExitReport → Prop
  /-- Calls that are asked about. -/
  asks : SiteKey → Prop

namespace Episode

/-- Engines may come from one session to the other. -/
def Leads (x : Episode σ) : Session σ → Session σ → Prop := (Policy.free x.solver).Evolves

/-- The solver as an engine sees it, where reports may still nest to some depth. -/
def host (x : Episode σ) (depth : Nat) : Host σ := Engine.host x.solver x.fuel depth

/-- By the time of a session an exit was reported: by others, or by the solver when it
was given an edge. -/
def Reported (x : Episode σ) (r : ExitReport) (u : Session σ) : Prop :=
  x.reports r ∨ ∃ s edge, x.Leads x.base s ∧ r ∈ (x.solver.accept s.solver edge).2 ∧
    x.Leads { s with solver := (x.solver.accept s.solver edge).1 } u

/-- An exit wakes a replay: it was reported, and the replay waits for its seed in its
method with the engine that listens. -/
structure Wakes (x : Episode σ) (r : ExitReport) (e : EngineId) (m : Method) (c : Continuation)
    (u : Session σ) : Prop where
  since : x.Leads x.base u
  reported : x.Reported r u
  listener : u.listener = some e
  method : u.program.methodOf? r.stmt = some m
  waits : (u.engine e).waiting.contains ⟨r.seed.path, m.id⟩ c = true

/-- A replay stems from a call: it waited from the beginning, with the call at the
bottom of its stack; or it is in a new arena, and the call was asked about; or a
replay in the same arena that stems from the call was woken before. -/
inductive Stems (x : Episode σ) (key : SiteKey) : Session σ → Continuation → Prop
  | waited {s : Session σ} {c : Continuation} (waits : x.base.Waits c)
      (call : ((x.base.arena c.arena).stack c.id).site? = some key) : Stems x key s c
  | asked {s : Session σ} {c : Continuation} (asks : x.asks key)
      (opened : x.base.arenas.length ≤ c.arena) : Stems x key s c
  | woken {r : ExitReport} {e : EngineId} {m : Method} {waker c : Continuation} {u s : Session σ}
      (stems : Stems x key u waker) (wakes : x.Wakes r e m waker u) (leads : x.Leads u s)
      (arena : waker.arena = c.arena) : Stems x key s c

/-- A replay that is woken brings an edge: going on with it leads to another session and
collects a path, which the edge takes from the call at the bottom of the stack to a
successor of the call. -/
structure Brings (x : Episode σ) (depth : Nat) (r : ExitReport) (e : EngineId) (m : Method)
    (c : Continuation) (site : CallSite) (edge : PathEdge) (u v : Session σ) : Prop where
  bounded : depth ≤ x.depth
  wakes : x.Wakes r e m c u
  call : ((u.arena c.arena).stack c.id).site? = some site.key
  collects : ∃ paths path next,
    (Engine.collectOne (x.host depth) x.fuel e m r.stmt r.fact c).exec u =
        (.ok (some (site, paths)), v) ∧
      path ∈ paths ∧ next ∈ u.program.successors site.stmt ∧
      edge = ⟨site.context, next, .derivedAt path site.stmt⟩
  leads : x.Leads u v

variable {x : Episode σ} {s t u : Session σ}

theorem Leads.refl : x.Leads s s := Relation.ReflTransGen.refl

theorem Leads.trans (h : x.Leads s t) (h' : x.Leads t u) : x.Leads s u :=
  Relation.ReflTransGen.trans h h'

theorem Leads.grows (h : x.Leads s t) : s.Grows t := Policy.Evolves.grows h

/-- What programs do that keep to a policy is something that engines may do. -/
theorem Leads.of_evolves {policy : Policy σ} (hsolver : policy.solver = x.solver)
    (h : policy.Evolves s t) : x.Leads s t := by
  rw [Leads, ← hsolver]
  exact h.free

theorem Reported.leads {r : ExitReport} (h : x.Reported r s) (hst : x.Leads s t) :
    x.Reported r t := by
  rcases h with hreports | ⟨u, edge, hu, hr, hus⟩
  · exact .inl hreports
  · exact .inr ⟨u, edge, hu, hr, hus.trans hst⟩

theorem Wakes.leads {r : ExitReport} {e : EngineId} {m : Method} {c : Continuation}
    (h : x.Wakes r e m c s) (hst : x.Leads s t) : x.Wakes r e m c t where
  since := h.since.trans hst
  reported := h.reported.leads hst
  listener := by
    rw [hst.grows.listener]
    exact h.listener
  method := by
    rw [hst.grows.program]
    exact h.method
  waits := (hst.grows.engine e).waiting _ c h.waits

theorem Stems.leads {key : SiteKey} {c : Continuation} (h : x.Stems key s c) (hst : x.Leads s t) :
    x.Stems key t c := by
  cases h with
  | waited waits call => exact .waited waits call
  | asked asks opened => exact .asked asks opened
  | woken stems wakes leads arena => exact .woken stems wakes (leads.trans hst) arena

end Episode

end TaintReplay
