import TaintReplay.Proofs.RecordedRuns
import TaintReplay.Proofs.WaitingStacks

/-!
# Facts return to the calls they were asked about at

A replay that waits is resumed when its callback is left, which may be long after
the query that made it wait, in the middle of another query, and several gaps deep.
What it collects is then sent to the successors of a call, and that has to be the
call of its query. The call is found at the bottom of a stack. The stack has come
about by entering and leaving gaps, in that query and whenever the replay went on.

So every edge that is no seed is traced back to the replay that brought it: to the
exit that was reported, the replay that waited for just this exit, and the sessions
between which it went on and collected the path of the edge. The replay belongs to a
query at the call (`Setup.Belongs`): it came to wait when the query was put, in an
arena opened for the query, or when a replay of the same arena was woken that belongs
to the query. That the call at the bottom of its stack is the call of this query is a
property that flows, inverses and leaving a gap keep.

## Main results

* `Setup.owned_after`: every replay that waits belongs to a query at the call at the bottom of its
  stack.
* `facts_return_to_their_calls`: every edge is a seed, or was brought by a replay that was woken,
  and returns to the call of the query that this replay belongs to.
-/

namespace TaintReplay

variable {σ : Type} {edge : PathEdge}

/-! ## Seeds -/

/-- The edge takes a path to the start of a method with code, whose class is defined
as one that has instances of its own. -/
def Session.Enters (s : Session σ) (edge : PathEdge) : Prop :=
  ∃ m path, s.program.method? m.id = some m ∧ m.isAbstract = false ∧
    (∃ node, s.hierarchy.find? m.className = some node ∧ node.kind = .concrete ∧
      node.phantom = false) ∧
    edge.target ∈ s.program.startPoints m.id ∧
    edge.context = .ofPath path ∧ edge.fact = .ofPath path

/-- A method that may run in a gap is one of the program. -/
theorem Session.method?_of_mem_gapMethods {s : Session σ} (hs : s.program.Consistent) {gap : Gap}
    {m : Method} (hm : m ∈ s.gapMethods gap) : s.program.method? m.id = some m := by
  unfold Session.gapMethods at hm
  split at hm
  · cases hm
  · obtain ⟨id, -, hid⟩ := List.mem_filterMap.1 hm
    rw [hs.numbered hid]
    exact hid

/-- Seeds enter a method, and could have entered it before the session grew. -/
theorem Session.Seeds.enters {s t : Session σ} (hs : s.program.Consistent) (hst : s.Grows t)
    (h : t.Seeds edge) : s.Enters edge := by
  obtain ⟨e, seed, c, p, gap, m, hawaits, -, htarget, hcontext, hfact⟩ := h
  have hm : m ∈ s.gapMethods gap := by
    rw [← hst.gapMethods]
    exact hawaits.method
  have henter : Engine.canEnter s.hierarchy m = true := by
    rw [← hst.canEnter]
    exact hawaits.enterable
  obtain ⟨hcode, hclass⟩ := Engine.canEnter_iff.1 henter
  rw [← hawaits.id, hst.program] at htarget
  exact ⟨m, seed.path, Session.method?_of_mem_gapMethods hs hm, hcode, hclass, htarget, hcontext,
    hfact⟩

/-! ## Replays and the queries they belong to -/

namespace Setup

variable (k : Setup σ)

/-- What may happen in the course of a request. -/
def during (requests : List (Request σ)) (request : Request σ) : Episode (Ledger σ) :=
  k.episode requests (fun r => request = .exit r) fun key =>
    ∃ e direction site, request = .query e direction site ∧ site.key = key

/-- By the end of some requests a replay belongs to a query at a call. It came to wait
in the course of the query, in an arena that was opened then. Or it came to wait in
the course of another request, when a replay of the same arena was woken that belongs
to the query. -/
inductive Belongs (site : CallSite) : List (Request σ) → Continuation → Prop
  | asked {before : List (Request σ)} {e : EngineId} {direction : Direction} {c : Continuation}
      (old : (k.after before).arenas.length ≤ c.arena)
      (opened : c.arena < (k.after (before ++ [.query e direction site])).arenas.length)
      (waits : (k.after (before ++ [.query e direction site])).Waits c) :
      Belongs site (before ++ [.query e direction site]) c
  | woken {before : List (Request σ)} {request : Request σ} {r : ExitReport} {e : EngineId}
      {m : Method} {waker c : Continuation} {u : Session (Ledger σ)}
      (belongs : Belongs site (before ++ [request]) waker)
      (wakes : (k.during before request).Wakes r e m waker u)
      (leads : (k.during before request).Leads u (k.after (before ++ [request])))
      (arena : waker.arena = c.arena) (waits : (k.after (before ++ [request])).Waits c) :
      Belongs site (before ++ [request]) c
  | later {requests : List (Request σ)} {c : Continuation} (belongs : Belongs site requests c)
      (request : Request σ) : Belongs site (requests ++ [request]) c

/-- Every replay that waits belongs to a query at the call at the bottom of its stack. -/
def Owned (requests : List (Request σ)) : Prop :=
  ∀ c, (k.after requests).Waits c → ∃ site,
    (((k.after requests).arena c.arena).stack c.id).site? = some site.key ∧
      k.Belongs site requests c

/-- The solver is given seeds, and what was brought by replays that stem from the call
it is brought to. -/
def watch (requests : List (Request σ)) (request : Request σ) : Watch (Ledger σ) where
  toEpisode := k.during requests request
  inside _ _ _ _ := True
  sends t edge := t.Seeds edge ∨ ∃ depth r e m c site u v,
    (k.during requests request).Brings depth r e m c site edge u v ∧
      (k.during requests request).Stems site.key u c ∧ (k.during requests request).Leads v t
  tells e := ¬ e.IsInternal

variable (requests : List (Request σ)) (request : Request σ)

theorem watch_lawful : (k.watch requests request).Lawful where
  keeps e _ _ flows _ := Rules.keeps_const ((k.after requests).rules e flows) _
  seeds _ _ _ h := .inl h
  returns depth r e m c site edge u v t hu hbrings hvt := by
    obtain ⟨key, hkey, -, hstems⟩ := hu.waiting e _ c hbrings.wakes.waits
    cases hbrings.call.symm.trans hkey
    exact .inr ⟨depth, r, e, m, c, site, u, v, hbrings, hstems, hvt⟩

theorem watch_hosts : (k.watch requests request).policy.Hosts (k.watch requests request).Holds
    (fun _ _ => True) ((k.watch requests request).host (k.watch requests request).depth) := by
  have hlawful := k.watch_lawful requests request
  refine hlawful.hosts fun depth hdepth hhost r => ?_
  exact Engine.mayTell_of_errors ((Watch.admits _).and (Watch.stable_reported _ r)) hhost.and
    (fun _ e hs he => hlawful.mayAnswer hhost (Nat.le_of_lt hdepth) (hs.1.listener he) r) fun _ => id

variable {k requests request}

/-- Before a request all that waits is covered. -/
theorem Owned.holds (h : k.Owned requests) : (k.watch requests request).Holds (k.after requests) :=
  Watch.holds_base (w := k.watch requests request) (k.tidy_after requests).sound
    fun e seed c hc => by
      obtain ⟨site, hsite, -⟩ := h c ⟨e, seed, hc⟩
      exact ⟨site.key, hsite, trivial⟩

/-- What a request does under the watch. -/
theorem Owned.evolves_or_idles (h : k.Owned requests) (request : Request σ) :
    (k.watch requests request).policy.Evolves (k.after requests)
        (k.after (requests ++ [request])) ∨
      (k.after requests).Idles (k.after (requests ++ [request])) :=
  k.evolves_or_idles_of_watch (k.watch_lawful requests request) rfl (k.watch_hosts requests request)
    h.holds request (fun _ => id) (fun e direction site hquery => ⟨e, direction, site, hquery, rfl⟩)
    fun _ _ _ _ _ _ _ _ _ => trivial

/-- What stems from a call in the course of a request, and waits, belongs to a query at
the call when the request is done. -/
theorem Owned.belongs (h : k.Owned requests) {key : SiteKey} {s : Session (Ledger σ)}
    {c : Continuation} (hstems : (k.during requests request).Stems key s c) (hwaits : s.Waits c)
    (hend : (k.during requests request).Leads s (k.after (requests ++ [request]))) :
    ∃ site, site.key = key ∧ k.Belongs site (requests ++ [request]) c := by
  induction hstems with
  | waited waits call =>
      obtain ⟨site, hsite, hbelongs⟩ := h _ waits
      exact ⟨site, Option.some.inj (hsite.symm.trans call), hbelongs.later request⟩
  | asked asks opened =>
      obtain ⟨e, direction, site, rfl, hkey⟩ := asks
      have hafter := hwaits.grows hend.grows
      exact ⟨site, hkey, .asked opened (hafter.lt_arenas (k.tidy_after _).sound) hafter⟩
  | woken _ wakes leads arena ih =>
      have huntil := leads.trans hend
      obtain ⟨site, hkey, hbelongs⟩ := ih ⟨_, _, wakes.waits⟩ huntil
      exact ⟨site, hkey, .woken hbelongs wakes huntil arena (hwaits.grows hend.grows)⟩

/-- What one request preserves. -/
theorem Owned.append_singleton (h : k.Owned requests) (request : Request σ) :
    k.Owned (requests ++ [request]) := by
  rintro c ⟨e, seed, hc⟩
  rcases h.evolves_or_idles request with hevolves | hidles
  · obtain ⟨key, hkey, -, hstems⟩ := (h.holds.evolves hevolves).waiting e seed c hc
    obtain ⟨site, rfl, hbelongs⟩ := h.belongs hstems ⟨e, seed, hc⟩ .refl
    exact ⟨site, hkey, hbelongs⟩
  · rw [hidles.waiting] at hc
    obtain ⟨site, hsite, hbelongs⟩ := h c ⟨e, seed, hc⟩
    rw [hidles.arena]
    exact ⟨site, hsite, hbelongs.later request⟩

/-- Whatever is asked, every replay that waits belongs to a query at its call. -/
theorem owned_after (k : Setup σ) (requests : List (Request σ)) : k.Owned requests := by
  induction requests using List.reverseRecOn with
  | nil => exact fun c hwaits => absurd hwaits (k.not_waits_after_nil c)
  | append_singleton requests request ih => exact ih.append_singleton request

/-! ## Edges that were sent -/

/-- The edge returns to the call of a query. In the course of a request a replay was
woken that belongs to the query, and brought the edge from the call at the bottom of
its stack, which is the call of the query. The edge was sent after that, when the
solver had been given the sooner ones. -/
def ReturnsTo (k : Setup σ) (requests : List (Request σ)) (request : Request σ)
    (sooner : List PathEdge) (edge : PathEdge) : Prop :=
  ∃ depth r e m c site asked u v t,
    (k.during requests request).Brings depth r e m c site edge u v ∧
    (k.during requests request).Leads v t ∧ t.given = sooner ∧
    (k.during requests request).Leads t (k.after (requests ++ [request])) ∧
    k.Belongs asked (requests ++ [request]) c ∧ site.key = asked.key ∧
    edge.target ∈ k.program.successors asked.stmt ∧ (edge.context == asked.context) = true ∧
    edge.fact.origin = some asked.stmt

/-- What a replay brings that stems from the call returns to the call. -/
theorem returnsTo_of_brings {depth : Nat} {r : ExitReport} {e : EngineId} {m : Method}
    {c : Continuation} {site : CallSite} {u v t : Session (Ledger σ)}
    (h : (k.during requests request).Brings depth r e m c site edge u v)
    (hstems : (k.during requests request).Stems site.key u c)
    (hvt : (k.during requests request).Leads v t)
    (hend : (k.during requests request).Leads t (k.after (requests ++ [request]))) :
    k.ReturnsTo requests request t.given edge := by
  obtain ⟨paths, path, next, -, -, hnext, hedge⟩ := h.collects
  obtain ⟨asked, hkey, hbelongs⟩ := (k.owned_after requests).belongs hstems ⟨e, _, h.wakes.waits⟩
    (h.leads.trans (hvt.trans hend))
  have hstmt : site.stmt = asked.stmt := congrArg SiteKey.stmt hkey.symm
  have hprogram : u.program = k.program :=
    h.wakes.since.grows.program.trans (k.program_after requests)
  refine ⟨depth, r, e, m, c, site, asked, u, v, t, h, hvt, rfl, hend, hbelongs, hkey.symm, ?_, ?_,
    ?_⟩
  · rw [← hstmt, ← hprogram, hedge]
    exact hnext
  · rw [hedge]
    show (site.context.path == asked.context.path) = true
    exact beq_iff_eq.2 (congrArg SiteKey.context hkey.symm)
  · rw [hedge, ← hstmt]
    rfl

/-- An edge on record was there before the last request, or is a seed or returns to
the call of a query. -/
theorem given_append_singleton (hbuilt : k.program.Built) {later sooner : List PathEdge}
    (hgiven : k.given (requests ++ [request]) = later ++ edge :: sooner) :
    (∃ rest, k.given requests = rest ++ edge :: sooner) ∨
      k.given requests <:+ sooner ∧
        ((k.after requests).Enters edge ∨ k.ReturnsTo requests request sooner edge) := by
  rcases (k.owned_after requests).evolves_or_idles request with hevolves | hidles
  · rcases Policy.Evolves.given rfl hevolves hgiven with hold | ⟨t, hsends, hst, htu, rfl⟩
    · exact .inl hold
    · refine .inr ⟨Policy.Evolves.suffix_given rfl hst, ?_⟩
      rcases hsends with hseeds | ⟨depth, r, e, m, c, site, u, v, hbrings, hstems, hvt⟩
      · have hconsistent : (k.after requests).program.Consistent := by
          rw [k.program_after]
          exact hbuilt.consistent
        exact .inl (hseeds.enters hconsistent hst.grows)
      · exact .inr (returnsTo_of_brings hbrings hstems hvt (Watch.leads_of_evolves htu))
  · left
    rw [given, hidles.given] at hgiven
    exact ⟨later, hgiven⟩

end Setup

/-- Whatever is asked of a session that has just begun, every edge that the solver was
given was sent during one of the requests. It is a seed at the start of a method
that could be entered then. Or it was brought by a replay: an exit was reported
during the request, the replay waited for the seed of this exit in its method, and
going on with it collected the path that the edge takes to a successor of a call, as
a fact derived there. This call is at the bottom of the stack of the replay, and the
replay belongs to a query at this call, put by then, whose context the edge has: it
came to wait when the query was put, or when a replay was woken that belongs to the
query, however often this has happened. -/
theorem facts_return_to_their_calls (k : Setup σ) (built : k.program.Built)
    (requests : List (Request σ)) (edge : PathEdge) (later sooner : List PathEdge)
    (given : k.given requests = later ++ edge :: sooner) :
    ∃ done request rest, requests = done ++ request :: rest ∧
      k.given done <:+ sooner ∧ edge :: sooner <:+ k.given (done ++ [request]) ∧
      ((k.after done).Enters edge ∨ k.ReturnsTo done request sooner edge) := by
  induction requests using List.reverseRecOn generalizing later with
  | nil =>
      have hnone : k.given [] = [] := rfl
      rw [hnone] at given
      exact absurd given.symm (by simp)
  | append_singleton requests last ih =>
      rcases Setup.given_append_singleton built given with ⟨later', hold⟩ | ⟨hsooner, hkind⟩
      · obtain ⟨done, request, rest, rfl, hsent⟩ := ih later' hold
        exact ⟨done, request, rest ++ [last], by simp, hsent⟩
      · refine ⟨requests, last, [], rfl, hsooner, ?_, hkind⟩
        rw [given]
        exact List.suffix_append later _

namespace Sample

/-- The callback is entered with the argument of the call. When it is left, the result
of the call is tainted after it. The edge that says so is no seed, so it returns to
the call of the query. -/
theorem result_returns_to_site : ∃ edge sooner, setup.given requests = edge :: sooner ∧
    edge.target = ⟨2⟩ ∧ edge.fact.path = localPath 2 true ∧
    ∃ done request rest, requests = done ++ request :: rest ∧
      setup.ReturnsTo done request sooner edge := by
  have hedges : (setup.given requests).map (fun edge => (edge.target, edge.fact.path)) =
      [(⟨2⟩, localPath 2 true), (⟨2⟩, localPath 2 true), (⟨3⟩, localPath 4 true)] := by
    decide +kernel
  obtain ⟨edge, sooner, hgiven, hedge, -⟩ := List.map_eq_cons_iff.1 hedges
  obtain ⟨htarget, hpath⟩ := Prod.mk.inj hedge
  obtain ⟨done, request, rest, hrequests, -, -, hkind⟩ :=
    facts_return_to_their_calls setup built_program requests edge [] sooner hgiven
  refine ⟨edge, sooner, hgiven, htarget, hpath, done, request, rest, hrequests, ?_⟩
  rcases hkind with ⟨m, -, -, -, -, hstart, -⟩ | hreturns
  · rw [setup.program_after, htarget] at hstart
    have hentered := built_program.consistent.mem_startPoints_iff.1 hstart
    have hno : program.entered? ⟨2⟩ = none := by decide
    cases hno.symm.trans hentered
  · exact hreturns

end Sample

end TaintReplay
