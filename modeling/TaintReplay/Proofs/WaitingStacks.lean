import TaintReplay.Proofs.Episodes

/-!
# Properties of the stacks that wait

A replay that waits is named by a propagator, and what will become of it can be told
from the stack of that propagator: the call at its bottom and the frames above. A
`Watch` is an episode with a property of such stacks, by the call at the
bottom. If flows, inverses and leaving a frame keep the property, so does everything
that engines do: a replay starts from stacks with the property, at a call or where a
waiting replay leaves its gap, and comes to none without it. By the same argument all
that waits stems from the call at the bottom of its stack.

What is handed to the solver is restricted too. It is a seed that a replay waits for,
or it was brought by a replay that was woken (`Episode.Brings`).

## Main results

* `Rules.Keeps`: the rules of a replay keep a property of stacks.
* `Replay.inside_of_reach`: a replay that starts inside such a property stays inside.
* `Watch.Lawful.hosts`: so do the replays that reports lead to, however deep they nest.
* `Watch.Lawful.runs_query`, `Watch.Lawful.runs_handleExit`: what queries and reports do under a
  watch.
-/

namespace TaintReplay

variable {σ : Type}

/-! ## Properties that rules keep -/

/-- Flows, inverses and leaving a frame keep a property of stacks. -/
structure Rules.Keeps (r : Rules) (inside : Stack → Prop) : Prop where
  leads : ∀ st out, inside st → r.Leads st out → inside out
  invert : ∀ st, inside st → inside st.invert
  leave : ∀ t st, inside st → inside (Stack.leave t st)

theorem Rules.Keeps.and {r : Rules} {inside other : Stack → Prop} (h : r.Keeps inside)
    (h' : r.Keeps other) : r.Keeps fun st => inside st ∧ other st where
  leads st out hst hleads := ⟨h.leads st out hst.1 hleads, h'.leads st out hst.2 hleads⟩
  invert st hst := ⟨h.invert st hst.1, h'.invert st hst.2⟩
  leave t st hst := ⟨h.leave t st hst.1, h'.leave t st hst.2⟩

/-- A property that is kept on a condition is kept, given the condition. -/
theorem Rules.Keeps.imp {r : Rules} {p : Prop} {inside : Stack → Prop} (h : p → r.Keeps inside) :
    r.Keeps fun st => p → inside st where
  leads st out hst hleads hp := (h hp).leads st out (hst hp) hleads
  invert st hst hp := (h hp).invert st (hst hp)
  leave t st hst hp := (h hp).leave t st (hst hp)

/-- What does not look at stacks is kept. -/
theorem Rules.keeps_const (r : Rules) (p : Prop) : r.Keeps fun _ => p :=
  ⟨fun _ _ h _ => h, fun _ h => h, fun _ _ h => h⟩

/-- The call at the bottom is kept. -/
theorem Session.keeps_site? (s : Session σ) (e : EngineId) (flows : FlowSet)
    (site : Option SiteKey) : (s.rules e flows).Keeps fun st => st.site? = site := by
  constructor
  · rintro st out hst ⟨top, below, flow, rfl, -, happlied⟩
    change s.hierarchy.applyToStack? flow (top :: below) = some out at happlied
    exact (Stack.site?_of_applyToStack? happlied).trans hst
  · intro st hst
    exact (Stack.site?_invert st).trans hst
  · intro t st hst
    exact (Stack.site?_leave t st).trans hst

namespace Replay

variable {x : Replay σ} {policy : Policy σ} {P : Session σ → Prop}
  {sent : PathEdge → Session σ → Prop} {t : Session σ} {n : Nat} {inside : Stack → Prop}

/-- A replay that starts inside a property that its rules keep stays inside: what is
left of a gap leaves a frame. -/
theorem inside_of_reach (h : policy.Admits P) (hhost : policy.Hosts P sent x.host)
    (hs : P x.session) (ht : P t) (hkeeps : x.rules.Keeps inside)
    (hstarts : ∀ st ∈ x.starts, inside st)
    (hmay : ∀ st, inside st → x.StackMayWait policy P st) (hlogged : x.Logged policy n t)
    {st : Stack} (hst : x.Reach (x.LeftBy n) st) : inside st := by
  unfold Replay.Reach at hst
  induction hst with
  | start hst => exact hstarts _ hst
  | resolve _ _ hleft ih =>
      obtain ⟨left, hres, hout⟩ := hlogged.resolved hleft
      obtain ⟨id, p, gap, found, hp, hstack, -, hresolved, rfl⟩ :=
        hres.settled h hhost hs (hmay _ ih)
      obtain ⟨q, hq, rfl⟩ := List.mem_map.1 hout
      obtain ⟨taint, rfl⟩ := Engine.exists_of_mem_resolved hresolved hq
      rw [Arena.stackOver_inFrame (h.grounded ht x.arena) hp, hstack]
      exact hkeeps.leave taint _ ih
  | follow _ leads _ ih => exact hkeeps.leads _ _ ih leads
  | invert _ leads _ _ ih => exact hkeeps.invert _ (hkeeps.leads _ _ ih leads)

end Replay

/-! ## Stacks with a call at the bottom -/

/-- The stack of a propagator with a call at the bottom stays as it is. -/
theorem Session.Grows.stack {s t : Session σ} (h : s.Grows t) (ht : t.Grounded) {a : Nat}
    {id : PropagatorId} {key : SiteKey} (hkey : ((s.arena a).stack id).site? = some key) :
    (t.arena a).stack id = (s.arena a).stack id := by
  have hne : (s.arena a).stack id ≠ [] := by
    intro hnil
    rw [hnil] at hkey
    cases hkey
  exact (Arena.Holds.within (h.arena a) (ht a) ⟨rfl, hne⟩).1

/-- What can be resumed has its call at the bottom of its stack. -/
theorem Session.Resumable.site? {s : Session σ} (hs : s.Grounded) {c : Continuation}
    {p : Propagator} {site : CallSite} (h : s.Resumable c p site) :
    ((s.arena c.arena).stack c.id).site? = some site.key := by
  obtain ⟨root, hroot, hcall⟩ := h.bottom
  obtain ⟨root', hroot', -, hlast⟩ := Arena.exists_get?_rootOf (hs c.arena) h.stored
  cases hroot.symm.trans hroot'
  rw [Stack.site?, hlast, Option.bind_some, Propagator.layer, hcall, Option.map_some]

/-- The flows that the classes of a call have are flows of the call. -/
theorem Session.mem_callFlows {s : Session σ} {e : EngineId} {stmt : StmtId} {call : Call}
    (hcall : s.program.call? stmt = some call) {flows : FlowSet}
    (hflows : flows ∈ Engine.classFlows (s.summaries e (some stmt) call.callee) call.callee)
    {flow : Flow} (hflow : flow ∈ flows) : flow ∈ s.callFlows e stmt := by
  rw [Session.callFlows, hcall]
  exact FlowSet.mem_unions.2 ⟨flows, hflows, hflow⟩

/-! ## Watches -/

/-- What is watched in an episode: a property of the stacks that wait, by
engine, arena and the call at the bottom, and what the solver may be given and told. -/
structure Watch (σ : Type) extends Episode σ where
  inside : EngineId → Nat → SiteKey → Stack → Prop
  sends : Session σ → PathEdge → Prop
  tells : AnalysisError → Prop

namespace Watch

/-- A replay that an engine may let wait: its stack has the property, and it stems from
the call at the bottom. -/
def Covers (w : Watch σ) (s : Session σ) (e : EngineId) (c : Continuation) : Prop :=
  ∃ key, ((s.arena c.arena).stack c.id).site? = some key ∧
    w.inside e c.arena key ((s.arena c.arena).stack c.id) ∧ w.Stems key s c

/-- Replays wait only if they are covered. -/
def policy (w : Watch σ) : Policy σ where
  solver := w.solver
  waits := w.Covers
  sends := w.sends
  errors e := ¬ e.IsInternal
  tells := w.tells

/-- The session has come from the base, and all that waits is covered. -/
structure Holds (w : Watch σ) (s : Session σ) : Prop where
  sound : s.Sound
  since : w.Leads w.base s
  waiting : ∀ e seed c, (s.engine e).waiting.contains seed c = true → w.Covers s e c

/-- The flows of calls keep the property. Seeds may be sent, and what replays bring that
were woken. -/
structure Lawful (w : Watch σ) : Prop where
  keeps : ∀ e a key flows, (∀ flow ∈ flows, flow ∈ w.base.callFlows e key.stmt) →
    (w.base.rules e flows).Keeps (w.inside e a key)
  seeds : ∀ s edge, w.Holds s → s.Seeds edge → w.sends s edge
  returns : ∀ depth r e m c site edge u v t, w.Holds u → w.Brings depth r e m c site edge u v →
    w.Leads v t → w.sends t edge

variable {w : Watch σ} {s t : Session σ}

theorem leads_of_evolves (h : w.policy.Evolves s t) : w.Leads s t := .of_evolves rfl h

theorem stable_reported (w : Watch σ) (r : ExitReport) : w.policy.law.Stable (w.Reported r) :=
  fun _ _ h hst => h.leads (leads_of_evolves hst)

/-- In the beginning everything stems from its call that waits. -/
theorem holds_base (hsound : w.base.Sound)
    (hinside : ∀ e seed c, (w.base.engine e).waiting.contains seed c = true →
      ∃ key, ((w.base.arena c.arena).stack c.id).site? = some key ∧
        w.inside e c.arena key ((w.base.arena c.arena).stack c.id)) : w.Holds w.base where
  sound := hsound
  since := .refl
  waiting e seed c hc := by
    obtain ⟨key, hkey, hin⟩ := hinside e seed c hc
    exact ⟨key, hkey, hin, .waited ⟨e, seed, hc⟩ hkey⟩

/-- What one step preserves. -/
theorem Holds.step (h : w.Holds s) (hstep : w.policy.Step s t) : w.Holds t := by
  have hsound := hstep.sound h.sound
  have hst := leads_of_evolves (.single hstep)
  refine ⟨hsound, h.since.trans hst, fun e seed c hc => ?_⟩
  have hcovered : w.Covers s e c := by
    rcases hstep.waiting hc with hold | ⟨hwaits, -⟩
    · exact h.waiting e seed c hold
    · exact hwaits
  obtain ⟨key, hkey, hinside, hstems⟩ := hcovered
  rw [Covers, hst.grows.stack hsound.grounded hkey]
  exact ⟨key, hkey, hinside, hstems.leads hst⟩

/-- What runs preserve. -/
theorem Holds.evolves (h : w.Holds s) (hst : w.policy.Evolves s t) : w.Holds t := by
  induction hst with
  | refl => exact h
  | tail _ hstep ih => exact ih.step hstep

theorem admits (w : Watch σ) : w.policy.Admits w.Holds where
  stable _ _ hs hst := hs.evolves hst
  grounded _ hs := hs.sound.grounded
  excused e := by
    by_cases he : e.IsInternal
    · exact .inr ⟨he, fun _ hs => hs.sound⟩
    · exact .inl he

section Replays

variable {key : SiteKey} {sent : PathEdge → Session σ → Prop} {x : Replay σ}

/-- A replay about a call that starts from stacks with the property comes to no others,
if all replays in its arena stem from the call. -/
theorem Lawful.inside_of_reach (h : w.Lawful) (hhost : w.policy.Hosts w.Holds sent x.host)
    (hs : w.Holds x.session)
    (hflows : ∀ flow ∈ x.flows, flow ∈ w.base.callFlows x.engine key.stmt)
    (hstarts : ∀ st ∈ x.starts, st.site? = some key ∧ w.inside x.engine x.arena key st)
    (hstems : ∀ id, w.Stems key x.session ⟨x.arena, id⟩)
    (ht : w.Holds t) {n : Nat} (hlogged : x.Logged w.policy n t) {st : Stack}
    (hreach : x.Reach (x.LeftBy n) st) :
    st.site? = some key ∧ w.inside x.engine x.arena key st := by
  have hrules : x.rules = w.base.rules x.engine x.flows :=
    hs.since.grows.rules x.engine x.flows
  have hkeeps : x.rules.Keeps fun st => st.site? = some key ∧ w.inside x.engine x.arena key st := by
    rw [hrules]
    exact (w.base.keeps_site? _ _ _).and (h.keeps x.engine x.arena key x.flows hflows)
  refine Replay.inside_of_reach w.admits hhost hs ht hkeeps hstarts ?_ hlogged hreach
  intro st hst u id _ hxu hheld
  show w.Covers u x.engine ⟨x.arena, id⟩
  rw [Covers, hheld.1]
  exact ⟨key, hst.1, hst.2, (hstems id).leads (leads_of_evolves hxu)⟩

/-- So it lets only covered replays wait. -/
theorem Lawful.mayWait (h : w.Lawful) (key : SiteKey) (hhost : w.policy.Hosts w.Holds sent x.host)
    (hs : w.Holds x.session)
    (hflows : ∀ flow ∈ x.flows, flow ∈ w.base.callFlows x.engine key.stmt)
    (hstarts : ∀ st ∈ x.starts, st.site? = some key ∧ w.inside x.engine x.arena key st)
    (hstems : ∀ id, w.Stems key x.session ⟨x.arena, id⟩)
    (ht : w.Holds t) (hxt : w.policy.Evolves x.session t) : x.MayWait w.policy t := by
  intro n id st hid hlogged hreach
  obtain ⟨hsite, hinside⟩ := h.inside_of_reach hhost hs hflows hstarts hstems ht hlogged hreach
  show w.Covers t x.engine ⟨x.arena, id⟩
  rw [Covers, hid.1]
  exact ⟨key, hsite, hinside, (hstems id).leads (leads_of_evolves hxt)⟩

end Replays

/-- Answering a report keeps to the policy: a replay that is woken leaves the gap of a
stack with the property, and what comes to wait then stems from the same call. -/
theorem Lawful.mayAnswer (h : w.Lawful) {sent : PathEdge → Session σ → Prop} {depth : Nat}
    (hhost : w.policy.Hosts w.Holds sent (w.host depth)) (hdepth : depth ≤ w.depth) {e : EngineId}
    (he : w.base.listener = some e) (r : ExitReport) :
    Engine.MayAnswer w.policy (w.host depth) (fun u => w.Holds u ∧ w.Reported r u) w.fuel e r := by
  intro s₀ m c hs₀ hm hc
  have hwakes₀ : w.Wakes r e m c s₀ :=
    ⟨hs₀.1.since, hs₀.2, hs₀.1.since.grows.listener.trans he, hm, hc⟩
  -- the replay that waits, in every session from here on
  have hthere : ∀ s p site, w.Holds s → w.policy.Evolves s₀ s → s.Resumable c p site →
      w.Wakes r e m c s ∧ ((s.arena c.arena).stack c.id).site? = some site.key ∧
      w.inside e c.arena site.key ((s.arena c.arena).stack c.id) ∧ w.Stems site.key s c := by
    intro s p site hs hsince hresumable
    have hwakes := hwakes₀.leads (leads_of_evolves hsince)
    have hsite := hresumable.site? hs.sound.grounded
    obtain ⟨key, hkey, hinside, hstems⟩ := hs.waiting e _ c hwakes.waits
    cases hsite.symm.trans hkey
    exact ⟨hwakes, hsite, hinside, hstems⟩
  constructor
  · intro s p site x t hx ht hxt
    obtain ⟨⟨hs, -⟩, hsince⟩ := hx.looked
    obtain ⟨hwakes, hsite, hinside, hstems⟩ := hthere s p site hs hsince hx.resumable
    have hflows : x.flows = w.base.callFlows e site.stmt := by
      rw [← hs.since.grows.callFlows]
      exact congrArg Rules.flows hx.rules
    have hkeeps := h.keeps e c.arena site.key _ fun _ hflow => hflow
    refine h.mayWait site.key (hx.host ▸ hhost) hx.admitted.1.1 (fun flow hflow => ?_)
      (fun st hst => ?_) (fun _ => ?_) ht.1.1 hxt
    · rw [hx.engine]
      exact hflows ▸ hflow
    · rw [hx.starts] at hst
      obtain ⟨taint, -, rfl⟩ := List.mem_map.1 hst
      rw [hx.engine, hx.arena]
      exact ⟨(Stack.site?_leave taint _).trans hsite, hkeeps.leave taint _ hinside⟩
    · exact .woken hstems hwakes (leads_of_evolves hx.since) hx.arena.symm
  · intro s p site x u t paths hx hcollects _ hxu ht hut path hpath next hnext
    obtain ⟨⟨hs, -⟩, hsince⟩ := hx.looked
    obtain ⟨hwakes, hsite, -⟩ := hthere s p site hs hsince hx.resumable
    exact h.returns depth r e m c site _ s u t hs ⟨hdepth, hwakes, hsite, ⟨paths, path, next,
      hcollects, hpath, hnext, rfl⟩, leads_of_evolves (hx.since.trans hxu)⟩ (leads_of_evolves hut)

/-- The engine that listens is the same all the time. -/
theorem Holds.listener (hs : w.Holds s) {e : EngineId} (he : s.listener = some e) :
    w.base.listener = some e :=
  hs.since.grows.listener.symm.trans he

/-- Under a watch the solver as an engine sees it is a host, however deep reports
nest, if it may be told of the errors that these end in. -/
theorem Lawful.hosts (h : w.Lawful)
    (htell : ∀ depth < w.depth, w.policy.Hosts w.Holds (fun _ _ => True) (w.host depth) →
      ∀ r, Engine.MayTell w.policy (w.host depth) (fun s => w.Holds s ∧ w.Reported r s) w.fuel r) :
    w.policy.Hosts w.Holds (fun _ _ => True) (w.host w.depth) :=
  Engine.hosts_deliver w.admits h.seeds w.stable_reported
    (fun s edge _ hs _ hr => .inr ⟨s, edge, hs.since, hr, .refl⟩)
    fun depth hdepth hhost r =>
      ⟨fun _ _ hs he => h.mayAnswer hhost (Nat.le_of_lt hdepth) (hs.1.listener he) r,
        htell depth hdepth hhost r⟩

/-- The replays of a query keep to the policy, if the stacks that they start from have
the property. -/
theorem Lawful.mayBegin (h : w.Lawful) {sent : PathEdge → Session σ → Prop} {host : Host σ}
    (hhost : w.policy.Hosts w.Holds sent host) {site : CallSite} {direction : Direction}
    {k : EngineId} {call : Call} (hs : w.Holds s) (hcall : s.program.call? site.stmt = some call)
    (hasks : w.asks site.key)
    (hstarts : ∀ a taint, w.base.arenas.length ≤ a →
      w.inside k a site.key (site.stack (direction = .backward) taint)) :
    Engine.MayBegin w.policy host w.Holds k direction site
      (s.summaries k (some site.stmt) call.callee) call.callee := by
  intro s' a x t flows hflows hs' hx ht hxt
  have hopened := Nat.le_trans hs'.since.grows.arenas hx.opened
  refine h.mayWait site.key (hx.host ▸ hhost) hx.admitted (fun flow hflow => ?_)
    (fun st hst => ?_) (fun _ => ?_) ht hxt
  · rw [hx.flows] at hflow
    rw [hx.engine, ← hs.since.grows.callFlows]
    exact Session.mem_callFlows hcall hflows hflow
  · rw [hx.starts] at hst
    obtain ⟨taint, -, rfl⟩ := List.mem_map.1 hst
    rw [hx.engine, hx.arena]
    exact ⟨rfl, hstarts a taint hopened⟩
  · rw [hx.arena]
    exact .asked hasks hopened

/-- What a query does under a watch. -/
theorem Lawful.runs_query (h : w.Lawful) {sent : PathEdge → Session σ → Prop} {host : Host σ}
    (hhost : w.policy.Hosts w.Holds sent host) (hs : w.Holds s) {e : EngineId}
    {direction : Direction} {site : CallSite} (hasks : w.asks site.key)
    (hstarts : ∀ k ∈ s.chain e, ∀ a taint, w.base.arenas.length ≤ a →
      w.inside k a site.key (site.stack (direction = .backward) taint)) (fuel : Nat) :
    w.policy.law.Runs s (Engine.query host fuel e direction site) fun _ _ => True := by
  refine (Engine.runs_query w.admits hhost fuel hs ?_).weaken fun _ _ _ _ _ => trivial
  intro s' k hk call hs' hcall
  exact h.mayBegin hhost hs' hcall hasks (hstarts k hk)

/-- What passing an exit on does under a watch. -/
theorem Lawful.runs_handleExit (h : w.Lawful) {sent : PathEdge → Session σ → Prop}
    (hhost : w.policy.Hosts w.Holds sent (w.host w.depth)) (hs : w.Holds s) {r : ExitReport}
    (hr : w.Reported r s) :
    w.policy.law.Runs s (Engine.handleExit (w.host w.depth) w.fuel r) fun _ _ => True :=
  (Engine.meets_handleExit (w.admits.and (w.stable_reported r)) hhost.and
    (fun _ _ hs he => h.mayAnswer hhost (Nat.le_refl _) (hs.1.listener he) r) s ⟨hs, hr⟩).weaken
    fun _ _ _ _ _ => trivial

end Watch

end TaintReplay
