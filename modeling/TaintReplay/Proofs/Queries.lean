import TaintReplay.Engine.Query
import TaintReplay.Proofs.Resumption

/-!
# What queries do

A query goes along a chain of engines to the first that has summaries for the
call. That engine opens an arena and replays the flows of each class there, from
the taints that the fact is at the call; the answer has the fact itself and what
the replays collect (`Engine.Replied`).

## Main results

* `Engine.meets_replayClasses`: the paths added are those that the replays collect.
* `Engine.runs_query`: who replies, and what.
* `Engine.exec_connect`: what connecting changes.
-/

namespace TaintReplay

variable {σ : Type}

/-! ## Flows of several classes -/

/-- Summaries without flows have none for a method. -/
theorem ClassSummaries.isEmpty_allFlowsForMethod {summaries : ClassSummaries}
    (hempty : summaries.isEmpty = true) (subSignature : String) :
    (summaries.allFlowsForMethod subSignature).isEmpty = true := by
  refine OrdSet.isEmpty_iff.2 fun flow hflow => ?_
  obtain ⟨flows, hflows, hflow⟩ := FlowSet.mem_unions.1 hflow
  obtain ⟨found, hfound, hflows⟩ := List.mem_filterMap.1 hflows
  have hnone := List.all_eq_true.1 hempty found hfound
  exact MethodSummaries.isEmpty_iff.1 hnone flow
    ((MethodSummaries.mem_iff_of_flowsForMethod? hflows).1 hflow).1

/-! ## Paths of facts -/

/-- The paths of facts. -/
def FactSet.paths (facts : FactSet) : List AccessPath := facts.toList.map Fact.path

/-- The paths of a reply. -/
def replyPaths (reply : Option FactSet) : List AccessPath := (reply.map FactSet.paths).getD []

/-- Facts are kept by their paths. -/
theorem map_path_insertIncreasing (fact : Fact) (facts : List Fact) :
    (insertIncreasing fact facts).map Fact.path =
      insertIncreasing fact.path (facts.map Fact.path) := by
  induction facts with
  | nil => rfl
  | cons first rest ih =>
      rw [List.map_cons, insertIncreasing, insertIncreasing]
      have hcompare : compare fact first = compare fact.path first.path := rfl
      rw [hcompare]
      cases compare fact.path first.path with
      | lt => rfl
      | eq => rfl
      | gt => exact congrArg (first.path :: ·) ih

namespace FactSet

variable {facts : FactSet} {path : AccessPath}

theorem mem_paths_insert {fact : Fact} :
    path ∈ FactSet.paths (facts.insert fact) ↔ path = fact.path ∨ path ∈ facts.paths := by
  show path ∈ (insertIncreasing fact facts.toList).map Fact.path ↔ _
  rw [map_path_insertIncreasing]
  constructor
  · exact eq_or_mem_of_mem_insertIncreasing
  · rintro (rfl | hpath)
    · exact mem_insertIncreasing_self _ _
    · exact mem_insertIncreasing_of_mem hpath

theorem mem_paths_insertAll {new : List Fact} :
    path ∈ FactSet.paths (facts.insertAll new) ↔ path ∈ new.map Fact.path ∨ path ∈ facts.paths := by
  induction new generalizing facts with
  | nil => simp [OrdSet.insertAll]
  | cons fact new ih =>
      have hstep : facts.insertAll (fact :: new) = (facts.insert fact).insertAll new := rfl
      rw [hstep, ih, mem_paths_insert, List.map_cons, List.mem_cons]
      grind

theorem mem_paths_singleton {fact : Fact} :
    path ∈ FactSet.paths (OrdSet.singleton fact) ↔ path = fact.path := by
  simp [FactSet.paths, OrdSet.singleton, OrdSet.insert, OrdSet.empty, insertIncreasing]

end FactSet

section Queries

variable {policy : Policy σ} {P : Session σ → Prop} {sent : PathEdge → Session σ → Prop}
  {host : Host σ} {e : EngineId} {a : Nat} {site : CallSite} {inverse : Bool}
  {taints : OrdSet Taint}

/-- The stack of a taint at a call. -/
def CallSite.stack (site : CallSite) (inverse : Bool) (t : Taint) : Stack :=
  [(Propagator.root t site inverse).layer]

namespace Engine

/-- A replay that a query makes, as looked at in a session. -/
structure Begins (policy : Policy σ) (host : Host σ) (P : Session σ → Prop) (e : EngineId) (a : Nat)
    (site : CallSite) (inverse : Bool) (taints : OrdSet Taint) (s : Session σ) (flows : FlowSet)
    (x : Replay σ) : Prop where
  host : x.host = host
  engine : x.engine = e
  arena : x.arena = a
  opened : s.arenas.length ≤ a
  flows : x.flows = flows
  starts : x.starts = taints.toList.map (site.stack inverse)
  since : policy.Evolves s x.session
  admitted : P x.session

/-- A replay has been made by the time of a session. -/
def Finished (policy : Policy σ) (t : Session σ) (x : Replay σ) : Prop :=
  ∃ res u, x.Replayed policy res u ∧ policy.Evolves x.session u ∧ policy.Evolves u t

theorem Finished.later {t u : Session σ} {x : Replay σ} (h : Finished policy t x)
    (htu : policy.Evolves t u) : Finished policy u x := by
  obtain ⟨res, v, hreplayed, hxv, hvt⟩ := h
  exact ⟨res, v, hreplayed, hxv, hvt.trans htu⟩

/-- A replay that a query made. -/
def Made (policy : Policy σ) (host : Host σ) (P : Session σ → Prop) (e : EngineId) (a : Nat)
    (site : CallSite) (inverse : Bool) (taints : OrdSet Taint) (s t : Session σ) (flows : FlowSet)
    (x : Replay σ) : Prop :=
  Begins policy host P e a site inverse taints s flows x ∧ Finished policy t x

theorem Begins.mono {Q : Session σ → Prop} (hPQ : ∀ s, P s → Q s) {s : Session σ} {flows : FlowSet}
    {x : Replay σ} (h : Begins policy host P e a site inverse taints s flows x) :
    Begins policy host Q e a site inverse taints s flows x :=
  { h with admitted := hPQ x.session h.admitted }

/-- Interning the taints that a replay starts from. -/
theorem meets_internRoots (h : policy.Admits P) (hknown : ∀ s, P s → a < s.arenas.length)
    (hcall : ∀ s, P s → s.IsCall site.stmt) (inverse : Bool) (taints : List Taint) :
    policy.law.Meets P (taints.mapM fun t => Run.intern a (.root t site inverse)) fun ids t =>
      (t.arena a).HoldsAll ids (taints.map (site.stack inverse)) := by
  have hall := Law.Meets.mapM h.stable
    (fun t id => h.stable_holds a id (site.stack inverse t))
    fun t (_ : t ∈ taints) => ((Run.meets_intern fun s hs =>
      ⟨hknown s hs, .root t inverse (hcall s hs)⟩).keep h.stable).weaken
      fun id s hs => ⟨hs.1, hs.2.holds (h.grounded hs.1 a)⟩
  refine hall.weaken fun ids t hids => ?_
  rw [Arena.HoldsAll, List.forall₂_map_right_iff]
  exact hids.flip.imp fun _ _ hid => hid.2

/-- The paths of the facts that a replay adds are those it collects. -/
theorem mem_derived_iff {x : Replay σ} {res : Option (OrdSet AccessPath)} {t : Session σ}
    (h : x.Replayed policy res t) (stmt : StmtId) {path : AccessPath} :
    path ∈ (((res.map (·.toList)).getD []).map fun path => Fact.derivedAt path stmt).map Fact.path ↔
      x.Collects x.Left path := by
  have hsame : Fact.path ∘ (fun path => Fact.derivedAt path stmt) = id := rfl
  rw [← h.mem path, List.map_map, hsame, List.map_id]
  cases res with
  | none => simp
  | some paths => simp [OrdSet.mem_toList]

/-- Replaying the flows of one class after the other. -/
theorem meets_replayClasses (h : policy.Admits P) (hhost : policy.Hosts P sent host)
    (hknown : ∀ s, P s → a < s.arenas.length) (hcall : ∀ s, P s → s.IsCall site.stmt) (fuel : Nat)
    {s : Session σ} (hopened : s.arenas.length ≤ a) {classes : List FlowSet}
    (hwaits : ∀ flows ∈ classes, ∀ x t, Begins policy host P e a site inverse taints s flows x →
      P t → policy.Evolves x.session t → x.MayWait policy t) (facts : FactSet) :
    policy.law.Meets (fun t => P t ∧ policy.law.step s t)
      (replayClasses host fuel e a site inverse taints classes facts) fun facts' t =>
        (s.engine e).options.maxSteps = none → ∃ xs,
          List.Forall₂ (Made policy host P e a site inverse taints s t) classes xs ∧
          ∀ path, path ∈ facts'.paths ↔ path ∈ facts.paths ∨ ∃ x ∈ xs, x.Collects x.Left path := by
  induction classes generalizing facts with
  | nil => exact Law.Meets.pure fun t _ _ => ⟨[], .nil, by simp⟩
  | cons flows rest ih =>
      rintro w ⟨hw, hsw⟩
      rw [replayClasses]
      refine (meets_internRoots h hknown hcall inverse taints.toList w hw).bind
        fun ids v _ hwv hids => ?_
      have hsv := policy.law.trans hsw hwv
      have hv := h.stable hw hwv
      let x : Replay σ := ⟨host, e, a, flows, ids, v⟩
      have hbegins : Begins policy host P e a site inverse taints s flows x :=
        ⟨rfl, rfl, rfl, hopened, rfl, hids.map_stack, hsv, hv⟩
      have hstored : ∀ id ∈ x.initial, ∃ st, (v.arena a).Holds id st := by
        intro id hid
        obtain ⟨st, -, hst⟩ := exists_right_of_forall₂ hids hid
        exact ⟨st, hst⟩
      have hmay : ∀ t, P t → policy.Evolves x.session t → x.MayWait policy t :=
        fun t => hwaits flows List.mem_cons_self x t hbegins
      refine (Replay.runs_replay (x := x) h hhost hv hstored hmay fuel).bind
        fun res u _ hvu hreplayed => ?_
      have hsu := policy.law.trans hsv hvu
      have hrest := ih fun other hother => hwaits other (List.mem_cons_of_mem _ hother)
      refine (hrest _ u ⟨h.stable hv hvu, hsu⟩).weaken fun facts' t _ hut hpost hlimit => ?_
      obtain ⟨xs, hxs, hpaths⟩ := hpost hlimit
      have hoptions : (v.engine e).options.maxSteps = none := by
        rw [((Policy.Evolves.grows hsv).engine e).options]
        exact hlimit
      replace hreplayed := hreplayed hoptions
      refine ⟨x :: xs, .cons ⟨hbegins, res, u, hreplayed, hvu, hut⟩ hxs, fun path => ?_⟩
      rw [hpaths, FactSet.mem_paths_insertAll, mem_derived_iff hreplayed]
      simp only [List.mem_cons, exists_eq_or_imp]
      grind

variable {direction : Direction} {callee : MethodSignature}

/-- The taints that the fact of a query is at the call. -/
def queried (direction : Direction) (site : CallSite) (s : Session σ) : OrdSet Taint :=
  s.program.taintsOnCall site.fact.path site.stmt (direction = .backward)

/-- The flows that the classes of some summaries have for a method. -/
def classFlows (summaries : ClassSummaries) (callee : MethodSignature) : List FlowSet :=
  summaries.table.values.filterMap (·.flowsForMethod? callee.subSignature)

/-- Summaries of at most one class have the flows of a method in one set, if there
are any. -/
theorem classFlows_eq {summaries : ClassSummaries} (hsingle : summaries.size ≤ 1)
    (callee : MethodSignature) :
    classFlows summaries callee =
      if (summaries.allFlowsForMethod callee.subSignature).isEmpty then []
      else [summaries.allFlowsForMethod callee.subSignature] := by
  have hvalues : summaries.table.values.length ≤ 1 := by
    rw [OrdMap.values, List.length_map]
    exact hsingle
  have hsome : ∀ flows ∈ classFlows summaries callee, ∃ flow, flow ∈ flows := by
    intro flows hflows
    obtain ⟨found, -, hfound⟩ := List.mem_filterMap.1 hflows
    exact (found.filed _ flows hfound).1
  have hfew : (classFlows summaries callee).length ≤ 1 :=
    Nat.le_trans (List.length_filterMap_le _ _) hvalues
  show classFlows summaries callee =
    if (FlowSet.unions (classFlows summaries callee)).isEmpty then []
    else [FlowSet.unions (classFlows summaries callee)]
  generalize classFlows summaries callee = sets at hsome hfew
  cases sets with
  | nil => rfl
  | cons flows more =>
      cases more with
      | nil =>
          have hunion : FlowSet.unions [flows] = flows := OrdSet.ext_mem fun flow => by
            simp [FlowSet.mem_unions]
          obtain ⟨flow, hflow⟩ := hsome flows List.mem_cons_self
          rw [hunion, if_neg fun hempty => OrdSet.isEmpty_iff.1 hempty flow hflow]
      | cons _ _ => simp at hfew

/-- The answer of an engine that has summaries for a call: the fact itself, and
what is collected by one replay for each class, if the fact is a taint at the
call. -/
def Answered (policy : Policy σ) (host : Host σ) (P : Session σ → Prop) (e : EngineId)
    (direction : Direction) (site : CallSite) (callee : MethodSignature)
    (summaries : ClassSummaries) (s t : Session σ) (facts : FactSet) : Prop :=
  (s.engine e).options.maxSteps = none → ∃ a xs,
    List.Forall₂
      (Made policy host P e a site (direction = .backward) (queried direction site s) s t)
      (if (queried direction site s).isEmpty then [] else classFlows summaries callee) xs ∧
    ∀ path, path ∈ facts.paths ↔ path = site.fact.path ∨ ∃ x ∈ xs, x.Collects x.Left path

/-- What a policy has to permit for the replays of a query. -/
def MayBegin (policy : Policy σ) (host : Host σ) (P : Session σ → Prop) (e : EngineId)
    (direction : Direction) (site : CallSite) (summaries : ClassSummaries)
    (callee : MethodSignature) : Prop :=
  ∀ s a x t, ∀ flows ∈ classFlows summaries callee, P s →
    Begins policy host P e a site (direction = .backward) (queried direction site s) s flows x →
    P t → policy.Evolves x.session t → x.MayWait policy t

theorem mayBegin_of_lenient (h : policy.Lenient) (summaries : ClassSummaries)
    (callee : MethodSignature) : MayBegin policy host P e direction site summaries callee :=
  fun _ _ x t _ _ _ _ _ _ => x.mayWait_of_lenient h t

/-- Answering with some summaries. -/
theorem meets_answer (h : policy.Admits P) (hhost : policy.Hosts P sent host)
    (hcall : ∀ s, P s → s.IsCall site.stmt) {summaries : ClassSummaries}
    (hmay : MayBegin policy host P e direction site summaries callee) (fuel : Nat) :
    policy.law.Meets P (answer host fuel e direction site callee summaries) fun facts t =>
      ∃ s, P s ∧ policy.Evolves s t ∧
        Answered policy host P e direction site callee summaries s t facts := by
  unfold answer
  refine Law.Meets.get_bind fun s hs => ?_
  have hqueried : s.program.taintsOnCall site.fact.path site.stmt (direction = .backward) =
    queried direction site s := rfl
  simp only [hqueried]
  by_cases hempty : (queried direction site s).isEmpty = true
  · rw [if_pos hempty]
    refine Law.Meets.pure fun t ht => ⟨s, hs, ht.2, fun _ => ⟨0, [], ?_, ?_⟩⟩
    · rw [if_pos hempty]
      exact .nil
    · simp [FactSet.mem_paths_singleton]
  · rw [if_neg hempty]
    have hsince := h.and (Law.Stable.since s)
    refine Law.Meets.bind hsince.stable (Run.meets_openArena (n := s.arenas.length) fun t ht =>
      (Policy.Evolves.grows ht.2).arenas) fun a => ?_
    -- from here on the arena is there
    have hknown : policy.law.Stable fun t => a < t.arenas.length :=
      Policy.stable_of_grows fun _ _ hst ha => Nat.lt_of_lt_of_le ha hst.arenas
    have hnow := h.and hknown
    refine Law.Meets.strengthen (P := fun t => ((P t ∧ policy.law.step s t) ∧
      a < t.arenas.length) ∧ s.arenas.length ≤ a) (Law.Meets.assume fun hopened => ?_)
      fun t ht => ⟨⟨ht.1, ht.2.2⟩, ht.2.1⟩
    have hreplay : policy.law.Meets _ (replayClasses host fuel e a site (direction = .backward)
        (queried direction site s) (classFlows summaries callee) (OrdSet.singleton site.fact)) _ :=
      meets_replayClasses hnow hhost.and (fun t ht => ht.2) (fun t ht => hcall t ht.1) fuel hopened
        (fun flows hflows x t hbegins ht =>
          hmay s a x t flows hflows hs (hbegins.mono fun _ hu => hu.1) ht.1) _
    refine Law.Meets.bind (hsince.stable.and hknown)
      (hreplay.strengthen fun t ht => ⟨⟨ht.1.1, ht.2⟩, ht.1.2⟩) fun facts => ?_
    rintro t ⟨⟨⟨-, hst⟩, -⟩, hfacts⟩
    refine ((Run.meets_report (P := fun _ => True) _) t trivial).bind fun _ u _ htu _ => ?_
    refine ⟨.refl, s, hs, policy.law.trans hst htu, fun hlimit => ?_⟩
    obtain ⟨xs, hxs, hpaths⟩ := hfacts hlimit
    refine ⟨a, xs, ?_, ?_⟩
    · rw [if_neg hempty]
      exact hxs.imp fun flows x hmade => ⟨hmade.1.mono fun _ hu => hu.1, hmade.2.later htu⟩
    · intro path
      rw [hpaths, FactSet.mem_paths_singleton]

theorem MayBegin.anti {Q : Session σ → Prop} (hQP : ∀ s, Q s → P s) {summaries : ClassSummaries}
    (h : MayBegin policy host P e direction site summaries callee) :
    MayBegin policy host Q e direction site summaries callee :=
  fun s a x t flows hflows hs hbegins ht =>
    h s a x t flows hflows (hQP s hs) (hbegins.mono hQP) (hQP t ht)

theorem Answered.mono {Q : Session σ → Prop} (hPQ : ∀ s, P s → Q s) {summaries : ClassSummaries}
    {s t : Session σ} {facts : FactSet}
    (h : Answered policy host P e direction site callee summaries s t facts) :
    Answered policy host Q e direction site callee summaries s t facts := by
  intro hlimit
  obtain ⟨a, xs, hxs, hpaths⟩ := h hlimit
  exact ⟨a, xs, hxs.imp fun flows x hmade => ⟨hmade.1.mono hPQ, hmade.2⟩, hpaths⟩

/-! ## Chains of engines -/

/-- The reply to a query that was put to some engines in turn. -/
inductive Replied (policy : Policy σ) (host : Host σ) (P : Session σ → Prop)
    (direction : Direction) (site : CallSite) (t : Session σ) :
    List EngineId → Option FactSet → Prop
  | nobody : Replied policy host P direction site t [] none
  | noCall {e : EngineId} {rest : List EngineId} (call : t.program.call? site.stmt = none) :
      Replied policy host P direction site t (e :: rest) (some (OrdSet.singleton site.fact))
  | pass {e : EngineId} {rest : List EngineId} {res : Option FactSet} {c : Call}
      (call : t.program.call? site.stmt = some c)
      (missing : (t.summaries e (some site.stmt) c.callee).isEmpty = true)
      (h : Replied policy host P direction site t rest res) :
      Replied policy host P direction site t (e :: rest) res
  | answer {e : EngineId} {rest : List EngineId} {c : Call} {s : Session σ} {facts : FactSet}
      (call : t.program.call? site.stmt = some c)
      (found : (t.summaries e (some site.stmt) c.callee).isEmpty = false) (looked : P s)
      (since : policy.Evolves s t)
      (answered : Answered policy host P e direction site c.callee
        (t.summaries e (some site.stmt) c.callee) s t facts) :
      Replied policy host P direction site t (e :: rest) (some facts)

/-- Counting keeps to every policy. -/
theorem meets_countMiss (h : policy.Admits P) (e : EngineId) (direction : Direction)
    (callee : MethodSignature) :
    policy.law.Meets P (countMiss e direction callee) fun _ _ => True := by
  unfold countMiss
  refine Law.Meets.get_bind fun s hs => ?_
  have hsince := h.and (Law.Stable.since s)
  split
  · refine Law.Meets.andThen hsince.stable
      (Policy.meets_modify fun t _ => .count t e (·.hits) (·.misses + 1)) fun _ => ?_
    split
    · exact Run.meets_report _
    · exact Law.Meets.pure fun _ _ => trivial
  · exact Law.Meets.pure fun _ _ => trivial

theorem meets_countHit (e : EngineId) (direction : Direction) :
    policy.law.Meets P (countHit e direction) fun _ _ => True := by
  unfold countHit
  split
  · exact Policy.meets_modify fun t _ => .count t e (·.hits + 1) (·.misses)
  · exact Law.Meets.pure fun _ _ => trivial

/-- Putting a query to some engines in turn. -/
theorem meets_queryChain (h : policy.Admits P) (hhost : policy.Hosts P sent host) (fuel : Nat)
    {chain : List EngineId}
    (hmay : ∀ s, ∀ e ∈ chain, ∀ call, P s → s.program.call? site.stmt = some call →
      MayBegin policy host P e direction site (s.summaries e (some site.stmt) call.callee)
        call.callee) :
    policy.law.Meets P (queryChain host fuel direction site chain) fun res t =>
      Replied policy host P direction site t chain res := by
  induction chain with
  | nil => exact Law.Meets.pure fun t _ => .nobody
  | cons e rest ih =>
      rw [queryChain]
      refine Law.Meets.get_bind fun s hs => ?_
      have hsince := h.and (Law.Stable.since s)
      by_cases hconnected : (!(s.engine e).connected) = true
      · rw [if_pos hconnected]
        exact Law.Meets.fail fun _ _ => h.errors_of_not_internal id
      · rw [if_neg hconnected]
        cases hcall : s.program.call? site.stmt with
        | none =>
            refine Law.Meets.pure fun t ht => .noCall ?_
            rw [(Policy.Evolves.grows ht.2).program]
            exact hcall
        | some call =>
            have hthere : ∀ t, policy.law.step s t → t.program.call? site.stmt = some call := by
              intro t ht
              rw [(Policy.Evolves.grows ht).program]
              exact hcall
            have hfound : policy.law.Meets (fun t => P t ∧ policy.law.step s t)
                (summariesFor e (some site.stmt) call.callee) fun found _ =>
                  found = s.summaries e (some site.stmt) call.callee := by
              refine ((meets_summariesFor hsince e _ _).keep hsince.stable).weaken ?_
              rintro found t ⟨ht, rfl⟩
              exact (Policy.Evolves.grows ht.2).summaries e _ _
            refine Law.Meets.bind hsince.stable hfound fun found =>
              Law.Meets.assume fun hfound => ?_
            subst hfound
            by_cases hempty : (s.summaries e (some site.stmt) call.callee).isEmpty = true
            · rw [if_pos hempty]
              refine Law.Meets.andThen hsince.stable (meets_countMiss hsince e _ _) fun _ => ?_
              have hrest := ih fun s other hother => hmay s other (List.mem_cons_of_mem _ hother)
              refine ((hrest.strengthen fun _ ht => ht.1).keep hsince.stable).weaken ?_
              rintro res t ⟨ht, hreplied⟩
              refine .pass (hthere t ht.2) ?_ hreplied
              rw [(Policy.Evolves.grows ht.2).summaries]
              exact hempty
            · rw [if_neg hempty]
              refine Law.Meets.andThen hsince.stable (meets_countHit e _) fun _ => ?_
              have hcalls : ∀ t, P t ∧ policy.law.step s t → t.IsCall site.stmt := by
                intro t ht
                rw [Session.IsCall, hthere t ht.2]
                rfl
              have hanswer := meets_answer hsince hhost.and hcalls
                ((hmay s e List.mem_cons_self call hs hcall).anti fun _ ht => ht.1) fuel
              refine Law.Meets.bind hsince.stable hanswer fun facts => Law.Meets.pure ?_
              rintro t ⟨ht, s', hs', hst, hanswered⟩
              have hsame := (Policy.Evolves.grows ht.2).summaries e (some site.stmt) call.callee
              refine .answer (hthere t ht.2) ?_ hs'.1 hst ?_
              · rw [hsame]
                exact Bool.eq_false_iff.2 hempty
              · rw [hsame]
                exact hanswered.mono fun _ hu => hu.1

/-- Putting a query to an engine, which goes to those it falls back on in turn. -/
theorem runs_query (h : policy.Admits P) (hhost : policy.Hosts P sent host) (fuel : Nat)
    {s : Session σ} (hs : P s)
    (hmay : ∀ s', ∀ k ∈ s.chain e, ∀ call, P s' → s'.program.call? site.stmt = some call →
      MayBegin policy host P k direction site (s'.summaries k (some site.stmt) call.callee)
        call.callee) :
    policy.law.Runs s (query host fuel e direction site) fun res t =>
      Replied policy host P direction site t (s.chain e) res := by
  unfold query
  exact Law.Runs.get_bind (meets_queryChain h hhost fuel hmay s hs)

end Engine

end Queries

/-! ## Connecting -/

namespace Run

/-- Registering classes mentions them and is reported. -/
theorem exec_forM_ensureClass (names : List String) (s : Session σ) :
    ∃ history, (names.forM ensureClass).exec s =
      (.ok (), { s with hierarchy := s.hierarchy.ensureAll names, history }) := by
  induction names generalizing s with
  | nil => exact ⟨s.history, rfl⟩
  | cons name names ih =>
      have hfirst : ∃ history, (ensureClass name).exec s =
          (.ok (), { s with hierarchy := s.hierarchy.ensure name, history }) := by
        unfold ensureClass
        rw [exec_get_bind]
        by_cases hknown : s.hierarchy.contains name = true
        · rw [if_neg (by simp [hknown]), Hierarchy.ensure_of_known hknown]
          exact ⟨s.history, rfl⟩
        · rw [if_pos (by simpa using hknown)]
          exact ⟨_, rfl⟩
      obtain ⟨history, hfirst⟩ := hfirst
      obtain ⟨history', hrest⟩ := ih { s with hierarchy := s.hierarchy.ensure name, history }
      have hcons : ((name :: names).forM ensureClass : Run σ PUnit) =
        (ensureClass name >>= fun _ => names.forM ensureClass) := rfl
      refine ⟨history', ?_⟩
      rw [hcons, exec_bind, hfirst]
      exact hrest

end Run

namespace Engine

/-- Connecting an engine lets it listen and mentions classes. It is refused to one
that is connected, and changes nothing else. -/
theorem exec_connect (e : EngineId) (s : Session σ) :
    (connect e).exec s = (.error (.error .initializedTwice), s) ∨
      ∃ names history, (connect e).exec s = (.ok (),
        { s.modifyEngine e fun engine => { engine with connected := true } with
          hierarchy := s.hierarchy.ensureAll names, history, listener := some e }) := by
  unfold connect
  rw [Run.exec_get_bind]
  by_cases hconnected : (s.engine e).connected = true
  · left
    rw [if_pos hconnected]
    rfl
  · right
    rw [if_neg hconnected]
    let store := (s.engine e).store
    let f : Engine → Engine := fun engine => { engine with connected := true }
    let names := store.loadableClasses.toList ++ store.supportedClasses.toList
    obtain ⟨history, hnames⟩ := Run.exec_forM_ensureClass names (s.modifyEngine e f)
    have hmodify : (Run.modifyEngine e f).exec s = (.ok (), s.modifyEngine e f) := rfl
    refine ⟨names,
      .initialized store.loadableClasses.size store.supportedClasses.size :: history, ?_⟩
    simp only
    rw [Run.exec_bind, hmodify]
    simp only
    rw [Run.exec_bind, hnames]
    rfl

theorem program_of_connect {e : EngineId} {s t : Session σ}
    (h : (connect e).exec s = (.ok (), t)) : t.program = s.program := by
  rcases exec_connect e s with hrun | ⟨names, history, hrun⟩
  · cases h.symm.trans hrun
  · cases h.symm.trans hrun
    rfl

end Engine

end TaintReplay
