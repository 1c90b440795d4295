import TaintReplay.Proofs.Conduct

/-!
# Treating one propagator

What treating a propagator leads to, in terms of its stack: every flow of the
method it is in *yields* some stacks and taints some paths at the call
(`Rules.yield`), and a gap without flows leads to what the solver leaves of it.
A stack that comes out at the bottom and is not seen through a gap is a taint at
the call; it goes no further if it stands for no path there. Any other goes on,
and with it its inverse where it may have aliases.

What a session has to say about this are its *rules*, which stay the same while
it grows.

## Main results

* `Engine.meets_follow`: following a flow leads to what it yields.
* `Engine.runs_expand`: treating a propagator leads to what the flows of its method yield, or
  what is left of its gap.
-/

namespace TaintReplay

variable {σ : Type}

/-! ## Stacks that flows lead to -/

/-- Whether the taint lies in an object and may have aliases there. -/
def Layer.mayAlias (l : Layer) : Bool :=
  !l.taint.path.isEmpty && (JavaType.parse l.taint.lastType).canAlias

/-- The same stack, looking for aliases. -/
def Stack.invert : Stack → Stack
  | [] => []
  | top :: below => { top with inverse := true } :: below

/-- A stack that is gone on with, and its inverse if it may have aliases. -/
def Stack.arrivals (st : Stack) : List Stack :=
  if st.head?.any Layer.mayAlias then [st, st.invert] else [st]

/-- Whether the stack is at the bottom and not seen through a gap. -/
def Stack.isSurface : Stack → Bool
  | [l] => l.taint.gap.isNone
  | _ => false

/-- The path that the bottom of a stack stands for at the call, if it does. -/
def Program.pathAt (program : Program) : Stack → Option AccessPath
  | [l] =>
    l.site.bind fun key =>
      match program.pathOnCall l.taint key.stmt with
      | .ok path => path
      | .error _ => none
  | _ => none

/-- What following a flow yields. -/
structure Yield where
  nexts : List Stack
  paths : List AccessPath

/-- What a replay goes by: how flows act, the program, the flows of the method
called, and those of the methods called back. -/
structure Rules where
  apply : Flow → Stack → Option Stack
  program : Program
  flows : FlowSet
  gapFlows : Gap → FlowSet

namespace Rules

/-- The flows of the method that a frame is of. -/
def flowsAt (r : Rules) : Option Gap → FlowSet
  | none => r.flows
  | some gap => r.gapFlows gap

/-- The flows of the method on top of a stack, as they are followed from there. -/
def flowsFrom (r : Rules) (top : Layer) : List Flow :=
  (r.flowsAt top.gap).toList.filterMap fun flow => flow.along top.inverse

/-- The top of a stack is in a gap that has no flows. -/
def Unsummarised (r : Rules) (top : Layer) : Prop :=
  ∃ gap, top.gap = some gap ∧ (r.gapFlows gap).isEmpty = true

theorem unsummarised_iff {r : Rules} {top : Layer} {gap : Gap} (hgap : top.gap = some gap) :
    r.Unsummarised top ↔ (r.gapFlows gap).isEmpty = true := by
  constructor
  · rintro ⟨other, hother, hempty⟩
    cases hgap.symm.trans hother
    exact hempty
  · exact fun hempty => ⟨gap, hgap, hempty⟩

/-- What a stack yields once a flow has led to it. -/
def yieldOf (r : Rules) (out : Stack) : Yield :=
  if out.isSurface then
    match r.program.pathAt out with
    | none => ⟨[], []⟩
    | some path => ⟨out.arrivals, [path]⟩
  else ⟨out.arrivals, []⟩

/-- What a flow yields from a stack. -/
def yield (r : Rules) (st : Stack) (flow : Flow) : Yield :=
  match r.apply flow st with
  | none => ⟨[], []⟩
  | some out => r.yieldOf out

end Rules

/-- The rules of a replay by an engine. -/
def Session.rules (s : Session σ) (e : EngineId) (flows : FlowSet) : Rules :=
  ⟨s.hierarchy.applyToStack?, s.program, flows, s.gapFlows e⟩

/-- Rules stay the same as long as lookups do. -/
theorem Session.Serves.rules {s t : Session σ} (h : s.Serves t) (e : EngineId) (flows : FlowSet) :
    t.rules e flows = s.rules e flows := by
  have happly : t.hierarchy.applyToStack? = s.hierarchy.applyToStack? := by
    funext flow st
    exact h.applyToStack? flow st
  have hgaps : t.gapFlows e = s.gapFlows e := funext (h.gapFlows e)
  rw [Session.rules, Session.rules, happly, hgaps, h.program]

theorem Session.Grows.rules {s t : Session σ} (h : s.Grows t) (e : EngineId) (flows : FlowSet) :
    t.rules e flows = s.rules e flows :=
  h.serves.rules e flows

/-! ## Names and stacks -/

namespace Arena

/-- A name stands for a stack that is there. -/
def Holds (a : Arena) (id : PropagatorId) (st : Stack) : Prop := a.stack id = st ∧ st ≠ []

theorem Holds.get? {a : Arena} {id : PropagatorId} {st : Stack} (h : a.Holds id st) :
    ∃ p, a.get? id = some p := by
  cases hp : a.get? id with
  | some p => exact ⟨p, rfl⟩
  | none => exact absurd (h.1.symm.trans (stack_of_get?_none hp)) h.2

theorem Holds.of_get? {a : Arena} (grounded : a.Grounded) {id : PropagatorId} {p : Propagator}
    (hp : a.get? id = some p) : a.Holds id (a.stack id) :=
  ⟨rfl, stack_ne_nil grounded hp⟩

theorem Holds.within {a b : Arena} (hab : a.Within b) (hb : b.Grounded) {id : PropagatorId}
    {st : Stack} (h : a.Holds id st) : b.Holds id st := by
  obtain ⟨p, hp⟩ := h.get?
  exact ⟨(stack_of_within hab hb hp).trans h.1, h.2⟩

theorem Names.holds {a : Arena} (grounded : a.Grounded) {id : PropagatorId} {q : Propagator}
    (h : a.Names id q) : a.Holds id (a.stackOver q) :=
  ⟨h.stack grounded, List.cons_ne_nil _ _⟩

/-- Some names stand for some stacks, one by one. -/
abbrev HoldsAll (a : Arena) : List PropagatorId → List Stack → Prop := List.Forall₂ a.Holds

theorem HoldsAll.within {a b : Arena} (hab : a.Within b) (hb : b.Grounded) {ids : List PropagatorId}
    {sts : List Stack} (h : a.HoldsAll ids sts) : b.HoldsAll ids sts :=
  h.imp fun _ _ hst => hst.within hab hb

theorem HoldsAll.map_stack {a : Arena} {ids : List PropagatorId} {sts : List Stack}
    (h : a.HoldsAll ids sts) : ids.map a.stack = sts := by
  induction h with
  | nil => rfl
  | cons hst _ ih => rw [List.map_cons, hst.1, ih]

theorem stackOver_toInverse (a : Arena) (q : Propagator) :
    a.stackOver q.toInverse = Stack.invert (a.stackOver q) := rfl

/-- A propagator without parent whose taint is not seen through a gap is on the
surface. -/
theorem isSurface_stackOver {a : Arena} (grounded : a.Grounded) {q : Propagator}
    (hq : a.HasParent q) :
    Stack.isSurface (a.stackOver q) = (q.parent.isNone && q.taint.gap.isNone) := by
  cases hparent : q.parent with
  | none =>
      rw [(stackOver_eq_singleton_iff grounded hq).2 hparent]
      rfl
  | some parent =>
      obtain ⟨p, hp⟩ := exists_get?_of_lt (hq parent hparent)
      rw [stackOver, hparent, Option.map_some, Option.getD_some, stack_eq grounded hp, stackOver]
      rfl

end Arena

section Expand

variable {policy : Policy σ} {P : Session σ → Prop}

theorem Policy.Admits.stable_holds (h : policy.Admits P) (a : Nat) (id : PropagatorId)
    (st : Stack) : policy.law.Stable fun t => P t ∧ (t.arena a).Holds id st :=
  fun _ _ hs hst => ⟨h.stable hs.1 hst,
    hs.2.within ((Policy.Evolves.grows hst).arena a) (h.grounded (h.stable hs.1 hst) a)⟩

theorem Policy.Admits.stable_holdsAll (h : policy.Admits P) (a : Nat) (ids : List PropagatorId)
    (sts : List Stack) : policy.law.Stable fun t => P t ∧ (t.arena a).HoldsAll ids sts :=
  fun _ _ hs hst => ⟨h.stable hs.1 hst,
    hs.2.within ((Policy.Evolves.grows hst).arena a) (h.grounded (h.stable hs.1 hst) a)⟩

namespace Engine

/-! ## Following a flow -/

/-- Interning a propagator that is gone on with. -/
theorem meets_internWithInverse (h : policy.Admits P) {a : Nat} {q : Propagator} {out : Stack}
    (hq : ∀ s, P s → a < s.arenas.length ∧ (s.arena a).Derives s.IsCall q)
    (hout : ∀ s, P s → (s.arena a).stackOver q = out) :
    policy.law.Meets P (internWithInverse a q) fun ids t =>
      (t.arena a).HoldsAll ids out.arrivals := by
  unfold internWithInverse
  refine Law.Meets.bind h.stable (Run.meets_intern hq) fun id => ?_
  have hnamed := h.and (Policy.stable_names a id q)
  have hfirst : ∀ t, P t ∧ (t.arena a).Names id q → (t.arena a).Holds id out := by
    intro t ht
    rw [← hout t ht.1]
    exact ht.2.holds (h.grounded ht.1 a)
  have harrivals : ∀ t, P t →
      out.arrivals = if q.layer.mayAlias then [out, out.invert] else [out] := by
    intro t ht
    rw [← hout t ht]
    rfl
  split
  · rename_i halias
    replace halias : q.layer.mayAlias = true := halias
    have hinverse : ∀ t, P t ∧ (t.arena a).Names id q →
        a < t.arenas.length ∧ (t.arena a).Derives t.IsCall q.toInverse := by
      rintro t ⟨ht, p, hp, hsame⟩
      exact ⟨(hq t ht).1, .inverse hp hsame⟩
    refine Law.Meets.bind hnamed.stable (Run.meets_intern hinverse) fun inverse => ?_
    refine Law.Meets.pure fun t ht => ?_
    rw [harrivals t ht.1.1, if_pos halias]
    refine .cons (hfirst t ht.1) (.cons ?_ .nil)
    have hholds := ht.2.holds (h.grounded ht.1.1 a)
    rw [Arena.stackOver_toInverse, hout t ht.1.1] at hholds
    exact hholds
  · rename_i halias
    replace halias : ¬ q.layer.mayAlias = true := halias
    refine Law.Meets.pure fun t ht => ?_
    rw [harrivals t ht.1, if_neg halias]
    exact .cons (hfirst t ht) .nil

/-- Flows yield from the stack of a propagator what they make of it. -/
theorem yield_stack {s : Session σ} (e : EngineId) (flows : FlowSet) {a : Nat}
    (grounded : (s.arena a).Grounded) (id : PropagatorId) (flow : Flow) :
    (s.rules e flows).yield ((s.arena a).stack id) flow =
      match s.hierarchy.applyFlow? (s.arena a) flow id with
      | none => ⟨[], []⟩
      | some q => (s.rules e flows).yieldOf ((s.arena a).stackOver q) := by
  have happly := s.hierarchy.applyToStack?_stack grounded flow id
  rw [Rules.yield, show (s.rules e flows).apply = s.hierarchy.applyToStack? from rfl, happly]
  cases s.hierarchy.applyFlow? (s.arena a) flow id <;> rfl

/-- What following a flow achieves: names for the stacks it yields, and the paths
it yields. -/
def Follows (r : Rules) (a : Nat) (st : Stack) (flow : Flow) (x : Expansion) (t : Session σ) :
    Prop :=
  (t.arena a).HoldsAll x.successors (r.yield st flow).nexts ∧
    x.collected = (r.yield st flow).paths

theorem stable_follows (h : policy.Admits P) {r : Rules} {a : Nat} {st : Stack} {flow : Flow}
    {x : Expansion} : policy.law.Stable fun t => P t ∧ Follows r a st flow x t := by
  rintro s t ⟨hs, hnames, hpaths⟩ hst
  have hkept := h.stable_holdsAll a _ _ ⟨hs, hnames⟩ hst
  exact ⟨hkept.1, hkept.2, hpaths⟩

/-- The path at the call of a result at the bottom. -/
theorem pathAt_singleton {program : Program} {q : Propagator} {site : CallSite}
    (hsite : q.site = some site) {path : Option AccessPath}
    (hpath : program.pathOnCall q.taint site.stmt = .ok path) :
    program.pathAt [q.layer] = path := by
  simp only [Program.pathAt, Propagator.layer, hsite, Option.map_some, Option.bind_some,
    CallSite.key, hpath]

/-- A result on the surface taints its path at the call. In a sound session it
belongs to a call. -/
theorem meets_followSurface (h : policy.Admits P) {r : Rules} {a : Nat} {q : Propagator}
    (hprogram : ∀ s, P s → s.program = r.program)
    (hknown : ∀ s, P s → a < s.arenas.length ∧ (s.arena a).Derives s.IsCall q)
    (hbottom : q.parent = none) (hsurface : Stack.isSurface [q.layer] = true)
    (hover : ∀ s, P s → (s.arena a).stackOver q = [q.layer]) (flow : Flow) :
    policy.law.Meets P
      (do
        let some site := q.site | Run.fail (.rootWithoutCallSite q)
        let some path ← pathOnCall q.taint site.stmt | return Expansion.empty
        Run.report (.pathTainted flow path)
        return Expansion.mk (← internWithInverse a q) [path])
      fun x t => (t.arena a).HoldsAll x.successors (r.yieldOf [q.layer]).nexts ∧
        x.collected = (r.yieldOf [q.layer]).paths := by
  rw [Rules.yieldOf, if_pos hsurface]
  cases hsite : q.site with
  | none =>
      refine Law.Meets.fail fun t ht => h.errors_of_unsound ht fun hsound => ?_
      have hframed := ((hknown t ht).2.framed (hsound.stacked a)).site
      rw [hsite, hbottom] at hframed
      cases hframed
  | some site =>
      have hcall : ∀ t, P t → t.Sound → t.IsCall site.stmt :=
        fun t ht hsound => (hknown t ht).2.site (hsound.calls a) hsite
      refine Law.Meets.bind h.stable (meets_pathOnCall h q.taint hcall) fun path => ?_
      refine Law.Meets.strengthen (P := fun t => P t ∧ r.program.pathAt [q.layer] = path) ?_
        fun t ht => ⟨ht.1, pathAt_singleton hsite (hprogram t ht.1 ▸ ht.2)⟩
      refine Law.Meets.assume fun hpath => ?_
      rw [hpath]
      cases path with
      | none => exact Law.Meets.pure fun t ht => ⟨.nil, rfl⟩
      | some path =>
          refine Law.Meets.andThen h.stable (Run.meets_report _) fun _ => ?_
          refine Law.Meets.bind h.stable (meets_internWithInverse h hknown hover) fun ids => ?_
          exact Law.Meets.pure fun t ht => ⟨ht.2, rfl⟩

/-- Following a flow leads to what it yields. -/
theorem meets_follow (h : policy.Admits P) {r : Rules} {e : EngineId} {flows : FlowSet}
    (hr : ∀ s, P s → s.rules e flows = r) {a : Nat} {id : PropagatorId} {st : Stack}
    (hid : ∀ s, P s → (s.arena a).Holds id st) (flow : Flow) :
    policy.law.Meets P (follow a id flow) fun x t => Follows r a st flow x t := by
  unfold follow
  refine Law.Meets.get_bind fun s hs => ?_
  have hsince := h.and (Law.Stable.since s)
  have hgrounded := h.grounded hs a
  have hyield := yield_stack e flows hgrounded id flow
  rw [hr s hs, (hid s hs).1] at hyield
  unfold Follows
  cases hq : s.hierarchy.applyFlow? (s.arena a) flow id with
  | none =>
      rw [hq] at hyield
      rw [hyield]
      exact Law.Meets.pure fun t ht => ⟨.nil, rfl⟩
  | some q =>
      rw [hq] at hyield
      rw [hyield]
      have hparent := Hierarchy.hasParent_of_applyFlow? hgrounded hq
      have hsurface := Arena.isSurface_stackOver hgrounded hparent
      -- interning the result, in whatever session that happens
      have hknown : ∀ t, P t ∧ policy.law.step s t →
          a < t.arenas.length ∧ (t.arena a).Derives t.IsCall q := by
        intro t ht
        obtain ⟨p, hp⟩ := (hid t ht.1).get?
        have hwithin := (Policy.Evolves.grows ht.2).arena a
        exact ⟨Session.lt_of_get? hp,
          .flow (Arena.applyFlow?_of_within hwithin (h.grounded ht.1 a) hq)⟩
      have hover : ∀ t, P t ∧ policy.law.step s t →
          (t.arena a).stackOver q = (s.arena a).stackOver q := by
        intro t ht
        exact Arena.stackOver_of_within ((Policy.Evolves.grows ht.2).arena a) (h.grounded ht.1 a)
          hparent
      simp only
      split
      · rename_i htop
        have hbottom := Option.isNone_iff_eq_none.1 (Bool.and_eq_true_iff.1 htop).1
        have hout := (Arena.stackOver_eq_singleton_iff hgrounded hparent).2 hbottom
        rw [← hsurface, hout] at htop
        rw [hout] at hover ⊢
        have hprogram : ∀ t, P t ∧ policy.law.step s t → t.program = r.program := by
          rintro t ⟨ht, -⟩
          rw [← hr t ht]
          rfl
        exact meets_followSurface hsince hprogram hknown hbottom htop hover flow
      · rename_i htop
        rw [← hsurface] at htop
        rw [Rules.yieldOf, if_neg htop]
        refine Law.Meets.bind hsince.stable (meets_internWithInverse hsince hknown hover)
          fun ids => ?_
        exact Law.Meets.pure fun t ht => ⟨ht.2, rfl⟩

end Engine

/-! ## Treating a propagator -/

namespace Engine

variable {sent : PathEdge → Session σ → Prop} {host : Host σ}

/-- Interning propagators that leave the frame of a stored one. -/
theorem meets_internAll (h : policy.Admits P) {a : Nat} {props : List Propagator}
    {sts : Propagator → Stack}
    (hprops : ∀ s, P s → ∀ q ∈ props, a < s.arenas.length ∧ (s.arena a).Derives s.IsCall q)
    (hstacks : ∀ s, P s → ∀ q ∈ props, (s.arena a).stackOver q = sts q) :
    policy.law.Meets P (props.mapM (Run.intern a)) fun ids t =>
      (t.arena a).HoldsAll ids (props.map sts) := by
  have hall := Law.Meets.mapM h.stable
    (fun q id => h.stable_holds a id (sts q))
    fun q hq => ((Run.meets_intern fun s hs => hprops s hs q hq).keep h.stable).weaken
      fun id t ht => ⟨ht.1, hstacks t ht.1 q hq ▸ ht.2.holds (h.grounded ht.1 a)⟩
  refine hall.weaken fun ids t hids => ?_
  rw [Arena.HoldsAll, List.forall₂_map_right_iff]
  exact hids.flip.imp fun _ _ hid => hid.2

/-- What the solver leaves of a gap leaves the frame of the propagator. -/
theorem exists_of_mem_resolved {t : Session σ} {solver : Solver σ} {e : EngineId} {c : Continuation}
    {p : Propagator} {gap : Gap} {left : List Propagator}
    (h : t.Resolved solver sent e c p gap left) {q : Propagator} (hq : q ∈ left) :
    ∃ taint, q = .inFrame taint ((t.arena c.arena).callerFrame p) := by
  obtain ⟨found, rfl, hfound⟩ := h
  obtain ⟨some, hsome, hmem⟩ := List.mem_flatten.1 hq
  obtain ⟨m, -, htried⟩ := exists_left_of_forall₂ hfound hsome
  rw [Session.Tried] at htried
  split at htried
  · obtain ⟨state, hleft⟩ := htried.left
    rw [hleft, Arena.leaveFrame, List.mem_map] at hmem
    obtain ⟨taint, -, rfl⟩ := hmem
    exact ⟨taint, rfl⟩
  · rw [htried] at hmem
    exact absurd hmem List.not_mem_nil

/-- Interning propagators by which taints leave the frame of a stored one. -/
theorem meets_internLeft (h : policy.Admits P) {a : Nat} {id : PropagatorId} {p : Propagator}
    {v : Session σ} {left : List Propagator} (hv : v.Grounded)
    (hp : (v.arena a).get? id = some p)
    (hleft : ∀ q ∈ left, ∃ taint, q = .inFrame taint ((v.arena a).callerFrame p))
    (hsince : ∀ t, P t → policy.Evolves v t) :
    policy.law.Meets P (left.mapM (Run.intern a)) fun ids t =>
      (t.arena a).HoldsAll ids (left.map (v.arena a).stackOver) := by
  refine meets_internAll h (fun t ht q hq => ?_) fun t ht q hq => ?_
  · obtain ⟨taint, rfl⟩ := hleft q hq
    have hgrows := (hsince t ht).grows
    rw [← Arena.callerFrame_of_within (hgrows.arena a) (h.grounded ht a) hp]
    exact ⟨Session.lt_of_get? (hgrows.get? hp), .leave taint (hgrows.get? hp)⟩
  · obtain ⟨taint, rfl⟩ := hleft q hq
    exact Arena.stackOver_of_within ((hsince t ht).grows.arena a) (h.grounded ht a)
      (Arena.hasParent_inFrame (hv a) hp taint)

/-- What is left of the gap that a propagator is in: from a session on, no flows
were found for it and it was resolved. -/
def Resolves (host : Host σ) (e : EngineId) (a : Nat) (id : PropagatorId) (p : Propagator)
    (s v : Session σ) (left : List Stack) : Prop :=
  ∃ gap flows u found, p.gap = some gap ∧ (flowsForGap e gap).exec s = (.ok flows, u) ∧
    flows.isEmpty = true ∧ (resolveGap host e a id p gap).exec u = (.ok found, v) ∧
    left = found.map (v.arena a).stackOver

theorem Resolves.unique {e : EngineId} {a : Nat} {id : PropagatorId} {p : Propagator}
    {s v v' : Session σ} {left left' : List Stack} (h : Resolves host e a id p s v left)
    (h' : Resolves host e a id p s v' left') : v = v' ∧ left = left' := by
  obtain ⟨gap, flows, u, found, hgap, hlook, -, hrun, rfl⟩ := h
  obtain ⟨gap', flows', u', found', hgap', hlook', -, hrun', rfl⟩ := h'
  cases hgap.symm.trans hgap'
  cases hlook.symm.trans hlook'
  cases hrun.symm.trans hrun'
  exact ⟨rfl, rfl⟩

/-- What a propagator leads to besides following flows: what is left of its gap, if
that has no flows. -/
structure Enters (policy : Policy σ) (host : Host σ) (r : Rules) (e : EngineId) (a : Nat)
    (id : PropagatorId) (p : Propagator) (s t : Session σ) (entered : List Stack) : Prop where
  resolves : r.Unsummarised p.layer → ∃ v, Resolves host e a id p s v entered ∧ policy.Evolves v t
  unsummarised : ∀ v left, Resolves host e a id p s v left → r.Unsummarised p.layer
  empty : ¬ r.Unsummarised p.layer → entered = []

section Enters

variable {r : Rules} {e : EngineId} {a : Nat} {id : PropagatorId} {p : Propagator}
  {s t : Session σ} {entered : List Stack}

theorem Enters.eq_of_resolves (h : Enters policy host r e a id p s t entered) {v : Session σ}
    {left : List Stack} (hresolves : Resolves host e a id p s v left) :
    left = entered ∧ policy.Evolves v t := by
  obtain ⟨v', hresolves', hvt⟩ := h.resolves (h.unsummarised v left hresolves)
  obtain ⟨rfl, rfl⟩ := hresolves.unique hresolves'
  exact ⟨rfl, hvt⟩

theorem Enters.unsummarised_of_mem (h : Enters policy host r e a id p s t entered) {out : Stack}
    (hout : out ∈ entered) : r.Unsummarised p.layer := by
  by_contra hnot
  rw [h.empty hnot] at hout
  exact List.not_mem_nil hout

end Enters

/-- The flows to follow from a propagator, and what it leads to besides. -/
def FlowsFound (policy : Policy σ) (host : Host σ) (r : Rules) (e : EngineId) (a : Nat)
    (id : PropagatorId) (p : Propagator) (s : Session σ) (x : FlowSet × Expansion)
    (t : Session σ) : Prop :=
  x.1 = r.flowsAt p.gap ∧ x.2.collected = [] ∧
    ∃ entered, Enters policy host r e a id p s t entered ∧
      (t.arena a).HoldsAll x.2.successors entered

/-- The flows to follow and what was entered stay as they are. -/
theorem stable_flowsFound (h : policy.Admits P) {r : Rules} {e : EngineId} {a : Nat}
    {id : PropagatorId} {p : Propagator} {s : Session σ} {x : FlowSet × Expansion} :
    policy.law.Stable fun t => P t ∧ FlowsFound policy host r e a id p s x t := by
  rintro t u ⟨ht, hflows, hcollected, entered, henters, hholds⟩ htu
  have hkept := h.stable_holdsAll a _ _ ⟨ht, hholds⟩ htu
  refine ⟨hkept.1, hflows, hcollected, entered, ⟨fun hun => ?_, henters.unsummarised,
    henters.empty⟩, hkept.2⟩
  obtain ⟨v, hresolves, hvt⟩ := henters.resolves hun
  exact ⟨v, hresolves, hvt.trans htu⟩

section Treat

variable {r : Rules} {e : EngineId} {flows : FlowSet} {a : Nat} {id : PropagatorId}

/-- A gap without flows is left to the solver, and what it leaves is interned. -/
theorem runs_enterGap (h : policy.Admits P) (hhost : policy.Hosts P sent host) {p : Propagator}
    {gap : Gap} (hgap : p.gap = some gap) (hid : ∀ s, P s → (s.arena a).get? id = some p)
    (hempty : ∀ s, P s → (s.gapFlows e gap).isEmpty = true)
    (hwaits : ∀ s, P s → policy.waits s e ⟨a, id⟩) (found : FlowSet) {u : Session σ} (hu : P u) :
    policy.law.Runs u
      (do
        let left ← resolveGap host e a id p gap
        return (found, (⟨← left.mapM (Run.intern a), []⟩ : Expansion)))
      fun x t => x.1 = found ∧ x.2.collected = [] ∧
        ∃ left v, (resolveGap host e a id p gap).exec u = (.ok left, v) ∧ policy.Evolves v t ∧
          (t.arena a).HoldsAll x.2.successors (left.map (v.arena a).stackOver) := by
  have hresolve := meets_resolveGap h hhost hgap (fun t ht => ⟨hid t ht, hempty t ht⟩) hwaits
  refine (hresolve u hu).bind fun left v hrun huv hleft => ?_
  have hv := h.stable hu huv
  have hsince := h.and (Law.Stable.since v)
  have hintern := meets_internLeft hsince (h.grounded hv) (hid v hv)
    (fun q hq => exists_of_mem_resolved hleft hq) fun t ht => ht.2
  refine Law.Meets.bind hsince.stable hintern (fun ids => Law.Meets.pure fun t ht => ?_) v
    ⟨hv, .refl⟩
  exact ⟨rfl, rfl, left, v, hrun, ht.1.2, ht.2⟩

/-- The flows of the method a propagator is in, and what it leads to besides
following them. -/
theorem runs_flowsOf (h : policy.Admits P) (hhost : policy.Hosts P sent host)
    (hr : ∀ s, P s → s.rules e flows = r) {p : Propagator}
    (hid : ∀ s, P s → (s.arena a).get? id = some p)
    (hwaits : ∀ s, P s → policy.waits s e ⟨a, id⟩) {s : Session σ} (hs : P s) :
    policy.law.Runs s (flowsOf host e a flows id p) (FlowsFound policy host r e a id p s) := by
  unfold flowsOf
  cases hgap : p.gap with
  | none =>
      refine ⟨.refl, ?_, rfl, [], ⟨fun hun => ?_, fun v left hres => ?_, fun _ => rfl⟩, .nil⟩
      · rw [← hr s hs, hgap]
        rfl
      · obtain ⟨gap, hsome, -⟩ := hun
        rw [show p.layer.gap = p.gap from rfl, hgap] at hsome
        cases hsome
      · obtain ⟨gap, -, -, -, hsome, -⟩ := hres
        cases hgap.symm.trans hsome
  | some gap =>
      have hlook : policy.law.Meets P (flowsForGap e gap) fun found _ =>
          found = r.gapFlows gap := by
        refine ((meets_flowsForGap h e gap).keep h.stable).weaken ?_
        rintro found t ⟨ht, rfl⟩
        rw [← hr t ht]
        rfl
      refine (hlook s hs).bind fun found u hrun hsu hfound => ?_
      have hflows : found = r.flowsAt p.gap := by
        rw [hgap, hfound]
        rfl
      have hiff : r.Unsummarised p.layer ↔ found.isEmpty = true := by
        rw [hfound]
        exact Rules.unsummarised_iff hgap
      have hasked : ∀ v left, Resolves host e a id p s v left → r.Unsummarised p.layer := by
        rintro v left ⟨gap', found', u', left', hgap', hrun', hempty, -⟩
        cases hgap.symm.trans hgap'
        cases hrun.symm.trans hrun'
        exact hiff.2 hempty
      by_cases hempty : found.isEmpty = true
      · rw [if_pos hempty]
        have hnone : ∀ t, P t → (t.gapFlows e gap).isEmpty = true := by
          intro t ht
          rw [hfound, ← hr t ht] at hempty
          exact hempty
        refine (runs_enterGap h hhost hgap hid hnone hwaits found (h.stable hs hsu)).weaken ?_
        rintro x t - - ⟨hx, hcollected, left, v, hresolve, hvt, hholds⟩
        refine ⟨hx.trans hflows, hcollected, _, ⟨fun _ => ⟨v, ?_, hvt⟩, hasked, fun hnot => ?_⟩,
          hholds⟩
        · exact ⟨gap, found, u, left, hgap, hrun, hempty, hresolve, rfl⟩
        · exact absurd (hiff.2 hempty) hnot
      · rw [if_neg hempty]
        refine ⟨.refl, hflows, rfl, [], ⟨fun hun => ?_, hasked, fun _ => rfl⟩, .nil⟩
        exact absurd (hiff.1 hun) hempty

/-- The session in which a propagator was just taken from the queue. -/
def taking (s : Session σ) (a : Nat) (id : PropagatorId) (p : Propagator) : Session σ :=
  { s with history := .taken (s.arena a) id p :: s.history }

/-- What treating a propagator achieves: names for the stacks that the flows of
its method yield, after those it entered its gap by, and the paths they yield. -/
def Expands (policy : Policy σ) (host : Host σ) (r : Rules) (e : EngineId) (a : Nat)
    (id : PropagatorId) (s : Session σ) (top : Layer) (below : Stack) (x : Expansion)
    (t : Session σ) : Prop :=
  ∃ p entered, (s.arena a).get? id = some p ∧ p.layer = top ∧
    Enters policy host r e a id p (taking s a id p) t entered ∧
    (t.arena a).HoldsAll x.successors (entered ++ (r.flowsFrom top).flatMap fun flow =>
      (r.yield (top :: below) flow).nexts) ∧
    x.collected = (r.flowsFrom top).flatMap fun flow => (r.yield (top :: below) flow).paths

theorem successors_foldl (x : Expansion) (xs : List Expansion) :
    (xs.foldl (· ++ ·) x).successors = x.successors ++ xs.flatMap (·.successors) := by
  induction xs generalizing x with
  | nil => simp
  | cons y ys ih =>
      rw [List.foldl_cons, ih, List.flatMap_cons, ← List.append_assoc]
      rfl

theorem collected_foldl (x : Expansion) (xs : List Expansion) :
    (xs.foldl (· ++ ·) x).collected = x.collected ++ xs.flatMap (·.collected) := by
  induction xs generalizing x with
  | nil => simp
  | cons y ys ih =>
      rw [List.foldl_cons, ih, List.flatMap_cons, ← List.append_assoc]
      rfl

/-- Following some flows one after the other achieves what each of them does. -/
theorem holdsAll_of_follows {t : Session σ} {st : Stack} {flows : List Flow} {xs : List Expansion}
    (h : List.Forall₂ (fun flow x => Follows r a st flow x t) flows xs) :
    (t.arena a).HoldsAll (xs.flatMap (·.successors))
        (flows.flatMap fun flow => (r.yield st flow).nexts) ∧
      xs.flatMap (·.collected) = flows.flatMap fun flow => (r.yield st flow).paths := by
  induction h with
  | nil => exact ⟨.nil, rfl⟩
  | cons hx _ ih =>
      simp only [List.flatMap_cons]
      refine ⟨List.rel_append hx.1 ih.1, ?_⟩
      rw [hx.2, ih.2]

/-- Treating a propagator leads to what the flows of its method yield, or what is
left of its gap. -/
theorem runs_expand (h : policy.Admits P) (hhost : policy.Hosts P sent host)
    (hr : ∀ s, P s → s.rules e flows = r) {top : Layer} {below : Stack}
    (hid : ∀ s, P s → (s.arena a).Holds id (top :: below))
    (hwaits : ∀ s, P s → policy.waits s e ⟨a, id⟩) {s : Session σ} (hs : P s) :
    policy.law.Runs s (expand host e a flows id) (Expands policy host r e a id s top below) := by
  unfold expand
  refine Law.Runs.get_bind ?_
  obtain ⟨p, hp⟩ := (hid s hs).get?
  have hsince := h.and (Law.Stable.since s)
  have hstored : ∀ t, P t ∧ policy.law.step s t → (t.arena a).get? id = some p :=
    fun t ht => (Policy.Evolves.grows ht.2).get? hp
  have htop : p.layer = top := by
    have hstack := (hid s hs).1
    rw [Arena.stack_eq (h.grounded hs a) hp, Arena.stackOver, List.cons.injEq] at hstack
    exact hstack.1
  simp only [hp]
  refine (Run.meets_report (P := P) _ s hs).bind fun _ w hreport hsw _ => ?_
  have htaking : w = taking s a id p := (Prod.mk.inj hreport).2.symm
  split
  · -- in a sound session what is in a gap has a parent
    rename_i hlost
    rw [Bool.and_eq_true] at hlost
    refine ⟨.refl, h.errors_of_unsound hs fun hsound => ?_⟩
    have hgap := ((hsound.stacked a).framed hp).gap
    rw [hlost.1, Option.isNone_iff_eq_none.1 hlost.2] at hgap
    cases hgap
  · have hw : P w ∧ policy.law.step s w := ⟨h.stable hs hsw, hsw⟩
    refine (runs_flowsOf hsince hhost.and (fun t ht => hr t ht.1) hstored
      (fun t ht => hwaits t ht.1) hw).bind fun x u hrun hwu hfound => ?_
    obtain ⟨found, entered⟩ := x
    let now : Session σ → Prop := fun t => (P t ∧ policy.law.step s t) ∧
      FlowsFound policy host r e a id p w (found, entered) t
    have hnow : policy.Admits now := hsince.of_stable (stable_flowsFound hsince)
    have hfollow : policy.law.Meets now ((found.toList.filterMap p.orient).mapM (follow a id))
        fun xs t => List.Forall₂ (fun flow x => now t ∧ Follows r a (top :: below) flow x t)
          (found.toList.filterMap p.orient) xs :=
      Law.Meets.mapM hnow.stable (fun flow x => stable_follows hnow) fun flow _ =>
        (meets_follow hnow (fun t ht => hr t ht.1.1) (fun t ht => hid t ht.1.1) flow).keep
          hnow.stable
    refine Law.Meets.bind hnow.stable hfollow (fun xs => Law.Meets.pure fun t ht => ?_) u
      ⟨hsince.stable hw hwu, hfound⟩
    obtain ⟨⟨-, hflows, hcollected, sts, henters, hholds⟩, hxs⟩ := ht
    obtain ⟨hnames, hpaths⟩ := holdsAll_of_follows (hxs.imp fun _ _ hx => hx.2)
    have hfrom : found.toList.filterMap p.orient = r.flowsFrom top := by
      rw [show found = r.flowsAt p.gap from hflows, ← htop]
      rfl
    rw [hfrom] at hnames hpaths
    refine ⟨p, sts, hp, htop, htaking ▸ henters, ?_, ?_⟩
    · rw [successors_foldl]
      exact List.rel_append hholds hnames
    · rw [collected_foldl, hpaths, show entered.collected = [] from hcollected, List.nil_append]

end Treat

end Engine

end Expand

end TaintReplay
