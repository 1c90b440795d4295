import TaintReplay.Proofs.HistoryIndependence

/-!
# Opening sub-fields

A taint can be closed, or it can be open and stand for everything below its path too.
A query about an open fact finds at least what the query about the closed fact finds:
every path of the first answer is in the second, closed or open.

The stacks of the two replays are not the same. They stand for each other layer by
layer (`Layer.Opens`): the same places, possibly opened, at the same calls. Every test
that a flow makes of a taint is passed by the open taint if the closed one passes it, and
the flow carries the openness along. What is sent into a method is open in either case,
so the solver is sent in with the same seeds and leaves the same of a gap. Hence the one
replay follows the other step by step, and what becomes tainted at the call corresponds.

## Main results

* `Engine.mem_answer_iff`: the paths of an answer are those that the rules of the call collect.
* `Hierarchy.applyToStack?_opens`: flows act on opened stacks as on closed ones.
* `Session.reach_opens`: what is reached from closed stacks is reached from open ones.
* `opening_sub_fields_loses_nothing`: an answer about an open fact has all of the answer about the
  closed one.
-/

namespace TaintReplay

variable {σ : Type}

/-! ## Answers -/

/-- What the rules of an engine for some flows collect at a call, if the solver answers
from a table. -/
def Session.CollectsAt (s : Session σ) (table : ExitTable) (e : EngineId) (direction : Direction)
    (site : CallSite) (flows : FlowSet) : AccessPath → Prop :=
  (s.rules e flows).Collects (fun st out => out ∈ s.leaves table st) (· ∈ s.startsOf direction site)

theorem Session.Grows.startsOf {s t : Session σ} (h : s.Grows t) (direction : Direction)
    (site : CallSite) : t.startsOf direction site = s.startsOf direction site := by
  rw [Session.startsOf, Session.startsOf, Engine.queried, Engine.queried, h.program]

theorem Session.Grows.collectsAt {s t : Session σ} (h : s.Grows t) (table : ExitTable)
    (e : EngineId) (direction : Direction) (site : CallSite) (flows : FlowSet) :
    t.CollectsAt table e direction site flows = s.CollectsAt table e direction site flows := by
  have hleaves : t.leaves table = s.leaves table := funext (h.leaves table)
  rw [Session.CollectsAt, Session.CollectsAt, h.rules, h.startsOf, hleaves]

/-- Without anything to start from nothing is collected. -/
theorem Rules.Collects.exists_start {r : Rules} {resolved : Stack → Stack → Prop}
    {initial : Stack → Prop} {path : AccessPath} (h : r.Collects resolved initial path) :
    ∃ st, initial st := by
  obtain ⟨st, -, hst, -⟩ := h
  induction hst with
  | start h => exact ⟨_, h⟩
  | resolve _ _ _ ih => exact ih
  | follow _ _ _ ih => exact ih
  | invert _ _ _ _ ih => exact ih

namespace Engine

variable {solver : Solver σ} {table : ExitTable} {fuel steps depth : Nat} {e : EngineId}
  {direction : Direction} {site : CallSite} {s t : Session σ} {facts : FactSet}

/-- A replay that a query made collects what the rules of the call do. -/
theorem Made.collects_iff (htable : ∀ state, solver.table state = table) {a : Nat} {u : Session σ}
    {flows : FlowSet} {x : Replay σ} {P : Session σ → Prop}
    (hadmits : (Policy.free solver).Admits P)
    (hhosts : (Policy.free solver).Hosts P (fun _ _ => True) (host solver steps depth))
    (hmade : Made (Policy.free solver) (host solver steps depth) P e a site
      (direction = .backward) (queried direction site s) s u flows x) {path : AccessPath} :
    x.Collects x.Left path ↔ s.CollectsAt table e direction site flows path := by
  obtain ⟨hbegins, res, v, hreplayed, hxv, -⟩ := hmade
  have hrules : x.rules = s.rules e flows := by
    rw [Replay.rules, hbegins.engine, hbegins.flows]
    exact (Policy.Evolves.grows hbegins.since).rules e flows
  have hleaves : x.session.leaves table = s.leaves table :=
    funext fun st => (Policy.Evolves.grows hbegins.since).leaves table st
  have hiff : x.Collects x.Left path ↔ x.CollectsWith table path :=
    hreplayed.collects_iff hadmits (hbegins.host ▸ hhosts) hbegins.admitted htable
      (fun st _ => Replay.stackMayWait_of_lenient (Policy.free_lenient solver)) hxv
  rw [hiff, Replay.CollectsWith, Replay.Collects, hrules, hleaves, hbegins.starts]
  rfl

/-- The paths of an answer are the one that was asked about and those that the rules of
the call collect, for each class with summaries. -/
theorem mem_answer_iff (htable : ∀ state, solver.table state = table) (hs : s.Grounded)
    (halone : (s.engine e).fallback = none)
    (hunlimited : (s.engine e).options.maxSteps = none)
    (hrun : (query (host solver steps depth) fuel e direction site).exec s =
      (.ok (some facts), t)) (path : AccessPath) :
    path ∈ facts.paths ↔ path = site.fact.path ∨
      ∃ call, s.program.call? site.stmt = some call ∧
        ∃ flows ∈ classFlows (s.summaries e (some site.stmt) call.callee) call.callee,
          s.CollectsAt table e direction site flows path := by
  have hadmits := (Policy.free_admits solver).and (Law.Stable.since s)
  have hhosts := (Policy.free_hosts solver steps depth).and (Q := (Policy.free solver).law.step s)
  have hreplied := (runs_query hadmits hhosts fuel ⟨hs, .refl⟩ fun s' k _ call _ _ =>
    mayBegin_of_lenient (Policy.free_lenient solver) _ _).of_ok hrun
  obtain ⟨hst, hreplied⟩ := hreplied
  have hgrows := Policy.Evolves.grows hst
  cases hlength : s.engines.length with
  | zero =>
      rw [Session.chain, hlength] at hreplied
      cases hreplied
  | succ n =>
      have hchain : s.chain e = [e] := by rw [Session.chain, hlength, Session.chainFrom, halone]
      rw [hchain] at hreplied
      cases hreplied with
      | noCall call =>
          rw [hgrows.program] at call
          simp [FactSet.mem_paths_singleton, call]
      | pass _ _ rest => cases rest
      | @answer _ _ call s' _ hcall _ looked _ answered =>
          have hs' := Policy.Evolves.grows looked.2
          rw [hgrows.program] at hcall
          rw [hgrows.summaries] at answered
          have hlimit : (s'.engine e).options.maxSteps = none := by
            rw [(hs'.engine e).options]
            exact hunlimited
          obtain ⟨a, xs, hxs, hpaths⟩ := answered hlimit
          have hcollects : ∀ {flows x}, Made (Policy.free solver) (host solver steps depth) _ e a
              site (direction = .backward) (queried direction site s') s' t flows x →
              (x.Collects x.Left path ↔ s.CollectsAt table e direction site flows path) :=
            fun hmade => (hmade.collects_iff htable hadmits hhosts).trans
              (iff_of_eq (congrFun (hs'.collectsAt table e direction site _) path))
          rw [hpaths]
          refine or_congr_right ⟨?_, ?_⟩
          · rintro ⟨x, hx, hpath⟩
            obtain ⟨flows, hflows, hmade⟩ := exists_left_of_forall₂ hxs hx
            split at hflows
            · cases hflows
            · exact ⟨call, hcall, flows, hflows, (hcollects hmade).1 hpath⟩
          · rintro ⟨call', hcall', flows, hflows, hpath⟩
            cases hcall.symm.trans hcall'
            have hqueried : ¬ (queried direction site s').isEmpty = true := by
              intro hempty
              obtain ⟨st, hst⟩ := hpath.exists_start
              rw [← hs'.startsOf, Session.startsOf, List.isEmpty_iff.1 hempty] at hst
              cases hst
            rw [if_neg hqueried] at hxs
            obtain ⟨x, hx, hmade⟩ := exists_right_of_forall₂ hxs hflows
            exact ⟨x, hx, (hcollects hmade).2 hpath⟩

/-- What an answer has can be read off an earlier session. -/
theorem mem_answer_iff_since {r : Session σ} (hgrown : r.Grows s)
    (htable : ∀ state, solver.table state = table) (hs : s.Grounded)
    (halone : (r.engine e).fallback = none)
    (hunlimited : (r.engine e).options.maxSteps = none)
    (hrun : (query (host solver steps depth) fuel e direction site).exec s =
      (.ok (some facts), t)) (path : AccessPath) :
    path ∈ facts.paths ↔ path = site.fact.path ∨
      ∃ call, r.program.call? site.stmt = some call ∧
        ∃ flows ∈ classFlows (r.summaries e (some site.stmt) call.callee) call.callee,
          r.CollectsAt table e direction site flows path := by
  have halone' : (s.engine e).fallback = none := (hgrown.engine e).fallback.trans halone
  have hunlimited' : (s.engine e).options.maxSteps = none := by
    rw [(hgrown.engine e).options]
    exact hunlimited
  rw [mem_answer_iff htable hs halone' hunlimited' hrun, hgrown.program]
  simp only [hgrown.summaries, hgrown.collectsAt]

end Engine

/-! ## Opened taints -/

namespace Taint

/-- The same place, possibly opened. -/
def Opens (t opened : Taint) : Prop := opened = t ∨ opened = t.withSubFields true

variable {t opened : Taint} {source sink : Endpoint}

protected theorem Opens.refl (t : Taint) : t.Opens t := .inl rfl

/-- An open taint agrees with every source that the closed one agrees with. -/
theorem agreesWith_withSubFields (h : t.agreesWith source = true) :
    (t.withSubFields true).agreesWith source = true := by
  unfold agreesWith at h ⊢
  by_cases hpath : t.path.isEmpty = true
  · simp [withSubFields, hpath]
  · rw [if_neg hpath] at h
    have hopen : (t.withSubFields true).path.isEmpty = t.path.isEmpty := rfl
    rw [hopen, if_neg hpath, if_neg (by simp [withSubFields])]
    split at h
    · cases h
    · exact h

theorem standsAt_withSubFields (h : t.standsAt source = true) :
    (t.withSubFields true).standsAt source = true := by
  have hrole : (t.withSubFields true).role = t.role := rfl
  have hgap : (t.withSubFields true).gap = t.gap := rfl
  have hagrees : ∀ {fits : Bool}, (fits && t.agreesWith source) = true →
      (fits && (t.withSubFields true).agreesWith source) = true := by
    intro fits hfits
    rw [Bool.and_eq_true] at hfits ⊢
    exact ⟨hfits.1, agreesWith_withSubFields hfits.2⟩
  unfold standsAt at h ⊢
  rw [hrole, hgap]
  split at h
  · exact hagrees h
  · exact hagrees h
  · exact h
  · split at h
    · exact hagrees h
    · exact hagrees h
  · exact h

/-- A flow that can be followed from a taint can be followed from the opened one. -/
theorem Opens.admits (h : t.Opens opened) {hierarchy : Hierarchy} {flow : Flow}
    (hadmits : hierarchy.admits flow t = true) : hierarchy.admits flow opened = true := by
  rcases h with rfl | rfl
  · exact hadmits
  · rw [Hierarchy.admits, Bool.and_eq_true] at hadmits ⊢
    exact ⟨hadmits.1, standsAt_withSubFields hadmits.2⟩

theorem Opens.typeTaken (h : t.Opens opened) (source : Endpoint) :
    opened.typeTaken source = t.typeTaken source := by
  rcases h with rfl | rfl <;> rfl

/-- A flow carries along whether a taint is open. -/
theorem Opens.movedTo (h : t.Opens opened) (source sink : Endpoint) (gap : Option Gap) :
    (t.movedTo source sink gap).Opens (opened.movedTo source sink gap) := by
  rcases h with rfl | rfl
  · exact .refl _
  · right
    show Taint.ofKind _ _ _ _ (sink.subFields || true) _ = _
    rw [Bool.or_true]
    rfl

theorem Opens.gap (h : t.Opens opened) : opened.gap = t.gap := by
  rcases h with rfl | rfl <;> rfl

theorem Opens.path (h : t.Opens opened) : opened.path = t.path := by
  rcases h with rfl | rfl <;> rfl

theorem Opens.lastType (h : t.Opens opened) : opened.lastType = t.lastType := by
  rcases h with rfl | rfl <;> rfl

end Taint

/-! ## Places of opened taints -/

/-- Which local a taint stands for inside a method depends on its role. -/
theorem Method.toOption_localInside (m : Method) {t other : Taint} (h : other.role = t.role) :
    (m.localInside other).toOption = (m.localInside t).toOption := by
  unfold localInside
  rw [h]
  cases t.role with
  | returned => rfl
  | parameter index =>
      simp only
      cases index.bind fun i => m.parameters[i]? <;> rfl
  | field =>
      simp only
      cases m.receiver <;> rfl
  | gapBase =>
      simp only
      cases m.receiver <;> rfl

/-- Which local a taint stands for at a call depends on its role. -/
theorem Stmt.toOption_localOnCall (stmt : Stmt) {t other : Taint} (h : other.role = t.role) :
    (stmt.localOnCall other).toOption = (stmt.localOnCall t).toOption := by
  unfold localOnCall
  rw [h]
  cases stmt.call? with
  | none => rfl
  | some call =>
      simp only
      cases t.role with
      | returned => rfl
      | parameter index =>
          simp only
          cases index.bind fun i => call.arguments[i]? <;> rfl
      | field =>
          simp only
          cases call.receiver <;> rfl
      | gapBase =>
          simp only
          cases call.receiver <;> rfl

theorem ExitTable.mem_exitsFor {table : ExitTable} {m : Method} {t : Taint} {exit : Exit} :
    exit ∈ table.exitsFor m t ↔ ∃ base fields, (m.localInside t).toOption = some base ∧
      t.fields? = some fields ∧ exit ∈ table m.id (.ofPath (t.toPath base fields true)) := by
  unfold exitsFor Method.pathInside
  cases m.localInside t with
  | error e => simp [Except.map, Except.toOption]
  | ok base =>
      cases hfields : t.fields? with
      | none => simp [Except.map, Except.toOption]
      | some fields => simp [Except.map, Except.toOption]

theorem Program.pathOnCall_eq_some_iff {p : Program} {t : Taint} {stmt : StmtId}
    {path : AccessPath} :
    p.pathOnCall t stmt = .ok (some path) ↔ ∃ found base fields, p.stmt? stmt = some found ∧
      (found.localOnCall t).toOption = some (some base) ∧ t.fields? = some fields ∧
      path = t.toPath base fields t.subFields := by
  unfold pathOnCall
  cases p.stmt? stmt with
  | none => simp
  | some found =>
      cases hlocal : found.localOnCall t with
      | error e => simp [hlocal, Except.map, Except.toOption]
      | ok base =>
          cases base with
          | none => simp [hlocal, Except.map, Except.toOption]
          | some l =>
              cases t.fields? with
              | none => simp [hlocal, Except.map]
              | some fields => simp [hlocal, Except.map, Except.toOption, eq_comm]

namespace Taint.Opens

variable {t opened : Taint}

theorem role (h : t.Opens opened) : opened.role = t.role := by
  rcases h with rfl | rfl <;> rfl

theorem fields? (h : t.Opens opened) : opened.fields? = t.fields? := by
  rcases h with rfl | rfl <;> rfl

theorem toPath (h : t.Opens opened) (base : LocalId) (fields : List PathField) (subFields : Bool) :
    opened.toPath base fields subFields = t.toPath base fields subFields := by
  rcases h with rfl | rfl <;> rfl

theorem subFields (h : t.Opens opened) (ht : t.subFields = true) : opened.subFields = true := by
  rcases h with rfl | rfl
  · exact ht
  · rfl

/-- The solver is sent into a method with the same seed whether a taint is open or not. -/
theorem mem_exitsFor_iff (h : t.Opens opened) (table : ExitTable) (m : Method) {exit : Exit} :
    exit ∈ table.exitsFor m opened ↔ exit ∈ table.exitsFor m t := by
  rw [ExitTable.mem_exitsFor, ExitTable.mem_exitsFor, m.toOption_localInside h.role, h.fields?]
  simp only [h.toPath]

end Taint.Opens

/-- The same path, possibly opened. -/
structure AccessPath.Opens (path opened : AccessPath) : Prop where
  base : opened.base = path.base
  baseType : opened.baseType = path.baseType
  fields : opened.fields = path.fields
  subFields : path.subFields = true → opened.subFields = true

/-- An open taint stands for the same path at a call, opened. -/
theorem Program.pathOnCall_opens {p : Program} {t opened : Taint} (h : t.Opens opened)
    {stmt : StmtId} {path : AccessPath} (hpath : p.pathOnCall t stmt = .ok (some path)) :
    ∃ path', p.pathOnCall opened stmt = .ok (some path') ∧ path.Opens path' := by
  obtain ⟨found, base, fields, hstmt, hlocal, hfields, rfl⟩ := pathOnCall_eq_some_iff.1 hpath
  rw [← found.toOption_localOnCall h.role] at hlocal
  rw [← h.fields?] at hfields
  refine ⟨opened.toPath base fields opened.subFields,
    pathOnCall_eq_some_iff.2 ⟨found, base, fields, hstmt, hlocal, hfields, rfl⟩, ?_⟩
  rw [h.toPath]
  exact ⟨rfl, rfl, rfl, h.subFields⟩

/-! ## Opened stacks -/

/-- The same layer, possibly opened, of a call at the same statement. -/
structure Layer.Opens (l opened : Layer) : Prop where
  taint : l.taint.Opens opened.taint
  gap : opened.gap = l.gap
  site : opened.site.map (·.stmt) = l.site.map (·.stmt)
  inverse : opened.inverse = l.inverse

/-- The same stack, possibly opened. -/
abbrev Stack.Opens (st opened : Stack) : Prop := List.Forall₂ Layer.Opens st opened

namespace Stack.Opens

variable {st opened : Stack}

/-- A taint leaves opened frames as it leaves closed ones. -/
theorem leave (h : st.Opens opened) {t t' : Taint} (ht : t.Opens t') :
    (Stack.leave t st).Opens (Stack.leave t' opened) := by
  cases h with
  | nil => exact .nil
  | cons htop hbelow =>
      cases hbelow with
      | nil => exact .cons ⟨ht, rfl, htop.site, rfl⟩ .nil
      | cons hcaller hrest => exact .cons ⟨ht, hcaller.gap, hcaller.site, rfl⟩ hrest

theorem invert (h : st.Opens opened) : st.invert.Opens opened.invert := by
  cases h with
  | nil => exact .nil
  | cons htop hbelow => exact .cons ⟨htop.taint, htop.gap, htop.site, rfl⟩ hbelow

theorem isSurface (h : st.Opens opened) : opened.isSurface = st.isSurface := by
  cases h with
  | nil => rfl
  | cons htop hbelow =>
      cases hbelow with
      | nil => rw [Stack.isSurface, Stack.isSurface, htop.taint.gap]
      | cons hcaller hrest => rfl

theorem mayAlias (h : st.Opens opened) :
    opened.head?.any Layer.mayAlias = st.head?.any Layer.mayAlias := by
  cases h with
  | nil => rfl
  | cons htop hbelow =>
      simp only [List.head?_cons, Option.any_some, Layer.mayAlias, htop.taint.path,
        htop.taint.lastType]

/-- The bottom of an opened stack stands for the same path, opened. -/
theorem pathAt (h : st.Opens opened) {program : Program} {path : AccessPath}
    (hpath : program.pathAt st = some path) :
    ∃ path', program.pathAt opened = some path' ∧ path.Opens path' := by
  cases h with
  | nil => cases hpath
  | @cons l l' below below' htop hbelow =>
      cases hbelow with
      | cons hcaller hrest => cases hpath
      | nil =>
          rw [Program.pathAt, Option.bind_eq_some_iff] at hpath
          obtain ⟨key, hkey, hpath⟩ := hpath
          have hsite := htop.site
          rw [hkey, Option.map_some, Option.map_eq_some_iff] at hsite
          obtain ⟨key', hkey', hstmt⟩ := hsite
          cases hfound : program.pathOnCall l.taint key.stmt with
          | error e => simp [hfound] at hpath
          | ok found =>
              simp only [hfound] at hpath
              subst hpath
              obtain ⟨path', hpath', hopens⟩ := Program.pathOnCall_opens htop.taint hfound
              refine ⟨path', ?_, hopens⟩
              rw [Program.pathAt, hkey', Option.bind_some, hstmt, hpath']

end Stack.Opens

namespace Hierarchy

theorem sinkTaint?_opens {h : Hierarchy} {source sink : Endpoint} {t opened moved : Taint}
    {gap : Option Gap} (hopens : t.Opens opened)
    (hmoved : h.sinkTaint? source sink t gap = some moved) :
    ∃ moved', h.sinkTaint? source sink opened gap = some moved' ∧ moved.Opens moved' := by
  obtain ⟨hfits, rfl⟩ := sinkTaint?_eq_some_iff.1 hmoved
  refine ⟨opened.movedTo source sink gap, sinkTaint?_eq_some_iff.2 ⟨?_, rfl⟩, hopens.movedTo _ _ _⟩
  rw [hopens.typeTaken]
  exact hfits

/-- Flows act on opened stacks as on closed ones. -/
theorem applyToStack?_opens {h : Hierarchy} {flow : Flow} {st opened out : Stack}
    (hopens : st.Opens opened) (hout : h.applyToStack? flow st = some out) :
    ∃ out', h.applyToStack? flow opened = some out' ∧ out.Opens out' := by
  cases hopens with
  | nil => cases hout
  | @cons top top' below below' htop hbelow =>
      have hstack : Stack.Opens (top :: below) (top' :: below') := .cons htop hbelow
      rw [applyToStack?] at hout
      split at hout
      · rename_i hadmits
        rw [applyToStack?, if_pos (htop.taint.admits hadmits), htop.gap]
        cases hgap : flow.sink.gap with
        | some gap =>
            simp only [hgap] at hout ⊢
            obtain ⟨moved, hmoved, rfl⟩ := Option.map_eq_some_iff.1 hout
            obtain ⟨moved', hmoved', hmoves⟩ := sinkTaint?_opens htop.taint hmoved
            refine ⟨⟨moved', some gap, none, false⟩ :: top' :: below', ?_,
              .cons ⟨hmoves, rfl, rfl, rfl⟩ hstack⟩
            rw [hmoved', Option.map_some]
        | none =>
            simp only [hgap] at hout ⊢
            obtain ⟨moved, hmoved, rfl⟩ := Option.map_eq_some_iff.1 hout
            obtain ⟨moved', hmoved', hmoves⟩ := sinkTaint?_opens htop.taint hmoved
            refine ⟨Stack.leave moved' (top' :: below'), ?_, hstack.leave hmoves⟩
            rw [hmoved', Option.map_some]
      · cases hout

end Hierarchy

/-! ## Opened replays -/

namespace Session

variable {s : Session σ} {table : ExitTable} {e : EngineId} {flows : FlowSet}
  {initial initial' : Stack → Prop} {st opened out : Stack}

/-- The same is left of the gap on top of an opened stack. -/
theorem leaves_opens (hopens : st.Opens opened) (hout : out ∈ s.leaves table st) :
    ∃ out' ∈ s.leaves table opened, out.Opens out' := by
  cases hopens with
  | nil => cases hout
  | @cons top top' below below' htop hbelow =>
      rw [leaves] at hout ⊢
      rw [htop.gap]
      cases hgap : top.gap with
      | none =>
          rw [hgap] at hout
          cases hout
      | some gap =>
          simp only [hgap, List.mem_flatMap, List.mem_map] at hout ⊢
          obtain ⟨m, hm, t, ht, rfl⟩ := hout
          have hexits : t ∈ s.program.exitTaints (table.exitsFor m top'.taint) (some gap) := by
            rw [Program.exitTaints, OrdSet.mem_toList, OrdSet.mem_ofList, List.mem_flatMap] at ht ⊢
            obtain ⟨exit, hexit, ht⟩ := ht
            exact ⟨exit, (htop.taint.mem_exitsFor_iff table m).2 hexit, ht⟩
          exact ⟨_, ⟨m, hm, t, hexits, rfl⟩,
            Stack.Opens.leave (.cons htop hbelow) (Taint.Opens.refl t)⟩

/-- A flow that leads somewhere leads from an opened stack to the same, opened. -/
theorem leads_opens (hopens : st.Opens opened) (hleads : (s.rules e flows).Leads st out) :
    ∃ out', (s.rules e flows).Leads opened out' ∧ out.Opens out' := by
  obtain ⟨top, below, flow, rfl, hflow, happlied⟩ := hleads
  obtain ⟨out', happlied', hout⟩ := Hierarchy.applyToStack?_opens hopens happlied
  cases hopens with
  | @cons _ top' _ below' htop hbelow =>
      have hflows : (s.rules e flows).flowsFrom top' = (s.rules e flows).flowsFrom top := by
        rw [Rules.flowsFrom, Rules.flowsFrom, htop.gap, htop.inverse]
      exact ⟨out', ⟨top', below', flow, rfl, hflows ▸ hflow, happlied'⟩, hout⟩

theorem kept_opens (hopens : out.Opens opened) (hkept : (s.rules e flows).Kept out) :
    (s.rules e flows).Kept opened := by
  intro hsurface
  rw [hopens.isSurface] at hsurface
  obtain ⟨path, hpath⟩ := Option.isSome_iff_exists.1 (hkept hsurface)
  obtain ⟨path', hpath', -⟩ := hopens.pathAt hpath
  exact Option.isSome_iff_exists.2 ⟨path', hpath'⟩

/-- What is reached from closed stacks is reached, opened, from open ones. -/
theorem reach_opens (hinitial : ∀ st, initial st → ∃ opened, initial' opened ∧ st.Opens opened)
    (h : (s.rules e flows).Reach (fun st out => out ∈ s.leaves table st) initial st) :
    ∃ opened, (s.rules e flows).Reach (fun st out => out ∈ s.leaves table st) initial' opened ∧
      st.Opens opened := by
  induction h with
  | start hst =>
      obtain ⟨opened, hopened, hopens⟩ := hinitial _ hst
      exact ⟨opened, .start hopened, hopens⟩
  | resolve _ unsummarised left ih =>
      obtain ⟨opened, hreach, hopens⟩ := ih
      obtain ⟨out', hout', hout⟩ := leaves_opens hopens left
      cases hopens with
      | @cons top top' below below' htop hbelow =>
          obtain ⟨gap, hgap, hempty⟩ := unsummarised
          exact ⟨out', .resolve hreach ⟨gap, htop.gap.trans hgap, hempty⟩ hout', hout⟩
  | follow _ leads kept ih =>
      obtain ⟨opened, hreach, hopens⟩ := ih
      obtain ⟨out', hleads, hout⟩ := leads_opens hopens leads
      exact ⟨out', .follow hreach hleads (kept_opens hout kept), hout⟩
  | invert _ leads kept may ih =>
      obtain ⟨opened, hreach, hopens⟩ := ih
      obtain ⟨out', hleads, hout⟩ := leads_opens hopens leads
      have hinvert := hout.invert
      have hmay := hout.mayAlias
      cases hout with
      | @cons first first' rest rest' hfirst hrest =>
          refine ⟨_, .invert hreach hleads (kept_opens (.cons hfirst hrest) kept) ?_, hinvert⟩
          simpa [may] using hmay

/-- What is collected from closed stacks is collected, opened, from open ones. -/
theorem collects_opens (hinitial : ∀ st, initial st → ∃ opened, initial' opened ∧ st.Opens opened)
    {path : AccessPath}
    (h : (s.rules e flows).Collects (fun st out => out ∈ s.leaves table st) initial path) :
    ∃ path', (s.rules e flows).Collects (fun st out => out ∈ s.leaves table st) initial' path' ∧
      path.Opens path' := by
  obtain ⟨st, out, hreach, hleads, hsurface, hpath⟩ := h
  obtain ⟨opened, hreach', hopens⟩ := reach_opens hinitial hreach
  obtain ⟨out', hleads', hout⟩ := leads_opens hopens hleads
  obtain ⟨path', hpath', hpaths⟩ := hout.pathAt hpath
  exact ⟨path', ⟨opened, out', hreach', hleads', hout.isSurface ▸ hsurface, hpath'⟩, hpaths⟩

/-- Queries about a fact and the opened fact start from stacks that stand for each
other. -/
theorem startsOf_opens (s : Session σ) {direction : Direction} {site site' : CallSite}
    (hstmt : site'.stmt = site.stmt)
    (hopened : site'.fact.path = { site.fact.path with subFields := true }) {st : Stack}
    (hst : st ∈ s.startsOf direction site) :
    ∃ opened, opened ∈ s.startsOf direction site' ∧ st.Opens opened := by
  obtain ⟨t, ht, rfl⟩ := List.mem_map.1 hst
  have hmem : ∃ role, t = site.fact.path.toTaint role none ∧
      site'.fact.path.toTaint role none ∈ (Engine.queried direction site' s).toList := by
    rw [Engine.queried, Program.taintsOnCall] at ht ⊢
    rw [hstmt]
    cases hfound : s.program.stmt? site.stmt with
    | none =>
        simp only [hfound] at ht
        cases ht
    | some stmt =>
        simp only [hfound, OrdSet.mem_toList, OrdSet.mem_ofList, List.mem_map] at ht ⊢
        obtain ⟨role, hrole, rfl⟩ := ht
        refine ⟨role, rfl, role, ?_, rfl⟩
        rw [hopened]
        exact hrole
  obtain ⟨role, rfl, hmem⟩ := hmem
  refine ⟨_, List.mem_map_of_mem hmem, .cons ⟨.inr ?_, rfl, ?_, rfl⟩ .nil⟩
  · show site'.fact.path.toTaint role none = _
    rw [hopened]
    rfl
  · show some site'.stmt = some site.stmt
    rw [hstmt]

end Session

/-- Opening sub-fields loses nothing. An engine without fallback and without limit is
asked about a call twice, in either direction: about some fact, and about the fact with
everything below its path. The two may be asked in either order, with anything else asked
in between, or apart from each other; all that counts is that both sessions have grown out
of one, as they do with every use (`Session.Grows.perform`), and every session that is
used is grounded (`Session.Tidy.perform`). If both are answered, every path of the first
answer is in the second with the same base, type and fields, and open if it was open. The
solver knows the same exits all the time. -/
theorem opening_sub_fields_loses_nothing (solver : Solver σ)
    (fixed : ∀ state state', solver.endSummary state = solver.endSummary state')
    {r s u : Session σ} (grown : r.Grows s) (grown' : r.Grows u) (grounded : s.Grounded)
    (grounded' : u.Grounded) (e : EngineId) (alone : (r.engine e).fallback = none)
    (unlimited : (r.engine e).options.maxSteps = none) (direction : Direction)
    (site site' : CallSite) (stmt : site'.stmt = site.stmt)
    (opened : site'.fact.path = { site.fact.path with subFields := true })
    {fuel fuel' steps steps' depth depth' : Nat} {facts facts' : FactSet} {t t' : Session σ}
    (first : (Engine.query (Engine.host solver steps depth) fuel e direction site).exec s =
      (.ok (some facts), t))
    (second : (Engine.query (Engine.host solver steps' depth') fuel' e direction site').exec u =
      (.ok (some facts'), t')) :
    ∀ path ∈ facts.paths, ∃ path' ∈ facts'.paths, path.Opens path' := by
  have htable : ∀ state, solver.table state = solver.table r.solver := by
    intro state
    funext m seed
    show (solver.endSummary state m seed).getD [] = (solver.endSummary r.solver m seed).getD []
    rw [fixed state r.solver]
  have hfirst := Engine.mem_answer_iff_since grown htable grounded alone unlimited first
  have hsecond := Engine.mem_answer_iff_since grown' htable grounded' alone unlimited second
  intro path hpath
  rcases (hfirst path).1 hpath with rfl | ⟨call, hcall, flows, hflows, hcollects⟩
  · refine ⟨site'.fact.path, (hsecond _).2 (.inl rfl), ?_⟩
    rw [opened]
    exact ⟨rfl, rfl, rfl, fun _ => rfl⟩
  · obtain ⟨path', hcollects', hopens⟩ :=
      r.collects_opens (fun st hst => r.startsOf_opens stmt opened hst) hcollects
    rw [stmt] at hsecond
    exact ⟨path', (hsecond path').2 (.inr ⟨call, hcall, flows, hflows, hcollects'⟩), hopens⟩

namespace Sample

/-- The call, asked about with everything below its argument. -/
def openSite : CallSite := { site with fact := .ofPath (localPath 1 true) }

theorem tidy_ready : ready.Tidy :=
  (Session.tidy_start hierarchy program Bodies.empty _ stores).perform returning 20 5 _

/-- A question about the call, where the solver knows that the callback returns its
parameter. -/
def asksAbout (asked : CallSite) : Run (List PathEdge × List AnalysisError) (Option FactSet) :=
  Engine.query (Engine.host returning.recording 20 5) 20 0 .forward asked

/-- The argument, and what the callback returns of it, are found for the open argument too,
after the closed one was asked about and the callback was left. -/
theorem openSite_loses_nothing : ∃ facts facts' closed opened,
    (asksAbout site).exec ready = (.ok (some facts), closed) ∧
    (asksAbout openSite).exec (ready.perform returning 20 5 past).2 =
      (.ok (some facts'), opened) ∧
    (∃ path ∈ facts'.paths, (localPath 1 false).Opens path) ∧
    ∃ path ∈ facts'.paths, (localPath 2 true).Opens path := by
  have hclosed : (((asksAbout site).exec ready).1.toOption.filter fun reply =>
      reply.any fun facts => localPath 1 false ∈ facts.paths ∧
        localPath 2 true ∈ facts.paths).isSome = true := by decide +kernel
  have hopen : (((asksAbout openSite).exec
      (ready.perform returning 20 5 past).2).1.toOption.filter Option.isSome).isSome = true := by
    decide +kernel
  obtain ⟨reply, hreply⟩ := Option.isSome_iff_exists.1 hclosed
  obtain ⟨hreply, hfacts⟩ := Option.filter_eq_some_iff.1 hreply
  obtain ⟨facts, rfl, hmem⟩ := (Option.any_eq_true _ _).1 hfacts
  obtain ⟨hargument, hreturned⟩ := of_decide_eq_true hmem
  obtain ⟨reply', hreply'⟩ := Option.isSome_iff_exists.1 hopen
  obtain ⟨hreply', hfacts'⟩ := Option.filter_eq_some_iff.1 hreply'
  obtain ⟨facts', rfl⟩ := Option.isSome_iff_exists.1 hfacts'
  have hfirst := Run.exec_of_value hreply
  have hsecond := Run.exec_of_value hreply'
  have hopens := opening_sub_fields_loses_nothing returning.recording (fun _ _ => rfl) (.refl ready)
    (.perform tidy_ready returning 20 5 (by decide +kernel)) tidy_ready.sound.grounded
    (tidy_ready.perform returning 20 5 past).sound.grounded 0 (by decide +kernel)
    (by decide +kernel) .forward site openSite rfl rfl hfirst hsecond
  exact ⟨facts, facts', _, _, hfirst, hsecond, hopens _ hargument, hopens _ hreturned⟩

end Sample

end TaintReplay
