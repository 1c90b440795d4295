import TaintReplay.Proofs.Phantoms
import TaintReplay.Proofs.Stacks

/-!
# How a session grows

While engines work, a session only grows: classes are mentioned, summaries are
remembered, propagators are interned and replays are entered as waiting.
`Session.Grows` says what stays as it is. The answers that replays depend on
stay too: what a lookup finds (`Session.summaries`, `Session.gapFlows`), the
stacks of stored propagators, and what flows make of them. The first and the last of
these do not depend on who is connected or held, and stay when that changes too
(`Session.Serves`).

## Main results

* `Engine.found_learn`: remembering what was found does not change what is found.
* `Session.Serves.gapFlows`, `Session.Serves.summaries`: lookups find the same later.
* `Session.Serves.applyToStack?`: flows do the same later.
-/

namespace TaintReplay

/-! ## Tables -/

namespace Memo

variable {κ ν : Type} [Ord κ] [Std.TransOrd κ] [Std.LawfulEqOrd κ] [DecidableEq κ]

theorem get?_touch (m : Memo κ ν) (k other : κ) : (m.touch k).get? other = m.get? other := by
  by_cases h : other = k
  · subst h
    rw [get?, get?, touch, OrdMap.find?_alter_self]
    cases m.entries.find? other <;> rfl
  · rw [get?, get?, touch, OrdMap.find?_alter_of_ne h]

theorem get?_store (m : Memo κ ν) (k other : κ) (v : ν) :
    (m.store k v).get? other = if other = k then some v else m.get? other := by
  by_cases h : other = k
  · subst h
    rw [get?, store, OrdMap.find?_insert_self, if_pos rfl]
    rfl
  · rw [get?, get?, store, OrdMap.find?_insert_of_ne h, if_neg h]

/-- A value that takes no nested request to load is there afterwards, and was not
replaced if it was there. -/
theorem get?_compute (m : Memo κ ν) (k other : κ) (v : ν) :
    (m.compute k fun m => (m, some v)).1.get? other =
      if other = k then some ((m.get? k).getD v) else m.get? other := by
  unfold compute
  cases hk : m.get? k with
  | some old =>
      show (Memo.get? _ other) = _
      by_cases h : other = k
      · subst h
        simpa [get?] using hk
      · simp [h, get?]
  | none =>
      show ((m.touch k).store k v).get? other = _
      rw [get?_store, get?_touch]
      simp

omit [Std.LawfulEqOrd κ] in
theorem snd_compute (m : Memo κ ν) (k : κ) (v : ν) :
    (m.compute k fun m => (m, some v)).2 = some ((m.get? k).getD v) := by
  unfold compute
  cases m.get? k <;> rfl

end Memo

/-- A value is among those of a key after it was put there, or if it was before. -/
theorem MultiMap.contains_put {κ ν : Type} [Ord κ] [Ord ν] [Std.TransOrd κ] [Std.LawfulEqOrd κ]
    [Std.TransOrd ν] [Std.LawfulEqOrd ν] [DecidableEq κ] [DecidableEq ν] (m : MultiMap κ ν)
    (k k' : κ) (v v' : ν) :
    (m.put k v).contains k' v' = true ↔ k' = k ∧ v' = v ∨ m.contains k' v' = true := by
  unfold contains put find?
  by_cases h : k' = k
  · subst h
    rw [OrdMap.find?_alter_self]
    cases m.table.find? k' with
    | none => simp [OrdSet.mem_insert]
    | some old => simp [OrdSet.mem_insert]
  · rw [OrdMap.find?_alter_of_ne h]
    simp [h]

/-! ## Lookups -/

namespace Engine

/-- What an engine finds for a method in several classes. -/
def found (engine : Engine) (classes : OrdSet String) (subSignature : String) : ClassSummaries :=
  (engine.memo.get? ⟨classes, subSignature⟩).getD (engine.store.methodFlows classes subSignature)

/-- The memo of an engine after it has looked for a key. -/
def learn (engine : Engine) (key : LookupKey) : Memo LookupKey ClassSummaries :=
  (engine.memo.compute key fun memo =>
    (memo, some (engine.store.methodFlows key.classes key.subSignature))).1

/-- Remembering what was found does not change what is found. -/
theorem found_learn (engine : Engine) (key : LookupKey) (classes : OrdSet String)
    (subSignature : String) :
    found { engine with memo := engine.learn key } classes subSignature =
      engine.found classes subSignature := by
  rw [found, found, learn]
  show (Memo.get? _ _).getD (engine.store.methodFlows classes subSignature) = _
  rw [Memo.get?_compute]
  by_cases h : (⟨classes, subSignature⟩ : LookupKey) = key
  · subst h
    simp
  · rw [if_neg h]

end Engine

namespace Session

variable {σ : Type}

/-- The summaries that apply when a method is called. -/
def summaries (s : Session σ) (e : EngineId) (stmt : Option StmtId) (callee : MethodSignature) :
    ClassSummaries :=
  let targets := (stmt.map fun stmt => s.program.targetClasses s.hierarchy stmt).getD OrdSet.empty
  let first :=
    if targets.isEmpty then ClassSummaries.empty
    else (s.engine e).found targets callee.subSignature
  if first.isEmpty then
    (s.engine e).found (s.hierarchy.instanceClasses (s.program.staticClass stmt callee))
      callee.subSignature
  else first

/-- The flows stored for a signature, none if it is unreadable. -/
def storedFlows (s : Session σ) (e : EngineId) (signature : String) : FlowSet :=
  match (s.engine e).store.flowsForSignature signature with
  | .ok flows => flows
  | .error _ => OrdSet.empty

/-- The flows of the method called in a gap. -/
def gapFlows (s : Session σ) (e : EngineId) (g : Gap) : FlowSet :=
  let method := (s.program.findMethod? g.signature).bind s.program.method?
  let flows := (method.map fun m => (s.summaries e none m.signature).allFlows).getD OrdSet.empty
  if flows.isEmpty then s.storedFlows e g.signature else flows

/-! ## Parts of a changed session -/

theorem engine_modifyEngine (s : Session σ) (e k : EngineId) (f : Engine → Engine) :
    (s.modifyEngine e f).engine k =
      if k = e ∧ e < s.engines.length then f (s.engine e) else s.engine k := by
  unfold engine modifyEngine
  rw [List.getElem?_modify]
  by_cases hk : k = e
  · subst hk
    by_cases hlt : k < s.engines.length
    · simp [hlt]
    · simp [hlt]
  · have hne : e ≠ k := fun h => hk h.symm
    simp [hk, hne]

theorem arena_set (s : Session σ) (a k : Nat) (arena : Arena) (ha : a < s.arenas.length) :
    ({ s with arenas := s.arenas.set a arena } : Session σ).arena k =
      if k = a then arena else s.arena k := by
  show ((s.arenas.set a arena)[k]?).getD Arena.empty = _
  rw [List.getElem?_set]
  by_cases hk : a = k
  · subst hk
    simp [ha]
  · have hne : k ≠ a := fun h => hk h.symm
    simp [hk, hne, Session.arena]

/-- An arena with something in it belongs to the session. -/
theorem lt_of_get? {s : Session σ} {a : Nat} {id : PropagatorId} {p : Propagator}
    (h : (s.arena a).get? id = some p) : a < s.arenas.length := by
  by_cases ha : a < s.arenas.length
  · exact ha
  · rw [Session.arena, List.getElem?_eq_none (Nat.le_of_not_lt ha), Option.getD_none,
      Arena.get?_eq] at h
    simp at h

end Session

/-! ## Service -/

/-- The program is the same, some classes may have been mentioned, and engines have
the same summaries and fall back on the same ones. -/
structure Session.Serves {σ : Type} (s t : Session σ) : Prop where
  program : t.program = s.program
  hierarchy : ∃ names, t.hierarchy = s.hierarchy.ensureAll names
  engines : t.engines.length = s.engines.length
  store : ∀ e, (t.engine e).store = (s.engine e).store
  fallback : ∀ e, (t.engine e).fallback = (s.engine e).fallback
  found : ∀ e classes subSignature,
    (t.engine e).found classes subSignature = (s.engine e).found classes subSignature

namespace Session.Serves

variable {σ : Type} {s t u : Session σ}

theorem trans (h : s.Serves t) (h' : t.Serves u) : s.Serves u where
  program := h'.program.trans h.program
  hierarchy := by
    obtain ⟨names, hnames⟩ := h.hierarchy
    obtain ⟨names', hnames'⟩ := h'.hierarchy
    refine ⟨names ++ names', ?_⟩
    rw [hnames', hnames, Hierarchy.ensureAll, Hierarchy.ensureAll, Hierarchy.ensureAll,
      List.foldl_append]
  engines := h'.engines.trans h.engines
  store e := (h'.store e).trans (h.store e)
  fallback e := (h'.fallback e).trans (h.fallback e)
  found e classes sub := (h'.found e classes sub).trans (h.found e classes sub)

/-- Whatever a mention leaves alone is the same later. -/
theorem hierarchy_eq (h : s.Serves t) {β : Type} (f : Hierarchy → β)
    (same : ∀ h name, f (Hierarchy.ensure h name) = f h) : f t.hierarchy = f s.hierarchy := by
  obtain ⟨names, hnames⟩ := h.hierarchy
  rw [hnames, Hierarchy.ensureAll_eq _ same]

theorem summaries (h : s.Serves t) (e : EngineId) (stmt : Option StmtId) (callee : MethodSignature) :
    t.summaries e stmt callee = s.summaries e stmt callee := by
  have htargets : ∀ stmt, s.program.targetClasses t.hierarchy stmt =
      s.program.targetClasses s.hierarchy stmt :=
    fun stmt => h.hierarchy_eq (fun k => s.program.targetClasses k stmt)
      fun k name => Program.targetClasses_ensure s.program k name stmt
  have hclasses : ∀ name, t.hierarchy.instanceClasses name = s.hierarchy.instanceClasses name :=
    fun name => h.hierarchy_eq (fun k => k.instanceClasses name)
      fun k other => Hierarchy.instanceClasses_ensure k other name
  simp only [Session.summaries, h.program, htargets, hclasses, h.found e]

theorem gapFlows (h : s.Serves t) (e : EngineId) (g : Gap) : t.gapFlows e g = s.gapFlows e g := by
  simp only [Session.gapFlows, Session.storedFlows, h.program, h.summaries, h.store e]

theorem canEnter (h : s.Serves t) (m : Method) :
    Engine.canEnter t.hierarchy m = Engine.canEnter s.hierarchy m :=
  h.hierarchy_eq (fun k => Engine.canEnter k m) fun k name => Engine.canEnter_ensure k name m

theorem implementors (h : s.Serves t) (m : Method) :
    t.program.implementors t.hierarchy m = s.program.implementors s.hierarchy m := by
  rw [h.program]
  exact h.hierarchy_eq (fun k => s.program.implementors k m)
    fun k name => Program.implementors_ensure s.program k name m

/-- The same engines are asked in turn. -/
theorem chain (h : s.Serves t) (e : EngineId) : t.chain e = s.chain e := by
  have hfrom : ∀ fuel e, t.chainFrom fuel e = s.chainFrom fuel e := by
    intro fuel
    induction fuel with
    | zero => exact fun _ => rfl
    | succ fuel ih =>
        intro e
        rw [Session.chainFrom, Session.chainFrom, h.fallback e]
        cases (s.engine e).fallback with
        | none => rfl
        | some fallback => exact congrArg (e :: ·) (ih fallback)
  rw [Session.chain, Session.chain, h.engines, hfrom]

end Session.Serves

/-- An engine that changes in other respects finds what it did. -/
theorem Session.serves_modifyEngine {σ : Type} (s : Session σ) (e : EngineId) {f : Engine → Engine}
    (store : ∀ engine, (f engine).store = engine.store)
    (fallback : ∀ engine, (f engine).fallback = engine.fallback)
    (memo : ∀ engine, (f engine).memo = engine.memo) : s.Serves (s.modifyEngine e f) := by
  have hengine : ∀ k, (s.modifyEngine e f).engine k = s.engine k ∨
      (s.modifyEngine e f).engine k = f (s.engine k) := by
    intro k
    rw [Session.engine_modifyEngine]
    split
    · rename_i hk
      exact .inr (by rw [hk.1])
    · exact .inl rfl
  refine ⟨rfl, ⟨[], rfl⟩, by simp [Session.modifyEngine], fun k => ?_, fun k => ?_, fun k _ _ => ?_⟩
  · rcases hengine k with h | h <;> simp [h, store]
  · rcases hengine k with h | h <;> simp [h, fallback]
  · rcases hengine k with h | h <;> simp [h, Engine.found, store, memo]

/-! ## Growth -/

/-- An engine has the same summaries and settings, and more may be waiting. -/
structure Engine.Grows (a b : Engine) : Prop where
  store : b.store = a.store
  options : b.options = a.options
  fallback : b.fallback = a.fallback
  held : b.held = a.held
  connected : b.connected = a.connected
  found : ∀ classes subSignature, b.found classes subSignature = a.found classes subSignature
  waiting : ∀ seed c, a.waiting.contains seed c = true → b.waiting.contains seed c = true

theorem Engine.Grows.refl (a : Engine) : a.Grows a :=
  ⟨rfl, rfl, rfl, rfl, rfl, fun _ _ => rfl, fun _ _ => id⟩

theorem Engine.Grows.trans {a b c : Engine} (h : a.Grows b) (h' : b.Grows c) : a.Grows c where
  store := h'.store.trans h.store
  options := h'.options.trans h.options
  fallback := h'.fallback.trans h.fallback
  held := h'.held.trans h.held
  connected := h'.connected.trans h.connected
  found classes sub := (h'.found classes sub).trans (h.found classes sub)
  waiting seed k hk := h'.waiting seed k (h.waiting seed k hk)

/-- The program is the same, some classes may have been mentioned, engines and
arenas have grown. -/
structure Session.Grows {σ : Type} (s t : Session σ) : Prop where
  program : t.program = s.program
  hierarchy : ∃ names, t.hierarchy = s.hierarchy.ensureAll names
  listener : t.listener = s.listener
  engines : t.engines.length = s.engines.length
  engine : ∀ e, (s.engine e).Grows (t.engine e)
  arenas : s.arenas.length ≤ t.arenas.length
  arena : ∀ a, (s.arena a).Within (t.arena a)

namespace Session.Grows

variable {σ : Type} {s t u : Session σ}

theorem refl (s : Session σ) : s.Grows s :=
  ⟨rfl, ⟨[], rfl⟩, rfl, rfl, fun _ => .refl _, Nat.le_refl _, fun _ => .refl _⟩

theorem serves (h : s.Grows t) : s.Serves t where
  program := h.program
  hierarchy := h.hierarchy
  engines := h.engines
  store e := (h.engine e).store
  fallback e := (h.engine e).fallback
  found e := (h.engine e).found

theorem trans (h : s.Grows t) (h' : t.Grows u) : s.Grows u where
  program := h'.program.trans h.program
  hierarchy := (h.serves.trans h'.serves).hierarchy
  listener := h'.listener.trans h.listener
  engines := h'.engines.trans h.engines
  engine e := (h.engine e).trans (h'.engine e)
  arenas := Nat.le_trans h.arenas h'.arenas
  arena a := (h.arena a).trans (h'.arena a)

theorem summaries (h : s.Grows t) (e : EngineId) (stmt : Option StmtId) (callee : MethodSignature) :
    t.summaries e stmt callee = s.summaries e stmt callee :=
  h.serves.summaries e stmt callee

theorem gapFlows (h : s.Grows t) (e : EngineId) (g : Gap) : t.gapFlows e g = s.gapFlows e g :=
  h.serves.gapFlows e g

theorem canEnter (h : s.Grows t) (m : Method) :
    Engine.canEnter t.hierarchy m = Engine.canEnter s.hierarchy m :=
  h.serves.canEnter m

/-- The engines that can be reached stay the same. -/
theorem isAlive (h : s.Grows t) (e : EngineId) : t.isAlive e = s.isAlive e := by
  have htest : (fun k => (t.engine k).held && (t.chain k).contains e) =
      fun k => (s.engine k).held && (s.chain k).contains e := by
    funext k
    rw [(h.engine k).held, h.serves.chain]
  rw [Session.isAlive, Session.isAlive, h.engines, htest]

/-- A stored propagator is still stored. -/
theorem get? (h : s.Grows t) {a : Nat} {id : PropagatorId} {p : Propagator}
    (hp : (s.arena a).get? id = some p) : (t.arena a).get? id = some p :=
  (h.arena a).get? hp

end Session.Grows

namespace Hierarchy

variable (h : Hierarchy) (name : String)

theorem admits_ensure (flow : Flow) (t : Taint) :
    (h.ensure name).admits flow t = h.admits flow t := by
  simp only [admits, castCompatible_ensure]

theorem fits_ensure (type : JavaType) (sink : Endpoint) :
    (h.ensure name).fits type sink = h.fits type sink := by
  simp only [fits, castCompatible_ensure]

theorem sinkTaint?_ensure (source sink : Endpoint) (t : Taint) (gap : Option Gap) :
    (h.ensure name).sinkTaint? source sink t gap = h.sinkTaint? source sink t gap := by
  rw [sinkTaint?, sinkTaint?, fits_ensure]

/-- Flows do the same after a mention. -/
theorem applyToStack?_ensure (flow : Flow) (st : Stack) :
    (h.ensure name).applyToStack? flow st = h.applyToStack? flow st := by
  cases st with
  | nil => rfl
  | cons top below => rw [applyToStack?, applyToStack?, admits_ensure, sinkTaint?_ensure,
      sinkTaint?_ensure]

end Hierarchy

/-- Flows do the same later. -/
theorem Session.Serves.applyToStack? {σ : Type} {s t : Session σ} (h : s.Serves t) (flow : Flow)
    (st : Stack) : t.hierarchy.applyToStack? flow st = s.hierarchy.applyToStack? flow st :=
  h.hierarchy_eq (fun k => k.applyToStack? flow st)
    fun k name => Hierarchy.applyToStack?_ensure k name flow st

end TaintReplay
