import Mathlib.Data.List.Nodup
import TaintReplay.Proofs.Signatures

/-!
# How the parts of a program are arranged

In a program that was created part by part, methods are found by every text of their signature
and by no other, since signatures can be told from their written forms. No two methods have a
local in common. Each statement is listed once, by its own method, and going from statement to
statement passes through a method in order and comes to an end.

## Main results

* `Program.Built.arranged`: what each part preserves.
* `Program.Built.findMethod?_eq_some_iff`: what is found by the text of a signature.
* `Program.Consistent.walk_iff`: what is passed through from a statement on.
-/

namespace TaintReplay

namespace Method

/-- The locals that a method comes with: its receiver and its parameters. -/
def ownLocals (m : Method) : List LocalId := m.receiver.toList ++ m.parameters

theorem ownLocals_withStmt (m : Method) (id : MethodId) (s : StmtId) :
    (m.withStmt id s).ownLocals = m.ownLocals := by
  unfold withStmt
  split <;> rfl

end Method

namespace Program

/-! ## Numbers -/

section Numbers

variable {α : Type} {items : List α}

theorem nth?_append_left {more : List α} {n : Nat} {x : α} (h : nth? items n = some x) :
    nth? (items ++ more) n = some x := by
  cases n with
  | zero => cases h
  | succ n =>
      have hlt : n < items.length := (List.getElem?_eq_some_iff.1 h).1
      show (items ++ more)[n]? = some x
      rw [List.getElem?_append_left hlt]
      exact h

/-- What is found behind the items of a list. -/
theorem nth?_append_length (items more : List α) (i : Nat) :
    nth? (items ++ more) (items.length + 1 + i) = more[i]? := by
  rw [Nat.add_right_comm]
  show (items ++ more)[items.length + i]? = more[i]?
  rw [List.getElem?_append_right (Nat.le_add_right _ _), Nat.add_sub_cancel_left]

theorem nth?_append_cases {more : List α} {n : Nat} {x : α} (h : nth? (items ++ more) n = some x) :
    nth? items n = some x ∨ x ∈ more := by
  cases n with
  | zero => cases h
  | succ n =>
      change (items ++ more)[n]? = some x at h
      by_cases hlt : n < items.length
      · rw [List.getElem?_append_left hlt] at h
        exact .inl h
      · rw [List.getElem?_append_right (Nat.le_of_not_lt hlt)] at h
        exact .inr (List.mem_of_getElem? h)

theorem le_length_of_nth? {n : Nat} {x : α} (h : nth? items n = some x) : n ≤ items.length := by
  cases n with
  | zero => exact Nat.zero_le _
  | succ n => exact (List.getElem?_eq_some_iff.1 h).1

end Numbers

/-! ## Locals of methods -/

/-- The declarations that a method comes with: its receiver and its parameters. -/
def frame (id : MethodId) (signature : MethodSignature) (isStatic : Bool) : List LocalDecl :=
  receiverDecls id signature isStatic ++ parameterDecls id signature

theorem method_of_mem_frame {id : MethodId} {signature : MethodSignature} {isStatic : Bool}
    {d : LocalDecl} (h : d ∈ frame id signature isStatic) : d.method = id := by
  rcases List.mem_append.1 h with hreceiver | hparameter
  · cases isStatic with
    | true => cases hreceiver
    | false => rw [List.mem_singleton.1 hreceiver]
  · obtain ⟨i, hi, rfl⟩ := List.mem_mapIdx.1 hparameter
    rfl

/-- A new method gets the locals behind those there are, in the order of their declarations. -/
theorem ownLocals_nextMethod (p : Program) (signature : MethodSignature)
    (isStatic isAbstract : Bool) :
    (p.nextMethod signature isStatic isAbstract).1.ownLocals =
      (List.range (frame p.nextMethodId signature isStatic).length).map fun i =>
        ⟨p.locals.length + 1 + i⟩ := by
  cases isStatic with
  | true => simp [Method.ownLocals, nextMethod, frame, receiverDecls, declareAll, declareAll_fst]
  | false =>
      have hnext : ∀ i, p.locals.length + 1 + 1 + i = p.locals.length + 1 + (i + 1) := by omega
      simp [Method.ownLocals, nextMethod, frame, receiverDecls, declareAll_fst, locals_declareAll,
        List.range_succ_eq_map, hnext]

theorem locals_createMethod {p : Program} {signature : MethodSignature} {isStatic isAbstract : Bool}
    {new : p.findText? signature.render = none} :
    (p.createMethod signature isStatic isAbstract new).locals =
      p.locals ++ frame p.nextMethodId signature isStatic := by
  rw [frame, ← List.append_assoc]
  exact (locals_declareAll _ _).trans (congrArg (· ++ _) (locals_declareAll _ _))

/-! ## What each part preserves -/

variable {p q : Program} {part : Part}

/-- Statements are found under their numbers, no signature is written like another, and no two
methods have a local in common; a method's own locals are declared in it. -/
structure Arranged (p : Program) : Prop where
  numbered : ∀ ⦃s stmt⦄, p.stmt? s = some stmt → stmt.id = s
  written : (p.methods.map (·.signature.render)).Nodup
  apart : (p.methods.flatMap Method.ownLocals).Nodup
  declared : ∀ m ∈ p.methods, ∀ l ∈ m.ownLocals, ∃ d, p.local? l = some d ∧ d.method = m.id

theorem arranged_empty : empty.Arranged := by
  refine ⟨fun s stmt hs => ?_, List.nodup_nil, List.nodup_nil, fun m hm => absurd hm List.not_mem_nil⟩
  cases (nth?_nil s.number).symm.trans hs

/-- The locals of a new method are none of those there are, and all different. -/
theorem Arranged.apart_nextMethod (h : p.Arranged) (signature : MethodSignature)
    (isStatic isAbstract : Bool) :
    ((p.methods ++ [(p.nextMethod signature isStatic isAbstract).1]).flatMap
      Method.ownLocals).Nodup := by
  rw [List.flatMap_append, List.flatMap_singleton, ownLocals_nextMethod]
  refine List.Nodup.append h.apart (List.nodup_range.map fun i j hij => ?_) fun l hold hnew => ?_
  · have hnumber := congrArg LocalId.number hij
    simp only at hnumber
    omega
  · obtain ⟨m, hm, hl⟩ := List.mem_flatMap.1 hold
    obtain ⟨d, hd, -⟩ := h.declared m hm l hl
    obtain ⟨i, -, rfl⟩ := List.mem_map.1 hnew
    have hle := le_length_of_nth? hd
    simp only at hle
    omega

theorem Arranged.createMethod (h : p.Arranged) {signature : MethodSignature}
    {isStatic isAbstract : Bool} (new : p.findText? signature.render = none) :
    (p.createMethod signature isStatic isAbstract new).Arranged where
  numbered s stmt hs := h.numbered ((stmt?_createMethod new s).symm.trans hs)
  written := by
    -- the text of the signature was looked for and not found
    rw [findText?_eq, Option.map_eq_none_iff, List.find?_eq_none] at new
    rw [methods_createMethod, List.map_append, List.map_singleton]
    refine List.Nodup.append h.written (List.nodup_singleton _) fun text hold hnew => ?_
    obtain ⟨m, hm, rfl⟩ := List.mem_map.1 hold
    exact new m hm (beq_iff_eq.2 (List.mem_singleton.1 hnew))
  apart := by
    rw [methods_createMethod]
    exact h.apart_nextMethod signature isStatic isAbstract
  declared := by
    rw [methods_createMethod]
    intro m hm l hl
    rw [local?, locals_createMethod]
    rcases List.mem_append.1 hm with hold | hnew
    · obtain ⟨d, hd, hmethod⟩ := h.declared m hold l hl
      exact ⟨d, nth?_append_left hd, hmethod⟩
    · obtain rfl := List.mem_singleton.1 hnew
      rw [ownLocals_nextMethod] at hl
      obtain ⟨i, hi, rfl⟩ := List.mem_map.1 hl
      have hlt := List.mem_range.1 hi
      refine ⟨_, (nth?_append_length p.locals _ i).trans (List.getElem?_eq_getElem hlt), ?_⟩
      exact method_of_mem_frame (List.getElem_mem hlt)

theorem Arranged.pushStmt (h : p.Arranged) (id : MethodId) (action : Action) :
    (p.pushStmt id action).Arranged where
  numbered s stmt hs := by
    rcases stmt?_pushStmt.1 hs with hold | ⟨rfl, rfl⟩
    · exact h.numbered hold
    · rfl
  written := by
    simp only [Program.pushStmt, List.map_map, Function.comp_def, Method.signature_withStmt]
    exact h.written
  apart := by
    simp only [Program.pushStmt, List.flatMap_map, Method.ownLocals_withStmt]
    exact h.apart
  declared m hm l hl := by
    obtain ⟨n, hn, rfl⟩ := List.mem_map.1 hm
    rw [Method.ownLocals_withStmt] at hl
    rw [Method.id_withStmt]
    exact h.declared n hn l hl

theorem Arranged.adds (h : p.Arranged) (added : p.Adds part q) : q.Arranged := by
  cases added with
  | method read new => exact h.createMethod new
  | declare =>
      refine ⟨h.numbered, h.written, h.apart, fun m hm l hl => ?_⟩
      obtain ⟨d, hd, hmethod⟩ := h.declared m hm l hl
      exact ⟨d, nth?_append_left hd, hmethod⟩
  | stmt known concrete => exact h.pushStmt _ _
  | target => exact ⟨h.numbered, h.written, h.apart, h.declared⟩

theorem Built.arranged (h : p.Built) : p.Arranged :=
  h.induction arranged_empty fun hp added => hp.adds added

variable {id : MethodId} {m : Method}

/-- Parameters are found where they are, since they are all different. -/
theorem Arranged.parameterIndex?_eq_some_iff (h : p.Arranged) (hm : m ∈ p.methods) (l : LocalId)
    (i : Nat) : m.parameterIndex? l = some i ↔ m.parameters[i]? = some l := by
  have hown : m.ownLocals.Nodup := (List.nodup_flatMap.1 h.apart).1 m hm
  have hparameters : m.parameters.Nodup := (List.nodup_append.1 hown).2.1
  exact idxOf?_eq_some_iff_of_nodup hparameters

/-! ## Methods by text -/

/-- A text finds the method whose signature is written like it. -/
theorem Built.findText?_eq_some_iff (h : p.Built) {text : String} :
    p.findText? text = some id ↔ ∃ m, p.method? id = some m ∧ m.signature.render = text := by
  constructor
  · intro hfound
    obtain ⟨n, hn, rfl⟩ := Option.map_eq_some_iff.1 ((p.findText?_eq text).symm.trans hfound)
    obtain ⟨i, hi⟩ := List.mem_iff_getElem?.1 (List.mem_of_find?_eq_some hn)
    have hplace : p.method? ⟨i + 1⟩ = some n := hi
    have hwritten := List.find?_some hn
    exact ⟨n, h.consistent.numbered hplace ▸ hplace, beq_iff_eq.1 hwritten⟩
  · rintro ⟨m, hm, rfl⟩
    have hmem := mem_methods hm
    have hfound : (p.methods.find? fun n => n.signature.render == m.signature.render).isSome := by
      rw [List.find?_isSome]
      exact ⟨m, hmem, beq_self_eq_true _⟩
    obtain ⟨n, hn⟩ := Option.isSome_iff_exists.1 hfound
    have hwritten := List.find?_some hn
    -- no other signature is written like this
    have hsame : n = m := List.inj_on_of_nodup_map h.arranged.written
      (List.mem_of_find?_eq_some hn) hmem (beq_iff_eq.1 hwritten)
    rw [findText?_eq, hn, hsame, Option.map_some, h.consistent.numbered hm]

/-- A text of a signature finds the method that has it. -/
theorem Built.findMethod?_eq_some_iff (h : p.Built) (text : String) (id : MethodId) :
    p.findMethod? text = some id ↔
      ∃ m, p.method? id = some m ∧ MethodSignature.parse text = .ok m.signature := by
  unfold findMethod?
  cases hread : MethodSignature.parse text with
  | error e => simp
  | ok signature =>
      simp only [h.findText?_eq_some_iff, Except.ok.injEq]
      refine exists_congr fun m => and_congr_right fun hm => ?_
      have hlegible := (h.declared m (mem_methods hm)).legible
      constructor
      · exact fun hwritten =>
          (hlegible.eq_of_render_eq (MethodSignature.legible_of_parse hread) hwritten).symm
      · rintro rfl
        rfl

/-! ## Through a method -/

/-- A method lists its own statements once and no others. -/
theorem Consistent.count_stmts (h : p.Consistent) {s : StmtId} {stmt : Stmt}
    (hs : p.stmt? s = some stmt) (hm : p.method? id = some m) :
    m.stmts.count s = if id = stmt.method then 1 else 0 := by
  by_cases howner : id = stmt.method
  · obtain ⟨owner, howns, hlisted⟩ := h.listed hs
    rw [← howner, hm] at howns
    obtain rfl := Option.some.inj howns
    rw [if_pos howner, List.count_eq_one_of_mem (h.nodup hm) hlisted]
  · rw [if_neg howner, List.count_eq_zero]
    intro hlisted
    obtain ⟨stmt', hs', howner'⟩ := h.owned hm s hlisted
    rw [hs] at hs'
    obtain rfl := Option.some.inj hs'
    exact howner howner'.symm

/-- Going from statement to statement: those that follow, and what is passed through from
there to the end. -/
inductive Walk (p : Program) : List StmtId → List StmtId → Prop
  | stop : Walk p [] []
  | visit {s : StmtId} {rest : List StmtId} (onward : Walk p (p.successors s) rest) :
      Walk p [s] (s :: rest)

/-- A statement is followed by the next one of its method. -/
theorem Consistent.successors_eq (h : p.Consistent) (hm : p.method? id = some m) {i : Nat}
    {s : StmtId} (hs : m.stmts[i]? = some s) : p.successors s = m.stmts[i + 1]?.toList := by
  have howner : p.methodOf? s = some m :=
    h.methodOf?_eq_some_iff.2 ⟨h.numbered hm ▸ hm, List.mem_of_getElem? hs⟩
  have hplace : m.stmts.idxOf? s = some i := (idxOf?_eq_some_iff_of_nodup (h.nodup hm)).2 hs
  rw [successors, howner]
  simp only [hplace, Option.bind_some]

/-- From a place in a method, one passes through the rest of it in order. -/
theorem Consistent.walk_iff (h : p.Consistent) (hm : p.method? id = some m) (i : Nat)
    (visited : List StmtId) : p.Walk m.stmts[i]?.toList visited ↔ visited = m.stmts.drop i := by
  -- induction on what is left of the method
  induction hleft : m.stmts.length - i generalizing i visited with
  | zero =>
      have hend : m.stmts.length ≤ i := by omega
      rw [List.getElem?_eq_none hend, List.drop_eq_nil_of_le hend]
      constructor
      · intro hwalk
        cases hwalk
        rfl
      · rintro rfl
        exact .stop
  | succ n ih =>
      have hlt : i < m.stmts.length := by omega
      have hi := List.getElem?_eq_getElem hlt
      rw [hi, Option.toList_some, List.drop_eq_getElem_cons hlt]
      constructor
      · intro hwalk
        cases hwalk with
        | visit onward =>
            rw [h.successors_eq hm hi, ih (i + 1) _ (by omega)] at onward
            rw [onward]
      · rintro rfl
        refine .visit ?_
        rw [h.successors_eq hm hi, ih (i + 1) _ (by omega)]

end Program

end TaintReplay
