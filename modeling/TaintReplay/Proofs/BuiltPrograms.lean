import TaintReplay.Proofs.Runs

/-!
# Programs created part by part

Not every list of methods and list of statements go together. Those of a program
that was created part by part do (`Program.Built`): methods and statements are
found under their numbers, a statement is listed by the method it belongs to and
by no other, and by that one once.

So the statement that a method starts with tells the method, and it follows no
other statement.

## Main results

* `Program.adds_of_add`: what a program becomes with a part.
* `Program.Built.consistent`: methods and statements of a built program go together.
* `Program.Consistent.mem_startPoints_iff`: the method that a statement starts.
* `Program.Consistent.not_mem_successors`: no statement is followed by one that starts a method.
-/

namespace TaintReplay

/-! ## Methods with a statement more -/

namespace Method

variable {m : Method} {id : MethodId} {s s' : StmtId}

theorem mem_withStmt : s' ∈ (m.withStmt id s).stmts ↔ s' ∈ m.stmts ∨ m.id = id ∧ s' = s := by
  unfold withStmt
  split <;> simp [*]

theorem nodup_withStmt (h : m.stmts.Nodup) (hs : s ∉ m.stmts) : (m.withStmt id s).stmts.Nodup := by
  unfold withStmt
  split
  · refine List.nodup_append.2 ⟨h, List.pairwise_singleton _ _, fun s' hs' last hlast heq => ?_⟩
    rw [heq, List.mem_singleton.1 hlast] at hs'
    exact hs hs'
  · exact h

end Method

namespace Program

/-! ## Building -/

/-- A part of a program. -/
inductive Part where
  | method (text : String) (isStatic isAbstract : Bool)
  | declare (m : MethodId) (name type : String)
  | stmt (m : MethodId) (action : Action)
  | target (s : StmtId) (m : MethodId)

/-- The program that was handed back with an answer other than an error. -/
def accepted {ε α : Type} (answer : Except ε α × Program) : Option Program :=
  answer.1.toOption.map fun _ => answer.2

/-- Adds a part, unless it is refused. -/
def add (p : Program) : Part → Option Program
  | .method text isStatic isAbstract => accepted (p.addMethod text isStatic isAbstract)
  | .declare m name type => some (p.addLocal m name type).2
  | .stmt id action => (p.method? id).bind fun m => accepted (p.addStmt m action)
  | .target s m => some (p.addCallTarget s m)

/-- The program with some parts, unless one of them is refused. -/
def build (parts : List Part) : Option Program := parts.foldlM add empty

/-- Programs that were created part by part. -/
def Built (p : Program) : Prop := ∃ parts, build parts = some p

/-- What a program becomes with a part that is not refused. -/
inductive Adds (p : Program) : Part → Program → Prop
  | method {text : String} {isStatic isAbstract : Bool} {signature : MethodSignature}
      (read : MethodSignature.parse text = .ok signature)
      (new : p.findText? signature.render = none) :
      Adds p (.method text isStatic isAbstract) (p.createMethod signature isStatic isAbstract new)
  | declare {m : MethodId} {name type : String} :
      Adds p (.declare m name type) (p.declare ⟨name, JavaType.parse type, m⟩).2
  | stmt {id : MethodId} {m : Method} {action : Action} (known : p.method? id = some m)
      (concrete : m.isAbstract = false) : Adds p (.stmt id action) (p.pushStmt m.id action)
  | target {s : StmtId} {m : MethodId} : Adds p (.target s m) (p.addCallTarget s m)

/-- Methods and statements go together. -/
structure Consistent (p : Program) : Prop where
  numbered : ∀ ⦃id m⦄, p.method? id = some m → m.id = id
  listed : ∀ ⦃s stmt⦄, p.stmt? s = some stmt → ∃ m, p.method? stmt.method = some m ∧ s ∈ m.stmts
  owned : ∀ ⦃id m⦄, p.method? id = some m →
    ∀ s ∈ m.stmts, ∃ stmt, p.stmt? s = some stmt ∧ stmt.method = id
  nodup : ∀ ⦃id m⦄, p.method? id = some m → m.stmts.Nodup

/-! ## Numbers -/

variable {α β : Type}

theorem nth?_nil (n : Nat) : nth? ([] : List α) n = none := by
  cases n <;> rfl

/-- What is found in a list with one item more. -/
theorem nth?_append_singleton {items : List α} {last x : α} {n : Nat} :
    nth? (items ++ [last]) n = some x ↔
      nth? items n = some x ∨ n = items.length + 1 ∧ x = last := by
  cases n with
  | zero => simp [nth?]
  | succ n =>
      simp only [nth?, Nat.add_right_cancel_iff]
      rcases Nat.lt_trichotomy n items.length with hlt | rfl | hlt
      · rw [List.getElem?_append_left hlt]
        simp [Nat.ne_of_lt hlt]
      · simp [eq_comm]
      · rw [List.getElem?_eq_none (by simp; omega), List.getElem?_eq_none (Nat.le_of_lt hlt)]
        simp [Nat.ne_of_gt hlt]

theorem nth?_map {items : List α} (f : α → β) (n : Nat) :
    nth? (items.map f) n = (nth? items n).map f := by
  cases n with
  | zero => rfl
  | succ n => exact List.getElem?_map

/-- The number after the last one is free. -/
theorem nth?_length_succ (items : List α) : nth? items (items.length + 1) = none :=
  List.getElem?_eq_none (Nat.le_refl _)

/-! ## What is found after a part was added -/

variable {p q : Program}

theorem nextMethodId_eq (p : Program) : p.nextMethodId = ⟨p.methods.length + 1⟩ := by
  rw [nextMethodId, p.counted]

theorem nextStmtId_eq (p : Program) : p.nextStmtId = ⟨p.stmts.length + 1⟩ := by
  rw [nextStmtId, p.counted]

/-- Locals get the numbers after those there are, one after the other. -/
theorem declareAll_fst (p : Program) (ds : List LocalDecl) :
    (p.declareAll ds).1 = (List.range ds.length).map fun i => ⟨p.locals.length + 1 + i⟩ := by
  induction ds generalizing p with
  | nil => rfl
  | cons d ds ih =>
      have hfirst : (p.declare d).1 = ⟨p.locals.length + 1⟩ :=
        congrArg (fun counts : Counts => LocalId.mk (counts.locals + 1)) p.counted
      have hlength : (p.declare d).2.locals.length = p.locals.length + 1 := List.length_append
      have hnext : ∀ i, p.locals.length + 1 + 1 + i = p.locals.length + 1 + (i + 1) := by omega
      simp [declareAll, ih, hfirst, hlength, hnext, List.range_succ_eq_map]

theorem locals_declareAll (p : Program) (ds : List LocalDecl) :
    (p.declareAll ds).2.locals = p.locals ++ ds := by
  induction ds generalizing p with
  | nil => exact (List.append_nil _).symm
  | cons d ds ih =>
      refine (ih (p.declare d).2).trans ?_
      rw [declare, List.append_assoc, List.singleton_append]

theorem methods_declareAll (p : Program) (ds : List LocalDecl) :
    (p.declareAll ds).2.methods = p.methods := by
  induction ds generalizing p with
  | nil => rfl
  | cons d ds ih => exact ih (p.declare d).2

theorem stmts_declareAll (p : Program) (ds : List LocalDecl) :
    (p.declareAll ds).2.stmts = p.stmts := by
  induction ds generalizing p with
  | nil => rfl
  | cons d ds ih => exact ih (p.declare d).2

theorem local?_declare {d d' : LocalDecl} {l : LocalId} :
    (p.declare d).2.local? l = some d' ↔ p.local? l = some d' ∨ l = (p.declare d).1 ∧ d' = d := by
  have hname : (p.declare d).1 = ⟨p.locals.length + 1⟩ :=
    congrArg (fun counts : Counts => LocalId.mk (counts.locals + 1)) p.counted
  rw [hname, LocalId.ext_iff]
  exact nth?_append_singleton

section CreateMethod

variable {signature : MethodSignature} {isStatic isAbstract : Bool}
  (new : p.findText? signature.render = none)

theorem methods_createMethod : (p.createMethod signature isStatic isAbstract new).methods =
    p.methods ++ [(p.nextMethod signature isStatic isAbstract).1] :=
  congrArg (· ++ _) ((methods_declareAll _ _).trans (methods_declareAll _ _))

theorem stmt?_createMethod (s : StmtId) :
    (p.createMethod signature isStatic isAbstract new).stmt? s = p.stmt? s :=
  congrArg (nth? · s.number) ((stmts_declareAll _ _).trans (stmts_declareAll _ _))

theorem method?_createMethod {k : MethodId} {m : Method} :
    (p.createMethod signature isStatic isAbstract new).method? k = some m ↔
      p.method? k = some m ∨
        k = p.nextMethodId ∧ m = (p.nextMethod signature isStatic isAbstract).1 := by
  rw [method?, methods_createMethod, nth?_append_singleton, nextMethodId_eq, method?,
    MethodId.ext_iff]

end CreateMethod

theorem stmt?_pushStmt {m : MethodId} {action : Action} {s : StmtId} {stmt : Stmt} :
    (p.pushStmt m action).stmt? s = some stmt ↔
      p.stmt? s = some stmt ∨ s = p.nextStmtId ∧ stmt = ⟨p.nextStmtId, m, action⟩ := by
  rw [stmt?, pushStmt, nth?_append_singleton, stmt?, StmtId.ext_iff, nextStmtId_eq]

/-- The method that a number has when a statement was appended to some method. -/
theorem method?_pushStmt {id : MethodId} {action : Action} {k : MethodId} {n' : Method} :
    (p.pushStmt id action).method? k = some n' ↔
      ∃ n, p.method? k = some n ∧ n.withStmt id p.nextStmtId = n' := by
  rw [method?, pushStmt, nth?_map, Option.map_eq_some_iff]
  rfl

/-! ## Building keeps programs consistent -/

theorem consistent_empty : empty.Consistent := by
  have hmethod : ∀ id, empty.method? id = none := fun id => nth?_nil id.number
  have hstmt : ∀ s, empty.stmt? s = none := fun s => nth?_nil s.number
  constructor <;> simp [hmethod, hstmt]

/-- Only methods and statements matter. -/
theorem Consistent.of_same (h : p.Consistent) (methods : q.methods = p.methods)
    (stmts : q.stmts = p.stmts) : q.Consistent := by
  have hmethod : q.method? = p.method? := by
    funext id
    rw [method?, method?, methods]
  have hstmt : q.stmt? = p.stmt? := by
    funext s
    rw [stmt?, stmt?, stmts]
  exact ⟨hmethod ▸ h.numbered, hmethod ▸ hstmt ▸ h.listed, hmethod ▸ hstmt ▸ h.owned,
    hmethod ▸ h.nodup⟩

/-- A text that is read names a method that is new, or one there is, and then it is refused. -/
theorem addMethod_of_read {text : String} {signature : MethodSignature}
    (read : MethodSignature.parse text = .ok signature) (isStatic isAbstract : Bool) :
    (∃ new, p.addMethod text isStatic isAbstract =
      (.ok p.nextMethodId, p.createMethod signature isStatic isAbstract new)) ∨
    p.findText? signature.render ≠ none ∧
      p.addMethod text isStatic isAbstract = (.error (.duplicateMethod signature), p) := by
  rw [addMethod, read]
  by_cases hnew : p.findText? signature.render = none
  · exact .inl ⟨hnew, dif_pos hnew⟩
  · exact .inr ⟨hnew, dif_neg hnew⟩

theorem adds_of_add {part : Part} (added : p.add part = some q) : p.Adds part q := by
  cases part with
  | method text isStatic isAbstract =>
      rw [add, accepted] at added
      cases hread : MethodSignature.parse text with
      | error e =>
          rw [addMethod, hread] at added
          cases added
      | ok signature =>
          rcases addMethod_of_read hread isStatic isAbstract with ⟨hnew, hadded⟩ | ⟨-, hadded⟩
          · rw [hadded] at added
            cases added
            exact .method hread hnew
          · rw [hadded] at added
            cases added
  | declare m name type =>
      cases added
      exact .declare
  | stmt id action =>
      obtain ⟨m, hm, hadded⟩ := Option.bind_eq_some_iff.1 added
      rw [addStmt] at hadded
      split at hadded
      · cases hadded
      · rename_i hconcrete
        cases hadded
        exact .stmt hm (by simpa using hconcrete)
  | target s m =>
      cases added
      exact .target

theorem add_of_adds {part : Part} (added : p.Adds part q) : p.add part = some q := by
  cases added with
  | method read new =>
      rename_i isStatic isAbstract signature
      rcases addMethod_of_read read isStatic isAbstract with ⟨_, hadded⟩ | ⟨hold, -⟩
      · rw [add, hadded]
        rfl
      · exact absurd new hold
  | declare => rfl
  | stmt known concrete => simp [add, known, addStmt, concrete, accepted, Except.toOption]
  | target => rfl

/-- A method is added without statements. -/
theorem Consistent.createMethod (h : p.Consistent) {signature : MethodSignature}
    {isStatic isAbstract : Bool} (new : p.findText? signature.render = none) :
    (p.createMethod signature isStatic isAbstract new).Consistent where
  numbered k m hm := by
    rcases (method?_createMethod new).1 hm with hold | ⟨rfl, rfl⟩
    · exact h.numbered hold
    · rfl
  listed s stmt hs := by
    obtain ⟨m, hm, hlisted⟩ := h.listed ((stmt?_createMethod new s).symm.trans hs)
    exact ⟨m, (method?_createMethod new).2 (.inl hm), hlisted⟩
  owned k m hm s hs := by
    rcases (method?_createMethod new).1 hm with hold | ⟨-, rfl⟩
    · rw [stmt?_createMethod]
      exact h.owned hold s hs
    · cases hs
  nodup k m hm := by
    rcases (method?_createMethod new).1 hm with hold | ⟨-, rfl⟩
    · exact h.nodup hold
    · exact List.nodup_nil

/-- A statement is appended to its method. -/
theorem Consistent.pushStmt (h : p.Consistent) {id : MethodId} {m : Method}
    (known : p.method? id = some m) (action : Action) : (p.pushStmt m.id action).Consistent where
  numbered k n' hn' := by
    obtain ⟨n, hn, rfl⟩ := method?_pushStmt.1 hn'
    exact (Method.id_withStmt _ _ _).trans (h.numbered hn)
  listed s stmt hs := by
    rcases stmt?_pushStmt.1 hs with hold | ⟨rfl, rfl⟩
    · obtain ⟨n, hn, hlisted⟩ := h.listed hold
      exact ⟨_, method?_pushStmt.2 ⟨n, hn, rfl⟩, Method.mem_withStmt.2 (.inl hlisted)⟩
    · exact ⟨_, method?_pushStmt.2 ⟨m, h.numbered known ▸ known, rfl⟩,
        Method.mem_withStmt.2 (.inr ⟨rfl, rfl⟩)⟩
  owned k n' hn' s hs := by
    obtain ⟨n, hn, rfl⟩ := method?_pushStmt.1 hn'
    rcases Method.mem_withStmt.1 hs with hs | ⟨hid, rfl⟩
    · obtain ⟨stmt, hstmt, howner⟩ := h.owned hn s hs
      exact ⟨stmt, stmt?_pushStmt.2 (.inl hstmt), howner⟩
    · exact ⟨_, stmt?_pushStmt.2 (.inr ⟨rfl, rfl⟩), hid.symm.trans (h.numbered hn)⟩
  nodup k n' hn' := by
    obtain ⟨n, hn, rfl⟩ := method?_pushStmt.1 hn'
    refine Method.nodup_withStmt (h.nodup hn) fun hs => ?_
    -- no statement has the next number yet
    obtain ⟨stmt, hstmt, -⟩ := h.owned hn _ hs
    rw [nextStmtId_eq, stmt?, nth?_length_succ] at hstmt
    cases hstmt

theorem Consistent.adds (h : p.Consistent) {part : Part} (added : p.Adds part q) :
    q.Consistent := by
  cases added with
  | method read new => exact h.createMethod new
  | declare => exact h.of_same rfl rfl
  | stmt known concrete => exact h.pushStmt known _
  | target => exact h.of_same rfl rfl

/-- What holds of the empty program and is kept by each part holds of built programs. -/
theorem Built.induction {motive : Program → Prop} (hempty : motive empty)
    (hadd : ∀ {p q : Program} {part : Part}, motive p → p.Adds part q → motive q)
    (h : p.Built) : motive p := by
  obtain ⟨parts, built⟩ := h
  have hfold : ∀ {q r : Program}, motive q → parts.foldlM Program.add q = some r → motive r := by
    clear built
    induction parts with
    | nil =>
        intro q r hq hr
        cases hr
        exact hq
    | cons part parts ih =>
        intro q r hq hr
        rw [List.foldlM_cons] at hr
        obtain ⟨next, hnext, hrest⟩ := Option.bind_eq_some_iff.1 hr
        exact ih (hadd hq (adds_of_add hnext)) hrest
  exact hfold hempty built

theorem Built.adds (h : p.Built) {part : Part} (added : p.Adds part q) : q.Built := by
  obtain ⟨parts, hbuilt⟩ := h
  refine ⟨parts ++ [part], ?_⟩
  rw [build] at hbuilt ⊢
  rw [List.foldlM_append, hbuilt]
  simpa using add_of_adds added

theorem Built.consistent (h : p.Built) : p.Consistent :=
  h.induction consistent_empty fun hp added => hp.adds added

theorem Built.pushStmt (h : p.Built) {id : MethodId} {m : Method} {action : Action}
    (known : p.method? id = some m) (concrete : m.isAbstract = false) :
    (p.pushStmt id action).Built := by
  have hadds : p.Adds (.stmt id action) (p.pushStmt m.id action) := .stmt known concrete
  rw [h.consistent.numbered known] at hadds
  exact h.adds hadds

/-! ## Starts -/

theorem Consistent.methodOf?_eq_some_iff (h : p.Consistent) {s : StmtId} {m : Method} :
    p.methodOf? s = some m ↔ p.method? m.id = some m ∧ s ∈ m.stmts := by
  rw [methodOf?, Option.bind_eq_some_iff]
  constructor
  · rintro ⟨stmt, hstmt, hm⟩
    obtain ⟨m', hm', hlisted⟩ := h.listed hstmt
    cases hm.symm.trans hm'
    exact ⟨h.numbered hm ▸ hm, hlisted⟩
  · rintro ⟨hm, hs⟩
    obtain ⟨stmt, hstmt, howner⟩ := h.owned hm s hs
    exact ⟨stmt, hstmt, howner ▸ hm⟩

/-- The method that a statement starts. -/
def entered? (p : Program) (s : StmtId) : Option MethodId :=
  (p.methodOf? s).bind fun m => if m.stmts.head? = some s then some m.id else none

theorem mem_startPoints {s : StmtId} {id : MethodId} :
    s ∈ p.startPoints id ↔ ∃ m, p.method? id = some m ∧ m.stmts.head? = some s := by
  rw [startPoints, Option.mem_toList, Option.bind_eq_some_iff]

theorem Consistent.mem_startPoints_iff (h : p.Consistent) {s : StmtId} {id : MethodId} :
    s ∈ p.startPoints id ↔ p.entered? s = some id := by
  rw [mem_startPoints, entered?, Option.bind_eq_some_iff]
  constructor
  · rintro ⟨m, hm, hhead⟩
    have hid := h.numbered hm
    refine ⟨m, h.methodOf?_eq_some_iff.2 ⟨hid ▸ hm, List.mem_of_mem_head? hhead⟩, ?_⟩
    rw [if_pos hhead, hid]
  · rintro ⟨m, hm, hid⟩
    split at hid
    · rename_i hhead
      cases hid
      exact ⟨m, (h.methodOf?_eq_some_iff.1 hm).1, hhead⟩
    · cases hid

/-- A method with a statement has one that it starts with. -/
theorem Consistent.exists_mem_startPoints (h : p.Consistent) {s : StmtId} {m : Method}
    (hs : p.methodOf? s = some m) : ∃ start, start ∈ p.startPoints m.id := by
  obtain ⟨hm, hmem⟩ := h.methodOf?_eq_some_iff.1 hs
  have hne := List.ne_nil_of_mem hmem
  exact ⟨m.stmts.head hne, mem_startPoints.2 ⟨m, hm, List.head?_eq_some_head hne⟩⟩

/-- No statement is followed by one that starts a method. -/
theorem Consistent.not_mem_successors (h : p.Consistent) {s start : StmtId} {id : MethodId}
    (hstart : start ∈ p.startPoints id) : start ∉ p.successors s := by
  intro hnext
  obtain ⟨m, hm, hhead⟩ := mem_startPoints.1 hstart
  rw [successors] at hnext
  split at hnext
  · cases hnext
  · rename_i n hn
    obtain ⟨i, -, hi⟩ := Option.bind_eq_some_iff.1 (Option.mem_toList.1 hnext)
    -- both are the method that the statement belongs to
    have hsame : m = n := by
      have hfirst := h.methodOf?_eq_some_iff.2
        ⟨h.numbered hm ▸ hm, List.mem_of_mem_head? hhead⟩
      have hsecond := h.methodOf?_eq_some_iff.2
        ⟨(h.methodOf?_eq_some_iff.1 hn).1, List.mem_of_getElem? hi⟩
      exact Option.some.inj (hfirst.symm.trans hsecond)
    subst hsame
    rw [List.head?_eq_getElem?] at hhead
    have hlt : 0 < m.stmts.length := (List.getElem?_eq_some_iff.1 hhead).1
    have hzero : 0 = i + 1 := (List.getElem?_inj hlt (h.nodup hm)).1 (hhead.trans hi.symm)
    omega

end Program

/-! ## A program with a callback

A library method calls back into the program with its argument and returns what
the callback returns. The program calls it with `x` and assigns `r`, and its
callback returns its parameter. -/

namespace Sample

def object : String := "java.lang.Object"

/-- The library method. -/
def apply : MethodSignature := ⟨"Lib", object, "apply", [object]⟩

def call : MethodSignature := ⟨"Callback", object, "call", [object]⟩

/-- The callback as the summary of the library names it. -/
def callback : Gap := ⟨call.render⟩

/-- The method that makes the call, with its locals `x` and `r`. -/
def main : Program :=
  ((Program.empty.createMethod ⟨"App", "void", "main", []⟩ true false rfl).declare
    ⟨"x", .class object, ⟨1⟩⟩).2.declare ⟨"r", .class object, ⟨1⟩⟩ |>.2

def program : Program :=
  (((main.createMethod call false false (by decide +kernel)).pushStmt ⟨1⟩
    (.invoke (some ⟨2⟩) ⟨apply, none, [.ofLocal ⟨1⟩]⟩)).pushStmt ⟨1⟩ .nop).pushStmt ⟨2⟩
      (.ret (some (.ofLocal ⟨4⟩)))

def intoCallback : Flow :=
  ⟨apply.subSignature, .parameter 0 object, (Endpoint.parameter 0 object).inGap callback, false⟩

def outOfCallback : Flow :=
  ⟨apply.subSignature, (Endpoint.ofKind .returned object).inGap callback,
    .ofKind .returned object, false⟩

/-- The flows of the library method. -/
def flows : FlowSet := OrdSet.ofList [intoCallback, outOfCallback]

/-- A local of the program, and everything below it if sub-fields are open. -/
def localPath (n : Nat) (subFields : Bool) : AccessPath := ⟨⟨n⟩, .class object, [], subFields⟩

/-- The call, asked about with its argument tainted. -/
def site : CallSite := ⟨⟨1⟩, .ofPath (localPath 1 false), .ofPath (localPath 1 false)⟩

/-- The summary of the library. -/
def store : SummaryStore := SummaryStore.empty.addClass "Lib" (.ofList [intoCallback, outOfCallback])

def engine : Engine := Engine.create store .default none

/-- The class of the callback is known. -/
def hierarchy : Hierarchy := Hierarchy.empty.addNode ⟨"Callback", .concrete, false⟩ (by decide)

theorem built_program : program.Built :=
  ⟨[.method "<App: void main()>" true false, .declare ⟨1⟩ "x" object, .declare ⟨1⟩ "r" object,
    .method "<Callback: java.lang.Object call(java.lang.Object)>" false false,
    .stmt ⟨1⟩ (.invoke (some ⟨2⟩) ⟨apply, none, [.ofLocal ⟨1⟩]⟩), .stmt ⟨1⟩ .nop,
    .stmt ⟨2⟩ (.ret (some (.ofLocal ⟨4⟩)))], by decide +kernel⟩

end Sample

end TaintReplay
