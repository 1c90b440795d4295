import Mathlib.Data.List.Induction
import TaintReplay.Proofs.ArrangedPrograms

/-!
# Programs keep their parts

A program is created by handing in parts one after the other. For each part that is not
refused a name is handed out, and later parts refer to earlier ones by these names. Whatever
is handed in, in whatever order, the program stays coherent (`Program.Coherent`): its counts
and its index of signatures keep up with its parts. A refused part changes nothing, and a name
stands for its part for ever.

## Main results

* `Program.Built.submit_eq_error_iff`: which parts are refused, and why.
* `Program.attempt_of_error`: a refused part changes nothing.
* `Program.Built.has_attempt`: a name that is handed out stands for its part.
* `Program.Built.coherent`: what holds of a program that was created part by part.
* `programs_keep_their_parts`: all of it, after any parts.
-/

namespace TaintReplay

namespace Program

variable {p q : Program} {part : Part}

/-! ## Parts that are handed in -/

/-- What is handed out for a part. -/
inductive Name where
  | method (id : MethodId)
  | declared (l : LocalId)
  | stmt (s : StmtId)

/-- Hands in a part. The answer is a name, unless the part needs none, or why it is refused.
The program is handed back with either. -/
def submit (p : Program) : Part → Except ProgramError (Option Name) × Program
  | .method text isStatic isAbstract =>
    let answer := p.addMethod text isStatic isAbstract
    (answer.1.map fun id => some (.method id), answer.2)
  | .declare m name type =>
    let answer := p.addLocal m name type
    (.ok (some (.declared answer.1)), answer.2)
  | .stmt id action =>
    match p.method? id with
    | none => (.ok none, p)
    | some m =>
      let answer := p.addStmt m action
      (answer.1.map fun s => some (.stmt s), answer.2)
  | .target s m => (.ok none, p.addCallTarget s m)

/-- The program after a part was handed in. -/
def attempt (p : Program) (part : Part) : Program := (p.submit part).2

/-- The program after some parts were handed in. -/
def after (parts : List Part) : Program := parts.foldl attempt empty

/-- The names that a part uses were handed out. -/
def knows (p : Program) : Part → Bool
  | .method _ _ _ => true
  | .declare m _ _ => (p.method? m).isSome
  | .stmt m _ => (p.method? m).isSome
  | .target s m => (p.stmt? s).isSome && (p.method? m).isSome

/-- All parts use names that were handed out before. -/
def knowsAll : Program → List Part → Bool
  | _, [] => true
  | p, part :: parts => p.knows part && (p.attempt part).knowsAll parts

theorem after_append_singleton (parts : List Part) (part : Part) :
    after (parts ++ [part]) = (after parts).attempt part := by
  simp [after]

/-- What is handed back for a part: the program as it was if the part is refused, or else the
program with the part. A statement of no method is ignored. -/
theorem submit_cases (p : Program) (part : Part) :
    (∃ e, p.submit part = (.error e, p)) ∨
      ∃ name q, p.submit part = (.ok name, q) ∧ (p.Adds part q ∨ q = p) := by
  cases part with
  | method text isStatic isAbstract =>
      rw [submit]
      cases hread : MethodSignature.parse text with
      | error e =>
          rw [addMethod, hread]
          exact .inl ⟨_, rfl⟩
      | ok signature =>
          rcases addMethod_of_read hread isStatic isAbstract with ⟨hnew, hadded⟩ | ⟨-, hadded⟩
          · rw [hadded]
            exact .inr ⟨_, _, rfl, .inl (.method hread hnew)⟩
          · rw [hadded]
            exact .inl ⟨_, rfl⟩
  | declare m name type => exact .inr ⟨_, _, rfl, .inl .declare⟩
  | stmt id action =>
      rw [submit]
      cases hm : p.method? id with
      | none => exact .inr ⟨_, _, rfl, .inr rfl⟩
      | some m =>
          simp only [addStmt]
          split
          · exact .inl ⟨_, rfl⟩
          · rename_i hconcrete
            exact .inr ⟨_, _, rfl, .inl (.stmt hm (by simpa using hconcrete))⟩
  | target s m => exact .inr ⟨_, _, rfl, .inl .target⟩

/-- A part that is refused changes nothing. -/
theorem attempt_of_error {e : ProgramError} (herror : (p.submit part).1 = .error e) :
    p.attempt part = p := by
  rcases submit_cases p part with ⟨_, hsubmit⟩ | ⟨name, q, hsubmit, -⟩
  · rw [attempt, hsubmit]
  · rw [hsubmit] at herror
    cases herror

theorem attempt_cases (p : Program) (part : Part) :
    p.Adds part (p.attempt part) ∨ p.attempt part = p := by
  rw [attempt]
  rcases submit_cases p part with ⟨e, hsubmit⟩ | ⟨name, q, hsubmit, hq⟩
  · rw [hsubmit]
    exact .inr rfl
  · rw [hsubmit]
    exact hq

theorem built_after (parts : List Part) : (after parts).Built := by
  induction parts using List.reverseRecOn with
  | nil => exact ⟨[], rfl⟩
  | append_singleton parts part ih =>
      rw [after_append_singleton]
      rcases attempt_cases (after parts) part with hadds | hsame
      · exact ih.adds hadds
      · rw [hsame]
        exact ih

/-! ## Parts that are refused -/

/-- Why a part is refused: a signature is unreadable, or a method has it already, or a
statement is for a method that is abstract. -/
inductive Refuses (p : Program) : Part → ProgramError → Prop
  | unreadable {text : String} {isStatic isAbstract : Bool} {e : SignatureError}
      (unread : MethodSignature.parse text = .error e) :
      Refuses p (.method text isStatic isAbstract) (.badSignature e)
  | repeated {text : String} {isStatic isAbstract : Bool} {id : MethodId} {m : Method}
      (known : p.method? id = some m) (read : MethodSignature.parse text = .ok m.signature) :
      Refuses p (.method text isStatic isAbstract) (.duplicateMethod m.signature)
  | noCode {id : MethodId} {m : Method} {action : Action} (known : p.method? id = some m)
      (bodiless : m.isAbstract = true) : Refuses p (.stmt id action) (.noCode m.signature)

/-- A signature that can be read and is refused is that of a method. -/
theorem Built.repeated (h : p.Built) {text : String} {signature : MethodSignature}
    (hread : MethodSignature.parse text = .ok signature) (hold : p.findText? signature.render ≠ none)
    (isStatic isAbstract : Bool) :
    p.Refuses (.method text isStatic isAbstract) (.duplicateMethod signature) := by
  obtain ⟨id, hid⟩ := Option.ne_none_iff_exists'.1 hold
  have hfound : p.findMethod? text = some id := by
    rw [findMethod?, hread]
    exact hid
  -- a method is written like this, so it has this signature
  obtain ⟨m, hm, hsame⟩ := (h.findMethod?_eq_some_iff text id).1 hfound
  obtain rfl := Except.ok.inj (hread.symm.trans hsame)
  exact .repeated hm hread

/-- A part is refused only for one of these reasons. -/
theorem Built.refuses_of_submit (h : p.Built) {e : ProgramError}
    (herror : (p.submit part).1 = .error e) : p.Refuses part e := by
  cases part with
  | method text isStatic isAbstract =>
      rw [submit] at herror
      cases hread : MethodSignature.parse text with
      | error unread =>
          rw [addMethod, hread] at herror
          cases herror
          exact .unreadable hread
      | ok signature =>
          rcases addMethod_of_read hread isStatic isAbstract with ⟨_, hadded⟩ | ⟨hold, hadded⟩
          · rw [hadded] at herror
            cases herror
          · rw [hadded] at herror
            cases herror
            exact h.repeated hread hold isStatic isAbstract
  | declare m name type => cases herror
  | stmt id action =>
      rw [submit] at herror
      cases hm : p.method? id with
      | none =>
          rw [hm] at herror
          cases herror
      | some m =>
          simp only [hm, addStmt] at herror
          split at herror
          · rename_i hbodiless
            cases herror
            exact .noCode hm hbodiless
          · cases herror
  | target s m => cases herror

/-- For these reasons a part is refused. -/
theorem Built.submit_of_refuses (h : p.Built) {e : ProgramError} (hrefused : p.Refuses part e) :
    (p.submit part).1 = .error e := by
  cases hrefused with
  | unreadable unread =>
      rw [submit, addMethod, unread]
      rfl
  | repeated known read =>
      rename_i text isStatic isAbstract id m
      rcases addMethod_of_read read isStatic isAbstract with ⟨hnew, -⟩ | ⟨-, hadded⟩
      · cases hnew.symm.trans (h.findText?_eq_some_iff.2 ⟨m, known, rfl⟩)
      · rw [submit, hadded]
        rfl
  | noCode known bodiless => simp [submit, known, addStmt, bodiless, Except.map]

theorem Built.submit_eq_error_iff (h : p.Built) {e : ProgramError} :
    (p.submit part).1 = .error e ↔ p.Refuses part e :=
  ⟨h.refuses_of_submit, h.submit_of_refuses⟩

/-! ## Names -/

/-- A later program has what an earlier one has under the same names. Methods may have more
statements. -/
structure Keeps (p q : Program) : Prop where
  method : ∀ ⦃id m⦄, p.method? id = some m →
    ∃ more, q.method? id = some { m with stmts := m.stmts ++ more }
  stmt : ∀ ⦃s stmt⦄, p.stmt? s = some stmt → q.stmt? s = some stmt
  declared : ∀ ⦃l d⦄, p.local? l = some d → q.local? l = some d

theorem Keeps.refl (p : Program) : p.Keeps p :=
  ⟨fun _ m hm => ⟨[], by rw [List.append_nil]; exact hm⟩, fun _ _ => id, fun _ _ => id⟩

theorem Keeps.trans {r : Program} (hpq : p.Keeps q) (hqr : q.Keeps r) : p.Keeps r := by
  refine ⟨fun id m hm => ?_, fun s stmt hs => hqr.stmt (hpq.stmt hs),
    fun l d hl => hqr.declared (hpq.declared hl)⟩
  obtain ⟨more, hq⟩ := hpq.method hm
  obtain ⟨evenMore, hr⟩ := hqr.method hq
  exact ⟨more ++ evenMore, by rw [hr, List.append_assoc]⟩

theorem Adds.keeps (added : p.Adds part q) : p.Keeps q := by
  cases added with
  | method read new =>
      refine ⟨fun id m hm => ⟨[], ?_⟩, fun s _ => (stmt?_createMethod new s).trans, fun _ _ hl => ?_⟩
      · rw [List.append_nil]
        exact (method?_createMethod new).2 (.inl hm)
      · rw [local?, locals_createMethod]
        exact nth?_append_left hl
  | declare => exact ⟨(Keeps.refl p).method, fun _ _ => id, fun _ _ hl => nth?_append_left hl⟩
  | stmt known concrete =>
      rename_i owner action
      refine ⟨fun id m hm => ?_, fun _ _ hs => nth?_append_left hs, fun _ _ => id⟩
      have hnow : (p.pushStmt owner.id action).method? id =
          some (m.withStmt owner.id p.nextStmtId) := method?_pushStmt.2 ⟨m, hm, rfl⟩
      by_cases howner : m.id = owner.id
      · rw [Method.withStmt, if_pos howner] at hnow
        exact ⟨_, hnow⟩
      · rw [Method.withStmt, if_neg howner] at hnow
        exact ⟨[], by rw [List.append_nil]; exact hnow⟩
  | target => exact ⟨(Keeps.refl p).method, fun _ _ => id, fun _ _ => id⟩

theorem keeps_attempt (p : Program) (part : Part) : p.Keeps (p.attempt part) := by
  rcases attempt_cases p part with hadds | hsame
  · exact hadds.keeps
  · rw [hsame]
    exact Keeps.refl p

theorem keeps_after_append (parts more : List Part) : (after parts).Keeps (after (parts ++ more)) := by
  induction more using List.reverseRecOn with
  | nil =>
      rw [List.append_nil]
      exact Keeps.refl _
  | append_singleton more part ih =>
      rw [← List.append_assoc, after_append_singleton]
      exact ih.trans (keeps_attempt _ part)

/-- A name stands for a part. -/
def Has (p : Program) : Name → Part → Prop
  | .method id, .method text isStatic isAbstract =>
    ∃ m, p.method? id = some m ∧ MethodSignature.parse text = .ok m.signature ∧
      m.isStatic = isStatic ∧ m.isAbstract = isAbstract
  | .declared l, .declare m name type => p.local? l = some ⟨name, JavaType.parse type, m⟩
  | .stmt s, .stmt m action => p.stmt? s = some ⟨s, m, action⟩
  | _, _ => False

theorem Has.keeps {name : Name} (h : p.Has name part) (hpq : p.Keeps q) : q.Has name part := by
  cases name with
  | method id =>
      cases part with
      | method text isStatic isAbstract =>
          obtain ⟨m, hm, hread, hstatic, habstract⟩ := h
          obtain ⟨more, hnow⟩ := hpq.method hm
          exact ⟨_, hnow, hread, hstatic, habstract⟩
      | _ => exact h
  | declared l =>
      cases part with
      | declare m name type => exact hpq.declared h
      | _ => exact h
  | stmt s =>
      cases part with
      | stmt m action => exact hpq.stmt h
      | _ => exact h

/-- A name that is handed out stands for its part. -/
theorem Built.has_attempt (h : p.Built) {name : Name}
    (hname : (p.submit part).1 = .ok (some name)) : (p.attempt part).Has name part := by
  cases part with
  | method text isStatic isAbstract =>
      rw [submit] at hname
      cases hread : MethodSignature.parse text with
      | error e =>
          rw [addMethod, hread] at hname
          cases hname
      | ok signature =>
          rw [attempt, submit]
          rcases addMethod_of_read hread isStatic isAbstract with ⟨new, hadded⟩ | ⟨-, hadded⟩
          · rw [hadded] at hname ⊢
            cases hname
            refine ⟨(p.nextMethod signature isStatic isAbstract).1, ?_, hread, rfl, rfl⟩
            exact (method?_createMethod new).2 (.inr ⟨rfl, rfl⟩)
          · rw [hadded] at hname
            cases hname
  | declare m declared type =>
      cases hname
      exact local?_declare.2 (.inr ⟨rfl, rfl⟩)
  | stmt id action =>
      rw [submit] at hname
      cases hm : p.method? id with
      | none =>
          rw [hm] at hname
          cases hname
      | some m =>
          rw [attempt, submit, hm]
          simp only [hm, addStmt] at hname ⊢
          split at hname
          · cases hname
          · rename_i hconcrete
            rw [if_neg hconcrete]
            cases hname
            rw [Has, ← h.consistent.numbered hm]
            exact stmt?_pushStmt.2 (.inr ⟨rfl, rfl⟩)
  | target s m => cases hname

/-- Every local is declared in a method of the program. -/
def Housed (p : Program) : Prop :=
  ∀ ⦃l d⦄, p.local? l = some d → ∃ m, p.method? d.method = some m

theorem Housed.adds (h : p.Housed) (knows : p.knows part = true) (added : p.Adds part q) :
    q.Housed := by
  have hold : ∀ {d : LocalDecl}, (∃ m, p.method? d.method = some m) →
      ∃ m, q.method? d.method = some m := by
    rintro d ⟨m, hm⟩
    obtain ⟨more, hnow⟩ := added.keeps.method hm
    exact ⟨_, hnow⟩
  intro l d hl
  cases added with
  | method read new =>
      rw [local?, locals_createMethod] at hl
      rcases nth?_append_cases hl with hbefore | hframe
      · exact hold (h hbefore)
      · rw [method_of_mem_frame hframe]
        exact ⟨_, (method?_createMethod new).2 (.inr ⟨rfl, rfl⟩)⟩
  | declare =>
      rcases local?_declare.1 hl with hbefore | ⟨-, rfl⟩
      · exact h hbefore
      · exact Option.isSome_iff_exists.1 knows
  | stmt known concrete => exact hold (h hl)
  | target => exact h hl

/-- Where parts use names that were handed out before, locals stay those of methods. -/
theorem Housed.foldl_attempt {parts : List Part} (h : p.Housed) (named : p.knowsAll parts = true) :
    (parts.foldl attempt p).Housed := by
  induction parts generalizing p with
  | nil => exact h
  | cons part parts ih =>
      obtain ⟨hknows, hrest⟩ := Bool.and_eq_true_iff.1 named
      refine ih ?_ hrest
      rcases attempt_cases p part with hadds | hsame
      · exact h.adds hknows hadds
      · rw [hsame]
        exact h

theorem housed_after {parts : List Part} (named : empty.knowsAll parts = true) :
    (after parts).Housed := by
  refine Housed.foldl_attempt (fun l d hl => ?_) named
  cases (nth?_nil l.number).symm.trans hl

/-! ## Coherence -/

/-- The parts are counted and found under their numbers, and the index has the methods under
the texts of their signatures and nothing else. Methods are found by their signatures, which
no two have in common. Their own locals are all different and declared in them, and every local
is declared in a method. Each statement is listed once, by its own method, and is passed
through on the way through it. -/
structure Coherent (p : Program) : Prop where
  counted : p.counts = ⟨p.methods.length, p.stmts.length, p.locals.length⟩
  numbered : ∀ id m, p.method? id = some m → m.id = id
  indexed : ∀ text id, p.signatures.find? text = some id ↔
    ∃ m, p.method? id = some m ∧ m.signature.render = text
  found : ∀ text id, p.findMethod? text = some id ↔
    ∃ m, p.method? id = some m ∧ MethodSignature.parse text = .ok m.signature
  unique : ∀ id id' m m', p.method? id = some m → p.method? id' = some m' →
    m.signature = m'.signature → id = id'
  foundInClass : ∀ id m, p.method? id = some m →
    p.findMethodInClass? m.className m.subSignature = some id
  apart : (p.methods.flatMap Method.ownLocals).Nodup
  own : ∀ id m, p.method? id = some m → ∀ l ∈ m.ownLocals, ∃ d, p.local? l = some d ∧ d.method = id
  position : ∀ id m, p.method? id = some m → ∀ l i,
    m.parameterIndex? l = some i ↔ m.parameters[i]? = some l
  housed : ∀ l d, p.local? l = some d → ∃ m, p.method? d.method = some m
  listed : ∀ s stmt, p.stmt? s = some stmt → stmt.id = s ∧
    (∃ m, p.method? stmt.method = some m) ∧
    ∀ id m, p.method? id = some m → m.stmts.count s = if id = stmt.method then 1 else 0
  known : ∀ id m, p.method? id = some m → ∀ s ∈ m.stmts, ∃ stmt, p.stmt? s = some stmt
  through : ∀ id m, p.method? id = some m → m.stmts.Nodup ∧
    ∀ visited, p.Walk (p.startPoints id) visited ↔ visited = m.stmts

theorem Built.coherent (h : p.Built) (housed : p.Housed) : p.Coherent where
  counted := p.counted
  numbered id m hm := h.consistent.numbered hm
  indexed text id := h.findText?_eq_some_iff
  found text id := h.findMethod?_eq_some_iff text id
  unique id id' m m' hm hm' hsame := by
    have hfound := h.findText?_eq_some_iff.2 ⟨m, hm, rfl⟩
    have hfound' := h.findText?_eq_some_iff.2 ⟨m', hm', rfl⟩
    rw [hsame, hfound'] at hfound
    exact (Option.some.inj hfound).symm
  foundInClass id m hm := h.findText?_eq_some_iff.2 ⟨m, hm, rfl⟩
  apart := h.arranged.apart
  own id m hm l hl := by
    obtain ⟨d, hd, hmethod⟩ := h.arranged.declared m (mem_methods hm) l hl
    exact ⟨d, hd, hmethod.trans (h.consistent.numbered hm)⟩
  position id m hm := h.arranged.parameterIndex?_eq_some_iff (mem_methods hm)
  housed l d hl := housed hl
  listed s stmt hs := by
    obtain ⟨m, hm, -⟩ := h.consistent.listed hs
    exact ⟨h.arranged.numbered hs, ⟨m, hm⟩, fun id m' hm' => h.consistent.count_stmts hs hm'⟩
  known id m hm s hs := by
    obtain ⟨stmt, hstmt, -⟩ := h.consistent.owned hm s hs
    exact ⟨stmt, hstmt⟩
  through id m hm := by
    refine ⟨h.consistent.nodup hm, fun visited => ?_⟩
    rw [startPoints, hm, Option.bind_some, List.head?_eq_getElem?, h.consistent.walk_iff hm,
      List.drop_zero]

end Program

open Program in
/-- Whatever parts are handed in, each with names that were handed out before, the program is
coherent. A part is refused exactly if its signature is unreadable or taken or its method is
abstract, and the program that is handed back then is the one there was. Any other part has its
effect, and the name that is handed out for it stands for it, whatever is handed in later. -/
theorem programs_keep_their_parts (parts : List Part) (named : Program.empty.knowsAll parts = true) :
    (after parts).Coherent ∧
    (∀ part e, ((after parts).submit part).1 = .error e ↔ (after parts).Refuses part e) ∧
    (∀ part e, (after parts).Refuses part e →
      (after parts).submit part = (.error e, after parts) ∧
        after (parts ++ [part]) = after parts) ∧
    ∀ part name q, (after parts).submit part = (.ok (some name), q) →
      after (parts ++ [part]) = q ∧ ∀ more, (after (parts ++ part :: more)).Has name part := by
  have hbuilt := built_after parts
  refine ⟨hbuilt.coherent (housed_after named), fun part e => hbuilt.submit_eq_error_iff,
    fun part e hrefused => ?_, fun part name q hsubmit => ?_⟩
  · have herror := hbuilt.submit_eq_error_iff.2 hrefused
    have hsame := attempt_of_error herror
    rw [after_append_singleton]
    exact ⟨Prod.ext herror hsame, hsame⟩
  · refine ⟨?_, fun more => ?_⟩
    · rw [after_append_singleton, attempt, hsubmit]
    · have hkeeps := keeps_after_append (parts ++ [part]) more
      rw [List.append_assoc, List.singleton_append, after_append_singleton] at hkeeps
      exact (hbuilt.has_attempt (congrArg Prod.fst hsubmit)).keeps hkeeps

namespace Sample

open Program

/-- An abstract method among others, with three parts that are refused: a signature that was
there in other blanks, one that is none, and a statement of the abstract method. -/
def mixedParts : List Part :=
  [.method "<App: void main()>" true false, .method " <App:  void main( )>" false false,
    .method "main()" false false, .method "<I: void go(int,int)>" false true,
    .stmt ⟨1⟩ .nop, .stmt ⟨2⟩ .nop, .declare ⟨1⟩ "x" "int", .target ⟨1⟩ ⟨2⟩,
    .stmt ⟨1⟩ (.ret none)]

theorem mixedParts_keep :
    Program.empty.knowsAll mixedParts = true ∧
    (after mixedParts).findMethod? "<I:   void go( int , int)> " = some ⟨2⟩ ∧
    (after mixedParts).Walk ((after mixedParts).startPoints ⟨1⟩) [⟨1⟩, ⟨2⟩] ∧
    (after mixedParts).submit (.method "<App: void main( )>" false true) =
      (.error (.duplicateMethod ⟨"App", "void", "main", []⟩), after mixedParts) ∧
    after (mixedParts ++ [.method "<App: void main( )>" false true]) = after mixedParts ∧
    (after (mixedParts ++ .declare ⟨2⟩ "y" "int" :: mixedParts)).local? ⟨5⟩ =
      some ⟨"y", .primitive .int, ⟨2⟩⟩ := by
  have hknows : Program.empty.knowsAll mixedParts = true := by decide +kernel
  obtain ⟨hcoherent, -, hrefused, hnames⟩ := programs_keep_their_parts mixedParts hknows
  have hmain : (after mixedParts).method? ⟨1⟩ =
      some ⟨⟨1⟩, ⟨"App", "void", "main", []⟩, true, false, none, [], [⟨1⟩, ⟨2⟩]⟩ := by
    decide +kernel
  have hgo : (after mixedParts).method? ⟨2⟩ =
      some ⟨⟨2⟩, ⟨"I", "void", "go", ["int", "int"]⟩, false, true, some ⟨1⟩, [⟨2⟩, ⟨3⟩], []⟩ := by
    decide +kernel
  have htaken : (after mixedParts).Refuses (.method "<App: void main( )>" false true)
      (.duplicateMethod ⟨"App", "void", "main", []⟩) := .repeated hmain (by decide +kernel)
  refine ⟨hknows, (hcoherent.found _ _).2 ⟨_, hgo, by decide +kernel⟩,
    ((hcoherent.through _ _ hmain).2 _).2 rfl, (hrefused _ _ htaken).1, (hrefused _ _ htaken).2, ?_⟩
  have hcount : (after mixedParts).counts.locals = 4 := by decide +kernel
  have hname : ((after mixedParts).submit (.declare ⟨2⟩ "y" "int")).1 =
      .ok (some (.declared ⟨5⟩)) :=
    congrArg (fun n => Except.ok (some (Name.declared ⟨n + 1⟩))) hcount
  have hnew := (hnames (.declare ⟨2⟩ "y" "int") (.declared ⟨5⟩) _ (Prod.ext hname rfl)).2 mixedParts
  have htype : JavaType.parse "int" = .primitive .int := by decide +kernel
  rw [Has, htype] at hnew
  exact hnew

end Sample

end TaintReplay
