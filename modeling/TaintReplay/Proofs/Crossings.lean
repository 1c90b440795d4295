import TaintReplay.Proofs.ArrangedPrograms
import TaintReplay.Proofs.CallRoles
import TaintReplay.Proofs.Queries
import TaintReplay.Proofs.WrittenForms

/-!
# There and back across a boundary

An access path becomes taints at a call, and a taint becomes an access path again. On the way
its types and its fields are written and read, and its local is replaced by a role and found by
the role. If the path was read from texts in the first place, nothing is lost: each taint leads
back to this very path, and only the classes that declare the fields are new to the hierarchy.

Through a method it is the other way round. A taint becomes a path as the method is entered, and
the path becomes taints at an exit. The tables used are different: entering goes from a position
to a local, leaving goes from a local to its position, to the receiver and to what is returned.
In a program that was created part by part the receiver and the parameters are all different
locals, so a taint that is left alone comes back in its own role, and in no other unless it is
returned as well.

## Main results

* `readFields_written`: chains of fields are read from their written forms.
* `Stmt.localOnCall_of_hasRole`: at a call, a role leads back to the local that has it.
* `Method.mem_rolesOnReturn_iff`: in which roles a local that was entered by leaves the method.
* `paths_come_back_from_calls`: from a path to its taints at a call and back.
* `inputs_come_back_from_callbacks`: from a taint to its path inside a method and back.
-/

namespace TaintReplay

variable {σ : Type}

open Run

/-! ## Fields -/

namespace PathField

/-- The written form of a field and of its type. -/
def written (f : PathField) : FieldStep := ⟨f.field.render, f.type.render⟩

/-- The field and its type are read from a step of a chain. -/
def IsReadFrom (f : PathField) (step : FieldStep) : Prop :=
  FieldSignature.parse step.field = .ok f.field ∧ f.type = JavaType.parse step.type

end PathField

/-- Legible fields are read from their written forms, however many there are. -/
theorem readFields_written {fields : List PathField}
    (h : ∀ f ∈ fields, f.field.Legible ∧ f.type.Legible) :
    readFields (fields.map PathField.written) = ⟨fields, none⟩ := by
  induction fields with
  | nil => rfl
  | cons f fields ih =>
      obtain ⟨hfield, htype⟩ := h f List.mem_cons_self
      have hrest := ih fun g hg => h g (List.mem_cons_of_mem _ hg)
      simp only [List.map_cons, readFields, PathField.written, hfield.parse_render,
        htype.parse_render]
      rw [hrest]

/-- Where a chain is read to its end, each step gives a field. -/
theorem isReadFrom_of_readFields {steps : List FieldStep} (h : (readFields steps).error = none) :
    List.Forall₂ (fun step f => PathField.IsReadFrom f step) steps (readFields steps).fields := by
  induction steps with
  | nil => exact .nil
  | cons step steps ih =>
      cases hfield : FieldSignature.parse step.field with
      | error e => simp [readFields, hfield] at h
      | ok field =>
          simp only [readFields, hfield] at h ⊢
          exact .cons ⟨hfield, rfl⟩ (ih h)

/-- The fields of a taint are read, and the classes that declare them become known. -/
theorem Engine.exec_resolveFields (t : Taint) (s : Session σ) :
    ∃ history, (resolveFields t).exec s = (.ok t.fields?,
      { s with hierarchy := s.hierarchy.ensureAll (readFields t.path).classes, history }) := by
  obtain ⟨history, hclasses⟩ := exec_forM_ensureClass (readFields t.path).classes s
  unfold resolveFields Taint.fields?
  simp only
  rw [exec_bind, hclasses]
  cases (readFields t.path).error with
  | none => exact ⟨history, rfl⟩
  | some e => exact ⟨_, rfl⟩

/-! ## Classes that become known -/

namespace Hierarchy

/-- Another hierarchy knows some names more, as phantoms, and is the same otherwise. -/
structure Mentions (h : Hierarchy) (names : List String) (other : Hierarchy) : Prop where
  links : other.links = h.links
  found : ∀ name, other.find? name =
    if name ∈ names ∧ h.find? name = none then some ⟨name, .concrete, true⟩ else h.find? name

theorem mentions_ensureAll (h : Hierarchy) (names : List String) :
    h.Mentions names (h.ensureAll names) := by
  refine ⟨ensureAll_eq h links_ensure names, fun name => ?_⟩
  induction names generalizing h with
  | nil => simp [ensureAll]
  | cons first names ih =>
      show ((h.ensure first).ensureAll names).find? name = _
      rw [ih, find?_ensure]
      by_cases hfirst : name = first
      · subst hfirst
        cases h.find? name <;> simp
      · simp [hfirst]

end Hierarchy

/-! ## At a call -/

namespace AccessPath

/-- The types and the fields of the path were read from texts. -/
structure IsRead (path : AccessPath) : Prop where
  baseType : ∃ text, JavaType.parse text = path.baseType
  fields : ∀ f ∈ path.fields, ∃ step, PathField.IsReadFrom f step

/-- The classes that declare the fields of a path. -/
def classes (path : AccessPath) : List String := path.fields.map (·.field.className)

variable {path : AccessPath}

theorem IsRead.legible_baseType (h : path.IsRead) : path.baseType.Legible := by
  obtain ⟨text, htext⟩ := h.baseType
  exact htext ▸ JavaType.legible_parse text

theorem IsRead.legible_fields (h : path.IsRead) :
    ∀ f ∈ path.fields, f.field.Legible ∧ f.type.Legible := by
  intro f hf
  obtain ⟨step, hfield, htype⟩ := h.fields f hf
  exact ⟨FieldSignature.legible_of_parse hfield, htype ▸ JavaType.legible_parse step.type⟩

/-- A taint that speaks of a path that was read has the fields of the path. -/
theorem IsRead.readFields_eq (h : path.IsRead) {t : Taint} (hspeaks : t.SpeaksOf path) :
    readFields t.path = ⟨path.fields, none⟩ := by
  rw [hspeaks.fields]
  exact readFields_written h.legible_fields

/-- A taint that speaks of a path that was read is the path again, given its local. -/
theorem IsRead.toPath_eq (h : path.IsRead) {t : Taint} (hspeaks : t.SpeaksOf path) :
    t.toPath path.base path.fields t.subFields = path := by
  rw [Taint.toPath, hspeaks.base, h.legible_baseType.parse_render, hspeaks.subFields]

end AccessPath

/-- At a call, a role leads back to the local that has it. -/
theorem Stmt.localOnCall_of_hasRole {s : Stmt} {l : LocalId} {withResult : Bool} {t : Taint}
    (h : s.HasRole l withResult t.role) : s.localOnCall t = .ok (some l) := by
  unfold localOnCall
  cases hrole : t.role with
  | parameter index =>
      rw [hrole] at h
      obtain ⟨call, i, hcall, rfl, hargument⟩ := h
      simp [hcall, hargument, Value.local?]
  | field =>
      rw [hrole] at h
      obtain ⟨call, hcall, hreceiver⟩ := h
      simp [hcall, hreceiver]
  | returned =>
      rw [hrole] at h
      obtain ⟨call, hcall⟩ := Option.isSome_iff_exists.1 (call?_isSome_of_result? h.2)
      simp [hcall, h.2]
  | gapBase =>
      rw [hrole] at h
      exact h.elim

/-- At every statement, each taint of a path that was read stands for this very path. Finding
it does not fail, and nothing happens to the session but that the classes that declare the
fields of the path become known, which is reported. -/
theorem paths_come_back_from_calls (s : Session σ) (stmt : StmtId) (withResult : Bool)
    {path : AccessPath} (hread : path.IsRead) :
    ∀ t ∈ s.program.taintsOnCall path stmt withResult,
      ∃ u, (Engine.pathOnCall t stmt).exec s = (.ok (some path), u) ∧
        s.hierarchy.Mentions path.classes u.hierarchy ∧
        u = { s with hierarchy := u.hierarchy, history := u.history } := by
  intro t ht
  cases hstmt : s.program.stmt? stmt with
  | none =>
      rw [Program.taintsOnCall, hstmt] at ht
      cases ht
  | some code =>
      obtain ⟨hspeaks, hrole, -⟩ := (Program.mem_taintsOnCall_iff hstmt path withResult t).1 ht
      obtain ⟨history, hresolve⟩ := Engine.exec_resolveFields t s
      rw [Taint.fields?, hread.readFields_eq hspeaks] at hresolve
      refine ⟨{ s with hierarchy := s.hierarchy.ensureAll path.classes, history }, ?_,
        s.hierarchy.mentions_ensureAll path.classes, rfl⟩
      unfold Engine.pathOnCall
      rw [exec_get_bind, hstmt]
      simp only [Stmt.localOnCall_of_hasRole hrole, Run.ofExcept, pure_bind]
      rw [exec_bind, hresolve]
      simp only [exec_pure, hread.toPath_eq hspeaks]
      rfl

namespace Sample

/-- The size of the box that follows the first of some boxes. -/
def boxPath : AccessPath where
  base := ⟨1⟩
  baseType := .array (.class "Box")
  fields := [⟨⟨"Box", "Box[]", "next"⟩, .array (.class "Box")⟩,
    ⟨⟨"Box", "int", "size"⟩, .primitive .int⟩]
  subFields := true

theorem isRead_boxPath : boxPath.IsRead where
  baseType := ⟨" Box []", by decide +kernel⟩
  fields f hf := by
    rcases List.mem_cons.1 hf with rfl | hf
    · exact ⟨⟨"<Box:  Box[]  next> ", "Box [] "⟩, by decide +kernel, by decide +kernel⟩
    · obtain rfl := List.mem_singleton.1 hf
      exact ⟨⟨"<Box: int size>", "int"⟩, by decide +kernel, by decide +kernel⟩

def busySession : Session Unit := .start hierarchy busyProgram .empty () []

/-- The path comes back from the call at which its local is the receiver, the second argument
and the result, and makes its class known. -/
theorem boxPath_comes_back :
    boxPath.IsRead ∧ busySession.hierarchy.find? "Box" = none ∧
    ∀ role ∈ [TaintRole.field, .parameter (some 1), .returned],
      ∃ u, (Engine.pathOnCall (boxPath.toTaint role none) ⟨4⟩).exec busySession =
        (.ok (some boxPath), u) ∧ u.hierarchy.find? "Box" = some ⟨"Box", .concrete, true⟩ := by
  have hnew : busySession.hierarchy.find? "Box" = none := by decide
  have hfound : ∀ role ∈ [TaintRole.field, .parameter (some 1), .returned],
      boxPath.toTaint role none ∈ busySession.program.taintsOnCall boxPath ⟨4⟩ true := by
    decide +kernel
  refine ⟨isRead_boxPath, hnew, fun role hrole => ?_⟩
  obtain ⟨u, hu, hmentions, -⟩ :=
    paths_come_back_from_calls busySession ⟨4⟩ true isRead_boxPath _ (hfound role hrole)
  refine ⟨u, hu, ?_⟩
  rw [hmentions.found, hnew]
  decide

end Sample

/-! ## Through a method -/

/-- A role as a method sees it: the object that a method is called back on is its receiver. -/
def TaintRole.inside : TaintRole → TaintRole
  | .gapBase => .field
  | role => role

namespace Method

variable {m : Method} {t : Taint} {l : LocalId}

theorem inside_ne_returned (hentered : m.localInside t = .ok l) :
    t.role.inside.kind ≠ .returned := by
  unfold localInside at hentered
  cases hrole : t.role <;> simp_all [TaintRole.inside, TaintRole.kind]

theorem not_mem_parameters_of_receiver (hown : m.ownLocals.Nodup)
    (hreceiver : m.receiver = some l) : l ∉ m.parameters := by
  rw [ownLocals, hreceiver] at hown
  exact (List.nodup_cons.1 hown).1

/-- The receiver leaves as the receiver, and as what is returned if it is. -/
theorem mem_rolesOnReturn_of_receiver (hown : m.ownLocals.Nodup) (hreceiver : m.receiver = some l)
    (code : Stmt) (role : TaintRole) :
    role ∈ m.rolesOnReturn code l ↔
      role = .field ∨ code.returned?.bind Value.local? = some l ∧ role = .returned := by
  have hindex : m.parameterIndex? l = none :=
    List.idxOf?_eq_none_iff.2 (not_mem_parameters_of_receiver hown hreceiver)
  by_cases hreturned : code.returned?.bind Value.local? = some l <;>
    simp [rolesOnReturn, hreceiver, hindex, hreturned]

/-- A parameter leaves as the parameter of its position, and as what is returned if it is. -/
theorem mem_rolesOnReturn_of_parameter (hown : m.ownLocals.Nodup) {i : Nat}
    (hparameter : m.parameters[i]? = some l) (code : Stmt) (role : TaintRole) :
    role ∈ m.rolesOnReturn code l ↔
      role = .parameter (some i) ∨
        code.returned?.bind Value.local? = some l ∧ role = .returned := by
  have hreceiver : m.receiver ≠ some l := fun hreceiver =>
    not_mem_parameters_of_receiver hown hreceiver (List.mem_of_getElem? hparameter)
  have hindex : m.parameterIndex? l = some i :=
    (idxOf?_eq_some_iff_of_nodup (List.nodup_append.1 hown).2.1).2 hparameter
  by_cases hreturned : code.returned?.bind Value.local? = some l <;>
    simp [rolesOnReturn, hreceiver, hindex, hreturned]

/-- The local that a taint enters a method by leaves the method in the role of the taint, and
as what is returned if it is. -/
theorem mem_rolesOnReturn_iff (hown : m.ownLocals.Nodup) (hentered : m.localInside t = .ok l)
    (code : Stmt) (role : TaintRole) :
    role ∈ m.rolesOnReturn code l ↔
      role = t.role.inside ∨ code.returned?.bind Value.local? = some l ∧ role = .returned := by
  unfold localInside at hentered
  cases hrole : t.role with
  | returned => simp [hrole] at hentered
  | parameter index =>
      simp only [hrole] at hentered
      split at hentered
      · rename_i hparameter
        cases hentered
        obtain ⟨i, rfl, hi⟩ := Option.bind_eq_some_iff.1 hparameter
        exact mem_rolesOnReturn_of_parameter hown hi code role
      · cases hentered
  | field =>
      simp only [hrole] at hentered
      split at hentered
      · rename_i hreceiver
        cases hentered
        exact mem_rolesOnReturn_of_receiver hown hreceiver code role
      · cases hentered
  | gapBase =>
      simp only [hrole] at hentered
      split at hentered
      · rename_i hreceiver
        cases hentered
        exact mem_rolesOnReturn_of_receiver hown hreceiver code role
      · cases hentered

end Method

/-- A method is entered by the local that the taint stands for, with the fields of the taint. -/
theorem Engine.eq_toPath_of_pathInside {t : Taint} {m : Method} {s u : Session σ}
    {path : AccessPath} (h : (pathInside t m).exec s = (.ok (some path), u)) :
    ∃ l, m.localInside t = .ok l ∧ (readFields t.path).error = none ∧
      path = t.toPath l (readFields t.path).fields true := by
  unfold pathInside at h
  cases hlocal : m.localInside t with
  | error e =>
      rw [hlocal] at h
      cases h
  | ok l =>
      obtain ⟨history, hresolve⟩ := exec_resolveFields t s
      simp only [hlocal, Run.ofExcept, pure_bind] at h
      rw [exec_bind, hresolve] at h
      unfold Taint.fields? at h
      cases herror : (readFields t.path).error with
      | some e =>
          rw [herror] at h
          cases h
      | none =>
          rw [herror] at h
          cases h
          exact ⟨l, rfl, rfl, rfl⟩

namespace Taint

/-- What becomes of a taint that was taken into a method called back in a gap, and out of it
again: it has the role that the method sees, its types and fields are written as they were
read, and everything below it is tainted. -/
structure ComesBackAs (t : Taint) (gap : Gap) (back : Taint) : Prop where
  role : back.role = t.role.inside
  base : back.base = (JavaType.parse t.base).render
  path : List.Forall₂ (fun step printed =>
    ∃ f, PathField.IsReadFrom f step ∧ printed = f.written) t.path back.path
  subFields : back.subFields = true
  gap : back.gap = some gap

/-- The path that a taint enters a method by is written as the taint that comes back. -/
theorem comesBackAs_toTaint {t : Taint} (hread : (readFields t.path).error = none) (l : LocalId)
    (gap : Gap) :
    t.ComesBackAs gap
      ((t.toPath l (readFields t.path).fields true).toTaint t.role.inside (some gap)) where
  role := rfl
  base := rfl
  path := by
    show List.Forall₂ _ t.path ((readFields t.path).fields.map PathField.written)
    rw [List.forall₂_map_right_iff]
    exact (isReadFrom_of_readFields hread).imp fun step f hf => ⟨f, hf, rfl⟩
  subFields := rfl
  gap := rfl

end Taint

/-- A method that was entered by a path and leaves it alone gives the taint back that the path
stands for. At each of its statements the path leaves the method as this one taint and, if the
statement returns the local of the path, as the same taint in the role of the result. -/
theorem inputs_come_back_from_callbacks {s u : Session σ} (hbuilt : s.program.Built)
    {id : MethodId} {m : Method} (hm : s.program.method? id = some m) {t : Taint}
    {path : AccessPath} (hinside : (Engine.pathInside t m).exec s = (.ok (some path), u))
    {stmt : StmtId} {code : Stmt} (hcode : s.program.stmt? stmt = some code)
    (howner : code.method = id) (gap : Gap) :
    ∃ back, t.ComesBackAs gap back ∧ back.kind ≠ .returned ∧
      ∀ other, other ∈ s.program.taintsOnReturn path stmt (some gap) ↔
        other = back ∨
          code.returned?.bind Value.local? = some path.base ∧
            other = { back with role := .returned } := by
  obtain ⟨l, hlocal, hread, rfl⟩ := Engine.eq_toPath_of_pathInside hinside
  have hown : m.ownLocals.Nodup :=
    (List.nodup_flatMap.1 hbuilt.arranged.apart).1 m (Program.mem_methods hm)
  have hmethod : s.program.methodOf? stmt = some m := by
    rw [Program.methodOf?, hcode, Option.bind_some, howner, hm]
  have hroles := Method.mem_rolesOnReturn_iff hown hlocal code
  refine ⟨_, Taint.comesBackAs_toTaint hread l gap, Method.inside_ne_returned hlocal,
    fun other => ?_⟩
  simp only [Program.taintsOnReturn, hcode, hmethod, OrdSet.mem_ofList, List.mem_map]
  constructor
  · rintro ⟨role, hrole, rfl⟩
    rcases (hroles role).1 hrole with rfl | ⟨hreturned, rfl⟩
    · exact .inl rfl
    · exact .inr ⟨hreturned, rfl⟩
  · rintro (rfl | ⟨hreturned, rfl⟩)
    · exact ⟨_, (hroles _).2 (.inl rfl), rfl⟩
    · exact ⟨_, (hroles _).2 (.inr ⟨hreturned, rfl⟩), rfl⟩

namespace Sample

def calledBack : Session Unit := .start hierarchy program .empty () []

/-- The size of a box, written with more blanks than needed. -/
def looseTaint : Taint :=
  ⟨.parameter (some 0), " Box ", [⟨"<Box:  int  size> ", " int"⟩], false, none⟩

/-- The same, as the callback gives it back. -/
def neatTaint (role : TaintRole) : Taint :=
  ⟨role, "Box", [⟨"<Box: int size>", "int"⟩], true, some callback⟩

/-- The callback, which returns its parameter, gives back the taint of its parameter and that of
its result, and nothing else. -/
theorem looseTaint_comes_back :
    calledBack.program.Built ∧ ∃ m path u, calledBack.program.method? ⟨2⟩ = some m ∧
      (Engine.pathInside looseTaint m).exec calledBack = (.ok (some path), u) ∧
      ∀ other, other ∈ calledBack.program.taintsOnReturn path ⟨3⟩ (some callback) ↔
        other = neatTaint (.parameter (some 0)) ∨ other = neatTaint .returned := by
  let m : Method := ⟨⟨2⟩, call, false, false, some ⟨3⟩, [⟨4⟩], [⟨3⟩]⟩
  let path : AccessPath := ⟨⟨4⟩, .class "Box", [⟨⟨"Box", "int", "size"⟩, .primitive .int⟩], true⟩
  let code : Stmt := ⟨⟨3⟩, ⟨2⟩, .ret (some (.ofLocal ⟨4⟩))⟩
  have hmethod : calledBack.program.method? ⟨2⟩ = some m := by decide
  have hcode : calledBack.program.stmt? ⟨3⟩ = some code := by decide
  have hinside : (Engine.pathInside looseTaint m).exec calledBack = (.ok (some path), _) :=
    Run.exec_of_value (by decide +kernel)
  have hbuilt : calledBack.program.Built := built_program
  obtain ⟨back, -, -, hall⟩ :=
    inputs_come_back_from_callbacks hbuilt hmethod hinside hcode rfl callback
  have hneat : neatTaint (.parameter (some 0)) ∈
      calledBack.program.taintsOnReturn path ⟨3⟩ (some callback) := by decide +kernel
  rcases (hall _).1 hneat with rfl | ⟨-, hrole⟩
  · refine ⟨hbuilt, m, path, _, hmethod, hinside, fun other => ?_⟩
    rw [hall]
    exact or_congr_right (and_iff_right rfl)
  · cases congrArg Place.role hrole

end Sample

end TaintReplay
