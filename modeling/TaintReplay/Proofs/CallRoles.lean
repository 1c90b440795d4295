import Mathlib.Data.List.NodupEquivFin
import TaintReplay.Boundary
import TaintReplay.Proofs.BuiltPrograms

/-!
# Roles at a call

A local may have several roles at one call: it may be the receiver, be passed at several
positions and take the result. To the method called, an access path below that local is one
taint for each role.

All these taints are found but for one case. Of the positions that a local is passed at, only
the first counts, and the flows that start at the others are not followed
(`Sample.repeated_argument_missed`). So the taints found are those of all roles exactly if
the local is not passed twice.

## Main results

* `Stmt.mem_rolesOnCall_iff`: the roles that are found are those that repeat no argument.
* `Stmt.exists_repeated_role_iff`: a role is passed over if the local is passed twice.
* `roles_are_found_but_for_repeats`: which taints are found, and when these are all.
-/

namespace TaintReplay

/-! ## Roles of a local -/

namespace Stmt

/-- The local has the role at the call that the statement makes. The role of the result
counts only if asked for. -/
def HasRole (s : Stmt) (l : LocalId) (withResult : Bool) : TaintRole → Prop
  | .field => ∃ call, s.call? = some call ∧ call.receiver = some l
  | .parameter index =>
    ∃ call i, s.call? = some call ∧ index = some i ∧ call.arguments[i]? = some (.ofLocal l)
  | .returned => withResult = true ∧ s.result? = some l
  | .gapBase => False

/-- The role is that of an argument, and the local is passed before it too. -/
def RepeatsArgument (s : Stmt) (l : LocalId) (role : TaintRole) : Prop :=
  ∃ call i j, s.call? = some call ∧ role = .parameter (some i) ∧ j < i ∧
    call.arguments[j]? = some (.ofLocal l)

variable {s : Stmt} {call : Call} {l : LocalId} {withResult : Bool}

/-- The position that is found is the first one. -/
theorem idxOf?_arguments_iff {arguments : List Value} {i : Nat} :
    arguments.idxOf? (.ofLocal l) = some i ↔
      arguments[i]? = some (.ofLocal l) ∧ ∀ j < i, arguments[j]? ≠ some (.ofLocal l) := by
  rw [List.idxOf?_eq_some_iff]
  constructor
  · rintro ⟨hlt, hi, hbefore⟩
    refine ⟨List.getElem?_eq_some_iff.2 ⟨hlt, hi⟩, fun j hj hfound => ?_⟩
    obtain ⟨_, hsame⟩ := List.getElem?_eq_some_iff.1 hfound
    exact hbefore j hj hsame
  · rintro ⟨hfound, hbefore⟩
    obtain ⟨hlt, hi⟩ := List.getElem?_eq_some_iff.1 hfound
    refine ⟨hlt, hi, fun j hj hsame => ?_⟩
    exact hbefore j hj (List.getElem?_eq_some_iff.2 ⟨Nat.lt_trans hj hlt, hsame⟩)

/-- A statement without a call has no result. -/
theorem call?_isSome_of_result? (h : s.result? = some l) : s.call?.isSome = true := by
  unfold result? at h
  unfold call?
  split at h <;> simp_all

/-- The roles that are found are those that repeat no argument. -/
theorem mem_rolesOnCall_iff {role : TaintRole} :
    role ∈ s.rolesOnCall l withResult ↔
      s.HasRole l withResult role ∧ ¬ s.RepeatsArgument l role := by
  unfold rolesOnCall
  cases hcall : s.call? with
  | none =>
      refine iff_of_false List.not_mem_nil ?_
      rintro ⟨hrole, -⟩
      cases role with
      | parameter index => simp [HasRole, hcall] at hrole
      | field => simp [HasRole, hcall] at hrole
      | returned =>
          have hsome := call?_isSome_of_result? hrole.2
          rw [hcall] at hsome
          cases hsome
      | gapBase => exact hrole
  | some call =>
      cases role with
      | parameter index =>
          cases index with
          | none => simp [HasRole]
          | some i => simp [HasRole, RepeatsArgument, hcall, idxOf?_arguments_iff]
      | field => simp [HasRole, RepeatsArgument, hcall]
      | returned => simp [HasRole, RepeatsArgument]
      | gapBase => simp [HasRole]

end Stmt

/-- A local is passed twice exactly if it is passed at some position and at one before it. -/
theorem Call.passes_before_iff {call : Call} {l : LocalId} :
    (∃ i j : Nat, call.arguments[i]? = some (.ofLocal l) ∧ j < i ∧
      call.arguments[j]? = some (.ofLocal l)) ↔ 1 < call.arguments.count (.ofLocal l) := by
  show _ ↔ 2 ≤ call.arguments.count (.ofLocal l)
  rw [← List.duplicate_iff_two_le_count, List.duplicate_iff_exists_distinct_get]
  constructor
  · rintro ⟨i, j, hi, hlt, hj⟩
    obtain ⟨hbound, hlast⟩ := List.getElem?_eq_some_iff.1 hi
    obtain ⟨hbound', hfirst⟩ := List.getElem?_eq_some_iff.1 hj
    exact ⟨⟨j, hbound'⟩, ⟨i, hbound⟩, hlt, hfirst.symm, hlast.symm⟩
  · rintro ⟨j, i, hlt, hfirst, hlast⟩
    exact ⟨i, j, List.getElem?_eq_some_iff.2 ⟨i.isLt, hlast.symm⟩, hlt,
      List.getElem?_eq_some_iff.2 ⟨j.isLt, hfirst.symm⟩⟩

/-- A role is passed over exactly if the local is passed twice. -/
theorem Stmt.exists_repeated_role_iff {s : Stmt} {call : Call} {l : LocalId} {withResult : Bool}
    (hcall : s.call? = some call) :
    (∃ role, s.HasRole l withResult role ∧ s.RepeatsArgument l role) ↔
      1 < call.arguments.count (.ofLocal l) := by
  rw [← Call.passes_before_iff]
  constructor
  · rintro ⟨role, hrole, call', i, j, hcall', rfl, hlt, hj⟩
    obtain rfl : call = call' := Option.some.inj (hcall.symm.trans hcall')
    obtain ⟨call', i', hcall', hindex, hi⟩ := hrole
    obtain rfl : call = call' := Option.some.inj (hcall.symm.trans hcall')
    obtain rfl : i = i' := Option.some.inj hindex
    exact ⟨i, j, hi, hlt, hj⟩
  · rintro ⟨i, j, hi, hlt, hj⟩
    exact ⟨.parameter (some i), ⟨call, i, hcall, rfl, hi⟩, ⟨call, i, j, hcall, rfl, hlt, hj⟩⟩

/-! ## Taints of a path -/

/-- The taint speaks of what an access path names: it has its type, its fields and its
reach, at the boundary of the method itself. -/
structure Taint.SpeaksOf (t : Taint) (path : AccessPath) : Prop where
  base : t.base = path.baseType.render
  fields : t.path = path.fields.map fun f => ⟨f.field.render, f.type.render⟩
  subFields : t.subFields = path.subFields
  gap : t.gap = none

theorem AccessPath.toTaint_eq_iff {path : AccessPath} {role : TaintRole} {t : Taint} :
    path.toTaint role none = t ↔ t.SpeaksOf path ∧ t.role = role := by
  constructor
  · rintro rfl
    exact ⟨⟨rfl, rfl, rfl, rfl⟩, rfl⟩
  · rintro ⟨⟨hbase, hfields, hsub, hgap⟩, hrole⟩
    cases t
    simp_all [toTaint]

theorem Program.mem_taintsOnCall_iff {p : Program} {s : StmtId} {stmt : Stmt}
    (hstmt : p.stmt? s = some stmt) (path : AccessPath) (withResult : Bool) (t : Taint) :
    t ∈ p.taintsOnCall path s withResult ↔
      t.SpeaksOf path ∧ stmt.HasRole path.base withResult t.role ∧
        ¬ stmt.RepeatsArgument path.base t.role := by
  rw [taintsOnCall, hstmt]
  simp only [OrdSet.mem_ofList, List.mem_map, AccessPath.toTaint_eq_iff, Stmt.mem_rolesOnCall_iff]
  constructor
  · rintro ⟨role, hrole, hspeaks, rfl⟩
    exact ⟨hspeaks, hrole⟩
  · rintro ⟨hspeaks, hrole⟩
    exact ⟨t.role, hrole, hspeaks, rfl⟩

/-- At a call, the taints of an access path are those of the roles of its local that repeat
no argument. They are the taints of all its roles exactly if the local is passed at most
once. -/
theorem roles_are_found_but_for_repeats {p : Program} {s : StmtId} {stmt : Stmt} {call : Call}
    (hstmt : p.stmt? s = some stmt) (hcall : stmt.call? = some call) (path : AccessPath)
    (withResult : Bool) :
    (∀ t, t ∈ p.taintsOnCall path s withResult ↔
      t.SpeaksOf path ∧ stmt.HasRole path.base withResult t.role ∧
        ¬ stmt.RepeatsArgument path.base t.role) ∧
    ((∀ t, t ∈ p.taintsOnCall path s withResult ↔
      t.SpeaksOf path ∧ stmt.HasRole path.base withResult t.role) ↔
        call.arguments.count (.ofLocal path.base) ≤ 1) := by
  have hmem := Program.mem_taintsOnCall_iff hstmt path withResult
  refine ⟨hmem, ?_⟩
  rw [← Nat.not_lt, ← Stmt.exists_repeated_role_iff hcall]
  constructor
  · rintro hall ⟨role, hrole, hrepeats⟩
    -- the taint of the repeated role would have to be found
    have hspeaks := AccessPath.toTaint_eq_iff.1 (Eq.refl (path.toTaint role none))
    have hfound := (hall _).2 ⟨hspeaks.1, hrole⟩
    exact ((hmem _).1 hfound).2.2 hrepeats
  · intro hnone t
    rw [hmem]
    exact ⟨fun h => ⟨h.1, h.2.1⟩, fun h => ⟨h.1, h.2, fun hrepeats => hnone ⟨_, h.2, hrepeats⟩⟩⟩

namespace Sample

/-- The receiver of a call is its second argument. -/
def selfCall : Call := ⟨apply, some ⟨1⟩, [.constant "k", .ofLocal ⟨1⟩]⟩

/-- The receiver takes the result too. -/
def everywhere : Stmt := ⟨⟨4⟩, ⟨1⟩, .invoke (some ⟨1⟩) selfCall⟩

/-- A local is passed twice. -/
def twice : Stmt := ⟨⟨5⟩, ⟨1⟩, .invoke none ⟨apply, none, [.ofLocal ⟨1⟩, .ofLocal ⟨1⟩]⟩⟩

/-- The program makes these calls too. -/
def busyProgram : Program := (program.pushStmt ⟨1⟩ everywhere.action).pushStmt ⟨1⟩ twice.action

theorem built_busyProgram : busyProgram.Built :=
  (built_program.pushStmt rfl rfl).pushStmt rfl rfl

/-- A local with every role is found as the receiver, as the second argument and as the
result. -/
theorem everywhere_found :
    busyProgram.Built ∧ busyProgram.stmt? ⟨4⟩ = some everywhere ∧ everywhere.call? = some selfCall ∧
    selfCall.arguments.count (.ofLocal ⟨1⟩) ≤ 1 ∧
    ∀ role ∈ [TaintRole.field, .parameter (some 1), .returned],
      (localPath 1 true).toTaint role none ∈ busyProgram.taintsOnCall (localPath 1 true) ⟨4⟩ true := by
  have hstmt : busyProgram.stmt? ⟨4⟩ = some everywhere := by decide
  have honce : selfCall.arguments.count (.ofLocal ⟨1⟩) ≤ 1 := by decide
  refine ⟨built_busyProgram, hstmt, rfl, honce, fun role hrole => ?_⟩
  have hall := (roles_are_found_but_for_repeats hstmt rfl (localPath 1 true) true).2.2 honce
  refine (hall _).2 ⟨(AccessPath.toTaint_eq_iff.1 rfl).1, ?_⟩
  rcases List.mem_cons.1 hrole with rfl | hrole
  · exact ⟨_, rfl, rfl⟩
  · rcases List.mem_cons.1 hrole with rfl | hrole
    · exact ⟨_, 1, rfl, rfl, rfl⟩
    · obtain rfl := List.mem_singleton.1 hrole
      exact ⟨rfl, rfl⟩

/-- A local that is passed twice has the role of the second argument too, but the taint of
this role is not found. -/
theorem repeated_argument_missed :
    busyProgram.stmt? ⟨5⟩ = some twice ∧ twice.call?.isSome = true ∧
    twice.HasRole ⟨1⟩ false (.parameter (some 1)) ∧
    (localPath 1 false).toTaint (.parameter (some 1)) none ∉
      busyProgram.taintsOnCall (localPath 1 false) ⟨5⟩ false :=
  ⟨by decide, rfl, ⟨_, 1, rfl, rfl, rfl⟩, by decide +kernel⟩

end Sample

end TaintReplay
