import TaintReplay.Proofs.Locations

/-!
# Reversed flows lead back

The search for aliases follows flows from the sink to the source. This is sound only if it
gets back to where the flow set out from, although the two ways make different tests: going
forward, the taint is compared with the source and what is taken from it has to fit the
sink; going back, the new taint is compared with the sink and has to fit the source.

The tests cancel out. A moved taint has the base type of the sink and its path begins with
that of the sink, so it stands at the sink (`Taint.standsAt_movedTo`), and what is taken
from it is of the sink's own type (`Taint.typeTaken_movedTo`). Casts go both ways, and what
was carried along is the same on both ways (`Taint.residual_movedTo`). A whole object of which
nothing below is tainted is the one thing that a sink with fields does not get hold of again.

## Main results

* `Hierarchy.castCompatible_self`, `Hierarchy.castCompatible_comm`: casts are reflexive and
  symmetric.
* `Hierarchy.applyFlow?_root_eq_some_iff`: what a flow without gaps does at the bottom of a
  stack.
* `reversed_flows_lead_back`: the reversed flow leads back to the source, with all that was
  carried along.
-/

namespace TaintReplay

/-! ## Casts -/

theorem JavaType.isReference_of_isObject {t : JavaType} (h : t.isObject = true) :
    t.isReference = true := by
  rw [beq_iff_eq.1 h]
  rfl

namespace Hierarchy

/-- Every type is cast compatible with itself. -/
theorem castCompatible_self (h : Hierarchy) (t : JavaType) : h.castCompatible t t = true := by
  unfold castCompatible
  split
  · rename_i hobject
    exact JavaType.isReference_of_isObject hobject
  · simp

/-- Casts go both ways or neither. -/
theorem castCompatible_comm (h : Hierarchy) (t u : JavaType) :
    h.castCompatible t u = h.castCompatible u t := by
  unfold castCompatible
  by_cases ht : t.isObject = true
  · by_cases hu : u.isObject = true
    · simp [ht, hu, JavaType.isReference_of_isObject]
    · simp [ht, hu]
  · by_cases hu : u.isObject = true
    · simp [ht, hu]
    · have hbeq : (t == u) = (u == t) := BEq.comm
      simp only [ht, hu, Bool.false_eq_true, if_false, Bool.or_assoc, hbeq]
      rw [Bool.or_comm (h.canStore t u)]

end Hierarchy

/-! ## Taints at the sink -/

namespace Taint

variable {t : Taint} {source sink : Endpoint}

/-- What a taint carries along comes to stand behind the sink. -/
theorem residual_movedTo (t : Taint) (source sink : Endpoint) (gap : Option Gap) :
    (t.movedTo source sink gap).residual sink = t.residual source := List.drop_left

/-- What is taken from a moved taint at the sink is of the sink's own type, however long the
paths are. -/
theorem typeTaken_movedTo (t : Taint) (source sink : Endpoint) (gap : Option Gap) :
    (t.movedTo source sink gap).typeTaken sink = JavaType.parse sink.lastType := by
  have hpath : (t.movedTo source sink gap).path = sink.path ++ t.residual source := rfl
  unfold typeTaken
  rw [if_neg (by simp [hpath])]
  cases hlength : sink.path.length with
  | zero =>
      have hnil : sink.path = [] := List.length_eq_zero_iff.1 hlength
      simp only [typeAt, Place.lastType, hnil]
      rfl
  | succ n =>
      have hlast : (sink.path ++ t.residual source)[n]? = sink.path.getLast? := by
        rw [List.getElem?_append_left (by omega), List.getLast?_eq_getElem?, hlength,
          Nat.add_sub_cancel]
      simp only [typeAt, Place.lastType, Option.bind_some, hpath, hlast]
      rfl

/-- A path agrees with every beginning of it. -/
theorem all_zip_append (start rest : List FieldStep) :
    ((start ++ rest).zip start).all (fun (a, b) => a.field == b.field) = true :=
  all_zip_iff.2 (.inr ((List.prefix_append start rest).map _))

/-- A moved taint agrees with the sink, unless it is a whole object of which nothing below
is tainted and the sink asks for a field. -/
theorem agreesWith_movedTo {gap : Option Gap}
    (hreach : ¬ (sink.kind = .field ∧ (t.movedTo source sink gap).path = [] ∧
      (t.movedTo source sink gap).subFields = false)) :
    (t.movedTo source sink gap).agreesWith sink = true := by
  have hpath : (t.movedTo source sink gap).path = sink.path ++ t.residual source := rfl
  unfold agreesWith
  split
  · rename_i hempty
    simp only [Bool.or_eq_true, bne_iff_ne]
    by_cases hkind : sink.kind = .field
    · right
      by_contra hclosed
      exact hreach ⟨hkind, List.isEmpty_iff.1 hempty, by simpa using hclosed⟩
    · exact .inl hkind
  · have hlong : decide ((t.movedTo source sink gap).path.length < sink.path.length) = false := by
      rw [hpath, List.length_append]
      exact decide_eq_false (by omega)
    rw [hlong, Bool.false_and, if_neg Bool.false_ne_true, hpath]
    exact all_zip_append sink.path (t.residual source)

/-- A moved taint stands at the sink that it was moved to. -/
theorem standsAt_movedTo (hgap : sink.gap = none) (hkind : sink.kind ≠ .gapBase)
    (hreach : ¬ (sink.kind = .field ∧ (t.movedTo source sink none).path = [] ∧
      (t.movedTo source sink none).subFields = false)) :
    (t.movedTo source sink none).standsAt sink = true := by
  have hagrees := agreesWith_movedTo hreach
  have hrole : (t.movedTo source sink none).role = .ofKind sink.kind sink.index := by
    simp [movedTo, ofKind, hkind]
  have hnone : (t.movedTo source sink none).gap = none := rfl
  unfold standsAt
  cases hsink : sink.kind with
  | parameter => simp [hrole, hsink, TaintRole.ofKind, hagrees]
  | field => simp [hrole, hsink, TaintRole.ofKind, hagrees]
  | returned => simp [hrole, hsink, TaintRole.ofKind, hagrees, hgap, hnone]
  | receiver => simp [hrole, hsink, TaintRole.ofKind]
  | gapBase => exact absurd hsink hkind

/-- No taint stands at the base object of a gap. -/
theorem kind_ne_gapBase_of_standsAt (hstands : t.standsAt source = true) :
    source.kind ≠ .gapBase := by
  intro hkind
  rw [standsAt, hkind] at hstands
  cases hstands

/-- Moved to the sink and back, a taint lies behind the source with what it carried along. -/
theorem movedTo_movedTo (hkind : source.kind ≠ .gapBase) :
    (t.movedTo source sink none).movedTo sink source none =
      .ofKind source.kind source.index source.base (source.path ++ t.residual source)
        (source.subFields || sink.subFields || t.subFields) none := by
  rw [movedTo, residual_movedTo, if_neg fun hboth => hkind hboth.1, subFields_movedTo,
    Bool.or_assoc]

end Taint

/-! ## Flows at the bottom of a stack -/

theorem Flow.isGapFree_iff {flow : Flow} :
    flow.isGapFree = true ↔ flow.source.gap = none ∧ flow.sink.gap = none := by
  simp [isGapFree]

/-- At the bottom of a stack there is no frame to leave. -/
theorem Arena.callerFrame_of_root (a : Arena) {p : Propagator} (hparent : p.parent = none) :
    a.callerFrame p = ⟨none, none, p.site⟩ := by
  rw [callerFrame, hparent]
  rfl

namespace Hierarchy

variable {h : Hierarchy} {a : Arena} {flow : Flow} {id : PropagatorId} {p : Propagator}

/-- At the bottom of a stack, a flow without gaps moves the taint and leaves the call as
it is. -/
theorem applyFlow?_root_eq_some_iff {q : Propagator} (hfree : flow.isGapFree = true)
    (stored : a.get? id = some p) (hparent : p.parent = none) (hgap : p.gap = none) :
    h.applyFlow? a flow id = some q ↔
      h.admits flow p.taint = true ∧ h.fits (p.taint.typeTaken flow.source) flow.sink = true ∧
        q = ⟨p.taint.movedTo flow.source flow.sink none, none, none, p.site, false⟩ := by
  have htarget : a.targetFrame id p flow.sink = (⟨none, none, p.site⟩, none) := by
    rw [Arena.targetFrame, (Flow.isGapFree_iff.1 hfree).2, a.callerFrame_of_root hparent, hgap]
  rw [applyFlow?_eq_some_iff]
  simp only [stored, Option.some.injEq, sinkTaint?_eq_some_iff]
  constructor
  · rintro ⟨p', moved, rfl, hadmits, ⟨hfits, rfl⟩, rfl⟩
    rw [htarget]
    exact ⟨hadmits, hfits, rfl⟩
  · rintro ⟨hadmits, hfits, rfl⟩
    refine ⟨p, _, rfl, hadmits, ⟨hfits, rfl⟩, ?_⟩
    rw [htarget]
    rfl

/-- The reversed flow admits what the flow has moved to its sink. -/
theorem admits_reverse {t : Taint} (hfree : flow.isGapFree = true)
    (hkind : flow.sink.kind ≠ .gapBase)
    (hreach : ¬ (flow.sink.kind = .field ∧ (t.movedTo flow.source flow.sink none).path = [] ∧
      (t.movedTo flow.source flow.sink none).subFields = false)) :
    h.admits flow.reverse (t.movedTo flow.source flow.sink none) = true := by
  have hsink : flow.sink.gap = none := (Flow.isGapFree_iff.1 hfree).2
  simp only [admits, Bool.and_eq_true, beq_iff_eq]
  exact ⟨⟨h.castCompatible_self _, hsink.symm⟩, Taint.standsAt_movedTo hsink hkind hreach⟩

/-- What the flow has moved to its sink fits the source, if the two ends are cast
compatible. -/
theorem fits_reverse {t : Taint}
    (hcast : h.castCompatible (JavaType.parse flow.source.lastType)
      (JavaType.parse flow.sink.lastType) = true) :
    h.fits ((t.movedTo flow.source flow.sink none).typeTaken flow.sink) flow.source = true := by
  rw [Taint.typeTaken_movedTo, fits, h.castCompatible_comm, hcast, Bool.true_or]

end Hierarchy

/-! ## There and back -/

/-- **Reversing a flow undoes it.** Where a flow without gaps between cast compatible ends
applies to a propagator at the bottom of a stack, the reversed flow applies to the result,
once that has a name. It leads back to the source of the flow, at an equal call and with all
that was carried along: the same chain of fields, if the taint lay behind the source. -/
theorem reversed_flows_lead_back {h : Hierarchy} {a : Arena} {flow : Flow} {id : PropagatorId}
    {p q : Propagator} (hfree : flow.isGapFree = true)
    (hcast : h.castCompatible (JavaType.parse flow.source.lastType)
      (JavaType.parse flow.sink.lastType) = true)
    (hkind : flow.sink.kind ≠ .gapBase) (stored : a.get? id = some p) (hparent : p.parent = none)
    (hgap : p.gap = none) (applied : h.applyFlow? a flow id = some q)
    (hreach : ¬ (flow.sink.kind = .field ∧ q.taint.path = [] ∧ q.taint.subFields = false)) :
    ∃ back, h.applyFlow? (a.intern q).2 flow.reverse (a.intern q).1 = some back ∧
      back.parent = none ∧ back.gap = none ∧ (back.site == p.site) = true ∧
      back.taint = .ofKind flow.source.kind flow.source.index flow.source.base
        (flow.source.path ++ p.taint.path.drop flow.source.path.length)
        (flow.source.subFields || flow.sink.subFields || p.taint.subFields) none ∧
      (flow.source.fields <+: p.taint.fields → back.taint.fields = p.taint.fields) := by
  obtain ⟨hadmits, -, rfl⟩ :=
    (Hierarchy.applyFlow?_root_eq_some_iff hfree stored hparent hgap).1 applied
  have hstands : p.taint.standsAt flow.source = true := (Bool.and_eq_true_iff.1 hadmits).2
  have hsource : flow.source.kind ≠ .gapBase := Taint.kind_ne_gapBase_of_standsAt hstands
  have hfree' : flow.reverse.isGapFree = true :=
    Flow.isGapFree_iff.2 (Flow.isGapFree_iff.1 hfree).symm
  -- what is found under the name has the same taint and stands at an equal call
  obtain ⟨found, hfound, hsame⟩ := a.get?_intern
    ⟨p.taint.movedTo flow.source flow.sink none, none, none, p.site, false⟩
  obtain ⟨htaint, hgap', hparent', hsite, -⟩ := Propagator.beq_iff.1 hsame
  refine ⟨⟨found.taint.movedTo flow.sink flow.source none, none, none, found.site, false⟩,
    (Hierarchy.applyFlow?_root_eq_some_iff hfree' hfound hparent' hgap').2 ⟨?_, ?_, rfl⟩,
    rfl, rfl, hsite, ?_, fun hpre => ?_⟩
  · rw [htaint]
    exact Hierarchy.admits_reverse hfree hkind hreach
  · rw [htaint]
    exact Hierarchy.fits_reverse hcast
  · rw [htaint]
    exact Taint.movedTo_movedTo hsource
  · rw [htaint, Taint.fields_movedTo, Taint.fields_movedTo, List.drop_left]
    exact (List.prefix_append_drop hpre).symm

/-- The nested field that came to lie behind the field of the receiver is found again at the
parameter. -/
theorem nestedField_leads_back :
    let a := (Arena.empty.intern (loneRoot nestedField)).2
    let moved := loneRoot (nestedField.movedTo fieldToField.source fieldToField.sink none)
    a.get? ⟨0⟩ = some (loneRoot nestedField) ∧
      Hierarchy.empty.applyFlow? a fieldToField ⟨0⟩ = some moved ∧
      moved.taint.fields = ["k", "g"] ∧
      ∃ back, Hierarchy.empty.applyFlow? (a.intern moved).2 fieldToField.reverse
          (a.intern moved).1 = some back ∧
        back.taint = nestedField ∧ back.taint.fields = ["f", "g"] := by
  have stored : (Arena.empty.intern (loneRoot nestedField)).2.get? ⟨0⟩ =
      some (loneRoot nestedField) := by rfl
  have applied : Hierarchy.empty.applyFlow? (Arena.empty.intern (loneRoot nestedField)).2
      fieldToField ⟨0⟩ =
        some (loneRoot (nestedField.movedTo fieldToField.source fieldToField.sink none)) := by rfl
  obtain ⟨back, hback, -, -, -, htaint, hfields⟩ :=
    reversed_flows_lead_back (by rfl) (by rfl) (by decide) stored rfl rfl applied (by decide)
  exact ⟨stored, applied, by rfl, back, hback, htaint, hfields (by decide)⟩

end TaintReplay
