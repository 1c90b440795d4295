import TaintReplay.Proofs.Locations
import TaintReplay.Proofs.SubFields

/-!
# Agreeing is overlapping

Whether the fields of a taint agree with those of a source is found by going along both paths as
far as the shorter one reaches, with a test of the lengths before and a case of its own for a
taint without fields. What the test is for is a question about locations: is anything that the
taint covers at the source or below it? The two come to the same, since of two chains that agree
as far as both go one continues the other (`Taint.all_zip_iff`), and a chain that a taint with
open sub-fields covers may go on as the source does.

The whole value of which nothing below is tainted is treated apart. It covers the empty chain
only, and agrees with every source that is not a field, also where that one names fields.

## Main results

* `Taint.overlaps_iff`: a taint overlaps a source if one of the paths continues the other.
* `Taint.agreesWith_iff_overlaps`: the test finds overlaps.
* `agreement_is_overlap`: what the test finds, also for the whole value.
-/

namespace TaintReplay

namespace Taint

variable {t : Taint} {source : Endpoint}

/-- A taint covers a location at a source or below it. -/
def Overlaps (t : Taint) (source : Endpoint) : Prop :=
  ∃ chain, t.Covers chain ∧ source.fields <+: chain

/-- The whole value is tainted, and nothing below it. -/
def IsWholeValue (t : Taint) : Prop := t.path = [] ∧ t.subFields = false

instance (t : Taint) : Decidable t.IsWholeValue := inferInstanceAs (Decidable (_ ∧ _))

/-! ## Locations -/

/-- A taint covers its own chain. -/
theorem covers_fields (t : Taint) : t.Covers t.fields := by
  unfold Covers
  split
  · exact List.prefix_refl _
  · rfl

/-- A taint overlaps a source if its path goes on from that of the source, or stops before and
its sub-fields are open. -/
theorem overlaps_iff : t.Overlaps source ↔
    source.fields <+: t.fields ∨ t.subFields = true ∧ t.fields <+: source.fields := by
  constructor
  · rintro ⟨chain, hcovers, hsource⟩
    cases hsub : t.subFields with
    | true =>
        -- both paths begin the chain, so that one begins the other
        rw [covers_open hsub] at hcovers
        exact (List.prefix_or_prefix_of_prefix hsource hcovers).imp_right fun hpre => ⟨rfl, hpre⟩
    | false =>
        rw [covers_closed hsub] at hcovers
        exact .inl (hcovers ▸ hsource)
  · rintro (hpre | ⟨hsub, hpre⟩)
    · exact ⟨t.fields, t.covers_fields, hpre⟩
    · exact ⟨source.fields, (covers_open hsub).2 hpre, List.prefix_refl _⟩

instance (t : Taint) (source : Endpoint) : Decidable (t.Overlaps source) :=
  decidable_of_iff _ overlaps_iff.symm

/-! ## The test -/

/-- The whole value agrees with all that is not a field. -/
theorem IsWholeValue.agreesWith_iff (h : t.IsWholeValue) :
    t.agreesWith source = true ↔ source.kind ≠ .field := by
  simp [agreesWith, h.1, h.2]

/-- A path with fields that does not end too early agrees with a source if one of the paths
continues the other. -/
theorem agreesWith_of_path_ne_nil (hpath : t.path ≠ [])
    (hlong : t.subFields = false → source.path.length ≤ t.path.length) :
    t.agreesWith source = true ↔ t.fields <+: source.fields ∨ source.fields <+: t.fields := by
  have hreaches : ¬ (t.path.length < source.path.length && !t.subFields) = true := by
    intro hshort
    rw [Bool.and_eq_true, decide_eq_true_eq, Bool.not_eq_true'] at hshort
    exact absurd (hlong hshort.2) (Nat.not_le.2 hshort.1)
  rw [agreesWith, if_neg (by simpa using hpath), if_neg hreaches]
  exact all_zip_iff

/-- For every other taint the test finds overlaps. -/
theorem agreesWith_iff_overlaps (h : ¬ t.IsWholeValue) :
    t.agreesWith source = true ↔ t.Overlaps source := by
  rw [overlaps_iff]
  refine ⟨fun hagrees => prefix_of_agreesWith hagrees fun hwhole => h ⟨hwhole.1, hwhole.2.1⟩, ?_⟩
  intro hoverlap
  by_cases hpath : t.path = []
  · have hsub : t.subFields = true := by
      by_contra hclosed
      exact h ⟨hpath, by simpa using hclosed⟩
    simp [agreesWith, hpath, hsub]
  · rw [agreesWith_of_path_ne_nil hpath]
    · exact hoverlap.symm.imp_left And.right
    · intro hclosed
      have hpre : source.fields <+: t.fields :=
        hoverlap.resolve_right fun hopen => by simp [hclosed] at hopen
      simpa [Place.fields] using hpre.length_le

end Taint

/-- **Agreeing is overlapping.** The fields of a taint agree with those of a source exactly if
the taint covers a location at the source or below it. The whole value of which nothing below is
tainted is the exception: it agrees with all sources that are not fields. Opening sub-fields
loses no agreement, and a taint with the fields of the source agrees with it, unless it is that
whole value and the source a field. -/
theorem agreement_is_overlap (t : Taint) (source : Endpoint) :
    (¬ t.IsWholeValue → (t.agreesWith source = true ↔ t.Overlaps source)) ∧
    (t.IsWholeValue → (t.agreesWith source = true ↔ source.kind ≠ .field)) ∧
    (t.agreesWith source = true → (t.withSubFields true).agreesWith source = true) ∧
    (t.fields = source.fields →
      (t.agreesWith source = true ↔ ¬ (t.IsWholeValue ∧ source.kind = .field))) := by
  refine ⟨Taint.agreesWith_iff_overlaps, Taint.IsWholeValue.agreesWith_iff,
    Taint.agreesWith_withSubFields, fun hfields => ?_⟩
  by_cases hwhole : t.IsWholeValue
  · rw [hwhole.agreesWith_iff]
    simp [hwhole]
  · have hoverlap : t.Overlaps source := ⟨t.fields, t.covers_fields, hfields ▸ List.prefix_refl _⟩
    simp [Taint.agreesWith_iff_overlaps hwhole, hoverlap, hwhole]

namespace Sample

/-- A parameter of which nothing below is tainted. -/
def wholeParameter : Taint := ⟨.parameter (some 0), "java.lang.Object", [], false, none⟩

/-- The field `f` of a parameter. -/
def parameterField : Taint := { wholeParameter with path := [⟨"f", "java.lang.String"⟩] }

/-- A nested field agrees with the field above it, below which it lies, and a field with itself,
whatever its type. The whole parameter agrees with its field as well, without overlapping it, and
with no field of the receiver. -/
theorem nestedField_overlaps :
    ¬ nestedField.IsWholeValue ∧ nestedField.Covers ["f", "g"] ∧
      nestedField.agreesWith fieldToField.source = true ∧
      (nestedField.withSubFields true).agreesWith fieldToField.source = true ∧
      parameterField.fields = fieldToField.source.fields ∧
      parameterField.agreesWith fieldToField.source = true ∧
      wholeParameter.IsWholeValue ∧ ¬ wholeParameter.Overlaps fieldToField.source ∧
      wholeParameter.agreesWith fieldToField.source = true ∧
      ¬ wholeParameter.agreesWith fieldToField.sink = true := by
  obtain ⟨hnested, -, hopened, -⟩ := agreement_is_overlap nestedField fieldToField.source
  have hcovers : nestedField.Covers ["f", "g"] := by decide
  have hagrees : nestedField.agreesWith fieldToField.source = true :=
    (hnested (by decide)).2 ⟨["f", "g"], hcovers, by decide⟩
  have hsame := (agreement_is_overlap parameterField fieldToField.source).2.2.2 rfl
  have hwhole : wholeParameter.IsWholeValue := by decide
  refine ⟨by decide, hcovers, hagrees, hopened hagrees, rfl, hsame.2 (by decide), hwhole,
    by decide, ?_, fun hfield => ?_⟩
  · exact ((agreement_is_overlap wholeParameter _).2.1 hwhole).2 (by decide)
  · exact ((agreement_is_overlap wholeParameter _).2.1 hwhole).1 hfield rfl

end Sample

end TaintReplay
