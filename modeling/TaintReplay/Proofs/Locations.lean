import Mathlib.Data.List.Infix
import TaintReplay.Proofs.FlowApplication

/-!
# The heap locations of a taint

A taint stands for a set of heap locations: the chains of field names that it
covers. A taint with closed sub-fields covers its own chain only, one with open
sub-fields covers all continuations of it as well.

Applying a flow moves locations: what lies behind the path of the source comes
to lie behind the path of the sink. Nothing that the source covers is lost, and
where the sink does not open sub-fields itself nothing is added either. There
are three regimes, according to whether the path of the taint is longer than
that of the source, as long, or shorter; they meet in two facts about lists,
`Taint.prefix_of_agreesWith` for the comparison and `Taint.fields_movedTo` for
the composition of paths.

## Main results

* `Taint.covers_movedTo`: what a taint covers behind a source is covered behind the sink.
* `Taint.exists_of_covers_movedTo`: what is covered behind the sink comes from the taint.
* `applyFlow?_moves_locations`: a flow moves exactly the locations behind its source.
-/

namespace TaintReplay

namespace Taint

/-- Whether a taint covers the location that a chain of field names leads to. -/
def Covers (t : Taint) (chain : List String) : Prop :=
  if t.subFields then t.fields <+: chain else chain = t.fields

instance (t : Taint) (chain : List String) : Decidable (t.Covers chain) := by
  unfold Covers
  infer_instance

theorem covers_open {t : Taint} {chain : List String} (h : t.subFields = true) :
    t.Covers chain ↔ t.fields <+: chain := by
  simp [Covers, h]

theorem covers_closed {t : Taint} {chain : List String} (h : t.subFields = false) :
    t.Covers chain ↔ chain = t.fields := by
  simp [Covers, h]

/-! ## Comparing paths -/

/-- Two paths agree as far as both go exactly if one continues the other. -/
theorem all_zip_iff {xs ys : List FieldStep} :
    (xs.zip ys).all (fun (a, b) => a.field == b.field) = true ↔
      xs.map (·.field) <+: ys.map (·.field) ∨ ys.map (·.field) <+: xs.map (·.field) := by
  induction xs generalizing ys with
  | nil => exact iff_of_true rfl (.inl List.nil_prefix)
  | cons x xs ih =>
      cases ys with
      | nil => exact iff_of_true rfl (.inr List.nil_prefix)
      | cons y ys =>
          rw [List.zip_cons_cons, List.all_cons, Bool.and_eq_true, beq_iff_eq, ih]
          simp only [List.map_cons, List.cons_prefix_cons, eq_comm (a := y.field), and_or_left]

/-- A taint that agrees with a source has a path that the source's continues or
one that continues the source's; the latter always if its sub-fields are
closed. The empty closed taint is the exception, which is let through to
sources that ask for a field of a parameter or result. -/
theorem prefix_of_agreesWith {t : Taint} {source : Endpoint} (h : t.agreesWith source = true)
    (regular : ¬ (t.path = [] ∧ t.subFields = false ∧ source.path ≠ [])) :
    source.fields <+: t.fields ∨ t.subFields = true ∧ t.fields <+: source.fields := by
  by_cases hempty : t.path = []
  · -- the empty path is continued by every other
    have hfields : t.fields = [] := by simp [Place.fields, hempty]
    cases hsub : t.subFields with
    | true => exact .inr ⟨rfl, hfields ▸ List.nil_prefix⟩
    | false =>
        have hsource : source.path = [] := by
          by_cases hs : source.path = []
          · exact hs
          · exact absurd ⟨hempty, hsub, hs⟩ regular
        exact .inl (by simp [Place.fields, hsource])
  · have hne : t.path.isEmpty = false := by simpa using hempty
    rw [agreesWith, hne] at h
    by_cases hshort : (t.path.length < source.path.length && !t.subFields) = true
    · simp [hshort] at h
    · simp only [Bool.false_eq_true, if_false, hshort] at h
      rcases all_zip_iff.1 h with hpre | hpre
      · cases hsub : t.subFields with
        | true => exact .inr ⟨rfl, hpre⟩
        | false =>
            -- a closed path is not shorter, so the two are the same
            have hle : ¬ t.path.length < source.path.length := by
              simpa [hsub] using hshort
            have hlen : t.fields.length = source.fields.length := by
              have := hpre.length_le
              simp only [Place.fields, List.length_map] at this ⊢
              omega
            have heq : t.fields = source.fields := hpre.eq_of_length hlen
            exact .inl (heq ▸ List.prefix_refl _)
      · exact .inl hpre

/-- A taint that stands at a source agrees with it, unless the source is the
receiver itself, whose fields are not looked at. -/
theorem agreesWith_of_standsAt {t : Taint} {source : Endpoint} (h : t.standsAt source = true)
    (notReceiver : source.kind ≠ .receiver) : t.agreesWith source = true := by
  unfold standsAt at h
  split at h
  · exact (Bool.and_eq_true_iff.1 h).2
  · exact (Bool.and_eq_true_iff.1 h).2
  · contradiction
  · split at h
    · exact (Bool.and_eq_true_iff.1 h).2
    · exact (Bool.and_eq_true_iff.1 h).2
  · cases h

/-! ## Composing paths -/

theorem fields_movedTo (t : Taint) (source sink : Endpoint) (gap : Option Gap) :
    (t.movedTo source sink gap).fields = sink.fields ++ t.fields.drop source.fields.length := by
  simp [movedTo, ofKind, Place.fields, residual]

theorem subFields_movedTo (t : Taint) (source sink : Endpoint) (gap : Option Gap) :
    (t.movedTo source sink gap).subFields = (sink.subFields || t.subFields) := rfl

/-- Nothing is lost: what a taint covers behind a source is covered behind the
sink afterwards. -/
theorem covers_movedTo {t : Taint} {source sink : Endpoint} {gap : Option Gap} {r : List String}
    (h : t.Covers (source.fields ++ r)) :
    (t.movedTo source sink gap).Covers (sink.fields ++ r) := by
  cases hsub : t.subFields with
  | false =>
      rw [covers_closed hsub] at h
      have hfields : (t.movedTo source sink gap).fields = sink.fields ++ r := by
        rw [fields_movedTo, ← h, List.drop_left]
      cases hsink : sink.subFields with
      | false =>
          rw [covers_closed (by simp [subFields_movedTo, hsub, hsink]), hfields]
      | true =>
          rw [covers_open (by simp [subFields_movedTo, hsink]), hfields]
  | true =>
      rw [covers_open hsub] at h
      rw [covers_open (by simp [subFields_movedTo, hsub]), fields_movedTo,
        List.prefix_append_right_inj]
      -- dropping the source's part of both chains keeps one a prefix of the other
      have hdrop := h.drop source.fields.length
      rwa [List.drop_left] at hdrop

/-- Nothing is invented: where one of the two paths continues the other, what is
covered behind a closed sink was covered behind the source. -/
theorem exists_of_covers_movedTo {t : Taint} {source sink : Endpoint} {gap : Option Gap}
    {chain : List String} (closed : sink.subFields = false)
    (regime : source.fields <+: t.fields ∨ t.subFields = true ∧ t.fields <+: source.fields)
    (h : (t.movedTo source sink gap).Covers chain) :
    ∃ r, chain = sink.fields ++ r ∧ t.Covers (source.fields ++ r) := by
  have hopen : (t.movedTo source sink gap).subFields = t.subFields := by
    simp [subFields_movedTo, closed]
  cases hsub : t.subFields with
  | false =>
      obtain ⟨rest, hrest⟩ : source.fields <+: t.fields := by
        rcases regime with hpre | ⟨habsurd, -⟩
        · exact hpre
        · rw [hsub] at habsurd
          cases habsurd
      rw [covers_closed (hopen.trans hsub), fields_movedTo, ← hrest, List.drop_left] at h
      exact ⟨rest, h, (covers_closed hsub).2 hrest⟩
  | true =>
      rw [covers_open (hopen.trans hsub), fields_movedTo] at h
      obtain ⟨ext, hext⟩ := h
      refine ⟨t.fields.drop source.fields.length ++ ext, by rw [← hext, List.append_assoc], ?_⟩
      rw [covers_open hsub]
      rcases regime with ⟨rest, hrest⟩ | ⟨-, rest, hrest⟩
      · -- the taint reaches behind the source: its own chain comes back
        rw [← hrest, List.drop_left, ← List.append_assoc]
        exact List.prefix_append _ _
      · -- the taint ends early: it is a prefix of the source alone
        rw [← hrest, List.append_assoc]
        exact List.prefix_append _ _

end Taint

/-! ## Applying a flow -/

/-- **A flow moves exactly the locations behind its source.** Whatever the taint
covers behind the source is covered behind the sink. If the sink does not open
sub-fields, nothing else is covered, the receiver as a source with fields and
the empty closed taint against a source with fields aside. -/
theorem applyFlow?_moves_locations (h : Hierarchy) (a : Arena) (flow : Flow) (id : PropagatorId)
    (p q : Propagator) (stored : a.get? id = some p) (applied : h.applyFlow? a flow id = some q) :
    (∀ r, p.taint.Covers (flow.source.fields ++ r) → q.taint.Covers (flow.sink.fields ++ r)) ∧
      (flow.sink.subFields = false →
        ¬ (flow.source.kind = .receiver ∧ flow.source.path ≠ []) →
        ¬ (p.taint.path = [] ∧ p.taint.subFields = false ∧ flow.source.path ≠ []) →
        ∀ chain, q.taint.Covers chain →
          ∃ r, chain = flow.sink.fields ++ r ∧ p.taint.Covers (flow.source.fields ++ r)) := by
  obtain ⟨p', moved, hp', hadmits, hmoved, rfl⟩ := Hierarchy.applyFlow?_eq_some_iff.1 applied
  obtain rfl : p = p' := Option.some.inj (stored.symm.trans hp')
  obtain ⟨-, rfl⟩ := Hierarchy.sinkTaint?_eq_some_iff.1 hmoved
  refine ⟨fun r hr => Taint.covers_movedTo hr, ?_⟩
  intro hclosed hreceiver hregular chain hchain
  refine Taint.exists_of_covers_movedTo hclosed ?_ hchain
  by_cases hkind : flow.source.kind = .receiver
  · -- the receiver itself has no fields, and the empty chain begins every other
    have hpath : flow.source.path = [] := by
      by_cases hne : flow.source.path = []
      · exact hne
      · exact absurd ⟨hkind, hne⟩ hreceiver
    exact .inl (by simp [Place.fields, hpath])
  · have hstands : p.taint.standsAt flow.source = true := (Bool.and_eq_true_iff.1 hadmits).2
    exact Taint.prefix_of_agreesWith (Taint.agreesWith_of_standsAt hstands hkind) hregular

/-! ### A nested field -/

/-- The field `g` below the field `f` of a parameter. -/
def nestedField : Taint :=
  ⟨.parameter (some 0), "java.lang.Object", [⟨"f", "T"⟩, ⟨"g", "U"⟩], false, none⟩

/-- The flow from the field `f` of a parameter to the field `k` of the receiver. -/
def fieldToField : Flow :=
  ⟨"m", (Endpoint.parameter 0 "java.lang.Object").withField "f" "T",
    (Endpoint.ofKind .field "java.lang.Object").withField "k" "T", false⟩

/-- A taint at a call, as the only propagator of an arena. -/
def loneRoot (t : Taint) : Propagator :=
  let path : AccessPath := ⟨⟨1⟩, .class "java.lang.Object", [], false⟩
  .root t ⟨⟨1⟩, .ofPath path, .ofPath path⟩ false

/-- The nested field comes to lie behind the field of the receiver, and nothing
else becomes tainted. -/
theorem nestedField_moves_behind_sink :
    let a := (Arena.empty.intern (loneRoot nestedField)).2
    let moved := nestedField.movedTo fieldToField.source fieldToField.sink none
    a.get? ⟨0⟩ = some (loneRoot nestedField) ∧
      Hierarchy.empty.applyFlow? a fieldToField ⟨0⟩ = some (loneRoot moved) ∧
      moved.Covers ["k", "g"] ∧
      ∀ chain, moved.Covers chain →
        ∃ r, chain = ["k"] ++ r ∧ nestedField.Covers (["f"] ++ r) := by
  have stored : (Arena.empty.intern (loneRoot nestedField)).2.get? ⟨0⟩ =
      some (loneRoot nestedField) := by rfl
  have applied : Hierarchy.empty.applyFlow? (Arena.empty.intern (loneRoot nestedField)).2
      fieldToField ⟨0⟩ =
        some (loneRoot (nestedField.movedTo fieldToField.source fieldToField.sink none)) := by rfl
  have moves := applyFlow?_moves_locations _ _ fieldToField ⟨0⟩ _ _ stored applied
  exact ⟨stored, applied, moves.1 ["g"] (by decide), moves.2 rfl (by decide) (by decide)⟩

end TaintReplay
