import TaintReplay.Proofs.Stacks

/-!
# How arenas fill

A replay interns four kinds of propagators: taints at the call it is about, what
flows make of stored propagators, the inverses of stored propagators, and taints
that leave the frame of a stored propagator. `Arena.Derives` lists them, with the
flow and the hierarchy left open.

This is enough for the discipline of frames. Being in a gap, having a parent and
not having a call site are one and the same for every propagator derived from
propagators for which they are, and the parents of derived propagators are there
already.

## Main results

* `Arena.Derives.hasParent`, `Arena.Derives.framed`: what is derived from framed propagators is
  framed, with its parent in the arena.
* `Arena.Stacked.intern`: interning what is derived keeps an arena stacked.
* `Arena.Derives.within`: what can be derived can be derived later.
-/

namespace TaintReplay

/-- Being in a gap, having a parent and having no call site are one. -/
structure Propagator.Framed (p : Propagator) : Prop where
  gap : p.gap.isSome = p.parent.isSome
  site : p.site.isNone = p.parent.isSome

namespace Arena

/-- Every propagator is framed, and parents were there before. -/
structure Stacked (a : Arena) : Prop where
  grounded : a.Grounded
  framed : ∀ ⦃id p⦄, a.get? id = some p → p.Framed

/-- The propagators that a replay derives from those of an arena, with a
condition on the statements of call sites. -/
inductive Derives (calls : StmtId → Prop) (a : Arena) : Propagator → Prop
  /-- A taint at a call. -/
  | root (t : Taint) {site : CallSite} (inverse : Bool) (call : calls site.stmt) :
      Derives calls a (.root t site inverse)
  /-- What a flow makes of a stored propagator. -/
  | flow {h : Hierarchy} {flow : Flow} {id : PropagatorId} {q : Propagator}
      (applied : h.applyFlow? a flow id = some q) : Derives calls a q
  /-- The inverse of a stored propagator, up to what is not compared. -/
  | inverse {id : PropagatorId} {p q : Propagator} (stored : a.get? id = some p)
      (same : (p == q) = true) : Derives calls a q.toInverse
  /-- A taint that leaves the frame of a stored propagator. -/
  | leave {id : PropagatorId} {p : Propagator} (t : Taint) (stored : a.get? id = some p) :
      Derives calls a (.inFrame t (a.callerFrame p))

variable {calls : StmtId → Prop} {a b : Arena} {q : Propagator}

/-! ## Later arenas -/

/-- The frame a stored propagator returns to stays the same. -/
theorem callerFrame_of_within (hab : a.Within b) (hb : b.Grounded) {id : PropagatorId}
    {p : Propagator} (hp : a.get? id = some p) : b.callerFrame p = a.callerFrame p := by
  rw [callerFrame, callerFrame]
  cases hparent : p.parent with
  | none => rfl
  | some parent =>
      have ha := hab.grounded hb
      obtain ⟨caller, hcaller⟩ := exists_get?_of_lt (ha.hasParent hp parent hparent)
      simp only [Option.bind_some, hcaller, hab.get? hcaller]

/-- Flows make the same of stored propagators. -/
theorem applyFlow?_of_within (hab : a.Within b) (hb : b.Grounded) {h : Hierarchy} {flow : Flow}
    {id : PropagatorId} (hq : h.applyFlow? a flow id = some q) :
    h.applyFlow? b flow id = some q := by
  obtain ⟨p, moved, hp, hadmits, hmoved, rfl⟩ := Hierarchy.applyFlow?_eq_some_iff.1 hq
  have hframe : b.targetFrame id p flow.sink = a.targetFrame id p flow.sink := by
    unfold targetFrame
    rw [callerFrame_of_within hab hb hp]
  rw [Hierarchy.applyFlow?_eq_some_iff]
  exact ⟨p, moved, hab.get? hp, hadmits, by rw [hframe]; exact hmoved, by rw [hframe]⟩

/-- What can be derived can be derived later. -/
theorem Derives.within (hab : a.Within b) (hb : b.Grounded) (h : a.Derives calls q) :
    b.Derives calls q := by
  cases h with
  | root t inverse call => exact .root t inverse call
  | flow applied => exact .flow (applyFlow?_of_within hab hb applied)
  | inverse stored same => exact .inverse (hab.get? stored) same
  | leave t stored =>
      rw [← callerFrame_of_within hab hb stored]
      exact .leave t (hab.get? stored)

/-! ## Frames -/

/-- What is derived has its parent in the arena. -/
theorem Derives.hasParent (h : a.Derives calls q) (ha : a.Grounded) : a.HasParent q := by
  cases h with
  | root t inverse call =>
      intro parent hparent
      cases hparent
  | flow applied => exact Hierarchy.hasParent_of_applyFlow? ha applied
  | inverse stored same =>
      intro parent hparent
      have hsame := (Propagator.beq_iff_layer.1 same).2
      exact ha.hasParent stored parent (hsame.trans hparent)
  | leave t stored => exact hasParent_inFrame ha stored t

/-- A taint in the frame below that of a framed propagator is framed. -/
theorem Stacked.framed_inFrame (ha : a.Stacked) {id : PropagatorId} {p : Propagator}
    (hp : a.get? id = some p) (t : Taint) :
    Propagator.Framed (.inFrame t (a.callerFrame p)) := by
  have hframed := ha.framed hp
  rw [callerFrame]
  cases hparent : p.parent with
  | none =>
      refine ⟨rfl, ?_⟩
      show p.site.isNone = false
      rw [hframed.site, hparent]
      rfl
  | some parent =>
      obtain ⟨caller, hcaller⟩ := exists_get?_of_lt (ha.grounded.hasParent hp parent hparent)
      have hbelow := ha.framed hcaller
      simp only [Option.bind_some, hcaller]
      exact ⟨hbelow.gap, hbelow.site⟩

/-- What is derived from framed propagators is framed. -/
theorem Derives.framed (h : a.Derives calls q) (ha : a.Stacked) : q.Framed := by
  cases h with
  | root t inverse call => exact ⟨rfl, rfl⟩
  | flow applied =>
      rename_i flow id
      obtain ⟨p, moved, hp, -, -, rfl⟩ := Hierarchy.applyFlow?_eq_some_iff.1 applied
      cases hgap : flow.sink.gap with
      | some gap =>
          simp only [targetFrame, hgap]
          exact ⟨rfl, rfl⟩
      | none =>
          simp only [targetFrame, hgap]
          exact ha.framed_inFrame hp moved
  | inverse stored same =>
      rename_i q
      have hframed := ha.framed stored
      obtain ⟨hlayer, hparent⟩ := Propagator.beq_iff_layer.1 same
      have hgap := congrArg Layer.gap hlayer
      have hsite := congrArg (fun l => l.site.isNone) hlayer
      simp only [Propagator.layer, Option.isNone_map] at hgap hsite
      refine ⟨?_, ?_⟩
      · show q.gap.isSome = q.parent.isSome
        rw [← hgap, ← hparent]
        exact hframed.gap
      · show q.site.isNone = q.parent.isSome
        rw [← hsite, ← hparent]
        exact hframed.site
  | leave t stored => exact ha.framed_inFrame stored t

/-- Call sites of what is derived are at the statements of those there were, or
of new ones that the condition holds of. -/
theorem Derives.site (h : a.Derives calls q)
    (ha : ∀ id p site, a.get? id = some p → p.site = some site → calls site.stmt) {site : CallSite}
    (hsite : q.site = some site) : calls site.stmt := by
  -- the frame below is that of a stored propagator, be it the parent or the propagator itself
  have hcaller : ∀ {id p}, a.get? id = some p → (a.callerFrame p).site = some site →
      calls site.stmt := by
    intro id p hp hframe
    rw [callerFrame] at hframe
    cases hbelow : p.parent.bind a.get? with
    | none =>
        rw [hbelow] at hframe
        exact ha id p site hp hframe
    | some caller =>
        rw [hbelow] at hframe
        obtain ⟨parent, -, hget⟩ := Option.bind_eq_some_iff.1 hbelow
        exact ha parent caller site hget hframe
  cases h with
  | root t inverse call =>
      cases hsite
      exact call
  | flow applied =>
      rename_i flow id
      obtain ⟨p, moved, hp, -, -, rfl⟩ := Hierarchy.applyFlow?_eq_some_iff.1 applied
      cases hgap : flow.sink.gap with
      | some gap => simp [targetFrame, hgap, Propagator.inFrame] at hsite
      | none =>
          simp only [targetFrame, hgap, Propagator.inFrame] at hsite
          exact hcaller hp hsite
  | inverse stored same =>
      rename_i id p q
      have hkey := congrArg Layer.site (Propagator.beq_iff_layer.1 same).1
      change q.site = some site at hsite
      simp only [Propagator.layer, hsite, Option.map_some, Option.map_eq_some_iff] at hkey
      obtain ⟨old, hold, heq⟩ := hkey
      have hstmt : old.stmt = site.stmt := congrArg SiteKey.stmt heq
      exact hstmt ▸ ha id p old stored hold
  | leave t stored => exact hcaller stored hsite

/-! ## Stacked arenas -/

theorem stacked_empty : empty.Stacked := by
  refine ⟨grounded_empty, ?_⟩
  intro id p hp
  rw [get?_eq] at hp
  simp at hp

theorem Within.stacked (hab : a.Within b) (hb : b.Stacked) : a.Stacked :=
  ⟨hab.grounded hb.grounded, fun _ _ hp => hb.framed (hab.get? hp)⟩

/-- Interning what is derived keeps an arena stacked. -/
theorem Stacked.intern (ha : a.Stacked) (hq : a.Derives calls q) : (a.intern q).2.Stacked := by
  refine ⟨ha.grounded.intern (hq.hasParent ha.grounded), ?_⟩
  intro id p hp
  rcases get?_of_get?_intern hp with hold | ⟨rfl, -⟩
  · exact ha.framed hold
  · exact hq.framed ha

end Arena

end TaintReplay
