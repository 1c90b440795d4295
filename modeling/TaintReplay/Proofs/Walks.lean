import Mathlib.Logic.Relation
import TaintReplay.Hierarchy.Walk

/-!
# Walks find all there is to find

A walk takes a bounded number of names. The bound is no restriction if it pays for the
starting points and for the successors of every name that is still to be seen
(`Graph.Pays`): then the walk ends because nothing is pending, and what was seen is
closed under successors. Along the links of a hierarchy, the links of the names not
seen yet are such a budget, whether the hierarchy is cyclic or not.

`Graph.Walk` is the same walk without a bound, as a relation: every instance of it is a
walk that ends.

## Main results

* `Graph.walk_visit`: a walk that is paid for ends by itself.
* `Graph.Walk.closed`: a walk that ends has left nothing out.
* `Graph.mem_visit_iff`: a walk that is paid for finds what chains of successors lead to.
* `Hierarchy.isSubtype_iff`: subtypes are found by chains of links.
* `Hierarchy.mem_descendants_iff_below`: the walk downwards finds all that is below.
-/

namespace TaintReplay

open Relation

/-! ## Paying for a walk -/

namespace Graph

variable {α : Type} [DecidableEq α] {next : α → List α} {budget : List α → Nat}

/-- What is left of a budget, depending on what was seen, pays for the successors of
each new name and for the rest of the walk. -/
def Pays (next : α → List α) (budget : List α → Nat) : Prop :=
  ∀ x seen, x ∉ seen → (next x).length + budget (seen ++ [x]) ≤ budget seen

/-- A walk that goes on until nothing is pending: what is pending, what was seen, and what has
been seen in the end. -/
inductive Walk (next : α → List α) : List α → List α → List α → Prop
  | done {seen : List α} : Walk next [] seen seen
  | known {x : α} {pending seen all : List α} (known : x ∈ seen)
      (rest : Walk next pending seen all) : Walk next (x :: pending) seen all
  | new {x : α} {pending seen all : List α} (new : x ∉ seen)
      (rest : Walk next (pending ++ next x) (seen ++ [x]) all) : Walk next (x :: pending) seen all

/-- A walk that ends has seen all that was pending, and all successors of what it saw first. -/
theorem Walk.closed {pending seen all : List α} (h : Walk next pending seen all) :
    seen ⊆ all ∧ pending ⊆ all ∧ ∀ x ∈ all, x ∉ seen → next x ⊆ all := by
  induction h with
  | done => exact ⟨List.Subset.refl _, List.nil_subset _, fun x hx hnew => absurd hx hnew⟩
  | known known rest ih =>
      obtain ⟨hseen, hpending, hclosed⟩ := ih
      exact ⟨hseen, List.cons_subset.2 ⟨hseen known, hpending⟩, hclosed⟩
  | new new rest ih =>
      rename_i x pending seen all
      obtain ⟨hseen, hpending, hclosed⟩ := ih
      obtain ⟨hold, hself⟩ := List.append_subset.1 hseen
      obtain ⟨hrest, hnext⟩ := List.append_subset.1 hpending
      refine ⟨hold, List.cons_subset.2 ⟨hself (List.mem_singleton_self x), hrest⟩, fun y hy hnew => ?_⟩
      by_cases hyx : y = x
      · exact hyx ▸ hnext
      · exact hclosed y hy (by simp [hnew, hyx])

/-- A walk that is paid for ends, and the bound does not cut it short. -/
theorem walk_visit (pays : Pays next budget) {fuel : Nat} {pending seen : List α}
    (enough : pending.length + budget seen ≤ fuel) :
    Walk next pending seen (visit next fuel pending seen) := by
  induction fuel generalizing pending seen with
  | zero =>
      have hnil : pending = [] := List.length_eq_zero_iff.1 (by omega)
      subst hnil
      exact .done
  | succ fuel ih =>
      cases pending with
      | nil => exact .done
      | cons x pending =>
          rw [List.length_cons] at enough
          rw [visit]
          split
          · rename_i hx
            exact .known hx (ih (by omega))
          · rename_i hx
            have hpays := pays x seen hx
            refine .new hx (ih ?_)
            rw [List.length_append]
            omega

/-- A walk that is paid for finds exactly what chains of successors lead to. -/
theorem mem_visit_iff (pays : Pays next budget) {fuel : Nat} {starts : List α}
    (enough : starts.length + budget [] ≤ fuel) {y : α} :
    y ∈ visit next fuel starts [] ↔
      ∃ x ∈ starts, ReflTransGen (fun a b => b ∈ next a) x y := by
  obtain ⟨-, hstarts, hclosed⟩ := (walk_visit pays enough).closed
  constructor
  · have hreached : ∀ y ∈ visit next fuel starts [],
        ∃ x ∈ starts, ReflTransGen (fun a b => b ∈ next a) x y := by
      refine reachable_of_mem_visit ?_ (fun x hx => ⟨x, hx, .refl⟩) (by simp)
      rintro a b ⟨x, hx, hchain⟩ hb
      exact ⟨x, hx, hchain.tail hb⟩
    exact hreached y
  · rintro ⟨x, hx, hchain⟩
    induction hchain with
    | refl => exact hstarts hx
    | tail _ hstep ih => exact hclosed _ ih List.not_mem_nil hstep

/-- Where each name has no more successors than edges, the edges of the names not seen
yet pay for a walk. -/
theorem pays_edges {β : Type} (edges : List β) (source : β → α)
    (few : ∀ x, (next x).length ≤ edges.countP fun e => source e = x) :
    Pays next fun seen => edges.countP fun e => source e ∉ seen := by
  intro x seen hx
  refine Nat.le_trans (Nat.add_le_add_right (few x) _) ?_
  clear few
  induction edges with
  | nil => simp
  | cons e edges ih =>
      simp only [List.countP_cons, List.mem_append, List.mem_singleton, decide_eq_true_eq] at ih ⊢
      by_cases he : source e = x
      · subst he
        simp only [hx, or_true, not_true_eq_false, not_false_eq_true, if_true, if_false]
        omega
      · by_cases hseen : source e ∈ seen
        · simp only [he, hseen, true_or, not_true_eq_false, if_false]
          omega
        · simp only [he, hseen, or_self, not_false_eq_true, if_true, if_false]
          omega

end Graph

/-! ## Upwards -/

namespace Hierarchy

variable {h : Hierarchy} {child parent : String}

/-- A link leads from a type to another. -/
def IsParent (h : Hierarchy) (child parent : String) : Prop :=
  ∃ kind, (⟨child, parent, kind⟩ : Link) ∈ h.links

theorem mem_parents_iff : parent ∈ h.parents child ↔ h.IsParent child parent := by
  simp only [parents, List.mem_map, List.mem_filter, beq_iff_eq, IsParent]
  constructor
  · rintro ⟨⟨_, _, kind⟩, ⟨hlink, rfl⟩, rfl⟩
    exact ⟨kind, hlink⟩
  · rintro ⟨kind, hlink⟩
    exact ⟨_, ⟨hlink, rfl⟩, rfl⟩

theorem contains_of_isParent (hparent : h.IsParent child parent) : h.contains child = true := by
  obtain ⟨kind, hlink⟩ := hparent
  exact contains_iff.2 (h.linked _ hlink).1

/-- The bound pays for a walk from one type along all links, by either end. -/
theorem walkBound_enough (h : Hierarchy) (stop : Link → String) (name : String) :
    [name].length + h.links.countP (fun l => stop l ∉ []) ≤ h.walkBound := by
  simp [walkBound, Nat.add_comm]

/-- The walk upwards finds all that chains of links lead to. -/
theorem mem_ancestors_iff :
    parent ∈ h.ancestors child ↔
      h.contains child = true ∧ ReflTransGen h.IsParent child parent := by
  have hpays : Graph.Pays h.parents fun seen => h.links.countP fun l => l.child ∉ seen := by
    refine Graph.pays_edges h.links Link.child fun x => Nat.le_of_eq ?_
    rw [parents, List.length_map, ← List.countP_eq_length_filter]
    rfl
  have hnext : (fun a b => b ∈ h.parents a) = h.IsParent :=
    funext fun a => funext fun b => propext mem_parents_iff
  rw [ancestors]
  split
  · rename_i hknown
    rw [Graph.mem_visit_iff hpays (h.walkBound_enough Link.child child), hnext]
    simp [hknown]
  · rename_i hunknown
    simp [hunknown]

/-- A type is a subtype of itself and of what chains of links lead to, also where these
go round in circles. -/
theorem isSubtype_iff :
    h.isSubtype child parent = true ↔ child = parent ∨ TransGen h.IsParent child parent := by
  simp only [isSubtype, Bool.or_eq_true, beq_iff_eq, List.contains_iff_mem, mem_ancestors_iff,
    reflTransGen_iff_eq_or_transGen]
  constructor
  · rintro (heq | ⟨-, heq | hchain⟩)
    · exact .inl heq
    · exact .inl heq.symm
    · exact .inr hchain
  · rintro (heq | hchain)
    · exact .inl heq
    · obtain ⟨_, hfirst, _⟩ := TransGen.head'_iff.1 hchain
      exact .inr ⟨contains_of_isParent hfirst, .inr hchain⟩

/-- Subtypes are found by chains of links, the empty one included. -/
theorem isSubtype_iff_reflTransGen :
    h.isSubtype child parent = true ↔ ReflTransGen h.IsParent child parent := by
  rw [isSubtype_iff, reflTransGen_iff_eq_or_transGen, eq_comm]

/-! ## Downwards -/

variable {name : String} {kind : LinkKind} {interfaces : Bool}

theorem perm_insertName (name : String) (names : List String) :
    (insertName name names).Perm (name :: names) := by
  induction names with
  | nil => exact .refl _
  | cons n names ih =>
      rw [insertName]
      split
      · exact .refl _
      · exact (ih.cons n).trans (.swap name n names)

theorem perm_foldl_insertName (names sorted : List String) :
    (names.foldl (fun sorted n => insertName n sorted) sorted).Perm (names ++ sorted) := by
  induction names generalizing sorted with
  | nil => exact .refl _
  | cons n names ih =>
      rw [List.foldl_cons]
      exact (ih _).trans (((perm_insertName n sorted).append_left names).trans List.perm_middle)

/-- Sorting neither adds nor drops a child. -/
theorem perm_children (h : Hierarchy) (name : String) (kind : LinkKind) (interfaces : Bool) :
    (h.children name kind interfaces).Perm
      (((h.links.filter fun l => l.parent == name && l.kind == kind).map (·.child)).filter
        fun child => h.isInterface child == interfaces) := by
  have hperm := perm_foldl_insertName
    (((h.links.filter fun l => l.parent == name && l.kind == kind).map (·.child)).filter
      fun child => h.isInterface child == interfaces) []
  rwa [List.append_nil] at hperm

theorem mem_children_iff :
    child ∈ h.children name kind interfaces ↔
      (⟨child, name, kind⟩ : Link) ∈ h.links ∧ h.isInterface child = interfaces := by
  rw [(h.perm_children name kind interfaces).mem_iff, List.mem_filter, beq_iff_eq]
  refine and_congr_left fun _ => ?_
  simp only [List.mem_map, List.mem_filter, Bool.and_eq_true, beq_iff_eq]
  constructor
  · rintro ⟨⟨c, q, k⟩, ⟨hlink, rfl, rfl⟩, rfl⟩
    exact hlink
  · intro hlink
    exact ⟨_, ⟨hlink, rfl, rfl⟩, rfl⟩

/-- There are no more children than links. -/
theorem length_children_le (h : Hierarchy) (name : String) (kind : LinkKind) (interfaces : Bool) :
    (h.children name kind interfaces).length ≤
      h.links.countP fun l => l.parent == name && l.kind == kind := by
  rw [(h.perm_children name kind interfaces).length_eq, List.countP_eq_length_filter]
  exact Nat.le_trans (List.length_filter_le _ _) (Nat.le_of_eq (List.length_map _))

/-- From each type the walk goes along its links at most, and along each at most once. -/
theorem length_below_le (h : Hierarchy) (name : String) :
    (h.below name).length ≤ h.links.countP fun l => l.parent = name := by
  have hsplit : h.links.countP (fun l => l.parent = name) =
      h.links.countP (fun l => l.parent == name && l.kind == .implementation) +
        h.links.countP (fun l => l.parent == name && l.kind == .extension) := by
    rw [List.countP_eq_countP_filter_add _ _ fun l => l.kind == .implementation,
      List.countP_filter, List.countP_filter]
    have hother : ∀ l : Link, (!l.kind == .implementation) = (l.kind == .extension) := by
      intro l
      cases l.kind <;> rfl
    simp only [hother]
    rfl
  have himplementers := h.length_children_le name .implementation false
  have hsubinterfaces := h.length_children_le name .extension true
  have hsubclasses := h.length_children_le name .extension false
  rw [hsplit, below]
  split
  · rw [List.length_append]
    exact Nat.add_le_add himplementers hsubinterfaces
  · exact Nat.le_trans hsubclasses (Nat.le_add_left _ _)

/-- The links to the types not seen yet pay for the walk downwards. -/
theorem pays_below (h : Hierarchy) :
    Graph.Pays h.below fun seen => h.links.countP fun l => l.parent ∉ seen :=
  Graph.pays_edges h.links Link.parent h.length_below_le

/-- The walk downwards ends by itself, whether the hierarchy is cyclic or not. -/
theorem walk_descendants (h : Hierarchy) (name : String) :
    Graph.Walk h.below [name] [] (h.descendants name) :=
  Graph.walk_visit h.pays_below (h.walkBound_enough Link.parent name)

/-- The walk downwards finds what chains of steps downwards lead to. -/
theorem mem_descendants_iff_below :
    child ∈ h.descendants name ↔ ReflTransGen (fun a b => b ∈ h.below a) name child := by
  rw [descendants, Graph.mem_visit_iff h.pays_below (h.walkBound_enough Link.parent name)]
  simp

theorem isParent_of_mem_below (hbelow : child ∈ h.below name) : h.IsParent child name := by
  unfold below implementers subinterfaces subclasses at hbelow
  split at hbelow
  · rcases List.mem_append.1 hbelow with himplements | hextends
    · exact ⟨_, (mem_children_iff.1 himplements).1⟩
    · exact ⟨_, (mem_children_iff.1 hextends).1⟩
  · exact ⟨_, (mem_children_iff.1 hbelow).1⟩

end Hierarchy

end TaintReplay
