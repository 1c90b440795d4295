import Mathlib.Data.List.Induction
import Mathlib.Data.List.Nodup
import TaintReplay.Proofs.RecordedRuns
import TaintReplay.Proofs.Walks

/-!
# A hierarchy is its names and its links

Seen from outside, a hierarchy is what is known of each name and a set of links. An
`Outline` is just that, with changes that are stated for it directly: a definition that
takes the place of a mention, a link that mentions the parent, a closure that links
all types without a parent to the root class. What a hierarchy is after a list of
changes is what its outline is (`Hierarchy.outline_after`), refused changes included.
Whatever is said of a hierarchy with a history can therefore be said of the outline:
which changes are refused, that definitions and links last, and which types are
subtypes of which.

## Main results

* `Hierarchy.apply_cases`: what is handed back for a change.
* `Hierarchy.outline_attempt`: a change does to a hierarchy what it does to the outline.
* `hierarchies_refine_links`: what holds after any list of changes.
-/

namespace TaintReplay

open Relation

/-- What is known of a name. -/
inductive Standing where
  | unknown
  | mentioned
  | defined (kind : ClassKind)
deriving DecidableEq

/-- What is known of all names, and the links between them. -/
@[ext]
structure Outline where
  standing : String → Standing
  links : Link → Prop

namespace Outline

/-- Nothing is known. -/
def blank : Outline := ⟨fun _ => .unknown, fun _ => False⟩

/-- A link leads from a type to another. -/
def HasParent (o : Outline) (child parent : String) : Prop := ∃ kind, o.links ⟨child, parent, kind⟩

/-- A name is mentioned. -/
def mention (o : Outline) (name : String) : Outline where
  standing other :=
    if other = name ∧ o.standing other = .unknown then .mentioned else o.standing other
  links := o.links

/-- A change is refused: a type is defined again, or a type that is not known is to have
a parent. -/
def Refuses (o : Outline) : Hierarchy.Edit → Prop
  | .define name _ => ∃ kind, o.standing name = .defined kind
  | .link child _ _ => o.standing child = .unknown
  | .ensure _ => False
  | .close => False

/-- What a change that is not refused does. -/
def change (o : Outline) : Hierarchy.Edit → Outline
  | .define name kind =>
    { o with standing := fun other => if other = name then .defined kind else o.standing other }
  | .link child parent kind =>
    { o.mention parent with links := fun l => o.links l ∨ l = ⟨child, parent, kind⟩ }
  | .ensure name => o.mention name
  | .close =>
    let o := o.mention JavaType.objectName
    { o with
      links := fun l => o.links l ∨
        ∃ child, o.standing child ≠ .unknown ∧ child ≠ JavaType.objectName ∧
          (∀ parent, ¬ o.HasParent child parent) ∧
          l = ⟨child, JavaType.objectName, .extension⟩ }

open Classical in
/-- A change, which may be refused. -/
noncomputable def attempt (o : Outline) (edit : Hierarchy.Edit) : Outline :=
  if o.Refuses edit then o else o.change edit

/-- The outline after a list of changes. -/
noncomputable def after (edits : List Hierarchy.Edit) : Outline := edits.foldl attempt blank

end Outline

/-! ## The outline of a hierarchy -/

namespace Hierarchy

variable {h : Hierarchy} {name : String} {edit : Edit}

/-- What a hierarchy knows of a name. -/
def standing (h : Hierarchy) (name : String) : Standing :=
  match h.find? name with
  | none => .unknown
  | some node => if node.phantom then .mentioned else .defined node.kind

/-- What a hierarchy looks like from outside. -/
def outline (h : Hierarchy) : Outline := ⟨h.standing, (· ∈ h.links)⟩

/-- The hierarchy after a change, which may have been refused. -/
def attempt (h : Hierarchy) (edit : Edit) : Hierarchy := (edit.apply h).2

/-- The hierarchy after a list of changes, of which some may have been refused. -/
def after (edits : List Edit) : Hierarchy := edits.foldl attempt empty

theorem contains_iff_standing : h.contains name = true ↔ h.standing name ≠ .unknown := by
  rw [contains_eq]
  unfold standing
  cases h.find? name with
  | none => simp
  | some node => cases hphantom : node.phantom <;> simp [hphantom]

theorem standing_eq_defined_iff {kind : ClassKind} :
    h.standing name = .defined kind ↔
      ∃ node, h.find? name = some node ∧ node.phantom = false ∧ node.kind = kind := by
  unfold standing
  cases h.find? name with
  | none => simp
  | some node => cases hphantom : node.phantom <;> simp [hphantom]

/-! ## Single changes -/

theorem standing_ensure (h : Hierarchy) (name other : String) :
    (h.ensure name).standing other =
      if other = name ∧ h.standing other = .unknown then .mentioned else h.standing other := by
  unfold standing
  rw [find?_ensure]
  cases hfind : h.find? other with
  | none => by_cases hname : other = name <;> simp [hname]
  | some node => cases hphantom : node.phantom <;> simp [hphantom]

/-- What is handed back for a definition: the hierarchy as it was if the type was defined
before, or else the one where it is. -/
theorem define_cases (h : Hierarchy) (name : String) (kind : ClassKind) :
    (h.define name kind = (.error (.duplicateClass name), h) ∧
      ∃ old, h.standing name = .defined old) ∨
    ((¬ ∃ old, h.standing name = .defined old) ∧
      ∃ h', h.define name kind = (.ok (), h') ∧ h'.links = h.links ∧
        ∀ other, h'.standing other = if other = name then .defined kind else h.standing other) := by
  unfold define
  split
  · rename_i place
    have hnone : h.find? name = none := by rw [find?, place, Option.bind_none]
    refine .inr ⟨by simp [standing, hnone], _, rfl, rfl, fun other => ?_⟩
    by_cases hother : other = name <;> simp [standing, find?_addNode, hother]
  · rename_i i place
    obtain ⟨node, hfind⟩ : ∃ node, h.find? name = some node := by
      rw [← Option.isSome_iff_exists, ← contains_eq, contains, OrdMap.contains, place,
        Option.isSome_some]
    by_cases hphantom : node.phantom = true
    · rw [if_pos (by simp [isPhantom, hfind, hphantom])]
      refine .inr ⟨by simp [standing, hfind, hphantom], _, rfl, rfl, fun other => ?_⟩
      by_cases hother : other = name <;> simp [standing, find?_redefine, hother]
    · rw [if_neg (by simp [isPhantom, hfind, hphantom])]
      exact .inl ⟨rfl, node.kind, by simp [standing, hfind, hphantom]⟩

/-- What is handed back for a link: the hierarchy as it was if the type is not known, or else
the one where it has the parent, which is mentioned by that. -/
theorem link_cases (h : Hierarchy) (child parent : String) (kind : LinkKind) :
    (h.link child parent kind = (.error (.unknownClass child), h) ∧ h.standing child = .unknown) ∨
    (h.standing child ≠ .unknown ∧
      ∃ h', h.link child parent kind = (.ok (), h') ∧ h'.links = h.links ++ [⟨child, parent, kind⟩] ∧
        ∀ other, h'.standing other = (h.ensure parent).standing other) := by
  unfold link
  split
  · rename_i hknown
    refine .inr ⟨contains_iff_standing.1 hknown, _, rfl, ?_, fun other => rfl⟩
    show (h.ensure parent).links ++ _ = _
    rw [links_ensure]
  · rename_i hunknown
    exact .inl ⟨rfl, not_not.1 fun hne => hunknown (contains_iff_standing.2 hne)⟩

theorem outline_ensure (h : Hierarchy) (name : String) :
    (h.ensure name).outline = h.outline.mention name := by
  refine Outline.ext (funext fun other => standing_ensure h name other) ?_
  show (· ∈ (h.ensure name).links) = (· ∈ h.links)
  rw [links_ensure]

/-- The types that closing gives a parent are the known ones that have none. -/
theorem mem_orphans_iff :
    name ∈ h.orphans ↔ h.standing name ≠ .unknown ∧ name ≠ JavaType.objectName ∧
      ∀ parent, ¬ h.IsParent name parent := by
  simp only [orphans, List.mem_filter, ← contains_iff, contains_iff_standing, Bool.and_eq_true,
    List.isEmpty_iff, List.eq_nil_iff_forall_not_mem, mem_parents_iff, bne_iff_ne]
  exact and_congr_right fun _ => and_comm

theorem outline_close (h : Hierarchy) : h.close.outline = h.outline.change .close := by
  have hclosed := outline_ensure h JavaType.objectName
  refine Outline.ext ?_ (funext fun l => propext ?_)
  · show (h.ensure JavaType.objectName).outline.standing = (h.outline.mention _).standing
    rw [hclosed]
  · show l ∈ (h.ensure JavaType.objectName).links ++
      (h.ensure JavaType.objectName).orphans.map _ ↔ _
    rw [Outline.change, ← hclosed, List.mem_append, List.mem_map]
    simp only [mem_orphans_iff, and_assoc, eq_comm (b := l)]
    rfl

/-- What is handed back for a change: the hierarchy as it was if the outline refuses the change,
or else one whose outline is changed as it should be. -/
theorem apply_cases (h : Hierarchy) (edit : Edit) :
    (h.outline.Refuses edit ∧ ∃ e, edit.apply h = (.error e, h)) ∨
      (¬ h.outline.Refuses edit ∧
        ∃ h', edit.apply h = (.ok (), h') ∧ h'.outline = h.outline.change edit) := by
  cases edit with
  | define name kind =>
      rcases define_cases h name kind with ⟨herror, hdefined⟩ | ⟨hnot, h', hok, hlinks, hstanding⟩
      · exact .inl ⟨hdefined, _, herror⟩
      · refine .inr ⟨hnot, h', hok, Outline.ext (funext hstanding) ?_⟩
        show (· ∈ h'.links) = (· ∈ h.links)
        rw [hlinks]
  | link child parent kind =>
      rcases link_cases h child parent kind with
        ⟨herror, hunknown⟩ | ⟨hknown, h', hok, hlinks, hstanding⟩
      · exact .inl ⟨hunknown, _, herror⟩
      · refine .inr ⟨hknown, h', hok,
          Outline.ext (funext fun other => ?_) (funext fun l => propext ?_)⟩
        · exact (hstanding other).trans (standing_ensure h parent other)
        · show l ∈ h'.links ↔ l ∈ h.links ∨ l = _
          rw [hlinks, List.mem_append, List.mem_singleton]
  | ensure name => exact .inr ⟨id, _, rfl, outline_ensure h name⟩
  | close => exact .inr ⟨id, _, rfl, outline_close h⟩

/-- A change is refused by a hierarchy exactly if it is refused by the outline. -/
theorem error_iff : (∃ e, (edit.apply h).1 = .error e) ↔ h.outline.Refuses edit := by
  rcases apply_cases h edit with ⟨hrefuses, e, herror⟩ | ⟨hnot, h', hok, -⟩
  · exact iff_of_true ⟨e, congrArg Prod.fst herror⟩ hrefuses
  · refine iff_of_false ?_ hnot
    rintro ⟨e, herror⟩
    rw [hok] at herror
    cases herror

/-- A change that is refused is answered with the hierarchy as it was. -/
theorem apply_of_refuses (hrefuses : h.outline.Refuses edit) : ∃ e, edit.apply h = (.error e, h) := by
  rcases apply_cases h edit with ⟨-, herror⟩ | ⟨hnot, -⟩
  · exact herror
  · exact absurd hrefuses hnot

/-- A change does to a hierarchy what it does to the outline, if it is refused also. -/
theorem outline_attempt (h : Hierarchy) (edit : Edit) :
    (h.attempt edit).outline = h.outline.attempt edit := by
  rw [attempt, Outline.attempt]
  rcases apply_cases h edit with ⟨hrefuses, e, herror⟩ | ⟨hnot, h', hok, houtline⟩
  · rw [herror, if_pos hrefuses]
  · rw [hok, if_neg hnot, houtline]

/-- Defining what was mentioned is not refused and leaves the links alone. -/
theorem attempt_define_of_mentioned (hmentioned : h.standing name = .mentioned)
    (kind : ClassKind) :
    (h.attempt (.define name kind)).standing name = .defined kind ∧
      (h.attempt (.define name kind)).links = h.links := by
  rcases define_cases h name kind with ⟨-, old, hold⟩ | ⟨-, h', hok, hlinks, hstanding⟩
  · cases hmentioned.symm.trans hold
  · have hmade : h.attempt (.define name kind) = h' := congrArg Prod.snd hok
    rw [hmade, hstanding name, if_pos rfl]
    exact ⟨rfl, hlinks⟩

/-! ## Lists of changes -/

theorem after_append (edits more : List Edit) :
    after (edits ++ more) = more.foldl attempt (after edits) := List.foldl_append

theorem after_append_singleton (edits : List Edit) (edit : Edit) :
    after (edits ++ [edit]) = (after edits).attempt edit := by
  rw [after_append]
  rfl

/-- A hierarchy with a history is what its outline is. -/
theorem outline_after (edits : List Edit) : (after edits).outline = Outline.after edits := by
  induction edits using List.reverseRecOn with
  | nil =>
      refine Outline.ext rfl (funext fun l => propext ?_)
      exact iff_of_false List.not_mem_nil id
  | append_singleton edits edit ih =>
      rw [after_append_singleton, outline_attempt, ih, Outline.after, Outline.after,
        List.foldl_append]
      rfl

/-- What is defined stays defined, as what it is. -/
theorem standing_of_attempt {kind : ClassKind} (hdefined : h.standing name = .defined kind)
    (edit : Edit) : (h.attempt edit).standing name = .defined kind := by
  obtain ⟨node, hfind, hphantom, hkind⟩ := standing_eq_defined_iff.1 hdefined
  exact standing_eq_defined_iff.2 ⟨node, find?_apply edit hfind hphantom, hphantom, hkind⟩

/-- Links are not taken away. -/
theorem mem_links_of_attempt {l : Link} (hl : l ∈ h.links) (edit : Edit) :
    l ∈ (h.attempt edit).links := by
  have hlinks : (h.attempt edit).outline.links l := by
    rw [outline_attempt, Outline.attempt]
    split
    · exact hl
    · cases edit with
      | define name kind => exact hl
      | link child parent kind => exact .inl hl
      | ensure name => exact hl
      | close => exact .inl hl
  exact hlinks

/-- Definitions and links last. -/
theorem lasting (edits more : List Edit) :
    (∀ name kind, (after edits).standing name = .defined kind →
      (after (edits ++ more)).standing name = .defined kind) ∧
    ∀ l ∈ (after edits).links, l ∈ (after (edits ++ more)).links := by
  induction more using List.reverseRecOn with
  | nil =>
      rw [List.append_nil]
      exact ⟨fun _ _ hdefined => hdefined, fun _ hl => hl⟩
  | append_singleton more edit ih =>
      rw [← List.append_assoc, after_append_singleton]
      exact ⟨fun name kind hdefined => standing_of_attempt (ih.1 name kind hdefined) edit,
        fun l hl => mem_links_of_attempt (ih.2 l hl) edit⟩

/-! ## Names and nodes -/

/-- The name of a node, which is known. -/
def nodeName (h : Hierarchy) (i : Fin h.nodes.length) : {name // h.contains name = true} :=
  ⟨(h.nodes.get i).name, contains_iff.2 (List.mem_map_of_mem (h.nodes.get_mem i))⟩

theorem bijective_nodeName (h : Hierarchy) : Function.Bijective h.nodeName := by
  constructor
  · intro i j hij
    have hname : (h.nodes.get i).name = (h.nodes.get j).name := congrArg Subtype.val hij
    have hnode : h.nodes.get i = h.nodes.get j :=
      List.inj_on_of_nodup_map h.distinct (h.nodes.get_mem i) (h.nodes.get_mem j) hname
    exact List.nodup_iff_injective_get.1 h.distinct.of_map hnode
  · rintro ⟨name, hknown⟩
    obtain ⟨node, hnode, rfl⟩ := List.mem_map.1 (contains_iff.1 hknown)
    obtain ⟨i, rfl⟩ := List.get_of_mem hnode
    exact ⟨i, rfl⟩

/-- Each node is the one that is found under its name. -/
theorem find?_nodeName (h : Hierarchy) (i : Fin h.nodes.length) :
    h.find? (h.nodeName i).1 = some (h.nodes.get i) := by
  have hnode : h.nodes[i.val]? = some (h.nodes.get i) := List.getElem?_eq_getElem i.isLt
  have hplace : h.index.find? (h.nodeName i).1 = some i.val :=
    (h.find?_index_iff _ _).2 ⟨_, hnode, rfl⟩
  rw [find?, hplace, Option.bind_some, hnode]

/-- A hierarchy does what an outline says: it knows the same of each name and has the same
links, names and nodes correspond and the index leads from one to the other, the same changes
are refused, and types are subtypes by the links of the outline. -/
structure Refines (h : Hierarchy) (o : Outline) : Prop where
  standing : ∀ name, h.standing name = o.standing name
  links : ∀ l, l ∈ h.links ↔ o.links l
  named : Function.Bijective h.nodeName
  indexed : ∀ name i, h.index.find? name = some i ↔ ∃ node, h.nodes[i]? = some node ∧ node.name = name
  found : ∀ i, h.find? (h.nodeName i).1 = some (h.nodes.get i)
  refused : ∀ edit, (∃ e, (Edit.apply h edit).1 = .error e) ↔ o.Refuses edit
  subtype : ∀ child parent,
    h.isSubtype child parent = true ↔ child = parent ∨ TransGen o.HasParent child parent

theorem refines_outline (h : Hierarchy) : h.Refines h.outline where
  standing _ := rfl
  links _ := Iff.rfl
  named := bijective_nodeName h
  indexed := find?_index_iff h
  found := find?_nodeName h
  refused _ := error_iff
  subtype _ _ := isSubtype_iff

end Hierarchy

/-- After any list of changes a hierarchy does what the outline of these changes says, with
subtypes as chains of the links recorded so far. A refused change is answered with an error
and with the hierarchy as it was. What is defined never becomes a mention again and keeps its
kind, links last, and defining what was mentioned leaves the links alone. -/
theorem hierarchies_refine_links (edits : List Hierarchy.Edit) :
    (Hierarchy.after edits).Refines (Outline.after edits) ∧
    (∀ edit, (Outline.after edits).Refuses edit →
      (∃ e, edit.apply (Hierarchy.after edits) = (.error e, Hierarchy.after edits)) ∧
        Hierarchy.after (edits ++ [edit]) = Hierarchy.after edits) ∧
    (∀ more name kind, (Hierarchy.after edits).standing name = .defined kind →
      (Hierarchy.after (edits ++ more)).standing name = .defined kind) ∧
    (∀ more, ∀ l ∈ (Hierarchy.after edits).links, l ∈ (Hierarchy.after (edits ++ more)).links) ∧
    (∀ name kind, (Hierarchy.after edits).standing name = .mentioned →
      (Hierarchy.after (edits ++ [.define name kind])).standing name = .defined kind ∧
      (Hierarchy.after (edits ++ [.define name kind])).links = (Hierarchy.after edits).links) := by
  refine ⟨?_, fun edit hrefuses => ?_, fun more => (Hierarchy.lasting edits more).1,
    fun more => (Hierarchy.lasting edits more).2, fun name kind hmentioned => ?_⟩
  · rw [← Hierarchy.outline_after]
    exact Hierarchy.refines_outline _
  · rw [← Hierarchy.outline_after] at hrefuses
    obtain ⟨e, herror⟩ := Hierarchy.apply_of_refuses hrefuses
    rw [Hierarchy.after_append_singleton]
    exact ⟨⟨e, herror⟩, congrArg Prod.snd herror⟩
  · rw [Hierarchy.after_append_singleton]
    exact Hierarchy.attempt_define_of_mentioned hmentioned kind

namespace Sample

open Hierarchy

/-- Two types that are parents of each other, of which one is only mentioned, and two
changes that are refused. -/
def circularEdits : List Edit :=
  [.define "A" .concrete, .link "A" "B" .extension, .link "B" "A" .implementation,
    .define "A" .interface, .link "X" "Y" .extension, .ensure "C", .close]

theorem circularEdits_refine_links :
    (Outline.after circularEdits).Refuses (.link "X" "Y" .extension) ∧
    (∃ e, Edit.apply (Hierarchy.after circularEdits) (.link "X" "Y" .extension) =
      (.error e, Hierarchy.after circularEdits)) ∧
    Hierarchy.after (circularEdits ++ [.link "X" "Y" .extension]) =
      Hierarchy.after circularEdits ∧
    (Hierarchy.after circularEdits).standing "A" = .defined .concrete ∧
    (Hierarchy.after (circularEdits ++ [.define "A" .interface, .ensure "A"])).standing "A" =
      .defined .concrete ∧
    (Hierarchy.after circularEdits).standing "B" = .mentioned ∧
    (⟨"B", "A", .implementation⟩ : Link) ∈
      (Hierarchy.after (circularEdits ++ [.define "B" .interface])).links ∧
    (Hierarchy.after (circularEdits ++ [.define "B" .interface])).standing "B" =
      .defined .interface ∧
    TransGen (Outline.after circularEdits).HasParent "B" "B" ∧
    ¬ TransGen (Outline.after circularEdits).HasParent "C" "A" := by
  obtain ⟨hrefines, hrefused, hlasting, hlinks, hdefine⟩ := hierarchies_refine_links circularEdits
  have hrefuses : (Outline.after circularEdits).Refuses (.link "X" "Y" .extension) :=
    (hrefines.refused _).1 ⟨.unknownClass "X", by decide +kernel⟩
  have hdefined : (Hierarchy.after circularEdits).standing "A" = .defined .concrete := by
    decide +kernel
  have hmentioned : (Hierarchy.after circularEdits).standing "B" = .mentioned := by decide +kernel
  have hlink : (⟨"B", "A", .implementation⟩ : Link) ∈ (Hierarchy.after circularEdits).links := by
    decide +kernel
  have hup : TransGen (Outline.after circularEdits).HasParent "B" "A" :=
    ((hrefines.subtype "B" "A").1 (by decide +kernel)).resolve_left (by decide)
  have hdown : TransGen (Outline.after circularEdits).HasParent "A" "B" :=
    ((hrefines.subtype "A" "B").1 (by decide +kernel)).resolve_left (by decide)
  refine ⟨hrefuses, (hrefused _ hrefuses).1, (hrefused _ hrefuses).2, hdefined,
    hlasting _ _ _ hdefined, hmentioned, hlinks _ _ hlink, (hdefine "B" .interface hmentioned).1, hup.trans hdown, fun hchain => ?_⟩
  have hsubtype := (hrefines.subtype "C" "A").2 (.inr hchain)
  revert hsubtype
  decide +kernel

end Sample

end TaintReplay
