import TaintReplay.JavaType
import TaintReplay.OrdMap

/-!
# The class hierarchy

A hierarchy is a list of known types, each under a name of its own, an index of
these names, and a list of links from a type to one it extends or implements.
Types are often mentioned before they are defined, or never defined: such a type
is a *phantom*, a concrete class of which only the name is known. Defining a
phantom puts the definition in its place and keeps its links; defining a type
twice is refused. The hierarchy is handed back with the outcome of a change, also
if the change is refused.

Links are recorded as they come: a link given twice is there twice, and cycles
are not excluded. They only join known types: a parent that is mentioned by a
link becomes a phantom first. `Hierarchy` carries the proofs of this, of the
names being distinct and of the index being right, so no operation has to be told.

Changes are values of `Hierarchy.Edit`, so a history of a hierarchy is a list
of them.

## Main results

* `Hierarchy.find?_eq`: what is found by the index is what a search of the types finds.
-/

namespace TaintReplay

/-- In a list without repetitions, an item is found where it is. -/
theorem idxOf?_eq_some_iff_of_nodup {α : Type} [DecidableEq α] {items : List α} (h : items.Nodup)
    {x : α} {i : Nat} : items.idxOf? x = some i ↔ items[i]? = some x := by
  rw [List.idxOf?_eq_some_iff, List.getElem?_eq_some_iff]
  constructor
  · rintro ⟨hlt, hi, -⟩
    exact ⟨hlt, hi⟩
  · rintro ⟨hlt, rfl⟩
    refine ⟨hlt, rfl, fun j hj heq => ?_⟩
    have hsame := (List.getElem_inj h).1 heq
    omega

/-- The kinds of types that can be declared. -/
inductive ClassKind where
  | concrete
  | abstract
  | interface
deriving DecidableEq

/-- A known type. -/
structure ClassNode where
  name : String
  kind : ClassKind
  /-- Only the name is known. -/
  phantom : Bool
deriving DecidableEq

/-- The two ways in which a type has a parent. -/
inductive LinkKind where
  | extension
  | implementation
deriving DecidableEq

/-- A link from a type to one of its parents. -/
structure Link where
  child : String
  parent : String
  kind : LinkKind
deriving DecidableEq

/-- The known types and their links, both in the order they were added. -/
structure Hierarchy where
  nodes : List ClassNode
  links : List Link
  /-- The places of the types by their names. -/
  index : OrdMap String Nat
  /-- No two types have the same name. -/
  distinct : (nodes.map (·.name)).Nodup
  /-- The index has the place of each name. -/
  indexed : ∀ name, index.find? name = (nodes.map (·.name)).idxOf? name
  /-- Links join known types. -/
  linked : ∀ l ∈ links, l.child ∈ nodes.map (·.name) ∧ l.parent ∈ nodes.map (·.name)
deriving DecidableEq

/-- Why a change of the hierarchy is refused. -/
inductive HierarchyError where
  | duplicateClass (name : String)
  | unknownClass (name : String)
deriving DecidableEq

/-- The report of a refused change. -/
def HierarchyError.message : HierarchyError → String
  | duplicateClass name => "internal error: duplicate class '" ++ name ++ "' in hierarchy graph"
  | unknownClass name => "class not found: " ++ name

namespace Hierarchy

/-- The hierarchy without types. -/
def empty : Hierarchy where
  nodes := []
  links := []
  index := OrdMap.empty
  distinct := List.nodup_nil
  indexed _ := rfl
  linked _ h := absurd h List.not_mem_nil

instance : Inhabited Hierarchy := ⟨empty⟩

/-- The index has the place of a type under its name. -/
theorem find?_index_iff (h : Hierarchy) (name : String) (i : Nat) :
    h.index.find? name = some i ↔ ∃ node, h.nodes[i]? = some node ∧ node.name = name := by
  rw [h.indexed, idxOf?_eq_some_iff_of_nodup h.distinct, List.getElem?_map, Option.map_eq_some_iff]

/-- Looks a type up by name. -/
def find? (h : Hierarchy) (name : String) : Option ClassNode :=
  (h.index.find? name).bind fun i => h.nodes[i]?

/-- The index finds what a search of the types finds. -/
theorem find?_eq (h : Hierarchy) (name : String) :
    h.find? name = h.nodes.find? (·.name == name) := by
  rw [find?, h.indexed, List.idxOf?, List.findIdx?_map, List.find?_eq_bind_findIdx?_getElem?]
  rfl

/-- Whether a type is known, if only as a phantom. -/
def contains (h : Hierarchy) (name : String) : Bool := h.index.contains name

/-- The known types are those with a name in the list. -/
theorem contains_iff {h : Hierarchy} {name : String} :
    h.contains name = true ↔ name ∈ h.nodes.map (·.name) := by
  rw [contains, OrdMap.contains, h.indexed, List.isSome_idxOf?]

/-- The known types are those that are found. -/
theorem contains_eq (h : Hierarchy) (name : String) : h.contains name = (h.find? name).isSome := by
  rw [Bool.eq_iff_iff, contains_iff, find?_eq, List.find?_isSome]
  simp

/-- Number of known types. -/
def size (h : Hierarchy) : Nat := h.nodes.length

/-- Whether a name is that of an interface. -/
def isInterface (h : Hierarchy) (name : String) : Bool :=
  (h.find? name).any (·.kind == .interface)

/-- Whether a name is that of a class that can have instances of its own. -/
def isConcrete (h : Hierarchy) (name : String) : Bool :=
  (h.find? name).any (·.kind == .concrete)

/-- Whether nothing but the name of a type is known. -/
def isPhantom (h : Hierarchy) (name : String) : Bool :=
  (h.find? name).all (·.phantom)

/-- The parents of a type, one for each link. -/
def parents (h : Hierarchy) (name : String) : List String :=
  (h.links.filter (·.child == name)).map (·.parent)

/-! ## Changes -/

/-- Adds a type under a name that is not known. -/
def addNode (h : Hierarchy) (node : ClassNode) (new : ¬ h.contains node.name = true) : Hierarchy where
  nodes := h.nodes ++ [node]
  links := h.links
  index := h.index.insert node.name h.nodes.length
  distinct := by
    rw [contains_iff] at new
    rw [List.map_append, List.nodup_append]
    refine ⟨h.distinct, by simp, ?_⟩
    intro x hx y hy hxy
    rw [List.map_singleton, List.mem_singleton] at hy
    exact new (hy ▸ hxy ▸ hx)
  indexed name := by
    rw [contains_iff, ← List.idxOf?_eq_none_iff] at new
    by_cases hname : name = node.name
    · subst hname
      rw [OrdMap.find?_insert_self, List.idxOf?, List.map_append, List.findIdx?_append]
      rw [List.idxOf?] at new
      simp [new]
    · have hother : (node.name == name) = false := beq_eq_false_iff_ne.2 (Ne.symm hname)
      rw [OrdMap.find?_insert_of_ne hname, h.indexed]
      simp only [List.idxOf?, List.map_append, List.findIdx?_append]
      simp [hother]
  linked l hl := by
    obtain ⟨hc, hp⟩ := h.linked l hl
    rw [List.map_append]
    exact ⟨List.mem_append_left _ hc, List.mem_append_left _ hp⟩

/-- Puts a definition in the place of the type with its name. -/
def redefine (h : Hierarchy) (i : Nat) (node : ClassNode) (place : h.index.find? node.name = some i) :
    Hierarchy :=
  have same : (h.nodes.set i node).map (·.name) = h.nodes.map (·.name) := by
    rw [h.indexed, idxOf?_eq_some_iff_of_nodup h.distinct] at place
    obtain ⟨hlt, hname⟩ := List.getElem?_eq_some_iff.1 place
    rw [List.map_set, ← hname, List.set_getElem_self]
  { nodes := h.nodes.set i node
    links := h.links
    index := h.index
    distinct := same ▸ h.distinct
    indexed := same ▸ h.indexed
    linked := same ▸ h.linked }

/-- Only the name of the new type is new. -/
theorem find?_addNode (h : Hierarchy) (node : ClassNode) (new : ¬ h.contains node.name = true)
    (other : String) :
    (h.addNode node new).find? other = if other = node.name then some node else h.find? other := by
  rw [contains_eq, h.find?_eq, Bool.not_eq_true, Option.isSome_eq_false_iff,
    Option.isNone_iff_eq_none] at new
  rw [find?_eq, find?_eq, addNode, List.find?_append]
  by_cases hother : other = node.name
  · subst hother
    simp [new]
  · have hne : (node.name == other) = false := beq_eq_false_iff_ne.2 (Ne.symm hother)
    simp [hne, hother]

/-- Only the type with the name of the definition is replaced. -/
theorem find?_redefine (h : Hierarchy) (i : Nat) (node : ClassNode)
    (place : h.index.find? node.name = some i) (other : String) :
    (h.redefine i node place).find? other =
      if other = node.name then some node else h.find? other := by
  obtain ⟨old, hold, hname⟩ := (h.find?_index_iff _ i).1 place
  show (h.index.find? other).bind (fun j => (h.nodes.set i node)[j]?) = _
  by_cases hother : other = node.name
  · subst hother
    have hlt : i < h.nodes.length := (List.getElem?_eq_some_iff.1 hold).1
    rw [if_pos rfl, place, Option.bind_some, List.getElem?_set_self hlt]
  · rw [if_neg hother, find?]
    -- another name has another place
    refine Option.bind_congr fun j hj => List.getElem?_set_ne fun hij => hother ?_
    subst hij
    obtain ⟨same, hsame, rfl⟩ := (h.find?_index_iff _ i).1 hj
    rw [Option.some.inj (hsame.symm.trans hold), hname]

/-- Adds links between known types. -/
def addLinks (h : Hierarchy) (links : List Link)
    (known : ∀ l ∈ links, h.contains l.child = true ∧ h.contains l.parent = true) : Hierarchy where
  nodes := h.nodes
  links := h.links ++ links
  index := h.index
  distinct := h.distinct
  indexed := h.indexed
  linked l hl := by
    rcases List.mem_append.1 hl with hl | hl
    · exact h.linked l hl
    · exact ⟨contains_iff.1 (known l hl).1, contains_iff.1 (known l hl).2⟩

/-- Adds a phantom for a name that is not known. -/
def ensure (h : Hierarchy) (name : String) : Hierarchy :=
  if known : h.contains name then h else h.addNode ⟨name, .concrete, true⟩ known

theorem ensure_of_known {h : Hierarchy} {name : String} (known : h.contains name = true) :
    h.ensure name = h := dif_pos known

theorem ensure_of_new {h : Hierarchy} {name : String} (new : ¬ h.contains name = true) :
    h.ensure name = h.addNode ⟨name, .concrete, true⟩ new := dif_neg new

/-- Mentioning a name makes it known and forgets no other. -/
theorem contains_ensure {h : Hierarchy} {name other : String} :
    (h.ensure name).contains other = true ↔ other = name ∨ h.contains other = true := by
  by_cases known : h.contains name = true
  · rw [ensure_of_known known]
    exact ⟨.inr, fun hor => hor.elim (fun e => e ▸ known) id⟩
  · rw [ensure_of_new known, contains_iff, contains_iff, addNode, List.map_append, List.mem_append,
      List.map_singleton, List.mem_singleton]
    exact Or.comm

/-- Adds the phantoms of several names from left to right. -/
def ensureAll (h : Hierarchy) (names : List String) : Hierarchy := names.foldl ensure h

/-- Defines a type, in the place of its phantom if there is one. -/
def define (h : Hierarchy) (name : String) (kind : ClassKind) :
    Except HierarchyError Unit × Hierarchy :=
  match place : h.index.find? name with
  | none => (.ok (), h.addNode ⟨name, kind, false⟩ (by simp [contains, OrdMap.contains, place]))
  | some i =>
    if h.isPhantom name then (.ok (), h.redefine i ⟨name, kind, false⟩ place)
    else (.error (.duplicateClass name), h)

/-- Links a known type to a parent, which becomes a phantom if it is not known. -/
def link (h : Hierarchy) (child parent : String) (kind : LinkKind) :
    Except HierarchyError Unit × Hierarchy :=
  if known : h.contains child then
    (.ok (), (h.ensure parent).addLinks [⟨child, parent, kind⟩] (by
      intro l hl
      rw [List.mem_singleton.1 hl]
      exact ⟨contains_ensure.2 (.inr known), contains_ensure.2 (.inl rfl)⟩))
  else (.error (.unknownClass child), h)

/-- The types without a parent other than the root class, in the order they
were added. -/
def orphans (h : Hierarchy) : List String :=
  (h.nodes.map (·.name)).filter fun name => (h.parents name).isEmpty && name != JavaType.objectName

/-- Makes every type without a parent extend the root class. -/
def close (h : Hierarchy) : Hierarchy :=
  let closed := h.ensure JavaType.objectName
  closed.addLinks (closed.orphans.map fun name => ⟨name, JavaType.objectName, .extension⟩) (by
    intro l hl
    obtain ⟨name, hname, rfl⟩ := List.mem_map.1 hl
    exact ⟨contains_iff.2 (List.mem_filter.1 hname).1, contains_ensure.2 (.inl rfl)⟩)

/-- A change of a hierarchy. -/
inductive Edit where
  | define (name : String) (kind : ClassKind)
  | link (child parent : String) (kind : LinkKind)
  | ensure (name : String)
  | close
deriving DecidableEq

/-- What a change does without having been asked by name. -/
inductive Notice where
  | phantomAdded (name : String)
  | rootParentAdded (name : String)
deriving DecidableEq

/-- Makes a change. -/
def Edit.apply (h : Hierarchy) : Edit → Except HierarchyError Unit × Hierarchy
  | define name kind => h.define name kind
  | link child parent kind => h.link child parent kind
  | ensure name => (.ok (), h.ensure name)
  | close => (.ok (), h.close)

/-- The phantom that mentioning a name would add. -/
def phantomNotices (h : Hierarchy) (name : String) : List Notice :=
  if h.contains name then [] else [.phantomAdded name]

/-- What a change is going to report, in order. -/
def Edit.notices (h : Hierarchy) : Edit → List Notice
  | define _ _ => []
  | link child parent _ => if h.contains child then h.phantomNotices parent else []
  | ensure name => h.phantomNotices name
  | close =>
    h.phantomNotices JavaType.objectName ++
      (h.ensure JavaType.objectName).orphans.map .rootParentAdded

/-- Makes changes from left to right, up to the first that is refused. -/
def applyAll : Hierarchy → List Edit → Except HierarchyError Unit × Hierarchy
  | h, [] => (.ok (), h)
  | h, edit :: edits =>
    match edit.apply h with
    | (.ok _, h) => h.applyAll edits
    | (.error e, h) => (.error e, h)

end Hierarchy

end TaintReplay
