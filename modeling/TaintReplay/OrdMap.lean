import TaintReplay.OrdSet

/-!
# Finite maps kept in increasing key order

Tables indexed by class names, sub-signatures or seeds are shown by increasing
key. A map is stored as the list of its entries with strictly increasing keys,
so its keys form a set and a map has one representation.

All updates go through `OrdMap.alter`, which computes the new value of one key
from its old one and leaves the other keys alone (`OrdMap.find?_alter_of_ne`). Values
are never removed: nothing in the analysis forgets what it has learnt.

## Main results

* `OrdMap.find?_alter_self`, `OrdMap.find?_alter_of_ne`: what an update changes.
* `OrdMap.find?_alterAll`: what the updates by another map change.
* `OrdMap.mem_keys_iff`: the keys are those with a value.
* `OrdMap.ext_find?`: a map is determined by its values.
-/

namespace TaintReplay

section Entries

variable {κ ν : Type} [Ord κ]

/-- Updates the entry of a key in a list of entries, adding it at its place if
there is none. -/
def alterEntries (k : κ) (f : Option ν → ν) : List (κ × ν) → List (κ × ν)
  | [] => [(k, f none)]
  | (k', v) :: rest =>
    match compare k k' with
    | .lt => (k, f none) :: (k', v) :: rest
    | .eq => (k', f (some v)) :: rest
    | .gt => (k', v) :: alterEntries k f rest

/-- The value of a key in a list of entries. -/
def findPair? [DecidableEq κ] (k : κ) : List (κ × ν) → Option ν
  | [] => none
  | (k', v) :: rest => if k = k' then some v else findPair? k rest

/-- An update brings in no other key. -/
theorem mem_keys_of_mem_alterEntries {k z : κ} {f : Option ν → ν} {es : List (κ × ν)}
    (h : z ∈ (alterEntries k f es).map Prod.fst) : z = k ∨ z ∈ es.map Prod.fst := by
  induction es with
  | nil => simpa [alterEntries] using h
  | cons e es ih =>
    obtain ⟨k', v⟩ := e
    rw [alterEntries] at h
    split at h
    · simpa using h
    · exact .inr (by simpa using h)
    · rw [List.map_cons, List.mem_cons] at h
      rcases h with h | h
      · exact .inr (by simp [h])
      · rcases ih h with h | h
        · exact .inl h
        · exact .inr (by simp only [List.map_cons, List.mem_cons]; exact .inr h)

/-- An update keeps the keys increasing. -/
theorem increasing_alterEntries [Std.TransOrd κ] {k : κ} {f : Option ν → ν} {es : List (κ × ν)}
    (h : Increasing (es.map Prod.fst)) : Increasing ((alterEntries k f es).map Prod.fst) := by
  induction es with
  | nil => simp [alterEntries, Increasing]
  | cons e es ih =>
    obtain ⟨k', v⟩ := e
    have hk' : ∀ z ∈ es.map Prod.fst, compare k' z = .lt := (List.pairwise_cons.1 h).1
    have hes : Increasing (es.map Prod.fst) := (List.pairwise_cons.1 h).2
    rw [alterEntries]
    split
    · rename_i hlt
      refine List.pairwise_cons.2 ⟨fun z hz => ?_, h⟩
      rcases List.mem_cons.1 hz with rfl | hz
      · exact hlt
      · exact Std.TransCmp.lt_trans hlt (hk' z hz)
    · exact h
    · rename_i hgt
      refine List.pairwise_cons.2 ⟨fun z hz => ?_, ih hes⟩
      rcases mem_keys_of_mem_alterEntries hz with rfl | hz
      · exact Std.OrientedCmp.gt_iff_lt.1 hgt
      · exact hk' z hz

variable [Std.LawfulEqOrd κ]

theorem ne_of_compare_eq_lt {a b : κ} (h : compare a b = .lt) : a ≠ b := by
  rintro rfl
  simp [Std.ReflCmp.compare_self] at h

variable [DecidableEq κ]

/-- A key below all others has no entry. -/
theorem findPair?_eq_none_of_lt {k : κ} {es : List (κ × ν)}
    (h : ∀ z ∈ es.map Prod.fst, compare k z = .lt) : findPair? k es = none := by
  induction es with
  | nil => rfl
  | cons e es ih =>
    obtain ⟨k', v⟩ := e
    rw [findPair?, if_neg (ne_of_compare_eq_lt (h k' (by simp)))]
    exact ih fun z hz => h z (by simp only [List.map_cons, List.mem_cons]; exact .inr hz)

/-- The updated key has the new value. -/
theorem findPair?_alterEntries_self [Std.TransOrd κ] (k : κ) (f : Option ν → ν) {es : List (κ × ν)}
    (h : Increasing (es.map Prod.fst)) :
    findPair? k (alterEntries k f es) = some (f (findPair? k es)) := by
  induction es with
  | nil => simp [alterEntries, findPair?]
  | cons e es ih =>
    obtain ⟨k', v⟩ := e
    have hk' : ∀ z ∈ es.map Prod.fst, compare k' z = .lt := (List.pairwise_cons.1 h).1
    have hes : Increasing (es.map Prod.fst) := (List.pairwise_cons.1 h).2
    rw [alterEntries]
    split
    · rename_i hlt
      have hnone : findPair? k es = none :=
        findPair?_eq_none_of_lt fun z hz => Std.TransCmp.lt_trans hlt (hk' z hz)
      simp [findPair?, ne_of_compare_eq_lt hlt, hnone]
    · rename_i heq
      simp [findPair?, Std.LawfulEqOrd.eq_of_compare heq]
    · rename_i hgt
      have hne : k ≠ k' := (ne_of_compare_eq_lt (Std.OrientedCmp.gt_iff_lt.1 hgt)).symm
      simp [findPair?, hne, ih hes]

/-- The other keys keep their values. -/
theorem findPair?_alterEntries_of_ne {k z : κ} (hz : z ≠ k) (f : Option ν → ν)
    (es : List (κ × ν)) : findPair? z (alterEntries k f es) = findPair? z es := by
  induction es with
  | nil => simp [alterEntries, findPair?, hz]
  | cons e es ih =>
    obtain ⟨k', v⟩ := e
    rw [alterEntries]
    split
    · rw [findPair?, if_neg hz]
    · rename_i heq
      obtain rfl : k = k' := Std.LawfulEqOrd.eq_of_compare heq
      simp [findPair?, hz]
    · simp only [findPair?, ih]

end Entries

/-- A finite map, as the list of its entries by increasing key. -/
structure OrdMap (κ ν : Type) [Ord κ] where
  /-- The entries, by increasing key. -/
  entries : List (κ × ν)
  increasing : Increasing (entries.map Prod.fst)

namespace OrdMap

variable {κ ν : Type} [Ord κ]

@[ext]
theorem ext {m n : OrdMap κ ν} (h : m.entries = n.entries) : m = n := by
  cases m
  cases n
  cases h
  rfl

instance [DecidableEq κ] [DecidableEq ν] : DecidableEq (OrdMap κ ν) := fun m n =>
  decidable_of_iff (m.entries = n.entries) ⟨ext, fun h => h ▸ rfl⟩

/-- The map without entries. -/
def empty : OrdMap κ ν := ⟨[], increasing_nil⟩

instance : EmptyCollection (OrdMap κ ν) := ⟨empty⟩

instance : Inhabited (OrdMap κ ν) := ⟨empty⟩

/-- The keys with a value. -/
def keys (m : OrdMap κ ν) : OrdSet κ := ⟨m.entries.map Prod.fst, m.increasing⟩

/-- The values, by increasing key. -/
def values (m : OrdMap κ ν) : List ν := m.entries.map Prod.snd

/-- Number of keys with a value. -/
def size (m : OrdMap κ ν) : Nat := m.entries.length

/-- Whether no key has a value. -/
def isEmpty (m : OrdMap κ ν) : Bool := m.entries.isEmpty

section Reading

variable [DecidableEq κ]

/-- The value of a key. -/
def find? (m : OrdMap κ ν) (k : κ) : Option ν := findPair? k m.entries

/-- Whether a key has a value. -/
def contains (m : OrdMap κ ν) (k : κ) : Bool := (m.find? k).isSome

@[simp]
theorem find?_empty (k : κ) : (empty : OrdMap κ ν).find? k = none := rfl

end Reading

variable [Std.TransOrd κ]

/-- Gives a key a new value, computed from the old one. -/
def alter (m : OrdMap κ ν) (k : κ) (f : Option ν → ν) : OrdMap κ ν :=
  ⟨alterEntries k f m.entries, increasing_alterEntries m.increasing⟩

/-- Gives a key a value. -/
def insert (m : OrdMap κ ν) (k : κ) (v : ν) : OrdMap κ ν := m.alter k fun _ => v

/-- Gives the keys of another map new values, each computed from its old one and
from its value in the other map. -/
def alterAll {μ : Type} (m : OrdMap κ ν) (n : OrdMap κ μ) (f : Option ν → μ → ν) : OrdMap κ ν :=
  n.entries.foldl (fun m e => m.alter e.1 fun old => f old e.2) m

/-! ## Reading after writing -/

variable [DecidableEq κ] [Std.LawfulEqOrd κ]

@[simp]
theorem find?_alter_self (m : OrdMap κ ν) (k : κ) (f : Option ν → ν) :
    (m.alter k f).find? k = some (f (m.find? k)) :=
  findPair?_alterEntries_self k f m.increasing

@[simp]
theorem find?_insert_self (m : OrdMap κ ν) (k : κ) (v : ν) :
    (m.insert k v).find? k = some v := find?_alter_self m k _

theorem find?_alter_of_ne {k z : κ} (h : z ≠ k) (m : OrdMap κ ν) (f : Option ν → ν) :
    (m.alter k f).find? z = m.find? z :=
  findPair?_alterEntries_of_ne h f m.entries

theorem find?_insert_of_ne {k z : κ} (h : z ≠ k) (m : OrdMap κ ν) (v : ν) :
    (m.insert k v).find? z = m.find? z := find?_alter_of_ne h m _

omit [Std.TransOrd κ] [Std.LawfulEqOrd κ] in
/-- The keys of a map are the keys with a value. -/
theorem mem_keys_iff {m : OrdMap κ ν} {k : κ} : k ∈ m.keys ↔ m.contains k = true := by
  obtain ⟨es, hes⟩ := m
  show k ∈ es.map Prod.fst ↔ (findPair? k es).isSome = true
  clear hes
  induction es with
  | nil => simp [findPair?]
  | cons e es ih =>
    obtain ⟨k', v⟩ := e
    by_cases h : k = k'
    · simp [findPair?, h]
    · rw [List.map_cons, List.mem_cons, findPair?, if_neg h, ← ih]
      exact ⟨fun hk => hk.resolve_left h, .inr⟩

omit [Std.TransOrd κ] in
/-- The entries of a map are its keys with their values. -/
theorem mem_entries_iff {m : OrdMap κ ν} {k : κ} {v : ν} :
    (k, v) ∈ m.entries ↔ m.find? k = some v := by
  obtain ⟨es, hes⟩ := m
  show (k, v) ∈ es ↔ findPair? k es = some v
  induction es with
  | nil => simp [findPair?]
  | cons e es ih =>
      obtain ⟨k', w⟩ := e
      have hlater : ∀ z ∈ es.map Prod.fst, compare k' z = .lt := (List.pairwise_cons.1 hes).1
      rw [findPair?, List.mem_cons]
      by_cases h : k = k'
      · subst h
        -- no later entry has the first key again
        have habsent : ¬ (k, v) ∈ es := fun hmem =>
          ne_of_compare_eq_lt (hlater k (List.mem_map_of_mem (f := Prod.fst) hmem)) rfl
        simp [habsent, eq_comm]
      · rw [if_neg h, ← ih (List.pairwise_cons.1 hes).2]
        simp [h]

omit [Std.TransOrd κ] in
theorem exists_mem_values_iff {m : OrdMap κ ν} {p : ν → Prop} :
    (∃ v ∈ m.values, p v) ↔ ∃ k v, m.find? k = some v ∧ p v := by
  simp only [values, List.mem_map, Prod.exists, mem_entries_iff]
  grind

/-- A map is determined by the values of its keys. -/
theorem ext_find? {m n : OrdMap κ ν} (h : ∀ k, m.find? k = n.find? k) : m = n := by
  -- entries are compared by their keys, so both lists of entries increase
  let _ : Ord (κ × ν) := ⟨compareOn Prod.fst⟩
  have _ : Std.TransOrd (κ × ν) := inferInstanceAs (Std.TransCmp (compareOn Prod.fst))
  have increasing : ∀ o : OrdMap κ ν, Increasing o.entries := fun o =>
    List.pairwise_map.1 o.increasing
  refine ext ((increasing m).eq_of_mem_iff (increasing n) fun e => ?_)
  rw [mem_entries_iff, mem_entries_iff, h]

/-- What holds of all values, and of a new one, holds of all values after an update. -/
theorem forall_alter {P : κ → ν → Prop} {m : OrdMap κ ν} {k : κ} {f : Option ν → ν}
    (h : ∀ z v, m.find? z = some v → P z v) (new : P k (f (m.find? k))) :
    ∀ z v, (m.alter k f).find? z = some v → P z v := by
  intro z v hv
  by_cases hz : z = k
  · subst hz
    rw [find?_alter_self] at hv
    cases hv
    exact new
  · rw [find?_alter_of_ne hz] at hv
    exact h z v hv

/-- The keys of the other map have new values, and all others keep theirs. -/
theorem find?_alterAll {μ : Type} (m : OrdMap κ ν) (n : OrdMap κ μ) (f : Option ν → μ → ν) (k : κ) :
    (m.alterAll n f).find? k = ((n.find? k).map (f (m.find? k))).or (m.find? k) := by
  obtain ⟨es, hes⟩ := n
  show (es.foldl (fun m e => m.alter e.1 fun old => f old e.2) m).find? k =
    ((findPair? k es).map (f (m.find? k))).or (m.find? k)
  induction es generalizing m with
  | nil => rfl
  | cons e es ih =>
      obtain ⟨k', v⟩ := e
      have hlater : ∀ z ∈ es.map Prod.fst, compare k' z = .lt := (List.pairwise_cons.1 hes).1
      rw [List.foldl_cons, ih _ (List.pairwise_cons.1 hes).2, findPair?]
      by_cases h : k = k'
      · subst h
        -- the first key does not come again
        have habsent : findPair? k es = none := findPair?_eq_none_of_lt hlater
        simp [habsent]
      · rw [if_neg h, find?_alter_of_ne h]

/-- What holds of all values, and of the new ones, holds of all values after updates. -/
theorem forall_alterAll {μ : Type} {P : κ → ν → Prop} {m : OrdMap κ ν} {n : OrdMap κ μ}
    {f : Option ν → μ → ν} (h : ∀ z v, m.find? z = some v → P z v)
    (new : ∀ z v, n.find? z = some v → P z (f (m.find? z) v)) :
    ∀ z v, (m.alterAll n f).find? z = some v → P z v := by
  intro z v hv
  rw [find?_alterAll] at hv
  cases hn : n.find? z with
  | none =>
      rw [hn] at hv
      exact h z v hv
  | some w =>
      rw [hn] at hv
      cases hv
      exact new z w hn

end OrdMap

end TaintReplay
