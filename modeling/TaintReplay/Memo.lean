import TaintReplay.OrdMap

/-!
# Write-once memo

Looking up summaries is memoised: a key is computed at most once and keeps its
value for ever. The memo counts how often it was asked for a key that had a
value (`hits`) and how often it computed one (`misses`).

A key gets its entry before its loader runs, so an entry without a value is
left behind when the loader fails. A later request runs its loader again.

Loaders may ask the same memo for other keys. `Loader` describes what such a
loader does as a tree: it is done, it fails, or it asks for a key and continues
with the answer. A failure inside is a failure of the whole.
-/

namespace TaintReplay

/-- Keys with their values, if computed, and the two counters. -/
structure Memo (κ ν : Type) [Ord κ] where
  entries : OrdMap κ (Option ν)
  hits : Nat
  misses : Nat

namespace Memo

variable {κ ν : Type} [Ord κ]

/-- The memo that was never asked. -/
def empty : Memo κ ν := ⟨OrdMap.empty, 0, 0⟩

instance : Inhabited (Memo κ ν) := ⟨empty⟩

/-- The value of a key, if it has been computed. -/
def get? [DecidableEq κ] (m : Memo κ ν) (k : κ) : Option ν := (m.entries.find? k).join

/-- Number of keys that were ever asked for. -/
def size (m : Memo κ ν) : Nat := m.entries.size

variable [Std.TransOrd κ]

/-- Makes an entry for a key that has none. -/
def touch (m : Memo κ ν) (k : κ) : Memo κ ν :=
  { m with entries := m.entries.alter k fun old => old.getD none }

/-- Records the value computed for a key. -/
def store (m : Memo κ ν) (k : κ) (v : ν) : Memo κ ν :=
  { m with entries := m.entries.insert k (some v), misses := m.misses + 1 }

variable [DecidableEq κ]

/-- Asks for a key. Its loader runs only if there is no value yet, on the memo
in which the key has its entry. -/
def compute (m : Memo κ ν) (k : κ) (load : Memo κ ν → Memo κ ν × Option ν) :
    Memo κ ν × Option ν :=
  match m.get? k with
  | some v => ({ m with hits := m.hits + 1 }, some v)
  | none =>
    match load (m.touch k) with
    | (m, none) => (m, none)
    | (m, some v) => (m.store k v, some v)

/-- What a loader does. -/
inductive Loader (κ ν : Type) where
  | done (v : ν)
  | fail
  | ask (k : κ) (loader : Loader κ ν) (next : ν → Loader κ ν)

/-- Runs a loader on a memo. -/
def Loader.run : Loader κ ν → Memo κ ν → Memo κ ν × Option ν
  | done v, m => (m, some v)
  | fail, m => (m, none)
  | ask k loader next, m =>
    match m.compute k loader.run with
    | (m, none) => (m, none)
    | (m, some v) => (next v).run m

/-- The written form of the state of a memo. -/
def render (m : Memo κ ν) : String :=
  "ComputingCache \x7b entries: " ++ toString m.size ++ ", hits: " ++ toString m.hits ++
    ", misses: " ++ toString m.misses ++ " \x7d"

end Memo

end TaintReplay
