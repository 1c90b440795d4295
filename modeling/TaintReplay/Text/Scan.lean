/-!
# Reading text from the left

The grammars of signatures are sequences of two kinds of items: a given
character, and a non-empty run of characters of one class. In these grammars
the character after a run is never of the run's class, so taking the longest
run is the only way to read, and no reader has to back up.
-/

namespace TaintReplay.Text

/-- Reads one given character and returns the rest. -/
def expect (c : Char) : List Char → Option (List Char)
  | [] => none
  | d :: rest => if d = c then some rest else none

/-- Reads the longest run of characters of a class, which must not be empty,
and returns it with the rest. -/
def takeRun (p : Char → Bool) (cs : List Char) : Option (List Char × List Char) :=
  if (cs.takeWhile p).isEmpty then none else some (cs.takeWhile p, cs.dropWhile p)

/-- A run is not empty, holds characters of its class only, and is followed by
what is left of the text. -/
theorem takeRun_eq_some {p : Char → Bool} {cs run rest : List Char}
    (h : takeRun p cs = some (run, rest)) : run ++ rest = cs ∧ run ≠ [] ∧ run.all p := by
  rw [takeRun] at h
  split at h
  · simp at h
  · rename_i hne
    obtain ⟨rfl, rfl⟩ := Prod.mk.inj (Option.some.inj h)
    exact ⟨List.takeWhile_append_dropWhile, by simpa using hne, List.all_takeWhile⟩

/-- Cuts a text at every occurrence of a character. There is always one part
more than there are cuts. -/
def splitAt (sep : Char) : List Char → List (List Char)
  | [] => [[]]
  | c :: cs =>
    if c = sep then [] :: splitAt sep cs
    else
      match splitAt sep cs with
      | [] => [[c]]
      | part :: parts => (c :: part) :: parts

theorem splitAt_ne_nil (sep : Char) (cs : List Char) : splitAt sep cs ≠ [] := by
  induction cs with
  | nil => simp [splitAt]
  | cons c cs ih =>
    rw [splitAt]
    split
    · simp
    · split <;> simp

end TaintReplay.Text
