/-!
# Reachability in finite graphs

The class hierarchy may be cyclic, so walking it has to remember what it has
seen. `Graph.visit` takes names from a list of pending ones; a name that is
new joins the seen ones and its successors join the pending ones.

The first argument bounds the number of names taken. A walk takes its starting
points and then each successor of each new name once, so *starting points plus
edges* is always enough.
-/

namespace TaintReplay.Graph

/-- Adds to `seen` all that can be reached from `pending`, taking at most
`fuel` pending names. -/
def visit {α : Type} [DecidableEq α] (next : α → List α) (fuel : Nat) (pending seen : List α) :
    List α :=
  match fuel, pending with
  | 0, _ => seen
  | _, [] => seen
  | fuel + 1, x :: pending =>
    if x ∈ seen then visit next fuel pending seen
    else visit next fuel (pending ++ next x) (seen ++ [x])

/-- A name is taken over once, however many ways lead to it. -/
theorem nodup_visit {α : Type} [DecidableEq α] (next : α → List α) (fuel : Nat)
    (pending : List α) {seen : List α} (hs : seen.Nodup) :
    (visit next fuel pending seen).Nodup := by
  induction fuel generalizing pending seen with
  | zero => simpa [visit] using hs
  | succ fuel ih =>
    cases pending with
    | nil => simpa [visit] using hs
    | cons x pending =>
      rw [visit]
      split
      · exact ih pending hs
      · rename_i hx
        refine ih _ (List.nodup_append.2 ⟨hs, by simp, ?_⟩)
        intro y hy z hz
        rw [List.mem_singleton.1 hz]
        exact fun h => hx (h ▸ hy)

/-- Only what a chain of successors leads to is added. -/
theorem reachable_of_mem_visit {α : Type} [DecidableEq α] {next : α → List α} {reach : α → Prop}
    (step : ∀ x y, reach x → y ∈ next x → reach y) {fuel : Nat} {pending seen : List α}
    (hp : ∀ x ∈ pending, reach x) (hs : ∀ x ∈ seen, reach x) :
    ∀ x ∈ visit next fuel pending seen, reach x := by
  induction fuel generalizing pending seen with
  | zero => simpa [visit] using hs
  | succ fuel ih =>
    cases pending with
    | nil => simpa [visit] using hs
    | cons x pending =>
      rw [visit]
      have hx : reach x := hp x (by simp)
      split
      · exact ih (fun y hy => hp y (by simp [hy])) hs
      · refine ih (fun y hy => ?_) (fun y hy => ?_)
        · rcases List.mem_append.1 hy with hy | hy
          · exact hp y (by simp [hy])
          · exact step x y hx hy
        · rcases List.mem_append.1 hy with hy | hy
          · exact hs y hy
          · simpa [List.mem_singleton.1 hy] using hx

end TaintReplay.Graph
