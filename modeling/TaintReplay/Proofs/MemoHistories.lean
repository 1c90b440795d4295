import Mathlib.Data.Set.Card
import TaintReplay.Proofs.Growth

/-!
# What happens to a memo

Requests to a memo are nested: while the loader of one key runs, the memo is asked for others,
and a failure ends every request around it. What happens from request to request is recorded as
a list of moments, each an event with the memo that it leaves (`Memo.history`). As long as no
loader asks for a key whose own loader is running, each event changes the memo in one of five
ways (`Memo.Step`), however deep the requests are nested. What the counters count and which
values stay follows from these alone.

## Main results

* `Memo.Loader.passes`: what loaders do is a sequence of such steps.
* `Memo.Tallies.passes`: what the counters count.
* `memos_are_written_once`: what holds at every moment of any requests.
-/

namespace TaintReplay

/-- The size of a map is the number of its keys. -/
theorem OrdMap.encard_keys {κ ν : Type} [Ord κ] [Std.LawfulEqOrd κ] [DecidableEq κ]
    (m : OrdMap κ ν) : {k | m.contains k = true}.encard = m.size := by
  have hnodup : (m.entries.map Prod.fst).Nodup := by
    refine m.increasing.imp fun {a b} hlt heq => ?_
    subst heq
    cases hlt.symm.trans Std.ReflCmp.compare_self
  have hkeys : {k | m.contains k = true} = ((m.entries.map Prod.fst).toFinset : Set κ) := by
    ext k
    rw [Finset.mem_coe, List.mem_toFinset]
    exact mem_keys_iff.symm
  rw [hkeys, Set.encard_coe_eq_coe_finsetCard, List.toFinset_card_of_nodup hnodup, List.length_map]
  rfl

namespace Memo

variable {κ ν : Type}

/-! ## Moments -/

/-- What can happen to a memo. It is looked at, or asked for a key that has a value, or for one
that has none, and then the loader of this key gives it one or fails. -/
inductive Event (κ ν : Type) where
  | looked (k : κ) (found : Option ν)
  | served (k : κ) (v : ν)
  | opened (k : κ)
  | loaded (k : κ) (v : ν)
  | failed (k : κ)

namespace Event

def key : Event κ ν → κ
  | looked k _ => k
  | served k _ => k
  | opened k => k
  | loaded k _ => k
  | failed k => k

/-- The key that a request was made for, if the event starts one. -/
def asked? : Event κ ν → Option κ
  | served k _ => some k
  | opened k => some k
  | _ => none

/-- The key and the value that a request was answered with, if the event ends one so. -/
def answer? : Event κ ν → Option (κ × ν)
  | served k v => some (k, v)
  | loaded k v => some (k, v)
  | _ => none

/-- How the request for a key without a value ends. -/
def ended (k : κ) : Option ν → Event κ ν
  | some v => loaded k v
  | none => failed k

end Event

variable [Ord κ]

/-- An event and the memo that it leaves. -/
structure Moment (κ ν : Type) [Ord κ] where
  event : Event κ ν
  memo : Memo κ ν

variable [Std.TransOrd κ] [DecidableEq κ]

/-- What happens in the course of a request, given what happens while its loader runs. -/
def course (m : Memo κ ν) (k : κ) (load : Memo κ ν → Memo κ ν × Option ν)
    (inner : Memo κ ν → List (Moment κ ν)) : List (Moment κ ν) :=
  match m.get? k with
  | some v => [⟨.served k v, (m.compute k load).1⟩]
  | none =>
    ⟨.opened k, m.touch k⟩ ::
      (inner (m.touch k) ++ [⟨.ended k (m.compute k load).2, (m.compute k load).1⟩])

/-- What happens while a loader runs. -/
def Loader.history : Loader κ ν → Memo κ ν → List (Moment κ ν)
  | done _, _ => []
  | fail, _ => []
  | ask k loader next, m =>
    m.course k loader.run loader.history ++
      match m.compute k loader.run with
      | (_, none) => []
      | (m, some v) => (next v).history m

/-- No key is asked for while a loader of it runs. The keys whose loaders run already are given. -/
def Loader.avoids : Loader κ ν → List κ → Memo κ ν → Bool
  | done _, _, _ => true
  | fail, _, _ => true
  | ask k loader next, busy, m =>
    !busy.contains k && ((m.get? k).isSome || loader.avoids (k :: busy) (m.touch k)) &&
      match m.compute k loader.run with
      | (_, none) => true
      | (m, some v) => (next v).avoids busy m

/-! ## Requests one after the other -/

/-- What a memo is used for. -/
inductive Request (κ ν : Type) where
  | look (k : κ)
  | compute (k : κ) (loader : Loader κ ν)

namespace Request

/-- The memo after a request. -/
def result : Request κ ν → Memo κ ν → Memo κ ν
  | look _, m => m
  | compute k loader, m => (m.compute k loader.run).1

/-- What happens in the course of a request. -/
def history : Request κ ν → Memo κ ν → List (Moment κ ν)
  | look k, m => [⟨.looked k (m.get? k), m⟩]
  | compute k loader, m => m.course k loader.run loader.history

/-- No key is asked for while a loader of it runs. -/
def avoids : Request κ ν → Memo κ ν → Bool
  | look _, _ => true
  | compute k loader, m => (m.get? k).isSome || loader.avoids [k] (m.touch k)

end Request

/-- The memo after requests one after the other, whether or not they fail. -/
def after : Memo κ ν → List (Request κ ν) → Memo κ ν
  | m, [] => m
  | m, request :: requests => (request.result m).after requests

/-- What happens in the course of requests one after the other. -/
def history : Memo κ ν → List (Request κ ν) → List (Moment κ ν)
  | _, [] => []
  | m, request :: requests => request.history m ++ (request.result m).history requests

/-- No key is asked for while a loader of it runs. -/
def avoids : Memo κ ν → List (Request κ ν) → Bool
  | _, [] => true
  | m, request :: requests => request.avoids m && (request.result m).avoids requests

/-! ## Steps -/

/-- What an event does to a memo. While a loader runs, its key has an entry without a value. -/
inductive Step : Memo κ ν → Event κ ν → Memo κ ν → Prop
  | looked {m : Memo κ ν} {k : κ} : Step m (.looked k (m.get? k)) m
  | served {m : Memo κ ν} {k : κ} {v : ν} (present : m.get? k = some v) :
      Step m (.served k v) { m with hits := m.hits + 1 }
  | opened {m : Memo κ ν} {k : κ} (absent : m.get? k = none) : Step m (.opened k) (m.touch k)
  | loaded {m : Memo κ ν} {k : κ} {v : ν} (pending : m.entries.find? k = some none) :
      Step m (.loaded k v) (m.store k v)
  | failed {m : Memo κ ν} {k : κ} (pending : m.entries.find? k = some none) :
      Step m (.failed k) m

/-- A memo goes through some moments and is left as another. -/
inductive Passes : Memo κ ν → List (Moment κ ν) → Memo κ ν → Prop
  | stop {m : Memo κ ν} : Passes m [] m
  | step {m last : Memo κ ν} {now : Moment κ ν} {future : List (Moment κ ν)}
      (first : Step m now.event now.memo) (onward : Passes now.memo future last) :
      Passes m (now :: future) last

variable {m m' last : Memo κ ν} {past future : List (Moment κ ν)}

theorem Passes.append (h : Passes m past m') (h' : Passes m' future last) :
    Passes m (past ++ future) last := by
  induction h with
  | stop => exact h'
  | step first onward ih => exact .step first (ih h')

theorem Passes.of_append (h : Passes m (past ++ future) last) :
    ∃ m', Passes m past m' ∧ Passes m' future last := by
  induction past generalizing m with
  | nil => exact ⟨m, .stop, h⟩
  | cons now past ih =>
      cases h with
      | step first onward =>
          obtain ⟨m', hpast, hfuture⟩ := ih onward
          exact ⟨m', .step first hpast, hfuture⟩

/-- The last moment leaves what is left in the end. -/
theorem Passes.memo_getLast? (h : Passes m future last) :
    (future.getLast?.map Moment.memo).getD m = last := by
  induction h with
  | stop => rfl
  | step first onward ih =>
      rename_i future
      rw [List.getLast?_cons, Option.map_some, Option.getD_some, ← ih]
      cases future.getLast? <;> rfl

/-! ## Requests are sequences of steps -/

variable [Std.LawfulEqOrd κ]

omit [Std.TransOrd κ] [Std.LawfulEqOrd κ] in
theorem get?_of_pending {k : κ} (h : m.entries.find? k = some none) : m.get? k = none := by
  rw [get?, h]
  rfl

theorem find?_touch (m : Memo κ ν) (k other : κ) : (m.touch k).entries.find? other =
    if other = k then some (m.get? k) else m.entries.find? other := by
  by_cases h : other = k
  · subst h
    rw [touch, OrdMap.find?_alter_self, if_pos rfl, get?]
    cases m.entries.find? other <;> rfl
  · rw [touch, OrdMap.find?_alter_of_ne h, if_neg h]

theorem find?_store_of_ne {k other : κ} (h : other ≠ k) (m : Memo κ ν) (v : ν) :
    (m.store k v).entries.find? other = m.entries.find? other :=
  OrdMap.find?_insert_of_ne h m.entries (some v)

/-- A request goes through its moments if its loader does, and leaves the keys pending that were
so before. -/
theorem passes_course {k : κ} {load : Memo κ ν → Memo κ ν × Option ν}
    {inner : Memo κ ν → List (Moment κ ν)} {busy : List κ} (fresh : k ∉ busy)
    (pending : ∀ b ∈ busy, m.entries.find? b = some none)
    (inside : m.get? k = none → (∀ b ∈ k :: busy, (m.touch k).entries.find? b = some none) →
      Passes (m.touch k) (inner (m.touch k)) (load (m.touch k)).1 ∧
        ∀ b ∈ k :: busy, (load (m.touch k)).1.entries.find? b = some none) :
    Passes m (m.course k load inner) (m.compute k load).1 ∧
      ∀ b ∈ busy, (m.compute k load).1.entries.find? b = some none := by
  unfold course compute
  cases hk : m.get? k with
  | some v => exact ⟨.step (.served hk) .stop, pending⟩
  | none =>
      have htouched : ∀ b ∈ k :: busy, (m.touch k).entries.find? b = some none := by
        intro b hb
        rw [find?_touch]
        by_cases heq : b = k
        · rw [if_pos heq, hk]
        · rw [if_neg heq]
          exact pending b ((List.mem_cons.1 hb).resolve_left heq)
      obtain ⟨hpasses, hafter⟩ := inside hk htouched
      obtain ⟨hself, hothers⟩ := List.forall_mem_cons.1 hafter
      rcases hload : load (m.touch k) with ⟨loaded, result⟩
      simp only [hload] at hpasses hself hothers
      cases result with
      | none => exact ⟨.step (.opened hk) (hpasses.append (.step (.failed hself) .stop)), hothers⟩
      | some v =>
          refine ⟨.step (.opened hk) (hpasses.append (.step (.loaded hself) .stop)), fun b hb => ?_⟩
          have hne : b ≠ k := fun heq => fresh (heq ▸ hb)
          rw [find?_store_of_ne hne]
          exact hothers b hb

/-- A loader goes through its moments, and leaves the keys pending that were so before. -/
theorem Loader.passes (loader : Loader κ ν) {busy : List κ} {m : Memo κ ν}
    (avoids : loader.avoids busy m = true)
    (pending : ∀ b ∈ busy, m.entries.find? b = some none) :
    Passes m (loader.history m) (loader.run m).1 ∧
      ∀ b ∈ busy, (loader.run m).1.entries.find? b = some none := by
  -- no busy key is asked for, so none gets a value before its own loader is done
  induction loader generalizing busy m with
  | done v => exact ⟨.stop, pending⟩
  | fail => exact ⟨.stop, pending⟩
  | ask k loader next ihLoader ihNext =>
      rw [Loader.avoids, Bool.and_eq_true, Bool.and_eq_true] at avoids
      obtain ⟨⟨hfresh, hloader⟩, hnext⟩ := avoids
      have hk : k ∉ busy := by simpa using hfresh
      have hcourse := passes_course hk pending fun habsent htouched =>
        ihLoader (by simpa [habsent] using hloader) htouched
      unfold Loader.history Loader.run
      rcases hcompute : m.compute k loader.run with ⟨m', result⟩
      rw [hcompute] at hcourse hnext
      cases result with
      | none =>
          simp only [List.append_nil]
          exact hcourse
      | some v =>
          obtain ⟨honward, hafter⟩ := ihNext v hnext hcourse.2
          exact ⟨hcourse.1.append honward, hafter⟩

theorem Request.passes (request : Request κ ν) (avoids : request.avoids m = true) :
    Passes m (request.history m) (request.result m) := by
  cases request with
  | look k => exact .step .looked .stop
  | compute k loader =>
      refine (passes_course List.not_mem_nil (by simp) fun habsent htouched => ?_).1
      rw [Request.avoids, habsent] at avoids
      exact loader.passes avoids htouched

theorem passes_history {requests : List (Request κ ν)} (avoids : m.avoids requests = true) :
    Passes m (m.history requests) (m.after requests) := by
  induction requests generalizing m with
  | nil => exact .stop
  | cons request requests ih =>
      obtain ⟨hfirst, hrest⟩ := Bool.and_eq_true_iff.1 avoids
      exact (request.passes hfirst).append (ih hrest)

/-! ## Values stay -/

variable {e : Event κ ν} {k : κ} {v : ν}

theorem Step.keeps (h : Step m e m') (hk : m.get? k = some v) : m'.get? k = some v := by
  cases h with
  | looked => exact hk
  | served present => exact hk
  | opened absent =>
      rw [get?_touch]
      exact hk
  | loaded pending =>
      rename_i other w
      have hne : k ≠ other := by
        rintro rfl
        rw [get?_of_pending pending] at hk
        cases hk
      rw [get?_store, if_neg hne]
      exact hk
  | failed pending => exact hk

omit [Std.LawfulEqOrd κ] in
/-- A key that has a value is only looked at and served. -/
theorem Step.event_of_get? (h : Step m e m') (hk : m.get? k = some v) (hkey : e.key = k) :
    e = .served k v ∨ e = .looked k (some v) := by
  cases h with
  | looked =>
      obtain rfl := hkey
      exact .inr (congrArg _ hk)
  | served present =>
      obtain rfl := hkey
      cases present.symm.trans hk
      exact .inl rfl
  | opened absent =>
      obtain rfl := hkey
      cases absent.symm.trans hk
  | loaded pending =>
      obtain rfl := hkey
      cases (get?_of_pending pending).symm.trans hk
  | failed pending =>
      obtain rfl := hkey
      cases (get?_of_pending pending).symm.trans hk

/-- A value that a request is answered with is in the memo. -/
theorem Step.get?_of_answer (h : Step m e m') (hanswer : e.answer? = some (k, v)) :
    m'.get? k = some v := by
  cases h with
  | looked => cases hanswer
  | served present =>
      cases hanswer
      exact present
  | opened absent => cases hanswer
  | loaded pending =>
      cases hanswer
      rw [get?_store, if_pos rfl]
  | failed pending => cases hanswer

theorem Passes.keeps (h : Passes m future last) (hk : m.get? k = some v) :
    (∀ later ∈ future, later.memo.get? k = some v ∧
      (later.event.key = k → later.event = .served k v ∨ later.event = .looked k (some v))) ∧
    last.get? k = some v := by
  induction h with
  | stop => exact ⟨fun later hlater => absurd hlater List.not_mem_nil, hk⟩
  | step first onward ih =>
      have hnow := first.keeps hk
      obtain ⟨hlater, hlast⟩ := ih hnow
      exact ⟨List.forall_mem_cons.2 ⟨⟨hnow, first.event_of_get? hk⟩, hlater⟩, hlast⟩

/-- Values that requests were answered with stay. -/
theorem Passes.get?_of_answer (h : Passes m past last) {earlier : Moment κ ν}
    (hearlier : earlier ∈ past) (hanswer : earlier.event.answer? = some (k, v)) :
    last.get? k = some v := by
  obtain ⟨before, behind, rfl⟩ := List.append_of_mem hearlier
  obtain ⟨m', -, honward⟩ := h.of_append
  cases honward with
  | step first onward => exact (onward.keeps (first.get?_of_answer hanswer)).2

omit [Std.LawfulEqOrd κ] in
/-- A key that has a value is served without its loader. -/
theorem compute_of_get? (hk : m.get? k = some v) (load : Memo κ ν → Memo κ ν × Option ν) :
    m.compute k load = ({ m with hits := m.hits + 1 }, some v) := by
  rw [compute, hk]

/-! ## Counters -/

/-- What the entries and the counters of a memo have to do with what has happened. -/
structure Tallies (past : List (Moment κ ν)) (m : Memo κ ν) : Prop where
  entered : ∀ k, m.entries.contains k = true ↔ ∃ earlier ∈ past, earlier.event.asked? = some k
  valued : {k | (m.get? k).isSome}.encard = m.misses
  answered : m.hits + m.misses = past.countP (·.event.answer?.isSome)

omit [Std.TransOrd κ] [Std.LawfulEqOrd κ] in
theorem tallies_empty : Tallies [] (empty : Memo κ ν) := by
  refine ⟨fun k => ?_, ?_, rfl⟩
  · simp [empty, OrdMap.contains]
  · simp [empty, get?]

omit [Std.TransOrd κ] [Std.LawfulEqOrd κ] in
theorem contains_of_get? (hk : m.get? k = some v) : m.entries.contains k = true := by
  rw [OrdMap.contains]
  cases hfind : m.entries.find? k with
  | none =>
      rw [get?, hfind] at hk
      cases hk
  | some entry => rfl

/-- The entries after an event. -/
theorem Step.contains_iff (h : Step m e m') (k : κ) : m'.entries.contains k = true ↔
    m.entries.contains k = true ∨ e.asked? = some k := by
  cases h with
  | looked => simp [Event.asked?]
  | served present =>
      simp only [Event.asked?, Option.some.injEq]
      constructor
      · exact .inl
      · rintro (hold | rfl)
        · exact hold
        · exact contains_of_get? present
  | opened absent =>
      rename_i other
      rw [OrdMap.contains, find?_touch]
      by_cases heq : k = other
      · simp [heq, Event.asked?]
      · simp [heq, Ne.symm heq, Event.asked?, OrdMap.contains]
  | loaded pending =>
      rename_i other w
      simp only [Event.asked?, reduceCtorEq, or_false]
      by_cases heq : k = other
      · subst heq
        simp [OrdMap.contains, store, pending]
      · rw [OrdMap.contains, find?_store_of_ne heq, OrdMap.contains]
  | failed pending => simp [Event.asked?]

/-- Loading is what gives keys a value, and what counts as a miss. -/
theorem Step.valued (h : Step m e m') (hm : {k | (m.get? k).isSome}.encard = m.misses) :
    {k | (m'.get? k).isSome}.encard = m'.misses := by
  cases h with
  | looked => exact hm
  | served present => exact hm
  | opened absent =>
      simp only [get?_touch]
      exact hm
  | loaded pending =>
      rename_i other w
      have hinsert : {k | ((m.store other w).get? k).isSome} =
          insert other {k | (m.get? k).isSome} := by
        ext k
        rw [Set.mem_ofPred_eq, get?_store, Set.mem_insert_iff, Set.mem_ofPred_eq]
        by_cases heq : k = other <;> simp [heq]
      have hnew : other ∉ {k | (m.get? k).isSome} := by
        rw [Set.mem_ofPred_eq, get?_of_pending pending]
        simp
      rw [hinsert, Set.encard_insert_of_notMem hnew, hm]
      exact (Nat.cast_succ m.misses).symm
  | failed pending => exact hm

omit [Std.LawfulEqOrd κ] in
/-- A request that is answered counts as a hit or as a miss. -/
theorem Step.counters (h : Step m e m') :
    m'.hits + m'.misses = m.hits + m.misses + if e.answer?.isSome then 1 else 0 := by
  cases h with
  | looked => rfl
  | served present => exact Nat.add_right_comm m.hits 1 m.misses
  | opened absent => rfl
  | loaded pending => rfl
  | failed pending => rfl

theorem Tallies.step (h : Tallies past m) (hstep : Step m e m') : Tallies (past ++ [⟨e, m'⟩]) m' := by
  refine ⟨fun k => ?_, hstep.valued h.valued, ?_⟩
  · rw [hstep.contains_iff, h.entered]
    simp only [List.mem_append, List.mem_singleton, or_and_right, exists_or, exists_eq_left]
  · rw [hstep.counters, h.answered, List.countP_append, List.countP_singleton]

theorem Tallies.passes (h : Tallies past m) (hpasses : Passes m future last) :
    Tallies (past ++ future) last := by
  induction hpasses generalizing past with
  | stop =>
      rw [List.append_nil]
      exact h
  | step first onward ih =>
      have hnow := ih (h.step first)
      rw [List.append_assoc] at hnow
      exact hnow

/-! ## Every moment -/

/-- What holds at a moment, with what has happened and what will.

Misses are the keys with a value, and hits and misses the requests that were answered. There are
as many entries as keys asked for. A key that has a value keeps it: later it is only looked at and
served, and no loader of it can run. A request that is answered gives its key the answer. One
that fails leaves its key without value, and what was answered before as it was. -/
structure Accounted (past : List (Moment κ ν)) (now : Moment κ ν) (future : List (Moment κ ν)) :
    Prop where
  misses : {k | (now.memo.get? k).isSome}.encard = now.memo.misses
  answered : now.memo.hits + now.memo.misses = (past ++ [now]).countP (·.event.answer?.isSome)
  size : {k | ∃ earlier ∈ past ++ [now], earlier.event.asked? = some k}.encard = now.memo.size
  kept : ∀ k v, now.memo.get? k = some v → ∀ later ∈ future, later.memo.get? k = some v ∧
    (later.event.key = k → later.event = .served k v ∨ later.event = .looked k (some v))
  recalled : ∀ k v, now.memo.get? k = some v → ∀ load,
    now.memo.compute k load = ({ now.memo with hits := now.memo.hits + 1 }, some v)
  given : ∀ k v, now.event.answer? = some (k, v) → now.memo.get? k = some v
  failed : ∀ k, now.event = .failed k → now.memo.get? k = none ∧
    ∀ earlier ∈ past, ∀ j v, earlier.event.answer? = some (j, v) → now.memo.get? j = some v
  looked : ∀ k found, now.event = .looked k found → found = now.memo.get? k

theorem Passes.accounted {now : Moment κ ν} (h : Passes empty (past ++ now :: future) last) :
    Accounted past now future := by
  obtain ⟨m, hpast, honward⟩ := h.of_append
  cases honward with
  | step first onward =>
      have htallies := (tallies_empty.passes hpast).step first
      rw [List.nil_append] at htallies
      refine ⟨htallies.valued, htallies.answered, ?_, fun k v hk => (onward.keeps hk).1,
        fun k v hk load => compute_of_get? hk load, fun k v => first.get?_of_answer, ?_, ?_⟩
      · have hasked : {k | ∃ earlier ∈ past ++ [now], earlier.event.asked? = some k} =
            {k | now.memo.entries.contains k = true} := by
          ext k
          exact (htallies.entered k).symm
        rw [hasked, OrdMap.encard_keys]
        rfl
      · intro k hfailed
        rw [hfailed] at first
        refine ⟨?_, fun earlier hearlier j v hanswer =>
          first.keeps (hpast.get?_of_answer hearlier hanswer)⟩
        generalize now.memo = m' at first
        cases first with
        | failed pending => exact get?_of_pending pending
      · intro k found hlooked
        rw [hlooked] at first
        generalize now.memo = m' at first
        cases first with
        | looked => rfl

end Memo

open Memo in
/-- Whatever requests are made of a memo, with loaders that make requests of their own but ask
for no key while a loader of it runs, everything is accounted for at every moment, also while
loaders run and after they fail. The last moment leaves the memo that the requests do. -/
theorem memos_are_written_once {κ ν : Type} [Ord κ] [Std.TransOrd κ] [Std.LawfulEqOrd κ]
    [DecidableEq κ] (requests : List (Request κ ν))
    (apart : (Memo.empty : Memo κ ν).avoids requests = true) :
    (∀ past now future, Memo.empty.history requests = past ++ now :: future →
      Accounted past now future) ∧
    ((Memo.empty.history requests).getLast?.map Moment.memo).getD Memo.empty =
      Memo.empty.after requests := by
  have hpasses := passes_history apart
  refine ⟨fun past now future hsplit => ?_, ?_⟩
  · rw [hsplit] at hpasses
    exact hpasses.accounted
  · exact hpasses.memo_getLast?

namespace Sample

open Memo

/-- A loader that fails after it has asked for another key, and what it takes to try again. -/
def retries : List (Request Nat Nat) :=
  [.compute 1 (.ask 2 (.done 20) fun v => .ask 3 .fail fun _ => .done v), .look 1,
    .compute 1 (.ask 2 .fail fun v => .done (v + 1)), .compute 1 .fail, .look 1]

theorem retries_written_once :
    (Memo.empty : Memo Nat Nat).avoids retries = true ∧
    (Memo.empty.after retries).get? 1 = some 21 ∧
    ∃ past now future, Memo.empty.history retries = past ++ now :: future ∧
      now.event = .failed 1 ∧ now.memo.get? 1 = none ∧ now.memo.get? 2 = some 20 ∧
      {k | (now.memo.get? k).isSome}.encard = 1 ∧
      (∀ later ∈ future, later.event.key = 2 →
        later.event = .served 2 20 ∨ later.event = .looked 2 (some 20)) := by
  have hapart : (Memo.empty : Memo Nat Nat).avoids retries = true := by decide
  obtain ⟨haccounted, hlast⟩ := memos_are_written_once retries hapart
  have hlength : 5 < (Memo.empty.history retries).length := by decide
  have hsplit : Memo.empty.history retries = (Memo.empty.history retries).take 5 ++
      (Memo.empty.history retries)[5] :: (Memo.empty.history retries).drop 6 := by
    rw [← List.drop_eq_getElem_cons hlength, List.take_append_drop]
  have hnow := haccounted _ _ _ hsplit
  have hvalue : (Memo.empty.history retries)[5].memo.get? 2 = some 20 := rfl
  exact ⟨hapart, hlast ▸ rfl, _, _, _, hsplit, rfl, (hnow.failed 1 rfl).1, hvalue, hnow.misses,
    fun later hlater => (hnow.kept 2 20 hvalue later hlater).2⟩

end Sample

end TaintReplay
