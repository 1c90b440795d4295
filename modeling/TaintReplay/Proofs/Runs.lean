import Mathlib.Data.List.Forall2
import TaintReplay.Engine.Session

/-!
# Reasoning about runs

A program of the engine maps a session to an outcome and a session. `Run.exec`
gives the two, and one equation for each way of building a program says what it
is.

Facts about programs are stated as `Law.Runs`: from a session, the program
leaves a session that it can get to by permitted steps; it fails only with
permitted errors, and its value, if it ends in one, has a postcondition. Changes
made before a failure stay, so what is said about steps is said of failing runs
too. Which steps and errors are permitted is given by a `Law`. `Law.Meets` says
this of all sessions with a precondition, which is carried along a program if
the law keeps it, whatever happens in between.

## Main results

* `Run.exec_bind`, `Run.exec_tryCatch`: the outcome of a program by those of its parts.
* `Law.Meets.bind`, `Law.Meets.get_bind`, `Law.Meets.mapM`, `Law.Meets.tryCatch`: what a program
  meets follows from what its parts meet.
-/

namespace TaintReplay

variable {σ α β : Type}

/-! ## Lists related one by one -/

theorem exists_right_of_forall₂ {R : α → β → Prop} {xs : List α} {ys : List β}
    (h : List.Forall₂ R xs ys) {x : α} (hx : x ∈ xs) : ∃ y ∈ ys, R x y := by
  induction h with
  | nil => exact absurd hx List.not_mem_nil
  | cons hr _ ih =>
      rcases List.mem_cons.1 hx with rfl | hx
      · exact ⟨_, List.mem_cons_self, hr⟩
      · obtain ⟨y, hy, hr⟩ := ih hx
        exact ⟨y, List.mem_cons_of_mem _ hy, hr⟩

theorem exists_left_of_forall₂ {R : α → β → Prop} {xs : List α} {ys : List β}
    (h : List.Forall₂ R xs ys) {y : β} (hy : y ∈ ys) : ∃ x ∈ xs, R x y :=
  exists_right_of_forall₂ h.flip hy

/-! ## Outcomes -/

theorem eq_ok_of_toOption {ε : Type} {x : Except ε α} {a : α} (h : x.toOption = some a) :
    x = .ok a := by
  cases x with
  | error e => cases h
  | ok b =>
      cases h
      rfl

namespace Run

/-- The outcome of a program and the session it leaves. -/
def exec (x : Run σ α) (s : Session σ) : Except Failure α × Session σ := (ExceptT.run x).run s

@[simp]
theorem exec_pure (a : α) (s : Session σ) : exec (pure a) s = (.ok a, s) := rfl

theorem exec_bind (x : Run σ α) (f : α → Run σ β) (s : Session σ) :
    exec (x >>= f) s =
      match exec x s with
      | (.ok a, t) => exec (f a) t
      | (.error e, t) => (.error e, t) := by
  simp only [exec, ExceptT.run_bind, StateT.run_bind]
  cases (ExceptT.run x).run s with
  | mk r t => cases r <;> rfl

theorem exec_tryCatch (x : Run σ α) (handler : Failure → Run σ α) (s : Session σ) :
    exec (tryCatch x handler) s =
      match exec x s with
      | (.ok a, t) => (.ok a, t)
      | (.error e, t) => exec (handler e) t := by
  simp only [exec, tryCatch, tryCatchThe, MonadExceptOf.tryCatch, ExceptT.tryCatch, ExceptT.mk,
    ExceptT.run, StateT.run_bind]
  cases StateT.run x s with
  | mk r t => cases r <;> rfl

theorem exec_map (f : α → β) (x : Run σ α) (s : Session σ) :
    exec (f <$> x) s = ((exec x s).1.map f, (exec x s).2) := by
  rw [map_eq_pure_bind, exec_bind]
  match exec x s with
  | (.ok a, t) => rfl
  | (.error e, t) => rfl

theorem exec_map_eq_error_iff {f : α → β} {x : Run σ α} {s t : Session σ} {failure : Failure} :
    exec (f <$> x) s = (.error failure, t) ↔ exec x s = (.error failure, t) := by
  rw [exec_map]
  match exec x s with
  | (.ok a, u) => simp [Except.map]
  | (.error e, u) => simp [Except.map]

@[simp]
theorem exec_get_bind (f : Session σ → Run σ β) (s : Session σ) :
    exec (get >>= f) s = exec (f s) s := exec_bind get f s

theorem exec_of_value {x : Run σ α} {s : Session σ} {a : α}
    (h : (x.exec s).1.toOption = some a) : x.exec s = (.ok a, (x.exec s).2) :=
  Prod.ext (eq_ok_of_toOption h) rfl

end Run

open Run

/-! ## Laws -/

/-- What programs may do: the steps from session to session and the errors they
may fail with. -/
structure Law (σ : Type) where
  /-- Steps that may be taken, in any number. -/
  step : Session σ → Session σ → Prop
  errors : AnalysisError → Prop
  refl : ∀ s, step s s
  trans : ∀ {s t u}, step s t → step t u → step s u

/-- What an outcome satisfies: its value the one property, its error the other.
Running out of fuel says nothing. -/
def Satisfies (errors : AnalysisError → Prop) (post : α → Prop) : Except Failure α → Prop
  | .ok a => post a
  | .error (.error e) => errors e
  | .error .outOfFuel => True

namespace Law

/-- Permitted steps keep a property of sessions. -/
def Stable (law : Law σ) (P : Session σ → Prop) : Prop := ∀ ⦃s t⦄, P s → law.step s t → P t

/-- From a session, the program takes permitted steps and ends in a permitted error
or in a value with `Q`. -/
def Runs (law : Law σ) (s : Session σ) (x : Run σ α) (Q : α → Session σ → Prop) : Prop :=
  law.step s (exec x s).2 ∧ Satisfies law.errors (fun a => Q a (exec x s).2) (exec x s).1

/-- From sessions with `P`, the program takes permitted steps and ends in a
permitted error or in a value with `Q`. -/
def Meets (law : Law σ) (P : Session σ → Prop) (x : Run σ α) (Q : α → Session σ → Prop) : Prop :=
  ∀ s, P s → law.Runs s x Q

variable {law : Law σ} {P P' : Session σ → Prop} {Q Q' : α → Session σ → Prop}

theorem Stable.true : law.Stable fun _ => True := fun _ _ _ _ => trivial

theorem Stable.and (hP : law.Stable P) (hP' : law.Stable P') : law.Stable fun s => P s ∧ P' s :=
  fun _ _ h hst => ⟨hP h.1 hst, hP' h.2 hst⟩

/-- Having come from a session is kept. -/
theorem Stable.since (s : Session σ) : law.Stable (law.step s) :=
  fun _ _ h hst => law.trans h hst

theorem Stable.all {ι : Sort _} {p : ι → Session σ → Prop} (h : ∀ i, law.Stable (p i)) :
    law.Stable fun s => ∀ i, p i s :=
  fun _ _ hs hst i => h i (hs i) hst

/-! ## Runs from one session -/

namespace Runs

variable {s : Session σ}

/-- What a run that ends in a value satisfies. -/
theorem of_ok {x : Run σ α} (h : law.Runs s x Q) {t : Session σ} {a : α}
    (hrun : exec x s = (.ok a, t)) : law.step s t ∧ Q a t := by
  rw [Runs, hrun] at h
  exact h

/-- A value is judged by the run it comes from. -/
theorem weaken {x : Run σ α} (h : law.Runs s x Q)
    (hQ : ∀ a t, exec x s = (.ok a, t) → law.step s t → Q a t → Q' a t) : law.Runs s x Q' := by
  obtain ⟨hstep, hout⟩ := h
  refine ⟨hstep, ?_⟩
  match hrun : exec x s with
  | (.ok a, t) =>
      rw [hrun] at hstep hout
      exact hQ a t hrun hstep hout
  | (.error (.error e), t) =>
      rw [hrun] at hout
      exact hout
  | (.error .outOfFuel, t) => trivial

/-- The second of two programs runs from where the first has ended. -/
protected theorem bind {x : Run σ β} {f : β → Run σ α} {Q' : β → Session σ → Prop}
    (hx : law.Runs s x Q')
    (hf : ∀ b t, exec x s = (.ok b, t) → law.step s t → Q' b t → law.Runs t (f b) Q) :
    law.Runs s (x >>= f) Q := by
  obtain ⟨hstep, hout⟩ := hx
  rw [Runs, exec_bind]
  match hrun : exec x s with
  | (.ok b, t) =>
      rw [hrun] at hstep hout
      obtain ⟨hrest, hout⟩ := hf b t hrun hstep hout
      exact ⟨law.trans hstep hrest, hout⟩
  | (.error e, t) =>
      rw [hrun] at hstep hout
      refine ⟨hstep, ?_⟩
      cases e with
      | error e => exact hout
      | outOfFuel => trivial

/-- A program that looks at the session goes on with it. -/
theorem get_bind {f : Session σ → Run σ α} (h : law.Runs s (f s) Q) :
    law.Runs s (get >>= f) Q := by
  rw [Runs, exec_get_bind]
  exact h

end Runs

/-! ## Programs from all sessions with a property -/

namespace Meets

/-- What a run that ends in a value satisfies. -/
theorem of_ok {x : Run σ α} (h : law.Meets P x Q) {s t : Session σ} {a : α} (hs : P s)
    (hrun : exec x s = (.ok a, t)) : law.step s t ∧ Q a t :=
  (h s hs).of_ok hrun

theorem mono {x : Run σ α} (h : law.Meets P x Q) (hP : ∀ s, P' s → P s)
    (hQ : ∀ a t, Q a t → Q' a t) : law.Meets P' x Q' :=
  fun s hs => (h s (hP s hs)).weaken fun a t _ _ => hQ a t

theorem weaken {x : Run σ α} (h : law.Meets P x Q) (hQ : ∀ a t, Q a t → Q' a t) :
    law.Meets P x Q' :=
  h.mono (fun _ => id) hQ

theorem strengthen {x : Run σ α} (h : law.Meets P x Q) (hP : ∀ s, P' s → P s) :
    law.Meets P' x Q :=
  h.mono hP fun _ _ => id

/-- What a precondition says beside the session may be assumed. -/
theorem assume {x : Run σ α} {fact : Prop} (h : fact → law.Meets P x Q) :
    law.Meets (fun s => P s ∧ fact) x Q :=
  fun s hs => h hs.2 s hs.1

/-- What was known at the start can be used in judging the value. -/
theorem keep {x : Run σ α} (h : law.Meets P x Q) (hP : law.Stable P) :
    law.Meets P x fun a t => P t ∧ Q a t :=
  fun s hs => (h s hs).weaken fun _ _ _ hstep hQ => ⟨hP hs hstep, hQ⟩

protected theorem pure {a : α} (h : ∀ s, P s → Q a s) : law.Meets P (pure a) Q :=
  fun s hs => ⟨law.refl s, h s hs⟩

protected theorem fail {e : AnalysisError} (h : ∀ s, P s → law.errors e) :
    law.Meets P (fail e) Q :=
  fun s hs => ⟨law.refl s, h s hs⟩

theorem outOfFuel : law.Meets P (throw .outOfFuel) Q := fun s _ => ⟨law.refl s, trivial⟩

protected theorem modify {g : Session σ → Session σ} {Q : Unit → Session σ → Prop}
    (h : ∀ s, P s → law.step s (g s) ∧ Q () (g s)) : law.Meets P (modify g) Q :=
  fun s hs => h s hs

protected theorem bind {x : Run σ β} {f : β → Run σ α} {Q' : β → Session σ → Prop}
    (hP : law.Stable P) (hx : law.Meets P x Q')
    (hf : ∀ b, law.Meets (fun t => P t ∧ Q' b t) (f b) Q) : law.Meets P (x >>= f) Q :=
  fun s hs => (hx s hs).bind fun b t _ hstep hQ => hf b t ⟨hP hs hstep, hQ⟩

/-- One program after another whose value does not matter. -/
theorem andThen {x : Run σ β} {f : β → Run σ α} {Q' : β → Session σ → Prop} (hP : law.Stable P)
    (hx : law.Meets P x Q') (hf : ∀ b, law.Meets P (f b) Q) : law.Meets P (x >>= f) Q :=
  Meets.bind hP hx fun b => (hf b).strengthen fun _ h => h.1

/-- A program that looks at the session goes on from there. -/
theorem get_bind {f : Session σ → Run σ α}
    (hf : ∀ s, P s → law.Meets (fun t => P t ∧ law.step s t) (f s) Q) :
    law.Meets P (get >>= f) Q :=
  fun s hs => Runs.get_bind (hf s hs s ⟨hs, law.refl s⟩)

protected theorem map {f : β → α} {x : Run σ β} (h : law.Meets P x fun b => Q (f b)) :
    law.Meets P (f <$> x) Q := by
  intro s hs
  rw [map_eq_pure_bind]
  exact (h s hs).bind fun b t _ _ hQ => ⟨law.refl t, hQ⟩

/-- A program that recovers from failures: an error need not be permitted if the
recovery from it is. -/
protected theorem tryCatch {x : Run σ α} {handler : Failure → Run σ α} (hx : law.Meets P x Q)
    (hh : ∀ s f t, P s → exec x s = (.error f, t) → law.step s t →
      Satisfies law.errors (fun _ : Unit => False) (.error f) → law.Runs t (handler f) Q) :
    law.Meets P (tryCatch x handler) Q := by
  intro s hs
  obtain ⟨hstep, hout⟩ := hx s hs
  rw [Runs, exec_tryCatch]
  match hrun : exec x s with
  | (.ok a, t) =>
      rw [hrun] at hstep hout
      exact ⟨hstep, hout⟩
  | (.error f, t) =>
      rw [hrun] at hstep hout
      have hfail : Satisfies law.errors (fun _ : Unit => False) (.error f) := by
        cases f with
        | error e => exact hout
        | outOfFuel => trivial
      obtain ⟨hrest, hout⟩ := hh s f t hs hrun hstep hfail
      exact ⟨law.trans hstep hrest, hout⟩

/-- What each step of a loop achieves is achieved at the end, if later steps
keep it. -/
protected theorem forM {f : β → Run σ PUnit} {Q : β → Session σ → Prop} {xs : List β}
    (hP : law.Stable P) (hQ : ∀ x, law.Stable (Q x))
    (hf : ∀ x ∈ xs, law.Meets P (f x) fun _ => Q x) :
    law.Meets P (xs.forM f) fun _ t => ∀ x ∈ xs, Q x t := by
  induction xs with
  | nil => exact Meets.pure fun s _ x hx => absurd hx List.not_mem_nil
  | cons x xs ih =>
      have hrest := ih fun y hy => hf y (List.mem_cons_of_mem _ hy)
      refine Meets.bind hP (hf x List.mem_cons_self) fun _ => ?_
      have hkept : law.Meets (fun t => P t ∧ Q x t) (xs.forM f)
          fun _ t => (P t ∧ Q x t) ∧ ∀ y ∈ xs, Q y t :=
        (hrest.strengthen fun s h => h.1).keep (hP.and (hQ x))
      refine hkept.weaken fun _ t h y hy => ?_
      rcases List.mem_cons.1 hy with rfl | hy
      · exact h.1.2
      · exact h.2 y hy

/-- What each value of a loop satisfies it still satisfies at the end, if later
steps keep it. -/
protected theorem mapM {f : β → Run σ α} {Q : β → α → Session σ → Prop} {xs : List β}
    (hP : law.Stable P) (hQ : ∀ x y, law.Stable (Q x y))
    (hf : ∀ x ∈ xs, law.Meets P (f x) (Q x)) :
    law.Meets P (xs.mapM f) fun ys t => List.Forall₂ (fun x y => Q x y t) xs ys := by
  induction xs with
  | nil => exact Meets.pure fun s _ => .nil
  | cons x xs ih =>
      have hrest := ih fun y hy => hf y (List.mem_cons_of_mem _ hy)
      rw [List.mapM_cons]
      refine Meets.bind hP (hf x List.mem_cons_self) fun y => ?_
      have hstable := hP.and (hQ x y)
      refine Meets.bind hstable (hrest.strengthen fun s h => h.1) fun ys => ?_
      exact Meets.pure fun s h => .cons h.1.2 h.2

end Meets

end Law

end TaintReplay
