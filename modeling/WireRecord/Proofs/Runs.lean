/-
WireRecord.Proofs.Runs — runs of steps that may be refused.

Placing, expanding and transferring are all written in one kind of monad: a step
changes a state and yields a value or is refused. `Ends x s a t` says that `x`,
started in `s`, is not refused, yields `a` and leaves `t`. One equation for each
way to build a step takes a run apart, and the same equation puts it together
again. Where the states say nothing, `Yields x a` leaves them out.
-/
import Mathlib.Tactic.Common

namespace WireRecord

section Ends

variable {ε σ α β : Type}

/-- A sequence goes on from where its first step left off, unless that was
refused. -/
theorem run_run_bind (x : ExceptT ε (StateM σ) α) (f : α → ExceptT ε (StateM σ) β) (s : σ) :
    (x >>= f).run.run s = match x.run.run s with
      | (.ok a, u) => (f a).run.run u
      | (.error e, u) => (.error e, u) := by
  rw [ExceptT.run_bind, StateT.run_bind]
  rcases x.run.run s with ⟨e | a, u⟩
  · rfl
  · rfl

theorem run_run_get (s : σ) : (get : ExceptT ε (StateM σ) σ).run.run s = (.ok s, s) := rfl

/-- What was computed without a state is a value to go on with. -/
theorem liftM_ok (a : α) :
    (liftM (.ok a : Except ε α) : ExceptT ε (StateM σ) α) = pure a := rfl

/-- The step `x`, started in `s`, yields `a` and leaves `t`. -/
def Ends (x : ExceptT ε (StateM σ) α) (s : σ) (a : α) (t : σ) : Prop :=
  x.run.run s = (.ok a, t)

namespace Ends

theorem pure_iff {a b : α} {s t : σ} :
    Ends (pure a : ExceptT ε (StateM σ) α) s b t ↔ b = a ∧ t = s := by
  constructor
  · intro h
    cases h
    exact ⟨rfl, rfl⟩
  · rintro ⟨rfl, rfl⟩
    rfl

theorem not_throw {e : ε} {s t : σ} {a : α} :
    ¬ Ends (throw e : ExceptT ε (StateM σ) α) s a t := fun h => by
  cases h

theorem get_iff {a s t : σ} :
    Ends (get : ExceptT ε (StateM σ) σ) s a t ↔ a = s ∧ t = s := by
  constructor
  · intro h
    cases h
    exact ⟨rfl, rfl⟩
  · rintro ⟨rfl, rfl⟩
    rfl

theorem modify_iff {f : σ → σ} {s t : σ} {a : PUnit} :
    Ends (modify f : ExceptT ε (StateM σ) PUnit) s a t ↔ t = f s := by
  constructor
  · intro h
    cases h
    rfl
  · rintro rfl
    rfl

theorem set_iff {s s' t : σ} {a : PUnit} :
    Ends (set s' : ExceptT ε (StateM σ) PUnit) s a t ↔ t = s' := by
  constructor
  · intro h
    cases h
    rfl
  · rintro rfl
    rfl

/-- A sequence ends when its first step does and the rest ends from there. -/
theorem bind_iff {x : ExceptT ε (StateM σ) α} {f : α → ExceptT ε (StateM σ) β} {s t : σ}
    {b : β} : Ends (x >>= f) s b t ↔ ∃ a u, Ends x s a u ∧ Ends (f a) u b t := by
  unfold Ends
  rw [run_run_bind]
  constructor
  · intro h
    rcases hx : x.run.run s with ⟨e | a, u⟩
    · rw [hx] at h
      cases h
    · rw [hx] at h
      exact ⟨a, u, rfl, h⟩
  · rintro ⟨a, u, hx, hf⟩
    rw [hx]
    exact hf

theorem liftM_iff {e : Except ε α} {s t : σ} {a : α} :
    Ends (liftM e : ExceptT ε (StateM σ) α) s a t ↔ e = .ok a ∧ t = s := by
  cases e with
  | error e =>
    constructor
    · intro h
      cases h
    · rintro ⟨h, -⟩
      cases h
  | ok b => rw [liftM_ok, pure_iff, Except.ok.injEq, eq_comm]

/-- Nothing comes behind a refusal. -/
theorem not_throw_bind {e : ε} {f : α → ExceptT ε (StateM σ) β} {s t : σ} {b : β} :
    ¬ Ends (throw e >>= f) s b t := fun h => by
  obtain ⟨_, _, hthrow, -⟩ := bind_iff.mp h
  exact not_throw hthrow

end Ends

/-- The step `x`, started somewhere, yields `a`. -/
def Yields (x : ExceptT ε (StateM σ) α) (a : α) : Prop := ∃ s t, Ends x s a t

namespace Yields

theorem of_pure {a b : α} (h : Yields (pure a : ExceptT ε (StateM σ) α) b) : b = a := by
  obtain ⟨s, t, h⟩ := h
  exact (Ends.pure_iff.mp h).1

theorem not_throw {e : ε} {a : α} : ¬ Yields (throw e : ExceptT ε (StateM σ) α) a := fun h => by
  obtain ⟨s, t, h⟩ := h
  exact Ends.not_throw h

theorem of_bind {x : ExceptT ε (StateM σ) α} {f : α → ExceptT ε (StateM σ) β} {b : β}
    (h : Yields (x >>= f) b) : ∃ a, Yields x a ∧ Yields (f a) b := by
  obtain ⟨s, t, h⟩ := h
  obtain ⟨a, u, hx, hf⟩ := Ends.bind_iff.mp h
  exact ⟨a, ⟨s, u, hx⟩, ⟨u, t, hf⟩⟩

theorem not_throw_bind {e : ε} {f : α → ExceptT ε (StateM σ) β} {b : β} :
    ¬ Yields (throw e >>= f) b := fun h => by
  obtain ⟨s, t, h⟩ := h
  exact Ends.not_throw_bind h

/-- A remark made on the way has no part in what is yielded. -/
theorem of_remark {c : Prop} [Decidable c] {x : ExceptT ε (StateM σ) PUnit}
    {y : ExceptT ε (StateM σ) α} {a : α} (h : Yields (if c then x >>= fun _ => y else y) a) :
    Yields y a := by
  by_cases hc : c
  · rw [if_pos hc] at h
    obtain ⟨_, -, hy⟩ := of_bind h
    exact hy
  · rw [if_neg hc] at h
    exact h

/-- A step that yields a value computed from that of another one. -/
theorem of_map {x : ExceptT ε (StateM σ) α} {f : α → β} {b : β}
    (h : Yields (x >>= fun a => pure (f a)) b) : ∃ a, Yields x a ∧ b = f a := by
  obtain ⟨a, hx, hf⟩ := of_bind h
  exact ⟨a, hx, of_pure hf⟩

end Yields

end Ends

end WireRecord
