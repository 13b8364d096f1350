/-
WireRecord.Proofs.PairedRuns — two runs side by side.

To compare what a program does with two inputs, its two runs are followed
together. They are `Alike` as far as results go if both are refused for the same
reason or both yield, and then related values. `InStep` says this of two steps
from any related states, and that the states they leave are related again,
refused or not.

There is one lemma for each way to build a step. Two programs of the same build
are in step when their parts are, so no run is ever taken apart.
-/
import Mathlib.Data.List.Forall2
import WireRecord.Proofs.Runs

namespace WireRecord

section Paired

variable {ε σ τ α β γ δ : Type}

/-- Both results are the same refusal, or both are values and related. -/
inductive Alike (R : α → β → Prop) : Except ε α → Except ε β → Prop where
  | error (e : ε) : Alike R (.error e) (.error e)
  | ok {a : α} {b : β} (h : R a b) : Alike R (.ok a) (.ok b)

theorem Alike.mono {R Q : α → β → Prop} {x : Except ε α} {y : Except ε β} (h : Alike R x y)
    (hle : ∀ a b, R a b → Q a b) : Alike Q x y := by
  cases h with
  | error e => exact .error e
  | ok h => exact .ok (hle _ _ h)

/-- From related states both steps are refused alike or yield related values, and
they leave related states. -/
def InStep (S : σ → τ → Prop) (R : α → β → Prop) (x : ExceptT ε (StateM σ) α)
    (y : ExceptT ε (StateM τ) β) : Prop :=
  ∀ s t, S s t →
    Alike R (x.run.run s).1 (y.run.run t).1 ∧ S (x.run.run s).2 (y.run.run t).2

namespace InStep

variable {S : σ → τ → Prop} {R : α → β → Prop} {Q : γ → δ → Prop}

theorem pure {a : α} {b : β} (h : R a b) :
    InStep (ε := ε) S R (Pure.pure a) (Pure.pure b) :=
  fun _ _ hs => ⟨.ok h, hs⟩

theorem throw (e : ε) : InStep S R (throw e : ExceptT ε (StateM σ) α)
    (throw e : ExceptT ε (StateM τ) β) :=
  fun _ _ hs => ⟨.error e, hs⟩

theorem get : InStep (ε := ε) S S get get :=
  fun _ _ hs => ⟨.ok hs, hs⟩

theorem modify {f : σ → σ} {g : τ → τ} (h : ∀ s t, S s t → S (f s) (g t)) :
    InStep (ε := ε) S (fun _ _ => True) (modify f) (modify g) :=
  fun s t hs => ⟨.ok trivial, h s t hs⟩

/-- Sequences are in step when their first steps are and, on related values, what
follows is. -/
theorem bind {x : ExceptT ε (StateM σ) α} {y : ExceptT ε (StateM τ) β}
    {f : α → ExceptT ε (StateM σ) γ} {g : β → ExceptT ε (StateM τ) δ} (hx : InStep S R x y)
    (hf : ∀ a b, R a b → InStep S Q (f a) (g b)) : InStep S Q (x >>= f) (y >>= g) := by
  intro s t hs
  have h := hx s t hs
  rw [run_run_bind, run_run_bind]
  generalize x.run.run s = p, y.run.run t = q at h ⊢
  obtain ⟨ra, s'⟩ := p
  obtain ⟨rb, t'⟩ := q
  obtain ⟨halike, hstate⟩ := h
  cases halike with
  | error e => exact ⟨.error e, hstate⟩
  | ok hab => exact hf _ _ hab s' t' hstate

theorem throw_bind {α' β' : Type} (e : ε) {f : α' → ExceptT ε (StateM σ) α}
    {g : β' → ExceptT ε (StateM τ) β} : InStep S R (MonadExcept.throw e >>= f)
      (MonadExcept.throw e >>= g) :=
  fun _ _ hs => ⟨.error e, hs⟩

/-- Two choices that depend on the same condition are in step when they are either
way. -/
theorem ite {c : Prop} [Decidable c] {x x' : ExceptT ε (StateM σ) α}
    {y y' : ExceptT ε (StateM τ) β} (hthen : c → InStep S R x y) (helse : ¬ c → InStep S R x' y') :
    InStep S R (if c then x else x') (if c then y else y') := by
  by_cases hc : c
  · rw [if_pos hc, if_pos hc]
    exact hthen hc
  · rw [if_neg hc, if_neg hc]
    exact helse hc

/-- A remark made on the way changes nothing. -/
theorem remark {c : Prop} [Decidable c] {n : ExceptT ε (StateM σ) PUnit}
    {n' : ExceptT ε (StateM τ) PUnit} {x : ExceptT ε (StateM σ) α} {y : ExceptT ε (StateM τ) β}
    (hn : InStep S (fun _ _ => True) n n') (h : InStep S R x y) :
    InStep S R (if c then n >>= fun _ => x else x) (if c then n' >>= fun _ => y else y) :=
  ite (fun _ => hn.bind fun _ _ _ => h) fun _ => h

/-- Loops over the same list are in step when each round is. -/
theorem foldlM {ι : Type} {f : α → ι → ExceptT ε (StateM σ) α}
    {g : β → ι → ExceptT ε (StateM τ) β} (is : List ι)
    (h : ∀ i ∈ is, ∀ a b, R a b → InStep S R (f a i) (g b i)) {a : α} {b : β} (hab : R a b) :
    InStep S R (is.foldlM f a) (is.foldlM g b) := by
  induction is generalizing a b with
  | nil => exact pure hab
  | cons i rest ih =>
    obtain ⟨hfirst, hrest⟩ := List.forall_mem_cons.mp h
    rw [List.foldlM_cons, List.foldlM_cons]
    exact (hfirst a b hab).bind fun _ _ => ih hrest

/-- Loops over lists that are related item by item are in step when each round
is. -/
theorem forM {ι κ : Type} {T : ι → κ → Prop} {f : ι → ExceptT ε (StateM σ) PUnit}
    {g : κ → ExceptT ε (StateM τ) PUnit} {is : List ι} {ks : List κ}
    (hlist : List.Forall₂ T is ks)
    (h : ∀ i k, T i k → InStep S (fun _ _ => True) (f i) (g k)) :
    InStep S (fun _ _ => True) (is.forM f) (ks.forM g) := by
  induction hlist with
  | nil => exact pure trivial
  | cons hfirst _ ih => exact (h _ _ hfirst).bind fun _ _ _ => ih

end InStep

end Paired

end WireRecord
