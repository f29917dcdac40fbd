import Mathlib

/-!
# Counting loops

`forUp lo hi body s` runs `body i` for `i = lo, …, hi - 1`, as
`for (i = lo; i < hi; i++)` does when neither bound changes. `forUp_inv` is
its invariant rule: an assertion indexed by the counter, true at `lo` and
carried by every turn, is true at the end.
-/

namespace HaoSys.Lib

variable {σ : Type*}

/-- `n` turns of the loop, from counter `i`. -/
def forTurns (body : Nat → σ → σ) : Nat → Nat → σ → σ
  | 0, _, s => s
  | n + 1, i, s => forTurns body n (i + 1) (body i s)

/-- `for (i = lo; i < hi; i++) body`. -/
def forUp (lo hi : Nat) (body : Nat → σ → σ) (s : σ) : σ := forTurns body (hi - lo) lo s

theorem forTurns_inv (body : Nat → σ → σ) (P : Nat → σ → Prop) :
    ∀ {n i : Nat} {s : σ}, P i s → (∀ j t, i ≤ j → j < i + n → P j t → P (j + 1) (body j t)) →
      P (i + n) (forTurns body n i s)
  | 0, _, _, h, _ => h
  | n + 1, i, s, h, hstep => by
    have := forTurns_inv body P (n := n) (hstep i s (Nat.le_refl _) (by omega) h)
      fun j t h1 h2 => hstep j t (by omega) (by omega)
    rwa [show i + 1 + n = i + (n + 1) by omega] at this

/-- The invariant rule of a counting loop. -/
theorem forUp_inv {body : Nat → σ → σ} (P : Nat → σ → Prop) {lo hi : Nat} {s : σ} (hle : lo ≤ hi)
    (h0 : P lo s) (hstep : ∀ i t, lo ≤ i → i < hi → P i t → P (i + 1) (body i t)) :
    P hi (forUp lo hi body s) := by
  have := forTurns_inv body P (n := hi - lo) h0
    fun j t h1 h2 => hstep j t h1 (by omega)
  rwa [show lo + (hi - lo) = hi by omega] at this

/-- An assertion every turn keeps survives the loop, whatever its bounds. -/
theorem forUp_keep {body : Nat → σ → σ} (P : σ → Prop) {lo hi : Nat} {s : σ} (h0 : P s)
    (hstep : ∀ i t, lo ≤ i → i < hi → P t → P (body i t)) : P (forUp lo hi body s) :=
  forTurns_inv body (fun _ => P) h0 fun j t h1 h2 => hstep j t h1 (by omega)

end HaoSys.Lib
