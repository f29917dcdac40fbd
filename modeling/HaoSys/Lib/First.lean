import Mathlib

/-!
# The first turn at which a loop stops

`First P k`: `P` holds of turn `k` and of no turn before it. A loop that stops
where `P` holds makes `k` turns, and `exists_first_lt_succ` takes its first
turn apart.
-/

namespace HaoSys.Lib

/-- `k` is the first number with `P`. -/
def First (P : Nat → Prop) (k : Nat) : Prop := P k ∧ ∀ j < k, ¬ P j

theorem First.exists {P : Nat → Prop} (h : ∃ k, P k) : ∃ k, First P k := by
  classical
  exact ⟨Nat.find h, Nat.find_spec h, fun j hj => Nat.find_min h hj⟩

theorem First.le {P : Nat → Prop} {k j : Nat} (h : First P k) (hj : P j) : k ≤ j := by
  by_contra hlt
  exact h.2 j (by omega) hj

theorem First.unique {P : Nat → Prop} {k j : Nat} (h : First P k) (h' : First P j) : k = j :=
  Nat.le_antisymm (h.le h'.1) (h'.le h.1)

/-- The loop stops at once, or in one of the turns that follow. -/
theorem exists_first_lt_succ {P Q : Nat → Prop} {n : Nat} [Decidable (P 0)] :
    (∃ k < n + 1, First P k ∧ Q k) ↔
      if P 0 then Q 0 else ∃ k < n, First (fun j => P (j + 1)) k ∧ Q (k + 1) := by
  by_cases h0 : P 0
  · rw [if_pos h0]
    constructor
    · rintro ⟨k, -, hk, hq⟩
      obtain rfl : k = 0 := Nat.le_zero.1 (hk.le h0)
      exact hq
    · exact fun hq => ⟨0, by omega, ⟨h0, nofun⟩, hq⟩
  · rw [if_neg h0]
    constructor
    · rintro ⟨k, hlt, hk, hq⟩
      cases k with
      | zero => exact absurd hk.1 h0
      | succ k => exact ⟨k, by omega, ⟨hk.1, fun j hj => hk.2 (j + 1) (by omega)⟩, hq⟩
    · rintro ⟨k, hlt, hk, hq⟩
      refine ⟨k + 1, by omega, ⟨hk.1, fun j hj => ?_⟩, hq⟩
      cases j with
      | zero => exact h0
      | succ j => exact hk.2 j (by omega)

end HaoSys.Lib
