import Mathlib

/-!
# The best of a list

A scan that keeps the best element so far and replaces it by one with a
strictly greater score, as a fold over `keepBest`. Elements without a score
are passed over, and so are those with score 0.
-/

namespace HaoSys.Lib

variable {α : Type} {score : α → Option Nat}

/-- One step of the scan. -/
def keepBest (score : α → Option Nat) (best : Option (α × Nat)) (x : α) : Option (α × Nat) :=
  match score x with
  | none => best
  | some n => if n > (best.map Prod.snd).getD 0 then some (x, n) else best

/-- `best` is what the scan may hold after the elements `seen`. -/
structure IsBest (score : α → Option Nat) (seen : List α) (best : Option (α × Nat)) : Prop where
  attained : ∀ x n, best = some (x, n) → score x = some n ∧ 0 < n
  le : ∀ x ∈ seen, ∀ n, score x = some n → n ≤ (best.map Prod.snd).getD 0

theorem IsBest.step {seen : List α} {best : Option (α × Nat)} (h : IsBest score seen best) (x : α) :
    IsBest score (seen ++ [x]) (keepBest score best x) := by
  unfold keepBest
  cases hx : score x with
  | none =>
    refine ⟨h.attained, fun y hy n hn => ?_⟩
    rcases List.mem_append.1 hy with hy | hy
    · exact h.le y hy n hn
    · rw [List.mem_singleton.1 hy, hx] at hn
      cases hn
  | some k =>
    by_cases hk : k > (best.map Prod.snd).getD 0
    · simp only [if_pos hk]
      refine ⟨fun y n hy => ?_, fun y hy n hn => ?_⟩
      · cases hy
        exact ⟨hx, by omega⟩
      · rcases List.mem_append.1 hy with hy | hy
        · have := h.le y hy n hn
          simp
          omega
        · rw [List.mem_singleton.1 hy, hx] at hn
          cases hn
          simp
    · simp only [if_neg hk]
      refine ⟨h.attained, fun y hy n hn => ?_⟩
      rcases List.mem_append.1 hy with hy | hy
      · exact h.le y hy n hn
      · rw [List.mem_singleton.1 hy, hx] at hn
        cases hn
        omega

theorem IsBest.foldl {seen : List α} {best : Option (α × Nat)} (h : IsBest score seen best)
    (xs : List α) : IsBest score (seen ++ xs) (xs.foldl (keepBest score) best) := by
  induction xs generalizing seen best with
  | nil => simpa using h
  | cons x xs ih =>
    have := ih (h.step x)
    rwa [List.append_assoc] at this

/-- The scan from the beginning of the list. -/
theorem isBest_foldl (score : α → Option Nat) (xs : List α) :
    IsBest score xs (xs.foldl (keepBest score) none) := by
  have h : IsBest score [] none := ⟨by simp, by simp⟩
  simpa using h.foldl xs

end HaoSys.Lib
