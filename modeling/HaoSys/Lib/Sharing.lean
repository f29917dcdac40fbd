import Mathlib

/-!
# Tables shared by copying

A root `k` and a list of directories `ds`; `T d i` is the table directory `d`
holds in slot `i`. A new directory starts as a copy of the root, and later a
fresh table may be installed in an empty slot of any of them. So a table
stands in one slot only, and it is in two directories only when the root holds
it too (`Sharing`). A table the root does not hold is private
(`Sharing.private_of_ne`).
-/

namespace HaoSys.Lib

variable {α ι τ : Type*}

/-- Equal tables stand in equal slots, and in two directories only through the root. -/
def Sharing (T : α → ι → Option τ) (k : α) (ds : List α) : Prop :=
  ∀ d ∈ k :: ds, ∀ d' ∈ k :: ds, ∀ i i' t, T d i = some t → T d' i' = some t →
    i = i' ∧ (d = d' ∨ T k i = some t)

namespace Sharing

variable {T T' : α → ι → Option τ} {k d : α} {ds : List α} {i : ι} {t : τ}

theorem congr (h : Sharing T k ds) (hT : ∀ d ∈ k :: ds, ∀ i, T' d i = T d i) :
    Sharing T' k ds := by
  intro d hd d' hd' i i' t h1 h2
  rw [hT d hd] at h1
  rw [hT d' hd'] at h2
  rw [hT k List.mem_cons_self]
  exact h d hd d' hd' i i' t h1 h2

/-- A fresh table in an empty slot. -/
theorem install [DecidableEq α] [DecidableEq ι] (h : Sharing T k ds) (hempty : T d i = none)
    (hfresh : ∀ d ∈ k :: ds, ∀ i, T d i ≠ some t)
    (hT : ∀ d' ∈ k :: ds, ∀ i', T' d' i' = if d' = d ∧ i' = i then some t else T d' i') :
    Sharing T' k ds := by
  intro d₁ hd₁ d₂ hd₂ i₁ i₂ u h1 h2
  rw [hT d₁ hd₁] at h1
  rw [hT d₂ hd₂] at h2
  split at h1
  · next e1 =>
    cases h1
    split at h2
    · next e2 => exact ⟨e1.2.trans e2.2.symm, .inl (e1.1.trans e2.1.symm)⟩
    · exact absurd h2 (hfresh d₂ hd₂ i₂)
  · split at h2
    · cases h2
      exact absurd h1 (hfresh d₁ hd₁ i₁)
    · obtain ⟨hi, hk⟩ := h d₁ hd₁ d₂ hd₂ i₁ i₂ u h1 h2
      refine ⟨hi, hk.imp_right fun hk => ?_⟩
      rw [hT k List.mem_cons_self, if_neg, hk]
      rintro ⟨rfl, rfl⟩
      rw [hempty] at hk
      cases hk

/-- A new directory that copies the root. -/
theorem copy (h : Sharing T k ds) (hT : ∀ d ∈ k :: ds, ∀ i, T' d i = T d i)
    (hcopy : ∀ i, T' d i = T k i) : Sharing T' k (d :: ds) := by
  -- the copy's entries are entries of the root
  have hroot : ∀ d' ∈ k :: d :: ds, ∀ i t, T' d' i = some t →
      ∃ d₀ ∈ k :: ds, T d₀ i = some t ∧ (d₀ = d' ∨ d' = d ∧ d₀ = k) := by
    intro d' hd' i t ht
    rcases List.mem_cons.1 hd' with rfl | hd'
    · exact ⟨d', List.mem_cons_self, by rwa [hT d' List.mem_cons_self] at ht, .inl rfl⟩
    · rcases List.mem_cons.1 hd' with rfl | hd'
      · exact ⟨k, List.mem_cons_self, by rwa [hcopy] at ht, .inr ⟨rfl, rfl⟩⟩
      · have hd' := List.mem_cons_of_mem k hd'
        exact ⟨d', hd', by rwa [hT d' hd'] at ht, .inl rfl⟩
  intro d₁ hd₁ d₂ hd₂ i₁ i₂ u h1 h2
  obtain ⟨e₁, he₁, ht₁, hd₁⟩ := hroot d₁ hd₁ i₁ u h1
  obtain ⟨e₂, he₂, ht₂, hd₂⟩ := hroot d₂ hd₂ i₂ u h2
  obtain ⟨rfl, hk⟩ := h e₁ he₁ e₂ he₂ i₁ i₂ u ht₁ ht₂
  refine ⟨rfl, ?_⟩
  rw [hT k List.mem_cons_self]
  rcases hk with rfl | hk
  · rcases hd₁ with rfl | ⟨rfl, rfl⟩
    · rcases hd₂ with rfl | ⟨-, rfl⟩
      · exact .inl rfl
      · exact .inr ht₁
    · exact .inr ht₁
  · exact .inr hk

/-- A table the root does not hold stands in one directory. -/
theorem private_of_ne (h : Sharing T k ds) (hd : d ∈ k :: ds) (ht : T d i = some t)
    (hk : T k i ≠ some t) : ∀ d' ∈ k :: ds, d' ≠ d → ∀ i', T d' i' ≠ some t := by
  intro d' hd' hne i' ht'
  obtain ⟨rfl, rfl | hk'⟩ := h d hd d' hd' i i' t ht ht'
  · exact hne rfl
  · exact hk hk'

end Sharing

end HaoSys.Lib
