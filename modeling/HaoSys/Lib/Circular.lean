import Mathlib.Logic.Function.Basic

/-!
# Ring buffers

A ring of `n + 1` places with a head and a tail holds at most `n` values, and is empty
where the two meet. `ringList` is what it holds, the oldest first; a value is stored
at the tail and taken from the head, whichever way the places wrap.
-/

namespace HaoSys.Lib

def ringLength {n : Nat} (head tail : Fin (n + 1)) : Nat :=
  if head.val ≤ tail.val then tail.val - head.val else tail.val + (n + 1) - head.val

def ringList {α : Type} {n : Nat} (buf : Fin (n + 1) → α) (head tail : Fin (n + 1)) : List α :=
  (List.range (ringLength head tail)).map fun i => buf (Fin.ofNat (n + 1) (head.val + i))

section

variable {α : Type} {n : Nat} {buf : Fin (n + 1) → α} {head tail next : Fin (n + 1)} {x : α}

theorem length_ringList : (ringList buf head tail).length = ringLength head tail := by
  rw [ringList, List.length_map, List.length_range]

theorem ringLength_le : ringLength head tail ≤ n := by
  have := head.isLt
  have := tail.isLt
  unfold ringLength
  split <;> omega

theorem ringLength_eq_zero : ringLength head tail = 0 ↔ head = tail := by
  have := head.isLt
  rw [ringLength, Fin.ext_iff]
  split <;> omega

/-- The successor of a place, whether it wraps or not. -/
theorem next_cases (h : next.val = (tail.val + 1) % (n + 1)) :
    next.val = tail.val + 1 ∨ tail.val = n ∧ next.val = 0 := by
  by_cases hn : tail.val = n
  · rw [hn, Nat.mod_self] at h
    exact .inr ⟨hn, h⟩
  · rw [Nat.mod_eq_of_lt (by omega)] at h
    exact .inl h

/-- The ring is full where the tail would meet the head. -/
theorem ringLength_full (h : next.val = (tail.val + 1) % (n + 1)) :
    next = head ↔ ringLength head tail = n := by
  have := next_cases h
  rw [ringLength, Fin.ext_iff]
  split <;> omega

theorem ringLength_push (h : next.val = (tail.val + 1) % (n + 1)) (hroom : next ≠ head) :
    ringLength head next = ringLength head tail + 1 := by
  have := next_cases h
  have : next.val ≠ head.val := fun e => hroom (Fin.ext e)
  unfold ringLength
  split <;> split <;> omega

theorem ringLength_pop (h : next.val = (head.val + 1) % (n + 1)) (hne : head ≠ tail) :
    ringLength head tail = ringLength next tail + 1 := by
  have := next_cases h
  have : head.val ≠ tail.val := fun e => hne (Fin.ext e)
  unfold ringLength
  split <;> split <;> omega

/-- The place behind the newest value is the tail. -/
theorem place_length : Fin.ofNat (n + 1) (head.val + ringLength head tail) = tail := by
  have := head.isLt
  refine Fin.ext ?_
  change (head.val + ringLength head tail) % (n + 1) = tail.val
  unfold ringLength
  split
  · rw [Nat.mod_eq_of_lt] <;> omega
  · rw [show head.val + (tail.val + (n + 1) - head.val) = tail.val + (n + 1) by omega,
      Nat.add_mod_right, Nat.mod_eq_of_lt tail.isLt]

/-- The places of the values are not the tail. -/
theorem place_ne {i : Nat} (hi : i < ringLength head tail) :
    Fin.ofNat (n + 1) (head.val + i) ≠ tail := by
  intro e
  have hval : (head.val + i) % (n + 1) = tail.val := congrArg Fin.val e
  have := head.isLt
  have hle : i < n := Nat.lt_of_lt_of_le hi ringLength_le
  unfold ringLength at hi
  by_cases hlt : head.val + i < n + 1
  · rw [Nat.mod_eq_of_lt hlt] at hval
    split at hi <;> omega
  · rw [Nat.mod_eq_sub_mod (by omega), Nat.mod_eq_of_lt (by omega)] at hval
    split at hi <;> omega

/-- A value stored at the tail is the newest one. -/
theorem ringList_push (h : next.val = (tail.val + 1) % (n + 1)) (hroom : next ≠ head) :
    ringList (Function.update buf tail x) head next = ringList buf head tail ++ [x] := by
  unfold ringList
  rw [ringLength_push h hroom, List.range_succ, List.map_append, List.map_singleton, place_length,
    Function.update_self]
  refine congrArg (· ++ [x]) (List.map_congr_left fun i hi => ?_)
  exact Function.update_of_ne (place_ne (List.mem_range.1 hi)) ..

/-- The value at the head is the oldest one. -/
theorem ringList_pop (h : next.val = (head.val + 1) % (n + 1)) (hne : head ≠ tail) :
    ringList buf head tail = buf head :: ringList buf next tail := by
  unfold ringList
  rw [ringLength_pop h hne, List.range_succ_eq_map, List.map_cons, List.map_map]
  have hplace : ∀ i, Fin.ofNat (n + 1) (head.val + (i + 1)) = Fin.ofNat (n + 1) (next.val + i) := by
    intro i
    refine Fin.ext ?_
    change (head.val + (i + 1)) % (n + 1) = (next.val + i) % (n + 1)
    rw [h, Nat.mod_add_mod]
    congr 1
    omega
  refine congrArg₂ _ (congrArg buf (Fin.ext ?_)) (List.map_congr_left fun i _ => ?_)
  · exact Nat.mod_eq_of_lt head.isLt
  · exact congrArg buf (hplace i)

end

end HaoSys.Lib
