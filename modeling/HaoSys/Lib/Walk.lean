import HaoSys.Lib.Follows

/-!
# Walks with a condition

`Walk next go a xs z`: from `a` on, the cells `xs` satisfy `go`, and the walk ends at the first
cell `z` that does not. `walk` computes it where the cells are numbers that grow below a limit.

A walk that stops earlier is a prefix: `Walk.until`. A walk whose numbers are cut off at a power of
two is the same one up to its end, and goes on from there if the end is cut off: `Walk.mod_iff`.
-/

namespace HaoSys.Lib

variable {α : Type*} {next : α → α} {go : α → Prop}

def Walk (next : α → α) (go : α → Prop) (a : α) (xs : List α) (z : α) : Prop :=
  Follows next a xs z ∧ (∀ x ∈ xs, go x) ∧ ¬ go z

theorem walk_nil {a z : α} : Walk next go a [] z ↔ a = z ∧ ¬ go z := by
  simp [Walk]

theorem walk_cons {a x z : α} {xs : List α} :
    Walk next go a (x :: xs) z ↔ a = x ∧ go x ∧ Walk next go (next x) xs z := by
  unfold Walk
  rw [follows_cons, List.forall_mem_cons]
  tauto

/-- A walk that cannot start. -/
theorem Walk.eq_nil {a z : α} {xs : List α} (h : Walk next go a xs z) (ha : ¬ go a) :
    xs = [] ∧ z = a := by
  cases xs with
  | nil => exact ⟨rfl, (walk_nil.mp h).1.symm⟩
  | cons x xs =>
    obtain ⟨rfl, hx, -⟩ := walk_cons.mp h
    exact absurd hx ha

/-- A walk that starts. -/
theorem Walk.eq_cons {a z : α} {xs : List α} (h : Walk next go a xs z) (ha : go a) :
    ∃ ys, xs = a :: ys ∧ Walk next go (next a) ys z := by
  cases xs with
  | nil =>
    obtain ⟨rfl, hz⟩ := walk_nil.mp h
    exact absurd ha hz
  | cons x xs =>
    obtain ⟨rfl, -, hrest⟩ := walk_cons.mp h
    exact ⟨xs, rfl, hrest⟩

theorem Walk.unique {a z z' : α} {xs ys : List α} (h : Walk next go a xs z)
    (h' : Walk next go a ys z') : xs = ys ∧ z = z' := by
  induction xs generalizing a ys with
  | nil =>
    obtain ⟨rfl, hz⟩ := walk_nil.mp h
    obtain ⟨rfl, rfl⟩ := h'.eq_nil hz
    exact ⟨rfl, rfl⟩
  | cons x xs ih =>
    obtain ⟨rfl, hx, hrest⟩ := walk_cons.mp h
    obtain ⟨ys, rfl, hrest'⟩ := h'.eq_cons hx
    obtain ⟨rfl, rfl⟩ := ih hrest hrest'
    exact ⟨rfl, rfl⟩

/-- What holds at the start, and behind each cell, holds at the end. -/
theorem Walk.end {a z : α} {xs : List α} (h : Walk next go a xs z) {P : α → Prop} (ha : P a)
    (hnext : ∀ x, go x → P (next x)) : P z := by
  induction xs generalizing a with
  | nil =>
    obtain ⟨rfl, -⟩ := walk_nil.mp h
    exact ha
  | cons x xs ih =>
    obtain ⟨rfl, hx, hrest⟩ := walk_cons.mp h
    exact ih hrest (hnext a hx)

/-- **A walk that also stops at some cells** is a prefix. -/
theorem Walk.until {a z : α} {xs : List α} (h : Walk next go a xs z) (stop : α → Bool) :
    Walk next (fun x => go x ∧ stop x = false) a (xs.takeWhile (!stop ·))
      ((xs.find? stop).getD z) := by
  induction xs generalizing a with
  | nil =>
    obtain ⟨rfl, hz⟩ := walk_nil.mp h
    exact walk_nil.mpr ⟨rfl, fun hgo => hz hgo.1⟩
  | cons x xs ih =>
    obtain ⟨rfl, hx, hrest⟩ := walk_cons.mp h
    cases hstop : stop a with
    | true =>
      rw [List.takeWhile_cons_of_neg (by simp [hstop]), List.find?_cons_of_pos hstop]
      exact walk_nil.mpr ⟨rfl, fun hgo => by simp [hstop] at hgo⟩
    | false =>
      rw [List.takeWhile_cons_of_pos (by simp [hstop]), List.find?_cons_of_neg (by simp [hstop])]
      exact walk_cons.mpr ⟨rfl, ⟨hx, hstop⟩, ih hrest⟩

/-- **A walk whose numbers are cut off**: it goes on from where the whole one ends. -/
theorem Walk.mod_iff {next : Nat → Nat} {go : Nat → Prop} {bound a z z' : Nat} {xs ys : List Nat}
    (hgo : ∀ x, go x → x < bound) (h : Walk next go a xs z) :
    Walk (fun x => next x % bound) go (a % bound) ys z' ↔
      ∃ rs, ys = xs ++ rs ∧ Walk (fun x => next x % bound) go (z % bound) rs z' := by
  induction xs generalizing a ys with
  | nil =>
    obtain ⟨rfl, -⟩ := walk_nil.mp h
    simp
  | cons x xs ih =>
    obtain ⟨rfl, hx, hrest⟩ := walk_cons.mp h
    rw [Nat.mod_eq_of_lt (hgo a hx)]
    constructor
    · intro hwalk
      obtain ⟨ys, rfl, hys⟩ := hwalk.eq_cons hx
      obtain ⟨rs, rfl, hrs⟩ := (ih hrest).mp hys
      exact ⟨rs, rfl, hrs⟩
    · rintro ⟨rs, rfl, hrs⟩
      exact walk_cons.mpr ⟨rfl, hx, (ih hrest).mpr ⟨rs, rfl, hrs⟩⟩

/-! ## The walk, computed -/

/-- What is visited in so many steps, and where this ends. -/
def walk (next : α → α) (go : α → Bool) : Nat → α → List α × α
  | 0, a => ([], a)
  | n + 1, a => if go a then (a :: (walk next go n (next a)).1, (walk next go n (next a)).2)
    else ([], a)

theorem walk_spec {next : Nat → Nat} {go : Nat → Bool} (limit : Nat)
    (hgo : ∀ x, go x = true → x < limit ∧ x < next x) (n a : Nat) (ha : limit ≤ a + n) :
    Walk next (go · = true) a (walk next go n a).1 (walk next go n a).2 := by
  induction n generalizing a with
  | zero => exact walk_nil.mpr ⟨rfl, fun hgo' => by have := hgo a hgo'; omega⟩
  | succ n ih =>
    unfold walk
    by_cases hx : go a = true
    · rw [if_pos hx]
      exact walk_cons.mpr ⟨rfl, hx, ih (next a) (by have := hgo a hx; omega)⟩
    · rw [if_neg hx]
      exact walk_nil.mpr ⟨rfl, hx⟩

end HaoSys.Lib
