import Mathlib

/-!
# Following a successor function

`Follows next a xs z`: starting at `a`, the cells visited by applying `next`
are `xs`, and the walk then stands at `z`. A list threaded through link words
is `Follows link head xs nil`; a chain of table entries is
`Follows entry first xs mark`. The edits of such lists are `Follows.congr`
(nothing on the way changed), `follows_cons` (push and pop at the head) and
`Follows.unlink` (drop a cell behind its predecessor).
-/

namespace HaoSys.Lib

variable {α : Type*}

/-- Following `next` from `a` visits the cells `xs` in order and arrives at `z`. -/
def Follows (next : α → α) : α → List α → α → Prop
  | a, [], z => a = z
  | a, x :: xs, z => a = x ∧ Follows next (next x) xs z

@[simp] theorem follows_nil {next : α → α} {a z : α} : Follows next a [] z ↔ a = z := Iff.rfl

@[simp] theorem follows_cons {next : α → α} {a x z : α} {xs : List α} :
    Follows next a (x :: xs) z ↔ a = x ∧ Follows next (next x) xs z := Iff.rfl

instance Follows.decidable [DecidableEq α] (next : α → α) :
    ∀ (a : α) (xs : List α) (z : α), Decidable (Follows next a xs z)
  | a, [], z => inferInstanceAs (Decidable (a = z))
  | a, x :: xs, z =>
    have := Follows.decidable next (next x) xs z
    inferInstanceAs (Decidable (a = x ∧ Follows next (next x) xs z))

/-- The walk reads only the successors of the cells it visits. -/
theorem Follows.congr {next next' : α → α} {z : α} :
    ∀ {xs : List α} {a : α}, Follows next a xs z → (∀ x ∈ xs, next' x = next x) →
      Follows next' a xs z
  | [], _, h, _ => h
  | x :: xs, _, ⟨rfl, h⟩, hag => by
    refine ⟨rfl, ?_⟩
    rw [hag _ List.mem_cons_self]
    exact h.congr fun y hy => hag y (List.mem_cons_of_mem _ hy)

theorem follows_append {next : α → α} {z : α} :
    ∀ {xs ys : List α} {a : α},
      Follows next a (xs ++ ys) z ↔ ∃ b, Follows next a xs b ∧ Follows next b ys z
  | [], ys, a => by simp
  | x :: xs, ys, a => by
    simp only [List.cons_append, follows_cons, follows_append]
    constructor
    · rintro ⟨h, b, h1, h2⟩; exact ⟨b, ⟨h, h1⟩, h2⟩
    · rintro ⟨b, ⟨h, h1⟩, h2⟩; exact ⟨h, b, h1, h2⟩

/-- A walk that ends at `z` without meeting it is determined by its start. -/
theorem Follows.unique {next : α → α} {z : α} :
    ∀ {xs ys : List α} {a : α}, Follows next a xs z → Follows next a ys z → z ∉ xs → z ∉ ys →
      xs = ys
  | [], [], _, _, _, _, _ => rfl
  | [], y :: ys, a, h1, h2, _, hy => by
    rw [follows_nil] at h1
    subst h1
    exact absurd (h2.1 ▸ List.mem_cons_self) hy
  | x :: xs, [], a, h1, h2, hx, _ => by
    rw [follows_nil] at h2
    subst h2
    exact absurd (h1.1 ▸ List.mem_cons_self) hx
  | x :: xs, y :: ys, a, ⟨e1, h1⟩, ⟨e2, h2⟩, hx, hy => by
    subst e1; subst e2
    rw [h1.unique h2 (fun h => hx (List.mem_cons_of_mem _ h))
      (fun h => hy (List.mem_cons_of_mem _ h))]

/-- The cells visited determine where it ends. -/
theorem Follows.end_eq {next : α → α} {z z' : α} :
    ∀ {xs : List α} {a b : α}, Follows next a xs z → Follows next b xs z' → xs ≠ [] → z = z'
  | [], _, _, _, _, hne => absurd rfl hne
  | [_], _, _, ⟨_, h1⟩, ⟨_, h2⟩, _ => h1.symm.trans h2
  | _ :: y :: ys, _, _, ⟨_, h1⟩, ⟨_, h2⟩, _ => h1.end_eq h2 (List.cons_ne_nil y ys)

/-- It visits no cell twice. -/
theorem Follows.nodup {next : α → α} {z : α} :
    ∀ {xs : List α} {a : α}, Follows next a xs z → z ∉ xs → xs.Nodup
  | [], _, _, _ => List.nodup_nil
  | x :: xs, _, ⟨_, h⟩, hz => by
    have hz' : z ∉ xs := fun hm => hz (List.mem_cons_of_mem _ hm)
    refine List.nodup_cons.2 ⟨fun hmem => ?_, h.nodup hz'⟩
    obtain ⟨l, r, rfl⟩ := List.append_of_mem hmem
    obtain ⟨b, -, -, hr⟩ := follows_append.1 h
    have hwhole : Follows next x (x :: (l ++ x :: r)) z := ⟨rfl, h⟩
    have hrest : Follows next x (x :: r) z := ⟨rfl, hr⟩
    have hsame := hwhole.unique hrest hz fun hm => hz' (List.mem_append_right _ hm)
    have := congrArg List.length hsame
    simp at this
    omega

/-- The successor of a visited cell is visited too, or is where the walk ends. -/
theorem Follows.next_mem {next : α → α} {z : α} :
    ∀ {xs : List α} {a x : α}, Follows next a xs z → x ∈ xs → next x ∈ xs ∨ next x = z
  | y :: [], a, x, ⟨_, h⟩, hx => by
    rw [List.mem_singleton] at hx
    subst hx
    exact .inr h
  | y :: y' :: ys, a, x, ⟨_, h⟩, hx => by
    rcases List.mem_cons.mp hx with rfl | hx
    · exact .inl (by rw [h.1]; simp)
    · exact (h.next_mem hx).imp_left (List.mem_cons_of_mem _)

/-- Dropping the cell `y` behind `x`: only the successor of `x` changes. -/
theorem Follows.unlink {next next' : α → α} {z a x y : α} {l r : List α}
    (h : Follows next a (l ++ x :: y :: r) z) (hx : next' x = next y)
    (hag : ∀ c ∈ l ++ r, next' c = next c) :
    Follows next' a (l ++ x :: r) z := by
  obtain ⟨b, hl, hb, hxy, hr⟩ := follows_append.1 h
  refine follows_append.2 ⟨b, hl.congr fun c hc => hag c (by simp [hc]), hb, ?_⟩
  rw [hx]
  exact hr.congr fun c hc => hag c (by simp [hc])

end HaoSys.Lib
