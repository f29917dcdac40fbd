import Mathlib

/-!
# Programs with a state and faults

`Prog σ ε α` is a computation that reads and writes a state `σ` and either
returns an `α` or stops with a fault `ε`. A run is an application to a state,
so `x s = .ok (a, t)` says that `x` returns `a` and leaves the state `t`; runs
are composed with `bind_of_ok` and taken apart with `bind_eq_ok`. A `Reader`
of a part of the state leaves that part and returns what it finds there.
-/

namespace HaoSys.Lib

/-- Computations over a state `σ` that may stop with a fault `ε`. -/
abbrev Prog (σ ε : Type) := StateT σ (Except ε)

namespace Prog

variable {σ ε α β : Type}

/-- Stop with the fault `e`. -/
def fault (e : ε) : Prog σ ε α := fun _ => .error e

@[simp] theorem pure_apply (a : α) (s : σ) : (pure a : Prog σ ε α) s = .ok (a, s) := rfl

@[simp] theorem fault_apply (e : ε) (s : σ) : (fault e : Prog σ ε α) s = .error e := rfl

/-- A first step that returns hands its result and its state on. -/
theorem bind_of_ok {x : Prog σ ε α} {f : α → Prog σ ε β} {s t : σ} {a : α}
    (h : x s = .ok (a, t)) : (x >>= f) s = f a t := by
  change Except.bind (x s) _ = _
  rw [h]
  rfl

theorem bind_of_error {x : Prog σ ε α} {f : α → Prog σ ε β} {s : σ} {e : ε}
    (h : x s = .error e) : (x >>= f) s = .error e := by
  change Except.bind (x s) _ = _
  rw [h]
  rfl

/-- A composition returns exactly when both steps do. -/
theorem bind_eq_ok {x : Prog σ ε α} {f : α → Prog σ ε β} {s u : σ} {b : β} :
    (x >>= f) s = .ok (b, u) ↔ ∃ a t, x s = .ok (a, t) ∧ f a t = .ok (b, u) := by
  constructor
  · intro h
    cases hx : x s with
    | error e =>
      rw [bind_of_error hx] at h
      cases h
    | ok r =>
      obtain ⟨a, t⟩ := r
      rw [bind_of_ok hx] at h
      exact ⟨a, t, rfl, h⟩
  · rintro ⟨a, t, hx, h⟩
    rw [bind_of_ok hx, h]

/-! ## Pre- and postconditions -/

/-- From a state with `P`, `x` returns with `Q` or stops with a fault in `E`. -/
def Triple (E : ε → Prop) (P : σ → Prop) (x : Prog σ ε α) (Q : α → σ → Prop) : Prop :=
  ∀ s, P s → match x s with
    | .ok (a, t) => Q a t
    | .error e => E e

variable {E : ε → Prop} {P P' : σ → Prop} {x y : Prog σ ε α} {Q Q' : α → σ → Prop}

theorem Triple.of_ok {s t : σ} {a : α} (h : Triple E P x Q) (hP : P s) (hx : x s = .ok (a, t)) :
    Q a t := by
  have := h s hP
  rwa [hx] at this

theorem Triple.pure {a : α} (h : ∀ s, P s → Q a s) : Triple E P (Pure.pure a) Q := h

theorem Triple.fault {e : ε} (h : E e) : Triple E P (Prog.fault e : Prog σ ε α) Q := fun _ _ => h

theorem Triple.bind {f : α → Prog σ ε β} {R : α → σ → Prop} {Q : β → σ → Prop}
    (hx : Triple E P x R) (hf : ∀ a, Triple E (R a) (f a) Q) : Triple E P (x >>= f) Q := by
  intro s hs
  have h1 := hx s hs
  cases hrun : x s with
  | error e =>
    rw [hrun] at h1
    rw [bind_of_error hrun]
    exact h1
  | ok r =>
    obtain ⟨a, t⟩ := r
    rw [hrun] at h1
    rw [bind_of_ok hrun]
    exact hf a t h1

theorem Triple.ite {c : Prop} [Decidable c] (h1 : c → Triple E P x Q) (h2 : ¬ c → Triple E P y Q) :
    Triple E P (if c then x else y) Q := by
  split
  · next h => exact h1 h
  · next h => exact h2 h

theorem Triple.conseq (h : Triple E P x Q) (hP : ∀ s, P' s → P s)
    (hQ : ∀ a s, Q a s → Q' a s) : Triple E P' x Q' := by
  intro s hs
  have h1 := h s (hP s hs)
  cases hrun : x s with
  | error e => rwa [hrun] at h1
  | ok r =>
    rw [hrun] at h1
    exact hQ _ _ h1

theorem Triple.of_faults {E' : ε → Prop} (h : Triple E P x Q) (hE : ∀ e, E e → E' e) :
    Triple E' P x Q := by
  intro s hs
  have h1 := h s hs
  cases hrun : x s with
  | error e =>
    rw [hrun] at h1
    exact hE e h1
  | ok r => rwa [hrun] at h1

/-! ## Computations that only read -/

/-- Wherever the observed part of the state is `v`, `x` returns `a` and leaves that part. -/
def Gives {ν : Type} (view : σ → ν) (x : Prog σ ε α) (v : ν) (a : α) : Prop :=
  ∀ s, view s = v → ∃ t, x s = .ok (a, t) ∧ view t = v

/-- `x` leaves the observed part of the state, and that part alone decides how `x` ends. -/
def Reader {ν : Type} (view : σ → ν) (x : Prog σ ε α) : Prop :=
  ∀ v, (∃ a, Gives view x v a) ∨ ∃ e, ∀ s, view s = v → x s = .error e

section Views

variable {ν : Type} {view : σ → ν} {v : ν}

theorem Gives.pure (a : α) : Gives view (Pure.pure a : Prog σ ε α) v a := fun s hs => ⟨s, rfl, hs⟩

theorem Gives.bind {f : α → Prog σ ε β} {a : α} {b : β} (hx : Gives view x v a)
    (hf : Gives view (f a) v b) : Gives view (x >>= f) v b := by
  intro s hs
  obtain ⟨t, ht, hv⟩ := hx s hs
  obtain ⟨u, hu, hv⟩ := hf t hv
  exact ⟨u, by rw [bind_of_ok ht, hu], hv⟩

/-- What a computation gives is what its runs return. -/
theorem Gives.of_ok {a a' : α} {s t : σ} (h : Gives view x v a) (hs : view s = v)
    (hx : x s = .ok (a', t)) : a' = a ∧ view t = v := by
  obtain ⟨u, hu, hv⟩ := h s hs
  rw [hx] at hu
  cases hu
  exact ⟨rfl, hv⟩

theorem Gives.unique {a a' : α} {s : σ} (h : Gives view x (view s) a)
    (h' : Gives view x (view s) a') : a = a' := by
  obtain ⟨t, ht, -⟩ := h s rfl
  exact (h'.of_ok rfl ht).1

/-- A run of a reader tells what every run in that view does. -/
theorem Reader.of_ok {a : α} {s t : σ} (h : Reader view x) (hx : x s = .ok (a, t)) :
    Gives view x (view s) a ∧ view t = view s := by
  obtain ⟨a', ha⟩ | ⟨e, he⟩ := h (view s)
  · obtain ⟨rfl, hv⟩ := ha.of_ok rfl hx
    exact ⟨ha, hv⟩
  · rw [he s rfl] at hx
    cases hx

theorem Reader.pure (a : α) : Reader view (Pure.pure a : Prog σ ε α) := fun _ => .inl ⟨a, .pure a⟩

theorem Reader.fault (e : ε) : Reader view (Prog.fault e : Prog σ ε α) :=
  fun _ => .inr ⟨e, fun _ _ => rfl⟩

theorem Reader.bind {f : α → Prog σ ε β} (hx : Reader view x) (hf : ∀ a, Reader view (f a)) :
    Reader view (x >>= f) := by
  intro v
  obtain ⟨a, ha⟩ | ⟨e, he⟩ := hx v
  · obtain ⟨b, hb⟩ | ⟨e, he⟩ := hf a v
    · exact .inl ⟨b, ha.bind hb⟩
    · refine .inr ⟨e, fun s hs => ?_⟩
      obtain ⟨t, ht, hv⟩ := ha s hs
      rw [bind_of_ok ht, he t hv]
  · exact .inr ⟨e, fun s hs => bind_of_error (he s hs)⟩

/-- A composition of readers gives what its second step gives on what the first one gives. -/
theorem Gives.bind_inv {f : α → Prog σ ε β} {b : β} {s : σ} (hx : Reader view x)
    (hf : ∀ a, Reader view (f a)) (h : Gives view (x >>= f) (view s) b) :
    ∃ a, Gives view x (view s) a ∧ Gives view (f a) (view s) b := by
  obtain ⟨u, hu, -⟩ := h s rfl
  obtain ⟨a, t, ht, hu⟩ := bind_eq_ok.1 hu
  obtain ⟨ha, hv⟩ := hx.of_ok ht
  refine ⟨a, ha, ?_⟩
  rw [← hv]
  exact ((hf a).of_ok hu).1

theorem Reader.ite {c : Prop} [Decidable c] (hx : c → Reader view x) (hy : ¬ c → Reader view y) :
    Reader view (if c then x else y) := by
  split
  · next h => exact hx h
  · next h => exact hy h

end Views

end Prog

end HaoSys.Lib
