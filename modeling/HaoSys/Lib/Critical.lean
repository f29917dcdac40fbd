import HaoSys.Lib.Prog

/-!
# Critical sections

Programs over a state and an interrupt flag. `lift` runs a program of the state
alone and leaves the flag; `enter` saves the flag and clears it, `leave fl` sets
it to what was saved. A section `enter >>= body` whose body is `Closes fl` for
every saved flag is the lift of a program without the flag (`enter_bind`), so
sections nest: seen from outside, an inner one is a lift like any other step.
-/

namespace HaoSys.Lib

/-- Computations over a state `σ` and an interrupt flag. -/
abbrev Flagged (σ ε : Type) := Prog (σ × Bool) ε

namespace Flagged

variable {σ ε α β : Type}

def lift (x : Prog σ ε α) : Flagged σ ε α := fun s => (x s.1).map fun r => (r.1, (r.2, s.2))

def enter : Flagged σ ε Bool := fun s => .ok (s.2, (s.1, false))

def leave (fl : Bool) : Flagged σ ε Unit := fun s => .ok ((), (s.1, fl))

/-- If `x` returns from this state and flag, the flag is again what it was. -/
def Restores (x : Flagged σ ε α) (s : σ) (fl : Bool) : Prop :=
  ∀ a t fl', x (s, fl) = .ok (a, (t, fl')) → fl' = fl

/-! ## Lifts -/

section Lift

variable {x y : Prog σ ε α}

theorem lift_of_ok {s t : σ} {a : α} (h : x s = .ok (a, t)) (fl : Bool) :
    lift x (s, fl) = .ok (a, (t, fl)) := by
  unfold lift
  rw [h]
  rfl

theorem lift_of_error {s : σ} {e : ε} (h : x s = .error e) (fl : Bool) :
    lift x (s, fl) = .error e := by
  unfold lift
  rw [h]
  rfl

theorem lift_bind (x : Prog σ ε α) (f : α → Prog σ ε β) :
    lift (x >>= f) = lift x >>= fun a => lift (f a) := by
  funext ⟨s, fl⟩
  cases h : x s with
  | error e => rw [Prog.bind_of_error (lift_of_error h fl), lift_of_error (Prog.bind_of_error h)]
  | ok r =>
    obtain ⟨a, t⟩ := r
    rw [Prog.bind_of_ok (lift_of_ok h fl)]
    unfold lift
    rw [Prog.bind_of_ok h]

theorem lift_ite (c : Prop) [Decidable c] :
    lift (if c then x else y) = if c then lift x else lift y :=
  apply_ite lift c x y

theorem restores_lift (x : Prog σ ε α) (s : σ) (fl : Bool) : Restores (lift x) s fl := by
  intro a t fl' h
  cases hx : x s with
  | error e =>
    rw [lift_of_error hx] at h
    cases h
  | ok r =>
    rw [lift_of_ok hx] at h
    cases h
    rfl

end Lift

/-! ## Bodies of sections -/

/-- `x` does what `y` does and returns with the flag at `fl`, whatever it is before. -/
def Closes (fl : Bool) (x : Flagged σ ε α) (y : Prog σ ε α) : Prop :=
  ∀ s g, x (s, g) = lift y (s, fl)

section Closes

variable {fl : Bool} {x x' : Flagged σ ε α} {y y' : Prog σ ε α}

theorem Closes.congr (h : Closes fl x y) (heq : y = y') : Closes fl x y' := heq ▸ h

theorem Closes.leave_bind (a : α) : Closes fl (do leave fl; pure a) (pure a : Prog σ ε α) :=
  fun _ _ => rfl

theorem Closes.fault (e : ε) : Closes fl (Prog.fault e : Flagged σ ε α) (Prog.fault e) :=
  fun _ _ => rfl

theorem Closes.ite {c : Prop} [Decidable c] (h : c → Closes fl x y) (h' : ¬ c → Closes fl x' y') :
    Closes fl (if c then x else x') (if c then y else y') := by
  split
  · next hc => exact h hc
  · next hc => exact h' hc

/-- A step inside the section, and the rest. -/
theorem Closes.lift_bind {z : Prog σ ε β} {f : β → Flagged σ ε α} {g : β → Prog σ ε α}
    (h : ∀ b, Closes fl (f b) (g b)) : Closes fl (lift z >>= f) (z >>= g) := by
  intro s i
  cases hz : z s with
  | error e => rw [Prog.bind_of_error (lift_of_error hz i), lift_of_error (Prog.bind_of_error hz)]
  | ok r =>
    obtain ⟨b, t⟩ := r
    rw [Prog.bind_of_ok (lift_of_ok hz i), h b t i]
    unfold lift
    rw [Prog.bind_of_ok hz]

/-- A section whose body puts the saved flag back on every way out is a lift. -/
theorem enter_bind {body : Bool → Flagged σ ε α} (h : ∀ fl, Closes fl (body fl) y) :
    enter >>= body = lift y := by
  funext ⟨s, fl⟩
  rw [Prog.bind_of_ok rfl, h fl s false]

/-- The section around one step. -/
theorem enter_lift_leave (y : Prog σ ε α) :
    (do
      let fl ← enter
      let a ← lift y
      leave fl
      pure a) = lift y :=
  enter_bind fun _ => (Closes.lift_bind fun a => .leave_bind a).congr (bind_pure y)

end Closes

end Flagged

end HaoSys.Lib
