import Mathlib

/-!
# Decimal output (`print_num` in `user/shell.c`)

The digits of the argument go into `char buf[8]`, the lowest first, and are
printed from the other end. The argument is an `int`; the negation of the
smallest one is itself (two's complement). A store outside `buf` has no result.
-/

namespace HaoSys.User

/-- The size of `buf`. -/
def numSize : Nat := 8

/-- `while (v > 0)`, with the digits stored so far, the last one first. -/
def digitLoop (v : Int32) (buf : List UInt8) : Option (List UInt8) :=
  if 0 < v then
    if buf.length < numSize then digitLoop (v / 10) ((0x30 + v % 10).toUInt32.toUInt8 :: buf)
    else none
  else some buf
termination_by v.toInt.toNat
decreasing_by
  rename_i h _
  rw [Int32.lt_iff_toInt_lt] at h
  rw [Int32.toInt_div_of_ne_right _ _ (by decide)]
  have h : 0 < v.toInt := h
  change (v.toInt.tdiv 10).toNat < _
  rw [Int.tdiv_eq_ediv_of_nonneg h.le]
  omega

/-- `print_num`: the characters it prints. -/
def printNum (v : Int32) : Option (List UInt8) :=
  if v = 0 then some [0x30]
  else
    let sign : List UInt8 := if v < 0 then [0x2D] else []
    let v := if v < 0 then -v else v
    (digitLoop v []).map (sign ++ ·)

/-! ## What it should print -/

/-- The decimal representation of a number other than 0, without a sign. -/
def decimalDigits (n : Nat) : List UInt8 :=
  (Nat.digits 10 n).reverse.map fun d => UInt8.ofNat (0x30 + d)

def decimal (n : Int) : List UInt8 :=
  if n = 0 then [0x30]
  else (if n < 0 then [0x2D] else []) ++ decimalDigits n.natAbs

theorem length_decimalDigits (n : Nat) : (decimalDigits n).length = (Nat.digits 10 n).length := by
  simp [decimalDigits]

theorem decimalDigits_step {n : Nat} (h : 0 < n) :
    decimalDigits n = decimalDigits (n / 10) ++ [UInt8.ofNat (0x30 + n % 10)] := by
  unfold decimalDigits
  rw [Nat.digits_def' (by decide) h, List.reverse_cons, List.map_append]
  rfl

/-! ## The loop -/

theorem mod_ten {v : Int32} {n : Nat} (h : v.toInt = n) : v % 10 = Int32.ofNat (n % 10) := by
  have hlt : n % 10 < 10 := Nat.mod_lt n (by decide)
  apply Int32.toInt_inj.1
  rw [Int32.toInt_mod, h, Int32.toInt_ofNat_of_lt (by omega)]
  change Int.tmod n 10 = _
  rw [Int.tmod_eq_emod_of_nonneg (Int.natCast_nonneg n)]
  rfl

theorem div_ten {v : Int32} {n : Nat} (h : v.toInt = n) : (v / 10).toInt = (n / 10 : Nat) := by
  rw [Int32.toInt_div_of_ne_right _ _ (by decide), h]
  change Int.tdiv n 10 = _
  rw [Int.tdiv_eq_ediv_of_nonneg (Int.natCast_nonneg n)]
  rfl

/-- The character of the last digit. -/
theorem digit_char {v : Int32} {n : Nat} (h : v.toInt = n) :
    (0x30 + v % 10).toUInt32.toUInt8 = UInt8.ofNat (0x30 + n % 10) := by
  have hlt : n % 10 < 10 := Nat.mod_lt n (by decide)
  rw [mod_ten h]
  generalize n % 10 = d at hlt ⊢
  revert d
  decide

/-- The loop stores all digits or runs over the end of `buf`. -/
theorem digitLoop_eq {v : Int32} {n : Nat} {buf : List UInt8} (h : v.toInt = n)
    (hbuf : buf.length ≤ numSize) :
    digitLoop v buf = if (decimalDigits n).length + buf.length ≤ numSize then
      some (decimalDigits n ++ buf) else none := by
  induction n using Nat.strong_induction_on generalizing v buf with
  | _ n ih =>
    unfold digitLoop
    have hpos : 0 < v ↔ 0 < n := by
      rw [Int32.lt_iff_toInt_lt, h]
      exact Int.natCast_pos
    by_cases hn : 0 < n
    · rw [if_pos (hpos.2 hn), decimalDigits_step hn, List.length_append, List.length_singleton]
      by_cases hroom : buf.length < numSize
      · rw [if_pos hroom, ih (n / 10) (by omega) (div_ten h) (by simpa using hroom), digit_char h,
          List.length_cons, List.append_assoc, Nat.add_right_comm, Nat.add_assoc]
        rfl
      · rw [if_neg hroom, if_neg (by omega)]
    · obtain rfl : n = 0 := by omega
      rw [if_neg fun hv => hn (hpos.1 hv), if_pos (by simpa [decimalDigits] using hbuf)]
      rfl

theorem length_decimalDigits_le {n : Nat} : (decimalDigits n).length ≤ numSize ↔ n < 10 ^ 8 := by
  rw [length_decimalDigits]
  exact Nat.digits_length_le_iff (by decide) n

/-! ## The function -/

/-- The smallest `int`, which negation leaves as it is. -/
theorem toInt_neg_of_ne {v : Int32} (h : v.toInt ≠ -2 ^ 31) : (-v).toInt = -v.toInt := by
  have := v.toInt_lt
  have := v.le_toInt
  rw [Int32.toInt_neg, Int.bmod_eq_of_le] <;> omega

/-- What `print_num` prints: the number, or the start of it up to the sign. -/
theorem printNum_eq (v : Int32) :
    printNum v = if v.toInt.natAbs < 10 ^ 8 then some (decimal v.toInt)
      else if v.toInt = -2 ^ 31 then some [0x2D] else none := by
  have hzero : v = 0 ↔ v.toInt = 0 := Int32.toInt_inj.symm
  have hneg : v < 0 ↔ v.toInt < 0 := Int32.lt_iff_toInt_lt
  unfold printNum decimal
  by_cases h0 : v = 0
  · rw [if_pos h0, if_pos (hzero.1 h0), hzero.1 h0]
    rfl
  rw [if_neg h0, if_neg fun e => h0 (hzero.2 e)]
  simp only
  by_cases hmin : v.toInt = -2 ^ 31
  · -- the loop is not entered
    have hloop : digitLoop (-v) [] = some [] := by
      have hv : -v = v := Int32.toInt_inj.1 (by rw [Int32.toInt_neg, hmin]; rfl)
      rw [hv]
      unfold digitLoop
      rw [if_neg]
      rw [Int32.lt_iff_toInt_lt, hmin]
      decide
    have hlt : v.toInt < 0 := by rw [hmin]; decide
    rw [if_pos (hneg.2 hlt), if_pos (hneg.2 hlt), hloop, if_neg (by rw [hmin]; decide), if_pos hmin]
    rfl
  · have habs : (if v < 0 then -v else v).toInt = v.toInt.natAbs := by
      by_cases hv : v < 0
      · rw [if_pos hv, toInt_neg_of_ne hmin]
        have := hneg.1 hv
        omega
      · rw [if_neg hv]
        rw [hneg] at hv
        omega
    rw [digitLoop_eq habs (Nat.zero_le _), List.length_nil, Nat.add_zero, List.append_nil,
      if_neg hmin]
    simp only [length_decimalDigits_le, hneg]
    by_cases hlt : v.toInt.natAbs < 10 ^ 8
    · rw [if_pos hlt, if_pos hlt]
      rfl
    · rw [if_neg hlt, if_neg hlt]
      rfl

/-- A number is printed right, inside `buf`, exactly when it has at most eight digits. -/
theorem print_num_decimal_iff (v : Int32) :
    printNum v = some (decimal v.toInt) ↔ v.toInt.natAbs < 10 ^ 8 := by
  rw [printNum_eq]
  by_cases hlt : v.toInt.natAbs < 10 ^ 8
  · rw [if_pos hlt]
    exact iff_of_true rfl hlt
  rw [if_neg hlt]
  refine iff_of_false ?_ hlt
  by_cases hmin : v.toInt = -2 ^ 31
  · -- no digit is printed
    rw [if_pos hmin, hmin, Option.some_inj]
    intro e
    have hlen := congrArg List.length e
    rw [decimal, if_neg (by decide), if_pos (by decide), List.length_append,
      length_decimalDigits] at hlen
    have hne : Nat.digits 10 (-2 ^ 31 : Int).natAbs ≠ [] := Nat.digits_ne_nil_iff_ne_zero.2 (by decide)
    have := List.length_pos_iff.2 hne
    simp only [List.length_singleton] at hlen
    omega
  · rw [if_neg hmin]
    exact nofun

/-- The size of a file of a hundred million bytes: the ninth digit is stored behind `buf`. -/
theorem nine_digits_overrun :
    printNum 100000000 = none ∧ ¬ ∀ v : Int32, printNum v = some (decimal v.toInt) := by
  have h : printNum 100000000 = none := by
    rw [printNum_eq, if_neg (by decide), if_neg (by decide)]
  refine ⟨h, fun hall => ?_⟩
  have := hall 100000000
  rw [h] at this
  cases this

end HaoSys.User
