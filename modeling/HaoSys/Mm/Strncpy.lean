import HaoSys.Mm.Memory

/-!
# `strncpy` (`lib/string.c`)

Two loops share the counter, and every test of it takes one away, also the one
that ends a loop. So the filling stops one byte short of `n` when the string
has ended before; and when it has not, `n` has gone below 0 and the filling
runs over the whole memory. A routine that writes bytes is described by its
stores, in their order.
-/

namespace HaoSys.Mm

abbrev Stores := List (UInt32 × UInt8)

/-- The memory after the stores. -/
def applyStores (m : Mem) (log : Stores) : Mem := log.foldl (fun m s => store8 m s.1 s.2) m

/-- `while (n-- && *src) *d++ = *src++;`: its stores, and `n` behind the test that ends it. -/
def copyStores : Nat → Mem → UInt32 → UInt32 → Stores × UInt32
  | 0, _, _, _ => ([], 0xFFFFFFFF)
  | n + 1, m, d, src =>
    if m src = 0 then ([], UInt32.ofNat n)
    else
      let (log, left) := copyStores n (store8 m d (m src)) (d + 1) (src + 1)
      ((d, m src) :: log, left)

/-- `while (n--) *d++ = '\0';`. -/
def fillStores : Nat → UInt32 → Stores
  | 0, _ => []
  | n + 1, d => (d, 0) :: fillStores n (d + 1)

/-- The stores of `strncpy(dest, src, n)`. -/
def strncpyStores (m : Mem) (dest src n : UInt32) : Stores :=
  let (log, left) := copyStores n.toNat m dest src
  log ++ fillStores left.toNat (dest + UInt32.ofNat log.length)

def strncpy (m : Mem) (dest src n : UInt32) : Mem := applyStores m (strncpyStores m dest src n)

/-- A string of `len` bytes at `src`, with its NUL. -/
structure IsString (m : Mem) (src : UInt32) (len : Nat) : Prop where
  byte : ∀ k, k < len → m (src + UInt32.ofNat k) ≠ 0
  terminator : m (src + UInt32.ofNat len) = 0

/-- What `strncpy` is for: it writes the `n` bytes at `dest` and no others, and leaves there the
first bytes of the string and then NULs. -/
structure CopiesExactly (m : Mem) (dest src n : UInt32) (len : Nat) : Prop where
  written : ∀ a, a ∈ (strncpyStores m dest src n).map Prod.fst ↔
    ∃ k, k < n.toNat ∧ a = dest + UInt32.ofNat k
  content : ∀ k, k < n.toNat → strncpy m dest src n (dest + UInt32.ofNat k) =
    if k < len then m (src + UInt32.ofNat k) else 0

/-! ## Consecutive addresses -/

/-- The `n` addresses from `a` on. -/
def bytesFrom : UInt32 → Nat → List UInt32
  | _, 0 => []
  | a, n + 1 => a :: bytesFrom (a + 1) n

variable {m : Mem} {a d dest src n : UInt32} {j k len : Nat}

theorem ofNat_succ_add (a : UInt32) (k : Nat) :
    a + UInt32.ofNat (k + 1) = a + 1 + UInt32.ofNat k := by
  rw [UInt32.ofNat_add, UInt32.add_assoc, UInt32.add_comm (UInt32.ofNat k)]
  rfl

theorem mem_bytesFrom : a ∈ bytesFrom d k ↔ ∃ j, j < k ∧ a = d + UInt32.ofNat j := by
  induction k generalizing d with
  | zero => simp [bytesFrom]
  | succ k ih =>
    rw [bytesFrom, List.mem_cons, ih]
    constructor
    · rintro (rfl | ⟨j, hj, rfl⟩)
      · exact ⟨0, Nat.succ_pos k, by simp⟩
      · exact ⟨j + 1, by omega, (ofNat_succ_add d j).symm⟩
    · rintro ⟨j, hj, rfl⟩
      cases j with
      | zero => exact .inl (by simp)
      | succ j => exact .inr ⟨j, by omega, ofNat_succ_add d j⟩

theorem bytesFrom_append (a : UInt32) (j k : Nat) :
    bytesFrom a j ++ bytesFrom (a + UInt32.ofNat j) k = bytesFrom a (j + k) := by
  induction j generalizing a with
  | zero => simp [bytesFrom]
  | succ j ih =>
    rw [show j + 1 + k = (j + k) + 1 by omega, bytesFrom, bytesFrom, List.cons_append,
      ofNat_succ_add, ih]

/-- Two offsets below 4 GB give different addresses. -/
theorem add_ofNat_inj (hj : j < 2 ^ 32) (hk : k < 2 ^ 32)
    (h : a + UInt32.ofNat j = a + UInt32.ofNat k) : j = k := by
  have := congrArg UInt32.toNat (UInt32.add_right_inj a |>.1 h)
  rw [UInt32.toNat_ofNat', UInt32.toNat_ofNat'] at this
  omega

/-! ## The addresses that are written -/

theorem fillStores_fst (k : Nat) (d : UInt32) : (fillStores k d).map Prod.fst = bytesFrom d k := by
  induction k generalizing d with
  | zero => rfl
  | succ k ih => rw [fillStores, List.map_cons, ih, bytesFrom]

/-- The copying goes on to the end of the count, or to a NUL before. -/
theorem copyStores_spec (k : Nat) (m : Mem) (d src : UInt32) :
    (copyStores k m d src).1.map Prod.fst = bytesFrom d (copyStores k m d src).1.length ∧
      ((copyStores k m d src).1.length = k ∧ (copyStores k m d src).2 = 0xFFFFFFFF ∨
        (copyStores k m d src).1.length < k ∧
          (copyStores k m d src).2 = UInt32.ofNat (k - (copyStores k m d src).1.length - 1)) := by
  induction k generalizing m d src with
  | zero => exact ⟨rfl, .inl ⟨rfl, rfl⟩⟩
  | succ k ih =>
    rw [copyStores]
    by_cases hz : m src = 0
    · rw [if_pos hz]
      exact ⟨rfl, .inr ⟨Nat.succ_pos k, by simp⟩⟩
    · rw [if_neg hz]
      obtain ⟨hfst, hleft⟩ := ih (store8 m d (m src)) (d + 1) (src + 1)
      simp only [List.map_cons, List.length_cons, bytesFrom, hfst, true_and]
      rcases hleft with ⟨hlen, hleft⟩ | ⟨hlen, hleft⟩
      · exact .inl ⟨by omega, hleft⟩
      · exact .inr ⟨by omega, by rw [hleft]; congr 1; omega⟩

/-- `n - 1` bytes, or all of them and 4 GB less one behind them. -/
theorem strncpyStores_fst (m : Mem) (dest src n : UInt32) :
    ∃ k, (strncpyStores m dest src n).map Prod.fst = bytesFrom dest k ∧
      (k + 1 = n.toNat ∨ k = n.toNat + (2 ^ 32 - 1)) := by
  obtain ⟨hfst, hleft⟩ := copyStores_spec n.toNat m dest src
  have hn := n.toNat_lt
  rw [strncpyStores]
  simp only [List.map_append, hfst, fillStores_fst, bytesFrom_append]
  refine ⟨_, rfl, ?_⟩
  rcases hleft with ⟨hlen, hleft⟩ | ⟨hlen, hleft⟩
  · right
    rw [hlen, hleft]
    rfl
  · left
    rw [hleft, UInt32.toNat_ofNat']
    omega

/-- The bytes that are written are never just those at `dest`. -/
theorem not_copiesExactly (m : Mem) (dest src n : UInt32) (len : Nat) :
    ¬ CopiesExactly m dest src n len := by
  intro h
  obtain ⟨k, hfst, hk⟩ := strncpyStores_fst m dest src n
  have hn := n.toNat_lt
  have hw := h.written (dest + UInt32.ofNat (min k n.toNat))
  rw [hfst, mem_bytesFrom] at hw
  rcases hk with hk | hk
  · -- the last byte is left out
    obtain ⟨j, hj, he⟩ := hw.2 ⟨k, by omega, by rw [Nat.min_eq_left (by omega)]⟩
    have := add_ofNat_inj (by omega) (by omega) he
    omega
  · obtain ⟨j, hj, he⟩ := hw.1 ⟨n.toNat, by omega, by rw [Nat.min_eq_right (by omega)]⟩
    have := add_ofNat_inj (by omega) (by omega) he
    omega

/-! ## Strings that the copying does not run into -/

/-- The destination does not begin behind the string's first byte and before its end, so that no
byte of the string is overwritten before it is read. -/
def Kept (src : UInt32) (len : Nat) (d : UInt32) : Prop := d = src ∨ len < (d - src).toNat

instance : Decidable (Kept src len d) := inferInstanceAs (Decidable (_ ∨ _))

@[simp] theorem add_ofNat_zero (a : UInt32) : a + UInt32.ofNat 0 = a := by simp

theorem add_one_sub_add_one (d src : UInt32) : d + 1 - (src + 1) = d - src := by
  apply UInt32.toNat_inj.1
  rw [UInt32.toNat_sub, UInt32.toNat_add, UInt32.toNat_add, UInt32.toNat_sub]
  have := d.toNat_lt; have := src.toNat_lt
  simp only [show UInt32.toNat 1 = 1 from rfl]
  omega

/-- The stores of `k` bytes of the string. -/
def copied (m : Mem) : UInt32 → UInt32 → Nat → Stores
  | _, _, 0 => []
  | d, src, k + 1 => (d, m src) :: copied m (d + 1) (src + 1) k

theorem copied_congr {m' : Mem} {d src : UInt32} {k : Nat}
    (h : ∀ i, i < k → m' (src + UInt32.ofNat i) = m (src + UInt32.ofNat i)) :
    copied m' d src k = copied m d src k := by
  induction k generalizing d src with
  | zero => rfl
  | succ k ih =>
    have h0 := h 0 (Nat.succ_pos k)
    rw [add_ofNat_zero] at h0
    rw [copied, copied, h0, ih fun i hi => ?_]
    rw [← ofNat_succ_add]
    exact h (i + 1) (by omega)

theorem copied_fst (m : Mem) (d src : UInt32) (k : Nat) :
    (copied m d src k).map Prod.fst = bytesFrom d k := by
  induction k generalizing d src with
  | zero => rfl
  | succ k ih => rw [copied, List.map_cons, ih, bytesFrom]

theorem copied_length (m : Mem) (d src : UInt32) (k : Nat) : (copied m d src k).length = k := by
  induction k generalizing d src with
  | zero => rfl
  | succ k ih => rw [copied, List.length_cons, ih]

/-- A store in front of the reading leaves the rest of the string. -/
theorem store8_kept (hk : Kept src (len + 1) d) {i : Nat} (hi : i ≤ len) (hlen : len + 1 < 2 ^ 32) :
    store8 m d (m src) (src + 1 + UInt32.ofNat i) = m (src + 1 + UInt32.ofNat i) := by
  rw [store8_apply]
  split
  · next he =>
    rcases hk with rfl | hk
    · rw [he]
    · rw [← he, ← ofNat_succ_add, UInt32.add_comm, UInt32.add_sub_cancel, UInt32.toNat_ofNat'] at hk
      omega
  · rfl

/-- The first loop on a string that it does not overwrite. -/
theorem copyStores_string {k : Nat} (hs : IsString m src len) (hlen : len < 2 ^ 32)
    (hk : Kept src len d) : copyStores k m d src = (copied m d src (min k len),
      if len < k then UInt32.ofNat (k - len - 1) else 0xFFFFFFFF) := by
  induction k generalizing m d src len with
  | zero => rw [copyStores, Nat.zero_min, if_neg (Nat.not_lt_zero len), copied]
  | succ k ih =>
    rw [copyStores]
    cases len with
    | zero =>
      have hz : m src = 0 := by simpa using hs.terminator
      rw [if_pos hz, Nat.min_zero, if_pos (Nat.succ_pos k), copied]
      rfl
    | succ len =>
      have hne : m src ≠ 0 := by simpa using hs.byte 0 (Nat.succ_pos len)
      have hs' : IsString (store8 m d (m src)) (src + 1) len := by
        refine ⟨fun i hi => ?_, ?_⟩
        · rw [store8_kept hk (Nat.le_of_lt hi) hlen, ← ofNat_succ_add]
          exact hs.byte (i + 1) (by omega)
        · rw [store8_kept hk (Nat.le_refl len) hlen, ← ofNat_succ_add]
          exact hs.terminator
      have hk' : Kept (src + 1) len (d + 1) := by
        rcases hk with rfl | hk
        · exact .inl rfl
        · exact .inr (by rw [add_one_sub_add_one]; omega)
      have hcopied : copied (store8 m d (m src)) (d + 1) (src + 1) (min k len) =
          copied m (d + 1) (src + 1) (min k len) :=
        copied_congr fun i hi => store8_kept hk (by omega) hlen
      rw [if_neg hne, ih hs' (by omega) hk', hcopied, Nat.succ_min_succ, copied]
      simp only [Nat.succ_lt_succ_iff, Nat.succ_sub_succ]

/-- Where the destination begins among the string's bytes, the loop writes them in front of
itself again and again, and meets no NUL. -/
theorem copyStores_overrun {δ : Nat} (hδ : 0 < δ)
    (hw : ∀ i < δ, m (src + UInt32.ofNat i) ≠ 0) (k : Nat) :
    (copyStores k m (src + UInt32.ofNat δ) src).1.length = k ∧
      (copyStores k m (src + UInt32.ofNat δ) src).2 = 0xFFFFFFFF := by
  induction k generalizing m src with
  | zero => exact ⟨rfl, rfl⟩
  | succ k ih =>
    have hne : m src ≠ 0 := by simpa using hw 0 hδ
    rw [copyStores, if_neg hne]
    have hd : src + UInt32.ofNat δ + 1 = src + 1 + UInt32.ofNat δ := by
      rw [UInt32.add_assoc, UInt32.add_assoc, UInt32.add_comm (UInt32.ofNat δ)]
    have hw' : ∀ i < δ, store8 m (src + UInt32.ofNat δ) (m src) (src + 1 + UInt32.ofNat i) ≠ 0 := by
      intro i hi
      rw [store8_apply, ← ofNat_succ_add]
      split
      · exact hne
      · next hout =>
        rcases Nat.lt_or_ge (i + 1) δ with hlt | hge
        · exact hw (i + 1) hlt
        · exact absurd (by rw [show i + 1 = δ by omega]) hout
    rw [hd]
    obtain ⟨hlen, hleft⟩ := ih hw'
    exact ⟨by simp only [List.length_cons, hlen], hleft⟩

/-- A string has no more bytes than there are addresses. -/
theorem IsString.len_lt (hs : IsString m src len) : len < 2 ^ 32 := by
  by_contra hge
  apply hs.byte (len - 2 ^ 32) (by omega)
  rw [show UInt32.ofNat (len - 2 ^ 32) = UInt32.ofNat len from ?_]
  · exact hs.terminator
  · apply UInt32.toNat_inj.1
    rw [UInt32.toNat_ofNat', UInt32.toNat_ofNat']
    omega

/-- The stores when the string ends before the count does. -/
theorem strncpyStores_of_lt (hs : IsString m src len) (hk : Kept src len dest)
    (hlen : len < n.toNat) : strncpyStores m dest src n =
      copied m dest src len ++ fillStores (n.toNat - len - 1) (dest + UInt32.ofNat len) := by
  have hn := n.toNat_lt
  rw [strncpyStores, copyStores_string hs hs.len_lt hk]
  simp only [if_pos hlen, Nat.min_eq_right (Nat.le_of_lt hlen), copied_length]
  rw [UInt32.toNat_ofNat', Nat.mod_eq_of_lt (by omega)]

/-- The first loop runs to the end of the count. -/
theorem copyStores_whole (hs : IsString m src len) (h : ¬ (len < n.toNat ∧ Kept src len dest)) :
    (copyStores n.toNat m dest src).1.length = n.toNat ∧
      (copyStores n.toNat m dest src).2 = 0xFFFFFFFF := by
  by_cases hk : Kept src len dest
  · have hlen : ¬ len < n.toNat := fun hlen => h ⟨hlen, hk⟩
    rw [copyStores_string hs hs.len_lt hk, if_neg hlen, copied_length]
    exact ⟨by omega, rfl⟩
  · obtain ⟨hne, hle⟩ := not_or.1 hk
    have hd : dest = src + UInt32.ofNat (dest - src).toNat := by
      rw [UInt32.ofNat_toNat, UInt32.add_comm, UInt32.sub_add_cancel]
    have hpos : 0 < (dest - src).toNat := by
      rcases Nat.eq_zero_or_pos (dest - src).toNat with hz | hpos
      · rw [hz, add_ofNat_zero] at hd
        exact absurd hd hne
      · exact hpos
    rw [hd]
    exact copyStores_overrun hpos (fun i hi => hs.byte i (by omega)) _

/-- Where the stores are: short of `n` by one, or far beyond. -/
theorem strncpyStores_fst_string (hs : IsString m src len) :
    (strncpyStores m dest src n).map Prod.fst = bytesFrom dest
      (if len < n.toNat ∧ Kept src len dest then n.toNat - 1 else n.toNat + (2 ^ 32 - 1)) := by
  split
  · next h =>
    rw [strncpyStores_of_lt hs h.2 h.1, List.map_append, copied_fst, fillStores_fst,
      bytesFrom_append]
    congr 1
    omega
  · next h =>
    obtain ⟨hfst, -⟩ := copyStores_spec n.toNat m dest src
    obtain ⟨hlen, hleft⟩ := copyStores_whole hs h
    rw [strncpyStores]
    simp only [List.map_append, hfst, fillStores_fst, bytesFrom_append, hlen, hleft]
    rfl

/-- `strncpy` stays within its `n` bytes, and within any few more, exactly when the string ends
before the count does. -/
theorem strncpyStores_within {k : Nat} (hs : IsString m src len) (hk : n.toNat ≤ k)
    (hk' : k < n.toNat + (2 ^ 32 - 1)) (hk32 : k < 2 ^ 32) :
    (∀ a ∈ (strncpyStores m dest src n).map Prod.fst, a ∈ bytesFrom dest k) ↔
      len < n.toNat ∧ Kept src len dest := by
  rw [strncpyStores_fst_string hs]
  constructor
  · intro h
    by_contra hno
    rw [if_neg hno] at h
    obtain ⟨j, hj, he⟩ := mem_bytesFrom.1 (h (dest + UInt32.ofNat k) (mem_bytesFrom.2 ⟨k, hk', rfl⟩))
    have := add_ofNat_inj hk32 (by omega) he
    omega
  · intro h a ha
    rw [if_pos h, mem_bytesFrom] at ha
    obtain ⟨j, hj, rfl⟩ := ha
    exact mem_bytesFrom.2 ⟨j, by omega, rfl⟩

/-! ## What they leave -/

theorem applyStores_append (m : Mem) (l r : Stores) :
    applyStores m (l ++ r) = applyStores (applyStores m l) r := List.foldl_append ..

theorem applyStores_of_notMem {log : Stores} (h : a ∉ log.map Prod.fst) :
    applyStores m log a = m a := by
  induction log generalizing m with
  | nil => rfl
  | cons s log ih =>
    rw [List.map_cons, List.mem_cons, not_or] at h
    change applyStores (store8 m s.1 s.2) log a = m a
    rw [ih h.2, store8_apply, if_neg h.1]

theorem notMem_bytesFrom_succ {k : Nat} (hk : k < 2 ^ 32) : d ∉ bytesFrom (d + 1) k := by
  rw [mem_bytesFrom]
  rintro ⟨j, hj, he⟩
  rw [← ofNat_succ_add] at he
  have := add_ofNat_inj (a := d) (j := 0) (k := j + 1) (by omega) (by omega) (by simpa using he)
  omega

theorem applyStores_copied {m₁ : Mem} (hk : k < 2 ^ 32) (hj : j < k) :
    applyStores m₁ (copied m d src k) (d + UInt32.ofNat j) = m (src + UInt32.ofNat j) := by
  induction k generalizing d src j m₁ with
  | zero => omega
  | succ k ih =>
    change applyStores (store8 m₁ d (m src)) (copied m (d + 1) (src + 1) k) _ = _
    cases j with
    | zero =>
      rw [add_ofNat_zero, add_ofNat_zero, applyStores_of_notMem, store8_apply,
        if_pos rfl]
      rw [copied_fst]
      exact notMem_bytesFrom_succ (by omega)
    | succ j =>
      rw [ofNat_succ_add, ofNat_succ_add]
      exact ih (by omega) (by omega)

theorem applyStores_fill (hk : k < 2 ^ 32) (hj : j < k) :
    applyStores m (fillStores k d) (d + UInt32.ofNat j) = 0 := by
  induction k generalizing d j m with
  | zero => omega
  | succ k ih =>
    change applyStores (store8 m d 0) (fillStores k (d + 1)) _ = _
    cases j with
    | zero =>
      rw [add_ofNat_zero, applyStores_of_notMem, store8_apply, if_pos rfl]
      rw [fillStores_fst]
      exact notMem_bytesFrom_succ (by omega)
    | succ j =>
      rw [ofNat_succ_add]
      exact ih (by omega) (by omega)

/-- The memory behind a copy of a string that ends before the count does: the string, NULs, and
from byte `n - 1` on what was there. -/
theorem strncpy_of_lt (hs : IsString m src len) (hkept : Kept src len dest)
    (hlen : len < n.toNat) {k : Nat} (hk : k < 2 ^ 32) :
    strncpy m dest src n (dest + UInt32.ofNat k) =
      if k < len then m (src + UInt32.ofNat k)
      else if k + 1 < n.toNat then 0 else m (dest + UInt32.ofNat k) := by
  have hn := n.toNat_lt
  have hcopied : len ≤ k → dest + UInt32.ofNat k ∉ (copied m dest src len).map Prod.fst := by
    intro hle
    rw [copied_fst, mem_bytesFrom]
    rintro ⟨j, hj, he⟩
    have := add_ofNat_inj hk (by omega) he
    omega
  have hfill : k < len ∨ ¬ k + 1 < n.toNat → dest + UInt32.ofNat k ∉
      (fillStores (n.toNat - len - 1) (dest + UInt32.ofNat len)).map Prod.fst := by
    intro hout
    rw [fillStores_fst, mem_bytesFrom]
    rintro ⟨j, hj, he⟩
    rw [UInt32.add_assoc, ← UInt32.ofNat_add] at he
    have := add_ofNat_inj hk (by omega) he
    omega
  rw [strncpy, strncpyStores_of_lt hs hkept hlen, applyStores_append]
  split
  · next hlt => rw [applyStores_of_notMem (hfill (.inl hlt)), applyStores_copied (by omega) hlt]
  · next hge =>
    split
    · next hfilled =>
      have he : dest + UInt32.ofNat k = dest + UInt32.ofNat len + UInt32.ofNat (k - len) := by
        rw [UInt32.add_assoc, ← UInt32.ofNat_add, Nat.add_sub_cancel' (by omega)]
      rw [he]
      exact applyStores_fill (by omega) (by omega)
    · next hout =>
      rw [applyStores_of_notMem (hfill (.inr hout)),
        applyStores_of_notMem (hcopied (Nat.le_of_not_lt hge))]

end HaoSys.Mm
