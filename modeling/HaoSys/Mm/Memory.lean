import HaoSys.Lib.LittleEndian

/-!
# Physical memory

Paging is an identity map for the kernel, so the memory managers read and
write physical addresses: `Mem` gives the byte at each of the 2³² addresses.
`load32`/`store32` are the `*(uint32_t*)a` accesses of the source; the links
of the free list and the paging entries are such words.
-/

namespace HaoSys.Mm

open HaoSys.Lib

abbrev Mem := UInt32 → UInt8

/-- `*(uint32_t*)a`. -/
def load32 (m : Mem) (a : UInt32) : UInt32 := le32 (m a) (m (a + 1)) (m (a + 2)) (m (a + 3))

/-- A `uint64_t` at `a`, by value. -/
def load64 (m : Mem) (a : UInt32) : Nat := (load32 m a).toNat + 2 ^ 32 * (load32 m (a + 4)).toNat

/-- `*a = b` for a byte. -/
def store8 (m : Mem) (a : UInt32) (b : UInt8) : Mem := fun c => if c = a then b else m c

/-- `*(uint32_t*)a = v`. -/
def store32 (m : Mem) (a v : UInt32) : Mem :=
  store8 (store8 (store8 (store8 m a (byte v.toNat 0)) (a + 1) (byte v.toNat 1))
    (a + 2) (byte v.toNat 2)) (a + 3) (byte v.toNat 3)

/-- `c` is one of the four bytes of the word at `a`. -/
def InWord (a c : UInt32) : Prop := c = a ∨ c = a + 1 ∨ c = a + 2 ∨ c = a + 3

theorem store8_apply (m : Mem) (a c : UInt32) (b : UInt8) :
    store8 m a b c = if c = a then b else m c := rfl

theorem store32_apply_of_not_inWord {m : Mem} {a c v : UInt32} (h : ¬ InWord a c) :
    store32 m a v c = m c := by
  simp only [InWord, not_or] at h
  simp [store32, store8, h]

theorem load32_store8_of_not_inWord {m : Mem} {a c : UInt32} {b : UInt8} (h : ¬ InWord a c) :
    load32 (store8 m c b) a = load32 m a := by
  simp only [InWord, not_or] at h
  simp [load32, store8, Ne.symm h.1, Ne.symm h.2.1, Ne.symm h.2.2.1, Ne.symm h.2.2.2]

theorem add_ne_add {a j k : UInt32} (h : j ≠ k) : a + j ≠ a + k :=
  fun e => h (UInt32.add_right_inj a |>.1 e)

theorem load32_store32_self (m : Mem) (a v : UInt32) : load32 (store32 m a v) a = v := by
  have h1 : a ≠ a + 1 := by simp
  have h2 : a ≠ a + 2 := by simp
  have h3 : a ≠ a + 3 := by simp
  have h4 : a + 1 ≠ a + 2 := add_ne_add (by decide)
  have h5 : a + 1 ≠ a + 3 := add_ne_add (by decide)
  have h6 : a + 2 ≠ a + 3 := add_ne_add (by decide)
  simp only [load32, store32, store8, h1, h2, h3, h4, h5, h6, ↓reduceIte]
  exact le32_byte v

/-- A store leaves every word it does not share a byte with. -/
theorem load32_store32_of_disjoint {m : Mem} {a c v : UInt32} (h : ∀ b, InWord a b → ¬ InWord c b) :
    load32 (store32 m c v) a = load32 m a := by
  simp only [load32]
  rw [store32_apply_of_not_inWord (h a (.inl rfl)),
    store32_apply_of_not_inWord (h (a + 1) (.inr (.inl rfl))),
    store32_apply_of_not_inWord (h (a + 2) (.inr (.inr (.inl rfl)))),
    store32_apply_of_not_inWord (h (a + 3) (.inr (.inr (.inr rfl))))]

/-- The bytes of an aligned word lie in one aligned group of four. -/
theorem InWord.div_eq {a c : UInt32} (h : InWord a c) (ha : a.toNat % 4 = 0) :
    c.toNat / 4 = a.toNat / 4 := by
  have := a.toNat_lt
  rcases h with rfl | rfl | rfl | rfl
  · rfl
  all_goals
    simp only [UInt32.toNat_add, UInt32.toNat_ofNat]
    omega

theorem load32_store32_of_aligned_ne {m : Mem} {a c v : UInt32} (ha : a.toNat % 4 = 0)
    (hc : c.toNat % 4 = 0) (hne : a ≠ c) : load32 (store32 m c v) a = load32 m a := by
  refine load32_store32_of_disjoint fun b h1 h2 => hne ?_
  have e1 := h1.div_eq ha
  have e2 := h2.div_eq hc
  exact UInt32.toNat_inj.1 (by omega)

/-- A word inside a page is not touched by a store to a byte of another page. -/
theorem InWord.page_eq {a c : UInt32} (h : InWord a c) (ha : a.toNat % 4 = 0) :
    c.toNat / 4096 = a.toNat / 4096 := by
  have := h.div_eq ha
  omega

end HaoSys.Mm
