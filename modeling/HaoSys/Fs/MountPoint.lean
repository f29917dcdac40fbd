import HaoSys.Mm.Strncpy
import HaoSys.Fs.MountTable

/-!
# The mount point's copy in memory

`vfs_mount` copies the mount point into the slot's 32 bytes with `strncpy` and
puts a NUL into the last of them. The table of `MountTable` holds the slot as a
value; here the copy is a sequence of stores, and a mount point that is too
long is seen to reach every other byte of the memory.
-/

namespace HaoSys.Fs

open HaoSys.Mm

variable {m : Mem} {slot point : UInt32} {len : Nat}

/-- The two statements of `vfs_mount` about `mount_point_storage[idx]`, which is at `slot`. -/
def pointStores (m : Mem) (slot point : UInt32) : Stores :=
  strncpyStores m slot point 31 ++ [(slot + 31, 0)]

theorem pointStores_within (hs : IsString m point len) :
    (∀ a ∈ (pointStores m slot point).map Prod.fst, a ∈ bytesFrom slot 32) ↔
      len < 31 ∧ Kept point len slot := by
  have h31 : UInt32.toNat 31 = 31 := rfl
  have hw : (∀ a ∈ (strncpyStores m slot point 31).map Prod.fst, a ∈ bytesFrom slot 32) ↔ _ :=
    strncpyStores_within hs (by omega) (by omega) (by omega)
  rw [h31] at hw
  rw [← hw, pointStores, List.map_append]
  constructor
  · intro h a ha
    exact h a (List.mem_append_left _ ha)
  · intro h a ha
    rcases List.mem_append.1 ha with ha | ha
    · exact h a ha
    · rw [List.map_singleton, List.mem_singleton] at ha
      exact mem_bytesFrom.2 ⟨31, by omega, ha⟩

/-- The slot's bytes in the memory. -/
def Storage.At (st : Storage) (m : Mem) (slot : UInt32) : Prop :=
  ∀ k : Fin 32, m (slot + UInt32.ofNat k.val) = st k

/-- The string of a path in the memory. -/
structure StringAt (m : Mem) (src : UInt32) (s : List UInt8) : Prop extends
    IsString m src s.length where
  spells : ∀ k, k < s.length → m (src + UInt32.ofNat k) = s.getD k 0

/-- Where the table's copy succeeds, the copy in memory leaves the same bytes in the slot. -/
theorem pointStores_storage {st st' : Storage} {s : List UInt8} (hst : st.At m slot)
    (hs : StringAt m point s) (hk : Kept point s.length slot) (h : strncpy st s 31 = .ok st') :
    Storage.At (Function.update st' 31 0) (applyStores m (pointStores m slot point)) slot := by
  have hlen := strncpy_length h
  unfold strncpy at h
  rw [if_pos hlen] at h
  cases h
  intro k
  rw [pointStores, applyStores_append]
  change store8 (Mm.strncpy m slot point 31) (slot + 31) 0 _ = _
  rw [store8_apply]
  by_cases hlast : k = 31
  · subst hlast
    rw [if_pos (by rfl), Function.update_self]
  · have hne : slot + UInt32.ofNat k.val ≠ slot + 31 := by
      intro he
      have := add_ofNat_inj (k := 31) (by omega) (by omega) he
      exact hlast (Fin.ext this)
    rw [if_neg hne, Function.update_of_ne hlast,
      strncpy_of_lt (n := 31) hs.toIsString hk hlen (by omega : k.val < 2 ^ 32),
      show UInt32.toNat 31 = 31 from rfl, hst k]
    split
    · next hlt => exact hs.spells k.val hlt
    · rfl

/-- `strncpy` never writes just its `n` bytes. It stays within them, and `vfs_mount` within the
slot, exactly when the string ends before the count does and the copying does not overwrite it. -/
theorem strncpy_never_exact (m : Mem) (dest src n : UInt32) (len : Nat) (hs : IsString m src len) :
    ¬ CopiesExactly m dest src n len ∧
      ((∀ a ∈ (strncpyStores m dest src n).map Prod.fst, a ∈ bytesFrom dest n.toNat) ↔
        len < n.toNat ∧ Kept src len dest) ∧
      ((∀ a ∈ (pointStores m dest src).map Prod.fst, a ∈ bytesFrom dest 32) ↔
        len < 31 ∧ Kept src len dest) := by
  have hn := n.toNat_lt
  exact ⟨not_copiesExactly m dest src n len,
    strncpyStores_within hs (Nat.le_refl _) (by omega) hn, pointStores_within hs⟩

/-- A string of letters that ends at 0x2000 + `len`. -/
def letters (len : Nat) : Mem := fun a => if a = 0x2000 + UInt32.ofNat len then 0 else 0x61

theorem letters_isString {len : Nat} (hlen : len < 2 ^ 32) :
    IsString (letters len) 0x2000 len := by
  refine ⟨fun k hk => ?_, ?_⟩
  · have hne : (0x2000 : UInt32) + UInt32.ofNat k ≠ 0x2000 + UInt32.ofNat len := fun he => by
      have := add_ofNat_inj (by omega) hlen he
      omega
    rw [letters, if_neg hne]
    decide
  · rw [letters, if_pos rfl]

/-- A string of two bytes and a count of five: the fifth byte is not written. -/
theorem strncpy_never_exact_two :
    IsString (letters 2) 0x2000 2 ∧ ¬ CopiesExactly (letters 2) 0x1000 0x2000 5 2 ∧
      (∀ a ∈ (strncpyStores (letters 2) 0x1000 0x2000 5).map Prod.fst, a ∈ bytesFrom 0x1000 5) :=
  have h := strncpy_never_exact (letters 2) 0x1000 0x2000 5 2 (letters_isString (by omega))
  ⟨letters_isString (by omega), h.1, h.2.1.2 ⟨by decide, by decide⟩⟩

/-- The two ways to fail: the fifth byte keeps its value, and a mount point of 31 bytes is cleared
out of the memory with all that is beside the slot. -/
theorem strncpy_strays :
    Mm.strncpy (letters 2) 0x1000 0x2000 5 0x1004 = 0x61 ∧
      ¬ (∀ m dest src n len, IsString m src len → CopiesExactly m dest src n len) ∧
      ¬ (∀ m slot point len, IsString m point len →
        ∀ a ∈ (pointStores m slot point).map Prod.fst, a ∈ bytesFrom slot 32) := by
  refine ⟨?_, fun h => ?_, fun h => ?_⟩
  · have hfifth : Mm.strncpy (letters 2) 0x1000 0x2000 5 (0x1000 + UInt32.ofNat 4) = _ :=
      strncpy_of_lt (letters_isString (show 2 < 2 ^ 32 by omega)) (by decide) (by decide) (by omega)
    rw [if_neg (by omega), if_neg (by decide)] at hfifth
    exact hfifth.trans (by decide)
  · exact not_copiesExactly (letters 2) 0x1000 0x2000 5 2 (h _ _ _ _ _ (letters_isString (by omega)))
  · have hstring : IsString (letters 31) 0x2000 31 := letters_isString (by omega)
    have := (pointStores_within hstring).1 (h _ 0x1000 _ _ hstring)
    omega

end HaoSys.Fs
