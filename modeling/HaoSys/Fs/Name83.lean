import HaoSys.Fs.Path

/-!
# 8.3 names and readable names

`make_83_name` pads the two parts of a name with spaces; `cmd_ls` of the shell
takes the spaces at their ends away again and puts the dot back. On names that
fit (`Fits83`) the second undoes the first up to upper case, so that two of
them give the same directory name only if they are the same upper-cased.
-/

namespace HaoSys.Fs

open HaoSys.Lib Prog

/-! ## The readable name -/

/-- Byte `k` of an 11-byte name. -/
def Name83.byte (n : Name83) (k : Nat) : UInt8 := n (Fin.ofNat 11 k)

/-- `while (len > 0 && name[o + len - 1] == ' ') len--;`. -/
def trimmedLen (n : Name83) (o : Nat) : Nat → Nat
  | 0 => 0
  | len + 1 => if n.byte (o + len) = 0x20 then trimmedLen n o len else len + 1

/-- The name that `cmd_ls` shows. -/
def displayName (n : Name83) : List UInt8 :=
  let mainLen := trimmedLen n 0 8
  let extLen := trimmedLen n 8 3
  (List.range mainLen).map n.byte ++
    if extLen > 0 then 0x2E :: (List.range extLen).map fun j => n.byte (8 + j) else []

variable {n : Name83} {o len k : Nat} {base ext s t : List UInt8}

theorem trimmedLen_le (n : Name83) (o len : Nat) : trimmedLen n o len ≤ len := by
  induction len with
  | zero => exact Nat.le_refl 0
  | succ len ih =>
    rw [trimmedLen]
    split
    · exact Nat.le_succ_of_le ih
    · exact Nat.le_refl _

/-- Behind the trimmed length there are spaces. -/
theorem byte_of_trimmedLen_le (hk : trimmedLen n o len ≤ k) (hlen : k < len) :
    n.byte (o + k) = 0x20 := by
  induction len with
  | zero => omega
  | succ len ih =>
    rw [trimmedLen] at hk
    split at hk
    · next hspace =>
      rcases Nat.lt_or_ge k len with hlt | hge
      · exact ih hk hlt
      · rwa [show k = len by omega]
    · omega

/-- A length behind which there are spaces, and in front of it none, is the trimmed one. -/
theorem trimmedLen_eq (hk : k ≤ len) (hspaces : ∀ j, k ≤ j → j < len → n.byte (o + j) = 0x20)
    (hlast : 0 < k → n.byte (o + (k - 1)) ≠ 0x20) : trimmedLen n o len = k := by
  induction len with
  | zero => exact (Nat.le_zero.1 hk).symm
  | succ len ih =>
    rw [trimmedLen]
    rcases Nat.lt_or_ge k (len + 1) with hlt | hge
    · rw [if_pos (hspaces len (by omega) (by omega))]
      exact ih (by omega) fun j hj hj' => hspaces j hj (by omega)
    · obtain rfl : k = len + 1 := by omega
      rw [if_neg (by simpa using hlast)]

/-! ## Names in two parts -/

/-- An extension with its dot. -/
def dotted (ext : List UInt8) : List UInt8 := if ext = [] then [] else 0x2E :: ext

/-- Up to eight bytes, none of them a dot, and up to three behind a dot; neither part ends in a
space. -/
structure Fits83 (base ext : List UInt8) : Prop where
  base_length : base.length ≤ 8
  ext_length : ext.length ≤ 3
  base_dot : 0x2E ∉ base
  base_last : base.getLast? ≠ some 0x20
  ext_last : ext.getLast? ≠ some 0x20

theorem takeWhile_base (h : 0x2E ∉ base) (ext : List UInt8) :
    (base ++ dotted ext).takeWhile (fun b => decide (b ≠ 0x2E)) = base := by
  have hall : ∀ b ∈ base, decide (b ≠ 0x2E) = true := fun b hb => by
    simp only [decide_eq_true_eq]
    rintro rfl
    exact h hb
  rw [List.takeWhile_append_of_pos hall]
  unfold dotted
  split
  · simp
  · rw [List.takeWhile_cons_of_neg (by simp), List.append_nil]

/-- `make_83_name` on a name in two parts. -/
theorem makeName83_parts (hlen : base.length ≤ 8) (hext : ext.length ≤ 3) (hdot : 0x2E ∉ base)
    (j : Fin 11) : makeName83 (base ++ dotted ext) j =
      toUpper (if j.val < 8 then base.getD j.val 0x20 else ext.getD (j.val - 8) 0x20) := by
  have hbase : ((base ++ dotted ext).takeWhile fun b => decide (b ≠ 0x2E)).take 8 = base := by
    rw [takeWhile_base hdot, List.take_of_length_le hlen]
  unfold makeName83
  rw [hbase, List.drop_left]
  cases ext with
  | nil => split <;> rfl
  | cons b ext =>
    change (if j.val < 8 then _ else toUpper (((b :: ext).take 3).getD (j.val - 8) 0x20)) = _
    rw [List.take_of_length_le hext]
    split <;> rfl

theorem toUpper_eq_space {x : UInt8} : toUpper x = 0x20 ↔ x = 0x20 := by
  have : ∀ x : UInt8, toUpper x = 0x20 ↔ x = 0x20 := by decide +kernel
  exact this x

theorem getD_last_ne (h : s.getLast? ≠ some 0x20) (hs : 0 < s.length) :
    s.getD (s.length - 1) 0x20 ≠ 0x20 := by
  rw [List.getLast?_eq_getElem?] at h
  rw [List.getD_eq_getElem?_getD, List.getElem?_eq_getElem (by omega), Option.getD_some]
  rw [List.getElem?_eq_getElem (by omega)] at h
  simpa using h

/-- What stands in the name for a part of it. -/
theorem map_range_getD (h : ∀ j < s.length, n.byte (o + j) = toUpper (s.getD j 0x20)) :
    (List.range s.length).map (fun j => n.byte (o + j)) = s.map toUpper := by
  apply List.ext_getElem (by simp)
  intro j h1 h2
  have hj : j < s.length := by simpa using h2
  rw [List.getElem_map, List.getElem_map, List.getElem_range, h j hj,
    List.getD_eq_getElem _ _ hj]

/-- The readable form of a name that fits is the name in upper case. -/
theorem displayName_makeName83 (h : Fits83 base ext) :
    displayName (makeName83 (base ++ dotted ext)) = (base ++ dotted ext).map toUpper := by
  have hparts := makeName83_parts h.base_length h.ext_length h.base_dot
  have hmain : ∀ j, j < 8 → (makeName83 (base ++ dotted ext)).byte (0 + j) =
      toUpper (base.getD j 0x20) := fun j hj => by
    have hval : (Fin.ofNat 11 (0 + j)).val = j := by
      rw [Fin.val_ofNat, Nat.zero_add, Nat.mod_eq_of_lt (by omega)]
    rw [Name83.byte, hparts, hval, if_pos hj]
  have htail : ∀ j, j < 3 → (makeName83 (base ++ dotted ext)).byte (8 + j) =
      toUpper (ext.getD j 0x20) := fun j hj => by
    have hval : (Fin.ofNat 11 (8 + j)).val = 8 + j := by
      rw [Fin.val_ofNat, Nat.mod_eq_of_lt (by omega)]
    rw [Name83.byte, hparts, hval, if_neg (by omega), Nat.add_sub_cancel_left]
  have hlen : ∀ (s : List UInt8) (o len : Nat), s.length ≤ len → s.getLast? ≠ some 0x20 →
      (∀ j, j < len → (makeName83 (base ++ dotted ext)).byte (o + j) = toUpper (s.getD j 0x20)) →
      trimmedLen (makeName83 (base ++ dotted ext)) o len = s.length := by
    intro s o len hs hlast hbytes
    apply trimmedLen_eq hs
    · intro j hj hj'
      rw [hbytes j hj', List.getD_eq_default _ _ hj]
      rfl
    · intro hpos
      rw [hbytes _ (by omega), Ne, toUpper_eq_space]
      exact getD_last_ne hlast hpos
  unfold displayName
  simp only
  rw [hlen base 0 8 h.base_length h.base_last hmain, hlen ext 8 3 h.ext_length h.ext_last htail,
    map_range_getD fun j hj => htail j (by have := h.ext_length; omega), List.map_append]
  congr 1
  · rw [← map_range_getD (n := makeName83 (base ++ dotted ext)) (o := 0)
      fun j hj => hmain j (by have := h.base_length; omega)]
    simp only [Nat.zero_add]
  · unfold dotted
    cases ext with
    | nil => rfl
    | cons b ext => simp [toUpper]

/-- `make_83_name` undoes what `cmd_ls` does to a name in upper case without a dot in its base. -/
theorem makeName83_displayName (hlower : ∀ j, ¬ (0x61 ≤ n j ∧ n j ≤ 0x7A))
    (hdot : ∀ j : Fin 11, j.val < 8 → n j ≠ 0x2E) : makeName83 (displayName n) = n := by
  have hupper : ∀ j, toUpper (n j) = n j := fun j => if_neg (hlower j)
  have hm := trimmedLen_le n 0 8
  have he := trimmedLen_le n 8 3
  have hparts : displayName n = (List.range (trimmedLen n 0 8)).map n.byte ++
      dotted ((List.range (trimmedLen n 8 3)).map fun j => n.byte (8 + j)) := by
    unfold displayName dotted
    cases trimmedLen n 8 3 with
    | zero => rfl
    | succ e => simp
  rw [hparts]
  funext j
  rw [makeName83_parts (by simpa using hm) (by simpa using he) fun hmem => ?_]
  · rw [← hupper j]
    congr 1
    split
    · next hj =>
      have hself : n.byte (0 + j.val) = n j := by
        rw [Name83.byte, Nat.zero_add, Fin.ofNat_val_eq_self]
      rcases Nat.lt_or_ge j.val (trimmedLen n 0 8) with hlt | hge
      · rw [List.getD_eq_getElem _ _ (by simpa using hlt), List.getElem_map, List.getElem_range,
          ← hself, Nat.zero_add]
      · rw [List.getD_eq_default _ _ (by simpa using hge), ← hself,
          byte_of_trimmedLen_le hge hj]
    · next hj =>
      have hself : n.byte (8 + (j.val - 8)) = n j := by
        rw [Name83.byte, Nat.add_sub_cancel' (by omega), Fin.ofNat_val_eq_self]
      rcases Nat.lt_or_ge (j.val - 8) (trimmedLen n 8 3) with hlt | hge
      · rw [List.getD_eq_getElem _ _ (by simpa using hlt), List.getElem_map, List.getElem_range,
          hself]
      · rw [List.getD_eq_default _ _ (by simpa using hge), ← hself,
          byte_of_trimmedLen_le hge (by omega)]
  · obtain ⟨i, hi, hbyte⟩ := List.mem_map.1 hmem
    have hi := List.mem_range.1 hi
    refine hdot (Fin.ofNat 11 i) ?_ hbyte
    rw [Fin.val_ofNat, Nat.mod_eq_of_lt (by omega)]
    omega

theorem displayName_no_nul (h : ∀ j, n j ≠ 0) : (0 : UInt8) ∉ displayName n := by
  unfold displayName
  intro hmem
  rcases List.mem_append.1 hmem with hmem | hmem
  · obtain ⟨i, -, hi⟩ := List.mem_map.1 hmem
    exact h _ hi
  · split at hmem
    · rcases List.mem_cons.1 hmem with hz | hmem
      · exact absurd hz (by decide)
      · obtain ⟨i, -, hi⟩ := List.mem_map.1 hmem
        exact h _ hi
    · cases hmem

/-- **The names that `ls` shows** lead back to the directory names, and are the names the files
were given. -/
theorem display_round_trip :
    (∀ n : Name83, (∀ j, n j ≠ 0) → (∀ j, ¬ (0x61 ≤ n j ∧ n j ≤ 0x7A)) →
      (∀ j : Fin 11, j.val < 8 → n j ≠ 0x2E) →
      (0 : UInt8) ∉ displayName n ∧ makeName83 (displayName n) = n) ∧
    ∀ base ext, Fits83 base ext →
      displayName (makeName83 (base ++ dotted ext)) = (base ++ dotted ext).map toUpper :=
  ⟨fun _ hnul hlower hdot => ⟨displayName_no_nul hnul, makeName83_displayName hlower hdot⟩,
    fun _ _ h => displayName_makeName83 h⟩

/-- "A.TXT": its directory name and back. -/
theorem display_round_trip_text :
    makeName83 (displayName (makeName83 [0x41, 0x2E, 0x54, 0x58, 0x54])) =
        makeName83 [0x41, 0x2E, 0x54, 0x58, 0x54] ∧
      displayName (makeName83 ([0x61] ++ dotted [0x74, 0x78, 0x74])) =
        ([0x61] ++ dotted [0x74, 0x78, 0x74]).map toUpper :=
  ⟨(display_round_trip.1 _ (by decide) (by decide) (by decide)).2,
    display_round_trip.2 _ _ ⟨by decide, by decide, by decide, by decide, by decide⟩⟩

end HaoSys.Fs
