import HaoSys.Driver.Protect

/-!
# The screen as one line

Behind the boundary the screen is a line of 2000 cells: a character goes to
the cell of the cursor and moves it one on, a place that is not protected can be
reached by `vga_set_cursor`, and a line feed on the last row moves everything 80
cells up. The lower right corner, cell 1999, is never left by a character.
-/

namespace HaoSys.Driver

namespace Vga

/-- Protection is on with the boundary at cell `b`, and the cursor is on cell `p`. -/
structure At (v : Vga) (b p : Int) : Prop where
  onScreen : v.OnScreen
  enabled : v.protectionEnabled = true
  boundaryCol : 0 ≤ v.protectedCol ∧ v.protectedCol < 80
  boundary : v.protectedRow * 80 + v.protectedCol = b
  cursor : v.cursorRow * 80 + v.cursorCol = p

variable {v : Vga} {b p : Int}

theorem At.protected_iff (h : v.At b p) {row col : Int} (hc : 0 ≤ col ∧ col < 80) :
    v.isPositionProtected row col = true ↔ row * 80 + col < b := by
  have hbc := h.boundaryCol
  have hb := h.boundary
  have hnot := v.not_protected_iff row col
  unfold Behind at hnot
  rw [h.enabled] at hnot
  simp only [forall_const] at hnot
  rw [← not_iff_not, hnot]
  omega

theorem At.cursorRow_eq (h : v.At b p) : v.cursorRow = p / 80 := by
  have hc : 0 ≤ v.cursorCol ∧ v.cursorCol < 80 := h.onScreen.col
  have := h.cursor
  omega

/-! ## Characters -/

theorem advance_at (h : v.At b p) (hp : p < 1999) : v.advance.At b (p + 1) := by
  have hc : 0 ≤ v.cursorCol ∧ v.cursorCol < 80 := h.onScreen.col
  have hr : 0 ≤ v.cursorRow ∧ v.cursorRow < 25 := h.onScreen.row
  have hcur := h.cursor
  unfold advance
  simp only [show vgaWidth = 80 from rfl, show vgaHeight = 25 from rfl]
  split
  · rw [if_neg (by omega)]
    refine ⟨⟨?_, ?_, h.onScreen.boundary⟩, h.enabled, h.boundaryCol, h.boundary, ?_⟩
    · simp only [show vgaHeight = 25 from rfl]
      omega
    · simp only [show vgaWidth = 80 from rfl]
      omega
    · simp only
      omega
  · refine ⟨⟨hr, ?_, h.onScreen.boundary⟩, h.enabled, h.boundaryCol, h.boundary, ?_⟩
    · simp only [show vgaWidth = 80 from rfl]
      omega
    · simp only
      omega

/-- The screen after a character at the cursor. -/
structure Typed (v v' : Vga) (b p : Int) (cell : UInt16) : Prop where
  at_ : v'.At b (p + 1)
  mem : v'.mem = Function.update v.mem p cell
  color : v'.defaultColor = v.defaultColor

theorem advance_mem (v : Vga) : v.advance.mem = v.mem ∧ v.advance.defaultColor = v.defaultColor := by
  unfold advance
  simp only
  split
  · split <;> exact ⟨rfl, rfl⟩
  · exact ⟨rfl, rfl⟩

theorem At.putPlain (h : v.At b p) (hb : b ≤ p) (hp : p < 1999) (c color : UInt8) :
    Typed v (v.putPlain c color) b p (vgaCell color c) := by
  have hcur := h.cursor
  have hfree : ¬ v.isPositionProtected v.cursorRow v.cursorCol = true := by
    rw [h.protected_iff h.onScreen.col]
    omega
  have hset : (v.setCell v.cursorRow v.cursorCol (vgaCell color c)).At b p :=
    ⟨⟨h.onScreen.row, h.onScreen.col, h.onScreen.boundary⟩, h.enabled, h.boundaryCol, h.boundary,
      hcur⟩
  have hadv := advance_at hset hp
  obtain ⟨hmem, hcolor⟩ := advance_mem (v.setCell v.cursorRow v.cursorCol (vgaCell color c))
  unfold Vga.putPlain
  rw [if_neg hfree, scroll_of_lt (advance_row_lt (by exact h.onScreen.row.2))]
  refine ⟨⟨⟨hadv.onScreen.row, hadv.onScreen.col, hadv.onScreen.boundary⟩, hadv.enabled,
    hadv.boundaryCol, hadv.boundary, hadv.cursor⟩, ?_, hcolor⟩
  change (v.setCell v.cursorRow v.cursorCol (vgaCell color c)).advance.mem = _
  rw [hmem, ← hcur]
  rfl

/-- A character that `putchar_core` prints as it is. -/
def Plain (c : UInt8) : Prop := c ≠ 0x0A ∧ c ≠ 0x0D ∧ c ≠ 0x08 ∧ c ≠ 0x09

theorem putcharCore_plain {c : UInt8} (hc : Plain c) (color : UInt8) (v : Vga) :
    v.putcharCore c color = v.putPlain c color := by
  unfold putcharCore
  rw [if_neg hc.1, if_neg hc.2.1, if_neg hc.2.2.1, if_neg hc.2.2.2]

/-- **A text on the line**, by induction on it: it takes its own cells and no others. -/
theorem At.text {text : List UInt8} (htext : ∀ c ∈ text, Plain c) (h : v.At b p) (hb : b ≤ p)
    (hp : p + text.length ≤ 1999) :
    let v' := text.foldl (fun v c => v.putcharCore c v.defaultColor) v
    v'.At b (p + text.length) ∧ v'.defaultColor = v.defaultColor ∧
      (∀ j : Nat, ∀ c, text[j]? = some c → v'.mem (p + j) = vgaCell v.defaultColor c) ∧
      ∀ i, i < p ∨ p + text.length ≤ i → v'.mem i = v.mem i := by
  induction text generalizing v p with
  | nil =>
    refine ⟨?_, rfl, nofun, fun i _ => rfl⟩
    rw [List.length_nil, Nat.cast_zero, Int.add_zero]
    exact h
  | cons c text ih =>
    have hlen : ((c :: text).length : Int) = text.length + 1 := by
      rw [List.length_cons, Nat.cast_add, Nat.cast_one]
    have hone := h.putPlain hb (by omega) c v.defaultColor
    rw [← putcharCore_plain (htext c List.mem_cons_self)] at hone
    obtain ⟨hat, hcolor, hcells, hrest⟩ := ih (fun c' hc' => htext c' (List.mem_cons_of_mem _ hc'))
      hone.at_ (by omega) (by omega)
    simp only [List.foldl_cons]
    refine ⟨?_, hcolor.trans hone.color, fun j c' hj => ?_, fun i hi => ?_⟩
    · rw [hlen, show p + ((text.length : Int) + 1) = p + 1 + text.length by omega]
      exact hat
    · cases j with
      | zero =>
        obtain rfl := Option.some.inj hj
        rw [hrest _ (by omega), hone.mem, Nat.cast_zero, Int.add_zero, Function.update_self]
      | succ j =>
        have hcell := hcells j c' hj
        rw [hone.color] at hcell
        rw [← hcell, show p + ((j + 1 : Nat) : Int) = p + 1 + j by omega]
    · rw [hrest i (by omega), hone.mem, Function.update_of_ne (by omega)]

/-! ## The cursor -/

theorem clampTo_of_lt {n x : Int} (h : 0 ≤ x ∧ x < n) : clampTo n x = x := by
  unfold clampTo
  simp only
  rw [if_neg (by omega), if_neg (by omega)]

/-- The cursor goes where it is put, behind the boundary. -/
theorem At.setCursor (h : v.At b p) {row col : Int} (hr : 0 ≤ row ∧ row < 25)
    (hc : 0 ≤ col ∧ col < 80) (hb : b ≤ row * 80 + col) :
    (v.vgaSetCursor row col).At b (row * 80 + col) ∧ (v.vgaSetCursor row col).mem = v.mem ∧
      (v.vgaSetCursor row col).defaultColor = v.defaultColor := by
  have hfree : ¬ v.isPositionProtected row col = true := by
    rw [h.protected_iff hc]
    omega
  unfold vgaSetCursor moveTo
  rw [clampTo_of_lt (by exact hr), clampTo_of_lt (by exact hc), if_neg hfree]
  exact ⟨⟨⟨hr, hc, h.onScreen.boundary⟩, h.enabled, h.boundaryCol, h.boundary, rfl⟩, rfl, rfl⟩

/-- Before the boundary it stays. -/
theorem At.setCursor_refused (h : v.At b p) {row col : Int} (hr : 0 ≤ row ∧ row < 25)
    (hc : 0 ≤ col ∧ col < 80) (hb : row * 80 + col < b) : v.vgaSetCursor row col = v := by
  unfold vgaSetCursor moveTo
  rw [clampTo_of_lt (by exact hr), clampTo_of_lt (by exact hc), if_pos ((h.protected_iff hc).2 hb)]

/-! ## Line feeds -/

/-- A line feed on the last row, with the boundary below the first. -/
theorem At.lineFeed (h : v.At b p) (hp : 1920 ≤ p) (hb : 80 ≤ b) :
    v.newline.At (b - 80) 1920 ∧ v.newline.defaultColor = v.defaultColor ∧
      ∀ i, 0 ≤ i → i < 1920 → v.newline.mem i = v.mem (i + 80) := by
  have hrow : v.cursorRow = p / 80 := h.cursorRow_eq
  have hlt : v.cursorRow < 25 := h.onScreen.row.2
  have hpb : v.protectedRow < 25 := h.onScreen.boundary.2
  have hbc := h.boundaryCol
  have hbd := h.boundary
  have hscroll := scrolled_newline h.onScreen (show v.cursorRow + 1 = 25 by omega)
  have hfree : ¬ v.isPositionProtected (v.cursorRow + 1) 0 = true := by
    rw [h.protected_iff (by omega)]
    omega
  have hnew : v.newline.cursorRow = 24 ∧ v.newline.cursorCol = 0 ∧
      v.newline.defaultColor = v.defaultColor := by
    have hge : ¬ v.cursorRow + 1 < vgaHeight := by
      change ¬ v.cursorRow + 1 < 25
      omega
    unfold newline
    rw [if_neg hfree]
    unfold scroll
    rw [if_neg hge]
    exact ⟨rfl, rfl, rfl⟩
  obtain ⟨hnr, hnc, hcolor⟩ := hnew
  have hprow := hscroll.row
  refine ⟨⟨⟨?_, ?_, ?_⟩, hscroll.enabled.trans h.enabled, ?_, ?_, ?_⟩, hcolor,
    fun i hi hi' => hscroll.rows i hi hi'⟩
  · rw [hnr]
    decide
  · rw [hnc]
    decide
  · change 0 ≤ v.newline.protectedRow ∧ v.newline.protectedRow < 25
    omega
  · rw [hscroll.col]
    exact hbc
  · rw [hscroll.col]
    omega
  · rw [hnr, hnc]
    rfl

end Vga

end HaoSys.Driver
