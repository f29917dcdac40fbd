import HaoSys.Driver.Mouse

/-!
# The protected region

Cells before the boundary are read-only: a character is either refused or goes
behind them. Only a line feed on the last row touches them, by moving the whole
screen and the boundary up one row. The cursor never enters the region, as long
as the boundary is only set at the cursor, and no routine leaves the 2000 cells
of VGA memory.
-/

namespace HaoSys.Driver

namespace Vga

/-! ## One character -/

/-- The protected cells and the boundary are as before. -/
structure Kept (v v' : Vga) : Prop where
  cells : ∀ row col, 0 ≤ row → 0 ≤ col → col < vgaWidth → v.isPositionProtected row col = true →
    v'.mem (row * vgaWidth + col) = v.mem (row * vgaWidth + col)
  row : v'.protectedRow = v.protectedRow
  col : v'.protectedCol = v.protectedCol
  enabled : v'.protectionEnabled = v.protectionEnabled

/-- The screen went up one row, and the boundary with it unless it was in the top row. -/
structure Scrolled (v v' : Vga) : Prop where
  rows : ∀ i, 0 ≤ i → i < (vgaHeight - 1) * vgaWidth → v'.mem i = v.mem (i + vgaWidth)
  last : ∀ i, (vgaHeight - 1) * vgaWidth ≤ i → i < vgaHeight * vgaWidth →
    v'.mem i = vgaCell v.defaultColor 0x20
  row : v'.protectedRow = max (v.protectedRow - 1) 0
  col : v'.protectedCol = v.protectedCol
  enabled : v'.protectionEnabled = v.protectionEnabled

theorem Kept.refl (v : Vga) : Kept v v := ⟨fun _ _ _ _ _ _ => rfl, rfl, rfl, rfl⟩

theorem isPositionProtected_congr {v v' : Vga} (hr : v'.protectedRow = v.protectedRow)
    (hc : v'.protectedCol = v.protectedCol) (he : v'.protectionEnabled = v.protectionEnabled)
    (row col : Int) : v'.isPositionProtected row col = v.isPositionProtected row col := by
  unfold isPositionProtected
  rw [hr, hc, he]

theorem Kept.isPositionProtected {v v' : Vga} (h : Kept v v') (row col : Int) :
    v'.isPositionProtected row col = v.isPositionProtected row col :=
  isPositionProtected_congr h.row h.col h.enabled row col

theorem Kept.trans {v v' v'' : Vga} (h : Kept v v') (h' : Kept v' v'') : Kept v v'' where
  cells row col hr hc hc' hp := by
    rw [h'.cells row col hr hc hc' (by rwa [h.isPositionProtected]), h.cells row col hr hc hc' hp]
  row := h'.row.trans h.row
  col := h'.col.trans h.col
  enabled := h'.enabled.trans h.enabled

/-- A state with the same memory and boundary. -/
theorem Kept.of_mem {v v' : Vga} (hm : v'.mem = v.mem) (hr : v'.protectedRow = v.protectedRow)
    (hc : v'.protectedCol = v.protectedCol) (he : v'.protectionEnabled = v.protectionEnabled) :
    Kept v v' := ⟨fun _ _ _ _ _ _ => by rw [hm], hr, hc, he⟩

/-- A write to a cell that is not protected. -/
theorem kept_setCell {v : Vga} {row col : Int} (hcol : 0 ≤ col ∧ col < vgaWidth)
    (hp : ¬ v.isPositionProtected row col = true) (cell : UInt16) :
    Kept v (v.setCell row col cell) := by
  refine ⟨fun row' col' _ hc hc' hp' => ?_, rfl, rfl, rfl⟩
  apply Function.update_of_ne
  intro he
  simp only [show vgaWidth = 80 from rfl] at he hcol hc'
  obtain ⟨rfl, rfl⟩ : row' = row ∧ col' = col := by omega
  exact hp hp'

theorem scroll_of_lt {v : Vga} (h : v.cursorRow < vgaHeight) : v.scroll = v := if_pos h

theorem advance_row_lt {v : Vga} (h : v.cursorRow < vgaHeight) : v.advance.cursorRow < vgaHeight := by
  unfold advance
  simp only
  split
  · split
    · exact Int.sub_lt_self _ (by decide)
    · next h' => exact Int.not_le.1 h'
  · exact h

theorem kept_advance (v : Vga) : Kept v v.advance := by
  unfold advance
  simp only
  split
  · split <;> exact .of_mem rfl rfl rfl rfl
  · exact .of_mem rfl rfl rfl rfl

theorem kept_putPlain {v : Vga} (h : v.OnScreen) (c color : UInt8) : Kept v (v.putPlain c color) := by
  unfold putPlain
  split
  · exact Kept.refl v
  · next hp =>
    rw [scroll_of_lt (advance_row_lt (by exact h.row.2))]
    exact ((kept_setCell h.col hp _).trans (kept_advance _)).trans (.of_mem rfl rfl rfl rfl)

theorem kept_carriageReturn {v : Vga} (h : v.OnScreen) : Kept v v.carriageReturn := by
  unfold carriageReturn
  split
  · exact Kept.refl v
  · rw [scroll_of_lt (by exact h.row.2)]
    exact .of_mem rfl rfl rfl rfl

/-- The column a backspace at the start of a row goes to. -/
theorem lastNonSpace_lt (v : Vga) (row : Int) :
    0 ≤ (v.lastNonSpace row vgaWidth.toNat).getD 0 ∧
      (v.lastNonSpace row vgaWidth.toNat).getD 0 < vgaWidth := by
  have hlast := v.lastNonSpace_bounds row 79
  have hw : vgaWidth = 80 := rfl
  change 0 ≤ (v.lastNonSpace row (79 + 1)).getD 0 ∧ (v.lastNonSpace row (79 + 1)).getD 0 < vgaWidth
  unfold lastNonSpace
  split
  · simp only [Option.getD_some]
    omega
  · omega

theorem kept_backspace {v : Vga} (h : v.OnScreen) (color : UInt8) : Kept v (v.backspace color) := by
  have hw : vgaWidth = 80 := rfl
  have hcol := h.col
  have herase : ∀ row col : Int, 0 ≤ col ∧ col < vgaWidth →
      Kept v (if v.isPositionProtected row col then v
        else updateCursor ({ v with cursorRow := row, cursorCol := col }.setCell row col
          (vgaCell color 0x20))) := by
    intro row col hc
    split
    · exact Kept.refl v
    · next hp =>
      have hmove : Kept v { v with cursorRow := row, cursorCol := col } := .of_mem rfl rfl rfl rfl
      refine (hmove.trans (kept_setCell hc ?_ _)).trans (.of_mem rfl rfl rfl rfl)
      rwa [hmove.isPositionProtected]
  unfold backspace
  simp only
  split
  · exact herase _ _ (by omega)
  · split
    · exact herase _ _ (lastNonSpace_lt v _)
    · exact Kept.refl v

/-- A line feed above the last row. -/
theorem kept_newline {v : Vga} (hrow : v.cursorRow + 1 < vgaHeight) : Kept v v.newline := by
  unfold newline
  split
  · exact Kept.refl v
  · rw [scroll_of_lt (by exact hrow)]
    exact .of_mem rfl rfl rfl rfl

/-- A line feed on the last row: the row below is not protected, and `scroll` makes it visible. -/
theorem scrolled_newline {v : Vga} (h : v.OnScreen) (hrow : v.cursorRow + 1 = vgaHeight) :
    Scrolled v v.newline := by
  have hb := h.boundary
  have hp : ¬ v.isPositionProtected (v.cursorRow + 1) 0 = true := by
    unfold isPositionProtected
    split
    · decide
    · rw [if_neg (by omega)]
      simp only [decide_eq_true_eq]
      omega
  have hge : ¬ v.cursorRow + 1 < vgaHeight := by omega
  unfold newline
  rw [if_neg hp]
  unfold scroll
  rw [if_neg hge]
  have h0 : (0 : Int) ≤ (vgaHeight - 1) * vgaWidth := by decide
  refine ⟨fun i hi hi' => if_pos ⟨hi, hi'⟩, fun i hi hi' => ?_, ?_, rfl, rfl⟩
  · change (if _ then _ else if _ then _ else _) = _
    rw [if_neg (by omega), if_pos ⟨hi, hi'⟩]
  · change (if v.protectedRow > 0 then v.protectedRow - 1 else v.protectedRow) = _
    split <;> omega

theorem onScreen_putPlain_iterate {v : Vga} (h : v.OnScreen) (c color : UInt8) (n : Nat) :
    ((putPlain c color)^[n] v).OnScreen ∧ Kept v ((putPlain c color)^[n] v) := by
  induction n generalizing v with
  | zero => exact ⟨h, Kept.refl v⟩
  | succ n ih =>
    rw [Function.iterate_succ_apply]
    obtain ⟨hs, hk⟩ := ih (onScreen_putPlain h c color)
    exact ⟨hs, (kept_putPlain h c color).trans hk⟩

/-- **One character.** -/
theorem putcharCore_protects {v : Vga} (h : v.OnScreen) (c color : UInt8) :
    if c = 0x0A ∧ v.cursorRow = vgaHeight - 1 then Scrolled v (v.putcharCore c color)
    else Kept v (v.putcharCore c color) := by
  have hh : vgaHeight = 25 := rfl
  have hrow := h.row
  unfold putcharCore
  by_cases hn : c = 0x0A
  · rw [if_pos hn]
    split
    · next hl =>
      have := hl.2
      exact scrolled_newline h (by omega)
    · next hl =>
      have : v.cursorRow ≠ vgaHeight - 1 := fun he => hl ⟨hn, he⟩
      exact kept_newline (by omega)
  · rw [if_neg (fun hl => hn hl.1), if_neg hn]
    split
    · exact kept_carriageReturn h
    split
    · exact kept_backspace h color
    split
    · exact (onScreen_putPlain_iterate h 0x20 color _).2
    · exact kept_putPlain h c color

/-! ## Strings -/

/-- The line feeds of a string that are printed on the last row. -/
def writeScrolls : List UInt8 → Vga → Nat
  | [], _ => 0
  | c :: str, v =>
    (if c = 0x0A ∧ v.cursorRow = vgaHeight - 1 then 1 else 0) +
      writeScrolls str (v.putcharCore c v.defaultColor)

/-- The protected cells went up `k` rows, as far as they are still on the screen, and the boundary
with them. -/
structure Moved (k : Nat) (v v' : Vga) : Prop where
  cells : ∀ row col, (k : Int) ≤ row → 0 ≤ col → col < vgaWidth →
    v.isPositionProtected row col = true →
    v'.mem ((row - k) * vgaWidth + col) = v.mem (row * vgaWidth + col)
  row : v'.protectedRow = max (v.protectedRow - k) 0
  col : v'.protectedCol = v.protectedCol
  enabled : v'.protectionEnabled = v.protectionEnabled

theorem Kept.moved {v v' : Vga} (h : Kept v v') (hb : 0 ≤ v.protectedRow) : Moved 0 v v' where
  cells row col hr hc hc' hp := by
    rw [Int.natCast_zero, Int.sub_zero]
    exact h.cells row col hr hc hc' hp
  row := by
    rw [h.row]
    omega
  col := h.col
  enabled := h.enabled

/-- Protected rows lie above the last one. -/
theorem protected_row_le {v : Vga} {row col : Int} (h : v.isPositionProtected row col = true) :
    row ≤ v.protectedRow := by
  unfold isPositionProtected at h
  split at h
  · cases h
  · split at h
    · omega
    · simp only [decide_eq_true_eq] at h
      omega

theorem Scrolled.moved {v v' : Vga} (h : Scrolled v v') (hb : v.protectedRow < vgaHeight) :
    Moved 1 v v' where
  cells row col hr hc hc' hp := by
    have hle := protected_row_le hp
    have hrows := h.rows ((row - 1) * vgaWidth + col)
    simp only [show vgaWidth = 80 from rfl, show vgaHeight = 25 from rfl, Nat.cast_one] at *
    rw [hrows (by omega) (by omega)]
    congr 1
    omega
  row := h.row
  col := h.col
  enabled := h.enabled

theorem Moved.trans {j k : Nat} {v v' v'' : Vga} (h : Moved j v v') (h' : Moved k v' v'') :
    Moved (j + k) v v'' where
  cells row col hr hc hc' hp := by
    have hle := protected_row_le hp
    have hrow := h.row
    -- a protected cell that is still visible is still protected
    have hp' : v'.isPositionProtected (row - j) col = true := by
      unfold isPositionProtected at hp ⊢
      rw [h.enabled, h.row, h.col]
      split at hp
      · cases hp
      · next he =>
        rw [if_neg he]
        split at hp
        · rw [if_pos (by omega)]
        · simp only [decide_eq_true_eq] at hp
          rw [if_neg (by omega)]
          simp only [decide_eq_true_eq]
          omega
    have hcell := h'.cells (row - j) col (by omega) hc hc' hp'
    rw [h.cells row col (by omega) hc hc' hp] at hcell
    rw [← hcell, show row - (j : Int) - k = row - (j + k : Nat) by omega]
  row := by
    rw [h'.row, h.row]
    omega
  col := h'.col.trans h.col
  enabled := h'.enabled.trans h.enabled

/-- **A string**, by induction on it: each character moves the protected cells by none or one. -/
theorem write_moved (str : List UInt8) {v : Vga} (h : v.OnScreen) :
    Moved (v.writeScrolls str) v (str.foldl (fun v c => v.putcharCore c v.defaultColor) v) := by
  induction str generalizing v with
  | nil => exact (Kept.refl v).moved h.boundary.1
  | cons c str ih =>
    have hstep := putcharCore_protects h c v.defaultColor
    have hnext := onScreen_putcharCore h c v.defaultColor
    rw [List.foldl_cons]
    refine Moved.trans ?_ (ih hnext)
    split at hstep
    · next hl =>
      rw [if_pos hl]
      exact hstep.moved h.boundary.2
    · next hl =>
      rw [if_neg hl]
      exact hstep.moved h.boundary.1

end Vga

namespace Console

theorem logical_onScreen {s : Console} (h : s.vga.OnScreen) : s.logical.OnScreen := by
  unfold logical
  split
  · exact ⟨h.row, h.col, h.boundary⟩
  · exact h

theorem logical_cursorRow (s : Console) : s.logical.cursorRow = s.vga.cursorRow := by
  unfold logical
  split <;> rfl

end Console

/-- **Protected output is read-only.** In every state that a run reaches, with or without
protection, a character leaves the protected cells and the boundary, except that a line feed on the
last row scrolls the screen by one row; and a string moves them up by the number of its line feeds
that do so. Cells are those of the logical screen, without the mouse pointer. -/
theorem protected_output_read_only (mem : Int → UInt16) (ops : List ConsoleOp) :
    let s := (Console.boot mem).run ops
    (∀ c, if c = 0x0A ∧ s.vga.cursorRow = vgaHeight - 1
      then Vga.Scrolled s.logical (s.vgaPutchar c).logical
      else Vga.Kept s.logical (s.vgaPutchar c).logical) ∧
    ∀ str, Vga.Moved (s.logical.writeScrolls str) s.logical (s.vgaWrite str).logical := by
  intro s
  have hok : s.Ok := Console.run_ok (Console.boot_ok mem) ops
  have hon : s.logical.OnScreen := Console.logical_onScreen hok.vga
  refine ⟨fun c => ?_, fun str => ?_⟩
  · have hput := Vga.putcharCore_protects hon c s.logical.defaultColor
    rw [Console.logical_cursorRow] at hput
    rwa [show (s.vgaPutchar c).logical = _ from Console.runText_logical s (.putchar c)]
  · rw [show (s.vgaWrite str).logical = _ from Console.runText_logical s (.write str)]
    exact Vga.write_moved str hon

/-! ## The cursor and the region -/

namespace Vga

/-- The place is not protected, in terms of the boundary. -/
def Behind (v : Vga) (row col : Int) : Prop :=
  v.protectionEnabled = true →
    v.protectedRow < row ∨ v.protectedRow = row ∧ v.protectedCol ≤ col

theorem not_protected_iff (v : Vga) (row col : Int) :
    ¬ v.isPositionProtected row col = true ↔ v.Behind row col := by
  unfold isPositionProtected Behind
  cases v.protectionEnabled with
  | false => simp
  | true =>
    simp only [Bool.not_true, Bool.false_eq_true, if_false, forall_const]
    by_cases hr : row < v.protectedRow
    · rw [if_pos hr]
      simp only [not_true_eq_false, false_iff]
      omega
    · rw [if_neg hr]
      simp only [decide_eq_true_eq]
      omega

/-- The cursor is not in the protected region. -/
def CursorFree (v : Vga) : Prop := v.Behind v.cursorRow v.cursorCol

theorem cursorFree_moveTo {v : Vga} (h : v.CursorFree) (row col : Int) :
    (v.moveTo row col).CursorFree := by
  unfold moveTo
  split
  · exact h
  · next hp => exact (not_protected_iff v row col).1 hp

theorem cursorFree_advance {v : Vga} (hs : v.OnScreen) (h : v.CursorFree) :
    v.advance.CursorFree := by
  have hw : vgaWidth = 80 := rfl
  have hh : vgaHeight = 25 := rfl
  have hcol := hs.col
  have hrow := hs.row
  have hk := kept_advance v
  intro he
  have hpos := h (hk.enabled.symm.trans he)
  rw [hk.row, hk.col]
  unfold advance
  simp only
  split
  · split
    · simp only
      omega
    · simp only
      omega
  · simp only
    omega

theorem cursorFree_putPlain {v : Vga} (hs : v.OnScreen) (h : v.CursorFree) (c color : UInt8) :
    (v.putPlain c color).CursorFree := by
  unfold putPlain
  split
  · exact h
  · rw [scroll_of_lt (advance_row_lt (by exact hs.row.2))]
    have hset : (v.setCell v.cursorRow v.cursorCol (vgaCell color c)).OnScreen :=
      ⟨hs.row, hs.col, hs.boundary⟩
    exact cursorFree_advance hset h

theorem cursorFree_newline {v : Vga} (hs : v.OnScreen) (h : v.CursorFree) : v.newline.CursorFree := by
  unfold newline
  split
  · exact h
  · next hp =>
    rw [not_protected_iff] at hp
    unfold scroll
    split
    · exact hp
    · -- the cursor is on the last row, and the boundary above it
      intro _
      have hh : vgaHeight = 25 := rfl
      have hb := hs.boundary
      refine .inl ?_
      change (if v.protectedRow > 0 then v.protectedRow - 1 else v.protectedRow) < vgaHeight - 1
      split <;> omega

theorem cursorFree_backspace {v : Vga} (h : v.CursorFree) (color : UInt8) :
    (v.backspace color).CursorFree := by
  have herase : ∀ row col : Int,
      (if v.isPositionProtected row col then v
        else updateCursor ({ v with cursorRow := row, cursorCol := col }.setCell row col
          (vgaCell color 0x20))).CursorFree := by
    intro row col
    split
    · exact h
    · next hp => exact (not_protected_iff v row col).1 hp
  unfold backspace
  simp only
  split
  · exact herase _ _
  · split
    · exact herase _ _
    · exact h

theorem cursorFree_putcharCore {v : Vga} (hs : v.OnScreen) (h : v.CursorFree) (c color : UInt8) :
    (v.putcharCore c color).CursorFree := by
  unfold putcharCore
  split
  · exact cursorFree_newline hs h
  split
  · unfold carriageReturn
    split
    · exact h
    · next hp =>
      rw [scroll_of_lt (by exact hs.row.2)]
      exact (not_protected_iff v v.cursorRow 0).1 hp
  split
  · exact cursorFree_backspace h color
  split
  · generalize v.tabSpaces = n
    induction n generalizing v with
    | zero => exact h
    | succ n ih => exact ih (onScreen_putPlain hs 0x20 color) (cursorFree_putPlain hs h 0x20 color)
  · exact cursorFree_putPlain hs h c color

/-! ## The cells a routine uses -/

/-- The scan for the end of the text of a row, from column `n - 1` down. -/
def scanCells (v : Vga) (row : Int) : Nat → List Int
  | 0 => []
  | n + 1 => (row * vgaWidth + n) ::
    if v.mem (row * vgaWidth + n) &&& 0xFF ≠ 0x20 then [] else scanCells v row n

/-- `scroll`: each cell is read and written one row further up, and the last row is blanked. -/
def scrollCells (v : Vga) : List Int :=
  if v.cursorRow < vgaHeight then []
  else (List.range (vgaWidth * vgaHeight).toNat).map Int.ofNat

def newlineCells (v : Vga) : List Int :=
  if v.isPositionProtected (v.cursorRow + 1) 0 then []
  else scrollCells { v with cursorRow := v.cursorRow + 1, cursorCol := 0 }

def carriageReturnCells (v : Vga) : List Int :=
  if v.isPositionProtected v.cursorRow 0 then [] else scrollCells { v with cursorCol := 0 }

def backspaceCells (v : Vga) : List Int :=
  let erase (row col : Int) : List Int :=
    if v.isPositionProtected row col then [] else [row * vgaWidth + col]
  if v.cursorCol > 0 then erase v.cursorRow (v.cursorCol - 1)
  else if v.cursorRow > 0 then
    v.scanCells (v.cursorRow - 1) vgaWidth.toNat ++
      erase (v.cursorRow - 1) ((v.lastNonSpace (v.cursorRow - 1) vgaWidth.toNat).getD 0)
  else []

def plainCells (c color : UInt8) (v : Vga) : List Int :=
  if v.isPositionProtected v.cursorRow v.cursorCol then []
  else (v.cursorRow * vgaWidth + v.cursorCol) ::
    scrollCells (v.setCell v.cursorRow v.cursorCol (vgaCell color c)).advance

/-- The cells `putchar_core` uses. -/
def putcharCells (c color : UInt8) (v : Vga) : List Int :=
  if c = 0x0A then v.newlineCells
  else if c = 0x0D then v.carriageReturnCells
  else if c = 0x08 then v.backspaceCells
  else if c = 0x09 then
    (List.range v.tabSpaces).flatMap fun k => plainCells 0x20 color ((putPlain 0x20 color)^[k] v)
  else v.plainCells c color

/-- The index of a cell of the screen. -/
def InMemory (i : Int) : Prop := 0 ≤ i ∧ i < 2000

theorem inMemory_cell {row col : Int} (hr : 0 ≤ row ∧ row < vgaHeight)
    (hc : 0 ≤ col ∧ col < vgaWidth) : InMemory (row * vgaWidth + col) := by
  simp only [show vgaWidth = 80 from rfl, show vgaHeight = 25 from rfl] at *
  exact ⟨by omega, by omega⟩

theorem inMemory_scrollCells (v : Vga) : ∀ i ∈ v.scrollCells, InMemory i := by
  intro i hi
  unfold scrollCells at hi
  split at hi
  · cases hi
  · obtain ⟨n, hn, rfl⟩ := List.mem_map.1 hi
    have hlt : n < 2000 := List.mem_range.1 hn
    exact ⟨Int.natCast_nonneg n, Int.ofNat_lt.2 hlt⟩

theorem inMemory_scanCells (v : Vga) {row : Int} (hr : 0 ≤ row ∧ row < vgaHeight) {n : Nat}
    (hn : n ≤ 80) : ∀ i ∈ v.scanCells row n, InMemory i := by
  induction n with
  | zero =>
    intro i hi
    cases hi
  | succ n ih =>
    intro i hi
    unfold scanCells at hi
    rcases List.mem_cons.1 hi with rfl | hi
    · exact inMemory_cell hr ⟨Int.natCast_nonneg n, by change (n : Int) < 80; omega⟩
    · split at hi
      · cases hi
      · exact ih (by omega) i hi

theorem inMemory_plainCells {v : Vga} (h : v.OnScreen) (c color : UInt8) :
    ∀ i ∈ v.plainCells c color, InMemory i := by
  intro i hi
  unfold plainCells at hi
  split at hi
  · cases hi
  · rcases List.mem_cons.1 hi with rfl | hi
    · exact inMemory_cell h.row h.col
    · exact inMemory_scrollCells _ i hi

theorem inMemory_backspaceCells {v : Vga} (h : v.OnScreen) : ∀ i ∈ v.backspaceCells, InMemory i := by
  have hw : vgaWidth = 80 := rfl
  have hrow := h.row
  have hcol := h.col
  have herase : ∀ row col : Int, 0 ≤ row ∧ row < vgaHeight → 0 ≤ col ∧ col < vgaWidth → ∀ i,
      i ∈ (if v.isPositionProtected row col then [] else [row * vgaWidth + col]) → InMemory i := by
    intro row col hr hc i hi
    split at hi
    · cases hi
    · rw [List.mem_singleton.1 hi]
      exact inMemory_cell hr hc
  intro i hi
  unfold backspaceCells at hi
  simp only at hi
  split at hi
  · exact herase _ _ hrow (by omega) i hi
  · split at hi
    · rcases List.mem_append.1 hi with hi | hi
      · exact inMemory_scanCells v (by omega) (Nat.le_refl 80) i hi
      · exact herase _ _ (by omega) (lastNonSpace_lt v _) i hi
    · cases hi

theorem inMemory_putcharCells {v : Vga} (h : v.OnScreen) (c color : UInt8) :
    ∀ i ∈ v.putcharCells c color, InMemory i := by
  intro i hi
  unfold putcharCells at hi
  split at hi
  · unfold newlineCells at hi
    split at hi
    · cases hi
    · exact inMemory_scrollCells _ i hi
  split at hi
  · unfold carriageReturnCells at hi
    split at hi
    · cases hi
    · exact inMemory_scrollCells _ i hi
  split at hi
  · exact inMemory_backspaceCells h i hi
  split at hi
  · obtain ⟨k, -, hk⟩ := List.mem_flatMap.1 hi
    exact inMemory_plainCells (onScreen_putPlain_iterate h 0x20 color k).1 0x20 color i hk
  · exact inMemory_plainCells h c color i hi

end Vga

namespace Console

/-- The cell of an active pointer. -/
def pointerCells (s : Console) : List Int :=
  if s.mouse.pointerActive then [s.mouse.pointerRow * vgaWidth + s.mouse.pointerCol] else []

/-- The cells `putchar_core` uses, with the one of the pointer it erases. -/
def putcharCells (c color : UInt8) (s : Console) : List Int :=
  s.pointerCells ++ s.mousePointerErase.vga.putcharCells c color

/-- The cells of a string, printed in the color that `color` gives. -/
def writeCells (color : Console → UInt8) : List UInt8 → Console → List Int
  | [], _ => []
  | c :: str, s =>
    s.putcharCells c (color s) ++ writeCells color str (s.putcharCore c (color s))

/-- The cells an operation uses. Mouse input only uses those of the pointer, before and after. -/
def opCells (s : Console) : ConsoleOp → List Int
  | .text (.putchar c) => s.putcharCells c s.vga.defaultColor
  | .text (.write str) => s.writeCells (fun s => s.vga.defaultColor) str
  | .text (.writeColor str color) => s.writeCells (fun _ => color) str
  | .text .clear => s.pointerCells ++ (List.range (vgaWidth * vgaHeight).toNat).map Int.ofNat
  | .text _ => []
  | .input op => s.pointerCells ++ (s.runInput op).pointerCells

theorem inMemory_pointerCells {s : Console} (h : s.Ok) : ∀ i ∈ s.pointerCells, Vga.InMemory i := by
  intro i hi
  unfold pointerCells at hi
  split at hi
  · rw [List.mem_singleton.1 hi]
    exact Vga.inMemory_cell h.mouse.pointer.1 h.mouse.pointer.2
  · cases hi

theorem inMemory_putcharCells {s : Console} (h : s.Ok) (c color : UInt8) :
    ∀ i ∈ s.putcharCells c color, Vga.InMemory i := by
  intro i hi
  rcases List.mem_append.1 hi with hi | hi
  · exact inMemory_pointerCells h i hi
  · exact Vga.inMemory_putcharCells (ok_mousePointerErase h).vga c color i hi

theorem inMemory_writeCells (color : Console → UInt8) (str : List UInt8) {s : Console} (h : s.Ok) :
    ∀ i ∈ s.writeCells color str, Vga.InMemory i := by
  induction str generalizing s with
  | nil =>
    intro i hi
    cases hi
  | cons c str ih =>
    intro i hi
    rcases List.mem_append.1 hi with hi | hi
    · exact inMemory_putcharCells h c _ i hi
    · exact ih (putcharCore_ok h c _) i hi

theorem inMemory_opCells {s : Console} (h : s.Ok) (op : ConsoleOp) :
    ∀ i ∈ s.opCells op, Vga.InMemory i := by
  intro i hi
  cases op with
  | input op =>
    rcases List.mem_append.1 hi with hi | hi
    · exact inMemory_pointerCells h i hi
    · exact inMemory_pointerCells (runInput_ok h op) i hi
  | text op =>
    cases op with
    | putchar c => exact inMemory_putcharCells h c _ i hi
    | write str => exact inMemory_writeCells _ str h i hi
    | writeColor str color => exact inMemory_writeCells _ str h i hi
    | clear =>
      rcases List.mem_append.1 hi with hi | hi
      · exact inMemory_pointerCells h i hi
      · obtain ⟨n, hn, rfl⟩ := List.mem_map.1 hi
        have hlt : n < 2000 := List.mem_range.1 hn
        exact ⟨Int.natCast_nonneg n, Int.ofNat_lt.2 hlt⟩
    | _ => cases hi

/-! ## Runs that set the boundary at the cursor -/

/-- The pointer plays no part in it. -/
theorem cursorFree_logical (s : Console) : s.logical.CursorFree ↔ s.vga.CursorFree := by
  unfold logical
  split <;> exact Iff.rfl

theorem cursorFree_putcharCore {s : Console} (hok : s.Ok) (h : s.vga.CursorFree) (c color : UInt8) :
    (s.putcharCore c color).vga.CursorFree := by
  rw [(putcharCore_vga c color s).1]
  exact Vga.cursorFree_putcharCore (logical_onScreen hok.vga) ((cursorFree_logical s).2 h) c color

theorem cursorFree_write (color : Console → UInt8) (str : List UInt8) {s : Console} (hok : s.Ok)
    (h : s.vga.CursorFree) :
    (str.foldl (fun s c => s.putcharCore c (color s)) s).vga.CursorFree := by
  induction str generalizing s with
  | nil => exact h
  | cons c str ih => exact ih (putcharCore_ok hok c _) (cursorFree_putcharCore hok h c _)

theorem cursorFree_runInput {s : Console} (h : s.vga.CursorFree) (op : MouseOp) :
    (s.runInput op).vga.CursorFree := by
  rw [← cursorFree_logical, runInput_logical, cursorFree_logical]
  exact h

/-- The operation does not place the boundary anywhere but at the cursor. -/
def BoundaryAtCursor : ConsoleOp → Prop
  | .text (.setProtectedPosition _ _) => False
  | _ => True

theorem cursorFree_step {s : Console} (hok : s.Ok) (h : s.vga.CursorFree) {op : ConsoleOp}
    (hop : BoundaryAtCursor op) : (s.step op).vga.CursorFree := by
  cases op with
  | input op => exact cursorFree_runInput h op
  | text op =>
    cases op with
    | putchar c => exact cursorFree_putcharCore hok h c _
    | write str => exact cursorFree_write (fun s => s.vga.defaultColor) str hok h
    | writeColor str color => exact cursorFree_write (fun _ => color) str hok h
    | clear =>
      intro he
      cases he
    | setCursor row col => exact Vga.cursorFree_moveTo h _ _
    | protectBeforeCursor =>
      intro _
      have hclamp : ∀ {n x : Int}, 0 ≤ x ∧ x < n → clampTo n x = x := by
        intro n x hx
        unfold clampTo
        simp only
        rw [if_neg (by omega), if_neg (by omega)]
      exact .inr ⟨hclamp hok.vga.row, (hclamp hok.vga.col).le⟩
    | setProtectedPosition row col => exact hop.elim
    | disableProtection =>
      intro he
      cases he
    | setDefaultColor color => exact h
    | moveLeft =>
      change s.vga.vgaMoveLeft.CursorFree
      unfold Vga.vgaMoveLeft
      split
      · exact Vga.cursorFree_moveTo h _ _
      · split
        · exact Vga.cursorFree_moveTo h _ _
        · exact h
    | moveRight =>
      change s.vga.vgaMoveRight.CursorFree
      unfold Vga.vgaMoveRight
      split
      · exact Vga.cursorFree_moveTo h _ _
      · split
        · exact Vga.cursorFree_moveTo h _ _
        · exact h
    | moveUp =>
      change s.vga.vgaMoveUp.CursorFree
      unfold Vga.vgaMoveUp
      split
      · exact h
      · exact Vga.cursorFree_moveTo h _ _
    | moveDown =>
      change s.vga.vgaMoveDown.CursorFree
      unfold Vga.vgaMoveDown
      split
      · exact h
      · exact Vga.cursorFree_moveTo h _ _

theorem cursorFree_run {s : Console} (hok : s.Ok) (h : s.vga.CursorFree) {ops : List ConsoleOp}
    (hops : ∀ op ∈ ops, BoundaryAtCursor op) : (s.run ops).vga.CursorFree := by
  unfold run
  induction ops generalizing s with
  | nil => exact h
  | cons op ops ih =>
    rw [List.forall_mem_cons] at hops
    exact ih (run_ok hok [op]) (cursorFree_step hok h hops.1) hops.2

/-- `vga_init` on the state at boot. -/
def vgaInit (mem : Int → UInt16) : Console := (boot mem).vgaClear

/-- **The console's invariant.** After every sequence of operations from `vga_init` that sets the
boundary only at the cursor, the cursor is on the screen and outside the protected region, and the
next operation uses only the 2000 cells of the screen. -/
theorem console_invariant (mem : Int → UInt16) (ops : List ConsoleOp)
    (hops : ∀ op ∈ ops, BoundaryAtCursor op) :
    let s := (vgaInit mem).run ops
    (0 ≤ s.vga.cursorRow ∧ s.vga.cursorRow < 25) ∧ (0 ≤ s.vga.cursorCol ∧ s.vga.cursorCol < 80) ∧
      (∀ op, ∀ i ∈ s.opCells op, 0 ≤ i ∧ i < 2000) ∧
      (s.vga.protectionEnabled = true →
        s.vga.isPositionProtected s.vga.cursorRow s.vga.cursorCol = false) := by
  intro s
  have hinit : (vgaInit mem).Ok := runText_ok (boot_ok mem) .clear
  have hok : s.Ok := run_ok hinit ops
  have hfree : s.vga.CursorFree := cursorFree_run hinit (fun he => by cases he) hops
  refine ⟨hok.vga.row, hok.vga.col, fun op => inMemory_opCells hok op, fun _ => ?_⟩
  exact Bool.eq_false_iff.2 ((Vga.not_protected_iff _ _ _).2 hfree)

/-- A prompt, protected, and a line feed behind it. -/
theorem console_invariant_prompt :
    let s := (vgaInit fun _ => 0).run [.text (.putchar 0x24), .text .protectBeforeCursor,
      .text (.putchar 0x0A)]
    (0 ≤ s.vga.cursorRow ∧ s.vga.cursorRow < 25) ∧ (0 ≤ s.vga.cursorCol ∧ s.vga.cursorCol < 80) ∧
      (∀ op, ∀ i ∈ s.opCells op, 0 ≤ i ∧ i < 2000) ∧
      (s.vga.protectionEnabled = true →
        s.vga.isPositionProtected s.vga.cursorRow s.vga.cursorCol = false) :=
  console_invariant (fun _ => 0) _ fun op hop => by
    simp only [List.mem_cons, List.not_mem_nil, or_false] at hop
    obtain rfl | rfl | rfl := hop <;> exact trivial

end Console

end HaoSys.Driver
