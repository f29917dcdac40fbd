import Mathlib

/-!
# Paths (`resolve_path` in `user/shell.c`)

The path is joined with the working directory in `raw`, taken apart into `segs`,
a stack of components of at most 15 characters, and put together in `out`. The
arrays are filled from their first element on, so what is in one is a list. A
string is its bytes before the NUL. A store outside an array has no result.
-/

namespace HaoSys.User

/-- `sizeof(raw)`. -/
def rawSize : Nat := 128

/-- The strings in `segs`, and the characters of one with its NUL. -/
def segCount : Nat := 16

def segSize : Nat := 16

def slash : UInt8 := 0x2F

def dot : UInt8 := 0x2E

/-- The first part: `raw` up to its NUL, before the NUL is stored. -/
def joinRaw (cwd input : List UInt8) : List UInt8 :=
  if input.head? = some slash then input.take (rawSize - 1)
  else
    let raw := cwd.take (rawSize - 1)
    let raw := if raw.length > 1 ∧ input ≠ [] then raw ++ [slash] else raw
    raw ++ input.take (rawSize - 1 - raw.length)

/-- What happens to the stack with a segment: `.` is dropped, `..` takes the last one off, anything
else is put on it. -/
def pushSeg (segs : List (List UInt8)) (seg : List UInt8) : List (List UInt8) :=
  if seg = [dot] then segs
  else if seg = [dot, dot] then segs.dropLast
  else segs ++ [seg]

/-- `while (raw[i] && raw[i] != '/' && s < 15)`: the segment at the head of the rest of `raw`. -/
def readSeg (raw : List UInt8) : List UInt8 := (raw.takeWhile (· ≠ slash)).take (segSize - 1)

theorem length_readSeg_cons {c : UInt8} (raw : List UInt8) (h : c ≠ slash) :
    0 < (readSeg (c :: raw)).length := by
  simp [readSeg, h, segSize]

/-- The second part, for the rest of `raw` from `i` on; the segment and its NUL are stored in
`segs[n]` before it is looked at. -/
def splitRaw (segs : List (List UInt8)) (raw : List UInt8) : Option (List (List UInt8)) :=
  match _h : raw.dropWhile (· = slash) with
  | [] => some segs
  | c :: rest =>
    let seg := readSeg (c :: rest)
    if segs.length < segCount ∧ seg.length < segSize then
      splitRaw (pushSeg segs seg) ((c :: rest).drop seg.length)
    else none
termination_by raw.length
decreasing_by
  have hc : c ≠ slash := by
    have := List.head?_dropWhile_not (· = slash) raw
    rw [_h] at this
    simpa using this
  have h1 := (List.dropWhile_sublist (l := raw) (· = slash)).length_le
  have h2 := length_readSeg_cons rest hc
  rw [_h] at h1
  rw [List.length_drop]
  simp only [List.length_cons] at h1 ⊢
  omega

/-- The third part: `o < out_size - 2` is checked before each segment and each character. -/
def joinSegs (limit : Nat) : List (List UInt8) → List UInt8 → List UInt8
  | [], out => out
  | seg :: segs, out =>
    if out.length < limit then
      let out := out ++ seg.take (limit - out.length)
      joinSegs limit segs (if segs ≠ [] then out ++ [slash] else out)
    else out

/-- `resolve_path(in, out, out_size)`: the string in `out`. -/
def resolvePath (cwd input : List UInt8) (outSize : UInt32) : Option (List UInt8) := do
  let raw := joinRaw cwd input
  if raw.length < rawSize then
    let segs ← splitRaw [] raw
    let out := joinSegs (outSize - 2).toNat segs [slash]
    if out.length < outSize.toNat then pure out else none
  else none

/-! ## The stack of components -/

/-- One component: an empty one and `.` are dropped, `..` removes the last one or nothing at the
root, any other is appended. -/
def resolveStep (stack : List (List UInt8)) (c : List UInt8) : List (List UInt8) :=
  if c = [] ∨ c = [dot] then stack else if c = [dot, dot] then stack.dropLast else stack ++ [c]

/-- Whenever a component that is not empty comes, fewer than 16 are pending. -/
def RoomFor : List (List UInt8) → List (List UInt8) → Prop
  | _, [] => True
  | stack, c :: cs => (c ≠ [] → stack.length < segCount) ∧ RoomFor (resolveStep stack c) cs

instance decidableRoomFor : ∀ stack cs, Decidable (RoomFor stack cs)
  | _, [] => .isTrue trivial
  | stack, c :: cs =>
    have := decidableRoomFor (resolveStep stack c) cs
    inferInstanceAs (Decidable (_ ∧ _))

/-- A component in parts of 15 characters. -/
def parts (c : List UInt8) : List (List UInt8) :=
  (List.range ((c.length + 14) / 15)).map fun i => (c.drop (15 * i)).take 15

/-- The segments `resolve_path` sees. -/
def pieces (raw : List UInt8) : List (List UInt8) := (raw.splitOn slash).flatMap parts

theorem parts_nil : parts [] = [] := rfl

theorem parts_of_ne_nil {c : List UInt8} (h : c ≠ []) : parts c = c.take 15 :: parts (c.drop 15) := by
  have hpos := List.length_pos_iff.2 h
  have hn : (c.length + 14) / 15 = (c.length - 15 + 14) / 15 + 1 := by omega
  unfold parts
  rw [hn, List.range_succ_eq_map, List.map_cons, List.map_map, List.length_drop]
  refine congrArg₂ _ rfl (List.map_congr_left fun i _ => ?_)
  simp only [Function.comp_apply, List.drop_drop]
  rw [Nat.mul_succ, Nat.add_comm]

theorem pieces_slash (raw : List UInt8) : pieces (slash :: raw) = pieces raw := by
  rw [pieces, List.splitOn_cons_eq_if_modifyHead, if_pos (by simp), List.flatMap_cons]
  rfl

theorem pieces_dropWhile (raw : List UInt8) : pieces (raw.dropWhile (· = slash)) = pieces raw := by
  induction raw with
  | nil => rfl
  | cons c raw ih =>
    by_cases h : c = slash
    · rw [List.dropWhile_cons_of_pos (by simpa using h), ih, h, pieces_slash]
    · rw [List.dropWhile_cons_of_neg (by simpa using h)]

/-- The component in front of a slash, or of the end. -/
theorem pieces_append {w tail : List UInt8} (hw : slash ∉ w) (ht : tail.head? = some slash ∨ tail = []) :
    pieces (w ++ tail) = parts w ++ pieces tail := by
  rcases tail with _ | ⟨c, tail⟩
  · rw [List.append_nil, pieces, List.splitOn_eq_singleton hw]
    rfl
  · have hc : c = slash := by simpa using ht
    rw [hc, pieces_slash, pieces, List.splitOn_append_cons_self_of_not_mem hw]
    rfl

/-- The segment that is read is the first piece, and the others are behind it. -/
theorem pieces_cons {c : UInt8} (h : c ≠ slash) (raw : List UInt8) :
    pieces (c :: raw) =
      readSeg (c :: raw) :: pieces ((c :: raw).drop (readSeg (c :: raw)).length) := by
  have hsplit := List.takeWhile_append_dropWhile (p := (· ≠ slash)) (l := c :: raw)
  have hw : slash ∉ (c :: raw).takeWhile (· ≠ slash) := fun hm => by
    simpa using List.mem_takeWhile_imp hm
  have ht : ((c :: raw).dropWhile (· ≠ slash)).head? = some slash ∨
      (c :: raw).dropWhile (· ≠ slash) = [] := by
    have := List.head?_dropWhile_not (· ≠ slash) (c :: raw)
    generalize (c :: raw).dropWhile (· ≠ slash) = t at this ⊢
    rcases t with _ | ⟨x, t⟩
    · exact .inr rfl
    · exact .inl (by simpa using this)
  have hne : (c :: raw).takeWhile (· ≠ slash) ≠ [] := by simp [h]
  unfold readSeg
  generalize (c :: raw).takeWhile (· ≠ slash) = w at hsplit hw hne ⊢
  generalize (c :: raw).dropWhile (· ≠ slash) = tail at hsplit ht
  rw [← hsplit, pieces_append hw ht, parts_of_ne_nil hne, List.cons_append]
  refine congrArg _ ?_
  have hdrop : (w ++ tail).drop (w.take (segSize - 1)).length = w.drop 15 ++ tail := by
    rw [List.length_take, show segSize - 1 = 15 from rfl]
    by_cases hlen : w.length ≤ 15
    · rw [Nat.min_eq_right hlen, List.drop_left, List.drop_eq_nil_of_le hlen, List.nil_append]
    · rw [Nat.min_eq_left (by omega), List.drop_append_of_le_length (by omega)]
  rw [hdrop, pieces_append (fun hm => hw (List.mem_of_mem_drop hm)) ht]

/-! ## Splitting -/

theorem pushSeg_eq {c : List UInt8} (h : c ≠ []) (segs : List (List UInt8)) :
    pushSeg segs c = resolveStep segs c := by
  simp [pushSeg, resolveStep, h]

/-- What the loop finds behind the slashes. -/
theorem pieces_of_dropWhile {c : UInt8} {rest raw : List UInt8}
    (h : raw.dropWhile (· = slash) = c :: rest) :
    readSeg (c :: rest) ≠ [] ∧
      pieces raw = readSeg (c :: rest) :: pieces ((c :: rest).drop (readSeg (c :: rest)).length) := by
  have hc : c ≠ slash := by
    have := List.head?_dropWhile_not (· = slash) raw
    rw [h] at this
    simpa using this
  refine ⟨List.length_pos_iff.1 (length_readSeg_cons rest hc), ?_⟩
  rw [← pieces_cons hc, ← h, pieces_dropWhile]

/-- The stack is what the pieces make of it, and every store is inside as long as there is room. -/
theorem splitRaw_eq (segs : List (List UInt8)) (raw : List UInt8) :
    splitRaw segs raw =
      if RoomFor segs (pieces raw) then some ((pieces raw).foldl resolveStep segs) else none := by
  fun_induction splitRaw segs raw with
  | case1 segs raw h =>
    rw [← pieces_dropWhile, h]
    rfl
  | case2 segs raw c rest h seg hroom ih =>
    obtain ⟨hseg, hpieces⟩ := pieces_of_dropWhile h
    rw [ih, pushSeg_eq hseg, hpieces, List.foldl_cons]
    refine if_congr ?_ rfl rfl
    rw [RoomFor]
    exact (and_iff_right fun _ => hroom.1).symm
  | case3 segs raw c rest h seg hroom =>
    obtain ⟨hseg, hpieces⟩ := pieces_of_dropWhile h
    rw [hpieces, if_neg]
    intro hr
    refine hroom ⟨hr.1 hseg, ?_⟩
    have : seg.length ≤ segSize - 1 := List.length_take_le _ _
    have : 0 < segSize := by decide
    omega

/-! ## Bounds -/

theorem joinRaw_length {cwd : List UInt8} (h : cwd.length ≤ 63) (input : List UInt8) :
    (joinRaw cwd input).length < rawSize := by
  unfold joinRaw
  have hsize : rawSize - 1 = 127 := rfl
  have hsize' : rawSize = 128 := rfl
  split
  · rw [List.length_take]
    omega
  · have hjoin : ∀ raw : List UInt8, raw.length ≤ 64 →
        (raw ++ input.take (rawSize - 1 - raw.length)).length < rawSize := by
      intro raw hraw
      rw [List.length_append, List.length_take]
      omega
    have hcwd : (cwd.take (rawSize - 1)).length ≤ 63 := (List.length_take_le' _ _).trans h
    refine hjoin _ ?_
    split
    · rw [List.length_append, List.length_singleton]
      omega
    · omega

theorem joinSegs_length {limit : Nat} :
    ∀ {segs : List (List UInt8)} {out : List UInt8}, out.length ≤ limit + 1 →
      (joinSegs limit segs out).length ≤ limit + 1
  | [], _, h => h
  | seg :: segs, out, h => by
    rw [joinSegs]
    split
    · refine joinSegs_length ?_
      have : (seg.take (limit - out.length)).length ≤ limit - out.length := List.length_take_le _ _
      split
      · rw [List.length_append, List.length_append, List.length_singleton]
        omega
      · rw [List.length_append]
        omega
    · exact h

/-- With `out` of 64 characters, as the callers have it, every store of `resolve_path` is inside its
array exactly if there is room in `segs` for each piece. -/
theorem resolve_path_in_bounds_iff {cwd : List UInt8} (h : cwd.length ≤ 63) (input : List UInt8) :
    (resolvePath cwd input 64).isSome ↔ RoomFor [] (pieces (joinRaw cwd input)) := by
  unfold resolvePath
  simp only [if_pos (joinRaw_length h input), splitRaw_eq]
  by_cases hroom : RoomFor [] (pieces (joinRaw cwd input))
  · have hout : ∀ segs, (joinSegs 62 segs [slash]).length < 64 :=
      fun segs => Nat.lt_succ_of_le (joinSegs_length (by simp))
    simp [hroom, hout]
  · simp [hroom]

theorem resolve_path_in_bounds_iff_a :
    (resolvePath [slash] [0x61] 64).isSome ↔ RoomFor [] (pieces (joinRaw [slash] [0x61])) :=
  resolve_path_in_bounds_iff (by decide) [0x61]

/-- `/a` seventeen times: the last component has no place. -/
def deepPath : List UInt8 := (List.replicate 17 [slash, 0x61]).flatten

theorem deep_path_overruns :
    ¬ ∀ cwd input : List UInt8, cwd.length ≤ 63 → (resolvePath cwd input 64).isSome := by
  intro h
  have hsome := h [slash] deepPath (by decide)
  have hraw : (joinRaw [slash] deepPath).length < rawSize := joinRaw_length (by decide) deepPath
  unfold resolvePath at hsome
  simp only [if_pos hraw, splitRaw_eq] at hsome
  rw [if_neg (by decide)] at hsome
  cases hsome

end HaoSys.User
