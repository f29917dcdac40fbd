import HaoSys.User.ResolvePath

/-!
# What a path resolves to

A canonical path is its components, each behind a slash. As long as nothing is
cut off and there is room in `segs`, `resolve_path` returns the canonical path
of the components that are left of the joined path.
-/

namespace HaoSys.User

/-- The path of the components. -/
def render (cs : List (List UInt8)) : List UInt8 := slash :: [slash].intercalate cs

structure IsComponent (c : List UInt8) : Prop where
  ne_nil : c ≠ []
  ne_dot : c ≠ [dot]
  ne_dotdot : c ≠ [dot, dot]
  no_slash : slash ∉ c

/-- A canonical absolute path. -/
def Canonical (path : List UInt8) : Prop := ∃ cs, (∀ c ∈ cs, IsComponent c) ∧ path = render cs

/-- The input joined with the working directory, nothing cut off. -/
def joined (cwd input : List UInt8) : List UInt8 :=
  if input.head? = some slash then input
  else (if cwd.length > 1 ∧ input ≠ [] then cwd ++ [slash] else cwd) ++ input

/-- The components of a path, empty ones included. -/
def comps (path : List UInt8) : List (List UInt8) := path.splitOn slash

/-- The components folded from the left. -/
def resolved (path : List UInt8) : List (List UInt8) := (comps path).foldl resolveStep []

section

variable {c path : List UInt8} {cs stack : List (List UInt8)}

/-! ## The fold -/

theorem resolveStep_nil : resolveStep stack [] = stack := if_pos (.inl rfl)

theorem IsComponent.resolveStep (h : IsComponent c) : resolveStep stack c = stack ++ [c] := by
  rw [User.resolveStep, if_neg (by simp [h.ne_nil, h.ne_dot]), if_neg h.ne_dotdot]

/-- What a step does with a component that is not empty. -/
theorem resolveStep_cases (stack : List (List UInt8)) (c : List UInt8) :
    resolveStep stack c = stack ∨ resolveStep stack c = stack.dropLast ∨
      c ≠ [] ∧ c ≠ [dot] ∧ c ≠ [dot, dot] ∧ resolveStep stack c = stack ++ [c] := by
  unfold resolveStep
  split
  · exact .inl rfl
  · next h =>
    rw [not_or] at h
    split
    · exact .inr (.inl rfl)
    · next h2 => exact .inr (.inr ⟨h.1, h.2, h2, rfl⟩)

theorem foldl_filter (cs stack : List (List UInt8)) :
    (cs.filter (· ≠ [])).foldl resolveStep stack = cs.foldl resolveStep stack := by
  induction cs generalizing stack with
  | nil => rfl
  | cons c cs ih =>
    by_cases h : c = []
    · rw [List.filter_cons_of_neg (by simpa using h), ih, List.foldl_cons, h, resolveStep_nil]
    · rw [List.filter_cons_of_pos (by simpa using h), List.foldl_cons, List.foldl_cons, ih]

theorem roomFor_filter (cs stack : List (List UInt8)) :
    RoomFor stack (cs.filter (· ≠ [])) ↔ RoomFor stack cs := by
  induction cs generalizing stack with
  | nil => rfl
  | cons c cs ih =>
    by_cases h : c = []
    · rw [List.filter_cons_of_neg (by simpa using h), ih, RoomFor, h, resolveStep_nil]
      simp
    · rw [List.filter_cons_of_pos (by simpa using h), RoomFor, RoomFor, ih]

/-- What is left is part of what there was, in its order. -/
theorem foldl_sublist (cs stack : List (List UInt8)) :
    (cs.foldl resolveStep stack).Sublist (stack ++ cs) := by
  induction cs generalizing stack with
  | nil =>
    rw [List.append_nil]
    exact .refl _
  | cons c cs ih =>
    have hstep : (resolveStep stack c).Sublist (stack ++ [c]) := by
      rcases resolveStep_cases stack c with e | e | ⟨-, -, -, e⟩ <;> rw [e]
      · exact List.sublist_append_left _ _
      · exact (List.dropLast_sublist _).trans (List.sublist_append_left _ _)
    have := (ih (resolveStep stack c)).trans (hstep.append (.refl cs))
    rwa [List.append_assoc] at this

/-- And it is proper components. -/
theorem foldl_components (hs : ∀ c ∈ stack, IsComponent c) (hcs : ∀ c ∈ cs, slash ∉ c) :
    ∀ c ∈ cs.foldl resolveStep stack, IsComponent c := by
  induction cs generalizing stack with
  | nil => exact hs
  | cons c cs ih =>
    refine ih (fun x hx => ?_) fun x hx => hcs x (List.mem_cons_of_mem _ hx)
    rcases resolveStep_cases stack c with e | e | ⟨h1, h2, h3, e⟩ <;> rw [e] at hx
    · exact hs x hx
    · exact hs x (List.mem_of_mem_dropLast hx)
    · rcases List.mem_append.1 hx with hx | hx
      · exact hs x hx
      · rw [List.mem_singleton.1 hx]
        exact ⟨h1, h2, h3, hcs c List.mem_cons_self⟩

/-- Proper components stay as they are. -/
theorem foldl_of_components (h : ∀ c ∈ cs, IsComponent c) :
    cs.foldl resolveStep stack = stack ++ cs := by
  induction cs generalizing stack with
  | nil => exact (List.append_nil _).symm
  | cons c cs ih =>
    rw [List.foldl_cons, (h c List.mem_cons_self).resolveStep,
      ih fun c hc => h c (List.mem_cons_of_mem _ hc), List.append_assoc]
    rfl

/-- With room for each there are 16 at most in the end. -/
theorem RoomFor.length_le (h : RoomFor stack cs) (hs : stack.length ≤ segCount) :
    (cs.foldl resolveStep stack).length ≤ segCount := by
  induction cs generalizing stack with
  | nil => exact hs
  | cons c cs ih =>
    refine ih h.2 ?_
    rcases resolveStep_cases stack c with e | e | ⟨h1, -, -, e⟩ <;> rw [e]
    · exact hs
    · exact (List.dropLast_sublist _).length_le.trans hs
    · rw [List.length_append]
      exact h.1 h1

theorem roomFor_of_length (h : ∀ c ∈ cs, IsComponent c)
    (hlen : stack.length + cs.length ≤ segCount) : RoomFor stack cs := by
  induction cs generalizing stack with
  | nil => trivial
  | cons c cs ih =>
    rw [List.length_cons] at hlen
    refine ⟨fun _ => by omega, ?_⟩
    rw [(h c List.mem_cons_self).resolveStep]
    refine ih (fun x hx => h x (List.mem_cons_of_mem _ hx)) ?_
    rw [List.length_append, List.length_singleton]
    omega

/-! ## Components and pieces -/

theorem not_mem_of_comps (path : List UInt8) : ∀ c ∈ comps path, slash ∉ c := by
  unfold comps
  induction path with
  | nil => simp
  | cons x path ih =>
    rw [List.splitOn_cons_eq_if_modifyHead]
    split
    · simpa using ih
    · next hx =>
      have hx : ¬ x = slash := by simpa using hx
      generalize path.splitOn slash = l at ih ⊢
      rcases l with _ | ⟨w, l⟩
      · simp
      · simp only [List.modifyHead_cons, List.mem_cons, forall_eq_or_imp] at ih ⊢
        exact ⟨by simp [Ne.symm hx, ih.1], ih.2⟩

/-- Short components are read in one piece each. -/
theorem pieces_eq_comps (h : ∀ c ∈ comps path, c.length ≤ 15) :
    pieces path = (comps path).filter (· ≠ []) := by
  unfold pieces
  change (comps path).flatMap parts = _
  generalize comps path = cs at h ⊢
  induction cs with
  | nil => rfl
  | cons c cs ih =>
    rw [List.flatMap_cons, ih fun x hx => h x (List.mem_cons_of_mem _ hx)]
    by_cases hc : c = []
    · rw [List.filter_cons_of_neg (by simpa using hc), hc, parts_nil]
      rfl
    · have hlen := h c List.mem_cons_self
      rw [List.filter_cons_of_pos (by simpa using hc), parts_of_ne_nil hc, List.take_of_length_le hlen,
        List.drop_eq_nil_of_le hlen, parts_nil]
      rfl

/-! ## The two joins -/

theorem joinRaw_eq_joined {cwd input : List UInt8} (hcwd : cwd.length < 64)
    (h : (joined cwd input).length ≤ 127) : joinRaw cwd input = joined cwd input := by
  have hsize : rawSize - 1 = 127 := rfl
  unfold joinRaw joined at *
  by_cases habs : input.head? = some slash
  · rw [if_pos habs] at h
    rw [if_pos habs, if_pos habs, List.take_of_length_le (by omega)]
  · rw [if_neg habs] at h
    rw [if_neg habs, if_neg habs, List.take_of_length_le (by omega)]
    simp only
    generalize (if cwd.length > 1 ∧ input ≠ [] then cwd ++ [slash] else cwd) = raw at h ⊢
    rw [List.length_append] at h
    rw [List.take_of_length_le (by omega)]

/-- Components that fit into `out` are put together there. -/
theorem joinSegs_eq {limit : Nat} :
    ∀ {segs : List (List UInt8)} {out : List UInt8}, (∀ c ∈ segs, c ≠ []) →
      (out ++ [slash].intercalate segs).length ≤ limit →
      joinSegs limit segs out = out ++ [slash].intercalate segs
  | [], out, _, _ => (List.append_nil out).symm
  | seg :: segs, out, hne, hlen => by
    have hpos := List.length_pos_iff.2 (hne seg List.mem_cons_self)
    have hrest : ∀ c ∈ segs, c ≠ [] := fun c hc => hne c (List.mem_cons_of_mem _ hc)
    rw [joinSegs]
    by_cases hs : segs = []
    · subst hs
      rw [List.intercalate_singleton, List.length_append] at hlen
      rw [if_pos (by omega), List.take_of_length_le (by omega), List.intercalate_singleton]
      rfl
    · rw [List.intercalate_cons_of_ne_nil hs] at hlen ⊢
      simp only [List.length_append, List.length_singleton] at hlen
      rw [if_pos (by omega), List.take_of_length_le (by omega)]
      simp only [ne_eq, hs, not_false_eq_true, if_true]
      rw [joinSegs_eq hrest (by simp only [List.length_append, List.length_singleton]; omega)]
      simp

/-! ## Lengths -/

theorem length_render (h : cs ≠ []) : (render cs).length = (cs.map fun c => c.length + 1).sum := by
  induction cs with
  | nil => exact absurd rfl h
  | cons c cs ih =>
    by_cases hs : cs = []
    · subst hs
      simp [render]
    · have := ih hs
      simp only [render, List.length_cons] at this
      rw [render, List.intercalate_cons_of_ne_nil hs, List.map_cons, List.sum_cons]
      simp only [List.length_cons, List.length_append, List.length_nil]
      omega

theorem comps_slash (path : List UInt8) : comps (slash :: path) = [] :: comps path := by
  rw [comps, List.splitOn_cons_eq_if_modifyHead, if_pos (by simp)]
  rfl

theorem render_comps (path : List UInt8) : render (comps path) = slash :: path := by
  rw [render, comps, List.intercalate_splitOn]

/-- Resolving does not make an absolute path longer. -/
theorem length_render_resolved (path : List UInt8) :
    (render (resolved (slash :: path))).length ≤ (slash :: path).length := by
  have hsub : (resolved (slash :: path)).Sublist (comps path) := by
    rw [resolved, comps_slash, List.foldl_cons, resolveStep_nil]
    exact foldl_sublist (comps path) []
  by_cases h : resolved (slash :: path) = []
  · rw [h]
    exact Nat.succ_le_succ (Nat.zero_le _)
  · have hne : comps path ≠ [] := List.splitOn_ne_nil _ _
    have hlen : (slash :: path).length = ((comps path).map fun c => c.length + 1).sum := by
      rw [← render_comps, length_render hne]
    rw [length_render h, hlen]
    exact (hsub.map _).sum_le_sum fun _ _ => Nat.zero_le _

/-! ## Canonical paths -/

theorem comps_render (h : ∀ c ∈ cs, IsComponent c) :
    comps (render cs) = [] :: (if cs = [] then [[]] else cs) := by
  rw [render, comps_slash]
  split
  · next hs => rw [hs]; rfl
  · next hs => rw [comps, List.splitOn_intercalate _ (fun c hc => (h c hc).no_slash) hs]

theorem resolved_render (h : ∀ c ∈ cs, IsComponent c) : resolved (render cs) = cs := by
  rw [resolved, comps_render h, List.foldl_cons, resolveStep_nil]
  split
  · next hs => rw [hs]; rfl
  · exact foldl_of_components h

theorem roomFor_render (h : ∀ c ∈ cs, IsComponent c) (hlen : cs.length ≤ segCount) :
    RoomFor [] (comps (render cs)) := by
  rw [comps_render h, RoomFor, resolveStep_nil]
  refine ⟨fun hc => absurd rfl hc, ?_⟩
  split
  · exact ⟨fun hc => absurd rfl hc, trivial⟩
  · exact roomFor_of_length h (by simpa using hlen)

/-! ## The function -/

/-- `resolve_path` on a path that is not cut off. -/
theorem resolvePath_eq {cwd input : List UInt8} {outSize : UInt32} (hraw : joinRaw cwd input = path)
    (hlen : path.length ≤ 127) (hcomps : ∀ c ∈ comps path, c.length ≤ 15)
    (hout : (render (resolved path)).length + 2 ≤ outSize.toNat) :
    resolvePath cwd input outSize =
      if RoomFor [] (comps path) then some (render (resolved path)) else none := by
  have hsize : path.length < rawSize := Nat.lt_succ_of_le hlen
  have hproper : ∀ c ∈ resolved path, IsComponent c :=
    foldl_components (fun _ hc => absurd hc List.not_mem_nil) (not_mem_of_comps path)
  have hlimit : (outSize - 2).toNat = outSize.toNat - 2 :=
    UInt32.toNat_sub_of_le _ _ (UInt32.le_iff_toNat_le.2 (by
      change 2 ≤ outSize.toNat
      omega))
  have hjoin : joinSegs (outSize - 2).toNat (resolved path) [slash] = render (resolved path) :=
    joinSegs_eq (fun c hc => (hproper c hc).ne_nil) (by
      change (render (resolved path)).length ≤ _
      omega)
  unfold resolvePath
  simp only [hraw, if_pos hsize, splitRaw_eq, pieces_eq_comps hcomps, roomFor_filter, foldl_filter]
  change (if _ then some (resolved path) else none).bind _ = _
  split
  · simp only [Option.bind_some, hjoin]
    rw [if_pos (by omega)]
    rfl
  · rfl

/-- Where nothing is cut off: the domain on which `resolve_path` is to normalise. -/
structure Fitting (cwd input : List UInt8) (outSize : UInt32) : Prop where
  canonical : Canonical cwd
  short : cwd.length < 64
  raw : (joined cwd input).length ≤ 127
  parts : ∀ c ∈ comps (joined cwd input), c.length ≤ 15
  pending : ∀ pre, pre <+: comps (joined cwd input) → (pre.foldl resolveStep []).length ≤ 16
  out : (render (resolved (joined cwd input))).length + 2 ≤ outSize.toNat

/-- The result is the canonical path of the components that are left, and resolving it again, from
wherever, changes nothing. -/
structure Normalises (cwd input : List UInt8) (outSize : UInt32) : Prop where
  result : resolvePath cwd input outSize = some (render (resolved (joined cwd input)))
  again : ∀ dir, resolvePath dir (render (resolved (joined cwd input))) outSize =
    some (render (resolved (joined cwd input)))
  proper : ∀ c ∈ resolved (joined cwd input), IsComponent c

theorem joined_absolute {cwd : List UInt8} (h : Canonical cwd) (input : List UInt8) :
    ∃ rest, joined cwd input = slash :: rest := by
  obtain ⟨cs, -, rfl⟩ := h
  unfold joined
  split
  · next hin =>
    rcases input with _ | ⟨c, input⟩
    · cases hin
    · exact ⟨input, congrArg (· :: input) (Option.some.inj hin)⟩
  · split
    · exact ⟨_, rfl⟩
    · exact ⟨_, rfl⟩

/-- A canonical path is its own result. -/
theorem resolvePath_render {outSize : UInt32} (dir : List UInt8) (hcs : ∀ c ∈ cs, IsComponent c)
    (hlen : (render cs).length ≤ 127) (hparts : ∀ c ∈ cs, c.length ≤ 15)
    (hcount : cs.length ≤ segCount) (hout : (render cs).length + 2 ≤ outSize.toNat) :
    resolvePath dir (render cs) outSize = some (render cs) := by
  have hraw : joinRaw dir (render cs) = render cs := by
    rw [joinRaw, if_pos (show (render cs).head? = some slash from rfl)]
    exact List.take_of_length_le hlen
  have hcomps : ∀ c ∈ comps (render cs), c.length ≤ 15 := by
    rw [comps_render hcs]
    intro c hc
    rcases List.mem_cons.1 hc with rfl | hc
    · exact Nat.zero_le _
    · split at hc
      · rw [List.mem_singleton.1 hc]
        exact Nat.zero_le _
      · exact hparts c hc
  rw [resolvePath_eq hraw hlen hcomps (by rwa [resolved_render hcs]),
    if_pos (roomFor_render hcs hcount), resolved_render hcs]

/-- Where nothing is cut off, `resolve_path` normalises exactly if there is room in `segs` whenever
a component comes, `.` and `..` included. -/
theorem resolve_path_normalises_iff {cwd input : List UInt8} {outSize : UInt32}
    (h : Fitting cwd input outSize) :
    Normalises cwd input outSize ↔ RoomFor [] (comps (joined cwd input)) := by
  have hresult := resolvePath_eq (joinRaw_eq_joined h.short h.raw) h.raw h.parts h.out
  constructor
  · intro hn
    by_contra hroom
    rw [hn.result, if_neg hroom] at hresult
    cases hresult
  · intro hroom
    have hproper : ∀ c ∈ resolved (joined cwd input), IsComponent c :=
      foldl_components (fun _ hc => absurd hc List.not_mem_nil) (not_mem_of_comps _)
    have hsub : (resolved (joined cwd input)).Sublist (comps (joined cwd input)) :=
      foldl_sublist (comps (joined cwd input)) []
    refine ⟨by rw [hresult, if_pos hroom], fun dir => ?_, hproper⟩
    refine resolvePath_render dir hproper ?_ (fun c hc => h.parts c (hsub.subset hc))
      (hroom.length_le (Nat.zero_le _)) h.out
    obtain ⟨rest, hrest⟩ := joined_absolute h.canonical input
    have hraw := h.raw
    rw [hrest] at hraw ⊢
    exact (length_render_resolved rest).trans hraw

end

theorem canonical_root : Canonical [slash] := ⟨[], nofun, rfl⟩

/-- The directories `a` and `b`, one up. -/
def upPath : List UInt8 := [0x61, slash, 0x62, slash, dot, dot]

theorem fitting_upPath : Fitting [slash] upPath 64 where
  canonical := canonical_root
  short := by decide
  raw := by decide
  parts := by decide
  pending := fun pre hp =>
    (by decide : ∀ pre ∈ (comps (joined [slash] upPath)).inits,
      (pre.foldl resolveStep []).length ≤ 16) pre ((List.mem_inits _ _).2 hp)
  out := by decide

theorem resolve_path_normalises_iff_upPath :
    Normalises [slash] upPath 64 ↔ RoomFor [] (comps (joined [slash] upPath)) :=
  resolve_path_normalises_iff fitting_upPath

/-- `/a` sixteen times, and `/.` behind it. -/
def fullPath : List UInt8 := (List.replicate 16 [slash, 0x61]).flatten ++ [slash, dot]

theorem fitting_fullPath : Fitting [slash] fullPath 64 where
  canonical := canonical_root
  short := by decide
  raw := by decide
  parts := by decide
  pending := fun pre hp =>
    (by decide : ∀ pre ∈ (comps (joined [slash] fullPath)).inits,
      (pre.foldl resolveStep []).length ≤ 16) pre ((List.mem_inits _ _).2 hp)
  out := by decide

/-- The dot is stored behind `segs` before it is dropped. -/
theorem full_path_not_normalised :
    Fitting [slash] fullPath 64 ∧ ¬ Normalises [slash] fullPath 64 := by
  refine ⟨fitting_fullPath, fun hn => ?_⟩
  have hraw := joinRaw_eq_joined fitting_fullPath.short fitting_fullPath.raw
  have hresult : resolvePath [slash] fullPath 64 = _ :=
    resolvePath_eq hraw fitting_fullPath.raw fitting_fullPath.parts fitting_fullPath.out
  rw [hn.result, if_neg (by decide)] at hresult
  cases hresult

end HaoSys.User
