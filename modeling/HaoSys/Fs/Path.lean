import HaoSys.Fs.Reader

/-!
# Paths as sequences of names

`splitPath` reads a path the way the loops of `fat_resolve_parent` and
`fat_open_dir` do: a slash closes the segment in progress, repeated slashes
add nothing, a segment keeps its first 15 bytes. The result is the 8.3 names
of the closed segments, the directories on the way, and the name of the
segment still open at the end, if there is one. `walkDirs` follows names from
a directory, keeping the entry under which each was found, and
`resolveParentLoop_eq` says that the loop of `fat_resolve_parent` is this walk
followed by one lookup.
-/

namespace HaoSys.Fs

open HaoSys.Lib Prog

/-! ## Splitting -/

/-- Names of the closed segments and of the one that is open at the end. -/
def splitLoop : List UInt8 → Option (List UInt8) → List Name83 × Option Name83
  | [], seg => ([], seg.map makeName83)
  | c :: rest, seg =>
    if c = 0x2F then
      ((seg.map makeName83).toList ++ (splitLoop rest none).1, (splitLoop rest none).2)
    else splitLoop rest (some (pushSeg seg c))

def splitPath (path : List UInt8) : List Name83 × Option Name83 := splitLoop path none

/-- The names of all segments of a path. -/
def pathNames (path : List UInt8) : List Name83 := (splitPath path).1 ++ (splitPath path).2.toList

/-- A slash closes whatever stands before it. -/
theorem splitLoop_append_slash :
    ∀ (p q : List UInt8) (seg : Option (List UInt8)),
      splitLoop (p ++ 0x2F :: q) seg =
        ((splitLoop p seg).1 ++ (splitLoop p seg).2.toList ++ (splitPath q).1, (splitPath q).2)
  | [], q, seg => by simp [splitLoop, splitPath]
  | c :: p, q, seg => by
    rw [List.cons_append, splitLoop, splitLoop]
    by_cases hc : c = 0x2F
    · rw [if_pos hc, if_pos hc, splitLoop_append_slash p q none]
      simp only [List.append_assoc]
    · rw [if_neg hc, if_neg hc, splitLoop_append_slash p q _]

theorem splitPath_append_slash (p q : List UInt8) :
    splitPath (p ++ 0x2F :: q) = (pathNames p ++ (splitPath q).1, (splitPath q).2) :=
  splitLoop_append_slash p q none

/-- Without a slash there is one segment. -/
theorem splitLoop_fst_of_not_mem :
    ∀ (p : List UInt8) (seg : Option (List UInt8)), (0x2F : UInt8) ∉ p → (splitLoop p seg).1 = []
  | [], _, _ => rfl
  | c :: p, seg, h => by
    have hc : ¬ c = 0x2F := by
      rintro rfl
      exact h List.mem_cons_self
    rw [splitLoop, if_neg hc]
    exact splitLoop_fst_of_not_mem p _ fun hm => h (List.mem_cons_of_mem _ hm)

/-- The directories on the way of a path are the names of what stands before its last slash. -/
theorem splitPath_fst_of_split {p q : List UInt8} (hq : (0x2F : UInt8) ∉ q) :
    (splitPath (p ++ 0x2F :: q)).1 = pathNames p := by
  rw [splitPath_append_slash, splitPath, splitLoop_fst_of_not_mem q none hq, List.append_nil]

/-- A path splits where it is cut: what is behind the cut continues the open segment. -/
theorem splitLoop_append (a b : List UInt8) (seg : Option (List UInt8)) :
    ∃ seg', splitLoop (a ++ b) seg =
        ((splitLoop a seg).1 ++ (splitLoop b seg').1, (splitLoop b seg').2) ∧
      seg'.map makeName83 = (splitLoop a seg).2 := by
  induction a generalizing seg with
  | nil => exact ⟨seg, by simp [splitLoop], rfl⟩
  | cons c a ih =>
    rw [List.cons_append, splitLoop, splitLoop]
    by_cases hc : c = 0x2F
    · obtain ⟨seg', h1, h2⟩ := ih none
      refine ⟨seg', ?_, ?_⟩
      · rw [if_pos hc, if_pos hc, h1, List.append_assoc]
      · rw [if_pos hc]
        exact h2
    · obtain ⟨seg', h1, h2⟩ := ih (some (pushSeg seg c))
      exact ⟨seg', by rw [if_neg hc, if_neg hc, h1], by rw [if_neg hc]; exact h2⟩

/-- An open segment gives a name, however the path goes on. -/
theorem splitLoop_some_ne_nil (p s : List UInt8) :
    (splitLoop p (some s)).1 ++ (splitLoop p (some s)).2.toList ≠ [] := by
  induction p generalizing s with
  | nil => simp [splitLoop]
  | cons c p ih =>
    rw [splitLoop]
    by_cases hc : c = 0x2F
    · simp [hc]
    · rw [if_neg hc]
      exact ih _

/-- Every name comes from bytes of the path. -/
theorem splitLoop_names (p : List UInt8) (seg : Option (List UInt8)) :
    ∀ n ∈ (splitLoop p seg).1 ++ (splitLoop p seg).2.toList,
      ∃ s, n = makeName83 s ∧ ∀ b ∈ s, b ∈ p ∨ b ∈ seg.getD [] := by
  induction p generalizing seg with
  | nil =>
    intro n hn
    cases seg with
    | none => simp [splitLoop] at hn
    | some s => exact ⟨s, by simpa [splitLoop] using hn, fun b hb => .inr hb⟩
  | cons c p ih =>
    intro n hn
    rw [splitLoop] at hn
    by_cases hc : c = 0x2F
    · rw [if_pos hc, List.append_assoc, List.mem_append] at hn
      obtain hn | hn := hn
      · cases seg with
        | none => simp at hn
        | some s => exact ⟨s, by simpa using hn, fun b hb => .inr hb⟩
      · obtain ⟨s, rfl, hs⟩ := ih none n hn
        refine ⟨s, rfl, fun b hb => .inl (List.mem_cons_of_mem _ ?_)⟩
        simpa using hs b hb
    · rw [if_neg hc] at hn
      obtain ⟨s, rfl, hs⟩ := ih _ n hn
      refine ⟨s, rfl, fun b hb => ?_⟩
      obtain hb | hb := hs b hb
      · exact .inl (List.mem_cons_of_mem _ hb)
      · simp only [Option.getD_some, pushSeg] at hb
        split at hb
        · rw [List.mem_append, List.mem_singleton] at hb
          obtain hb | rfl := hb
          · exact .inr hb
          · exact .inl List.mem_cons_self
        · exact .inr hb

theorem toUpper_toUpper (x : UInt8) : toUpper (toUpper x) = toUpper x := by
  have : ∀ x : UInt8, toUpper (toUpper x) = toUpper x := by decide +kernel
  exact this x

theorem toUpper_eq_zero {x : UInt8} (h : toUpper x = 0) : x = 0 := by
  have : ∀ x : UInt8, toUpper x = 0 → x = 0 := by decide +kernel
  exact this x h

theorem toUpper_makeName83 (s : List UInt8) (j : Fin 11) :
    toUpper (makeName83 s j) = makeName83 s j := by
  unfold makeName83
  split <;> rw [toUpper_toUpper]

theorem makeName83_zero {s : List UInt8} (h : (0 : UInt8) ∉ s) : makeName83 s 0 ≠ 0 := by
  intro h0
  have hbase : ((s.takeWhile fun b => decide (b ≠ 0x2E)).take 8).getD 0 0x20 = 0 :=
    toUpper_eq_zero h0
  rw [List.getD_eq_getElem?_getD] at hbase
  cases hget : ((s.takeWhile fun b => decide (b ≠ 0x2E)).take 8)[0]? with
  | none =>
    rw [hget] at hbase
    exact absurd hbase (by decide)
  | some b =>
    rw [hget, Option.getD_some] at hbase
    subst hbase
    exact h ((List.takeWhile_sublist _).subset
      (List.mem_of_mem_take (List.mem_of_getElem? hget)))

/-- The names of a string: upper case, and no NUL in front. -/
theorem pathNames_spec {p : List UInt8} (h : (0 : UInt8) ∉ p) {n : Name83} (hn : n ∈ pathNames p) :
    (∀ j, toUpper (n j) = n j) ∧ n 0 ≠ 0 := by
  obtain ⟨s, rfl, hs⟩ := splitLoop_names p none n hn
  refine ⟨toUpper_makeName83 s, makeName83_zero fun h0 => ?_⟩
  obtain h0 | h0 := hs 0 h0
  · exact h h0
  · simp at h0

/-! ## Following names -/

/-- Follow names from the directory `p.1`, whose entry is `p.2`. -/
def walkDirs (fuel : Nat) (fs : FatFs) :
    List Name83 → UInt32 × Dirent → FatM (Option (UInt32 × Dirent))
  | [], p => pure (some p)
  | n :: ns, p => do
    match ← dirFindName fuel fs p.1 n with
    | none => pure none
    | some e => if e.isDir then walkDirs fuel fs ns (e.firstCluster, e) else pure none

/-- Look the last segment up in the directory the walk has reached. -/
def lookupLast (fuel : Nat) (fs : FatFs) (last : Option Name83) (p : Option (UInt32 × Dirent)) :
    FatM Resolved :=
  match p, last with
  | some p, some name => do
    let entry ← dirFindName fuel fs p.1 name
    pure ⟨p.1, name, entry⟩
  | _, _ => pure .fail

theorem readOnly_walkDirs (fuel : Nat) (fs : FatFs) :
    ∀ (ns : List Name83) (p : UInt32 × Dirent), ReadOnly (walkDirs fuel fs ns p)
  | [], _ => .pure _
  | n :: ns, p => .bind (readOnly_dirFindName fuel fs p.1 n) fun e => by
    cases e with
    | none => exact .pure _
    | some e => exact .ite (fun _ => readOnly_walkDirs fuel fs ns _) fun _ => .pure _

/-- The loop of `fat_resolve_parent` walks the directories of the path and then looks up the last
segment; the entry of the directory it starts in plays no part. -/
theorem resolveParentLoop_eq (fuel : Nat) (fs : FatFs) :
    ∀ (path : List UInt8) (cur : UInt32) (e : Dirent) (seg : Option (List UInt8)),
      resolveParentLoop fuel fs path cur seg =
        walkDirs fuel fs (splitLoop path seg).1 (cur, e) >>=
          lookupLast fuel fs (splitLoop path seg).2
  | [], cur, e, none => by
    simp [resolveParentLoop, splitLoop, walkDirs, lookupLast]
  | [], cur, e, some seg => by
    simp [resolveParentLoop, splitLoop, walkDirs, lookupLast]
  | c :: rest, cur, e, none => by
    rw [resolveParentLoop, splitLoop]
    split
    · simpa using resolveParentLoop_eq fuel fs rest cur e none
    · exact resolveParentLoop_eq fuel fs rest cur e _
  | c :: rest, cur, e, some seg => by
    rw [resolveParentLoop, splitLoop]
    split
    · simp only [Option.map_some, Option.toList_some, List.singleton_append, walkDirs, bind_assoc]
      congr 1
      funext found
      cases found with
      | none => simp [lookupLast]
      | some f =>
        by_cases hd : f.isDir = true
        · simp only [hd, if_true]
          exact resolveParentLoop_eq fuel fs rest f.firstCluster f none
        · simp [hd, lookupLast]
    · exact resolveParentLoop_eq fuel fs rest cur e _

theorem readOnly_lookupLast (fuel : Nat) (fs : FatFs) (last : Option Name83)
    (p : Option (UInt32 × Dirent)) : ReadOnly (lookupLast fuel fs last p) := by
  cases p with
  | none => exact .pure _
  | some p =>
    cases last with
    | none => exact .pure _
    | some name => exact .bind (readOnly_dirFindName fuel fs p.1 name) fun _ => .pure _

/-- Following `ns` and then `n` is following `ns`, finding `n` and checking that it is a
directory. -/
theorem walkDirs_concat (fuel : Nat) (fs : FatFs) (n : Name83) :
    ∀ (ns : List Name83) (p : UInt32 × Dirent) (d : Disk) (q : UInt32 × Dirent),
      Reads (walkDirs fuel fs (ns ++ [n]) p) d (some q) →
        ∃ q', Reads (walkDirs fuel fs ns p) d (some q') ∧
          Reads (dirFindName fuel fs q'.1 n) d (some q.2)
  | [], p, d, q, h => by
    obtain ⟨e, he, hq⟩ := Reads.bind_inv (readOnly_dirFindName fuel fs p.1 n) (fun e => by
      cases e with
      | none => exact .pure _
      | some e => exact .ite (fun _ => .pure _) fun _ => .pure _) h
    refine ⟨p, Gives.pure _, ?_⟩
    cases e with
    | none => cases Reads.of_pure hq
    | some e =>
      by_cases hd : e.isDir = true
      · simp only [hd, if_true] at hq
        cases Reads.of_pure hq
        exact he
      · simp only [hd] at hq
        cases Reads.of_pure hq
  | m :: ns, p, d, q, h => by
    obtain ⟨e, he, hq⟩ := Reads.bind_inv (readOnly_dirFindName fuel fs p.1 m) (fun e => by
      cases e with
      | none => exact .pure _
      | some e => exact .ite (fun _ => readOnly_walkDirs fuel fs _ _) fun _ => .pure _) h
    cases e with
    | none => cases Reads.of_pure hq
    | some e =>
      by_cases hd : e.isDir = true
      · simp only [hd, if_true] at hq
        obtain ⟨q', hq', hn⟩ := walkDirs_concat fuel fs n ns _ d q hq
        exact ⟨q', he.bind (by simpa only [hd, if_true] using hq'), hn⟩
      · simp only [hd] at hq
        cases Reads.of_pure hq

/-! ## Only live entries are found -/

/-- Neither an end marker nor deleted. -/
def Dirent.IsLive (e : Dirent) : Prop := e 0 ≠ 0x00 ∧ e 0 ≠ 0xE5

instance (e : Dirent) : Decidable e.IsLive := inferInstanceAs (Decidable (_ ∧ _))

/-- If `x` returns, its value has `Q`. -/
def Returns {α : Type} (x : FatM α) (Q : α → Prop) : Prop :=
  Triple (fun _ => True) (fun _ => True) x fun a _ => Q a

theorem Returns.bind {α β : Type} {x : FatM α} {f : α → FatM β} {Q : α → Prop} {R : β → Prop}
    (hx : Returns x Q) (hf : ∀ a, Q a → Returns (f a) R) : Returns (x >>= f) R :=
  Triple.bind hx fun a s hQ => hf a hQ s trivial

theorem Returns.pure {α : Type} {a : α} {Q : α → Prop} (h : Q a) : Returns (Pure.pure a) Q :=
  Triple.pure fun _ _ => h

theorem Returns.ite {α : Type} {c : Prop} [Decidable c] {x y : FatM α} {Q : α → Prop}
    (h1 : c → Returns x Q) (h2 : ¬ c → Returns y Q) : Returns (if c then x else y) Q :=
  Triple.ite h1 h2

theorem Returns.any {α : Type} (x : FatM α) : Returns x fun _ => True := by
  intro s _
  cases x s with
  | ok r => trivial
  | error e => trivial

theorem returns_readDirEntries (m : UInt32) (n i : Nat) (acc : List Dirent)
    (h : ∀ e ∈ acc, e.IsLive) :
    Returns (readDirEntries m n i acc) fun r => ∀ e ∈ r.2, e.IsLive := by
  induction n generalizing i acc with
  | zero => exact .pure h
  | succ n ih =>
    unfold readDirEntries
    refine .ite (fun _ => .bind (.any _) fun e _ => ?_) fun _ => .pure h
    refine .ite (fun _ => .pure h) fun h0 => .ite (fun _ => ih _ _ h) fun h5 => ?_
    refine ih _ _ fun f hf => ?_
    rw [List.mem_append, List.mem_singleton] at hf
    obtain hf | rfl := hf
    · exact h f hf
    · exact ⟨h0, h5⟩

theorem returns_readDirSectors (fs : FatFs) (m : UInt32) (n : Nat) (lba : UInt32)
    (acc : List Dirent) (h : ∀ e ∈ acc, e.IsLive) :
    Returns (readDirSectors fs m n lba acc) fun r => ∀ e ∈ r.2, e.IsLive := by
  induction n generalizing lba acc with
  | zero => exact .pure h
  | succ n ih =>
    unfold readDirSectors
    refine .bind (.any _) fun ok _ => .ite (fun _ => ?_) fun _ => .pure h
    refine .bind (returns_readDirEntries m _ _ acc h) fun r hr => ?_
    exact .ite (fun _ => .pure hr) fun _ => ih _ _ hr

theorem returns_readDirClusters (fs : FatFs) (m : UInt32) (fuel : Nat) (c : UInt32)
    (acc : List Dirent) (h : ∀ e ∈ acc, e.IsLive) :
    Returns (readDirClusters fs m fuel c acc) fun r => ∀ e ∈ r, e.IsLive := by
  induction fuel generalizing c acc with
  | zero => exact Triple.fault trivial
  | succ fuel ih =>
    unfold readDirClusters
    refine .ite (fun _ => .pure h) fun _ => ?_
    refine .bind (returns_readDirSectors fs m _ _ acc h) fun r hr => ?_
    refine .ite (fun _ => .pure hr) fun _ => .bind (.any _) fun next _ => ?_
    exact .ite (fun _ => .pure hr) fun _ => ih _ _ hr

/-- A name that looks like a deleted entry is never found. -/
theorem dirFindName_not_deleted {fuel : Nat} {fs : FatFs} {c : UInt32} {n : Name83} {d : Disk}
    {e : Dirent} (h : Reads (dirFindName fuel fs c n) d (some e)) : n 0 ≠ 0xE5 := by
  obtain ⟨es, hes, he⟩ := h.bind_inv (readOnly_fatReadDir fuel fs c 128) fun _ => .pure _
  have hfound := (Reads.of_pure he).symm
  have hlive : ∀ e ∈ es, e.IsLive := by
    obtain ⟨t, ht, -⟩ := hes ⟨Sector.zero, d⟩ rfl
    unfold fatReadDir at ht
    split at ht
    · cases ht
      intro e he
      cases he
    · exact (returns_readDirClusters fs 128 fuel _ [] (by simp)).of_ok trivial ht
  have hname : e.upperName = n := by simpa using List.find?_some hfound
  have hne : e 0 ≠ 0xE5 := (hlive e (List.mem_of_find?_eq_some hfound)).2
  have hupper : ∀ x : UInt8, toUpper x = 0xE5 → x = 0xE5 := by decide +kernel
  rw [← hname]
  exact fun h5 => hne (hupper _ h5)

theorem walkDirs_not_deleted {fuel : Nat} {fs : FatFs} {ns : List Name83} {p q : UInt32 × Dirent}
    {d : Disk} (h : Reads (walkDirs fuel fs ns p) d (some q)) : ∀ n ∈ ns, n 0 ≠ 0xE5 := by
  induction ns generalizing p with
  | nil => intro n hn; cases hn
  | cons m ns ih =>
    obtain ⟨e, he, hq⟩ := h.bind_inv (readOnly_dirFindName fuel fs p.1 m) fun e => by
      cases e with
      | none => exact .pure _
      | some e => exact .ite (fun _ => readOnly_walkDirs fuel fs _ _) fun _ => .pure _
    cases e with
    | none => cases Reads.of_pure hq
    | some e =>
      intro n hn
      obtain rfl | hn := List.mem_cons.1 hn
      · exact dirFindName_not_deleted he
      · by_cases hd : e.isDir = true
        · simp only [hd, if_true] at hq
          exact ih hq n hn
        · simp only [hd] at hq
          cases Reads.of_pure hq

/-! ## Resolving -/

/-- Where a path resolves, its directories lead to the parent and its last name is looked up
there. -/
theorem fatResolveParent_reads {fuel : Nat} {fs : FatFs} {path : List UInt8} {d : Disk}
    {r : Resolved} (e : Dirent) (h : Reads (fatResolveParent fuel fs (some path)) d r)
    (hr : r.parent ≠ 0xFFFFFFFF) :
    ∃ f, Reads (walkDirs fuel fs (splitPath path).1 (0, e)) d (some (r.parent, f)) ∧
      (splitPath path).2 = some r.name83 ∧
        Reads (dirFindName fuel fs r.parent r.name83) d r.entry := by
  rw [fatResolveParent, resolveParentLoop_eq fuel fs path 0 e none] at h
  obtain ⟨p, hp, hl⟩ := h.bind_inv (readOnly_walkDirs fuel fs _ _) fun p =>
    readOnly_lookupLast fuel fs _ p
  change Reads (lookupLast fuel fs (splitPath path).2 p) d r at hl
  cases p with
  | none =>
    cases Reads.of_pure hl
    exact absurd rfl hr
  | some p =>
    cases hlast : (splitPath path).2 with
    | none =>
      rw [hlast] at hl
      cases Reads.of_pure hl
      exact absurd rfl hr
    | some name =>
      rw [hlast] at hl
      obtain ⟨entry, he, hl⟩ := hl.bind_inv (readOnly_dirFindName fuel fs p.1 name)
        fun _ => .pure _
      cases Reads.of_pure hl
      exact ⟨p.2, hp, rfl, he⟩

/-- The other way round: a walk and a lookup make up a resolution. -/
theorem reads_fatResolveParent {fuel : Nat} {fs : FatFs} {path : List UInt8} {d : Disk}
    {q : UInt32 × Dirent} {e : Dirent} {n : Name83} {x : Option Dirent}
    (hwalk : Reads (walkDirs fuel fs (splitPath path).1 (0, e)) d (some q))
    (hlast : (splitPath path).2 = some n) (hfind : Reads (dirFindName fuel fs q.1 n) d x) :
    Reads (fatResolveParent fuel fs (some path)) d ⟨q.1, n, x⟩ := by
  rw [fatResolveParent, resolveParentLoop_eq fuel fs path 0 e none]
  refine hwalk.bind ?_
  change Reads (lookupLast fuel fs (splitPath path).2 (some q)) d _
  rw [hlast]
  exact hfind.bind (.pure _)

/-- `fat_find_file` returns the entry that the path resolves to. -/
theorem reads_fatFindFile {fuel : Nat} {fs : FatFs} {path : List UInt8} {d : Disk} {r : Resolved}
    (hi : fs.initialized = true) (h : Reads (fatResolveParent fuel fs (some path)) d r)
    (hr : r.parent ≠ 0xFFFFFFFF) : Reads (fatFindFile fuel fs (some path)) d r.entry := by
  unfold fatFindFile
  rw [if_neg (by simp [hi])]
  refine h.bind ?_
  rw [if_neg hr]
  exact .pure _

/-- `fat_find_file` finds what the path resolves to. -/
theorem fatFindFile_reads {fuel : Nat} {fs : FatFs} {path : Option (List UInt8)} {d : Disk}
    {e : Dirent} (h : Reads (fatFindFile fuel fs path) d (some e)) :
    ∃ r, Reads (fatResolveParent fuel fs path) d r ∧ r.parent ≠ 0xFFFFFFFF ∧ r.entry = some e := by
  rw [fatFindFile] at h
  split at h
  · cases Reads.of_pure h
  · obtain ⟨r, hr, he⟩ := h.bind_inv (readOnly_fatResolveParent fuel fs path) fun r =>
      .ite (fun _ => .pure _) fun _ => .pure _
    refine ⟨r, hr, ?_⟩
    split at he
    · cases Reads.of_pure he
    · next hp => exact ⟨hp, (Reads.of_pure he).symm⟩

end HaoSys.Fs
