import HaoSys.Fs.Dir

/-!
# Opening a directory and finding its entry

`fat_open_dir` follows every segment of a path, also one that a slash closes
at the end. `fat_find_file` follows the segments before the last and looks up
the last one, so a path that ends in a slash names nothing for it. Both use
the cluster number 0xFFFFFFFF for failure, which an entry on the disk may
hold too. `LastIsPlain` says that neither plays a part.
-/

namespace HaoSys.Fs

open HaoSys.Lib Prog

variable {fuel : Nat} {fs : FatFs} {d : Disk} {path : List UInt8}

/-- What `fat_open_dir` returns for the directory it has reached. -/
def openedDir : Option (UInt32 × Dirent) → UInt32
  | some p => p.1
  | none => 0xFFFFFFFF

theorem openedDir_of_entry (e : Dirent) :
    openedDir (((some e).filter Dirent.isDir).map fun e => (e.firstCluster, e)) =
      if e.isDir then e.firstCluster else 0xFFFFFFFF := by
  rw [Option.filter_some]
  split <;> rfl

/-- The loop of `fat_open_dir` follows all segments. -/
theorem openDirLoop_eq (fuel : Nat) (fs : FatFs) :
    ∀ (path : List UInt8) (cur : UInt32) (e : Dirent) (seg : Option (List UInt8)),
      openDirLoop fuel fs path cur seg =
        walkDirs fuel fs ((splitLoop path seg).1 ++ (splitLoop path seg).2.toList) (cur, e) >>=
          fun p => pure (openedDir p)
  | [], cur, e, none => by
    simp [openDirLoop, splitLoop, walkDirs, openedDir]
  | [], cur, e, some seg => by
    simp only [openDirLoop, splitLoop, Option.map_some, Option.toList_some, List.nil_append,
      walkDirs, bind_assoc]
    congr 1
    funext found
    cases found with
    | none => simp [openedDir]
    | some f =>
      by_cases hd : f.isDir = true
      · simp [hd, openedDir]
      · simp [hd, openedDir]
  | c :: rest, cur, e, none => by
    rw [openDirLoop, splitLoop]
    split
    · simpa using openDirLoop_eq fuel fs rest cur e none
    · exact openDirLoop_eq fuel fs rest cur e _
  | c :: rest, cur, e, some seg => by
    rw [openDirLoop, splitLoop]
    split
    · simp only [Option.map_some, Option.toList_some, List.cons_append, walkDirs, bind_assoc]
      congr 1
      funext found
      cases found with
      | none => simp [openedDir]
      | some f =>
        by_cases hd : f.isDir = true
        · simp only [hd, if_true]
          exact openDirLoop_eq fuel fs rest f.firstCluster f none
        · simp [hd, openedDir]
    · exact openDirLoop_eq fuel fs rest cur e _

/-- `fat_open_dir` returns the directory to which all names of the path lead. -/
theorem fatOpenDir_reads {c : UInt32} (e : Dirent) :
    Reads (fatOpenDir fuel fs (some path)) d c ↔
      ∃ p, Reads (walkDirs fuel fs (pathNames path) (0, e)) d p ∧ c = openedDir p := by
  rw [fatOpenDir, Option.getD_some, openDirLoop_eq fuel fs path 0 e none]
  constructor
  · intro h
    obtain ⟨p, hp, hc⟩ := h.bind_inv (readOnly_walkDirs fuel fs _ _) fun _ => .pure _
    exact ⟨p, hp, Reads.of_pure hc⟩
  · rintro ⟨p, hp, rfl⟩
    exact hp.bind (.pure _)

/-! ## Following one name more -/

/-- The walk over one name more is the walk, a lookup and a look at the attribute. -/
theorem walkDirs_snoc (fuel : Nat) (fs : FatFs) (n : Name83) (ns : List Name83)
    (p : UInt32 × Dirent) :
    walkDirs fuel fs (ns ++ [n]) p = walkDirs fuel fs ns p >>= fun q =>
      match q with
      | none => pure none
      | some q => walkDirs fuel fs [n] q := by
  induction ns generalizing p with
  | nil => simp only [List.nil_append, walkDirs, pure_bind]
  | cons m ns ih =>
    rw [List.cons_append, walkDirs, walkDirs, bind_assoc]
    congr 1
    funext found
    cases found with
    | none => rw [pure_bind]
    | some f =>
      by_cases hd : f.isDir = true
      · simp only [hd, if_true]
        exact ih _
      · simp [hd]

/-- Following one name. -/
theorem walkDirs_single (n : Name83) (p : UInt32 × Dirent) (r : Option (UInt32 × Dirent)) :
    Reads (walkDirs fuel fs [n] p) d r ↔
      ∃ o, Reads (dirFindName fuel fs p.1 n) d o ∧
        r = (o.filter Dirent.isDir).map fun e => (e.firstCluster, e) := by
  rw [walkDirs]
  refine (Reads.exists_bind_iff (readOnly_dirFindName fuel fs p.1 n) fun o => ?_).trans
    (exists_congr fun o => and_congr_right' ?_)
  · cases o with
    | none => exact .pure _
    | some e => exact .ite (fun _ => .pure _) fun _ => .pure _
  · cases o with
    | none => exact Reads.pure_iff
    | some e =>
      by_cases hd : e.isDir = true
      · simp only [hd, if_true, walkDirs, Option.filter_some, Option.map_some]
        exact Reads.pure_iff
      · simp only [hd, Option.filter_some]
        exact Reads.pure_iff

/-! ## The two walkers -/

/-- What `fat_open_dir` and `fat_find_file` say of a path fits together. -/
def WalkersAgree (fuel : Nat) (fs : FatFs) (d : Disk) (path : List UInt8) : Prop :=
  ∀ c o, Reads (fatOpenDir fuel fs (some path)) d c → Reads (fatFindFile fuel fs (some path)) d o →
    (c ≠ 0xFFFFFFFF ↔ ∃ e, o = some e ∧ e.isDir = true) ∧
      ∀ e, o = some e → c ≠ 0xFFFFFFFF → c = e.firstCluster

/-- A directory reached through a path with a slash at the end has the number 0xFFFFFFFF; one
reached without has it exactly when its parent has. -/
def LastIsPlain (fuel : Nat) (fs : FatFs) (d : Disk) (path : List UInt8) : Prop :=
  ∀ p, Reads (walkDirs fuel fs (splitPath path).1 (0, fun _ => 0)) d (some p) →
    match (splitPath path).2 with
    | none => p.1 = 0xFFFFFFFF
    | some n => ∀ e, Reads (dirFindName fuel fs p.1 n) d (some e) → e.isDir = true →
        (p.1 = 0xFFFFFFFF ↔ e.firstCluster = 0xFFFFFFFF)

/-- What an instance that is not mounted finds. -/
theorem dirFindName_not_initialized (h : fs.initialized = false) (c : UInt32) (n : Name83) :
    Reads (dirFindName fuel fs c n) d none := by
  refine Gives.bind (a := []) ?_ (.pure _)
  rw [fatReadDir, if_pos (.inl (by rw [h]; rfl))]
  exact .pure _

/-- And where its walks get. -/
theorem walkDirs_not_initialized (h : fs.initialized = false) {ns : List Name83} (hne : ns ≠ [])
    (p : UInt32 × Dirent) : Reads (walkDirs fuel fs ns p) d none := by
  cases ns with
  | nil => exact absurd rfl hne
  | cons n ns => exact (dirFindName_not_initialized h p.1 n).bind (.pure _)

/-- The end of `fat_find_file` behind the walk. -/
theorem fatFindFile_eq (hi : fs.initialized = true) (fuel : Nat) (path : List UInt8) (e : Dirent) :
    fatFindFile fuel fs (some path) = walkDirs fuel fs (splitPath path).1 (0, e) >>= fun p =>
      lookupLast fuel fs (splitPath path).2 p >>= fun r =>
        if r.parent = 0xFFFFFFFF then pure none else pure r.entry := by
  rw [fatFindFile, if_neg (by simp [hi]), fatResolveParent,
    resolveParentLoop_eq fuel fs path 0 e none, bind_assoc]
  rfl

theorem readOnly_findTail (last : Option Name83) (p : Option (UInt32 × Dirent)) :
    ReadOnly (lookupLast fuel fs last p >>= fun r =>
      if r.parent = 0xFFFFFFFF then pure none else pure r.entry) :=
  .bind (readOnly_lookupLast fuel fs last p) fun _ => .ite (fun _ => .pure _) fun _ => .pure _

theorem pathNames_of_last_none (h : (splitPath path).2 = none) :
    pathNames path = (splitPath path).1 := by
  rw [pathNames, h, Option.toList_none, List.append_nil]

theorem pathNames_of_last_some {n : Name83} (h : (splitPath path).2 = some n) :
    pathNames path = (splitPath path).1 ++ [n] := by
  rw [pathNames, h, Option.toList_some]

/-- Where the walk over the closed segments fails, both walkers fail. -/
theorem walkers_of_walk_none (hi : fs.initialized = true)
    (hw : Reads (walkDirs fuel fs (splitPath path).1 (0, fun _ => 0)) d none) :
    Reads (fatOpenDir fuel fs (some path)) d 0xFFFFFFFF ∧
      Reads (fatFindFile fuel fs (some path)) d none := by
  constructor
  · refine (fatOpenDir_reads fun _ => 0).2 ⟨none, ?_, rfl⟩
    cases hlast : (splitPath path).2 with
    | none =>
      rw [pathNames_of_last_none hlast]
      exact hw
    | some n =>
      rw [pathNames_of_last_some hlast, walkDirs_snoc]
      exact hw.bind (.pure _)
  · rw [fatFindFile_eq hi fuel path fun _ => 0]
    exact hw.bind (.pure _)

/-- With a slash at the end `fat_open_dir` is done where `fat_find_file` has no name left. -/
theorem walkers_of_slash (hi : fs.initialized = true) {p : UInt32 × Dirent}
    (hw : Reads (walkDirs fuel fs (splitPath path).1 (0, fun _ => 0)) d (some p))
    (hlast : (splitPath path).2 = none) :
    Reads (fatOpenDir fuel fs (some path)) d p.1 ∧
      Reads (fatFindFile fuel fs (some path)) d none := by
  constructor
  · refine (fatOpenDir_reads fun _ => 0).2 ⟨some p, ?_, rfl⟩
    rw [pathNames_of_last_none hlast]
    exact hw
  · rw [fatFindFile_eq hi fuel path fun _ => 0]
    refine hw.bind ?_
    rw [hlast]
    exact .pure _

/-- Without one both look up the last name. -/
theorem walkers_of_name (hi : fs.initialized = true) {p : UInt32 × Dirent} {n : Name83}
    {o : Option Dirent}
    (hw : Reads (walkDirs fuel fs (splitPath path).1 (0, fun _ => 0)) d (some p))
    (hlast : (splitPath path).2 = some n) (ho : Reads (dirFindName fuel fs p.1 n) d o) :
    Reads (fatOpenDir fuel fs (some path)) d
        (openedDir ((o.filter Dirent.isDir).map fun e => (e.firstCluster, e))) ∧
      Reads (fatFindFile fuel fs (some path)) d (if p.1 = 0xFFFFFFFF then none else o) := by
  constructor
  · refine (fatOpenDir_reads fun _ => 0).2 ⟨_, ?_, rfl⟩
    rw [pathNames_of_last_some hlast, walkDirs_snoc]
    exact hw.bind ((walkDirs_single n p _).2 ⟨o, ho, rfl⟩)
  · rw [fatFindFile_eq hi fuel path fun _ => 0]
    refine hw.bind ?_
    rw [hlast]
    refine (ho.bind (.pure _) : Reads (lookupLast fuel fs (some n) (some p)) d ⟨p.1, n, o⟩).bind ?_
    by_cases hp : p.1 = 0xFFFFFFFF
    · rw [if_pos hp, if_pos hp]
      exact .pure _
    · rw [if_neg hp, if_neg hp]
      exact .pure _

/-- Neither walker returns without the walk over the closed segments, nor without the lookup of
the segment behind them. -/
theorem walkers_return (hi : fs.initialized = true)
    (h : (∃ c, Reads (fatOpenDir fuel fs (some path)) d c) ∨
      ∃ o, Reads (fatFindFile fuel fs (some path)) d o) :
    ∃ r, Reads (walkDirs fuel fs (splitPath path).1 (0, fun _ => 0)) d r ∧
      ∀ p n, r = some p → (splitPath path).2 = some n →
        ∃ o, Reads (dirFindName fuel fs p.1 n) d o := by
  obtain ⟨c, hc⟩ | ⟨o, ho⟩ := h
  · obtain ⟨q, hq, -⟩ := (fatOpenDir_reads fun _ => 0).1 hc
    cases hlast : (splitPath path).2 with
    | none =>
      rw [pathNames_of_last_none hlast] at hq
      exact ⟨q, hq, nofun⟩
    | some n =>
      rw [pathNames_of_last_some hlast, walkDirs_snoc] at hq
      obtain ⟨r, hr, hrest⟩ := hq.bind_inv (readOnly_walkDirs fuel fs _ _) fun r => by
        cases r with
        | none => exact .pure _
        | some q => exact readOnly_walkDirs fuel fs _ _
      refine ⟨r, hr, ?_⟩
      rintro p m rfl ⟨⟩
      obtain ⟨o, ho, -⟩ := (walkDirs_single n p q).1 hrest
      exact ⟨o, ho⟩
  · rw [fatFindFile_eq hi fuel path fun _ => 0] at ho
    obtain ⟨r, hr, hrest⟩ := ho.bind_inv (readOnly_walkDirs fuel fs _ _) fun r =>
      readOnly_findTail _ r
    refine ⟨r, hr, ?_⟩
    rintro p n rfl hlast
    rw [hlast] at hrest
    obtain ⟨q, hq, -⟩ := hrest.bind_inv (readOnly_lookupLast fuel fs _ _) fun _ =>
      .ite (fun _ => .pure _) fun _ => .pure _
    obtain ⟨x, hx, -⟩ := hq.bind_inv (readOnly_dirFindName fuel fs p.1 n) fun _ => .pure _
    exact ⟨x, hx⟩

/-- With results for both calls, they fit together when these results do. -/
theorem walkersAgree_iff {c : UInt32} {o : Option Dirent}
    (hc : Reads (fatOpenDir fuel fs (some path)) d c)
    (ho : Reads (fatFindFile fuel fs (some path)) d o) :
    WalkersAgree fuel fs d path ↔ (c ≠ 0xFFFFFFFF ↔ ∃ e, o = some e ∧ e.isDir = true) ∧
      ∀ e, o = some e → c ≠ 0xFFFFFFFF → c = e.firstCluster := by
  refine ⟨fun h => h c o hc ho, fun h c' o' hc' ho' => ?_⟩
  rw [hc'.unique hc, ho'.unique ho]
  exact h

/-- Of a path with a segment, `fat_open_dir` and `fat_find_file` return for the same volumes, and
they agree exactly when its last segment is plain. -/
theorem fat_open_dir_agrees (fuel : Nat) (fs : FatFs) (d : Disk) (path : List UInt8)
    (hpath : pathNames path ≠ []) :
    ((∃ c, Reads (fatOpenDir fuel fs (some path)) d c) ↔
        ∃ o, Reads (fatFindFile fuel fs (some path)) d o) ∧
      (WalkersAgree fuel fs d path ↔ LastIsPlain fuel fs d path) := by
  cases hi : fs.initialized with
  | false =>
    have hopen : Reads (fatOpenDir fuel fs (some path)) d 0xFFFFFFFF :=
      (fatOpenDir_reads fun _ => 0).2 ⟨none, walkDirs_not_initialized hi hpath _, rfl⟩
    have hfind : Reads (fatFindFile fuel fs (some path)) d none := by
      rw [fatFindFile, if_pos (by rw [hi]; rfl)]
      exact .pure _
    refine ⟨⟨fun _ => ⟨_, hfind⟩, fun _ => ⟨_, hopen⟩⟩, ?_⟩
    rw [walkersAgree_iff hopen hfind]
    refine ⟨fun _ p hp => ?_, fun _ => by simp⟩
    cases hlast : (splitPath path).2 with
    | none =>
      rw [pathNames_of_last_none hlast] at hpath
      cases hp.unique (walkDirs_not_initialized hi hpath _)
    | some n =>
      intro e he
      cases he.unique (dirFindName_not_initialized hi p.1 n)
  | true =>
    by_cases hret : ∃ r, Reads (walkDirs fuel fs (splitPath path).1 (0, fun _ => 0)) d r ∧
      ∀ p n, r = some p → (splitPath path).2 = some n →
        ∃ o, Reads (dirFindName fuel fs p.1 n) d o
    · obtain ⟨r, hr, hlook⟩ := hret
      cases r with
      | none =>
        obtain ⟨hopen, hfind⟩ := walkers_of_walk_none hi hr
        refine ⟨⟨fun _ => ⟨_, hfind⟩, fun _ => ⟨_, hopen⟩⟩, ?_⟩
        rw [walkersAgree_iff hopen hfind]
        exact ⟨fun _ p hp => (by cases hp.unique hr), fun _ => by simp⟩
      | some p =>
        cases hlast : (splitPath path).2 with
        | none =>
          obtain ⟨hopen, hfind⟩ := walkers_of_slash hi hr hlast
          refine ⟨⟨fun _ => ⟨_, hfind⟩, fun _ => ⟨_, hopen⟩⟩, ?_⟩
          rw [walkersAgree_iff hopen hfind, LastIsPlain, hlast]
          constructor
          · rintro ⟨h, -⟩ q hq
            cases hq.unique hr
            by_contra hne
            obtain ⟨e, he, -⟩ := h.1 hne
            cases he
          · intro h
            have hp := h p hr
            simp [hp]
        | some n =>
          obtain ⟨o, ho⟩ := hlook p n rfl hlast
          obtain ⟨hopen, hfind⟩ := walkers_of_name hi hr hlast ho
          refine ⟨⟨fun _ => ⟨_, hfind⟩, fun _ => ⟨_, hopen⟩⟩, ?_⟩
          rw [walkersAgree_iff hopen hfind, LastIsPlain, hlast]
          have hplain : (∀ q, Reads (walkDirs fuel fs (splitPath path).1 (0, fun _ => 0)) d
              (some q) → ∀ e, Reads (dirFindName fuel fs q.1 n) d (some e) → e.isDir = true →
                (q.1 = 0xFFFFFFFF ↔ e.firstCluster = 0xFFFFFFFF)) ↔
              ∀ e, o = some e → e.isDir = true →
                (p.1 = 0xFFFFFFFF ↔ e.firstCluster = 0xFFFFFFFF) := by
            constructor
            · rintro h e rfl
              exact h p hr e ho
            · intro h q hq e he
              cases hq.unique hr
              exact h e (ho.unique he)
          refine Iff.trans ?_ hplain.symm
          cases o with
          | none => simp [openedDir]
          | some e =>
            rw [openedDir_of_entry]
            by_cases hd : e.isDir = true
            · by_cases hp : p.1 = 0xFFFFFFFF
              · simp [hd, hp]
              · simp [hd, hp]
            · by_cases hp : p.1 = 0xFFFFFFFF
              · simp [hd, hp]
              · simp [hd, hp]
    · have hno : ¬ ((∃ c, Reads (fatOpenDir fuel fs (some path)) d c) ∨
          ∃ o, Reads (fatFindFile fuel fs (some path)) d o) := fun h => hret (walkers_return hi h)
      rw [not_or] at hno
      refine ⟨iff_of_false hno.1 hno.2, ?_⟩
      refine iff_of_true (fun c o hc _ => absurd ⟨c, hc⟩ hno.1) fun p hp => ?_
      cases hlast : (splitPath path).2 with
      | none => exact absurd ⟨_, (walkers_of_slash hi hp hlast).1⟩ hno.1
      | some n =>
        intro e he
        exact absurd ⟨_, (walkers_of_name hi hp hlast he).1⟩ hno.1

/-- A root region with the directory D. -/
def rootWithDir : Disk := ⟨fun a => if a = 3 then
  Sector.ofDirents [newDirent (makeName83 [0x44]) 0x10 2 0] else Sector.zero, fun _ => true,
  fun _ _ => true, 0⟩

/-- "/D" on a volume with the directory D. -/
theorem fat_open_dir_agrees_plain :
    ((∃ c, Reads (fatOpenDir 2 sampleFs (some [0x2F, 0x44])) rootWithDir c) ↔
        ∃ o, Reads (fatFindFile 2 sampleFs (some [0x2F, 0x44])) rootWithDir o) ∧
      (WalkersAgree 2 sampleFs rootWithDir [0x2F, 0x44] ↔
        LastIsPlain 2 sampleFs rootWithDir [0x2F, 0x44]) :=
  fat_open_dir_agrees 2 sampleFs rootWithDir [0x2F, 0x44]
    (by simp [pathNames, splitPath, splitLoop])

theorem readOnly_fatOpenDir (fuel : Nat) (fs : FatFs) (path : List UInt8) :
    ReadOnly (fatOpenDir fuel fs (some path)) := by
  rw [fatOpenDir, openDirLoop_eq fuel fs _ 0 (fun _ => 0) none]
  exact .bind (readOnly_walkDirs fuel fs _ _) fun _ => .pure _

/-- "D/" is opened and not found. -/
theorem walkers_disagree_slash : ¬ ∀ fuel fs d path, pathNames path ≠ [] →
    WalkersAgree fuel fs d path := by
  intro h
  have hopen : evalOn (fatOpenDir 2 sampleFs (some [0x44, 0x2F])) rootWithDir = some 2 := by
    decide +kernel
  have hfind : evalOn (fatFindFile 2 sampleFs (some [0x44, 0x2F])) rootWithDir = some none := by
    decide +kernel
  obtain ⟨hiff, -⟩ := h 2 sampleFs rootWithDir [0x44, 0x2F]
    (by simp [pathNames, splitPath, splitLoop]) _ _
    (reads_of_evalOn (readOnly_fatOpenDir _ _ _) hopen)
    (reads_of_evalOn (readOnly_fatFindFile _ _ _) hfind)
  obtain ⟨e, he, -⟩ := hiff.1 (by decide)
  cases he

end HaoSys.Fs
