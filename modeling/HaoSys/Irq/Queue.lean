import HaoSys.Irq.Deliver

/-!
# The lines that wait

A request that is neither masked nor withdrawn is served in its turn: line 0 and
line 1 first, then the lines of the slave, which come through line 2 of the
master, then the rest of the master. As long as no IRQ15 was spurious each
interrupt takes the first of the lines that wait and leaves the others alone, so
that none of them is lost (`interrupts_delivered`).
-/

namespace HaoSys.Irq

/-- The lines in the order in which they are served. Line 2 of the master is the slave's. -/
def priority : List Nat := [0, 1, 8, 9, 10, 11, 12, 13, 14, 15, 3, 4, 5, 6, 7]

/-- The line requests, and neither it nor, for a line of the slave, line 2 is masked. -/
def Pics.pending (p : Pics) (irq : Nat) : Bool :=
  (p.chip irq).wants (irq % 8) && (irq < 8 || !p.master.imr.getLsbD 2)

/-- The lines that wait. -/
def Pics.queue (p : Pics) : List Nat := priority.filter p.pending

/-- The head of a filtered list comes after elements that are filtered out. -/
theorem filter_eq_cons {l ns : List Nat} {f : Nat → Bool} {n : Nat} (hnodup : l.Nodup)
    (h : l.filter f = n :: ns) :
    n ∈ l ∧ f n = true ∧ (∀ x ∈ l, l.idxOf x < l.idxOf n → f x = false) ∧
      l.filter (fun x => f x && x != n) = ns := by
  obtain ⟨as, bs, rfl, has, hn, hbs⟩ := List.filter_eq_cons_iff.1 h
  obtain ⟨-, hbsnodup, hdisjoint⟩ := List.nodup_append.1 hnodup
  have hnas : n ∉ as := fun hm => hdisjoint n hm n List.mem_cons_self rfl
  have hidx : (as ++ n :: bs).idxOf n = as.length := by
    rw [List.idxOf_append_of_notMem hnas, List.idxOf_cons_self, Nat.add_zero]
  refine ⟨by simp, hn, fun x _ hlt => ?_, ?_⟩
  · rw [hidx] at hlt
    have hx : x ∈ as := by
      by_contra hx
      rw [List.idxOf_append_of_notMem hx] at hlt
      omega
    simpa using has x hx
  · have hnone : as.filter (fun x => f x && x != n) = [] :=
      List.filter_eq_nil_iff.2 fun x hx => by simp [has x hx]
    have hrest : bs.filter (fun x => f x && x != n) = bs.filter f :=
      List.filter_congr fun x hx => by
        have hne : x ≠ n := fun he => (List.nodup_cons.1 hbsnodup).1 (he ▸ hx)
        simp [hne]
    rw [List.filter_append, hnone, List.nil_append, List.filter_cons_of_neg (by simp), hrest, hbs]

theorem priority_nodup : priority.Nodup := by decide

namespace Pics

variable {p : Pics} {n : Nat} {ns : List Nat}

/-- An idle chip interrupts for the first line that wants to. -/
theorem next_of_idle {c : Chip} (h : c.isr = 0) {i : Nat} (hi : i < 8) (hwants : c.wants i = true)
    (hfirst : ∀ j, j < i → c.wants j = false) : c.next = some i := by
  have hfind : (List.range 8).find? (fun i => c.isr.getLsbD i || c.wants i) = some i := by
    refine List.find?_range_eq_some.2 ⟨by rw [hwants, Bool.or_true], List.mem_range.2 hi,
      fun j hj => ?_⟩
    simp [h, hfirst j hj]
  unfold Chip.next
  rw [hfind]
  simp [h]

theorem next_none_of_idle {c : Chip} (h : c.isr = 0) (hnone : ∀ j, j < 8 → c.wants j = false) :
    c.next = none := by
  have hfind : (List.range 8).find? (fun i => c.isr.getLsbD i || c.wants i) = none :=
    List.find?_range_eq_none.2 fun j hj => by simp [h, hnone j hj]
  unfold Chip.next
  rw [hfind]

theorem wired_wants (p : Pics) (i : Nat) : p.wired.wants i =
    ((if i = 2 then p.slave.next.isSome else p.master.irr.getLsbD i) && !p.master.imr.getLsbD i) :=
  congrArg (· && _) (getLsbD_putBit _ (by decide) _ i)

/-- With line 2 open a line of the slave waits if it wants to. -/
theorem slave_wants (h2 : p.master.imr.getLsbD 2 = false) {j : Nat} (hj : j < 8)
    (h : p.pending (8 + j) = false) : p.slave.wants j = false := by
  unfold pending chip at h
  rw [if_neg (by omega), h2, show (8 + j) % 8 = j by omega] at h
  simpa using h

/-- Line 2 of the master is quiet if no line of the slave waits. -/
theorem wired_wants_two (hs : p.slave.isr = 0) (h : ∀ j, j < 8 → p.pending (8 + j) = false) :
    p.wired.wants 2 = false := by
  rw [wired_wants, if_pos rfl]
  cases h2 : p.master.imr.getLsbD 2 with
  | true => simp
  | false =>
    rw [next_none_of_idle hs fun j hj => slave_wants h2 hj (h j hj)]
    rfl

/-- Line `n` waits, and none that is served before it does; nothing is in service. -/
structure Head (p : Pics) (n : Nat) : Prop where
  between : Between false p
  mem : n ∈ priority
  pending : p.pending n = true
  before : ∀ x ∈ priority, priority.idxOf x < priority.idxOf n → p.pending x = false

namespace Head

variable {j : Nat}

theorem master_isr (h : p.Head n) : p.master.isr = 0 := h.between.master

theorem wired_isr (h : p.Head n) : p.wired.isr = 0 := h.between.master

theorem clear (h : p.Head n) (k : Nat) : p.master.isr.getLsbD k = false := by
  rw [h.master_isr]
  simp

theorem slave_clear (h : p.Head n) (k : Nat) : p.slave.isr.getLsbD k = false := by
  rw [h.between.slave]
  simp

/-- A line of the master is the one the master interrupts for. -/
theorem next_master (h : p.Head n) (hlt : n < 8) (hne : n ≠ 2) : p.wired.next = some n := by
  have hwants : ∀ k, k < 8 → k ≠ 2 → p.wired.wants k = p.pending k := fun k hk hk2 => by
    rw [wired_wants, if_neg hk2]
    unfold Pics.pending chip
    rw [if_pos hk, Nat.mod_eq_of_lt hk]
    simp [Chip.wants, hk]
  refine next_of_idle h.wired_isr hlt (by rw [hwants n hlt hne, h.pending]) fun k hk => ?_
  obtain rfl | hk2 := eq_or_ne k 2
  · -- no line of the slave waits
    refine wired_wants_two h.between.slave fun j hj => h.before _ ?_ ?_
    · have hall : ∀ j < 8, 8 + j ∈ priority := by decide
      exact hall j hj
    · have hall : ∀ n < 8, 2 < n → ∀ j < 8, priority.idxOf (8 + j) < priority.idxOf n := by decide
      exact hall n hlt hk j hj
  · rw [hwants k (by omega) hk2]
    have hall : ∀ n < 8, ∀ k < n,
      n = 2 ∨ k = 2 ∨ k ∈ priority ∧ priority.idxOf k < priority.idxOf n := by decide
    obtain ⟨hkm, hkn⟩ := ((hall n hlt k hk).resolve_left hne).resolve_left hk2
    exact h.before k hkm hkn

/-- For a line of the slave the slave interrupts, and the master for the slave. -/
theorem next_slave (h : p.Head (8 + j)) (hj : j < 8) :
    p.slave.next = some j ∧ p.wired.next = some 2 := by
  have hn := h.pending
  unfold Pics.pending chip at hn
  rw [if_neg (by omega), show (8 + j) % 8 = j by omega] at hn
  obtain ⟨hwants, hopen⟩ := Bool.and_eq_true_iff.1 hn
  have h2 : p.master.imr.getLsbD 2 = false := by simpa using hopen
  have hslave : p.slave.next = some j := by
    refine next_of_idle h.between.slave hj hwants fun k hk => slave_wants h2 (by omega) ?_
    have hall : ∀ j < 8, ∀ k < j,
      8 + k ∈ priority ∧ priority.idxOf (8 + k) < priority.idxOf (8 + j) := by decide
    obtain ⟨hkm, hkn⟩ := hall j hj k hk
    exact h.before _ hkm hkn
  refine ⟨hslave, next_of_idle h.wired_isr (by decide) ?_ fun k hk => ?_⟩
  · rw [wired_wants, if_pos rfl, hslave, h2]
    rfl
  · have hall : ∀ j < 8, ∀ k < 2,
      k ∈ priority ∧ priority.idxOf k < priority.idxOf (8 + j) := by decide
    obtain ⟨hkm, hkn⟩ := hall j hj k hk
    have hpending := h.before k hkm hkn
    rw [wired_wants, if_neg (by omega)]
    unfold Pics.pending chip at hpending
    rw [if_pos (by omega), Nat.mod_eq_of_lt (by omega)] at hpending
    simpa [Chip.wants, show k < 8 by omega] using hpending

theorem taken_master (h : p.Head n) (hlt : n < 8) (hne : n ≠ 2) :
    ∃ b, p.interrupt [] [] = (some ⟨n, true⟩,
      ⟨{ p.master with irr := putBit p.master.irr n false, readIsr := b }, p.slave⟩) := by
  obtain ⟨b, hrun⟩ := irqHandler_master hlt fun k _ => h.clear k
  have hv : ((p.master.ack n).base + BitVec.ofNat 8 n - 0x20).toNat = n := by
    rw [show (p.master.ack n).base = 0x20 from h.between.ready.master.1]
    exact vector_master n hlt
  have hserved : (Pics.chip { p with master := p.master.ack n } n).isr.getLsbD (n % 8) = true := by
    unfold chip
    rw [if_pos hlt, Nat.mod_eq_of_lt hlt, Chip.ack_isr _ hlt, if_pos rfl]
  refine ⟨b, ?_⟩
  unfold interrupt acknowledge
  simp only [withdraw, List.foldl_nil, h.next_master hlt hne, if_neg hne, hv, hserved, hrun]

theorem taken_slave (h : p.Head (8 + j)) (hj : j < 8) :
    ∃ b, p.interrupt [] [] = (some ⟨8 + j, true⟩,
      ⟨{ p.master.ack 2 with isr := putBit (p.master.ack 2).isr 2 false },
        { p.slave with irr := putBit p.slave.irr j false, readIsr := b }⟩) := by
  obtain ⟨hslave, hnext⟩ := h.next_slave hj
  have hmaster : ∀ k, (p.master.ack 2).isr.getLsbD k = if k = 2 then true else false := fun k => by
    rw [Chip.ack_isr _ (by decide), h.clear k]
  obtain ⟨b, hrun⟩ := irqHandler_slave (r := { p with master := p.master.ack 2 }) hj
    (fun k hk => by rw [hmaster, if_neg (by omega)]) (by rw [hmaster, if_pos rfl])
    fun k _ => h.slave_clear k
  have hv : (p.slave.base + BitVec.ofNat 8 j - 0x20).toNat = 8 + j := by
    rw [h.between.ready.slave.1]
    exact vector_slave j hj
  have hserved : (Pics.chip ⟨p.master.ack 2, p.slave.ack j⟩ (8 + j)).isr.getLsbD ((8 + j) % 8) =
      true := by
    unfold chip
    rw [if_neg (by omega), show (8 + j) % 8 = j by omega, Chip.ack_isr _ hj, if_pos rfl]
  refine ⟨b, ?_⟩
  unfold interrupt acknowledge
  simp only [withdraw, List.foldl_nil, hnext, if_true, hslave, hv, hserved, hrun]

/-- **The line is taken**, waits no longer, and no other line is touched. -/
theorem taken (h : p.Head n) :
    (p.interrupt [] []).1 = some ⟨n, true⟩ ∧ Between false (p.interrupt [] []).2 ∧
      ∀ x ∈ priority, (p.interrupt [] []).2.pending x = (p.pending x && x != n) := by
  obtain ⟨hr, -, hs⟩ := h.between
  have hlines : ∀ n ∈ priority, n < 16 ∧ n ≠ 2 := by decide
  obtain ⟨h16, hne⟩ := hlines n h.mem
  by_cases hlt : n < 8
  · obtain ⟨b, hrun⟩ := h.taken_master hlt hne
    rw [hrun]
    refine ⟨rfl, ⟨⟨hr.master, hr.slave⟩, h.master_isr, hs⟩, fun x _ => ?_⟩
    unfold Pics.pending chip
    by_cases hx8 : x < 8
    · simp only [if_pos hx8, Nat.mod_eq_of_lt hx8, Chip.wants, getLsbD_putBit _ hlt]
      by_cases hxn : x = n <;> simp [hxn, hx8]
    · have hxn : x ≠ n := by omega
      simp [hx8, hxn]
  · obtain ⟨j, hj, rfl⟩ : ∃ j, j < 8 ∧ n = 8 + j := ⟨n - 8, by omega, by omega⟩
    obtain ⟨b, hrun⟩ := h.taken_slave hj
    rw [hrun]
    refine ⟨rfl, ⟨⟨hr.master, hr.slave⟩, (putBit_done (by decide) (h.clear 2)).trans h.master_isr,
      hs⟩, fun x hx => ?_⟩
    obtain ⟨hx16, hx2⟩ := hlines x hx
    unfold Pics.pending chip
    by_cases hx8 : x < 8
    · have hxn : x ≠ 8 + j := by omega
      simp only [if_pos hx8, Nat.mod_eq_of_lt hx8, Chip.wants, Chip.ack,
        getLsbD_putBit _ (show 2 < 8 by decide), if_neg hx2]
      simp [hxn]
    · have hiff : x % 8 = j ↔ x = 8 + j := by omega
      simp only [if_neg hx8, Chip.wants, getLsbD_putBit _ hj, hiff, Chip.ack]
      by_cases hxn : x = 8 + j <;> simp [hxn]

end Head

theorem head_of_queue (h : Between false p) (hq : p.queue = n :: ns) : p.Head n := by
  obtain ⟨hmem, hn, hbefore, -⟩ := filter_eq_cons priority_nodup hq
  exact ⟨h, hmem, hn, hbefore⟩

/-- One interrupt takes the head of the queue off. -/
theorem interrupt_queue (h : Between false p) (hq : p.queue = n :: ns) :
    (p.interrupt [] []).1 = some ⟨n, true⟩ ∧ Between false (p.interrupt [] []).2 ∧
      (p.interrupt [] []).2.queue = ns := by
  obtain ⟨htaken, hbetween, hpending⟩ := (head_of_queue h hq).taken
  refine ⟨htaken, hbetween, ?_⟩
  unfold queue
  rw [List.filter_congr hpending]
  exact (filter_eq_cons priority_nodup hq).2.2.2

/-- As many interrupts as lines wait serve all of them. -/
theorem drain (h : Between false p) {ns : List Nat} (hq : p.queue = ns) :
    (runEvents (List.replicate ns.length (.interrupt [] [])) p).1 = ns.map (⟨·, true⟩) ∧
      (runEvents (List.replicate ns.length (.interrupt [] [])) p).2.queue = [] := by
  induction ns generalizing p with
  | nil => exact ⟨rfl, hq⟩
  | cons n ns ih =>
    obtain ⟨htaken, hbetween, hrest⟩ := interrupt_queue h hq
    obtain ⟨hlog, hempty⟩ := ih hbetween hrest
    refine ⟨?_, hempty⟩
    change (p.interrupt [] []).1.toList ++ (runEvents _ (p.interrupt [] []).2).1 = _
    rw [htaken, hlog]
    rfl

end Pics

/-- **No request is lost**: after a run without a spurious IRQ15, and with no new requests, as many
interrupts as lines wait serve each of them once, in the order of priority. -/
theorem interrupts_delivered {p q : Pics} {es : List Event} {ts : List Taken}
    (hrun : runEvents es (picInit p) = (ts, q)) (h : ⟨15, false⟩ ∉ ts) :
    ∃ q', runEvents (List.replicate q.queue.length (.interrupt [] [])) q =
      (q.queue.map (⟨·, true⟩), q') ∧ q'.queue = [] := by
  have hbetween := runEvents_between es (picInit_between p)
  rw [hrun] at hbetween
  obtain ⟨-, hend⟩ | ⟨xs, ys, rfl, -, -, -⟩ := hbetween
  · obtain ⟨hlog, hempty⟩ := Pics.drain hend rfl
    exact ⟨_, Prod.ext hlog rfl, hempty⟩
  · exact absurd (by simp) h

/-- The mouse and the keyboard request. -/
def twoRequests : Pics := (runEvents [.setLine 12 true, .setLine 1 true] (picInit blankPics)).2

/-- The keyboard comes first. -/
theorem interrupts_delivered_two :
    ∃ q', runEvents (List.replicate 2 (.interrupt [] [])) twoRequests =
      ([⟨1, true⟩, ⟨12, true⟩], q') ∧ q'.queue = [] := by
  have hqueue : twoRequests.queue = [1, 12] := by decide
  have hboth := interrupts_delivered
    (show runEvents [.setLine 12 true, .setLine 1 true] (picInit blankPics) = ([], twoRequests) from
      rfl) List.not_mem_nil
  rwa [hqueue] at hboth

end HaoSys.Irq
