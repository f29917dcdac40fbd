import HaoSys.Syscall.Dispatch
import HaoSys.Syscall.Machine

/-!
# Credentials over a task's life

A task starts as root and may give its privileges up with `setuid`. The branch
of `setuid` and `setgid` that is left to other users sets the effective id to
the real one; it changes nothing because the two are the same in every state a
task reaches, so a privilege given up is gone.
-/

namespace HaoSys.Syscall

open HaoSys.Driver HaoSys.Fs

/-- A run of a task: its own system calls and, between them, whatever the rest of the system does
to memory, devices and the screen. -/
inductive Reaches : System → System → Prop
  | refl (s : System) : Reaches s s
  | call {s t u : System} {fuel : Nat} {env : Env} {regs : Regs} {v : Option UInt32} :
    Reaches s t → t.syscallDispatcher fuel env regs = .ok (v, u) → Reaches s u
  | world {s t u : System} : Reaches s t → u.task = t.task → Reaches s u

namespace Creds

/-- The effective ids are the real ones. -/
def Balanced (c : Creds) : Prop := c.uid = c.euid ∧ c.gid = c.egid

theorem balanced_root : Creds.root.Balanced := ⟨rfl, rfl⟩

/-- `setuid` on equal ids: equal ids again, and the same ones without privileges. -/
theorem Balanced.sysSetuid {c : Creds} (h : c.Balanced) (uid : UInt32) :
    ∃ c', (sysSetuid (some c) uid).2 = some c' ∧ c'.Balanced ∧ (c.euid ≠ 0 → c' = c) := by
  simp only [Syscall.sysSetuid]
  by_cases hroot : c.euid = 0
  · rw [if_pos hroot]
    exact ⟨_, rfl, ⟨rfl, h.2⟩, fun hne => absurd hroot hne⟩
  · rw [if_neg hroot]
    by_cases hself : uid = c.uid
    · have hsame : { c with euid := uid } = c := by
        rw [hself]
        exact congrArg (fun u => Creds.mk c.uid c.gid u c.egid) h.1
      rw [if_pos hself, hsame]
      exact ⟨c, rfl, h, fun _ => rfl⟩
    · rw [if_neg hself]
      exact ⟨c, rfl, h, fun _ => rfl⟩

theorem Balanced.sysSetgid {c : Creds} (h : c.Balanced) (gid : UInt32) :
    ∃ c', (sysSetgid (some c) gid).2 = some c' ∧ c'.Balanced ∧ (c.euid ≠ 0 → c' = c) := by
  simp only [Syscall.sysSetgid]
  by_cases hroot : c.euid = 0
  · rw [if_pos hroot]
    exact ⟨_, rfl, ⟨h.1, rfl⟩, fun hne => absurd hroot hne⟩
  · rw [if_neg hroot]
    by_cases hself : gid = c.gid
    · have hsame : { c with egid := gid } = c := by
        rw [hself]
        exact congrArg (fun g => Creds.mk c.uid c.gid c.euid g) h.2
      rw [if_pos hself, hsame]
      exact ⟨c, rfl, h, fun _ => rfl⟩
    · rw [if_neg hself]
      exact ⟨c, rfl, h, fun _ => rfl⟩

end Creds

/-- One call. -/
theorem call_balanced {fuel : Nat} {env : Env} {s t : System} {regs : Regs} {v : Option UInt32}
    {c : Creds} (hs : s.task = some c) (h : c.Balanced)
    (hcall : s.syscallDispatcher fuel env regs = .ok (v, t)) :
    ∃ c', t.task = some c' ∧ c'.Balanced ∧ (c.euid ≠ 0 → c' = c) := by
  obtain ht | ht | ht := System.syscallDispatcher_task hcall
  · exact ⟨c, ht.trans hs, h, fun _ => rfl⟩
  · rw [hs] at ht
    rw [ht]
    exact h.sysSetuid regs.ebx
  · rw [hs] at ht
    rw [ht]
    exact h.sysSetgid regs.ebx

/-- A run, by induction on its steps. -/
theorem Reaches.balanced {s t : System} (hrun : Reaches s t) {c : Creds} (hs : s.task = some c)
    (h : c.Balanced) : ∃ c', t.task = some c' ∧ c'.Balanced ∧ (c.euid ≠ 0 → c' = c) := by
  induction hrun with
  | refl => exact ⟨c, hs, h, fun _ => rfl⟩
  | call _ hcall ih =>
    obtain ⟨c₁, ht, h₁, hsame₁⟩ := ih
    obtain ⟨c₂, hu, h₂, hsame₂⟩ := call_balanced ht h₁ hcall
    refine ⟨c₂, hu, h₂, fun hne => ?_⟩
    have hc := hsame₁ hne
    rw [← hc]
    exact hsame₂ (hc ▸ hne)
  | world _ hw ih =>
    obtain ⟨c₁, ht, h₁, hsame₁⟩ := ih
    exact ⟨c₁, hw.trans ht, h₁, hsame₁⟩

/-- **A privilege given up is gone.** In every state that a task reaches from zero credentials the
effective ids are the real ones, and once the effective user is not root nothing the task calls
changes any of the four. -/
theorem privilege_drop_irreversible {s t : System} (hs : s.task = some Creds.root)
    (hrun : Reaches s t) :
    ∃ c, t.task = some c ∧ c.uid = c.euid ∧ c.gid = c.egid ∧
      (c.euid ≠ 0 → ∀ u, Reaches t u → u.task = some c) := by
  obtain ⟨c, ht, h, -⟩ := hrun.balanced hs Creds.balanced_root
  refine ⟨c, ht, h.1, h.2, fun hne u hu => ?_⟩
  obtain ⟨c', hu', -, hsame⟩ := hu.balanced ht h
  rw [hu', hsame hne]

/-- A system at boot, with a task that is root. -/
def bootSystem : System :=
  ⟨openVmm, fun _ => 0, MountTable.empty fun _ => Disk.ofSectors fun _ => Sector.zero,
    Console.boot fun _ => 0, some Creds.root⟩

/-- A task that has become user 1000 stays so. -/
theorem privilege_drop_1000 :
    let t := { bootSystem with task := some ⟨1000, 0, 1000, 0⟩ }
    ∃ c, t.task = some c ∧ c.uid = c.euid ∧ c.gid = c.egid ∧
      (c.euid ≠ 0 → ∀ u, Reaches t u → u.task = some c) := by
  have hcall : bootSystem.syscallDispatcher 0 ⟨0, 0, 0, 0, []⟩ ⟨42, 1000, 0, 0, 0⟩ =
      .ok (some 0, { bootSystem with task := some ⟨1000, 0, 1000, 0⟩ }) := rfl
  exact privilege_drop_irreversible (s := bootSystem) rfl (.call (.refl _) hcall)

end HaoSys.Syscall
