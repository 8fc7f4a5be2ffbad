import Certikos.FileSys.Calls

/-!
# What holds of every run

The runs begin after `devinit`, with any disk and any threads; the processes make any calls and take turns in any order.
-/

namespace Certikos.FileSys
open Lib
open Fs (nbuf Block Disk rootdev)

section Boot

variable (disk : Disk) (live : Nat → Bool) (null : Inode) (devsw : Nat → Bool × Bool) (eax : Nat → Word)

theorem booted_settled : Settled rules Idle (booted disk live null devsw eax) where
  inv := by
    have unheld : ∀ r, (boot disk live null devsw eax).busy r = false := by
      intro r
      cases r with
      | inode ip => cases ip <;> rfl
      | buf b => rfl
    refine ⟨⟨?_, ?_, ?_, ?_, ?_, ?_, ?_, ?_, ?_⟩, ⟨?_, ?_⟩⟩
    · simp [booted, boot]
    · simp [booted, unheld]
    · simp [booted, boot, ledger]
    · simp [booted, ledger]
    · simp [booted, ledger, Ledger.Holding]
    · simp [booted, boot, ledger]
    · simp [booted, boot]
    · exact fun _ => trivial
    · exact fun _ => trivial
    · simp [booted, boot, ledger]
    · simp [booted, ledger]
  seated p := by
    refine ⟨?_, rfl⟩
    simp [booted, ledger, Ledger.Holding]

theorem booted_ends (es : List (Event Nat Trap)) :
    Ends rules Idle (run kernel.step (booted disk live null devsw eax) es) :=
  kernel_sound.ends_run (booted_settled disk live null devsw eax) es

theorem reached_settled {es : List (Event Nat Trap)} {k : Kernel}
    (reached : run kernel.step (booted disk live null devsw eax) es = .ok k) : Settled rules Idle k := by
  have ends := booted_ends disk live null devsw eax es
  rw [reached] at ends
  exact ends

/-- However the processes take turns, at most one is in a transaction, what is busy has a holder, and a process outside
of a call has given back what it took. -/
theorem run_oneTransaction (es : List (Event Nat Trap)) (k : Kernel)
    (reached : run kernel.step (booted disk live null devsw eax) es = .ok k) :
    (k.state.log.busy = true ↔ ∃! p, (ledger k.history).inTrans p = true) ∧
      (∀ r, k.state.busy r = true → ∃ p, (ledger k.history).holder r = some p) ∧
      ∀ p, k.parked p = none → ¬(ledger k.history).Holding p := by
  have settled := reached_settled disk live null devsw eax reached
  have base := settled.inv.1
  refine ⟨base.transBusy.trans ⟨?_, ExistsUnique.exists⟩, base.busy, fun p away => (settled.outside away).1⟩
  rintro ⟨p, inside⟩
  exact ⟨p, inside, fun q other => base.oneTrans q p other inside⟩

end Boot

/-! ## A small disk -/

def dirBlock : List (BitVec 16 × List Byte) → Nat → Block → Block
  | [], _, b => b
  | (inum, name) :: entries, off, b => dirBlock entries (off + direntSize) (setBytes b off (direntBytes inum name))

def oneBlock (type nlink : BitVec 16) (size sector : Word) : Dinode :=
  ⟨type, 0, 0, nlink, size, fun k => if k.val = 0 then sector else 0⟩

def sampleDisk : Disk := fun a =>
  let empty : Block := fun _ => 0
  if a.drive ≠ rootdev then empty
  else if a.sector = 1 then fun w =>
    if w.val = 0 then 1024 else if w.val = 1 then 985 else if w.val = 2 then 8 else if w.val = 3 then 10 else 0
  else if a.sector = 2 then
    setDinode (setDinode (setDinode empty 1 (oneBlock tDir 2 64 5)) 2 (oneBlock tDir 1 32 6)) 3 (oneBlock tFile 1 5 7)
  else if a.sector = 4 then fun w => if w.val = 0 then 0xff else 0
  else if a.sector = 5 then dirBlock [(1, [46]), (1, [46, 46]), (2, [100]), (3, [102])] 0 empty
  else if a.sector = 6 then dirBlock [(2, [46]), (1, [46, 46])] 0 empty
  else empty

def zeroInode : Inode where
  type := 0
  major := 0
  minor := 0
  nlink := 0
  size := 0
  addrs _ := 0
  dev := 0
  inum := 0
  ref := 0
  busy := false
  valid := false

def sampleKernel : Kernel :=
  booted sampleDisk (fun p => p = 1 ∨ p = 2 ∨ p = 3) zeroInode (fun _ => (false, false)) fun _ => 0

def diskTurns (n : Nat) : List (Event Nat Trap) := (List.replicate n [.enter 2 (.ideIntr false), .resume 1]).flatten

def openedFile : List (Event Nat Trap) := .enter 1 (.open [47, 102] 0) :: diskTurns 5

theorem run_oneTransaction_openedFile : Reaches (run kernel.step sampleKernel openedFile) fun k =>
    k.state.log.busy = true ↔ ∃! p, (ledger k.history).inTrans p = true := by
  have reaches : Reaches (run kernel.step sampleKernel openedFile) fun _ => True := by decide +kernel
  obtain ⟨k, reached, -⟩ := reaches
  exact ⟨k, reached, (run_oneTransaction _ _ _ _ _ _ k reached).1⟩

/-! ## Killed processes -/

def Owner (k : Kernel) (q : Nat) : Prop := k.state.thread q ≠ .dead ∧ k.parked q ≠ none

structure NoOrphans (k : Kernel) : Prop where
  log : k.state.log.busy = true → ∃ q, (ledger k.history).inTrans q = true ∧ Owner k q
  inode : ∀ i, (k.state.inode (some i)).busy = true →
    ∃ q, (ledger k.history).holder (.inode (some i)) = some q ∧ Owner k q
  buf : ∀ b, (k.state.buf b).busy = true → ∃ q, (ledger k.history).holder (.buf b) = some q ∧ Owner k q

theorem owner_of_holding {k : Kernel} {q : Nat} (settled : Settled rules Idle k) (kills : Always KillsIdle k.history)
    (holding : (ledger k.history).Holding q) : Owner k q :=
  ⟨settled.inv.1.alive kills q holding, fun away => (settled.outside away).1 holding⟩

/-- If nobody is killed who is in a transaction or holds an inode or a buffer, whatever is held has an owner that will go
on. -/
theorem run_noOrphans (disk : Disk) (live : Nat → Bool) (null : Inode) (devsw : Nat → Bool × Bool) (eax : Nat → Word)
    (es : List (Event Nat Trap)) (k : Kernel) (reached : run kernel.step (booted disk live null devsw eax) es = .ok k)
    (kills : Always KillsIdle k.history) : NoOrphans k := by
  have settled := reached_settled disk live null devsw eax reached
  have base := settled.inv.1
  have held : ∀ r, k.state.busy r = true → ∃ q, (ledger k.history).holder r = some q ∧ Owner k q := by
    intro r busy
    obtain ⟨q, holder⟩ := base.busy r busy
    exact ⟨q, holder, owner_of_holding settled kills (holding_of_holder holder)⟩
  refine ⟨?_, fun i => held (.inode (some i)), fun b => held (.buf b)⟩
  intro busy
  obtain ⟨q, inside⟩ := base.transBusy.mp busy
  exact ⟨q, inside, owner_of_holding settled kills (.inl inside)⟩

theorem run_noOrphans_otherKilled :
    Reaches (run kernel.step sampleKernel (openedFile ++ [.enter 1 (.mkdir [47, 120]), .enter 2 (.kill 3 9)])) fun k =>
      k.state.log.busy = true ∧ Always KillsIdle k.history ∧ NoOrphans k := by
  have reaches : Reaches
      (run kernel.step sampleKernel (openedFile ++ [.enter 1 (.mkdir [47, 120]), .enter 2 (.kill 3 9)])) fun k =>
        k.state.log.busy = true ∧ Always KillsIdle k.history := by decide +kernel
  obtain ⟨k, reached, busy, kills⟩ := reaches
  exact ⟨k, reached, busy, kills, run_noOrphans _ _ _ _ _ _ k reached kills⟩

theorem mkdir_killed_orphan :
    Reaches (run kernel.step sampleKernel (openedFile ++ [.enter 1 (.mkdir [47, 120]), .enter 2 (.kill 1 9)])) fun k =>
      ¬ NoOrphans k := by
  have reaches : Reaches
      (run kernel.step sampleKernel (openedFile ++ [.enter 1 (.mkdir [47, 120]), .enter 2 (.kill 1 9)])) fun k =>
        k.state.log.busy = true ∧ (ledger k.history).inTrans 1 = true ∧ k.state.thread 1 = .dead := by decide +kernel
  obtain ⟨k, reached, busy, inside, dead⟩ := reaches
  refine ⟨k, reached, ?_⟩
  intro none
  obtain ⟨q, inside', alive, -⟩ := none.log busy
  have only := (reached_settled _ _ _ _ _ reached).inv.1.oneTrans q 1 inside' inside
  rw [only] at alive
  exact alive dead

/-! ## Spinlocks -/

/-- Between two turns every spinlock is free exactly if nobody is in `sys_read` or `sys_write`. -/
theorem run_locks_free_iff (disk : Disk) (live : Nat → Bool) (null : Inode) (devsw : Nat → Bool × Bool)
    (eax : Nat → Word) (es : List (Event Nat Trap)) (k : Kernel)
    (reached : run kernel.step (booted disk live null devsw eax) es = .ok k) :
    (∀ l, k.state.locks l = false) ↔ ∀ q, (ledger k.history).inBuffered q = false := by
  have inv := (reached_settled disk live null devsw eax reached).inv
  constructor
  · intro free q
    by_contra inside
    have taken := inv.2.lock.mpr ⟨q, by simpa using inside⟩
    rw [free] at taken
    cases taken
  · intro outside l
    by_contra taken
    have isBuf := (inv.1.locks l (by simpa using taken)).resolve_left (by simp)
    rw [isBuf] at taken
    obtain ⟨q, inside⟩ := inv.2.lock.mp (by simpa using taken)
    rw [outside q] at inside
    cases inside

theorem run_locks_free_iff_opened : Reaches (run kernel.step sampleKernel openedFile) fun k =>
    ((∀ l, k.state.locks l = false) ↔ ∀ q, (ledger k.history).inBuffered q = false) := by
  have reaches : Reaches (run kernel.step sampleKernel openedFile) fun _ => True := by decide +kernel
  obtain ⟨k, reached, -⟩ := reaches
  exact ⟨k, reached, run_locks_free_iff _ _ _ _ _ _ k reached⟩

theorem sysRead_sleeps_locked :
    (Reaches (run kernel.step sampleKernel (openedFile ++ [.enter 1 (.read 0 0x40000000 5)])) fun k =>
      (∃ b, k.state.thread 1 = .asleep (.buf b)) ∧ k.state.locks .buf = true) ∧
    Halts (run kernel.step sampleKernel
      (openedFile ++ [.enter 1 (.read 0 0x40000000 5), .enter 2 (.read 0 0x40000000 5)])) fun e =>
        e.reason = .spins .buf := by
  decide +kernel

/-! ## Log writes -/

def notesOf : Except (Stopped Nat State Stop Note) Kernel → Notes
  | .ok k => k.history
  | .error e => e.history

/-- If outside its own transactions no process frees an inode or finds a block missing, it never logs a block there. -/
theorem run_logsInTrans (disk : Disk) (live : Nat → Bool) (null : Inode) (devsw : Nat → Bool × Bool) (eax : Nat → Word)
    (es : List (Event Nat Trap)) (r : Except (Stopped Nat State Stop Note) Kernel)
    (result : run kernel.step (booted disk live null devsw eax) es = r) (frees : Always FreesInTrans (notesOf r)) :
    Always LogsInTrans (notesOf r) ∧ ¬ Halts r fun e => e.reason = .panic "write outside of trans" := by
  have ends := booted_ends disk live null devsw eax es
  rw [result] at ends
  cases r with
  | ok k =>
    refine ⟨ends.inv.1.logged frees, ?_⟩
    rintro ⟨e, stopped, -⟩
    cases stopped
  | error e =>
    obtain ⟨logs, other⟩ := ends.1 frees
    refine ⟨logs, ?_⟩
    rintro ⟨e', stopped, reason⟩
    cases stopped
    exact other reason

theorem run_logsInTrans_mkdir :
    Reaches (run kernel.step sampleKernel (openedFile ++ [.enter 1 (.mkdir [47, 120])] ++ diskTurns 4)) fun k =>
      Always FreesInTrans k.history ∧ Always LogsInTrans k.history := by
  have reaches : Reaches
      (run kernel.step sampleKernel (openedFile ++ [.enter 1 (.mkdir [47, 120])] ++ diskTurns 4)) fun k =>
        Always FreesInTrans k.history := by decide +kernel
  obtain ⟨k, reached, frees⟩ := reaches
  exact ⟨k, reached, frees, (run_logsInTrans _ _ _ _ _ _ (.ok k) reached frees).1⟩

def diskBmap (disk : Disk) (x : Dinode) (bn : Nat) : Word :=
  if bn < ndirect then x.addrs (Fin.ofNat (ndirect + 1) bn)
  else if x.addrs (Fin.ofNat (ndirect + 1) ndirect) = 0 then 0
  else disk ⟨rootdev, x.addrs (Fin.ofNat (ndirect + 1) ndirect)⟩ (Fin.ofNat 128 (bn - ndirect))

def NoHoles (disk : Disk) : Prop :=
  ∀ inum < (superblockOf (disk ⟨rootdev, 1⟩)).ninodes.toNat,
    let x := dinodeAt (disk ⟨rootdev, iblock (BitVec.ofNat 32 inum)⟩) (BitVec.ofNat 32 inum)
    x.type ≠ 0 → ∀ bn < x.size.toNat, bn * bsize < x.size.toNat → diskBmap disk x bn ≠ 0

instance (disk : Disk) : Decidable (NoHoles disk) := by
  unfold NoHoles
  infer_instance

theorem chdir_logs_outside : NoHoles sampleDisk ∧
    Halts (run kernel.step sampleKernel
      (openedFile ++ [.enter 1 (.ls 100 []), .enter 1 (.chdir [47, 100]), .enter 1 (.unlink [47, 100])] ++ diskTurns 9 ++
        [.enter 1 (.chdir [47])] ++ diskTurns 1)) fun e =>
        (ledger e.history).recovered = true ∧ e.reason = .panic "write outside of trans" := by
  decide +kernel

/-! ## Recovery -/

/-- If a call that takes a path waits for recovery, but for a first `sys_open`, then recovery precedes all use of the
file system. -/
theorem run_recoveryFirst (disk : Disk) (live : Nat → Bool) (null : Inode) (devsw : Nat → Bool × Bool)
    (eax : Nat → Word) (es : List (Event Nat Trap)) (r : Except (Stopped Nat State Stop Note) Kernel)
    (result : run kernel.step (booted disk live null devsw eax) es = r) (onTime : Always OnTime (notesOf r)) :
    Always RecoveryFirst (notesOf r) := by
  have ends := booted_ends disk live null devsw eax es
  rw [result] at ends
  cases r with
  | ok k => exact ends.inv.1.recovery onTime
  | error e => exact ends.2 onTime

theorem run_recoveryFirst_opened : Reaches (run kernel.step sampleKernel openedFile) fun k =>
    Always OnTime k.history ∧ Always RecoveryFirst k.history := by
  have reaches : Reaches (run kernel.step sampleKernel openedFile) fun k => Always OnTime k.history := by decide +kernel
  obtain ⟨k, reached, onTime⟩ := reaches
  exact ⟨k, reached, onTime, run_recoveryFirst _ _ _ _ _ _ (.ok k) reached onTime⟩

theorem mkdir_before_recovery : Reaches (run kernel.step sampleKernel [.enter 1 (.mkdir [47, 120])]) fun k =>
    (1, .beginTrans) ∈ k.history ∧ (∃ n ∈ k.history, n.1 = 1 ∧ n.2 = .block rootdev 2) ∧
      (ledger k.history).initialised = false ∧ (ledger k.history).recovered = false ∧
        ¬ Always RecoveryFirst k.history := by
  decide +kernel

end Certikos.FileSys
