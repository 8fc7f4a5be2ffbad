import Certikos.FileSys.Syscall
import Certikos.Ipc.Lock

/-!
# Values from the user as indices

The tables of the kernel that are indexed with an argument of a system call. Each handler tests the argument, or uses
it only once it has found it in the kernel's own data, except `sys_is_dir`.
-/

namespace Certikos
open Lib

inductive Table
  | openfiles
  | tcbPool
  | msgBlock
  | sigactions
  | container
  | path
  deriving DecidableEq

def Table.size : Table → Nat
  | .openfiles => FileSys.nofile
  | .tcbPool => numIds
  | .msgBlock => numIds
  | .sigactions => nsig
  | .container => numIds
  | .path => 128

structure Access where
  table : Table
  index : Int
  deriving DecidableEq

def Access.InBounds (a : Access) : Prop := 0 ≤ a.index ∧ a.index < a.table.size
deriving Decidable

def pathAccesses (pathLen : Word) : List Access :=
  let len := if pathLen.toNat < 128 then pathLen.toNat else 127
  (List.range (len + 1)).map fun i : Nat => ⟨.path, (i : Int)⟩

def fileAccesses (tf : TrapFrame) : List Access :=
  match FileSys.badArgs (syscallGetArg2 tf) (syscallGetArg3 tf) (syscallGetArg4 tf) with
  | some _ => []
  | none => [⟨.openfiles, (syscallGetArg2 tf).toInt⟩]

def closeAccesses (tf : TrapFrame) : List Access :=
  let fd := syscallGetArg2 tf
  if FileSys.nofile ≤ fd.toNat then [] else [⟨.openfiles, fd.toNat⟩]

def fstatAccesses (tf : TrapFrame) : List Access :=
  let fd := (syscallGetArg2 tf).toInt
  let userStp := syscallGetArg3 tf
  if fd < 0 ∨ (FileSys.nofile : Int) ≤ fd ∨ userStp.toNat < vmUserlo ∨
      vmUserhi < (userStp + BitVec.ofNat 32 FileSys.sizeofFileStat).toNat then []
  else [⟨.openfiles, fd⟩]

def isDirAccesses (tf : TrapFrame) : List Access := [⟨.openfiles, (syscallGetArg2 tf).toInt⟩]

/-- The condition of the loop of `sys_sync_recv`, and the message once it is there: `ipc_copy` may have to allocate a
page of the sender. While the sender has posted nothing, only the address of its `send_cv` is taken. -/
def recvAccesses (m : Messages) (curPid : Nat) (tf : TrapFrame) : List Access :=
  let sendPid := (syscallGetArg2 tf).toNat
  match msgGetBlockBySendID m sendPid with
  | none => []
  | some found =>
    if found = numIds then []
    else if (m.msgBlock sendPid).recvPid ≠ BitVec.ofNat 32 curPid then [⟨.msgBlock, sendPid⟩]
    else [⟨.msgBlock, sendPid⟩, ⟨.container, sendPid⟩]

def sigactionAccesses (tf : TrapFrame) : List Access :=
  let signum := (syscallGetArg2 tf).toInt
  if signum < 1 ∨ signum ≥ nsig then []
  else if syscallGetArg3 tf = 0#32 ∧ syscallGetArg4 tf = 0#32 then []
  else [⟨.sigactions, signum⟩]

def killAccesses (tf : TrapFrame) : List Access :=
  let pid := (syscallGetArg2 tf).toInt
  let signum := (syscallGetArg3 tf).toInt
  if signum < 1 ∨ signum ≥ nsig then []
  else if pid < 0 ∨ pid ≥ numIds then []
  else [⟨.tcbPool, pid⟩]

def userAccesses (m : Messages) (curPid : Nat) (tf : TrapFrame) : SyscallNr → List Access
  | .read | .write => fileAccesses tf
  | .close => closeAccesses tf
  | .stat => fstatAccesses tf
  | .isDir => isDirAccesses tf
  | .open => pathAccesses (syscallGetArg4 tf)
  | .mkdir | .chdir | .unlink => pathAccesses (syscallGetArg3 tf)
  | .link => pathAccesses (syscallGetArg4 tf) ++ pathAccesses (syscallGetArg5 tf)
  | .syncRecv => recvAccesses m curPid tf
  | .sigaction => sigactionAccesses tf
  | .kill => killAccesses tf
  | .puts | .spawn | .yield | .produce | .consume | .syncSend | .ls | .mv | .rm | .pwd | .cp | .cat | .touch
  | .readline | .pause | .sigreturn => []

/-! ## Message blocks -/

structure BlockRanged (pid : Nat) (b : MsgBlock) : Prop where
  next : b.next ≤ numIds
  prev : b.prev ≤ numIds
  number : b.sendPid = pid

structure Ranged (m : Messages) : Prop where
  head : m.msgQueue.head ≤ numIds
  tail : m.msgQueue.tail ≤ numIds
  block : ∀ p, p < numIds → BlockRanged p (m.msgBlock p)

section Blocks

variable {m : Messages} {p v : Nat}

theorem Ranged.init : Ranged ipcInit := ⟨le_rfl, le_rfl, fun _ _ => ⟨le_rfl, le_rfl, rfl⟩⟩

variable (h : Ranged m)
include h

theorem Ranged.modify {f : MsgBlock → MsgBlock} (keep : ∀ b, BlockRanged p b → BlockRanged p (f b)) :
    Ranged (modifyBlock m p f) := by
  refine ⟨h.head, h.tail, fun q lt => ?_⟩
  show BlockRanged q (Function.update m.msgBlock p (f (m.msgBlock p)) q)
  by_cases here : q = p
  · subst here
    rw [Function.update_self]
    exact keep _ (h.block q lt)
  · rw [Function.update_of_ne here]
    exact h.block q lt

theorem Ranged.setNext (le : v ≤ numIds) : Ranged (msgSetNext m p v) :=
  h.modify fun _ b => ⟨le, b.prev, b.number⟩

theorem Ranged.setPrev (le : v ≤ numIds) : Ranged (msgSetPrev m p v) :=
  h.modify fun _ b => ⟨b.next, le, b.number⟩

theorem Ranged.setQueue {q : MsgQueue} (head : q.head ≤ numIds) (tail : q.tail ≤ numIds) :
    Ranged { m with msgQueue := q } :=
  ⟨head, tail, h.block⟩

theorem Ranged.enqueue (lt : p < numIds) : Ranged (msgEnqueue m p) := by
  have le := le_of_lt lt
  unfold msgEnqueue
  dsimp only
  split
  · exact ((h.setPrev le_rfl).setNext le_rfl).setQueue le le
  · exact (((h.setNext le).setPrev h.tail).setNext le_rfl).setQueue h.head le

theorem Ranged.remove (lt : p < numIds) : Ranged (msgRemove m p) := by
  obtain ⟨next, prev, -⟩ := h.block p lt
  unfold msgRemove
  refine Ranged.setPrev (Ranged.setNext ?_ le_rfl) le_rfl
  split
  · split
    · exact h.setQueue le_rfl le_rfl
    · exact (h.setPrev le_rfl).setQueue next h.tail
  · split
    · exact (h.setNext le_rfl).setQueue h.head prev
    · exact (h.setNext next).setPrev prev

theorem Ranged.scan {sendPid fuel found : Nat} (le : p ≤ numIds)
    (scanned : msgScan m sendPid fuel p = some found) : found = numIds ∨ sendPid < numIds := by
  induction fuel generalizing p with
  | zero => cases scanned
  | succ fuel ih =>
    unfold msgScan at scanned
    split at scanned
    · cases scanned
      exact .inl rfl
    · rename_i other
      have lt : p < numIds := Nat.lt_of_le_of_ne le other
      split at scanned
      · rename_i same
        rw [(h.block p lt).number] at same
        exact .inr (same ▸ lt)
      · exact ih (h.block p lt).next scanned

end Blocks

/-! ## Runs -/

structure RangedIpc (s : IpcState) : Prop where
  scheduled : ∃ xs, Scheduled s.thread xs
  ranged : Ranged s.messages

section Steps

variable {L : IpcLayout} {s s' : IpcState} {tf : TrapFrame}

variable (h : RangedIpc s)
include h

theorem RangedIpc.sleep {call : IpcCall} {chan : Word} (slept : ipcSleep L s call chan = .ok s') : RangedIpc s' := by
  obtain ⟨thread, done, rfl⟩ := ipcSleep_ok slept
  obtain ⟨xs, scheduled⟩ := h.scheduled
  refine ⟨?_, h.ranged⟩
  cases xs with
  | nil =>
    obtain ⟨halt, stuck⟩ := threadSleep_nil scheduled chan L.msgLock_ne
    rw [stuck] at done
    cases done
  | cons p ys =>
    obtain ⟨t, here, next, -⟩ := threadSleep_switched scheduled chan L.msgLock_ne
    rw [here] at done
    cases done
    exact ⟨ys, next⟩

theorem RangedIpc.sendLoop (next : sendLoop L s tf = .ok s') : RangedIpc s' := by
  unfold Certikos.sendLoop at next
  dsimp only at next
  split at next
  · cases next
  · split at next
    · exact h.sleep next
    · cases next
      exact ⟨h.scheduled, h.ranged⟩

theorem RangedIpc.wakeup (chan : Word) : ∃ ys, Scheduled (threadWakeup s.thread chan) ys := by
  obtain ⟨xs, scheduled⟩ := h.scheduled
  obtain ⟨ys, woken, -⟩ := threadWakeup_spec chan scheduled
  exact ⟨ys, woken⟩

theorem RangedIpc.recvLoop (next : recvLoop L s tf = .ok s') : RangedIpc s' := by
  unfold Certikos.recvLoop at next
  dsimp only at next
  split at next
  · cases next
  · rename_i found scanned
    split at next
    · exact h.sleep next
    · rename_i leaves
      rw [not_or] at leaves
      have lt := (h.ranged.scan h.ranged.head scanned).resolve_left leaves.1
      have woken := h.wakeup (recvCv L (syscallGetArg2 tf).toNat)
      have done := Except.ok.inj next
      generalize threadWakeup s.thread (recvCv L (syscallGetArg2 tf).toNat) = thread at woken done
      rw [← done]
      exact ⟨woken, h.ranged.remove lt⟩

theorem RangedIpc.send (next : sysSyncSend L s tf = .ok s') : RangedIpc s' := by
  obtain ⟨xs, scheduled⟩ := h.scheduled
  have woken := h.wakeup (sendCv L (getCurid s.thread))
  unfold sysSyncSend at next
  dsimp only at next
  generalize threadWakeup s.thread (sendCv L (getCurid s.thread)) = thread at woken next
  apply RangedIpc.sendLoop ?_ next
  refine ⟨woken, Ranged.enqueue ?_ scheduled.curid_lt⟩
  exact h.ranged.modify fun _ b => ⟨b.next, b.prev, b.number⟩

theorem RangedIpc.kill (tf : TrapFrame) : ∃ ys, Scheduled (sysKill s.thread tf).1 ys := by
  obtain ⟨xs, scheduled⟩ := h.scheduled
  cases killed : sysKill s.thread tf with
  | mk t tf' =>
    cases killed ▸ sysKill_cases s.thread tf with
    | invalSignum => exact ⟨xs, scheduled⟩
    | invalPid => exact ⟨xs, scheduled⟩
    | terminated pid arg lt alive kill => exact ⟨_, scheduled.terminate lt⟩
    | posted pid arg lt alive signum signal pos bound other =>
      obtain ⟨ys, woken, -⟩ := wakeForSignal_tcbAdd (p := pid) scheduled signum
      exact ⟨ys, woken⟩

theorem RangedIpc.step {strict : Bool} {a : IpcAction} (next : ipcStep L strict s a = .ok s') : RangedIpc s' := by
  unfold ipcStep at next
  split at next
  · split at next
    · cases next
    · rename_i resumed
      cases ipcResume_ok resumed
      obtain ⟨xs, scheduled⟩ := h.scheduled
      have awake : RangedIpc { s with thread := threadSleepResume s.thread, msgLock := true } :=
        ⟨⟨xs, scheduled.congr (links_setChan ..) (fun q => state_setChan ..) (curid_setChan ..)⟩, h.ranged⟩
      split at next
      · exact awake.sendLoop next
      · exact awake.recvLoop next
  · split at next
    · exact h.send next
    · exact h.recvLoop next
    · cases next
      exact ⟨h.kill _, h.ranged⟩
    · split at next
      · cases next
      · rename_i yielded
        cases next
        obtain ⟨xs, scheduled⟩ := h.scheduled
        obtain ⟨t, ys, here, moved, -⟩ :=
          threadYield_spec scheduled.toReadyList scheduled.curid_lt scheduled.cur_not_ready
        rw [here] at yielded
        cases yielded
        exact ⟨⟨ys, moved⟩, h.ranged⟩

end Steps

/-! ## Every handler -/

def AllInBounds (accesses : List Access) : Prop := ∀ a ∈ accesses, a.InBounds

section Handlers

variable {m : Messages} {tf : TrapFrame}

theorem AllInBounds.nil : AllInBounds [] := nofun

theorem allInBounds_singleton {a : Access} : AllInBounds [a] ↔ a.InBounds := by
  simp [AllInBounds]

theorem pathAccesses_inBounds (pathLen : Word) : AllInBounds (pathAccesses pathLen) := by
  intro a member
  obtain ⟨i, inside, rfl⟩ := List.mem_map.1 member
  rw [List.mem_range] at inside
  refine ⟨Int.natCast_nonneg i, ?_⟩
  show (i : Int) < 128
  split at inside
  · omega
  · omega

theorem fileAccesses_inBounds (tf : TrapFrame) : AllInBounds (fileAccesses tf) := by
  unfold fileAccesses
  split
  · exact .nil
  · rename_i good
    rw [allInBounds_singleton]
    unfold FileSys.badArgs at good
    split at good
    · cases good
    · rename_i range
      rw [not_or, Int.not_lt, Int.not_le] at range
      exact range

theorem closeAccesses_inBounds (tf : TrapFrame) : AllInBounds (closeAccesses tf) := by
  unfold closeAccesses
  dsimp only
  split
  · exact .nil
  · rename_i range
    rw [allInBounds_singleton]
    exact ⟨Int.natCast_nonneg _, Int.ofNat_lt.2 (Nat.not_le.1 range)⟩

theorem fstatAccesses_inBounds (tf : TrapFrame) : AllInBounds (fstatAccesses tf) := by
  unfold fstatAccesses
  dsimp only
  split
  · exact .nil
  · rename_i range
    rw [allInBounds_singleton]
    rw [not_or, not_or, Int.not_lt, Int.not_le] at range
    exact ⟨range.1, range.2.1⟩

theorem sigactionAccesses_inBounds (tf : TrapFrame) : AllInBounds (sigactionAccesses tf) := by
  unfold sigactionAccesses
  dsimp only
  split
  · exact .nil
  · rename_i range
    split
    · exact .nil
    · rw [allInBounds_singleton]
      show 0 ≤ (syscallGetArg2 tf).toInt ∧ (syscallGetArg2 tf).toInt < nsig
      omega

theorem killAccesses_inBounds (tf : TrapFrame) : AllInBounds (killAccesses tf) := by
  unfold killAccesses
  dsimp only
  split
  · exact .nil
  · split
    · exact .nil
    · rename_i range
      rw [allInBounds_singleton]
      show 0 ≤ (syscallGetArg2 tf).toInt ∧ (syscallGetArg2 tf).toInt < numIds
      omega

theorem recvAccesses_inBounds (ranged : Ranged m) (curPid : Nat) (tf : TrapFrame) :
    AllInBounds (recvAccesses m curPid tf) := by
  unfold recvAccesses
  dsimp only
  split
  · exact .nil
  · rename_i found scanned
    split
    · exact .nil
    · rename_i there
      have lt := (ranged.scan ranged.head scanned).resolve_left there
      have inside (t : Table) (size : t.size = numIds) : Access.InBounds ⟨t, ((syscallGetArg2 tf).toNat : Int)⟩ :=
        ⟨Int.natCast_nonneg _, by rw [size]; exact Int.ofNat_lt.2 lt⟩
      split
      · exact allInBounds_singleton.2 (inside .msgBlock rfl)
      · intro a member
        simp only [List.mem_cons, List.not_mem_nil, or_false] at member
        rcases member with rfl | rfl
        · exact inside .msgBlock rfl
        · exact inside .container rfl

theorem isDirAccesses_inBounds_iff : AllInBounds (isDirAccesses tf) ↔ (syscallGetArg2 tf).toNat < FileSys.nofile := by
  rw [isDirAccesses, allInBounds_singleton]
  show 0 ≤ (syscallGetArg2 tf).toInt ∧ (syscallGetArg2 tf).toInt < FileSys.nofile ↔ _
  rw [BitVec.toInt_eq_toNat_cond]
  simp only [FileSys.nofile]
  split
  · omega
  · omega

theorem userAccesses_inBounds (ranged : Ranged m) (curPid : Nat) {n : SyscallNr} (other : n ≠ .isDir) :
    AllInBounds (userAccesses m curPid tf n) := by
  cases n with
  | isDir => exact absurd rfl other
  | read | write => exact fileAccesses_inBounds tf
  | close => exact closeAccesses_inBounds tf
  | stat => exact fstatAccesses_inBounds tf
  | «open» => exact pathAccesses_inBounds _
  | mkdir | chdir | unlink => exact pathAccesses_inBounds _
  | link =>
    intro a member
    rcases List.mem_append.1 member with member | member
    · exact pathAccesses_inBounds _ a member
    · exact pathAccesses_inBounds _ a member
  | syncRecv => exact recvAccesses_inBounds ranged curPid tf
  | sigaction => exact sigactionAccesses_inBounds tf
  | kill => exact killAccesses_inBounds tf
  | puts | spawn | yield | produce | consume | syncSend | ls | mv | rm | pwd | cp | cat | touch | readline | pause
  | sigreturn => exact .nil

end Handlers

/-- Whatever messages have been sent and received, a value from the user indexes a table within its bounds, unless it is
a descriptor given to `sys_is_dir` that is not one. -/
theorem run_userAccesses_iff (L : IpcLayout) (strict : Bool) (start : IpcState) (begins : IpcStart start)
    (actions : List IpcAction) (s : IpcState) (reached : run (ipcStep L strict) start actions = .ok s) (tf : TrapFrame)
    (n : SyscallNr) :
    (∀ a ∈ userAccesses s.messages (getCurid s.thread) tf n, a.InBounds) ↔
      (n = .isDir → (syscallGetArg2 tf).toNat < FileSys.nofile) := by
  have initial : RangedIpc start := ⟨begins.threads.scheduled, begins.messages ▸ Ranged.init⟩
  have ranged : RangedIpc s := run_invariant RangedIpc (fun _ _ _ before _ next => before.step next) initial
    (along_of_forall (fun _ _ => trivial) start) reached
  by_cases isDir : n = .isDir
  · subst isDir
    exact isDirAccesses_inBounds_iff.trans ⟨fun lt _ => lt, fun lt => lt rfl⟩
  · exact iff_of_true (userAccesses_inBounds ranged.ranged _ isDir) fun same => absurd same isDir

theorem run_userAccesses_iff_exchange : Reaches (run (ipcStep sampleIpcLayout false) pairStart exchange) fun s =>
    ∀ a ∈ userAccesses s.messages (getCurid s.thread) (syscallFrame .syncRecv 1000 0 0) .syncRecv, a.InBounds := by
  obtain ⟨s, reached, -⟩ := exchange_runs
  exact ⟨s, reached, (run_userAccesses_iff sampleIpcLayout false pairStart ⟨pairThreads_user, rfl, rfl, fun _ => rfl, rfl⟩
    exchange s reached (syscallFrame .syncRecv 1000 0 0) .syncRecv).2 nofun⟩

theorem sysIsDir_negative :
    ∃ a ∈ userAccesses ipcInit 1 (syscallFrame .isDir (-1) 0 0) .isDir, a.table = .openfiles ∧ a.index = -1 ∧
      ¬a.InBounds := by
  decide

end Certikos
