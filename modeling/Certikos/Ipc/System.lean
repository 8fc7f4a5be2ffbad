import Certikos.Ipc.Message

/-!
# Sending and receiving

`sys_sync_send` and `sys_sync_recv` by any number of processes on one CPU. A call that sleeps is suspended in its
loop; when its thread is scheduled again, it comes back from `thread_sleep` and tests its condition once more.
-/

namespace Certikos
open Lib

inductive IpcCall
  | send (tf : TrapFrame)
  | recv (tf : TrapFrame)

inductive IpcEvent
  | sent (sender : Nat) (receiver : Word)
  | received (receiver sender : Nat)
  | sendReturned (sender : Nat) (tf : TrapFrame)
  | recvReturned (receiver : Nat) (tf : TrapFrame)

structure IpcState where
  thread : ThreadState
  vm : VmState
  messages : Messages
  msgLock : Bool
  call : Nat → Option IpcCall
  history : List IpcEvent

inductive IpcStop
  | halted (halt : Halt ThreadState)
  | spins
  | loops

def ipcSleep (L : IpcLayout) (s : IpcState) (call : IpcCall) (chan : Word) : Except IpcStop IpcState :=
  match threadSleep s.thread chan L.msgLock with
  | .error halt => .error (.halted halt)
  | .ok thread =>
    .ok { s with
      thread := thread, msgLock := false, call := Function.update s.call (getCurid s.thread) (some call) }

/-- The rest of `thread_sleep`, which acquires the lock again. If it is not `strict`, the lock is taken to be free. -/
def ipcResume (strict : Bool) (s : IpcState) : Except IpcStop IpcState :=
  if strict ∧ s.msgLock then .error .spins
  else .ok { s with thread := threadSleepResume s.thread, msgLock := true }

def sendLoop (L : IpcLayout) (s : IpcState) (tf : TrapFrame) : Except IpcStop IpcState :=
  let curPid := getCurid s.thread
  match msgGetBlockBySendID s.messages curPid with
  | none => .error .loops
  | some found =>
    if found ≠ numIds then ipcSleep L s (.send tf) (recvCv L curPid)
    else
      .ok { s with
        call := Function.update s.call curPid none
        history := s.history ++ [.sendReturned curPid (syscallSetErrno tf .succ)] }

def sysSyncSend (L : IpcLayout) (s : IpcState) (tf : TrapFrame) : Except IpcStop IpcState :=
  let recvPid := syscallGetArg2 tf
  let userAddr := syscallGetArg3 tf
  let length := syscallGetArg4 tf
  let curPid := getCurid s.thread
  let messages := modifyBlock s.messages curPid fun b =>
    { b with recvPid := recvPid, bufferAddr := userAddr, length := length }
  sendLoop L
    { s with
      messages := msgEnqueue messages curPid
      thread := threadWakeup s.thread (sendCv L curPid)
      history := s.history ++ [.sent curPid recvPid] } tf

def recvLoop (L : IpcLayout) (s : IpcState) (tf : TrapFrame) : Except IpcStop IpcState :=
  let sendPid := (syscallGetArg2 tf).toNat
  let userRecvAddr := syscallGetArg3 tf
  let recvLength := syscallGetArg4 tf
  let curPid := getCurid s.thread
  match msgGetBlockBySendID s.messages sendPid with
  | none => .error .loops
  | some found =>
    if found = numIds ∨ (s.messages.msgBlock sendPid).recvPid ≠ BitVec.ofNat 32 curPid then
      ipcSleep L s (.recv tf) (sendCv L sendPid)
    else
      let userSendAddr := (s.messages.msgBlock sendPid).bufferAddr
      let sendLength := (s.messages.msgBlock sendPid).length
      let copyLength := if sendLength < recvLength then sendLength else recvLength
      .ok { s with
        vm := ipcCopy L s.vm curPid userRecvAddr sendPid userSendAddr copyLength
        messages := msgRemove s.messages sendPid
        thread := threadWakeup s.thread (recvCv L sendPid)
        call := Function.update s.call curPid none
        history := s.history ++ [.received curPid sendPid,
          .recvReturned curPid (syscallSetRetval1 (syscallSetErrno tf .succ) copyLength)] }

inductive IpcAction
  | send (tf : TrapFrame)
  | recv (tf : TrapFrame)
  | kill (tf : TrapFrame)
  | yield

def ipcStep (L : IpcLayout) (strict : Bool) (s : IpcState) (a : IpcAction) : Except IpcStop IpcState :=
  match s.call (getCurid s.thread) with
  | some call =>
    match ipcResume strict s with
    | .error stop => .error stop
    | .ok s =>
      match call with
      | .send tf => sendLoop L s tf
      | .recv tf => recvLoop L s tf
  | none =>
    match a with
    | .send tf => sysSyncSend L s tf
    | .recv tf => recvLoop L s tf
    | .kill tf => .ok { s with thread := (sysKill s.thread tf).1 }
    | .yield =>
      match threadYield s.thread with
      | .error halt => .error (.halted halt)
      | .ok thread => .ok { s with thread := thread }

structure UserThreads (s : ThreadState) : Prop where
  scheduled : ∃ xs, Scheduled s xs
  boot : tcbGetState s 0 ≠ .ready
  user : getCurid s ≠ 0

structure IpcStart (s : IpcState) : Prop where
  threads : UserThreads s.thread
  messages : s.messages = ipcInit
  lock : s.msgLock = false
  call : ∀ p, s.call p = none
  history : s.history = []

/-! ## What the thread functions do to sleepers -/

section Threads

variable {s s' : ThreadState}

theorem UserThreads.curid_lt (h : UserThreads s) : getCurid s < numIds := by
  obtain ⟨xs, scheduled⟩ := h.scheduled
  exact scheduled.curid_lt

theorem UserThreads.cur_awake (h : UserThreads s) : tcbGetState s (getCurid s) ≠ .sleep := by
  obtain ⟨xs, scheduled⟩ := h.scheduled
  rcases scheduled.curState with e | e
  · simp [e]
  · simp [e]

def NoNewSleepers (s s' : ThreadState) : Prop :=
  ∀ q, tcbGetState s' q = .sleep → tcbGetState s q = .sleep ∧ tcbGetChan s' q = tcbGetChan s q

theorem threadWakeup_sleepers (s : ThreadState) (chan : Word) {q : Nat}
    (asleep : tcbGetState (threadWakeup s chan) q = .sleep) :
    ¬Woken s chan q ∧ tcbGetState s q = .sleep ∧ tcbGetChan (threadWakeup s chan) q = tcbGetChan s q := by
  obtain ⟨state, chans⟩ := threadWakeup_effect s chan q
  by_cases woken : Woken s chan q
  · rw [state, if_pos woken] at asleep
    contradiction
  · rw [if_neg woken] at state chans
    exact ⟨woken, state ▸ asleep, chans⟩

variable (h : UserThreads s)
include h

theorem UserThreads.wakeup (chan : Word) :
    UserThreads (threadWakeup s chan) ∧ getCurid (threadWakeup s chan) = getCurid s := by
  obtain ⟨xs, scheduled⟩ := h.scheduled
  obtain ⟨ys, scheduled', wakes⟩ := threadWakeup_spec chan scheduled
  refine ⟨⟨⟨ys, scheduled'⟩, ?_, ?_⟩, wakes.curid⟩
  rotate_left
  · rw [wakes.curid]
    exact h.user
  have notWoken : ¬Woken s chan 0 := fun woken => absurd woken.1.1 (by decide)
  rw [(threadWakeup_effect s chan 0).1, if_neg notWoken]
  exact h.boot

theorem UserThreads.wakeForSignal (pid : Nat) :
    UserThreads (wakeForSignal s pid) ∧ getCurid (wakeForSignal s pid) = getCurid s ∧
      NoNewSleepers s (wakeForSignal s pid) := by
  have same : UserThreads s ∧ getCurid s = getCurid s ∧ NoNewSleepers s s := ⟨h, rfl, fun _ asleep => ⟨asleep, rfl⟩⟩
  unfold Certikos.wakeForSignal
  split
  · split
    · obtain ⟨threads, cur⟩ := h.wakeup (tcbGetChan s pid)
      exact ⟨threads, cur, fun q asleep => (threadWakeup_sleepers _ _ asleep).2⟩
    · exact same
  · exact same

theorem UserThreads.kill {tf : TrapFrame} (notKill : (syscallGetArg3 tf).toInt ≠ sigkill) :
    UserThreads (sysKill s tf).1 ∧ getCurid (sysKill s tf).1 = getCurid s ∧ NoNewSleepers s (sysKill s tf).1 := by
  have same : UserThreads s ∧ getCurid s = getCurid s ∧ NoNewSleepers s s := ⟨h, rfl, fun _ asleep => ⟨asleep, rfl⟩⟩
  cases killed : sysKill s tf with
  | mk s' tf' =>
    cases killed ▸ sysKill_cases s tf with
    | invalSignum => exact same
    | invalPid => exact same
    | terminated pid arg lt alive kill => exact absurd kill notKill
    | posted pid arg lt alive signum signal pos bound other =>
      obtain ⟨xs, scheduled⟩ := h.scheduled
      have frame : links (tcbAddPendingSignal s pid signum) numIds = links s numIds ∧
          (∀ q, tcbGetState (tcbAddPendingSignal s pid signum) q = tcbGetState s q) ∧
          (∀ q, tcbGetChan (tcbAddPendingSignal s pid signum) q = tcbGetChan s q) ∧
          getCurid (tcbAddPendingSignal s pid signum) = getCurid s := by
        unfold tcbAddPendingSignal
        split <;> simp
      obtain ⟨sameLinks, state, chans, curid⟩ := frame
      have posted : UserThreads (tcbAddPendingSignal s pid signum) :=
        ⟨⟨xs, scheduled.congr sameLinks state curid⟩, state 0 ▸ h.boot, curid ▸ h.user⟩
      obtain ⟨threads, cur, sleepers⟩ := posted.wakeForSignal pid
      refine ⟨threads, cur.trans curid, fun q asleep => ?_⟩
      obtain ⟨old, chan⟩ := sleepers q asleep
      rw [state] at old
      exact ⟨old, chan.trans (chans q)⟩

theorem UserThreads.yield (next : threadYield s = .ok s') : UserThreads s' ∧ NoNewSleepers s s' := by
  obtain ⟨xs, scheduled⟩ := h.scheduled
  obtain ⟨t, p, ys, yield, scheduled', cons, switched⟩ :=
    threadYield_ready scheduled.toReadyList scheduled.curid_lt scheduled.cur_not_ready
  rw [yield] at next
  cases next
  have frame := onlyLinks_tqueueEnqueue (tcbSetState s (getCurid s) .ready) numIds (getCurid s)
  have state (q : Nat) : tcbGetState s' q = if q = p then .run else if q = getCurid s then .ready else tcbGetState s q := by
    rw [switched.state, frame.state, state_setState]
  have head : p ≠ 0 := by
    rintro rfl
    have member : 0 ∈ xs ++ [getCurid s] := cons ▸ .head _
    rcases List.mem_append.1 member with queued | current
    · exact h.boot ((scheduled.member 0).1 queued).2
    · exact h.user (List.mem_singleton.1 current).symm
  refine ⟨⟨⟨ys, scheduled'⟩, ?_, switched.curid ▸ head⟩, fun q asleep => ?_⟩
  · rw [state, if_neg (Ne.symm head), if_neg (Ne.symm h.user)]
    exact h.boot
  · rw [state] at asleep
    split at asleep
    · contradiction
    · split at asleep
      · contradiction
      · refine ⟨asleep, ?_⟩
        rw [switched.chan, frame.chan, chan_setState]

theorem UserThreads.sleep {chan lk : Word} (hlk : lk ≠ 0) (next : threadSleep s chan lk = .ok s') :
    UserThreads s' ∧ ∀ q, tcbGetState s' q = .sleep → q = getCurid s ∧ tcbGetChan s' q = chan ∨
        q ≠ getCurid s ∧ tcbGetState s q = .sleep ∧ tcbGetChan s' q = tcbGetChan s q := by
  obtain ⟨xs, scheduled⟩ := h.scheduled
  cases xs with
  | nil =>
    obtain ⟨halt, stuck⟩ := threadSleep_nil scheduled chan hlk
    rw [stuck] at next
    contradiction
  | cons p ys =>
    obtain ⟨t, slept, scheduled', switched⟩ := threadSleep_switched scheduled chan hlk
    rw [slept] at next
    cases next
    have state (q : Nat) : tcbGetState s' q =
        if q = p then .run else if q = getCurid s then .sleep else tcbGetState s q := by
      rw [switched.state, state_setChan, state_setState]
    have chans (q : Nat) : tcbGetChan s' q = if q = getCurid s then chan else tcbGetChan s q := by
      rw [switched.chan, chan_setChan, chan_setState]
    have head : p ≠ 0 := by
      rintro rfl
      exact h.boot ((scheduled.member 0).1 (.head _)).2
    refine ⟨⟨⟨ys, scheduled'⟩, ?_, switched.curid ▸ head⟩, fun q asleep => ?_⟩
    · rw [state, if_neg (Ne.symm head), if_neg (Ne.symm h.user)]
      exact h.boot
    · rw [state] at asleep
      by_cases here : q = getCurid s
      · exact .inl ⟨here, by rw [chans, if_pos here]⟩
      · rw [if_neg here] at asleep
        split at asleep
        · contradiction
        · exact .inr ⟨here, asleep, by rw [chans, if_neg here]⟩

theorem UserThreads.resume : UserThreads (threadSleepResume s) ∧ getCurid (threadSleepResume s) = getCurid s ∧
      NoNewSleepers s (threadSleepResume s) := by
  obtain ⟨xs, scheduled⟩ := h.scheduled
  unfold threadSleepResume
  refine ⟨⟨⟨xs, scheduled.congr (links_setChan ..) (fun q => state_setChan ..) rfl⟩, ?_, h.user⟩, rfl, fun q asleep => ?_⟩
  · rw [state_setChan]
    exact h.boot
  · rw [state_setChan] at asleep
    have other : q ≠ getCurid s := fun here => h.cur_awake (here ▸ asleep)
    exact ⟨asleep, by rw [chan_setChan, if_neg other]⟩

end Threads

end Certikos
