import Certikos.Ipc.Rendezvous

/-!
# The lock of the messages

The calls do not take `msg_lock` when they begin and do not give it up when they return, but `thread_sleep` gives it
up and takes it again.
-/

namespace Certikos
open Lib

def IpcCall.Waits (m : Messages) (cur : Nat) : IpcCall → Prop
  | .send _ => msgGetBlockBySendID m cur ≠ some numIds
  | .recv tf =>
    msgGetBlockBySendID m (syscallGetArg2 tf).toNat = some numIds ∨
      (m.msgBlock (syscallGetArg2 tf).toNat).recvPid ≠ BitVec.ofNat 32 cur

instance (m : Messages) (cur : Nat) : (call : IpcCall) → Decidable (call.Waits m cur)
  | .send _ => inferInstanceAs (Decidable (_ ≠ _))
  | .recv _ => inferInstanceAs (Decidable (_ ∨ _))

def GoesBackToSleep (s : IpcState) : Prop :=
  ∀ call ∈ s.call (getCurid s.thread), call.Waits s.messages (getCurid s.thread)
deriving Decidable

variable {strict : Bool}

section Steps

variable {L : IpcLayout} {s s' : IpcState} {tf : TrapFrame}

theorem sendLoop_lock (next : sendLoop L s tf = .ok s') :
    s'.msgLock = if (IpcCall.send tf).Waits s.messages (getCurid s.thread) then false else s.msgLock := by
  unfold sendLoop at next
  dsimp only at next
  cases found : msgGetBlockBySendID s.messages (getCurid s.thread) with
  | none =>
    rw [found] at next
    contradiction
  | some block =>
    rw [found] at next
    dsimp only at next
    have waits : (IpcCall.send tf).Waits s.messages (getCurid s.thread) ↔ block ≠ numIds := by
      simp [IpcCall.Waits, found]
    simp only [waits]
    split at next
    next sleeps =>
      obtain ⟨thread, -, rfl⟩ := ipcSleep_ok next
      exact (if_pos sleeps).symm
    next leaves =>
      cases next
      exact (if_neg leaves).symm

theorem recvLoop_cases (next : recvLoop L s tf = .ok s') :
    (IpcCall.recv tf).Waits s.messages (getCurid s.thread) ∧ s'.msgLock = false ∧ s'.vm = s.vm ∨
    ¬(IpcCall.recv tf).Waits s.messages (getCurid s.thread) ∧ s'.msgLock = s.msgLock ∧
      s'.vm = ipcCopy L s.vm (getCurid s.thread) (syscallGetArg3 tf) (syscallGetArg2 tf).toNat
        (s.messages.msgBlock (syscallGetArg2 tf).toNat).bufferAddr
        (if (s.messages.msgBlock (syscallGetArg2 tf).toNat).length < syscallGetArg4 tf
          then (s.messages.msgBlock (syscallGetArg2 tf).toNat).length else syscallGetArg4 tf) := by
  unfold recvLoop at next
  dsimp only at next
  cases found : msgGetBlockBySendID s.messages (syscallGetArg2 tf).toNat with
  | none =>
    rw [found] at next
    contradiction
  | some block =>
    rw [found] at next
    dsimp only at next
    have waits : (IpcCall.recv tf).Waits s.messages (getCurid s.thread) ↔ block = numIds ∨
        (s.messages.msgBlock (syscallGetArg2 tf).toNat).recvPid ≠ BitVec.ofNat 32 (getCurid s.thread) := by
      simp [IpcCall.Waits, found]
    rw [waits]
    split at next
    next sleeps =>
      obtain ⟨thread, -, rfl⟩ := ipcSleep_ok next
      exact .inl ⟨sleeps, rfl, rfl⟩
    next leaves =>
      rw [← Except.ok.inj next]
      exact .inr ⟨leaves, rfl, rfl⟩

theorem recvLoop_lock (next : recvLoop L s tf = .ok s') :
    s'.msgLock = if (IpcCall.recv tf).Waits s.messages (getCurid s.thread) then false else s.msgLock := by
  rcases recvLoop_cases next with ⟨waits, lock, -⟩ | ⟨leaves, lock, -⟩
  · rw [if_pos waits, lock]
  · rw [if_neg leaves, lock]

theorem ipcResume_ok {t : IpcState} (resumed : ipcResume strict s = .ok t) :
    t = { s with thread := threadSleepResume s.thread, msgLock := true } := by
  unfold ipcResume at resumed
  split at resumed
  · contradiction
  · cases resumed
    rfl

theorem ipcStep_lock {a : IpcAction} (free : s.msgLock = false)
    (next : ipcStep L strict s a = .ok s') : s'.msgLock = false ↔ GoesBackToSleep s := by
  unfold ipcStep at next
  unfold GoesBackToSleep
  cases inside : s.call (getCurid s.thread) with
  | some call =>
    rw [inside] at next
    cases resumed : ipcResume strict s with
    | error stop =>
      rw [resumed] at next
      contradiction
    | ok t =>
      rw [resumed] at next
      cases ipcResume_ok resumed
      have lock : s'.msgLock = if call.Waits s.messages (getCurid s.thread) then false else true := by
        cases call with
        | send tf => exact sendLoop_lock next
        | recv tf => exact recvLoop_lock next
      simp [lock]
  | none =>
    rw [inside] at next
    have stays : s'.msgLock = false := by
      cases a with
      | send tf =>
        unfold sysSyncSend at next
        rw [sendLoop_lock next]
        simp [free]
      | recv tf =>
        rw [recvLoop_lock next]
        simp [free]
      | kill tf =>
        cases next
        exact free
      | yield =>
        cases yielded : threadYield s.thread with
        | error halt =>
          rw [yielded] at next
          contradiction
        | ok thread =>
          rw [yielded] at next
          cases next
          exact free
    simp [stays]

theorem ipcStep_not_spins {a : IpcAction} (free : s.msgLock = false) : ipcStep L strict s a ≠ .error .spins := by
  intro next
  unfold ipcStep at next
  have notSpins (tf : TrapFrame) {t : IpcState} : sendLoop L t tf ≠ .error .spins := fun next => by
    obtain ⟨stop, -⟩ | ⟨halt, stop⟩ := sendLoop_error next <;> contradiction
  have notSpins' (tf : TrapFrame) {t : IpcState} : recvLoop L t tf ≠ .error .spins := fun next => by
    obtain ⟨stop, -⟩ | ⟨halt, stop⟩ := recvLoop_error next <;> contradiction
  cases inside : s.call (getCurid s.thread) with
  | some call =>
    have resumed : ipcResume strict s = .ok { s with thread := threadSleepResume s.thread, msgLock := true } :=
      if_neg (by simp [free])
    rw [inside] at next
    rw [resumed] at next
    cases call with
    | send tf => exact notSpins tf next
    | recv tf => exact notSpins' tf next
  | none =>
    rw [inside] at next
    cases a with
    | send tf => exact notSpins tf next
    | recv tf => exact notSpins' tf next
    | kill tf => contradiction
    | yield =>
      cases yielded : threadYield s.thread with
      | error halt =>
        rw [yielded] at next
        cases next
      | ok thread =>
        rw [yielded] at next
        contradiction

end Steps

/-- As long as no call that has been asleep returns, the lock is free between steps and nobody spins on it; the first
step in which one returns leaves it taken. -/
theorem run_msgLock_free (L : IpcLayout) (start : IpcState) (free : start.msgLock = false) (actions : List IpcAction)
    (asleep : Along (ipcStep L true) (fun s _ => GoesBackToSleep s) start actions) (s : IpcState)
    (reached : run (ipcStep L true) start actions = .ok s) :
    s.msgLock = false ∧ ∀ a, ipcStep L true s a ≠ .error .spins ∧
      ∀ s', ipcStep L true s a = .ok s' → (s'.msgLock = false ↔ GoesBackToSleep s) := by
  have lock : s.msgLock = false := by
    refine run_invariant (fun s => s.msgLock = false) ?_ free asleep reached
    intro s a s' free waits next
    exact (ipcStep_lock free next).2 waits
  exact ⟨lock, fun a => ⟨ipcStep_not_spins lock, fun s' next => ipcStep_lock lock next⟩⟩

theorem run_msgLock_free_received : Reaches (run (ipcStep sampleIpcLayout true) pairStart (exchange.take 3)) fun s =>
    s.msgLock = false := by
  have runs : Reaches (run (ipcStep sampleIpcLayout true) pairStart (exchange.take 3)) fun s =>
      s.history.length = 3 := by decide +kernel
  obtain ⟨s, reached, -⟩ := runs
  exact ⟨s, reached, (run_msgLock_free sampleIpcLayout pairStart rfl (exchange.take 3) (by decide +kernel) s reached).1⟩

theorem msgLock_left_taken :
    pairStart.msgLock = false ∧
    Reaches (run (ipcStep sampleIpcLayout true) pairStart exchange) fun s =>
      s.msgLock = true ∧ ∀ p < numIds, (s.call p).isNone := by
  decide +kernel

end Certikos
