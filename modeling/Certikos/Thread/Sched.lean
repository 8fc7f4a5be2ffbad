import Certikos.Thread.Queue
import Certikos.Lib.Run

/-!
# The scheduler

`PThread.c` on the one CPU that runs kernel code. A function that ends in `kctx_switch` is modelled up to the switch:
the state it returns is the one in which the new current thread goes on.
-/

namespace Certikos
open Lib

/-- Why and in which state the machine stopped: `KERN_PANIC`, or an access outside an array. -/
inductive Halt (σ : Type)
  | panic (msg : String) (s : σ)
  | wildAccess (s : σ)

abbrev lapicTimerIntrFreq : Nat := 1000
abbrev schedSlice : Nat := 5

def threadSpawn (s : ThreadState) (pid : Nat) : ThreadState :=
  tqueueEnqueue (tcbSetState s pid .ready) numIds pid

/-- `tcb_set_state(new_cur_pid, TSTATE_RUN); set_curid(new_cur_pid)`, which indexes `TCBPool`. -/
def switchTo (s : ThreadState) (newCurPid : Nat) : Except (Halt ThreadState) ThreadState :=
  if newCurPid < numIds then .ok (setCurid (tcbSetState s newCurPid .run) newCurPid)
  else .error (.wildAccess s)

def threadYield (s : ThreadState) : Except (Halt ThreadState) ThreadState :=
  let oldCurPid := getCurid s
  let s := tcbSetState s oldCurPid .ready
  let s := tqueueEnqueue s numIds oldCurPid
  let (s, newCurPid) := tqueueDequeue s numIds
  switchTo s newCurPid

def threadExit (s : ThreadState) : Except (Halt ThreadState) ThreadState :=
  let (s, newCurPid) := tqueueDequeue s numIds
  if newCurPid = numIds then .error (.panic "thread_exit: no threads to switch to!\n" s)
  else switchTo s newCurPid

def schedUpdate (s : ThreadState) : Except (Halt ThreadState) ThreadState :=
  let cpu := getPcpuIdx s
  let ticks := s.schedTicks cpu + BitVec.ofNat 32 (1000 / lapicTimerIntrFreq)
  if ticks > BitVec.ofNat 32 schedSlice then
    threadYield { s with schedTicks := Function.update s.schedTicks cpu 0 }
  else .ok { s with schedTicks := Function.update s.schedTicks cpu ticks }

def threadSleep (s : ThreadState) (chan lk : Word) : Except (Halt ThreadState) ThreadState :=
  let curid := getCurid s
  if lk = 0 then .error (.panic "sleep without lock" s)
  else
    let s := tcbSetState s curid .sleep
    let s := tcbSetChan s curid chan
    let (s, newCurPid) := tqueueDequeue s numIds
    switchTo s newCurPid

def threadSleepResume (s : ThreadState) : ThreadState := tcbSetChan s (getCurid s) 0

def wakeupOne (chan : Word) (pid : Nat) (s : ThreadState) : ThreadState :=
  if tcbGetChan s pid = chan ∧ tcbGetState s pid = .sleep then
    let s := tcbSetState s pid .ready
    let s := tcbSetChan s pid 0
    tqueueEnqueue s numIds pid
  else s

def threadWakeup (s : ThreadState) (chan : Word) : ThreadState :=
  loop (fun i => wakeupOne chan (i + 1)) (numIds - 1) s

/-! ## The threads that are ready -/

structure ReadyList (s : ThreadState) (xs : List Nat) : Prop where
  queue : QueueOf s numIds xs
  member : ∀ p, p ∈ xs ↔ p < numIds ∧ tcbGetState s p = .ready

section ReadyList

variable {s s' : ThreadState} {xs : List Nat} {p : Nat}

theorem ReadyList.congr (h : ReadyList s xs) (sameLinks : links s' numIds = links s numIds)
    (sameState : ∀ q, tcbGetState s' q = tcbGetState s q) : ReadyList s' xs :=
  ⟨h.queue.congr sameLinks, fun q => by rw [sameState q]; exact h.member q⟩

theorem ReadyList.not_mem (h : ReadyList s xs) (hp : tcbGetState s p ≠ .ready) : p ∉ xs :=
  fun hm => hp ((h.member p).1 hm).2

theorem links_modifyTcb (s : ThreadState) (pid chid : Nat) {g : TCB → TCB} (prev : ∀ t, (g t).prev = t.prev)
    (next : ∀ t, (g t).next = t.next) : links (modifyTcb s pid g) chid = links s chid :=
  links_ext (field_modifyTcb s pid · TCB.prev prev) (field_modifyTcb s pid · TCB.next next) rfl rfl

@[simp] theorem links_setState (s : ThreadState) (pid chid : Nat) (st : TState) :
    links (tcbSetState s pid st) chid = links s chid :=
  links_modifyTcb s pid chid (fun _ => rfl) fun _ => rfl

@[simp] theorem links_setChan (s : ThreadState) (pid chid : Nat) (w : Word) :
    links (tcbSetChan s pid w) chid = links s chid :=
  links_modifyTcb s pid chid (fun _ => rfl) fun _ => rfl

@[simp] theorem links_modifySigstate (s : ThreadState) (pid chid : Nat) (f : SigState → SigState) :
    links (modifySigstate s pid f) chid = links s chid :=
  links_modifyTcb s pid chid (fun _ => rfl) fun _ => rfl

@[simp] theorem links_setCurid (s : ThreadState) (chid v : Nat) : links (setCurid s v) chid = links s chid := rfl

theorem ReadyList.enqueue (h : ReadyList s xs) (hp : p < numIds) (fresh : tcbGetState s p ≠ .ready) :
    ReadyList (tqueueEnqueue (tcbSetState s p .ready) numIds p) (xs ++ [p]) := by
  have queued : QueueOf (tcbSetState s p .ready) numIds xs := h.queue.congr (links_setState ..)
  refine ⟨queued.enqueue (h.not_mem fresh) (ne_of_lt hp), fun q => ?_⟩
  rw [(onlyLinks_tqueueEnqueue ..).state q, state_setState, List.mem_append, List.mem_singleton,
    h.member q]
  by_cases hq : q = p
  · simp [hq, hp]
  · simp [hq]

theorem ReadyList.setState (h : ReadyList s xs) {st : TState} (old : tcbGetState s p ≠ .ready)
    (new : st ≠ .ready) : ReadyList (tcbSetState s p st) xs := by
  refine ⟨h.queue.congr (links_setState ..), fun q => ?_⟩
  rw [h.member q, state_setState]
  by_cases hq : q = p
  · simp [hq, old, new]
  · simp [hq]

theorem ReadyList.remove (h : ReadyList s xs) {st : TState} (hp : p ∈ xs) (new : st ≠ .ready) :
    ReadyList (tcbSetState (tqueueRemove s numIds p) p st) (xs.erase p) := by
  refine ⟨(h.queue.remove hp).congr (links_setState ..), fun q => ?_⟩
  rw [h.queue.nodup.mem_erase_iff, state_setState, (onlyLinks_tqueueRemove ..).state q, h.member q]
  by_cases hq : q = p
  · simp [hq, new]
  · simp [hq]

structure Switched (s s' : ThreadState) (p : Nat) (xs : List Nat) : Prop where
  ready : ReadyList s' xs
  curid : getCurid s' = p
  state : ∀ q, tcbGetState s' q = if q = p then .run else tcbGetState s q
  chan : ∀ q, tcbGetChan s' q = tcbGetChan s q
  sig : ∀ q, tcbGetSigstate s' q = tcbGetSigstate s q

theorem ReadyList.switch (h : ReadyList s (p :: xs)) :
    ∃ s', switchTo (tqueueDequeue s numIds).1 (tqueueDequeue s numIds).2 = .ok s' ∧ Switched s s' p xs := by
  obtain ⟨popped, rest⟩ := h.queue.dequeue
  have frame := onlyLinks_tqueueDequeue s numIds
  have hp : p < numIds := ((h.member p).1 (.head _)).1
  have hpxs : p ∉ xs := (List.nodup_cons.1 h.queue.nodup).1
  rw [popped]
  refine ⟨_, if_pos hp, ⟨⟨rest.congr ?_, fun q => ?_⟩, by simp, fun q => ?_, fun q => ?_, fun q => ?_⟩⟩
  · rw [links_setCurid, links_setState]
  · rw [state_setCurid, state_setState, frame.state q]
    have member := h.member q
    by_cases hq : q = p
    · simp [hq, hpxs]
    · simpa [hq] using member
  · rw [state_setCurid, state_setState, frame.state q]
  · rw [chan_setCurid, chan_setState, frame.chan q]
  · rw [sig_setCurid, sig_setState, frame.sig q]

end ReadyList

theorem idle_ready : ReadyList idleThreads [] := by
  refine ⟨⟨List.nodup_nil, by simp, rfl, rfl, trivial⟩, fun p => ?_⟩
  have notReady : tcbGetState idleThreads p ≠ .ready := by
    by_cases hp : p = 0 <;> simp [tcbGetState, idleThreads, hp]
  simp [notReady]

end Certikos
