import Certikos.Ipc.System

/-!
# Rendezvous

Every message is received once, by the process it is for, before the call that sent it returns, and nobody sleeps
through what it waits for.
-/

namespace Certikos
open Lib Function

inductive SendStatus
  | idle
  | waiting (receiver : Word)
  | taken

def SendStatus.next (p : Nat) (st : SendStatus) : IpcEvent → Option SendStatus
  | .sent q receiver =>
    if q ≠ p then some st
    else match st with
      | .idle => some (.waiting receiver)
      | _ => none
  | .received q sender =>
    if sender ≠ p then some st
    else match st with
      | .waiting receiver => if receiver = BitVec.ofNat 32 q then some .taken else none
      | _ => none
  | .sendReturned q _ =>
    if q ≠ p then some st
    else match st with
      | .taken => some .idle
      | _ => none
  | .recvReturned _ _ => some st

/-- The status of `p` after a history in which its messages are sent, received once by the process they name, and
only then done with; `none` after any other history. -/
def sendStatus (p : Nat) (history : List IpcEvent) : Option SendStatus := history.foldlM (SendStatus.next p) .idle

theorem sendStatus_append (p : Nat) (history events : List IpcEvent) :
    sendStatus p (history ++ events) = (sendStatus p history).bind fun st => events.foldlM (SendStatus.next p) st :=
  List.foldlM_append ..

def StatusOf (s : IpcState) (ys : List Nat) (p : Nat) : SendStatus → Prop
  | .idle => p ∉ ys ∧ ∀ tf, s.call p ≠ some (.send tf)
  | .waiting receiver =>
    p ∈ ys ∧ (s.messages.msgBlock p).recvPid = receiver ∧ ∃ tf, s.call p = some (.send tf)
  | .taken => p ∉ ys ∧ ∃ tf, s.call p = some (.send tf)

structure Meeting (L : IpcLayout) (s : IpcState) (ys : List Nat) : Prop where
  threads : UserThreads s.thread
  queue : MsgQueueOf s.messages ys
  numbered : ∀ p, p < numIds → (s.messages.msgBlock p).sendPid = p
  callers : ∀ p, s.call p ≠ none → 1 ≤ p ∧ p < numIds
  status : ∀ p, ∃ st, sendStatus p s.history = some st ∧ StatusOf s ys p st
  senders : ∀ p tf, s.call p = some (.send tf) → tcbGetState s.thread p = .sleep →
    p ∈ ys ∧ tcbGetChan s.thread p = recvCv L p
  receivers : ∀ p tf, s.call p = some (.recv tf) → tcbGetState s.thread p = .sleep →
    tcbGetChan s.thread p = sendCv L (syscallGetArg2 tf).toNat ∧
      ¬((syscallGetArg2 tf).toNat ∈ ys ∧
        (s.messages.msgBlock (syscallGetArg2 tf).toNat).recvPid = BitVec.ofNat 32 p)

variable {thread : ThreadState} {call : IpcCall}

section Meeting

variable {L : IpcLayout} {s s' : IpcState} {ys : List Nat} {tf : TrapFrame}

variable {p c : Nat} {chan : Word}

theorem Meeting.bounded (h : Meeting L s ys) (member : p ∈ ys) : UserPid p := by
  obtain ⟨st, -, ok⟩ := h.status p
  cases st with
  | idle => exact absurd member ok.1
  | waiting receiver =>
    obtain ⟨-, -, tf, call⟩ := ok
    exact h.callers p (by simp [call])
  | taken => exact absurd member ok.1

theorem Meeting.getBlock (h : Meeting L s ys) (sendPid : Nat) :
    msgGetBlockBySendID s.messages sendPid = some (if sendPid ∈ ys then sendPid else numIds) :=
  h.queue.getBlock (fun p member => h.numbered p (h.bounded member).2) (fun _ member => (h.bounded member).2) sendPid

theorem Meeting.awake (h : Meeting L s ys) {lock : Bool} (threads : UserThreads thread)
    (sleepers : NoNewSleepers s.thread thread) : Meeting L { s with thread := thread, msgLock := lock } ys := by
  refine ⟨threads, h.queue, h.numbered, h.callers, h.status, fun p tf call asleep => ?_, fun p tf call asleep => ?_⟩
  · obtain ⟨old, chan⟩ := sleepers p asleep
    exact ⟨(h.senders p tf call old).1, chan.trans (h.senders p tf call old).2⟩
  · obtain ⟨old, chan⟩ := sleepers p asleep
    exact ⟨chan.trans (h.receivers p tf call old).1, (h.receivers p tf call old).2⟩

theorem ipcSleep_ok (h : ipcSleep L s call chan = .ok s') :
    ∃ thread, threadSleep s.thread chan L.msgLock = .ok thread ∧
      s' = { s with
        thread := thread, msgLock := false, call := update s.call (getCurid s.thread) (some call) } := by
  unfold ipcSleep at h
  cases slept : threadSleep s.thread chan L.msgLock with
  | error halt =>
    rw [slept] at h
    contradiction
  | ok thread =>
    rw [slept] at h
    cases h
    exact ⟨thread, rfl, rfl⟩

theorem Meeting.sleep (h : Meeting L s ys) (inside : s.call (getCurid s.thread) = some call)
    (sender : ∀ tf, call = .send tf → getCurid s.thread ∈ ys ∧ chan = recvCv L (getCurid s.thread))
    (receiver : ∀ tf, call = .recv tf → chan = sendCv L (syscallGetArg2 tf).toNat ∧ ¬((syscallGetArg2 tf).toNat ∈ ys ∧
        (s.messages.msgBlock (syscallGetArg2 tf).toNat).recvPid = BitVec.ofNat 32 (getCurid s.thread)))
    (slept : ipcSleep L s call chan = .ok s') : Meeting L s' ys := by
  obtain ⟨thread, sleep, rfl⟩ := ipcSleep_ok slept
  rw [← inside, update_eq_self]
  obtain ⟨threads, sleepers⟩ := h.threads.sleep L.msgLock_ne sleep
  refine ⟨threads, h.queue, h.numbered, h.callers, h.status, fun p tf call' asleep => ?_, fun p tf call' asleep => ?_⟩
  · rcases sleepers p asleep with ⟨rfl, chan'⟩ | ⟨-, old, chan'⟩
    · obtain ⟨member, waits⟩ := sender tf (Option.some.inj (inside.symm.trans call'))
      exact ⟨member, chan'.trans waits⟩
    · exact ⟨(h.senders p tf call' old).1, chan'.trans (h.senders p tf call' old).2⟩
  · rcases sleepers p asleep with ⟨rfl, chan'⟩ | ⟨-, old, chan'⟩
    · obtain ⟨waits, notThere⟩ := receiver tf (Option.some.inj (inside.symm.trans call'))
      exact ⟨chan'.trans waits, notThere⟩
    · exact ⟨chan'.trans (h.receivers p tf call' old).1, (h.receivers p tf call' old).2⟩

/-! ## Sending -/

theorem Meeting.status_of_send (h : Meeting L s ys) (inside : s.call p = some (.send tf)) (out : p ∉ ys) :
    sendStatus p s.history = some .taken := by
  obtain ⟨st, status, ok⟩ := h.status p
  cases st with
  | idle => exact absurd inside (ok.2 tf)
  | waiting receiver => exact absurd ok.1 out
  | taken => exact status

theorem call_of_left (now : update s.call c none p = some call) : p ≠ c ∧ s.call p = some call := by
  by_cases here : p = c
  · rw [here, update_self] at now
    contradiction
  · rw [update_of_ne here] at now
    exact ⟨here, now⟩

theorem Meeting.callers_left (h : Meeting L s ys) (now : update s.call c none p ≠ none) : UserPid p := by
  obtain ⟨call, now⟩ := Option.ne_none_iff_exists'.1 now
  exact h.callers p (by simp [(call_of_left now).2])

section

variable (h : Meeting L s ys) (inside : s.call (getCurid s.thread) = some (.send tf))
include h inside

theorem Meeting.sendReturned (out : getCurid s.thread ∉ ys) (tf' : TrapFrame) :
    Meeting L { s with
      call := update s.call (getCurid s.thread) none
      history := s.history ++ [.sendReturned (getCurid s.thread) tf'] } ys := by
  refine ⟨h.threads, h.queue, h.numbered, fun p now => h.callers_left now, fun p => ?_, fun p tf now asleep => ?_,
    fun p tf now asleep => ?_⟩
  · rw [sendStatus_append]
    by_cases here : p = getCurid s.thread
    · subst here
      rw [h.status_of_send inside out]
      refine ⟨.idle, by simp [SendStatus.next], out, fun tf now => (call_of_left now).1 rfl⟩
    · obtain ⟨st, status, ok⟩ := h.status p
      refine ⟨st, by simp [status, SendStatus.next, Ne.symm here], ?_⟩
      cases st with
      | idle => exact ⟨ok.1, fun tf now => ok.2 tf (call_of_left now).2⟩
      | waiting receiver =>
        obtain ⟨member, block, tf, call⟩ := ok
        exact ⟨member, block, tf, (update_of_ne here ..).trans call⟩
      | taken =>
        obtain ⟨notMember, tf, call⟩ := ok
        exact ⟨notMember, tf, (update_of_ne here ..).trans call⟩
  · exact h.senders p tf (call_of_left now).2 asleep
  · exact h.receivers p tf (call_of_left now).2 asleep

theorem Meeting.sendLoop (next : sendLoop L s tf = .ok s') : Meeting L s' ys := by
  have lt := h.threads.curid_lt
  unfold Certikos.sendLoop at next
  dsimp only at next
  rw [h.getBlock] at next
  dsimp only at next
  by_cases member : getCurid s.thread ∈ ys
  · rw [if_pos member, if_pos (ne_of_lt lt)] at next
    refine h.sleep inside (fun _ _ => ⟨member, rfl⟩) (fun _ other => ?_) next
    contradiction
  · rw [if_neg member, if_neg (not_not.2 rfl)] at next
    cases next
    exact h.sendReturned inside member _

end

theorem sendLoop_call (L : IpcLayout) (s : IpcState) (tf : TrapFrame) (call : Option IpcCall) :
    sendLoop L { s with call := update s.call (getCurid s.thread) call } tf = sendLoop L s tf := by
  unfold sendLoop ipcSleep
  simp only [update_idem]

theorem recvLoop_call (L : IpcLayout) (s : IpcState) (tf : TrapFrame) (call : Option IpcCall) :
    recvLoop L { s with call := update s.call (getCurid s.thread) call } tf = recvLoop L s tf := by
  unfold recvLoop ipcSleep
  simp only [update_idem]

/-! ## Receiving -/

section Received

variable {sender : Nat} (h : Meeting L s ys) (inside : s.call (getCurid s.thread) = some (.recv tf))
variable (member : sender ∈ ys) (named : (s.messages.msgBlock sender).recvPid = BitVec.ofNat 32 (getCurid s.thread))
include h inside member named

theorem Meeting.received_status (vm : VmState) (thread : ThreadState) (tf' : TrapFrame) (p : Nat) :
    ∃ st, sendStatus p (s.history ++ [.received (getCurid s.thread) sender, .recvReturned (getCurid s.thread) tf']) =
        some st ∧
      StatusOf { s with
        vm := vm, messages := msgRemove s.messages sender, thread := thread
        call := update s.call (getCurid s.thread) none
        history := s.history ++ [.received (getCurid s.thread) sender, .recvReturned (getCurid s.thread) tf'] }
        (ys.erase sender) p st := by
  have nodup : ys.Nodup := h.queue.nodup
  have kept (q : Nat) (call : q ≠ getCurid s.thread) : update s.call (getCurid s.thread) none q = s.call q :=
    update_of_ne call ..
  have sending {q : Nat} {tf₁ : TrapFrame} (call : s.call q = some (.send tf₁)) : q ≠ getCurid s.thread := by
    rintro rfl
    rw [inside] at call
    cases call
  obtain ⟨st, status, ok⟩ := h.status p
  rw [sendStatus_append, status]
  by_cases here : p = sender
  · subst here
    cases st with
    | idle => exact absurd member ok.1
    | waiting receiver =>
      obtain ⟨-, block, tf₁, call⟩ := ok
      refine ⟨.taken, by simp [SendStatus.next, ← block, named], nodup.not_mem_erase, tf₁, ?_⟩
      exact (kept p (sending call)).trans call
    | taken => exact absurd member ok.1
  · refine ⟨st, by simp [SendStatus.next, Ne.symm here], ?_⟩
    have erased : p ∈ ys.erase sender ↔ p ∈ ys := List.mem_erase_of_ne here
    cases st with
    | idle => exact ⟨fun mem => ok.1 (erased.1 mem), fun tf₁ now => ok.2 tf₁ (call_of_left now).2⟩
    | waiting receiver =>
      obtain ⟨queued, block, tf₁, call⟩ := ok
      exact ⟨erased.2 queued, ((sameMessages_remove ..).recvPid p).trans block, tf₁, (kept p (sending call)).trans call⟩
    | taken =>
      obtain ⟨notQueued, tf₁, call⟩ := ok
      exact ⟨fun mem => notQueued (erased.1 mem), tf₁, (kept p (sending call)).trans call⟩

theorem Meeting.received (vm : VmState) (tf' : TrapFrame)
    (woken : thread = threadWakeup s.thread (recvCv L sender)) :
    Meeting L { s with
      vm := vm, messages := msgRemove s.messages sender, thread := thread
      call := update s.call (getCurid s.thread) none
      history := s.history ++ [.received (getCurid s.thread) sender, .recvReturned (getCurid s.thread) tf'] }
      (ys.erase sender) := by
  have same := sameMessages_remove s.messages sender
  have threads : UserThreads thread := woken ▸ (h.threads.wakeup (recvCv L sender)).1
  have sleepers {p : Nat} (asleep : tcbGetState thread p = .sleep) : ¬Woken s.thread (recvCv L sender) p ∧
      tcbGetState s.thread p = .sleep ∧ tcbGetChan thread p = tcbGetChan s.thread p := by
    rw [woken] at asleep ⊢
    exact threadWakeup_sleepers s.thread (recvCv L sender) asleep
  refine ⟨threads, h.queue.remove member, fun p lt => (same.sendPid p).trans (h.numbered p lt),
    fun p now => h.callers_left now, h.received_status inside member named vm thread tf', fun p tf₁ now asleep => ?_,
    fun p tf₁ now asleep => ?_⟩
  · -- a sender that sleeps on is not the one that has been woken
    obtain ⟨notWoken, old, chan⟩ := sleepers asleep
    obtain ⟨queued, waits⟩ := h.senders p tf₁ (call_of_left now).2 old
    have other : p ≠ sender := by
      rintro rfl
      exact notWoken ⟨h.bounded queued, waits, old⟩
    exact ⟨(List.mem_erase_of_ne other).2 queued, chan.trans waits⟩
  · obtain ⟨-, old, chan⟩ := sleepers asleep
    obtain ⟨waits, notThere⟩ := h.receivers p tf₁ (call_of_left now).2 old
    refine ⟨chan.trans waits, fun there => notThere ⟨List.mem_of_mem_erase there.1, ?_⟩⟩
    exact (same.recvPid _).symm.trans there.2

end Received

theorem Meeting.recvLoop (h : Meeting L s ys) (inside : s.call (getCurid s.thread) = some (.recv tf))
    (next : recvLoop L s tf = .ok s') : ∃ ys', Meeting L s' ys' := by
  unfold Certikos.recvLoop at next
  dsimp only at next
  rw [h.getBlock] at next
  dsimp only at next
  by_cases there : (syscallGetArg2 tf).toNat ∈ ys ∧
      (s.messages.msgBlock (syscallGetArg2 tf).toNat).recvPid = BitVec.ofNat 32 (getCurid s.thread)
  · have found := ne_of_lt (h.bounded there.1).2
    rw [if_pos there.1, if_neg (not_or.2 ⟨found, not_not.2 there.2⟩)] at next
    rw [← Except.ok.inj next]
    exact ⟨_, h.received inside there.1 there.2 _ _ rfl⟩
  · rw [if_pos] at next
    · refine ⟨ys, h.sleep inside (fun _ other => ?_) (fun tf' same => ?_) next⟩
      · contradiction
      · cases same
        exact ⟨rfl, there⟩
    · by_cases member : (syscallGetArg2 tf).toNat ∈ ys
      · exact .inr fun named => there ⟨member, named⟩
      · exact .inl (if_neg member)

/-! ## Entering a call -/

theorem Meeting.enterRecv (h : Meeting L s ys) (outside : s.call (getCurid s.thread) = none) (tf : TrapFrame) :
    Meeting L { s with call := update s.call (getCurid s.thread) (some (.recv tf)) } ys := by
  have before {p : Nat} {call : IpcCall}
      (now : update s.call (getCurid s.thread) (some (.recv tf)) p = some call) :
      p = getCurid s.thread ∧ call = .recv tf ∨ s.call p = some call := by
    by_cases here : p = getCurid s.thread
    · rw [here, update_self] at now
      exact .inl ⟨here, (Option.some.inj now).symm⟩
    · rw [update_of_ne here] at now
      exact .inr now
  have sending {p : Nat} {tf₁ : TrapFrame} (call : s.call p = some (.send tf₁)) :
      update s.call (getCurid s.thread) (some (.recv tf)) p = some (.send tf₁) := by
    rw [update_of_ne, call]
    rintro rfl
    rw [outside] at call
    contradiction
  refine ⟨h.threads, h.queue, h.numbered, fun p now => ?_, fun p => ?_, fun p tf₁ now asleep => ?_,
    fun p tf₁ now asleep => ?_⟩
  · obtain ⟨call, now⟩ := Option.ne_none_iff_exists'.1 now
    rcases before now with ⟨rfl, -⟩ | old
    · exact ⟨Nat.pos_of_ne_zero h.threads.user, h.threads.curid_lt⟩
    · exact h.callers p (by simp [old])
  · obtain ⟨st, status, ok⟩ := h.status p
    refine ⟨st, status, ?_⟩
    cases st with
    | idle =>
      refine ⟨ok.1, fun tf₁ now => ?_⟩
      rcases before now with ⟨-, other⟩ | old
      · contradiction
      · exact ok.2 tf₁ old
    | waiting receiver =>
      obtain ⟨member, block, tf₁, call⟩ := ok
      exact ⟨member, block, tf₁, sending call⟩
    | taken =>
      obtain ⟨notMember, tf₁, call⟩ := ok
      exact ⟨notMember, tf₁, sending call⟩
  · rcases before now with ⟨-, other⟩ | old
    · contradiction
    · exact h.senders p tf₁ old asleep
  · rcases before now with ⟨rfl, -⟩ | old
    · exact absurd asleep h.threads.cur_awake
    · exact h.receivers p tf₁ old asleep

theorem Meeting.not_queued (h : Meeting L s ys) (outside : s.call p = none) :
    p ∉ ys ∧ sendStatus p s.history = some .idle := by
  obtain ⟨st, status, ok⟩ := h.status p
  cases st with
  | idle => exact ⟨ok.1, status⟩
  | waiting receiver =>
    obtain ⟨-, -, tf, call⟩ := ok
    rw [outside] at call
    contradiction
  | taken =>
    obtain ⟨-, tf, call⟩ := ok
    rw [outside] at call
    contradiction

def postMessage (m : Messages) (sender : Nat) (recvPid userAddr length : Word) : Messages :=
  msgEnqueue (modifyBlock m sender fun b => { b with recvPid := recvPid, bufferAddr := userAddr, length := length })
    sender

theorem postMessage_recvPid (m : Messages) (sender : Nat) (recvPid userAddr length : Word) (q : Nat) :
    ((postMessage m sender recvPid userAddr length).msgBlock q).recvPid =
      if q = sender then recvPid else (m.msgBlock q).recvPid := by
  refine ((sameMessages_enqueue ..).recvPid q).trans ?_
  unfold modifyBlock
  by_cases here : q = sender
  · simp [here]
  · simp [here]

theorem postMessage_sendPid (m : Messages) (sender : Nat) (recvPid userAddr length : Word) (q : Nat) :
    ((postMessage m sender recvPid userAddr length).msgBlock q).sendPid = (m.msgBlock q).sendPid :=
  ((sameMessages_enqueue ..).sendPid q).trans (part_modifyBlock m sender q MsgBlock.sendPid _ fun _ => rfl)

theorem MsgQueueOf.post {m : Messages} (h : MsgQueueOf m ys) {sender : Nat} (fresh : sender ∉ ys)
    (lt : sender < numIds) (recvPid userAddr length : Word) :
    MsgQueueOf (postMessage m sender recvPid userAddr length) (ys ++ [sender]) := by
  have links : msgLinks (modifyBlock m sender fun b =>
      { b with recvPid := recvPid, bufferAddr := userAddr, length := length }) = msgLinks m :=
    links_ext (fun q => part_modifyBlock m sender q MsgBlock.prev _ fun _ => rfl)
      (fun q => part_modifyBlock m sender q MsgBlock.next _ fun _ => rfl) rfl rfl
  refine MsgQueueOf.enqueue ?_ fresh (ne_of_lt lt)
  unfold MsgQueueOf
  rwa [links]

theorem Meeting.enterSend (h : Meeting L s ys) (outside : s.call (getCurid s.thread) = none)
    (tf : TrapFrame) (recvPid userAddr length : Word)
    (woken : thread = threadWakeup s.thread (sendCv L (getCurid s.thread))) :
    Meeting L { s with
      messages := postMessage s.messages (getCurid s.thread) recvPid userAddr length, thread := thread
      call := update s.call (getCurid s.thread) (some (.send tf))
      history := s.history ++ [.sent (getCurid s.thread) recvPid] } (ys ++ [getCurid s.thread]) := by
  obtain ⟨fresh, idle⟩ := h.not_queued outside
  have threads : UserThreads thread := woken ▸ (h.threads.wakeup (sendCv L (getCurid s.thread))).1
  have sleepers {p : Nat} (asleep : tcbGetState thread p = .sleep) :
      ¬Woken s.thread (sendCv L (getCurid s.thread)) p ∧
        tcbGetState s.thread p = .sleep ∧ tcbGetChan thread p = tcbGetChan s.thread p := by
    rw [woken] at asleep ⊢
    exact threadWakeup_sleepers s.thread (sendCv L (getCurid s.thread)) asleep
  have other {p : Nat} (asleep : tcbGetState thread p = .sleep) : p ≠ getCurid s.thread := by
    rintro rfl
    exact h.threads.cur_awake (sleepers asleep).2.1
  have kept {p : Nat} (ne : p ≠ getCurid s.thread) :
      update s.call (getCurid s.thread) (some (.send tf)) p = s.call p :=
    update_of_ne ne ..
  have appended {p : Nat} (ne : p ≠ getCurid s.thread) : p ∈ ys ++ [getCurid s.thread] ↔ p ∈ ys := by simp [ne]
  refine ⟨threads, h.queue.post fresh h.threads.curid_lt .., fun p lt => ?_, fun p now => ?_, fun p => ?_,
    fun p tf₁ now asleep => ?_, fun p tf₁ now asleep => ?_⟩
  · exact (postMessage_sendPid ..).trans (h.numbered p lt)
  · by_cases here : p = getCurid s.thread
    · rw [here]
      exact ⟨Nat.pos_of_ne_zero h.threads.user, h.threads.curid_lt⟩
    · exact h.callers p (kept here ▸ now)
  · rw [sendStatus_append]
    by_cases here : p = getCurid s.thread
    · subst here
      refine ⟨.waiting recvPid, by simp [idle, SendStatus.next], by simp, ?_, tf, update_self ..⟩
      exact (postMessage_recvPid ..).trans (if_pos rfl)
    · obtain ⟨st, status, ok⟩ := h.status p
      refine ⟨st, by simp [status, SendStatus.next, Ne.symm here], ?_⟩
      cases st with
      | idle => exact ⟨fun mem => ok.1 ((appended here).1 mem), fun tf₁ now => ok.2 tf₁ ((kept here).symm.trans now)⟩
      | waiting receiver =>
        obtain ⟨member, block, tf₁, call⟩ := ok
        refine ⟨(appended here).2 member, ?_, tf₁, (kept here).trans call⟩
        exact (postMessage_recvPid ..).trans ((if_neg here).trans block)
      | taken =>
        obtain ⟨notMember, tf₁, call⟩ := ok
        exact ⟨fun mem => notMember ((appended here).1 mem), tf₁, (kept here).trans call⟩
  · obtain ⟨member, waits⟩ := h.senders p tf₁ ((kept (other asleep)).symm.trans now) (sleepers asleep).2.1
    exact ⟨(appended (other asleep)).2 member, (sleepers asleep).2.2.trans waits⟩
  · -- whoever waits for this message has been woken
    have call := (kept (other asleep)).symm.trans now
    obtain ⟨notWoken, old, chan⟩ := sleepers asleep
    obtain ⟨waits, notThere⟩ := h.receivers p tf₁ call old
    have ne : (syscallGetArg2 tf₁).toNat ≠ getCurid s.thread := by
      intro same
      refine notWoken ⟨h.callers p (by simp [call]), ?_, old⟩
      rw [waits, same]
    refine ⟨chan.trans waits, fun there => notThere ⟨(appended ne).1 there.1, ?_⟩⟩
    exact ((postMessage_recvPid ..).trans (if_neg ne)).symm.trans there.2

/-! ## Runs -/

def IpcAction.NotKill : IpcAction → Prop
  | .kill tf => (syscallGetArg3 tf).toInt ≠ sigkill
  | _ => True

instance : (a : IpcAction) → Decidable a.NotKill
  | .kill _ => inferInstanceAs (Decidable (_ ≠ _))
  | .send _ | .recv _ | .yield => .isTrue trivial

theorem Meeting.resume (h : Meeting L s ys) (strict : Bool) {t : IpcState} (resumed : ipcResume strict s = .ok t) :
    Meeting L t ys ∧ getCurid t.thread = getCurid s.thread ∧ t.call = s.call := by
  unfold ipcResume at resumed
  split at resumed
  · contradiction
  · cases resumed
    obtain ⟨threads, cur, sleepers⟩ := h.threads.resume
    exact ⟨h.awake threads sleepers, cur, rfl⟩

theorem Meeting.step (h : Meeting L s ys) {strict : Bool} {a : IpcAction} (allowed : a.NotKill)
    (next : ipcStep L strict s a = .ok s') : ∃ ys', Meeting L s' ys' := by
  unfold ipcStep at next
  cases inside : s.call (getCurid s.thread) with
  | some call =>
    rw [inside] at next
    cases resumed : ipcResume strict s with
    | error stop =>
      rw [resumed] at next
      contradiction
    | ok t =>
      rw [resumed] at next
      obtain ⟨meeting, cur, calls⟩ := h.resume strict resumed
      have inside' : t.call (getCurid t.thread) = some call := by rw [cur, calls, inside]
      cases call with
      | send tf => exact ⟨ys, meeting.sendLoop inside' next⟩
      | recv tf => exact meeting.recvLoop inside' next
  | none =>
    rw [inside] at next
    cases a with
    | send tf =>
      have cur := (h.threads.wakeup (sendCv L (getCurid s.thread))).2
      unfold sysSyncSend at next
      dsimp only at next
      generalize woken : threadWakeup s.thread (sendCv L (getCurid s.thread)) = thread at next cur
      have entered := h.enterSend inside tf (syscallGetArg2 tf) (syscallGetArg3 tf) (syscallGetArg4 tf) woken.symm
      rw [← sendLoop_call _ _ _ (some (.send tf))] at next
      rw [cur] at next
      refine ⟨_, entered.sendLoop ?_ next⟩
      dsimp only
      rw [cur, update_self]
    | recv tf =>
      have entered := h.enterRecv inside tf
      exact entered.recvLoop (update_self ..) ((recvLoop_call ..).trans next)
    | kill tf =>
      cases next
      obtain ⟨threads, -, sleepers⟩ := h.threads.kill allowed
      exact ⟨ys, h.awake threads sleepers⟩
    | yield =>
      cases yielded : threadYield s.thread with
      | error halt =>
        rw [yielded] at next
        contradiction
      | ok thread =>
        rw [yielded] at next
        cases next
        obtain ⟨threads, sleepers⟩ := h.threads.yield yielded
        exact ⟨ys, h.awake threads sleepers⟩

end Meeting

variable {L : IpcLayout} {s : IpcState}

theorem IpcStart.meeting (h : IpcStart s) : Meeting L s [] := by
  have empty : MsgQueueOf ipcInit [] := ⟨List.nodup_nil, by simp, rfl, rfl, trivial⟩
  refine ⟨h.threads, h.messages ▸ empty, fun p lt => by rw [h.messages]; rfl, fun p now => absurd (h.call p) now,
    fun p => ⟨.idle, by rw [h.history]; rfl, List.not_mem_nil, fun tf now => ?_⟩, fun p tf now => ?_, fun p tf now => ?_⟩
  · rw [h.call p] at now
    contradiction
  · rw [h.call p] at now
    contradiction
  · rw [h.call p] at now
    contradiction

/-! ## The scan of the queue ends -/

section Ends

variable {L : IpcLayout} {s : IpcState} {ys : List Nat}

variable {stop : IpcStop}

theorem ipcSleep_error {chan : Word} (next : ipcSleep L s call chan = .error stop) :
    ∃ halt, stop = .halted halt := by
  unfold ipcSleep at next
  split at next
  · cases next
    exact ⟨_, rfl⟩
  · contradiction

variable {tf : TrapFrame}

theorem sendLoop_error (next : sendLoop L s tf = .error stop) :
    stop = .loops ∧ msgGetBlockBySendID s.messages (getCurid s.thread) = none ∨ ∃ halt, stop = .halted halt := by
  unfold sendLoop at next
  dsimp only at next
  split at next
  · cases next
    exact .inl ⟨rfl, ‹_›⟩
  · split at next
    · exact .inr (ipcSleep_error next)
    · contradiction

theorem recvLoop_error (next : recvLoop L s tf = .error stop) :
    stop = .loops ∧ msgGetBlockBySendID s.messages (syscallGetArg2 tf).toNat = none ∨ ∃ halt, stop = .halted halt := by
  unfold recvLoop at next
  dsimp only at next
  split at next
  · cases next
    exact .inl ⟨rfl, ‹_›⟩
  · split at next
    · exact .inr (ipcSleep_error next)
    · contradiction

theorem sendLoop_ends (found : msgGetBlockBySendID s.messages (getCurid s.thread) ≠ none) :
    sendLoop L s tf ≠ .error .loops := by
  intro next
  rcases sendLoop_error next with ⟨-, none⟩ | ⟨halt, stop⟩
  · exact found none
  · contradiction

theorem recvLoop_ends (found : msgGetBlockBySendID s.messages (syscallGetArg2 tf).toNat ≠ none) :
    recvLoop L s tf ≠ .error .loops := by
  intro next
  rcases recvLoop_error next with ⟨-, none⟩ | ⟨halt, stop⟩
  · exact found none
  · contradiction

theorem Meeting.found (h : Meeting L s ys) (sendPid : Nat) : msgGetBlockBySendID s.messages sendPid ≠ none := by
  rw [h.getBlock]
  exact nofun

theorem Meeting.ends (h : Meeting L s ys) (strict : Bool) (a : IpcAction) : ipcStep L strict s a ≠ .error .loops := by
  unfold ipcStep
  cases inside : s.call (getCurid s.thread) with
  | some call =>
    cases resumed : ipcResume strict s with
    | error stop =>
      unfold ipcResume at resumed
      split at resumed
      · cases resumed
        exact nofun
      · contradiction
    | ok t =>
      obtain ⟨meeting, -⟩ := h.resume strict resumed
      cases call with
      | send tf => exact sendLoop_ends (meeting.found _)
      | recv tf => exact recvLoop_ends (meeting.found _)
  | none =>
    cases a with
    | send tf =>
      have entered := h.enterSend inside tf (syscallGetArg2 tf) (syscallGetArg3 tf) (syscallGetArg4 tf) rfl
      exact sendLoop_ends (entered.found _)
    | recv tf => exact recvLoop_ends (h.found _)
    | kill tf => exact nofun
    | yield =>
      cases threadYield s.thread with
      | error halt => exact nofun
      | ok thread => exact nofun

end Ends

structure Rendezvous (L : IpcLayout) (s : IpcState) (ys : List Nat) : Prop where
  queue : MsgQueueOf s.messages ys
  members : ∀ p, p ∈ ys ↔ (∃ tf, s.call p = some (.send tf)) ∧
    sendStatus p s.history = some (.waiting (s.messages.msgBlock p).recvPid)
  messages : ∀ p, sendStatus p s.history ≠ none
  receivers : ∀ p tf, s.call p = some (.recv tf) → tcbGetState s.thread p = .sleep →
    tcbGetChan s.thread p = sendCv L (syscallGetArg2 tf).toNat ∧
      ¬((syscallGetArg2 tf).toNat ∈ ys ∧
        (s.messages.msgBlock (syscallGetArg2 tf).toNat).recvPid = BitVec.ofNat 32 p)
  senders : ∀ p tf, s.call p = some (.send tf) → tcbGetState s.thread p = .sleep →
    tcbGetChan s.thread p = recvCv L p ∧ p ∈ ys

theorem Meeting.rendezvous {ys : List Nat} (h : Meeting L s ys) : Rendezvous L s ys := by
  refine ⟨h.queue, fun p => ?_, fun p none => ?_, h.receivers, fun p tf call asleep => (h.senders p tf call asleep).symm⟩
  · obtain ⟨st, status, ok⟩ := h.status p
    rw [status]
    cases st with
    | idle => simp [ok.1]
    | waiting receiver =>
      obtain ⟨member, block, call⟩ := ok
      simp [member, block, call]
    | taken => simp [ok.1]
  · obtain ⟨st, status, -⟩ := h.status p
    rw [status] at none
    contradiction

/-- Whatever processes send to and receive from each other, and whomever signals wake meanwhile, they meet, and the
next step does not get lost in the queue. -/
theorem run_rendezvous (L : IpcLayout) (start : IpcState) (begins : IpcStart start) (actions : List IpcAction)
    (allowed : Along (ipcStep L false) (fun _ a => a.NotKill) start actions) (s : IpcState)
    (reached : run (ipcStep L false) start actions = .ok s) :
    (∃ ys, Rendezvous L s ys) ∧ ∀ a, ipcStep L false s a ≠ .error .loops := by
  obtain ⟨ys, meeting⟩ : ∃ ys, Meeting L s ys := by
    refine run_invariant (fun s => ∃ ys, Meeting L s ys) ?_ ⟨[], begins.meeting⟩ allowed reached
    rintro s a s' ⟨ys, meeting⟩ notKill next
    exact meeting.step notKill next
  exact ⟨⟨ys, meeting.rendezvous⟩, meeting.ends false⟩

def pairThreads : ThreadState := setCurid (tcbSetState (threadSpawn idleThreads 2) 1 .run) 1

theorem pairThreads_user : UserThreads pairThreads := by
  have buried : Buried idleThreads 2 := ⟨rfl, by decide⟩
  have alone : Scheduled idleThreads [] := ⟨idle_ready, by decide, .inl rfl⟩
  have spawned := (threadSpawn_spec alone (by decide) buried).1
  have ready : ReadyList (tcbSetState (threadSpawn idleThreads 2) 1 .run) [2] :=
    spawned.toReadyList.setState (by decide) (by decide)
  exact ⟨⟨[2], ⟨ready.congr rfl fun _ => rfl, by decide, .inl (by decide)⟩⟩, by decide, by decide⟩

def pairStart : IpcState := ⟨pairThreads, blankVm, ipcInit, false, fun _ => none, []⟩

def sampleIpcLayout : IpcLayout := ⟨0x200000, 0x210000, 0x220000, by decide, by decide⟩

def exchange : List IpcAction :=
  [.send (syscallFrame .syncSend 2 0 0), .recv (syscallFrame .syncRecv 1 0 0), .yield, .yield]

theorem exchange_runs : Reaches (run (ipcStep sampleIpcLayout false) pairStart exchange) fun s =>
    s.history.length = 4 := by
  decide +kernel

theorem run_rendezvous_exchange : Reaches (run (ipcStep sampleIpcLayout false) pairStart exchange) fun s =>
    (∃ ys, Rendezvous sampleIpcLayout s ys) ∧ ∀ a, ipcStep sampleIpcLayout false s a ≠ .error .loops := by
  obtain ⟨s, reached, -⟩ := exchange_runs
  exact ⟨s, reached, run_rendezvous sampleIpcLayout pairStart
    ⟨pairThreads_user, rfl, rfl, fun _ => rfl, rfl⟩ exchange (by decide +kernel) s reached⟩

end Certikos
