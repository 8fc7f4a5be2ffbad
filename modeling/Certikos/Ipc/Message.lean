import Certikos.Memory.Copy
import Certikos.Thread.Kill

/-!
# Messages

The message blocks of `ipc.c`, one per process, and the queue of those that wait to be received, which is a doubly
linked list through the blocks.
-/

namespace Certikos
open Lib Function

abbrev msgBufSize : Nat := 100

structure IpcLayout where
  msgBlock : Word
  msgLock : Word
  msgBuf : Word
  msgLock_ne : msgLock ≠ 0#32
  msgBuf_below : msgBuf.toNat + msgBufSize ≤ vmUserlo

structure MsgBlock where
  prev : Nat
  next : Nat
  sendPid : Nat
  recvPid : Word
  length : Word
  bufferAddr : Word

structure MsgQueue where
  head : Nat
  tail : Nat

structure Messages where
  msgBlock : Nat → MsgBlock
  msgQueue : MsgQueue

/-- `&msgBlock[pid].recv_cv` and `&msgBlock[pid].send_cv`; a block is 28 bytes. -/
def recvCv (L : IpcLayout) (pid : Nat) : Word := L.msgBlock + BitVec.ofNat 32 (28 * pid + 24)
def sendCv (L : IpcLayout) (pid : Nat) : Word := L.msgBlock + BitVec.ofNat 32 (28 * pid + 25)

def ipcInit : Messages where
  msgBlock i := ⟨numIds, numIds, i, BitVec.ofNat 32 numIds, 0, 0⟩
  msgQueue := ⟨numIds, numIds⟩

def modifyBlock (m : Messages) (pid : Nat) (f : MsgBlock → MsgBlock) : Messages :=
  { m with msgBlock := update m.msgBlock pid (f (m.msgBlock pid)) }

def msgSetPrev (m : Messages) (pid prev : Nat) : Messages := modifyBlock m pid fun b => { b with prev := prev }
def msgSetNext (m : Messages) (pid next : Nat) : Messages := modifyBlock m pid fun b => { b with next := next }

def msgEnqueue (m : Messages) (sendPid : Nat) : Messages :=
  let tail := m.msgQueue.tail
  if tail = numIds then
    { msgSetNext (msgSetPrev m sendPid numIds) sendPid numIds with msgQueue := ⟨sendPid, sendPid⟩ }
  else
    { msgSetNext (msgSetPrev (msgSetNext m tail sendPid) sendPid tail) sendPid numIds with
      msgQueue := ⟨m.msgQueue.head, sendPid⟩ }

def msgRemove (m : Messages) (sendPid : Nat) : Messages :=
  let prev := (m.msgBlock sendPid).prev
  let next := (m.msgBlock sendPid).next
  let m :=
    if prev = numIds then
      if next = numIds then { m with msgQueue := ⟨numIds, numIds⟩ }
      else { msgSetPrev m next numIds with msgQueue := ⟨next, m.msgQueue.tail⟩ }
    else
      if next = numIds then { msgSetNext m prev numIds with msgQueue := ⟨m.msgQueue.head, prev⟩ }
      else msgSetPrev (msgSetNext m prev next) next prev
  msgSetPrev (msgSetNext m sendPid numIds) sendPid numIds

def msgScan (m : Messages) (sendPid : Nat) : (fuel pid : Nat) → Option Nat
  | 0, _ => none
  | fuel + 1, pid =>
    if pid = numIds then some numIds
    else if (m.msgBlock pid).sendPid = sendPid then some sendPid
    else msgScan m sendPid fuel (m.msgBlock pid).next

/-- The queue has at most `NUM_IDS` members, and one more round finds its end. -/
def msgGetBlockBySendID (m : Messages) (sendPid : Nat) : Option Nat :=
  msgScan m sendPid (numIds + 1) m.msgQueue.head

/-- The loop of `msg_getBlockByRecvID`, which stays at the block where it begins. -/
def msgScanRecv (m : Messages) (recvPid : Word) : (fuel pid : Nat) → Option Nat
  | 0, _ => none
  | fuel + 1, pid =>
    if pid = numIds then some numIds
    else if (m.msgBlock pid).recvPid = recvPid then some (m.msgBlock pid).sendPid
    else msgScanRecv m recvPid fuel pid

/-- The loop of `ipc_copy`. Every round takes at least one byte off `length`, which is a signed integer. -/
def ipcCopyLoop (L : IpcLayout) (destPid sourcePid : Nat) :
    (fuel : Nat) → VmState → (destUserAddr sourceUserAddr length : Word) → VmState
  | 0, s, _, _, _ => s
  | fuel + 1, s, destUserAddr, sourceUserAddr, length =>
    if length.toInt > 0 then
      let len := if length.toInt < msgBufSize then length else BitVec.ofNat 32 msgBufSize
      let s := (ptCopyin s sourcePid sourceUserAddr L.msgBuf len).vm
      let s := (ptCopyout s L.msgBuf destPid destUserAddr len).vm
      ipcCopyLoop L destPid sourcePid fuel s (destUserAddr + len) (sourceUserAddr + len) (length - len)
    else s

def ipcCopy (L : IpcLayout) (s : VmState) (destPid : Nat) (destUserAddr : Word) (sourcePid : Nat)
    (sourceUserAddr length : Word) : VmState :=
  ipcCopyLoop L destPid sourcePid length.toNat s destUserAddr sourceUserAddr length

/-! ## The queue is a list -/

def msgLinks (m : Messages) : Links Nat :=
  ⟨fun p => (m.msgBlock p).prev, fun p => (m.msgBlock p).next, m.msgQueue.head, m.msgQueue.tail⟩

def MsgQueueOf (m : Messages) (ys : List Nat) : Prop := (msgLinks m).Represents numIds ys

section Getters

variable (m : Messages) (p q v : Nat)

@[simp] theorem prev_msgSetPrev :
    ((msgSetPrev m p v).msgBlock q).prev = if q = p then v else (m.msgBlock q).prev := by
  by_cases h : q = p
  · simp [msgSetPrev, modifyBlock, h]
  · simp [msgSetPrev, modifyBlock, h]

@[simp] theorem next_msgSetNext :
    ((msgSetNext m p v).msgBlock q).next = if q = p then v else (m.msgBlock q).next := by
  by_cases h : q = p
  · simp [msgSetNext, modifyBlock, h]
  · simp [msgSetNext, modifyBlock, h]

theorem part_modifyBlock {α : Type} (part : MsgBlock → α) (f : MsgBlock → MsgBlock) (keep : ∀ b, part (f b) = part b) :
    part ((modifyBlock m p f).msgBlock q) = part (m.msgBlock q) := by
  unfold modifyBlock
  by_cases h : q = p
  · simp [h, keep]
  · simp [h]

@[simp] theorem prev_msgSetNext : ((msgSetNext m p v).msgBlock q).prev = (m.msgBlock q).prev :=
  part_modifyBlock m p q MsgBlock.prev _ fun _ => rfl

@[simp] theorem next_msgSetPrev : ((msgSetPrev m p v).msgBlock q).next = (m.msgBlock q).next :=
  part_modifyBlock m p q MsgBlock.next _ fun _ => rfl

end Getters

@[simp] theorem msgQueue_msgSetPrev : (msgSetPrev m p v).msgQueue = m.msgQueue := rfl

@[simp] theorem msgQueue_msgSetNext : (msgSetNext m p v).msgQueue = m.msgQueue := rfl

variable (m : Messages) (pid : Nat)

theorem msgLinks_enqueue :
    msgLinks (msgEnqueue m pid) = (msgLinks m).enqueue numIds pid := by
  by_cases empty : m.msgQueue.tail = 64
  · ext q <;> simp [msgLinks, msgEnqueue, Links.enqueue, empty, update_apply]
  · ext q <;> simp [msgLinks, msgEnqueue, Links.enqueue, empty, update_apply]

theorem msgLinks_remove
    (distinct : (m.msgBlock pid).prev ≠ numIds → (m.msgBlock pid).prev ≠ (m.msgBlock pid).next) :
    msgLinks (msgRemove m pid) = (msgLinks m).remove numIds pid := by
  by_cases hp : (m.msgBlock pid).prev = 64
  · by_cases hn : (m.msgBlock pid).next = 64
    · ext q <;> simp [msgLinks, msgRemove, Links.remove, hp, hn, update_apply]
    · ext q <;> simp [msgLinks, msgRemove, Links.remove, hp, hn, update_apply]
  · have ne := distinct hp
    by_cases hn : (m.msgBlock pid).next = 64
    · ext q <;> simp [msgLinks, msgRemove, Links.remove, hp, hn, update_apply]
    · ext q <;> simp [msgLinks, msgRemove, Links.remove, hp, hn, ne, update_apply]

section Queue

variable {m : Messages} {ys : List Nat} {pid : Nat}

theorem MsgQueueOf.enqueue (h : MsgQueueOf m ys) (fresh : pid ∉ ys) (hp : pid ≠ numIds) :
    MsgQueueOf (msgEnqueue m pid) (ys ++ [pid]) := by
  unfold MsgQueueOf
  rw [msgLinks_enqueue]
  exact Links.Represents.enqueue h fresh hp

theorem MsgQueueOf.remove (h : MsgQueueOf m ys) (member : pid ∈ ys) : MsgQueueOf (msgRemove m pid) (ys.erase pid) := by
  obtain ⟨l, r, rfl⟩ := List.append_of_mem member
  have nodup := h.nodup
  have notBefore : pid ∉ l := fun mem => (List.nodup_append.1 nodup).2.2 pid mem pid (.head _) rfl
  have prev : (m.msgBlock pid).prev = l.getLastD numIds := Links.Represents.prev_eq h
  have next : (m.msgBlock pid).next = r.headD numIds := Links.Represents.next_eq h
  rw [List.erase_append_right _ notBefore, List.erase_cons_head]
  unfold MsgQueueOf
  rw [msgLinks_remove]
  · exact Links.Represents.remove h
  · rw [prev, next]
    intro hasPrev same
    -- the last before it and the first after it are different members
    rcases List.eq_nil_or_concat l with rfl | ⟨l, b, rfl⟩
    · exact hasPrev rfl
    · rw [List.concat_eq_append, List.getLastD_concat] at hasPrev same
      cases r with
      | nil => exact hasPrev same
      | cons c r =>
        rw [List.concat_eq_append] at nodup
        exact (List.nodup_append.1 nodup).2.2 b (by simp) c (by simp) same

theorem length_le_numIds (nodup : ys.Nodup) (bounded : ∀ p ∈ ys, p < numIds) : ys.length ≤ numIds := by
  have subset : ys ⊆ List.range numIds := fun p mem => List.mem_range.2 (bounded p mem)
  simpa using (List.subperm_of_subset nodup subset).length_le

theorem msgScan_eq {sendPid fuel before : Nat} (proper : numIds ∉ ys)
    (linked : Linked (msgLinks m).prev (msgLinks m).next before numIds ys)
    (numbered : ∀ p ∈ ys, (m.msgBlock p).sendPid = p) (enough : ys.length < fuel) :
    msgScan m sendPid fuel (ys.headD numIds) = some (if sendPid ∈ ys then sendPid else numIds) := by
  induction ys generalizing fuel before with
  | nil =>
    obtain ⟨fuel, rfl⟩ := Nat.exists_eq_succ_of_ne_zero (Nat.ne_zero_of_lt enough)
    simp [msgScan]
  | cons p ys ih =>
    obtain ⟨fuel, rfl⟩ := Nat.exists_eq_succ_of_ne_zero (Nat.ne_zero_of_lt enough)
    obtain ⟨-, next, rest⟩ := linked
    have inside : p ≠ numIds := fun e => proper (e ▸ .head _)
    have number := numbered p (.head _)
    have later := ih (fun mem => proper (.tail _ mem)) rest
      (fun q mem => numbered q (.tail _ mem)) (Nat.lt_of_succ_lt_succ enough)
    rw [List.headD_cons, msgScan, if_neg inside, number]
    by_cases found : p = sendPid
    · rw [if_pos found, if_pos (found ▸ .head _)]
    · have go : (m.msgBlock p).next = ys.headD numIds := next
      rw [if_neg found, go, later]
      simp [Ne.symm found]

theorem MsgQueueOf.getBlock (h : MsgQueueOf m ys) (numbered : ∀ p ∈ ys, (m.msgBlock p).sendPid = p)
    (bounded : ∀ p ∈ ys, p < numIds) (sendPid : Nat) :
    msgGetBlockBySendID m sendPid = some (if sendPid ∈ ys then sendPid else numIds) := by
  have head : m.msgQueue.head = ys.headD numIds := h.head_eq
  have short := length_le_numIds h.nodup bounded
  rw [msgGetBlockBySendID, head]
  exact msgScan_eq h.proper h.linked numbered (Nat.lt_succ_of_le short)

theorem msgScanRecv_stuck {recvPid : Word} (inside : pid ≠ numIds) (other : (m.msgBlock pid).recvPid ≠ recvPid)
    (fuel : Nat) : msgScanRecv m recvPid fuel pid = none := by
  induction fuel with
  | zero => rfl
  | succ fuel ih => rw [msgScanRecv, if_neg inside, if_neg other, ih]

def firstFor (m : Messages) (recvPid : Word) (ys : List Nat) : Nat :=
  (ys.find? fun p => (m.msgBlock p).recvPid = recvPid).getD numIds

theorem lookups_iff (queue : MsgQueueOf m ys) (numbered : ∀ p ∈ ys, (m.msgBlock p).sendPid = p) (sendPid : Nat)
    (recvPid : Word) :
    ((∃ fuel, msgScan m sendPid fuel m.msgQueue.head = some (if sendPid ∈ ys then sendPid else numIds)) ∧
      ∃ fuel, msgScanRecv m recvPid fuel m.msgQueue.head = some (firstFor m recvPid ys)) ↔
    (m.msgQueue.head = numIds ∨ (m.msgBlock m.msgQueue.head).recvPid = recvPid) := by
  have head : m.msgQueue.head = ys.headD numIds := queue.head_eq
  have bySender : msgScan m sendPid (ys.length + 1) (ys.headD numIds) = _ :=
    msgScan_eq queue.proper queue.linked numbered (Nat.lt_succ_self _)
  rw [head]
  constructor
  · rintro ⟨-, fuel, found⟩
    by_contra neither
    rw [not_or] at neither
    rw [msgScanRecv_stuck neither.1 neither.2] at found
    cases found
  · intro decided
    refine ⟨⟨_, bySender⟩, 1, ?_⟩
    cases ys with
    | nil => rfl
    | cons p ys =>
      have inside : p ≠ numIds := fun same => queue.proper (same ▸ .head _)
      have here := decided.resolve_left inside
      rw [List.headD_cons] at here ⊢
      simp [msgScanRecv, firstFor, inside, here, numbered p (.head _)]

end Queue

def loneMessage : Messages := msgEnqueue (modifyBlock ipcInit 1 fun b => { b with recvPid := 2 }) 1

theorem loneMessage_queue : MsgQueueOf loneMessage [1] := ⟨List.nodup_singleton 1, by simp, rfl, rfl, rfl, rfl, trivial⟩

theorem loneMessage_found :
    MsgQueueOf loneMessage [1] ∧ ((∃ fuel, msgScan loneMessage 1 fuel loneMessage.msgQueue.head = some 1) ∧
      ∃ fuel, msgScanRecv loneMessage 2 fuel loneMessage.msgQueue.head = some 1) := by
  have numbered : ∀ p ∈ [1], (loneMessage.msgBlock p).sendPid = p := by decide
  exact ⟨loneMessage_queue, (lookups_iff loneMessage_queue numbered 1 2).mpr (.inr rfl)⟩

theorem loneMessage_missed :
    MsgQueueOf loneMessage [1] ∧ ∀ fuel, msgScanRecv loneMessage 3 fuel loneMessage.msgQueue.head = none :=
  ⟨loneMessage_queue, msgScanRecv_stuck (by decide) (by decide)⟩

/-! ## What the queue operations leave alone -/

structure SameMessages (m m' : Messages) : Prop where
  sendPid : ∀ p, (m'.msgBlock p).sendPid = (m.msgBlock p).sendPid
  recvPid : ∀ p, (m'.msgBlock p).recvPid = (m.msgBlock p).recvPid

theorem SameMessages.refl : SameMessages m m := ⟨fun _ => rfl, fun _ => rfl⟩

theorem SameMessages.trans {m₁ m₂ m₃ : Messages} (h : SameMessages m₁ m₂) (k : SameMessages m₂ m₃) :
    SameMessages m₁ m₃ :=
  ⟨fun p => (k.sendPid p).trans (h.sendPid p), fun p => (k.recvPid p).trans (h.recvPid p)⟩

theorem sameMessages_setPrev (p v : Nat) : SameMessages m (msgSetPrev m p v) :=
  ⟨fun q => part_modifyBlock m p q MsgBlock.sendPid _ fun _ => rfl,
    fun q => part_modifyBlock m p q MsgBlock.recvPid _ fun _ => rfl⟩

theorem sameMessages_setNext (p v : Nat) : SameMessages m (msgSetNext m p v) :=
  ⟨fun q => part_modifyBlock m p q MsgBlock.sendPid _ fun _ => rfl,
    fun q => part_modifyBlock m p q MsgBlock.recvPid _ fun _ => rfl⟩

theorem SameMessages.queue {m m' : Messages} (h : SameMessages m m') (q : MsgQueue) :
    SameMessages m { m' with msgQueue := q } := ⟨h.sendPid, h.recvPid⟩

theorem sameMessages_enqueue : SameMessages m (msgEnqueue m pid) := by
  unfold msgEnqueue
  dsimp only
  split
  · exact ((sameMessages_setPrev ..).trans (sameMessages_setNext ..)).queue _
  · exact (((sameMessages_setNext ..).trans (sameMessages_setPrev ..)).trans (sameMessages_setNext ..)).queue _

theorem sameMessages_remove : SameMessages m (msgRemove m pid) := by
  unfold msgRemove
  refine SameMessages.trans ?_ ((sameMessages_setNext ..).trans (sameMessages_setPrev ..))
  split
  · split
    · exact (SameMessages.refl m).queue _
    · exact (sameMessages_setPrev ..).queue _
  · split
    · exact (sameMessages_setNext ..).queue _
    · exact (sameMessages_setNext ..).trans (sameMessages_setPrev ..)

end Certikos
