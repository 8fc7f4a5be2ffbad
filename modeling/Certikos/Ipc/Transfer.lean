import Certikos.Ipc.Rendezvous
import Certikos.Memory.CopyIn

/-!
# What a message carries

`ipc_copy` takes a message through `msg_buf`, a hundred bytes at a time, and each piece is copied in and out page by
page.
-/

namespace Certikos
open Lib

structure Transferred (s s' : VmState) (sender receiver : Nat) (src dst n : Word) : Prop where
  equal : ∀ i, i < n → ∃ b, UserByte s' sender (src + i) b ∧ UserByte s' receiver (dst + i) b
  others : ∀ q va b, (1 ≤ q ∧ q < numIds) → UserByte s q va b → ¬(q = receiver ∧ va - dst < n) → UserByte s' q va b

structure Funded (s : VmState) (sender receiver : Nat) (srcPages dstPages : Finset Nat) : Prop where
  send : need s sender srcPages ≤ room s sender
  recv : need s receiver dstPages ≤ room s receiver
  pages : need s sender srcPages + need s receiver dstPages ≤ (stock s).card

section Pieces

variable {L : Layout} {I : IpcLayout} {s s₁ s₂ : VmState} {sender receiver : Nat} {srcPages dstPages : Finset Nat}
variable {src dst len size : Word}

theorem Transferred.refl (s : VmState) (sender receiver : Nat) (src dst : Word) :
    Transferred s s sender receiver src dst 0#32 :=
  ⟨fun _ lt => absurd lt BitVec.not_lt_zero, fun _ _ _ _ seen _ => seen⟩

theorem Transferred.append (first : Transferred s s₁ sender receiver src dst size)
    (rest : Transferred s₁ s₂ sender receiver (src + size) (dst + size) (len - size))
    (hs : UserPid sender) (hr : UserPid receiver) (differ : sender ≠ receiver)
    (le : size.toNat ≤ len.toNat) : Transferred s s₂ sender receiver src dst len where
  equal i lt := by
    by_cases early : i < size
    · obtain ⟨b, sent, received⟩ := first.equal i early
      refine ⟨b, rest.others _ _ _ hs sent fun same => differ same.1, rest.others _ _ _ hr received fun later => ?_⟩
      bv_omega
    · obtain ⟨b, sent, received⟩ := rest.equal (i - size) (by bv_omega)
      have sum : size + (i - size) = i := by rw [BitVec.add_comm, BitVec.sub_add_cancel]
      rw [BitVec.add_assoc, sum] at sent received
      exact ⟨b, sent, received⟩
  others q va b hq seen outside := by
    refine rest.others q va b hq (first.others q va b hq seen fun inside => outside ⟨inside.1, ?_⟩) fun inside =>
      outside ⟨inside.1, ?_⟩
    · have range := inside.2
      bv_omega
    · have range := inside.2
      bv_omega

theorem Funded.send_spends (funded : Funded s sender receiver srcPages dstPages) (spends : Spends s s₁ sender srcPages)
    (differ : sender ≠ receiver) (valid : ∀ v ∈ dstPages, (Use.page receiver v).Valid) :
    Funded s₁ sender receiver srcPages dstPages := by
  obtain ⟨send, recv, pages⟩ := funded
  have left := spends.room
  have stocked := spends.stock
  have other := spends.others receiver differ.symm
  have same := spends.needs receiver dstPages differ.symm valid
  exact ⟨by omega, by omega, by omega⟩

theorem Funded.recv_spends (funded : Funded s sender receiver srcPages dstPages) (spends : Spends s s₁ receiver dstPages)
    (differ : sender ≠ receiver) (valid : ∀ v ∈ srcPages, (Use.page sender v).Valid) :
    Funded s₁ sender receiver srcPages dstPages := by
  obtain ⟨send, recv, pages⟩ := funded
  have left := spends.room
  have stocked := spends.stock
  have other := spends.others sender differ
  have same := spends.needs sender srcPages differ valid
  exact ⟨by omega, by omega, by omega⟩

variable (hs : UserPid sender) (hr : UserPid receiver) (differ : sender ≠ receiver)
variable (validFrom : ∀ v ∈ srcPages, (Use.page sender v).Valid) (validTo : ∀ v ∈ dstPages, (Use.page receiver v).Valid)
include hs hr differ validFrom validTo

variable (h : Isolated L s) (funded : Funded s sender receiver srcPages dstPages) (reads : Covers srcPages src len)
  (writes : Covers dstPages dst len)
include h funded reads writes

theorem piece_transferred (buffer : KernelBuffer L I.msgBuf len) :
    Isolated L (ptCopyout (ptCopyin s sender src I.msgBuf len).vm I.msgBuf receiver dst len).vm ∧
      Funded (ptCopyout (ptCopyin s sender src I.msgBuf len).vm I.msgBuf receiver dst len).vm sender receiver
    srcPages dstPages ∧
      Transferred s (ptCopyout (ptCopyin s sender src I.msgBuf len).vm I.msgBuf receiver dst len).vm sender receiver
        src dst len := by
  have low := buffer.1
  have affordsFrom : Affords s sender srcPages := ⟨funded.send, by have := funded.pages; omega⟩
  have fetched : Fetched L srcPages s (ptCopyin s sender src I.msgBuf len).vm sender src I.msgBuf len := by
    rw [ptCopyin, if_pos (copyChecks_of_low reads.lo reads.hi low)]
    exact copyLoop_fetched hs validFrom h affordsFrom reads buffer le_rfl
  have spentFrom : Spends s (ptCopyin s sender src I.msgBuf len).vm sender srcPages := by
    rw [ptCopyin, if_pos (copyChecks_of_low reads.lo reads.hi low)]
    exact copyLoop_spends h hs validFrom affordsFrom reads (fun _ => buffer) le_rfl
  have funded₁ := funded.send_spends spentFrom differ validTo
  generalize (ptCopyin s sender src I.msgBuf len).vm = s₁ at *
  have affordsTo : Affords s₁ receiver dstPages := ⟨funded₁.recv, by have := funded₁.pages; omega⟩
  obtain ⟨-, stored⟩ := ptCopyout_stored fetched.isolated hr validTo affordsTo writes low
  have spentTo : Spends s₁ (ptCopyout s₁ I.msgBuf receiver dst len).vm receiver dstPages := by
    rw [ptCopyout, if_pos (copyChecks_of_low writes.lo writes.hi low)]
    exact copyLoop_spends fetched.isolated hr validTo affordsTo writes (by simp) le_rfl
  refine ⟨stored.isolated, funded₁.recv_spends spentTo differ validFrom, fun i lt => ?_, fun q va b hq seen outside => ?_⟩
  · refine ⟨s₁.mem (I.msgBuf + i), ?_, stored.written i lt⟩
    exact stored.kept _ _ _ hs (fetched.shown i lt) fun same => differ same.1
  · exact stored.kept q va b hq (fetched.kept q va b hq seen) outside

theorem ipcCopyLoop_transferred (buffer : KernelBuffer L I.msgBuf (BitVec.ofNat 32 msgBufSize))
    (short : len.toNat < 2 ^ 31) {fuel : Nat} (enough : len.toNat ≤ fuel) :
    Transferred s (ipcCopyLoop I receiver sender fuel s dst src len) sender receiver src dst len := by
  induction fuel generalizing s src dst len with
  | zero =>
    have zero : len = 0#32 := BitVec.eq_of_toNat_eq (by simpa using enough)
    rw [zero]
    exact .refl s sender receiver src dst
  | succ fuel ih =>
    have signed := BitVec.toInt_eq_toNat_of_lt (show 2 * len.toNat < 2 ^ 32 by omega)
    by_cases zero : len = 0#32
    · rw [zero, ipcCopyLoop, if_neg (by decide)]
      exact .refl s sender receiver src dst
    have positive : len.toNat ≠ 0 := fun e => zero (BitVec.eq_of_toNat_eq e)
    rw [ipcCopyLoop, if_pos (by omega)]
    have size : (if len.toInt < (msgBufSize : Int) then len else BitVec.ofNat 32 msgBufSize).toNat =
        min len.toNat 100 := by
      split
      · rename_i last
        simp only [msgBufSize] at last
        omega
      · rename_i more
        simp only [msgBufSize] at more
        change 100 = _
        omega
    generalize (if len.toInt < (msgBufSize : Int) then len else BitVec.ofNat 32 msgBufSize) = size' at *
    obtain ⟨low, apart⟩ := buffer
    change I.msgBuf.toNat + 100 ≤ _ at low
    change I.msgBuf.toNat + 100 ≤ _ ∨ _ at apart
    have le : size'.toNat ≤ len.toNat := by omega
    have left := sub_toNat_of_le le
    obtain ⟨isolated, funded₁, piece⟩ := piece_transferred (I := I) hs hr differ validFrom validTo h funded
      (reads.take le) (writes.take le) (show KernelBuffer L I.msgBuf size' from ⟨by omega, by omega⟩)
    exact piece.append (ih isolated funded₁ (reads.drop le) (writes.drop le) (by omega) (by omega)) hs hr differ le

end Pieces

/-! ## The whole call -/

structure Offered (s : IpcState) (tf : TrapFrame) (sender : Nat) : Prop where
  asked : (syscallGetArg2 tf).toNat = sender
  queued : msgGetBlockBySendID s.messages sender = some sender
  addressed : (s.messages.msgBlock sender).recvPid = BitVec.ofNat 32 (getCurid s.thread)

def transferLength (s : IpcState) (tf : TrapFrame) (sender : Nat) : Word :=
  if (s.messages.msgBlock sender).length < syscallGetArg4 tf then (s.messages.msgBlock sender).length
  else syscallGetArg4 tf

structure Received (s s' : IpcState) (tf : TrapFrame) (sender : Nat) : Prop where
  transferred : Transferred s.vm s'.vm sender (getCurid s.thread) (s.messages.msgBlock sender).bufferAddr
    (syscallGetArg3 tf) (transferLength s tf sender)
  returned : s'.history = s.history ++ [.received (getCurid s.thread) sender,
    .recvReturned (getCurid s.thread) (syscallSetRetval1 (syscallSetErrno tf .succ) (transferLength s tf sender))]

theorem toNat_transferLength (s : IpcState) (tf : TrapFrame) (sender : Nat) :
    (transferLength s tf sender).toNat = min (s.messages.msgBlock sender).length.toNat (syscallGetArg4 tf).toNat := by
  unfold transferLength
  split
  · rename_i less
    rw [BitVec.lt_def] at less
    omega
  · rename_i less
    rw [BitVec.lt_def] at less
    omega

theorem recvLoop_offered {I : IpcLayout} {s : IpcState} {tf : TrapFrame} {sender : Nat} (offered : Offered s tf sender)
    (hs : sender < numIds) : ∃ s', recvLoop I s tf = .ok s' ∧
      s'.vm = ipcCopy I s.vm (getCurid s.thread) (syscallGetArg3 tf) sender (s.messages.msgBlock sender).bufferAddr
        (transferLength s tf sender) ∧ s'.history = s.history ++ [.received (getCurid s.thread) sender,
        .recvReturned (getCurid s.thread) (syscallSetRetval1 (syscallSetErrno tf .succ)
    (transferLength s tf sender))] := by
  obtain ⟨asked, queued, addressed⟩ := offered
  subst asked
  have found : ¬((syscallGetArg2 tf).toNat = numIds ∨
      (s.messages.msgBlock (syscallGetArg2 tf).toNat).recvPid ≠ BitVec.ofNat 32 (getCurid s.thread)) := by
    rintro (none | other)
    · omega
    · exact other addressed
  have run : recvLoop I s tf = .ok { s with
      vm := ipcCopy I s.vm (getCurid s.thread) (syscallGetArg3 tf) (syscallGetArg2 tf).toNat
        (s.messages.msgBlock (syscallGetArg2 tf).toNat).bufferAddr (transferLength s tf (syscallGetArg2 tf).toNat)
      messages := msgRemove s.messages (syscallGetArg2 tf).toNat
      thread := threadWakeup s.thread (recvCv I (syscallGetArg2 tf).toNat)
      call := Function.update s.call (getCurid s.thread) none
      history := s.history ++ [.received (getCurid s.thread) (syscallGetArg2 tf).toNat,
        .recvReturned (getCurid s.thread) (syscallSetRetval1 (syscallSetErrno tf .succ)
          (transferLength s tf (syscallGetArg2 tf).toNat))] } := by
    rw [recvLoop, queued]
    exact if_neg found
  exact ⟨_, run, rfl, rfl⟩

def offeredByte : Messages :=
  msgEnqueue (modifyBlock ipcInit 2 fun b => { b with recvPid := 1, bufferAddr := 0x40000000, length := 1 }) 2

def waiting (vm : VmState) : IpcState := ⟨pairThreads, vm, offeredByte, false, fun _ => none, []⟩

def recvFrame : TrapFrame := syscallFrame .syncRecv 2 0x40000000 8

section Waiting

variable (vm : VmState)

theorem waiting_offered : Offered (waiting vm) recvFrame 2 where
  asked := by decide
  queued := show msgGetBlockBySendID offeredByte 2 = some 2 by decide
  addressed := show (offeredByte.msgBlock 2).recvPid = BitVec.ofNat 32 (getCurid pairThreads) by decide

theorem waiting_transferLength : transferLength (waiting vm) recvFrame 2 = 1 :=
  show (if (offeredByte.msgBlock 2).length < syscallGetArg4 recvFrame then (offeredByte.msgBlock 2).length
    else syscallGetArg4 recvFrame) = 1 by decide

theorem waiting_from : ((waiting vm).messages.msgBlock 2).bufferAddr = 0x40000000 :=
  show (offeredByte.msgBlock 2).bufferAddr = 0x40000000 by decide

theorem waiting_curid : getCurid (waiting vm).thread = 1 := show getCurid pairThreads = 1 by decide

end Waiting

variable {s vm : VmState} {b : Byte}

theorem ipcCopy_lost (seen : UserByte s 2 0x40000000 b) (dir : getPdirEntryByVa s 1 0x40000000 = 0#32)
    (left : (s.container 1).usage ≠ (s.container 1).quota) (none : ∀ j, s.lastPallocIndex < j → ¬Available s j) :
    getPdirEntryByVa (ipcCopy sampleIpcLayout s 1 0x40000000 2 0x40000000 1) 1 0x40000000 = 0#32 := by
  have view : ∀ i : Word, i < 1 → UserByte s 2 (0x40000000 + i) b := by
    intro i lt
    have zero : i = 0 := by bv_omega
    rw [zero]
    exact seen
  have fetched : (ptCopyin s 2 0x40000000 sampleIpcLayout.msgBuf 1).vm =
      { s with mem := storeBytes s.mem sampleIpcLayout.msgBuf 1 fun _ => b } :=
    (ptCopyin_view (by decide) (by decide) (by decide) view).2
  have stored : (ptCopyout { s with mem := storeBytes s.mem sampleIpcLayout.msgBuf 1 fun _ => b }
      sampleIpcLayout.msgBuf 1 0x40000000 1).vm =
      lost { s with mem := storeBytes s.mem sampleIpcLayout.msgBuf 1 fun _ => b } 1 0x40000000 sampleIpcLayout.msgBuf 1 :=
    ptCopyout_lost (by decide) (by decide) (by decide) dir left none
  have once (t : VmState) : ipcCopy sampleIpcLayout t 1 0x40000000 2 0x40000000 1 =
      (ptCopyout (ptCopyin t 2 0x40000000 sampleIpcLayout.msgBuf 1).vm sampleIpcLayout.msgBuf 1 0x40000000 1).vm := rfl
  rw [once, fetched, stored]
  exact dir

def passed (s : VmState) : VmState := { s with lastPallocIndex := getNps s }

theorem passed_none (s : VmState) : ∀ j, (passed s).lastPallocIndex < j → ¬Available (passed s) j :=
  fun _ above available => Nat.lt_asymm above available.1

theorem passed_seen {L : Layout} {pid : Nat} {va : Word} (h : Isolated L s) (seen : UserByte s pid va b) :
    Isolated L (passed s) ∧ UserByte (passed s) pid va b :=
  ⟨h.account rfl rfl rfl (fun _ => rfl) fun _ _ _ allocated => allocated,
    ⟨seen.user, seen.mapped, seen.table, seen.frame, seen.value⟩⟩

def passedPair : VmState := passed (ptCopyout (bootVm (fun _ => 0) 0x40000) 0x300000 2 0x40000000 1).vm

theorem passedPair_sender : Isolated sampleLayout passedPair ∧ UserByte passedPair 2 0x40000000 0 := by
  have boot := bootVm_justBooted (fun _ => 0) 0x40000
  unfold passedPair
  generalize bootVm (fun _ => 0) 0x40000 = s at boot
  have range : vpages 0x40000000 1 = {0x40000} := by decide
  have affords : Affords s 2 (vpages 0x40000000 1) := range ▸ boot.affords le_rfl (by decide) 0x40000
  have stored : Stored sampleLayout (vpages 0x40000000 1) s (ptCopyout s 0x300000 2 0x40000000 1).vm 2 0x40000000 1
      fun i => s.mem (0x300000 + i) :=
    (ptCopyout_stored boot.isolated (by decide) (vpages_valid (by decide) (by decide) (by decide)) affords
      (covers_vpages (by decide) (by decide)) (by decide)).2
  have seen := stored.written 0#32 (by decide)
  rw [BitVec.add_zero, BitVec.add_zero, boot.mem _ (.inl (by decide))] at seen
  exact passed_seen stored.isolated seen

theorem passed_receiver (boot : JustBooted (fun _ => 0) 0x40000 s) :
    (passed (ptCopyout s 0x300000 2 0x40000000 1).vm).container 1 = ⟨100, 0, 0, 0, 1⟩ ∧
      ∀ i, (Use.table 1 i).Valid → (passed (ptCopyout s 0x300000 2 0x40000000 1).vm).pdirPool 1 i = 0#32 := by
  have copied : (ptCopyout s 0x300000 2 0x40000000 1).vm = (touchAt s 2 0x40000000 1).moved .copyout 0x300000 := by
    rw [ptCopyout, if_pos (by decide), copyLoop_single (by decide) (by decide)]
  obtain ⟨container, dir⟩ := touch_other s 0x40000000 1 (show 1 ≠ 2 by decide)
  rw [copied]
  generalize touchAt s 2 0x40000000 1 = t at *
  exact ⟨container.trans (boot.container 1 (by decide)), fun i valid => (dir i).trans (boot.dir 1 i valid)⟩

theorem passedPair_none : ∀ j, passedPair.lastPallocIndex < j → ¬Available passedPair j := by
  unfold passedPair
  exact passed_none _

theorem recvLoop_lost (seen : UserByte vm 2 0x40000000 0) (container : vm.container 1 = ⟨100, 0, 0, 0, 1⟩)
    (dir : ∀ i, (Use.table 1 i).Valid → vm.pdirPool 1 i = 0#32) (none : ∀ j, vm.lastPallocIndex < j → ¬Available vm j) :
    ¬∃ s', recvLoop sampleIpcLayout (waiting vm) recvFrame = .ok s' ∧ Received (waiting vm) s' recvFrame 2 := by
  rintro ⟨s', result, received⟩
  obtain ⟨t, again, copied, -⟩ := recvLoop_offered (I := sampleIpcLayout) (waiting_offered vm) (by decide)
  obtain rfl : s' = t := by
    rw [result] at again
    exact Except.ok.inj again
  have transferred := received.transferred
  have target : syscallGetArg3 recvFrame = 0x40000000 := by decide
  rw [waiting_transferLength, waiting_from, waiting_curid, target] at transferred copied
  obtain ⟨b, -, there⟩ := transferred.equal 0#32 (by decide)
  rw [BitVec.add_zero] at there
  have quota : (vm.container 1).usage ≠ (vm.container 1).quota := by
    rw [container]
    decide
  have missing : getPdirEntryByVa vm 1 0x40000000 = 0#32 := by
    rw [getPdirEntryByVa, show pdeIndexOf 0x40000000 = 256 by decide]
    exact dir 256 (by decide)
  refine dir_of_present there.mapped ?_
  rw [copied]
  exact ipcCopy_lost seen missing quota none

theorem room_of_container (container : vm.container 1 = ⟨100, 0, 0, 0, 1⟩) :
    need vm 1 (vpages 0x40000000 1) ≤ room vm 1 := by
  have few := need_single vm 1 0x40000
  have range : vpages 0x40000000 1 = {0x40000} := by decide
  have room : room vm 1 = 100 := by
    rw [Certikos.room, container]
    decide
  rw [range]
  omega

end Certikos
