import Certikos.Trap.Delivery

/-!
# Exchanging actions

`sys_sigaction` copies the old action out, copies the new one in and puts it into the table. The two ranges are
chosen by the user and may overlap, and neither copy is asked whether it succeeded.
-/

namespace Certikos
open Lib
open BitVec (ofNat)

/-! ## The bytes of an action -/

def Sigaction.words (act : Sigaction) : List Word :=
  [act.saHandler, act.saSigaction, act.saFlags, act.saRestorer, act.saMask]

def actionByte (act : Sigaction) (i : Nat) : Byte := byteOf (act.words.getD (i / 4) 0) (i % 4)

variable (m : Mem) (a : Word) (buf : LocalBuf) (k : KState) (tf : TrapFrame)

theorem writeWord_field (w x : Word) {c : Word} (small : c.toNat ≤ 16) (aligned : c.toNat % 4 = 0) :
    writeWord m (a + c) w x = if (x - a).toNat / 4 = c.toNat / 4 then byteOf w ((x - a).toNat % 4) else m x := by
  have here : x - (a + c) < 4 ↔ (x - a).toNat / 4 = c.toNat / 4 := by bv_omega
  have offset (inside : x - (a + c) < 4) : (x - (a + c)).toNat = (x - a).toNat % 4 := by bv_omega
  unfold writeWord
  by_cases inside : x - (a + c) < 4
  · rw [if_pos inside, if_pos (here.1 inside), offset inside]
  · rw [if_neg inside, if_neg fun same => inside (here.2 same)]

theorem writeSigaction_apply (act : Sigaction) (x : Word) :
    writeSigaction m a act x = if x - a < 20#32 then actionByte act (x - a).toNat else m x := by
  have first := writeWord_field m a act.saHandler x (c := 0#32) (by decide) (by decide)
  rw [BitVec.add_zero] at first
  have inside : x - a < 20#32 ↔ (x - a).toNat / 4 < 5 := by
    rw [BitVec.lt_def]
    change (x - a).toNat < 20 ↔ _
    omega
  unfold writeSigaction
  rw [writeWord_field _ a _ x (by decide) (by decide), writeWord_field _ a _ x (by decide) (by decide),
    writeWord_field _ a _ x (by decide) (by decide), writeWord_field _ a _ x (by decide) (by decide), first]
  simp only [inside, actionByte]
  generalize (x - a).toNat / 4 = k
  by_cases lt : k < 5
  · rw [if_pos lt]
    interval_cases k <;> rfl
  · have past (c : Nat) (small : c < 5) : k ≠ c := by omega
    rw [if_neg lt, if_neg (past _ (by decide)), if_neg (past _ (by decide)), if_neg (past _ (by decide)),
      if_neg (past _ (by decide)), if_neg (past _ (by decide))]

theorem writeSigaction_only {m : Mem} {a x : Word} {act : Sigaction} (changed : writeSigaction m a act x ≠ m x) :
    x - a < 64#32 := by
  rw [writeSigaction_apply] at changed
  have inside : x - a < 20#32 := by
    by_contra outside
    exact changed (if_neg outside)
  bv_omega

theorem byteOf_readWord {j : Nat} (lt : j < 4) :
    byteOf (readWord m a) j = m (a + ofNat 32 j) :=
  byteOf_wordOf (f := fun j => m (a + ofNat 32 j)) (congrArg m (BitVec.add_zero a)) rfl rfl rfl lt

theorem actionByte_read {i : Nat} (lt : i < 20) :
    actionByte (readSigaction m a) i = m (a + ofNat 32 i) := by
  have word (k : Nat) (small : k < 5) :
      (readSigaction m a).words.getD k 0 = readWord m (a + ofNat 32 (4 * k)) := by
    interval_cases k
    · exact congrArg (readWord m) (BitVec.add_zero a).symm
    all_goals rfl
  have place : a + ofNat 32 (4 * (i / 4)) + ofNat 32 (i % 4) = a + ofNat 32 i := by
    rw [BitVec.add_assoc, ← BitVec.ofNat_add, Nat.div_add_mod]
  rw [actionByte, word _ (by omega), byteOf_readWord _ _ (Nat.mod_lt _ (by decide)), place]

/-! ## The two copies -/

def actionOf (s : ThreadState) (pid signum : Nat) : Sigaction := (tcbGetSigstate s pid).sigactions signum

section Copies

variable (buf : LocalBuf) (k : KState) (signum : Nat) (act oldact : Word)

def oldCopy : Copied :=
  ptCopyout { k.vm with mem := writeSigaction k.vm.mem buf.addr (actionOf k.thread (getCurid k.thread) signum) }
    buf.addr (getCurid k.thread) oldact 20#32

def oldVm : VmState := if oldact ≠ 0#32 then (oldCopy buf k signum oldact).vm else k.vm

def newCopy : Copied := ptCopyin (oldVm buf k signum oldact) (getCurid k.thread) act (buf.addr + 20#32) 20#32

end Copies

def ValidSignum (tf : TrapFrame) : Prop := 1 ≤ (syscallGetArg2 tf).toInt ∧ (syscallGetArg2 tf).toInt < nsig
deriving Decidable

def signumOf (tf : TrapFrame) : Nat := (syscallGetArg2 tf).toInt.toNat

theorem sysSigaction_eq : sysSigaction buf k tf =
      if ValidSignum tf then
        if syscallGetArg3 tf ≠ 0#32 then
          (⟨tcbSetSigaction k.thread (getCurid k.thread) (signumOf tf)
              (readSigaction (newCopy buf k (signumOf tf) (syscallGetArg3 tf) (syscallGetArg4 tf)).vm.mem
                (buf.addr + 20#32)),
            (newCopy buf k (signumOf tf) (syscallGetArg3 tf) (syscallGetArg4 tf)).vm⟩, syscallSetErrno tf .succ)
        else (⟨k.thread, oldVm buf k (signumOf tf) (syscallGetArg4 tf)⟩, syscallSetErrno tf .succ)
      else (k, syscallSetErrno tf .invalSignum) := by
  unfold sysSigaction
  by_cases valid : ValidSignum tf
  · have range : ¬((syscallGetArg2 tf).toInt < 1 ∨ (syscallGetArg2 tf).toInt ≥ nsig) := by
      have := valid.1
      have := valid.2
      omega
    have number : (syscallGetArg2 tf).toInt = (signumOf tf : Int) :=
      (Int.toNat_of_nonneg (by have := valid.1; omega)).symm
    have lt : signumOf tf < nsig := by
      have := valid.2
      rw [number] at this
      exact_mod_cast this
    rw [if_neg range, if_pos valid, number, tcbGetSigaction_eq _ _ lt]
    rfl
  · have range : (syscallGetArg2 tf).toInt < 1 ∨ (syscallGetArg2 tf).toInt ≥ nsig := by
      by_contra inside
      exact valid ⟨by omega, by omega⟩
    rw [if_pos range, if_neg valid]

/-! ## Mapped pointers -/

section Mapped

variable {s : VmState} {pid : Nat} {va : Word} {bytes : Word → Byte}

variable (seen : UserBytes s pid va 20#32 bytes)
include seen

theorem UserBytes.range : vmUserlo ≤ va.toNat ∧ va.toNat + 20 ≤ vmUserhi := by
  have first := (seen 0#32 (by decide)).user
  have last := (seen 19#32 (by decide)).user
  simp only [userVa, vmUserlo, vmUserhi] at *
  bv_omega

theorem UserBytes.present {v : Nat} (member : v ∈ vpages va 20#32) :
    ∃ x, x.toNat / pageSize = v ∧ Certikos.present (getPtblEntryByVa s pid x) := by
  obtain ⟨lo, hi⟩ := seen.range
  rw [vpages, if_neg (by decide), Finset.mem_Icc] at member
  simp only [vmUserlo, vmUserhi, pageSize] at *
  -- either the page of the first byte, or the page of the last
  by_cases start : va.toNat / 4096 = v
  · have here := (seen 0#32 (by decide)).mapped
    rw [BitVec.add_zero] at here
    exact ⟨va, start, here⟩
  · refine ⟨va + 19#32, ?_, (seen 19#32 (by decide)).mapped⟩
    have sum : (va + 19#32).toNat = va.toNat + 19 := by bv_omega
    have small : (20#32).toNat = 20 := rfl
    rw [sum]
    omega

theorem UserBytes.affords : Affords s pid (vpages va 20#32) := by
  have none : need s pid (vpages va 20#32) = 0 := by
    rw [need, Nat.add_eq_zero_iff, Finset.card_eq_zero, Finset.card_eq_zero, Finset.filter_eq_empty_iff,
      Finset.filter_eq_empty_iff]
    constructor
    · intro v member
      obtain ⟨x, rfl, mapped⟩ := seen.present member
      rw [getPtblEntryByVa_page]
      exact not_not.2 mapped
    · intro j member
      obtain ⟨v, inside, rfl⟩ := Finset.mem_image.1 member
      obtain ⟨x, rfl, mapped⟩ := seen.present inside
      have dir := dir_of_present mapped
      rw [← pdeIndexOf_eq]
      exact dir
  unfold Affords
  omega

end Mapped

structure Exchanges (k k' : KState) (signum : Nat) (act oldact : Word) (bytes : Word → Byte) : Prop where
  installs : act ≠ 0#32 → ∀ i : Word, i < 20#32 →
    actionByte (actionOf k'.thread (getCurid k.thread) signum) i.toNat = bytes i
  queries : act = 0#32 → actionOf k'.thread (getCurid k.thread) signum = actionOf k.thread (getCurid k.thread) signum
  leaves : oldact ≠ 0#32 → UserBytes k'.vm (getCurid k.thread) oldact 20#32 fun i =>
    actionByte (actionOf k.thread (getCurid k.thread) signum) i.toNat
  others : ∀ q n, ¬(q = getCurid k.thread ∧ n = signum) → actionOf k'.thread q n = actionOf k.thread q n

section Exchange

variable {L : Layout} {buf : LocalBuf} {k : KState} (signum : Nat) {act oldact : Word} {bytes : Word → Byte}
variable (isolated : Isolated L k.vm) (running : 1 ≤ getCurid k.thread ∧ getCurid k.thread < numIds)
variable (buffer : KernelBuffer L buf.addr 64#32)
variable (writable : oldact ≠ 0#32 → ∃ old, UserBytes k.vm (getCurid k.thread) oldact 20#32 old)
include isolated running buffer writable

theorem oldCopy_wrote (given : oldact ≠ 0#32) :
    Wrote L (vpages oldact 20#32) k.vm (oldCopy buf k signum oldact).vm (getCurid k.thread) oldact 20#32 fun i =>
      actionByte (actionOf k.thread (getCurid k.thread) signum) i.toNat := by
  obtain ⟨old, seen⟩ := writable given
  obtain ⟨lo, hi⟩ := seen.range
  have fits : oldact.toNat + (20#32).toNat ≤ vmUserhi := hi
  refine (ptCopyout_local isolated running (vpages_valid running lo fits) buffer (by decide)
    (fun x => writeSigaction_only) seen.affords (covers_vpages lo fits)).congr fun i lt => ?_
  have cancel : buf.addr + i - buf.addr = i := by bv_omega
  rw [writeSigaction_apply, cancel, if_pos lt]

theorem oldVm_bytes (readable : UserBytes k.vm (getCurid k.thread) act 20#32 bytes) :
    UserBytes (oldVm buf k signum oldact) (getCurid k.thread) act 20#32 fun i =>
      if oldact ≠ 0#32 ∧ act + i - oldact < 20#32 then
        actionByte (actionOf k.thread (getCurid k.thread) signum) (act + i - oldact).toNat
      else bytes i := by
  intro i lt
  unfold oldVm
  dsimp only
  by_cases given : oldact ≠ 0#32
  · rw [if_pos given]
    have wrote := oldCopy_wrote signum isolated running buffer writable given
    by_cases inside : act + i - oldact < 20#32
    · rw [if_pos ⟨given, inside⟩]
      have place : oldact + (act + i - oldact) = act + i := by rw [BitVec.add_comm, BitVec.sub_add_cancel]
      have written := wrote.written _ inside
      rwa [place] at written
    · rw [if_neg fun both => inside both.2]
      exact wrote.kept _ _ _ running (readable i lt) fun both => inside both.2
  · rw [if_neg given, if_neg fun both => given both.1]
    exact readable i lt

theorem newCopy_vm (readable : UserBytes k.vm (getCurid k.thread) act 20#32 bytes) :
    (newCopy buf k signum act oldact).vm =
      { oldVm buf k signum oldact with
        mem := storeBytes (oldVm buf k signum oldact).mem (buf.addr + 20#32) 20#32 fun i =>
          if oldact ≠ 0#32 ∧ act + i - oldact < 20#32 then
            actionByte (actionOf k.thread (getCurid k.thread) signum) (act + i - oldact).toNat
          else bytes i } := by
  have low := buf.low
  have room : (buf.addr + 20#32).toNat + (20#32).toNat ≤ vmUserlo := by
    simp only [vmUserlo] at *
    bv_omega
  obtain ⟨lo, hi⟩ := readable.range
  have fits : act.toNat + (20#32).toNat ≤ vmUserhi := hi
  exact (ptCopyin_view lo fits room (oldVm_bytes signum isolated running buffer writable readable)).2

end Exchange

theorem actionOf_set (s : ThreadState) (pid : Nat) {signum : Nat} (lt : signum < nsig) (act : Sigaction) (q n : Nat) :
    actionOf (tcbSetSigaction s pid signum act) q n = if q = pid ∧ n = signum then act else actionOf s q n := by
  have range : (signum : Int) ≥ 0 ∧ (signum : Int) < nsig := ⟨by omega, by exact_mod_cast lt⟩
  rw [actionOf, tcbSetSigaction, if_pos range, sig_modifySigstate, Int.toNat_natCast]
  by_cases here : q = pid
  · rw [if_pos here]
    by_cases same : n = signum
    · rw [if_pos ⟨here, same⟩, same]
      exact Function.update_self ..
    · rw [if_neg fun both => same both.2, here]
      exact Function.update_of_ne same ..
  · rw [if_neg here, if_neg fun both => here both.1]
    rfl

theorem ValidSignum.lt {tf : TrapFrame} (valid : ValidSignum tf) : signumOf tf < nsig := by
  have := valid.1
  have := valid.2
  unfold signumOf
  omega

theorem sysSigaction_exchange {L : Layout} {bytes : Word → Byte}
    (isolated : Isolated L k.vm) (running : 1 ≤ getCurid k.thread ∧ getCurid k.thread < numIds)
    (buffer : KernelBuffer L buf.addr 64#32) (valid : ValidSignum tf)
    (readable : syscallGetArg3 tf ≠ 0#32 → UserBytes k.vm (getCurid k.thread) (syscallGetArg3 tf) 20#32 bytes)
    (writable : syscallGetArg4 tf ≠ 0#32 → ∃ old, UserBytes k.vm (getCurid k.thread) (syscallGetArg4 tf) 20#32 old) :
    Exchanges k (sysSigaction buf k tf).1 (signumOf tf) (syscallGetArg3 tf) (syscallGetArg4 tf) fun i =>
      if syscallGetArg4 tf ≠ 0#32 ∧ syscallGetArg3 tf + i - syscallGetArg4 tf < 20#32 then
        actionByte (actionOf k.thread (getCurid k.thread) (signumOf tf))
          (syscallGetArg3 tf + i - syscallGetArg4 tf).toNat
      else bytes i := by
  rw [sysSigaction_eq, if_pos valid]
  generalize syscallGetArg3 tf = act at *
  generalize syscallGetArg4 tf = oldact at *
  have leaves (given : oldact ≠ 0#32) : UserBytes (oldVm buf k (signumOf tf) oldact) (getCurid k.thread) oldact 20#32
      fun i => actionByte (actionOf k.thread (getCurid k.thread) (signumOf tf)) i.toNat := by
    rw [oldVm, if_pos given]
    exact (oldCopy_wrote (signumOf tf) isolated running buffer writable given).written
  by_cases given : act ≠ 0#32
  · have stored := newCopy_vm (signumOf tf) isolated running buffer writable (readable given)
    rw [if_pos given]
    constructor
    · intro _ i lt
      have small : i.toNat < 20 := lt
      have cancel : buf.addr + 20#32 + i - (buf.addr + 20#32) = i := by bv_omega
      rw [actionOf_set _ _ valid.lt, if_pos ⟨rfl, rfl⟩, actionByte_read _ _ small, stored, BitVec.ofNat_toNat,
        BitVec.setWidth_eq]
      dsimp only
      rw [storeBytes, cancel, if_pos lt]
    · exact fun none => absurd none given
    · intro given i lt
      rw [stored]
      refine (leaves given i lt).congr fun x high => storeBytes_high ?_ high
      have low := buf.low
      simp only [vmUserlo] at *
      bv_omega
    · intro q n other
      rw [actionOf_set _ _ valid.lt, if_neg other]
  · rw [if_neg given]
    exact ⟨fun some => absurd some given, fun _ => rfl, leaves, fun _ _ _ => rfl⟩

theorem sysSigaction_exchanges_iff (L : Layout) (buf : LocalBuf) (k : KState) (tf : TrapFrame) (bytes : Word → Byte)
    (isolated : Isolated L k.vm) (running : 1 ≤ getCurid k.thread ∧ getCurid k.thread < numIds)
    (buffer : KernelBuffer L buf.addr 64#32) (valid : ValidSignum tf)
    (readable : syscallGetArg3 tf ≠ 0#32 → UserBytes k.vm (getCurid k.thread) (syscallGetArg3 tf) 20#32 bytes)
    (writable : syscallGetArg4 tf ≠ 0#32 → ∃ old, UserBytes k.vm (getCurid k.thread) (syscallGetArg4 tf) 20#32 old) :
    Exchanges k (sysSigaction buf k tf).1 (signumOf tf) (syscallGetArg3 tf) (syscallGetArg4 tf) bytes ↔
      (syscallGetArg3 tf ≠ 0#32 → syscallGetArg4 tf ≠ 0#32 → ∀ i j : Word, i < 20#32 → j < 20#32 →
        syscallGetArg3 tf + i = syscallGetArg4 tf + j →
        bytes i = actionByte (actionOf k.thread (getCurid k.thread) (signumOf tf)) j.toNat) := by
  have exchange := sysSigaction_exchange buf k tf isolated running buffer valid readable writable
  generalize syscallGetArg3 tf = act at *
  generalize syscallGetArg4 tf = oldact at *
  constructor
  · intro right act' oldact' i j lt lt' same
    have offset : act + i - oldact = j := by
      rw [same]
      bv_omega
    have twice := (right.installs act' i lt).symm.trans (exchange.installs act' i lt)
    rwa [offset, if_pos ⟨oldact', lt'⟩] at twice
  · intro agree
    refine ⟨fun act' i lt => (exchange.installs act' i lt).trans ?_, exchange.queries, exchange.leaves, exchange.others⟩
    by_cases overlap : oldact ≠ 0#32 ∧ act + i - oldact < 20#32
    · rw [if_pos overlap]
      refine (agree act' overlap.1 i _ lt overlap.2 ?_).symm
      rw [BitVec.add_comm oldact, BitVec.sub_add_cancel]
    · rw [if_neg overlap]

def paged (s : VmState) : VmState := (ptCopyout s 0x300000 1 0x40000000 40).vm

theorem JustBooted.paged {s : VmState} (boot : JustBooted (fun _ => 0) 0x40000 s) :
    Isolated sampleLayout (Certikos.paged s) ∧ UserBytes (Certikos.paged s) 1 0x40000000 40 fun _ => 0 := by
  have stored : Stored sampleLayout {0x40000} s (Certikos.paged s) 1 0x40000000 40
      fun i => s.mem (0x300000 + i) := by
    refine (ptCopyout_stored boot.isolated (by decide) (by decide) (boot.affords le_rfl (by decide) 0x40000)
      ⟨⟨by decide, by decide⟩, fun i lt => ?_⟩ (by decide)).2
    have small : i.toNat < 40 := lt
    have place : (0x40000000#32 + i).toNat = 0x40000000 + i.toNat := by bv_omega
    rw [Finset.mem_singleton]
    change (0x40000000#32 + i).toNat / 4096 = _
    omega
  refine ⟨stored.isolated, (stored.congr fun i lt => ?_).written⟩
  have small : i.toNat < 40 := lt
  have place : (0x300000#32 + i).toNat = 0x300000 + i.toNat := by bv_omega
  refine boot.mem _ (.inl ?_)
  change (0x300000#32 + i).toNat < 0x1000000
  omega

def pagedVm : VmState := paged (bootVm (fun _ => 0) 0x40000)

theorem pagedVm_bytes : Isolated sampleLayout pagedVm ∧ UserBytes pagedVm 1 0x40000000 40 fun _ => 0 :=
  (bootVm_justBooted (fun _ => 0) 0x40000).paged

theorem pagedVm_action {va : Word} (lo : 0x40000000 ≤ va.toNat) (hi : va.toNat + 20 ≤ 0x40000028) :
    UserBytes pagedVm 1 va 20#32 fun _ => 0 := by
  intro i lt
  have place : va + i = 0x40000000 + (va + i - 0x40000000) := by
    rw [BitVec.add_comm 0x40000000, BitVec.sub_add_cancel]
  rw [place]
  refine pagedVm_bytes.2 _ ?_
  change va + i - 0x40000000#32 < 40#32
  bv_omega

theorem sysSigaction_exchanges_iff_paged :
    let tf := syscallFrame .sigaction 10 0x40000000 0x40000014
    Exchanges ⟨signalled.thread, pagedVm⟩ (sysSigaction stackBuf ⟨signalled.thread, pagedVm⟩ tf).1 10 0x40000000
        0x40000014 (fun _ => 0) ↔
      (0x40000000#32 ≠ 0#32 → 0x40000014#32 ≠ 0#32 → ∀ i j : Word, i < 20#32 → j < 20#32 →
        0x40000000#32 + i = 0x40000014#32 + j → 0 = actionByte (actionOf signalled.thread 1 10) j.toNat) := by
  have isolated := pagedVm_bytes.1
  have readable : UserBytes pagedVm 1 0x40000000#32 20#32 fun _ => 0 := pagedVm_action (by decide) (by decide)
  have writable : UserBytes pagedVm 1 0x40000014#32 20#32 fun _ => 0 := pagedVm_action (by decide) (by decide)
  generalize pagedVm = s at *
  exact sysSigaction_exchanges_iff sampleLayout stackBuf ⟨signalled.thread, s⟩
    (syscallFrame .sigaction 10 0x40000000 0x40000014) (fun _ => 0) isolated
    signalled_running stackBuf_kernel (by decide)
    (fun _ => readable) fun _ => ⟨_, writable⟩

theorem sysSigaction_sameAddress :
    let k : KState := ⟨signalled.thread, pagedVm⟩
    let tf := syscallFrame .sigaction 10 0x40000000 0x40000000
    Isolated sampleLayout k.vm ∧ KernelBuffer sampleLayout stackBuf.addr 64#32 ∧
      UserBytes k.vm 1 0x40000000 20#32 (fun _ => 0) ∧ handlerOf k.thread 1 10 = 0x40001000 ∧
      actionByte (actionOf (sysSigaction stackBuf k tf).1.thread 1 10) 1 = 0x10 ∧
      ¬Exchanges k (sysSigaction stackBuf k tf).1 10 0x40000000 0x40000000 fun _ => 0 := by
  have isolated := pagedVm_bytes.1
  have mapped : UserBytes pagedVm 1 0x40000000 20#32 fun _ => 0 := pagedVm_action (by decide) (by decide)
  generalize pagedVm = s at *
  have exchange := sysSigaction_exchange stackBuf ⟨signalled.thread, s⟩
    (syscallFrame .sigaction 10 0x40000000 0x40000000) isolated
    signalled_running stackBuf_kernel (by decide)
    (fun _ => mapped) fun _ => ⟨_, mapped⟩
  have old : actionByte (actionOf (sysSigaction stackBuf ⟨signalled.thread, s⟩
      (syscallFrame .sigaction 10 0x40000000 0x40000000)).1.thread 1 10) 1 = 0x10 :=
    (exchange.installs (by decide) 1#32 (by decide)).trans
      (show actionByte (actionOf signalled.thread 1 10) 1 = 0x10 by decide)
  refine ⟨isolated, stackBuf_kernel, mapped, show handlerOf signalled.thread 1 10 = _ by decide, old, fun right => ?_⟩
  exact absurd (old.symm.trans (right.installs (by decide) 1#32 (by decide))) (by decide)

/-! ## Bad pointers -/

structure Completes (r : Copied) (pid : Nat) (len : Word) : Prop where
  all : r.copied = len
  user : DerefsUser r
  mapped : ∀ t ∈ r.touched, t.Mapped pid

theorem completes_iff (kind : CopyKind) {s : VmState} {pid : Nat} {uva kva len : Word}
    (low : kva.toNat + len.toNat ≤ vmUserlo) (nonzero : len ≠ 0#32) :
    let r := if copyChecks uva kva len then copyLoop kind pid len.toNat s uva kva len 0#32 else ⟨s, 0#32, []⟩
    Completes r pid len ↔ (vmUserlo ≤ uva.toNat ∧ uva.toNat + len.toNat ≤ vmUserhi) ∧ AllSupplied r pid := by
  by_cases checks : copyChecks uva kva len = true
  · obtain ⟨lo, hi, -⟩ := copyChecks_iff.1 checks
    have confined := (ptCopy_confined_iff s pid uva kva len checks).2.2
    rw [if_pos checks, confined]
    constructor
    · intro done
      refine ⟨(derefsUser_iff lo hi).1 done.user, fun t touched => ?_⟩
      exact (Touch.mapped_iff (copyLoop_touched touched)).1 (done.mapped t touched)
    · rintro ⟨fits, supplied⟩
      refine ⟨(copyLoop_copied len.toNat le_rfl).trans (BitVec.zero_add len), (derefsUser_iff lo hi).2 fits, ?_⟩
      exact fun t touched => (Touch.mapped_iff (copyLoop_touched touched)).2 (supplied t touched)
  · dsimp only
    rw [if_neg checks]
    refine iff_of_false (fun done => nonzero done.all.symm) ?_
    rintro ⟨⟨lo, hi⟩, -⟩
    exact checks (copyChecks_of_low lo hi low)

def BadPointers (buf : LocalBuf) (k : KState) (tf : TrapFrame) : Prop :=
  syscallGetArg3 tf ≠ 0#32 ∧
      ¬Completes (newCopy buf k (signumOf tf) (syscallGetArg3 tf) (syscallGetArg4 tf)) (getCurid k.thread) 20#32 ∨
    syscallGetArg4 tf ≠ 0#32 ∧ ¬Completes (oldCopy buf k (signumOf tf) (syscallGetArg4 tf)) (getCurid k.thread) 20#32

def FailsAtomically (buf : LocalBuf) (k : KState) (tf : TrapFrame) : Prop :=
  BadPointers buf k tf →
    (sysSigaction buf k tf).2.regs.eax ≠ ErrorNr.succ.code ∧
      ∀ n, actionOf (sysSigaction buf k tf).1.thread (getCurid k.thread) n = actionOf k.thread (getCurid k.thread) n

def InUserPart (va : Word) : Prop := vmUserlo ≤ va.toNat ∧ va.toNat + 20 ≤ vmUserhi

theorem failsAtomically_iff : FailsAtomically buf k tf ↔
      ¬ValidSignum tf ∨ (syscallGetArg3 tf ≠ 0#32 → InUserPart (syscallGetArg3 tf) ∧
          AllSupplied (newCopy buf k (signumOf tf) (syscallGetArg3 tf) (syscallGetArg4 tf)) (getCurid k.thread)) ∧
        (syscallGetArg4 tf ≠ 0#32 → InUserPart (syscallGetArg4 tf) ∧
          AllSupplied (oldCopy buf k (signumOf tf) (syscallGetArg4 tf)) (getCurid k.thread)) := by
  have low := buf.low
  have new : Completes (newCopy buf k (signumOf tf) (syscallGetArg3 tf) (syscallGetArg4 tf)) (getCurid k.thread) 20#32 ↔
      InUserPart (syscallGetArg3 tf) ∧
        AllSupplied (newCopy buf k (signumOf tf) (syscallGetArg3 tf) (syscallGetArg4 tf)) (getCurid k.thread) := by
    refine completes_iff .copyin ?_ (by decide)
    simp only [vmUserlo] at *
    bv_omega
  have old : Completes (oldCopy buf k (signumOf tf) (syscallGetArg4 tf)) (getCurid k.thread) 20#32 ↔
      InUserPart (syscallGetArg4 tf) ∧
        AllSupplied (oldCopy buf k (signumOf tf) (syscallGetArg4 tf)) (getCurid k.thread) := by
    refine completes_iff .copyout ?_ (by decide)
    change buf.addr.toNat + 20 ≤ _
    omega
  rw [← new, ← old]
  by_cases valid : ValidSignum tf
  · have success : (sysSigaction buf k tf).2.regs.eax = ErrorNr.succ.code := by
      rw [sysSigaction_eq, if_pos valid]
      split
      · rfl
      · rfl
    constructor
    · intro atomic
      right
      constructor
      · intro given
        by_contra bad
        exact (atomic (.inl ⟨given, bad⟩)).1 success
      · intro given
        by_contra bad
        exact (atomic (.inr ⟨given, bad⟩)).1 success
    · rintro (invalid | good) bad
      · exact absurd valid invalid
      · rcases bad with ⟨given, failed⟩ | ⟨given, failed⟩
        · exact absurd (good.1 given) failed
        · exact absurd (good.2 given) failed
  · refine iff_of_true (fun _ => ?_) (.inl valid)
    rw [sysSigaction_eq, if_neg valid]
    exact ⟨show ErrorNr.invalSignum.code ≠ ErrorNr.succ.code by decide, fun _ => rfl⟩

def actionPages (va : Word) : Finset Nat := if va = 0#32 then ∅ else vpages va 20#32

section Supply

variable {L : Layout} {buf : LocalBuf} {k : KState} {act oldact : Word}
variable (isolated : Isolated L k.vm) (running : 1 ≤ getCurid k.thread ∧ getCurid k.thread < numIds)
variable (buffer : KernelBuffer L buf.addr 64#32)
variable (readable : act ≠ 0#32 → InUserPart act) (writable : oldact ≠ 0#32 → InUserPart oldact)
include running buffer readable

theorem action_read_iff {s : VmState} (isolated : Isolated L s) :
    (act ≠ 0#32 → AllSupplied (ptCopyin s (getCurid k.thread) act (buf.addr + 20#32) 20#32) (getCurid k.thread)) ↔
      Affords s (getCurid k.thread) (actionPages act) := by
  rw [actionPages]
  split
  · rename_i null
    exact iff_of_true (fun given => absurd null given) (affords_empty s _)
  · rename_i given
    obtain ⟨lo, hi⟩ := readable given
    obtain ⟨low, apart⟩ := buffer
    have shift : (buf.addr + 20#32).toNat = buf.addr.toNat + 20 := by
      bv_omega
    have second : KernelBuffer L (buf.addr + 20#32) 20#32 := by
      change _ + 64 ≤ _ at low
      change _ + 64 ≤ _ ∨ _ at apart
      refine ⟨?_, ?_⟩
      · change _ + 20 ≤ _
        omega
      · change _ + 20 ≤ _ ∨ _
        omega
    rw [imp_iff_right given]
    exact exec_supplied_iff (.copyin _) isolated running lo hi second

include isolated writable

theorem action_supplied_iff (signum : Nat) :
    ((act ≠ 0#32 → AllSupplied (newCopy buf k signum act oldact) (getCurid k.thread)) ∧
        (oldact ≠ 0#32 → AllSupplied (oldCopy buf k signum oldact) (getCurid k.thread))) ↔
      Affords k.vm (getCurid k.thread) (actionPages oldact ∪ actionPages act) := by
  have valid : ∀ v ∈ actionPages act, (Use.page (getCurid k.thread) v).Valid := by
    intro v member
    rw [actionPages] at member
    split at member
    · exact absurd member (Finset.notMem_empty v)
    · rename_i given
      exact vpages_valid running (readable given).1 (show _ + (20#32).toNat ≤ _ from (readable given).2) v member
  rw [and_comm]
  by_cases null : oldact = 0#32
  · rw [newCopy, oldVm, if_neg (not_not.2 null), actionPages, if_pos null, Finset.empty_union,
      ← action_read_iff running buffer readable isolated]
    exact and_iff_right fun given => absurd null given
  · obtain ⟨lo, hi⟩ := writable null
    rw [newCopy, oldVm, if_pos null, imp_iff_right null, actionPages, if_neg null]
    apply local_supplied_iff isolated running valid lo (show _ + (20#32).toNat ≤ _ from hi) buffer (by decide) fun x =>
      writeSigaction_only
    exact fun isolated' => action_read_iff running buffer readable isolated'

end Supply

/-- A call fails as it should exactly if it does not have to. With separate address spaces that is if each pointer is
null or points into the user part, and the quota and the allocator's stock cover the pages that are missing there. -/
theorem sysSigaction_failsAtomically_iff (buf : LocalBuf) (k : KState) (tf : TrapFrame) :
    (FailsAtomically buf k tf ↔
      ¬ValidSignum tf ∨
        (syscallGetArg3 tf ≠ 0#32 → InUserPart (syscallGetArg3 tf) ∧
          AllSupplied (newCopy buf k (signumOf tf) (syscallGetArg3 tf) (syscallGetArg4 tf)) (getCurid k.thread)) ∧
        (syscallGetArg4 tf ≠ 0#32 → InUserPart (syscallGetArg4 tf) ∧
          AllSupplied (oldCopy buf k (signumOf tf) (syscallGetArg4 tf)) (getCurid k.thread))) ∧
    ∀ L, Isolated L k.vm → 1 ≤ getCurid k.thread ∧ getCurid k.thread < numIds → KernelBuffer L buf.addr 64#32 →
      (FailsAtomically buf k tf ↔
        ¬ValidSignum tf ∨
          ((syscallGetArg3 tf ≠ 0#32 → InUserPart (syscallGetArg3 tf)) ∧
            (syscallGetArg4 tf ≠ 0#32 → InUserPart (syscallGetArg4 tf))) ∧
          Affords k.vm (getCurid k.thread) (actionPages (syscallGetArg4 tf) ∪ actionPages (syscallGetArg3 tf))) := by
  refine ⟨failsAtomically_iff buf k tf, fun L isolated running buffer => ?_⟩
  rw [failsAtomically_iff, imp_and, imp_and, and_and_and_comm]
  refine or_congr_right (and_congr_right fun parts => ?_)
  exact action_supplied_iff isolated running buffer parts.1 parts.2 (signumOf tf)

theorem sysSigaction_failsAtomically_iff_boot :
    FailsAtomically stackBuf ⟨signalled.thread, bootVm (fun _ => 0) 0x40000⟩
      (syscallFrame .sigaction 10 0x40000000 0x40000014) := by
  have boot := bootVm_justBooted (fun _ => 0) 0x40000
  generalize bootVm (fun _ => 0) 0x40000 = s at boot
  have affords : Affords s 1 {0x40000} := boot.affords le_rfl (by decide) 0x40000
  have pages : actionPages 0x40000014#32 ∪ actionPages 0x40000000#32 = {0x40000} := by decide
  rw [← pages] at affords
  have known := (sysSigaction_failsAtomically_iff stackBuf ⟨signalled.thread, s⟩
    (syscallFrame .sigaction 10 0x40000000 0x40000014)).2 sampleLayout boot.isolated signalled_running stackBuf_kernel
  refine known.2 (.inr ⟨⟨fun _ => ⟨by decide, by decide⟩, fun _ => ⟨by decide, by decide⟩⟩, affords⟩)

def staleVm : VmState := { blankVm with mem := writeWord blankVm.mem 0x300014 0xdeadbeef }

theorem sysSigaction_installsStack :
    let k : KState := ⟨signalled.thread, staleVm⟩
    let tf := syscallFrame .sigaction 10 8 0
    BadPointers stackBuf k tf ∧ (newCopy stackBuf k 10 8 0).copied = 0 ∧
      (sysSigaction stackBuf k tf).2.regs.eax = ErrorNr.succ.code ∧
      handlerOf k.thread 1 10 = 0x40001000 ∧ handlerOf (sysSigaction stackBuf k tf).1.thread 1 10 = 0xdeadbeef ∧
      ¬FailsAtomically stackBuf k tf := by
  have refused : (newCopy stackBuf ⟨signalled.thread, staleVm⟩ 10 8 0).copied = 0 := by decide +kernel
  have bad : BadPointers stackBuf ⟨signalled.thread, staleVm⟩ (syscallFrame .sigaction 10 8 0) := by
    refine .inl ⟨by decide, fun done => ?_⟩
    exact absurd (refused.symm.trans done.all) (by decide)
  have success : (sysSigaction stackBuf ⟨signalled.thread, staleVm⟩ (syscallFrame .sigaction 10 8 0)).2.regs.eax =
      ErrorNr.succ.code := by decide +kernel
  exact ⟨bad, refused, success, by decide +kernel, by decide +kernel, fun atomic => (atomic bad).1 success⟩

end Certikos
