import Certikos.Memory.CopyOut
import Certikos.Trap.Sigreturn

/-!
# The frame of a handler

`deliver_signal` builds the frame of a handler with five copies to the stack of the process. It looks at the result of
none of them.
-/

namespace Certikos
open Lib

def frameFields (esp : Word) : List (Word × Word) :=
  [(esp - 4#32, 4#32), (esp - 8#32, 4#32), (esp - 20#32, 12#32), (frameBase esp - 4#32, 4#32),
    (frameBase esp - 8#32, 4#32)]

theorem Icc_join {a b c d : Nat} (lower : a ≤ c) (near : c ≤ b + 1) (upper : b ≤ d) :
    Finset.Icc c d ∪ Finset.Icc a b = Finset.Icc a d := by
  ext v
  simp only [Finset.mem_union, Finset.mem_Icc]
  omega

section Fields

variable {esp : Word} (lo : vmUserlo + 28 ≤ esp.toNat)
include lo

theorem frameBase_range : (frameBase esp).toNat % 4 = 0 ∧ vmUserlo + 8 ≤ (frameBase esp).toNat ∧
    (frameBase esp).toNat + 20 ≤ esp.toNat := by
  have rounded : (frameBase esp).toNat = (esp - 20#32).toNat / 4 * 4 := toNat_wordMask (esp - 20#32)
  have sub : (esp - 20#32).toNat = esp.toNat - 20 := by
    simp only [vmUserlo] at lo
    bv_omega
  simp only [vmUserlo] at *
  omega

theorem frame_bottom : vmUserlo ≤ (frameBase esp - 8#32).toNat := by
  obtain ⟨-, above, -⟩ := frameBase_range lo
  simp only [vmUserlo] at *
  bv_omega

theorem frameFields_range : ∀ f ∈ frameFields esp,
    (frameBase esp - 8#32).toNat ≤ f.1.toNat ∧ f.1.toNat + f.2.toNat ≤ esp.toNat := by
  obtain ⟨-, above, below⟩ := frameBase_range lo
  unfold frameFields
  generalize frameBase esp = base at *
  simp only [vmUserlo] at *
  simp only [List.forall_mem_cons, List.not_mem_nil, false_implies, implies_true, and_true]
  bv_omega

theorem frameFields_pages (hi : esp.toNat ≤ vmUserhi) :
    vpages (esp - 4#32) 4#32 ∪ (vpages (esp - 8#32) 4#32 ∪ (vpages (esp - 20#32) 12#32 ∪
      (vpages (frameBase esp - 4#32) 4#32 ∪ (vpages (frameBase esp - 8#32) 4#32 ∪ ∅)))) =
    vpages (frameBase esp - 8#32) (esp - (frameBase esp - 8#32)) := by
  obtain ⟨rounded, above, below⟩ := frameBase_range lo
  have near : esp.toNat < (frameBase esp).toNat + 24 := by
    have mask : (frameBase esp).toNat = (esp - 20#32).toNat / 4 * 4 := toNat_wordMask (esp - 20#32)
    simp only [vmUserlo] at *
    bv_omega
  generalize frameBase esp = base at *
  simp only [vmUserlo, vmUserhi] at *
  have esp₄ : (esp - 4#32).toNat = esp.toNat - 4 := sub_toNat_of_le (show 4 ≤ esp.toNat by omega)
  have esp₈ : (esp - 8#32).toNat = esp.toNat - 8 := sub_toNat_of_le (show 8 ≤ esp.toNat by omega)
  have esp₂₀ : (esp - 20#32).toNat = esp.toNat - 20 := sub_toNat_of_le (show 20 ≤ esp.toNat by omega)
  have base₄ : (base - 4#32).toNat = base.toNat - 4 := sub_toNat_of_le (show 4 ≤ base.toNat by omega)
  have base₈ : (base - 8#32).toNat = base.toNat - 8 := sub_toNat_of_le (show 8 ≤ base.toNat by omega)
  have size : (esp - (base - 8#32)).toNat = esp.toNat - (base.toNat - 8) := by
    rw [← base₈]
    exact sub_toNat_of_le (by omega)
  have nonzero : esp - (base - 8#32) ≠ 0#32 := by
    intro zero
    rw [zero] at size
    change 0 = _ at size
    omega
  simp only [vpages, if_neg (show (4#32 : Word) ≠ 0#32 by decide), if_neg (show (12#32 : Word) ≠ 0#32 by decide),
    if_neg nonzero, size, esp₄, esp₈, esp₂₀, base₄, base₈, pageSize, BitVec.reduceToNat, Finset.union_empty]
  rw [Icc_join, Icc_join, Icc_join, Icc_join]
  · congr 2
    omega
  all_goals omega

end Fields

section Copies

variable (buf : LocalBuf)

def copyWord (vm : VmState) (pid : Nat) (uva value : Word) : Copied :=
  ptCopyout { vm with mem := writeWord vm.mem buf.addr value } buf.addr pid uva 4#32

def copyTrampoline (vm : VmState) (pid : Nat) (uva : Word) : Copied :=
  ptCopyout { vm with mem := writeBytes vm.mem buf.addr trampoline } buf.addr pid uva 12#32

def frameCopies (vm : VmState) (pid : Nat) (esp eip : Word) (signum : Nat) : List (Copied × Word) :=
  let savedEip := copyWord buf vm pid (esp - 4#32) eip
  let savedEsp := copyWord buf savedEip.vm pid (esp - 8#32) esp
  let code := copyTrampoline buf savedEsp.vm pid (esp - 20#32)
  let argument := copyWord buf code.vm pid (frameBase esp - 4#32) (BitVec.ofNat 32 signum)
  let returnAddr := copyWord buf argument.vm pid (frameBase esp - 8#32) (esp - 20#32)
  [(savedEip, 4#32), (savedEsp, 4#32), (code, 12#32), (argument, 4#32), (returnAddr, 4#32)]

end Copies

/-! ## Copies that fail -/

def deliveryCopies (buf : LocalBuf) (k : KState) (tf : TrapFrame) (signum : Nat) : List (Copied × Word) :=
  if Delivering k signum then frameCopies buf k.vm (getCurid k.thread) tf.esp tf.eip signum else []

def Short (c : Copied × Word) : Prop := c.1.copied.toNat < c.2.toNat

def Astray (pid : Nat) (c : Copied × Word) : Prop := Short c ∨ ∃ t ∈ c.1.touched, ¬t.Mapped pid

structure NotEntered (k k' : KState) (tf tf' : TrapFrame) : Prop where
  esp : tf'.esp = tf.esp
  eip : tf'.eip = tf.eip
  context : signalContext k'.thread (getCurid k.thread) = signalContext k.thread (getCurid k.thread)

def FailsCleanly (fails : Copied × Word → Prop) (buf : LocalBuf) (k : KState) (tf : TrapFrame) (signum : Nat) : Prop :=
  (∃ c ∈ deliveryCopies buf k tf signum, fails c) →
    NotEntered k (deliverSignal buf k tf signum).1 tf (deliverSignal buf k tf signum).2 ∨
      Buried (deliverSignal buf k tf signum).1.thread (getCurid k.thread)

theorem failsCleanly_iff (fails : Copied × Word → Prop) (buf : LocalBuf) (k : KState) (tf : TrapFrame) (signum : Nat) :
    FailsCleanly fails buf k tf signum ↔ ¬Delivering k signum ∨
        ∀ c ∈ frameCopies buf k.vm (getCurid k.thread) tf.esp tf.eip signum, ¬fails c := by
  by_cases delivering : Delivering k signum
  · rw [FailsCleanly, deliveryCopies, if_pos delivering, deliverSignal_eq, if_pos delivering]
    constructor
    · intro clean
      right
      intro c member failed
      rcases clean ⟨c, member, failed⟩ with kept | buried
      · exact frame_esp_ne tf.esp kept.esp
      · exact buried.2 rfl
    · rintro (none | good) ⟨c, member, failed⟩
      · exact absurd delivering none
      · exact absurd failed (good c member)
  · refine iff_of_true ?_ (.inl delivering)
    rintro ⟨c, member, -⟩
    rw [deliveryCopies, if_neg delivering] at member
    cases member

variable (s : VmState) (buf : LocalBuf)

theorem ptCopyout_copied (kva : Word) (pid : Nat) (uva len : Word) :
    (ptCopyout s kva pid uva len).copied = if copyChecks uva kva len then len else 0#32 := by
  unfold ptCopyout
  split
  · exact (copyLoop_copied len.toNat le_rfl).trans (BitVec.zero_add len)
  · rfl

theorem short_iff (kva : Word) (pid : Nat) {uva len : Word} (nonzero : len ≠ 0#32) :
    Short (ptCopyout s kva pid uva len, len) ↔ ¬copyChecks uva kva len = true := by
  have pos : 0 < len.toNat := Nat.pos_of_ne_zero fun zero => nonzero (BitVec.eq_of_toNat_eq zero)
  rw [Short, ptCopyout_copied]
  split
  · rename_i checks
    exact iff_of_false (lt_irrefl _) (not_not.2 checks)
  · rename_i refused
    exact iff_of_true pos refused

theorem frame_checks_iff (esp : Word) :
    (∀ f ∈ frameFields esp, copyChecks f.1 buf.addr f.2 = true) ↔ vmUserlo + 28 ≤ esp.toNat ∧ esp.toNat ≤ vmUserhi := by
  have rounded := toNat_wordMask (esp - 20#32)
  have low := buf.low
  simp only [frameFields, List.forall_mem_cons, List.not_mem_nil, false_implies, implies_true, and_true,
    copyChecks_iff]
  rw [← frameBase] at rounded
  generalize frameBase esp = base at *
  generalize buf.addr = kva at *
  simp only [vmUserlo, vmUserhi] at *
  bv_omega

theorem frame_short_iff (vm : VmState) (pid : Nat) (esp eip : Word) (signum : Nat) :
    (∀ c ∈ frameCopies buf vm pid esp eip signum, ¬Short c) ↔ vmUserlo + 28 ≤ esp.toNat ∧ esp.toNat ≤ vmUserhi := by
  have word (s : VmState) (uva value : Word) : ¬Short (copyWord buf s pid uva value, 4#32) ↔
      copyChecks uva buf.addr 4#32 = true :=
    not_iff_comm.1 (short_iff _ _ _ (by decide)).symm
  have code (s : VmState) (uva : Word) : ¬Short (copyTrampoline buf s pid uva, 12#32) ↔
      copyChecks uva buf.addr 12#32 = true :=
    not_iff_comm.1 (short_iff _ _ _ (by decide)).symm
  rw [← frame_checks_iff buf esp]
  simp only [frameCopies, frameFields, List.forall_mem_cons, List.not_mem_nil, false_implies, implies_true, and_true,
    word, code]

theorem frameCopies_touched {buf : LocalBuf} {vm : VmState} {pid : Nat} {esp eip : Word} {signum : Nat}
    {c : Copied × Word} (member : c ∈ frameCopies buf vm pid esp eip signum) {t : Touch} (touched : t ∈ c.1.touched) :
    ∃ l, t = touchAt t.before pid t.uva l := by
  simp only [frameCopies, List.mem_cons, List.not_mem_nil, or_false] at member
  rcases member with rfl | rfl | rfl | rfl | rfl <;> exact exec_touches _ pid _ _ (.copyout buf.addr) t touched

section Supply

variable {L : Layout} {buf : LocalBuf} {s : VmState} {pid : Nat} {esp uva : Word} {pages : Finset Nat} {others : Prop}
variable (hp : UserPid pid) (buffer : KernelBuffer L buf.addr 64#32)
include hp buffer

section

variable (isolated : Isolated L s) (valid : ∀ v ∈ pages, (Use.page pid v).Valid) (lo : vmUserlo ≤ uva.toNat)
include isolated valid lo

theorem copyWord_supplied_iff (hi : uva.toNat + 4 ≤ vmUserhi) (value : Word)
    (rest : Isolated L (copyWord buf s pid uva value).vm →
      (others ↔ Affords (copyWord buf s pid uva value).vm pid pages)) :
    AllSupplied (copyWord buf s pid uva value) pid ∧ others ↔ Affords s pid (vpages uva 4#32 ∪ pages) := by
  refine local_supplied_iff isolated hp valid lo (show _ + (4#32).toNat ≤ _ from hi) buffer (by decide)
    (fun x changed => ?_) rest
  by_contra outside
  refine changed (if_neg fun inside => outside ?_)
  bv_omega

theorem copyTrampoline_supplied_iff (hi : uva.toNat + 12 ≤ vmUserhi)
    (rest : Isolated L (copyTrampoline buf s pid uva).vm →
      (others ↔ Affords (copyTrampoline buf s pid uva).vm pid pages)) :
    AllSupplied (copyTrampoline buf s pid uva) pid ∧ others ↔ Affords s pid (vpages uva 12#32 ∪ pages) := by
  refine local_supplied_iff isolated hp valid lo (show _ + (12#32).toNat ≤ _ from hi) buffer (by decide)
    (fun x changed => ?_) rest
  by_contra outside
  refine changed (if_neg fun inside => outside ?_)
  change (x - buf.addr).toNat < 12 at inside
  bv_omega

end

theorem frame_supplied_iff (isolated : Isolated L s) (lo : vmUserlo + 28 ≤ esp.toNat) (hi : esp.toNat ≤ vmUserhi)
    (eip : Word) (signum : Nat) : (∀ c ∈ frameCopies buf s pid esp eip signum, AllSupplied c.1 pid) ↔
      Affords s pid (vpages (frameBase esp - 8#32) (esp - (frameBase esp - 8#32))) := by
  have bottom := frame_bottom lo
  have range := frameFields_range lo
  simp only [frameFields, List.forall_mem_cons, List.not_mem_nil, false_implies, implies_true, and_true] at range
  obtain ⟨⟨above₁, below₁⟩, ⟨above₂, below₂⟩, ⟨above₃, below₃⟩, ⟨above₄, below₄⟩, above₅, below₅⟩ := range
  have size : (frameBase esp - 8#32).toNat + (esp - (frameBase esp - 8#32)).toNat ≤ vmUserhi := by bv_omega
  have valid₀ := vpages_valid hp bottom size
  rw [← frameFields_pages lo hi] at valid₀ ⊢
  -- the pages that are still to be had, one field after the other
  have valid₁ := (Finset.forall_mem_union.1 valid₀).2
  have valid₂ := (Finset.forall_mem_union.1 valid₁).2
  have valid₃ := (Finset.forall_mem_union.1 valid₂).2
  have valid₄ := (Finset.forall_mem_union.1 valid₃).2
  have valid₅ := (Finset.forall_mem_union.1 valid₄).2
  simp only [frameCopies, List.forall_mem_cons]
  apply copyWord_supplied_iff hp buffer isolated valid₁ (bottom.trans above₁) (below₁.trans hi)
  intro isolated₁
  apply copyWord_supplied_iff hp buffer isolated₁ valid₂ (bottom.trans above₂) (below₂.trans hi)
  intro isolated₂
  apply copyTrampoline_supplied_iff hp buffer isolated₂ valid₃ (bottom.trans above₃) (below₃.trans hi)
  intro isolated₃
  apply copyWord_supplied_iff hp buffer isolated₃ valid₄ (bottom.trans above₄) (below₄.trans hi)
  intro isolated₄
  apply copyWord_supplied_iff hp buffer isolated₄ valid₅ (bottom.trans above₅) (below₅.trans hi)
  intro _
  exact iff_of_true nofun (affords_empty _ pid)

end Supply

theorem frame_astray_iff (vm : VmState) (pid : Nat) (esp eip : Word) (signum : Nat) :
    (∀ c ∈ frameCopies buf vm pid esp eip signum, ¬Astray pid c) ↔
      (vmUserlo + 28 ≤ esp.toNat ∧ esp.toNat ≤ vmUserhi) ∧
        ∀ c ∈ frameCopies buf vm pid esp eip signum, AllSupplied c.1 pid := by
  rw [← frame_short_iff buf vm pid esp eip signum, ← forall₂_and]
  refine forall₂_congr fun c member => ?_
  rw [Astray, not_or]
  refine and_congr_right fun _ => ?_
  constructor
  · intro none t touched
    by_contra short
    exact none ⟨t, touched, fun mapped => short ((Touch.mapped_iff (frameCopies_touched member touched)).1 mapped)⟩
  · rintro supplied ⟨t, touched, unmapped⟩
    exact unmapped ((Touch.mapped_iff (frameCopies_touched member touched)).2 (supplied t touched))

/-- When no copy of a delivery fails: if copies fail that report it, and if those fail too that report success and
have stored into page 0. With separate address spaces the latter do not if the quota and the allocator's stock cover
the pages from the new stack pointer to the old one. -/
theorem deliverSignal_failsCleanly_iff (buf : LocalBuf) (k : KState) (tf : TrapFrame) (signum : Nat) :
    (FailsCleanly Short buf k tf signum ↔
      ¬Delivering k signum ∨ vmUserlo + 28 ≤ tf.esp.toNat ∧ tf.esp.toNat ≤ vmUserhi) ∧
    (FailsCleanly (Astray (getCurid k.thread)) buf k tf signum ↔
      ¬Delivering k signum ∨
        (vmUserlo + 28 ≤ tf.esp.toNat ∧ tf.esp.toNat ≤ vmUserhi) ∧
          ∀ c ∈ frameCopies buf k.vm (getCurid k.thread) tf.esp tf.eip signum, AllSupplied c.1 (getCurid k.thread)) ∧
    ∀ L, Isolated L k.vm → 1 ≤ getCurid k.thread ∧ getCurid k.thread < numIds → KernelBuffer L buf.addr 64#32 →
      (FailsCleanly (Astray (getCurid k.thread)) buf k tf signum ↔
        ¬Delivering k signum ∨
          (vmUserlo + 28 ≤ tf.esp.toNat ∧ tf.esp.toNat ≤ vmUserhi) ∧
            Affords k.vm (getCurid k.thread)
              (vpages (frameBase tf.esp - 8#32) (tf.esp - (frameBase tf.esp - 8#32)))) := by
  have astray := frame_astray_iff buf k.vm (getCurid k.thread) tf.esp tf.eip signum
  refine ⟨?_, ?_, fun L isolated running buffer => ?_⟩
  · rw [failsCleanly_iff, frame_short_iff]
  · rw [failsCleanly_iff, astray]
  · rw [failsCleanly_iff, astray]
    refine or_congr_right (and_congr_right fun range => ?_)
    exact frame_supplied_iff running buffer isolated range.1 range.2 tf.eip signum

def shallowFrame : TrapFrame := { timerFrame 0 with esp := 0x40000020 }

theorem shallow_pages :
    vpages (frameBase shallowFrame.esp - 8#32) (shallowFrame.esp - (frameBase shallowFrame.esp - 8#32)) =
      {0x40000} := by
  decide

theorem stackBuf_kernel : KernelBuffer sampleLayout stackBuf.addr 64#32 := ⟨by decide, .inl (by decide)⟩

theorem signalled_running : 1 ≤ getCurid signalled.thread ∧ getCurid signalled.thread < numIds := by decide

theorem deliverSignal_failsCleanly_iff_boot :
    FailsCleanly (Astray 1) stackBuf ⟨signalled.thread, bootVm (fun _ => 0) 0x40000⟩ shallowFrame 10 := by
  have boot := bootVm_justBooted (fun _ => 0) 0x40000
  generalize bootVm (fun _ => 0) 0x40000 = s at boot
  have affords : Affords s 1 {0x40000} := boot.affords le_rfl (by decide) 0x40000
  rw [← shallow_pages] at affords
  have known := (deliverSignal_failsCleanly_iff stackBuf ⟨signalled.thread, s⟩ shallowFrame 10).2.2 sampleLayout
    boot.isolated signalled_running stackBuf_kernel
  exact known.2 (.inr ⟨by decide, affords⟩)

def bottomFrame : TrapFrame := { timerFrame 0 with esp := 0x40000000 }

theorem deliverSignal_entersUnwritten :
    let r := deliverSignal stackBuf signalled bottomFrame 10
    (deliveryCopies stackBuf signalled bottomFrame 10).map (·.1.copied) = [0, 0, 0, 0, 0] ∧
      ¬FailsCleanly Short stackBuf signalled bottomFrame 10 ∧
      r.2.eip = 0x40001000 ∧ r.2.esp = 0x3fffffe4 ∧ tcbGetSignalContext r.1.thread 1 = (0x3ffffff8, 0x3ffffffc) := by
  have delivering : Delivering signalled 10 := by decide
  dsimp only
  rw [deliverSignal_eq, deliveryCopies, if_pos delivering, if_pos delivering]
  refine ⟨?_, fun clean => ?_, by decide, by decide, by decide⟩
  · simp only [frameCopies, List.map_cons, List.map_nil, copyWord, copyTrampoline, ptCopyout_copied]
    decide
  · rcases (failsCleanly_iff ..).1 clean with none | good
    · exact none delivering
    · exact absurd ((frame_short_iff ..).1 good).1 (by decide)

/-! ## Copies that succeed -/

inductive Insn
  | movEax (imm : Word)
  | int (vector : Byte)
  | jmpShort (rel : Byte)
  | nop

def Insn.encode : Insn → List Byte
  | .movEax imm => [0xB8, byteOf imm 0, byteOf imm 1, byteOf imm 2, byteOf imm 3]
  | .int vector => [0xCD, vector]
  | .jmpShort rel => [0xEB, rel]
  | .nop => [0x90]

/-- `mov eax, SYS_sigreturn; int 0x30; jmp $`, padded to 12 bytes. A jump over -2 bytes goes to itself. -/
def sigreturnStub : List Byte :=
  [.movEax SyscallNr.sigreturn.code, .int 0x30, .jmpShort (-2), .nop, .nop, .nop].flatMap Insn.encode

theorem trampoline_eq : trampoline = sigreturnStub := by decide

def Apart (f g : Word × Word) : Prop := ∀ x : Word, x - f.1 < f.2 → ¬x - g.1 < g.2

theorem Wrote.keeps {L : Layout} {pages : Finset Nat} {s s' : VmState} {pid : Nat} {uva len va n : Word}
    {bytes old : Word → Byte} (wrote : Wrote L pages s s' pid uva len bytes) (hp : UserPid pid)
    (seen : UserBytes s pid va n old) (apart : Apart (va, n) (uva, len)) : UserBytes s' pid va n old := by
  intro i lt
  have cancel : va + i - va = i := by bv_omega
  exact wrote.kept pid _ _ hp (seen i lt) fun inside => apart (va + i) (cancel.symm ▸ lt) inside.2

section Push

variable {L : Layout} {buf : LocalBuf} {vm : VmState} {pid : Nat} {bottom esp uva : Word}
variable (hp : UserPid pid) (buffer : KernelBuffer L buf.addr 64#32)
variable (lo : vmUserlo ≤ bottom.toNat) (hi : esp.toNat ≤ vmUserhi)
variable (isolated : Isolated L vm) (affords : Affords vm pid (vpages bottom (esp - bottom)))
variable (above : bottom.toNat ≤ uva.toNat)
include hp buffer lo hi isolated affords above

theorem push_wrote {m : Mem} {len : Word} (below : uva.toNat + len.toNat ≤ esp.toNat) (short : len.toNat ≤ 64)
    (only : ∀ x, m x ≠ vm.mem x → x - buf.addr < len) :
    Wrote L (vpages bottom (esp - bottom)) vm (ptCopyout { vm with mem := m } buf.addr pid uva len).vm pid uva len
      fun i => m (buf.addr + i) := by
  have size : bottom.toNat + (esp - bottom).toNat = esp.toNat := by bv_omega
  refine ptCopyout_local isolated hp (vpages_valid hp lo (by omega)) buffer short
    (fun x changed => ?_) affords ⟨⟨by omega, by omega⟩, fun i lt => ?_⟩
  · have := only x changed
    bv_omega
  · have inside : uva + i = bottom + (uva + i - bottom) := by bv_omega
    rw [inside]
    refine mem_vpages (by omega) ?_
    bv_omega

theorem pushWord_wrote (below : uva.toNat + 4 ≤ esp.toNat) (value : Word) :
    Wrote L (vpages bottom (esp - bottom)) vm (pushWord buf vm pid uva value) pid uva 4#32
      fun i => byteOf value i.toNat := by
  refine (push_wrote hp buffer lo hi isolated affords above (show _ + (4#32).toNat ≤ _ from below) (by decide)
    fun x changed => ?_).congr fun i lt => ?_
  · by_contra outside
    exact changed (if_neg outside)
  · have cancel : buf.addr + i - buf.addr = i := by bv_omega
    rw [writeWord, cancel]
    exact if_pos lt

theorem pushTrampoline_wrote (below : uva.toNat + 12 ≤ esp.toNat) :
    Wrote L (vpages bottom (esp - bottom)) vm (pushTrampoline buf vm pid uva) pid uva 12#32
      fun i => sigreturnStub.getD i.toNat 0 := by
  refine (push_wrote hp buffer lo hi isolated affords above (show _ + (12#32).toNat ≤ _ from below) (by decide)
    fun x changed => ?_).congr fun i lt => ?_
  · by_contra outside
    exact changed (if_neg outside)
  · have cancel : buf.addr + i - buf.addr = i := by bv_omega
    rw [writeBytes, cancel, trampoline_eq]
    exact if_pos lt

end Push

/-! ## The frame -/

structure CallFrame (vm : VmState) (pid : Nat) (esp newEsp : Word) (signum : Nat) : Prop where
  returnAddr : UserWord vm pid newEsp (esp - 20#32)
  argument : UserWord vm pid (newEsp + 4#32) (BitVec.ofNat 32 signum)
  code : UserBytes vm pid (esp - 20#32) 12#32 fun i => sigreturnStub.getD i.toNat 0

structure HandlerFrame (vm : VmState) (pid : Nat) (esp eip newEsp : Word) (signum : Nat) : Prop
    extends CallFrame vm pid esp newEsp signum where
  saved : FrameIntact vm pid esp eip

section Frame

variable {esp : Word} (lo : vmUserlo + 28 ≤ esp.toNat)
include lo

theorem frameFields_apart : (frameFields esp).Pairwise Apart := by
  obtain ⟨-, above, below⟩ := frameBase_range lo
  unfold frameFields
  generalize frameBase esp = base at above below
  simp only [vmUserlo] at *
  simp only [List.pairwise_cons, List.forall_mem_cons, List.not_mem_nil, false_implies, implies_true, and_true, Apart,
    List.Pairwise.nil]
  refine ⟨⟨?_, ?_, ?_, ?_⟩, ⟨?_, ?_, ?_⟩, ⟨?_, ?_⟩, ?_⟩ <;> intro x <;> bv_omega

variable {L : Layout} {buf : LocalBuf} {vm : VmState} {pid : Nat}
variable (hp : UserPid pid) (buffer : KernelBuffer L buf.addr 64#32) (hi : esp.toNat ≤ vmUserhi)
variable (isolated : Isolated L vm)
variable (affords : Affords vm pid (vpages (frameBase esp - 8#32) (esp - (frameBase esp - 8#32))))
include hp buffer hi isolated affords

theorem callVm_frame (signum : Nat) : CallFrame (callVm buf vm pid esp signum) pid esp (frameBase esp - 8#32) signum ∧
      ∀ q va b, UserPid q → UserByte vm q va b → (∀ f ∈ (frameFields esp).drop 2, ¬(q = pid ∧ va - f.1 < f.2)) →
        UserByte (callVm buf vm pid esp signum) q va b := by
  have bottom := frame_bottom lo
  have apart := frameFields_apart lo
  have range := frameFields_range lo
  have next : frameBase esp - 4#32 = frameBase esp - 8#32 + 4#32 := by bv_omega
  unfold callVm
  unfold frameFields at *
  generalize frameBase esp = base at *
  simp only [List.pairwise_cons, List.forall_mem_cons, List.not_mem_nil, false_implies, implies_true, and_true,
    List.drop_succ_cons, List.drop_zero] at *
  obtain ⟨-, -, ⟨codeArgument, codeReturn⟩, argumentReturn, -⟩ := apart
  obtain ⟨-, -, ⟨above₃, below₃⟩, ⟨above₄, below₄⟩, above₅, below₅⟩ := range
  have code := pushTrampoline_wrote hp buffer bottom hi isolated affords above₃ below₃
  generalize pushTrampoline buf vm pid (esp - 20#32) = vm₃ at *
  have argument := pushWord_wrote hp buffer bottom hi code.isolated code.affords above₄ below₄ (BitVec.ofNat 32 signum)
  generalize pushWord buf vm₃ pid (base - 4#32) (BitVec.ofNat 32 signum) = vm₄ at *
  have returnAddr := pushWord_wrote hp buffer bottom hi argument.isolated argument.affords above₅ below₅ (esp - 20#32)
  generalize pushWord buf vm₄ pid (base - 8#32) (esp - 20#32) = vm₅ at *
  refine ⟨⟨userWord_iff.2 returnAddr.written, ?_, ?_⟩, ?_⟩
  · rw [← next]
    exact userWord_iff.2 (returnAddr.keeps hp argument.written argumentReturn)
  · exact returnAddr.keeps hp (argument.keeps hp code.written codeArgument) codeReturn
  · rintro q va b hq seen ⟨outside₃, outside₄, outside₅⟩
    apply returnAddr.kept q va b hq _ outside₅
    exact argument.kept q va b hq (code.kept q va b hq seen outside₃) outside₄

theorem callVm_keeps (signum : Nat) {f : Word × Word} (member : f ∈ (frameFields esp).take 2) {bytes : Word → Byte}
    (seen : UserBytes vm pid f.1 f.2 bytes) : UserBytes (callVm buf vm pid esp signum) pid f.1 f.2 bytes := by
  intro i lt
  have cancel : f.1 + i - f.1 = i := by bv_omega
  have apart := frameFields_apart lo
  rw [← List.take_append_drop 2 (frameFields esp), List.pairwise_append] at apart
  apply (callVm_frame lo hp buffer hi isolated affords signum).2 pid _ _ hp (seen i lt)
  intro g later inside
  exact apart.2.2 f member g later (f.1 + i) (cancel.symm ▸ lt) inside.2

theorem frameVm_frame (eip : Word) (signum : Nat) :
    HandlerFrame (frameVm buf vm pid esp eip signum) pid esp eip (frameBase esp - 8#32) signum ∧
      ∀ q va b, UserPid q → UserByte vm q va b → (∀ f ∈ frameFields esp, ¬(q = pid ∧ va - f.1 < f.2)) →
        UserByte (frameVm buf vm pid esp eip signum) q va b := by
  have bottom := frame_bottom lo
  have apart := (List.pairwise_cons.1 (frameFields_apart lo)).1 (esp - 8#32, 4#32) (.head _)
  obtain ⟨above₁, below₁⟩ := frameFields_range lo (esp - 4#32, 4#32) (.head _)
  obtain ⟨above₂, below₂⟩ := frameFields_range lo (esp - 8#32, 4#32) (.tail _ (.head _))
  have savedEip := pushWord_wrote hp buffer bottom hi isolated affords above₁ below₁ eip
  have savedEsp := pushWord_wrote hp buffer bottom hi savedEip.isolated savedEip.affords above₂ below₂ esp
  obtain ⟨call, kept⟩ := callVm_frame lo hp buffer hi savedEsp.isolated savedEsp.affords signum
  refine ⟨⟨call, ?_, ?_⟩, ?_⟩
  · exact userWord_iff.2 (callVm_keeps lo hp buffer hi savedEsp.isolated savedEsp.affords signum (.head _)
      (savedEsp.keeps hp savedEip.written apart))
  · exact userWord_iff.2 (callVm_keeps lo hp buffer hi savedEsp.isolated savedEsp.affords signum
      (.tail _ (.head _)) savedEsp.written)
  · intro q va b hq seen outside
    apply kept q va b hq _ fun f member => outside f (List.mem_of_mem_drop member)
    apply savedEsp.kept q va b hq _ (outside (esp - 8#32, 4#32) (.tail _ (.head _)))
    exact savedEip.kept q va b hq seen (outside (esp - 4#32, 4#32) (.head _))

end Frame

/-! ## There and back -/

structure Delivered (k k' : KState) (tf tf' : TrapFrame) (signum : Nat) : Prop where
  eip : tf'.eip = handlerOf k.thread (getCurid k.thread) signum
  aligned : tf'.esp.toNat % 4 = 0
  frame : HandlerFrame k'.vm (getCurid k.thread) tf.esp tf.eip tf'.esp signum
  apart : (frameFields tf.esp).Pairwise Apart
  kept : ∀ q va b, (1 ≤ q ∧ q < numIds) → UserByte k.vm q va b →
    (∀ f ∈ frameFields tf.esp, ¬(q = getCurid k.thread ∧ va - f.1 < f.2)) → UserByte k'.vm q va b
  above : ∀ va b, UserByte k.vm (getCurid k.thread) va b → tf.esp.toNat ≤ va.toNat →
    UserByte k'.vm (getCurid k.thread) va b
  returns : ∀ (buf₂ : LocalBuf) (k₂ : KState) (tf₂ : TrapFrame), getCurid k₂.thread = getCurid k.thread →
    signalContext k₂.thread (getCurid k.thread) = signalContext k'.thread (getCurid k.thread) →
    FrameIntact k₂.vm (getCurid k.thread) tf.esp tf.eip →
    (sysSigreturn buf₂ k₂ tf₂).2.esp = tf.esp ∧ (sysSigreturn buf₂ k₂ tf₂).2.eip = tf.eip ∧
      signalContext (sysSigreturn buf₂ k₂ tf₂).1.thread (getCurid k.thread) = ⟨0, 0, 0⟩

theorem signalContext_cleared (s : ThreadState) (pid : Nat) :
    signalContext (tcbClearSignalContext s pid) pid = ⟨0, 0, 0⟩ := by
  rw [signalContext, tcbClearSignalContext, sig_modifySigstate, if_pos rfl]
  rfl

theorem stackBuf_local (v x : Word) (changed : writeWord s.mem stackBuf.addr v x ≠ s.mem x) :
    Writable sampleLayout s x := by
  refine (stackBuf_kernel.writable s ?_).1
  have inside : x - stackBuf.addr < 4#32 := by
    by_contra outside
    exact changed (if_neg outside)
  bv_omega

theorem JustBooted.pushWord_lost {s : VmState} (boot : JustBooted (fun _ => 0) 0x50000 s) (uva value : Word)
    (user : userVa uva) (checks : copyChecks uva stackBuf.addr 4#32 = true) (fits : uva.toNat % 4096 + 4 ≤ 4096)
    (page : Nat) :
    Isolated sampleLayout (pushWord stackBuf s 1 uva value) ∧ Affords (pushWord stackBuf s 1 uva value) 1 {page} ∧
      ∀ x : Word, vmUserlo ≤ x.toNat → (pushWord stackBuf s 1 uva value).mem x = 0 := by
  have booted := boot.store (stackBuf_local s value)
  have size : uva.toNat % 4096 + (4#32).toNat ≤ 4096 := fits
  rw [pushWord, booted.lost le_rfl (by decide) user checks (by decide) size]
  refine ⟨booted.lost_isolated size, booted.lost_affords (by decide) page, fun x high => ?_⟩
  rw [booted.lost_high size high, writeWord_high (by decide) high]
  exact boot.mem x (.inr (sampleLayout.below.trans high))

theorem pushWord_fresh {t : VmState} {uva va : Word} (value : Word) (isolated : Isolated sampleLayout t)
    (affords : Affords t 1 {uva.toNat / pageSize}) (clear : ∀ x : Word, vmUserlo ≤ x.toNat → t.mem x = 0)
    (user : userVa uva) (user' : userVa va) (page : va.toNat / pageSize = uva.toNat / pageSize)
    (checks : copyChecks uva stackBuf.addr 4#32 = true) (fits : uva.toNat % 4096 + 4 ≤ 4096)
    (outside : ¬va - uva < 4#32) : UserByte (pushWord stackBuf t 1 uva value) 1 va 0 := by
  have hp : UserPid 1 := by decide
  have data := stackBuf_local t value
  have valid := single_valid hp user
  have mapped := (((affords_write_iff isolated data valid).2 affords).touch (isolated.write data) hp user valid
    (Finset.mem_singleton_self _) 4#32).1
  exact ptCopyout_fresh (isolated.write data) hp user user' page mapped checks (by decide) fits outside fun x high =>
    (writeWord_high (by decide) high).trans (clear x high)

theorem JustBooted.frame_loses {s : VmState} (boot : JustBooted (fun _ => 0) 0x50000 s) :
    FrameIntact (frameVm stackBuf s 1 shallowFrame.esp shallowFrame.eip 10) 1 shallowFrame.esp 0 := by
  have hp : UserPid 1 := by decide
  have lo : vmUserlo + 28 ≤ shallowFrame.esp.toNat := by decide
  have hi : shallowFrame.esp.toNat ≤ vmUserhi := by decide
  obtain ⟨isolated, affords, clear⟩ := boot.pushWord_lost (shallowFrame.esp - 4#32) shallowFrame.eip (by decide)
    (by decide) (by decide) 0x40000
  unfold frameVm
  generalize pushWord stackBuf s 1 (shallowFrame.esp - 4#32) shallowFrame.eip = t at *
  have unsaved : UserBytes (pushWord stackBuf t 1 (shallowFrame.esp - 8#32) shallowFrame.esp) 1
      (shallowFrame.esp - 4#32) 4#32 fun i => byteOf 0 i.toNat := by
    intro i lt
    have zero : byteOf 0 i.toNat = 0 := by simp [byteOf]
    dsimp only
    rw [zero]
    have place : (shallowFrame.esp - 4#32 + i).toNat = 0x4000001c + i.toNat := by
      change (0x4000001c#32 + i).toNat = _
      bv_omega
    have few : i.toNat < 4 := lt
    refine pushWord_fresh _ isolated affords clear (by decide) ?_ ?_ (by decide) (by decide) ?_
    · simp only [userVa, vmUserlo, vmUserhi, place]
      omega
    · rw [place, show (shallowFrame.esp - 8#32).toNat / pageSize = 0x40000 from rfl, pageSize]
      omega
    · change ¬0x4000001c#32 + i - 0x40000018#32 < 4#32
      bv_omega
  rw [← shallow_pages] at affords
  have savedEsp := pushWord_wrote hp stackBuf_kernel (frame_bottom lo) hi isolated affords
    (show _ ≤ (shallowFrame.esp - 8#32).toNat by decide) (by decide) shallowFrame.esp
  constructor
  · exact userWord_iff.2
      (callVm_keeps lo hp stackBuf_kernel hi savedEsp.isolated savedEsp.affords 10 (.head _) unsaved)
  · exact userWord_iff.2
      (callVm_keeps lo hp stackBuf_kernel hi savedEsp.isolated savedEsp.affords 10 (.tail _ (.head _)) savedEsp.written)

end Certikos
