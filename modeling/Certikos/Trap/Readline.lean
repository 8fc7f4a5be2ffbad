import Certikos.Dev.Console
import Certikos.Memory.CopyOut
import Certikos.Trap.Signals

/-!
# The line a process gets

`sys_readline` copies no more than 1001 bytes of the line that `readline` returns.
-/

namespace Certikos
open Lib
open BitVec (ofNat toNat_ofNat)

def strnlen (bytes : List Byte) (n : Nat) : Nat := ((bytes.take n).takeWhile fun c => c ≠ 0#8).length

def nLen (linebuf : List Byte) : Word := ofNat 32 (strnlen linebuf 1000 + 1)

def LineByte (s : VmState) (pid : Nat) (userbuf : Word) (line : List Byte) (i : Nat) : Prop :=
  UserByte s pid (userbuf + ofNat 32 i) ((line ++ [0#8]).getD i 0#8)

theorem strnlen_eq {line tail : List Byte} (text : 0#8 ∉ line) :
    strnlen (line ++ 0#8 :: tail) 1000 = min line.length 1000 := by
  have all {l : List Byte} (sub : ∀ c ∈ l, c ∈ line) : ∀ c ∈ l, decide (c ≠ 0#8) := by
    intro c member
    refine decide_eq_true ?_
    rintro rfl
    exact text (sub _ member)
  rw [strnlen, List.take_append, List.takeWhile_append_of_pos (all fun c => List.mem_of_mem_take), List.length_append,
    List.length_take, Nat.min_comm]
  cases rest : 1000 - line.length with
  | zero => simp
  | succ n => simp

theorem sysReadline_copied {buf : LocalBuf} {k : KState} {tf : TrapFrame} {kernbuf n : Word}
    (out : (ptCopyout k.vm kernbuf (getCurid k.thread) (syscallGetArg2 tf) n).copied = n) :
    sysReadline buf k tf (some (kernbuf, n)) =
      .ok (⟨k.thread, (ptCopyout k.vm kernbuf (getCurid k.thread) (syscallGetArg2 tf) n).vm⟩,
        syscallSetRetval1 (syscallSetErrno tf .succ) 0#32) :=
  if_neg (not_not.mpr out)

theorem sysReadline_delivers_iff (L : Layout) (buf : LocalBuf) (k : KState) (tf : TrapFrame) (kernbuf : Word)
    (line tail : List Byte) (text : 0#8 ∉ line) (size : (line ++ 0#8 :: tail).length = buflen)
    (isolated : Isolated L k.vm) (hp : 1 ≤ getCurid k.thread ∧ getCurid k.thread < numIds)
    (low : kernbuf.toNat + buflen ≤ vmUserlo)
    (held : ∀ i, i ≤ line.length → k.vm.mem (kernbuf + ofNat 32 i) = (line ++ [0#8]).getD i 0#8)
    (lo : vmUserlo ≤ (syscallGetArg2 tf).toNat) (hi : (syscallGetArg2 tf).toNat + (line.length + 1) ≤ vmUserhi)
    (affords : Affords k.vm (getCurid k.thread) (vpages (syscallGetArg2 tf) (nLen (line ++ 0#8 :: tail))))
    (mapped : ∀ i, 1000 < i → i ≤ line.length →
      ∃ b, UserByte k.vm (getCurid k.thread) (syscallGetArg2 tf + ofNat 32 i) b) :
    ∃ k' tf', sysReadline buf k tf (some (kernbuf, nLen (line ++ 0#8 :: tail))) = .ok (k', tf') ∧
      tf'.regs.eax = ErrorNr.succ.code ∧
      ((∀ i, i ≤ line.length → LineByte k'.vm (getCurid k.thread) (syscallGetArg2 tf) line i) ↔
        ∀ i, 1000 < i → i ≤ line.length → LineByte k.vm (getCurid k.thread) (syscallGetArg2 tf) line i) := by
  have short : line.length < buflen := by
    rw [List.length_append, List.length_cons] at size
    omega
  have count : (nLen (line ++ 0#8 :: tail)).toNat = min line.length 1000 + 1 := by
    rw [nLen, strnlen_eq text, toNat_ofNat, Nat.mod_eq_of_lt (by omega)]
  generalize nLen (line ++ 0#8 :: tail) = len at *
  have index {i : Nat} (le : i ≤ line.length) : (ofNat 32 i).toNat = i := by
    rw [toNat_ofNat, Nat.mod_eq_of_lt (by omega)]
  have below : (syscallGetArg2 tf).toNat + len.toNat ≤ vmUserhi := by omega
  obtain ⟨out, stored⟩ := ptCopyout_stored isolated hp (vpages_valid hp lo below) affords
    (covers_vpages lo below) (show kernbuf.toNat + len.toNat ≤ vmUserlo by omega)
  have outside {i : Nat} (late : 1000 < i) (le : i ≤ line.length) :
      ¬(getCurid k.thread = getCurid k.thread ∧
        syscallGetArg2 tf + ofNat 32 i - syscallGetArg2 tf < len) := by
    rintro ⟨-, inside⟩
    rw [show syscallGetArg2 tf + ofNat 32 i - syscallGetArg2 tf = ofNat 32 i by bv_omega, BitVec.lt_def,
      index le] at inside
    omega
  refine ⟨_, _, sysReadline_copied out, rfl, ?_⟩
  constructor
  · intro delivered i late le
    obtain ⟨b, seen⟩ := mapped i late le
    have same := (stored.kept _ _ b hp seen (outside late le)).value.symm.trans (delivered i le).value
    rw [LineByte, ← same]
    exact seen
  · intro rest i le
    by_cases late : 1000 < i
    · exact stored.kept _ _ _ hp (rest i late le) (outside late le)
    · have written := stored.written (ofNat 32 i) (by rw [BitVec.lt_def, index le]; omega)
      rwa [held i le] at written

/-! ## Two lines -/

def lineMem (line : List Byte) : Mem := fun x =>
  if x.toNat < vmUserlo then (line ++ [0#8]).getD (x.toNat - 0x300000) 0#8 else 0xff#8

theorem lineMem_held {line : List Byte} {s : VmState} (boot : JustBooted (lineMem line) 0x40000 s)
    (short : line.length < 1024) (i : Nat) (le : i ≤ line.length) :
    s.mem (0x300000#32 + ofNat 32 i) = (line ++ [0#8]).getD i 0#8 := by
  have place : (0x300000#32 + ofNat 32 i).toNat = 0x300000 + i := by
    rw [BitVec.toNat_add, toNat_ofNat, toNat_ofNat]
    omega
  have away : (0x300000#32 + ofNat 32 i).toNat < sampleLayout.idptbl.toNat := by
    rw [place, show sampleLayout.idptbl.toNat = 0x1000000 from rfl]
    omega
  rw [boot.mem _ (.inl away), lineMem, place, if_pos (by simp only [vmUserlo]; omega), Nat.add_sub_cancel_left]

def lineFrame : TrapFrame := syscallFrame .readline 0x40000000 0 0

theorem running : 1 ≤ getCurid signalled.thread ∧ getCurid signalled.thread < numIds := by decide

theorem sysReadline_delivers_iff_short :
    ∃ k' tf', sysReadline stackBuf ⟨signalled.thread, bootVm (lineMem [65#8]) 0x40000⟩ lineFrame
        (some (0x300000#32, nLen ([65#8] ++ 0#8 :: List.replicate 1022 0#8))) = .ok (k', tf') ∧
      tf'.regs.eax = ErrorNr.succ.code ∧
      ∀ i, i ≤ 1 → LineByte k'.vm (getCurid signalled.thread) (syscallGetArg2 lineFrame) [65#8] i := by
  have boot := bootVm_justBooted (lineMem [65#8]) 0x40000
  generalize bootVm (lineMem [65#8]) 0x40000 = s at boot
  have pages : vpages (syscallGetArg2 lineFrame) 2#32 = {0x40000} := by decide
  have affords := boot.affords le_rfl (ne_of_gt running.1) 0x40000
  have two : nLen ([65#8] ++ 0#8 :: List.replicate 1022 0#8) = 2#32 := by
    rw [nLen, strnlen_eq (by decide)]
    rfl
  rw [← pages, ← two] at affords
  have size : ([65#8] ++ 0#8 :: List.replicate 1022 0#8).length = buflen := by
    simp only [List.length_append, List.length_cons, List.length_replicate, List.length_nil]
  obtain ⟨k', tf', run, code, known⟩ := sysReadline_delivers_iff sampleLayout stackBuf ⟨signalled.thread, s⟩ lineFrame
    0x300000#32 [65#8] (List.replicate 1022 0#8) (by decide) size boot.isolated running (by decide)
    (lineMem_held boot (by decide)) (by decide) (by decide) affords
    (fun i late le => absurd (late.trans_le le) (by decide))
  exact ⟨k', tf', run, code, known.mpr fun i late le => absurd (late.trans_le le) (by decide)⟩

theorem JustBooted.unterminated {line : List Byte} {k : KState} (boot : JustBooted (lineMem line) 0x40000 k.vm)
    (hp : UserPid (getCurid k.thread)) :
    ∃ k' tf', sysReadline stackBuf k lineFrame (some (0x300000#32, 1001#32)) = .ok (k', tf') ∧
      tf'.regs.eax = ErrorNr.succ.code ∧
      UserByte k'.vm (getCurid k.thread) (syscallGetArg2 lineFrame + 1001#32) 0xff#8 := by
  have pages : vpages (syscallGetArg2 lineFrame) 1001#32 = {0x40000} := by decide
  have affords := boot.affords le_rfl (ne_of_gt hp.1) 0x40000
  rw [← pages] at affords
  have user : userVa (syscallGetArg2 lineFrame) := by decide
  have lo : vmUserlo ≤ (syscallGetArg2 lineFrame).toNat := by decide
  have hi : (syscallGetArg2 lineFrame).toNat + (1001#32).toNat ≤ vmUserhi := by decide
  have valid := vpages_valid hp lo hi
  have mapped := (affords.touch boot.isolated hp user valid (pages ▸ by decide) 1001#32).1
  have clear (x : Word) (high : vmUserlo ≤ x.toNat) : k.vm.mem x = 0xff#8 :=
    (boot.mem x (.inr (sampleLayout.below.trans high))).trans (if_neg (Nat.not_lt.mpr high))
  have out := (ptCopyout_stored boot.isolated hp valid affords (covers_vpages lo hi)
    (show (0x300000#32).toNat + (1001#32).toNat ≤ vmUserlo by decide)).1
  have fresh := ptCopyout_fresh boot.isolated hp user (show userVa (syscallGetArg2 lineFrame + 1001#32) by decide)
    (by decide) mapped (show copyChecks _ 0x300000#32 _ = true by decide) (by decide) (by decide) (by decide) clear
  refine ⟨_, _, sysReadline_copied out, rfl, ?_⟩
  dsimp only
  exact fresh

theorem sysReadline_unterminated :
    let k : KState := ⟨signalled.thread, bootVm (lineMem (List.replicate 1001 65#8)) 0x40000⟩
    ∃ k' tf', sysReadline stackBuf k lineFrame
        (some (0x300000#32, nLen (List.replicate 1001 65#8 ++ 0#8 :: List.replicate 22 0#8))) = .ok (k', tf') ∧
      tf'.regs.eax = ErrorNr.succ.code ∧
      UserByte k'.vm (getCurid k.thread) (syscallGetArg2 lineFrame + 1001#32) 0xff#8 := by
  have len : nLen (List.replicate 1001 65#8 ++ 0#8 :: List.replicate 22 0#8) = 1001#32 := by
    rw [nLen, strnlen_eq fun member => absurd (List.eq_of_mem_replicate member) (by decide), List.length_replicate]
    rfl
  rw [len]
  exact JustBooted.unterminated (bootVm_justBooted ..) running

end Certikos
