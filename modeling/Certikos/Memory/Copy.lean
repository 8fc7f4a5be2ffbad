import Certikos.Memory.Isolation

/-!
# Copying to and from user memory

`pt_copyin`, `pt_copyout` and `pt_memset` of `pmap.c`. The three loops differ in what they do with the bytes of a
page, which is the `CopyKind`.
-/

namespace Certikos
open Lib
open BitVec (ofNat lt_def toNat_add)

inductive CopyKind
  | copyin
  | copyout
  | memset (c : Byte)

def CopyKind.move (kind : CopyKind) (m : Mem) (pa kva size : Word) : Mem :=
  match kind with
  | .copyin => memmove m kva pa size
  | .copyout => memmove m pa kva size
  | .memset c => Lib.memset m pa c size

structure Touch where
  before : VmState
  vm : VmState
  uva : Word
  pa : Word
  size : Word

def touchAt (s : VmState) (pid : Nat) (uva len : Word) : Touch :=
  let entry := getPtblEntryByVa s pid uva
  let (vm, uvaPa) :=
    if entry &&& ofNat 32 pteP = 0#32 then
      let vm := (allocPage s pid uva (pteP + pteU + pteW)).1
      (vm, getPtblEntryByVa vm pid uva)
    else (s, entry)
  let pa := (uvaPa &&& 0xfffff000#32) + uva % 4096#32
  let size := if len < 4096#32 - pa % 4096#32 then len else 4096#32 - pa % 4096#32
  ⟨s, vm, uva, pa, size⟩

def Touch.moved (t : Touch) (kind : CopyKind) (kva : Word) : VmState :=
  { t.vm with mem := kind.move t.vm.mem t.pa kva t.size }

structure Copied where
  vm : VmState
  copied : Word
  touched : List Touch

/-- The loop. Every round moves at least one byte, so `len` rounds are enough. -/
def copyLoop (kind : CopyKind) (pid : Nat) : (fuel : Nat) → (s : VmState) → (uva kva len copied : Word) → Copied
  | 0, s, _, _, _, copied => ⟨s, copied, []⟩
  | fuel + 1, s, uva, kva, len, copied =>
    if len = 0#32 then ⟨s, copied, []⟩
    else
      let t := touchAt s pid uva len
      let s := t.moved kind kva
      let rest := copyLoop kind pid fuel s (uva + t.size) (kva + t.size) (len - t.size) (copied + t.size)
      { rest with touched := t :: rest.touched }

def copyChecks (uva kva len : Word) : Bool :=
  if ¬(ofNat 32 vmUserlo ≤ uva ∧ uva + len ≤ ofNat 32 vmUserhi) then false
  else if kva + len > ofNat 32 vmUserhi then false
  else true

def ptCopyin (s : VmState) (pmapId : Nat) (uva kva len : Word) : Copied :=
  if copyChecks uva kva len then copyLoop .copyin pmapId len.toNat s uva kva len 0#32 else ⟨s, 0#32, []⟩

def ptCopyout (s : VmState) (kva : Word) (pmapId : Nat) (uva len : Word) : Copied :=
  if copyChecks uva kva len then copyLoop .copyout pmapId len.toNat s uva kva len 0#32 else ⟨s, 0#32, []⟩

def ptMemset (s : VmState) (pmapId : Nat) (va : Word) (c : Byte) (len : Word) : Copied :=
  copyLoop (.memset c) pmapId len.toNat s va 0#32 len 0#32

/-! ## Which addresses the loop visits -/

def Touch.Derefs (t : Touch) (x : Word) : Prop := x - t.uva < t.size
def Touch.Accesses (t : Touch) (x : Word) : Prop := x - t.pa < t.size

section Loop

variable {kind : CopyKind} {s : VmState} {pid : Nat} {uva kva len copied : Word}

theorem toNat_mod_page (x : Word) : (x % 4096#32).toNat = x.toNat % 4096 := BitVec.toNat_umod

section

variable (s : VmState) (pid : Nat)

theorem toNat_touch_pa (uva len : Word) : (touchAt s pid uva len).pa.toNat =
      entryFrame (getPtblEntryByVa (touchAt s pid uva len).vm pid uva) * 4096 + uva.toNat % 4096 := by
  have pa (entry : Word) : ((entry &&& 0xfffff000#32) + uva % 4096#32).toNat =
      entryFrame entry * 4096 + uva.toNat % 4096 := by
    rw [toNat_add, toNat_pageMask, toNat_mod_page, entryFrame, pageSize]
    omega
  unfold touchAt
  dsimp only
  split
  · exact pa _
  · exact pa _

theorem toNat_touch_size (uva len : Word) :
    (touchAt s pid uva len).size.toNat = min len.toNat (4096 - uva.toNat % 4096) := by
  have pa := toNat_touch_pa s pid uva len
  have offset : (4096#32 - (touchAt s pid uva len).pa % 4096#32).toNat = 4096 - uva.toNat % 4096 := by
    rw [BitVec.toNat_sub, toNat_mod_page, pa, show (4096#32).toNat = 4096 from rfl]
    omega
  have size : (touchAt s pid uva len).size =
      if len < 4096#32 - (touchAt s pid uva len).pa % 4096#32 then len
      else 4096#32 - (touchAt s pid uva len).pa % 4096#32 := by
    unfold touchAt
    dsimp only
  rw [size]
  split
  · rename_i short
    rw [lt_def, offset] at short
    omega
  · rename_i long
    rw [lt_def, offset] at long
    rw [offset]
    omega

theorem touch_size_pos (uva : Word) (nonzero : len ≠ 0#32) : 0 < (touchAt s pid uva len).size.toNat := by
  have pos : len.toNat ≠ 0 := fun zero => nonzero (BitVec.eq_of_toNat_eq zero)
  rw [toNat_touch_size]
  omega

theorem touch_size_le (uva len : Word) : (touchAt s pid uva len).size.toNat ≤ len.toNat := by
  rw [toNat_touch_size]
  exact Nat.min_le_left ..

end

theorem sub_toNat_of_le {a b : Word} (h : b.toNat ≤ a.toNat) : (a - b).toNat = a.toNat - b.toNat := by
  rw [BitVec.toNat_sub]
  omega

theorem reach_rest {P : Word → Prop} {n : Word} (le : n.toNat ≤ len.toNat) (reach : ∀ i, i < len → P (uva + i))
    (i : Word) (lt : i < len - n) : P (uva + n + i) := by
  have rest := sub_toNat_of_le le
  rw [BitVec.add_assoc]
  refine reach _ ?_
  rw [lt_def, rest] at lt
  rw [lt_def, toNat_add]
  omega

theorem reach_first {P : Word → Prop} (nonzero : len ≠ 0#32) (reach : ∀ i, i < len → P (uva + i)) : P uva := by
  have first := reach 0#32 (by bv_omega)
  rwa [BitVec.add_zero] at first

/-- Induction over the rounds, of which none is empty. -/
theorem copyLoop_induct {P : VmState → Word → Word → Word → Word → Copied → Prop}
    (done : ∀ s uva kva copied, P s uva kva 0#32 copied ⟨s, copied, []⟩)
    (step : ∀ s uva kva len copied rest t, t = touchAt s pid uva len → len ≠ 0#32 → 0 < t.size.toNat →
      t.size.toNat ≤ len.toNat →
      P (t.moved kind kva) (uva + t.size) (kva + t.size) (len - t.size) (copied + t.size) rest →
      P s uva kva len copied { rest with touched := t :: rest.touched })
    {fuel : Nat} (enough : len.toNat ≤ fuel) : P s uva kva len copied (copyLoop kind pid fuel s uva kva len copied) := by
  induction fuel generalizing s uva kva len copied with
  | zero =>
    have zero : len = 0#32 := BitVec.eq_of_toNat_eq (by simpa using enough)
    subst zero
    exact done s uva kva copied
  | succ fuel ih =>
    by_cases zero : len = 0#32
    · subst zero
      exact done s uva kva copied
    · have pos := touch_size_pos s pid uva zero
      have le := touch_size_le s pid uva len
      rw [copyLoop, if_neg zero]
      exact step _ _ _ _ _ _ _ rfl zero pos le (ih (by rw [sub_toNat_of_le le]; omega))

theorem copyLoop_copied (fuel : Nat) (enough : len.toNat ≤ fuel) :
    (copyLoop kind pid fuel s uva kva len copied).copied = copied + len := by
  refine copyLoop_induct (P := fun _ _ _ len copied r => r.copied = copied + len) ?_ ?_ enough
  · intro s uva kva copied
    exact (BitVec.add_zero copied).symm
  · intro s uva kva len copied rest t _ _ _ _ counted
    show rest.copied = _
    rw [counted, BitVec.add_assoc, BitVec.add_comm _ (len - _), BitVec.sub_add_cancel]

theorem copyLoop_derefs (fuel : Nat) (enough : len.toNat ≤ fuel) (x : Word) :
    (∃ t ∈ (copyLoop kind pid fuel s uva kva len copied).touched, t.Derefs x) ↔ x - uva < len := by
  refine copyLoop_induct (P := fun _ uva _ len _ r => (∃ t ∈ r.touched, t.Derefs x) ↔ x - uva < len) ?_ ?_ enough
  · simp
  · intro s uva kva len copied rest t touch _ pos le visits
    have start : t.uva = uva := touch ▸ rfl
    simp only [List.mem_cons, exists_eq_or_imp]
    rw [visits, Touch.Derefs, start]
    -- the first access takes `[uva, uva + size)`, the rest goes on from there
    generalize t.size = size at *
    bv_omega

end Loop

/-! ## Confinement -/

def DerefsUser (r : Copied) : Prop := ∀ t ∈ r.touched, ∀ x, t.Derefs x → userVa x

section Confinement

variable {kind : CopyKind} {s : VmState} {pid : Nat} {uva kva len : Word}

theorem copyChecks_iff : copyChecks uva kva len = true ↔
    vmUserlo ≤ uva.toNat ∧ (uva + len).toNat ≤ vmUserhi ∧ (kva + len).toNat ≤ vmUserhi := by
  have lo : (ofNat 32 vmUserlo).toNat = vmUserlo := rfl
  have hi : (ofNat 32 vmUserhi).toNat = vmUserhi := rfl
  simp only [copyChecks, BitVec.le_def, GT.gt, lt_def, lo, hi]
  split
  · rename_i range
    simp only [Bool.false_eq_true, false_iff]
    exact fun h => range ⟨h.1, h.2.1⟩
  · rename_i range
    have range := not_not.1 range
    split
    · rename_i kernel
      simp only [Bool.false_eq_true, false_iff]
      omega
    · rename_i kernel
      simp only [true_iff]
      exact ⟨range.1, range.2, not_lt.mp kernel⟩

theorem derefsUser_iff (lo : vmUserlo ≤ uva.toNat) (hi : (uva + len).toNat ≤ vmUserhi) :
    DerefsUser (copyLoop kind pid len.toNat s uva kva len 0#32) ↔ uva.toNat + len.toNat < 2 ^ 32 := by
  have visits (x : Word) : (∃ t ∈ (copyLoop kind pid len.toNat s uva kva len 0#32).touched, t.Derefs x) ↔
      x - uva < len := copyLoop_derefs len.toNat le_rfl x
  rw [toNat_add] at hi
  simp only [vmUserlo, vmUserhi] at lo hi
  constructor
  · intro user
    by_contra wrap
    -- past the end of the user part: either `uva` itself or its end is visited
    have escape (x : Word) (visited : x - uva < len) : vmUserlo ≤ x.toNat ∧ x.toNat < vmUserhi := by
      obtain ⟨t, mem, derefs⟩ := (visits x).2 visited
      exact user t mem x derefs
    by_cases above : uva.toNat < vmUserhi
    · have := escape (ofNat 32 vmUserhi) (by simp only [vmUserhi] at above ⊢; bv_omega)
      simp [vmUserhi] at this
    · have := escape uva (by bv_omega)
      omega
  · intro fits t mem x derefs
    have visited := (visits x).1 ⟨t, mem, derefs⟩
    simp only [userVa, vmUserlo, vmUserhi]
    bv_omega

end Confinement

theorem ptCopy_confined_iff (s : VmState) (pid : Nat) (uva kva len : Word)
    (checks : copyChecks uva kva len = true) :
    (DerefsUser (ptCopyin s pid uva kva len) ↔ uva.toNat + len.toNat < 2 ^ 32) ∧
      (DerefsUser (ptCopyout s kva pid uva len) ↔ uva.toNat + len.toNat < 2 ^ 32) ∧
      (vmUserlo ≤ uva.toNat ∧ uva.toNat + len.toNat ≤ vmUserhi ↔ uva.toNat + len.toNat < 2 ^ 32) := by
  obtain ⟨lo, hi, -⟩ := copyChecks_iff.1 checks
  refine ⟨?_, ?_, ?_⟩
  · rw [ptCopyin, if_pos checks]
    exact derefsUser_iff lo hi
  · rw [ptCopyout, if_pos checks]
    exact derefsUser_iff lo hi
  · rw [toNat_add] at hi
    simp only [vmUserhi] at hi ⊢
    omega

theorem ptCopy_confined_iff_sigaction :
    copyChecks 0x40000000 0x200000 20 = true ∧
      (DerefsUser (ptCopyin blankVm 1 0x40000000 0x200000 20) ↔
        (0x40000000#32).toNat + (20#32).toNat < 2 ^ 32) :=
  ⟨by decide, (ptCopy_confined_iff blankVm 1 0x40000000 0x200000 20 (by decide)).1⟩

theorem ptCopyin_escapes :
    copyChecks 0xfffffff8 0x200000 20 = true ∧
      (∃ t ∈ (ptCopyin blankVm 1 0xfffffff8 0x200000 20).touched, t.Derefs 0xfffffff8) ∧
      (∃ t ∈ (ptCopyin blankVm 1 0xfffffff8 0x200000 20).touched, t.Derefs 0) ∧
      ¬userVa 0xfffffff8 ∧ ¬userVa 0 := by
  have checks : copyChecks 0xfffffff8 0x200000 20 = true := by decide
  rw [ptCopyin, if_pos checks]
  exact ⟨checks, (copyLoop_derefs _ le_rfl _).2 (by decide), (copyLoop_derefs _ le_rfl _).2 (by decide),
    by decide, by decide⟩

end Certikos
