import Certikos.Memory.OwnFrames

/-!
# What a process sees in its memory

A byte at a virtual address, with the table entry and the byte itself in the part of physical memory that the kernel
hands out.
-/

namespace Certikos
open Lib
open BitVec (lt_def toNat_add ofNat)

def userPa (s : VmState) (pid : Nat) (va : Word) : Word :=
  (getPtblEntryByVa s pid va &&& 0xfffff000#32) + va % 4096#32

structure UserByte (s : VmState) (pid : Nat) (va : Word) (b : Byte) : Prop where
  user : userVa va
  mapped : present (getPtblEntryByVa s pid va)
  table : vmUserlo ≤ (ptblAddr (s.pdirPool pid (pdeIndexOf va)) (pteIndexOf va)).toNat
  frame : vmUserlo ≤ (userPa s pid va).toNat
  value : s.mem (userPa s pid va) = b

instance (s : VmState) (pid : Nat) (va : Word) (b : Byte) : Decidable (UserByte s pid va b) :=
  decidable_of_iff
    (userVa va ∧ present (getPtblEntryByVa s pid va) ∧
      vmUserlo ≤ (ptblAddr (s.pdirPool pid (pdeIndexOf va)) (pteIndexOf va)).toNat ∧
      vmUserlo ≤ (userPa s pid va).toNat ∧ s.mem (userPa s pid va) = b)
    ⟨fun h => ⟨h.1, h.2.1, h.2.2.1, h.2.2.2.1, h.2.2.2.2⟩, fun h => ⟨h.user, h.mapped, h.table, h.frame, h.value⟩⟩

def UserWord (s : VmState) (pid : Nat) (va w : Word) : Prop :=
  ∀ i : Nat, i < 4 → UserByte s pid (va + ofNat 32 i) (byteOf w i)

instance (s : VmState) (pid : Nat) (va w : Word) : Decidable (UserWord s pid va w) :=
  inferInstanceAs (Decidable (∀ i, i < 4 → _))

variable {bytes : Word → Byte} {w : Word}

section View

variable {s : VmState} {pid : Nat} {va uva kva len : Word} {b : Byte}

theorem UserByte.congr (h : UserByte s pid va b) {m : Mem} (same : ∀ x : Word, vmUserlo ≤ x.toNat → m x = s.mem x) :
    UserByte { s with mem := m } pid va b := by
  have table := h.table
  have addr := toNat_ptblAddr (s.pdirPool pid (pdeIndexOf va)) (pteIndexOf_lt va)
  have entry : getPtblEntryByVa { s with mem := m } pid va = getPtblEntryByVa s pid va := by
    unfold getPtblEntryByVa getPtblEntry getPdirEntry
    split
    · rfl
    · apply readWord_congr
      intro i lt
      apply same
      generalize ptblAddr (s.pdirPool pid (pdeIndexOf va)) (pteIndexOf va) = a at *
      have small : i.toNat < 4 := lt
      rw [toNat_add]
      omega
  have pa : userPa { s with mem := m } pid va = userPa s pid va := by
    rw [userPa, entry, userPa]
  refine ⟨h.user, entry ▸ h.mapped, h.table, pa ▸ h.frame, ?_⟩
  rw [pa]
  exact (same _ h.frame).trans h.value

theorem userPa_add (s : VmState) (pid : Nat) {i : Word} (fits : uva.toNat % 4096 + i.toNat < 4096) :
    getPtblEntryByVa s pid (uva + i) = getPtblEntryByVa s pid uva ∧ userPa s pid (uva + i) = userPa s pid uva + i := by
  have sum : (uva + i).toNat = uva.toNat + i.toNat := by
    rw [toNat_add]
    omega
  have entry : getPtblEntryByVa s pid (uva + i) = getPtblEntryByVa s pid uva := by
    rw [← getPtblEntryByVa_page s pid (uva + i), ← getPtblEntryByVa_page s pid uva, sum]
    congr 2
    simp only [pageSize]
    omega
  refine ⟨entry, ?_⟩
  rw [userPa, entry, userPa, BitVec.add_assoc]
  congr 1
  apply BitVec.eq_of_toNat_eq
  rw [toNat_mod_page, sum, toNat_add, toNat_mod_page]
  omega

theorem toNat_userPa (s : VmState) (pid : Nat) (va : Word) :
    (userPa s pid va).toNat = entryFrame (getPtblEntryByVa s pid va) * 4096 + va.toNat % 4096 := by
  rw [userPa, toNat_add, toNat_pageMask, toNat_mod_page, entryFrame, pageSize]
  omega

theorem touch_pa (s : VmState) (pid : Nat) (uva len : Word) :
    (touchAt s pid uva len).pa = userPa (touchAt s pid uva len).vm pid uva := by
  unfold touchAt userPa
  dsimp only
  split
  · rfl
  · rfl

theorem touchAt_mapped (len : Word) (mapped : present (getPtblEntryByVa s pid uva)) :
    (touchAt s pid uva len).vm = s ∧ (touchAt s pid uva len).pa = userPa s pid uva := by
  refine ⟨by rw [touch_vm, if_pos mapped], ?_⟩
  unfold touchAt
  dsimp only
  rw [if_neg (show ¬(getPtblEntryByVa s pid uva &&& ofNat 32 pteP = 0#32) from mapped)]
  rfl

def storeBytes (m : Mem) (kva len : Word) (bytes : Word → Byte) : Mem := fun x =>
  if x - kva < len then bytes (x - kva) else m x

theorem memmove_eq (m : Mem) (dst src n : Word) : memmove m dst src n = storeBytes m dst n fun i => m (src + i) := rfl

theorem memset_eq (m : Mem) (dst : Word) (c : Byte) (n : Word) : memset m dst c n = storeBytes m dst n fun _ => c := rfl

theorem storeBytes_high {m : Mem} (low : kva.toNat + len.toNat ≤ vmUserlo) {x : Word}
    (high : vmUserlo ≤ x.toNat) : storeBytes m kva len bytes x = m x := by
  refine if_neg ?_
  rw [lt_def, sub_toNat_of_le (by omega)]
  omega

theorem storeBytes_zero (m : Mem) (kva : Word) (bytes : Word → Byte) : storeBytes m kva 0#32 bytes = m := by
  funext x
  exact if_neg (BitVec.not_lt_zero)

theorem storeBytes_split (m : Mem) (bytes : Word → Byte) {size : Word} (le : size.toNat ≤ len.toNat)
    (low : kva.toNat + len.toNat ≤ vmUserlo) :
    storeBytes (storeBytes m kva size bytes) (kva + size) (len - size) (fun i => bytes (size + i)) =
      storeBytes m kva len bytes := by
  funext x
  unfold storeBytes
  have shift : x - (kva + size) = x - kva - size := by bv_omega
  rw [shift]
  generalize x - kva = d
  have rest := sub_toNat_of_le le
  simp only [lt_def, rest, vmUserlo] at *
  by_cases first : d.toNat < size.toNat
  · have wrap : (d - size).toNat = 2 ^ 32 - size.toNat + d.toNat := by
      rw [BitVec.toNat_sub]
      omega
    rw [if_neg (by omega), if_pos first, if_pos (by omega)]
  · have back : size + (d - size) = d := by rw [BitVec.add_comm, BitVec.sub_add_cancel]
    rw [sub_toNat_of_le (by omega), back, if_neg first]
    split
    · rw [if_pos (by omega)]
    · rw [if_neg (by omega)]

theorem copyLoop_copyin {copied : Word} {fuel : Nat} (low : kva.toNat + len.toNat ≤ vmUserlo)
    (enough : len.toNat ≤ fuel) (view : ∀ i : Word, i < len → UserByte s pid (uva + i) (bytes i)) :
    (copyLoop .copyin pid fuel s uva kva len copied).vm = { s with mem := storeBytes s.mem kva len bytes } := by
  refine copyLoop_induct (P := fun s uva kva len _ r => ∀ bytes : Word → Byte, kva.toNat + len.toNat ≤ vmUserlo →
    (∀ i : Word, i < len → UserByte s pid (uva + i) (bytes i)) →
    r.vm = { s with mem := storeBytes s.mem kva len bytes }) ?_ ?_ enough bytes low view
  · intro s uva kva copied bytes _ _
    rw [storeBytes_zero]
  · rintro s uva kva len copied rest t rfl nonzero pos le ih bytes low view
    have first := view 0#32 (by bv_omega)
    rw [BitVec.add_zero] at first
    obtain ⟨vm, pa⟩ := touchAt_mapped len first.mapped
    have size := toNat_touch_size s pid uva len
    have stored : memmove s.mem kva (userPa s pid uva) (touchAt s pid uva len).size =
        storeBytes s.mem kva (touchAt s pid uva len).size bytes := by
      funext x
      unfold memmove storeBytes
      split
      · rename_i inside
        rw [lt_def] at inside
        have seen := view (x - kva) (by rw [lt_def]; omega)
        rw [← (userPa_add s pid (by omega)).2]
        exact seen.value
      · rfl
    have moved : (touchAt s pid uva len).moved .copyin kva =
        { s with mem := storeBytes s.mem kva (touchAt s pid uva len).size bytes } := by
      rw [Touch.moved, vm, pa, CopyKind.move, stored]
    rw [moved] at ih
    generalize (touchAt s pid uva len).size = n at *
    have left := sub_toNat_of_le le
    have next : (kva + n).toNat = kva.toNat + n.toNat := by
      simp only [vmUserlo] at low
      rw [toNat_add]
      omega
    rw [← storeBytes_split s.mem bytes le low]
    refine ih (fun i => bytes (n + i)) (by omega) fun i lt => ?_
    rw [BitVec.add_assoc]
    refine (view (n + i) ?_).congr fun x high => storeBytes_high (by omega) high
    rw [lt_def, left] at lt
    rw [lt_def, toNat_add]
    omega

theorem ptCopyin_view
    (lo : vmUserlo ≤ uva.toNat) (hi : uva.toNat + len.toNat ≤ vmUserhi) (low : kva.toNat + len.toNat ≤ vmUserlo)
    (view : ∀ i : Word, i < len → UserByte s pid (uva + i) (bytes i)) :
    (ptCopyin s pid uva kva len).copied = len ∧
      (ptCopyin s pid uva kva len).vm = { s with mem := storeBytes s.mem kva len bytes } := by
  rw [ptCopyin, if_pos (copyChecks_of_low lo hi low)]
  exact ⟨(copyLoop_copied len.toNat le_rfl).trans (BitVec.zero_add len), copyLoop_copyin low le_rfl view⟩

/-! ## Words -/

def UserBytes (s : VmState) (pid : Nat) (va len : Word) (bytes : Word → Byte) : Prop :=
  ∀ i, i < len → UserByte s pid (va + i) (bytes i)

theorem userWord_iff {s : VmState} {pid : Nat} {va w : Word} :
    UserWord s pid va w ↔ UserBytes s pid va 4#32 fun i => byteOf w i.toNat := by
  constructor
  · intro word i lt
    have seen := word i.toNat (by simpa [lt_def] using lt)
    rwa [BitVec.ofNat_toNat, BitVec.setWidth_eq] at seen
  · intro bytes i lt
    have small : i < 2 ^ 32 := by omega
    have seen := bytes (ofNat 32 i) (by rw [lt_def, BitVec.toNat_ofNat, Nat.mod_eq_of_lt small]; exact lt)
    dsimp only at seen
    rwa [BitVec.toNat_ofNat, Nat.mod_eq_of_lt small] at seen

theorem UserWord.range (h : UserWord s pid va w) : vmUserlo ≤ va.toNat ∧ va.toNat + 4 ≤ vmUserhi := by
  have first := (h 0 (by decide)).user
  have last := (h 3 (by decide)).user
  simp only [userVa, vmUserlo, vmUserhi] at *
  bv_omega

theorem UserWord.congr (h : UserWord s pid va w) {m : Mem}
    (same : ∀ x : Word, vmUserlo ≤ x.toNat → m x = s.mem x) : UserWord { s with mem := m } pid va w :=
  fun i lt => (h i lt).congr same

theorem writeWord_eq (m : Mem) (a w : Word) : writeWord m a w = storeBytes m a 4#32 fun i => byteOf w i.toNat := rfl

theorem writeWord_high {m : Mem} (low : kva.toNat + 4 ≤ vmUserlo) {x : Word} (high : vmUserlo ≤ x.toNat) :
    writeWord m kva w x = m x := by
  rw [writeWord_eq]
  exact storeBytes_high low high

theorem ptCopyin_word (h : UserWord s pid va w) (low : kva.toNat + 4 ≤ vmUserlo) :
    (ptCopyin s pid va kva 4#32).copied = 4#32 ∧
      (ptCopyin s pid va kva 4#32).vm = { s with mem := writeWord s.mem kva w } := by
  rw [writeWord_eq]
  refine ptCopyin_view h.range.1 (show va.toNat + (4#32).toNat ≤ vmUserhi from h.range.2) low (userWord_iff.1 h)

end View

end Certikos
