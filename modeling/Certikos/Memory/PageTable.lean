import Certikos.Memory.Alloc
import Certikos.Lib.Run

/-!
# Two-level page tables

`MPTIntro.c`, `MPTOp.c`, `MPTComm.c`, `MPTKern.c` and `MPTNew.c`. The page directories are static kernel data, one per
process; the second-level tables lie in pages of `mem`, so that a table is whatever the memory at its address holds.
-/

namespace Certikos
open Lib
open BitVec (ofNat)

abbrev ptPermUp : Word := 0#32
abbrev ptPermPtu : Word := ofNat 32 (pteP + pteW + pteU)

/-! ## Entries -/

structure Layout where
  idptbl : Word
  aligned : idptbl.toNat % pageSize = 0
  below : idptbl.toNat + 1024 * pageSize ≤ vmUserlo

def getPdirEntry (s : VmState) (procIndex pdeIndex : Nat) : Word := s.pdirPool procIndex pdeIndex

def modifyPdir (s : VmState) (procIndex pdeIndex : Nat) (pde : Word) : VmState :=
  let row := Function.update (s.pdirPool procIndex) pdeIndex pde
  { s with pdirPool := Function.update s.pdirPool procIndex row }

def setPdirEntry (s : VmState) (procIndex pdeIndex pageIndex : Nat) : VmState :=
  modifyPdir s procIndex pdeIndex (ofNat 32 (pageIndex * pageSize) + ptPermPtu)

def identityPde (L : Layout) (pdeIndex : Nat) : Word :=
  L.idptbl + ofNat 32 (pdeIndex * pageSize) + ptPermPtu

def setPdirEntryIdentity (L : Layout) (s : VmState) (procIndex pdeIndex : Nat) : VmState :=
  modifyPdir s procIndex pdeIndex (identityPde L pdeIndex)

def rmvPdirEntry (s : VmState) (procIndex pdeIndex : Nat) : VmState :=
  modifyPdir s procIndex pdeIndex ptPermUp

/-- The address of entry `pteIndex` of the table that a directory entry points to. -/
def ptblAddr (pde : Word) (pteIndex : Nat) : Word := (pde &&& 0xfffff000#32) + ofNat 32 (pteIndex * 4)

def getPtblEntry (s : VmState) (procIndex pdeIndex pteIndex : Nat) : Word :=
  readWord s.mem (ptblAddr (s.pdirPool procIndex pdeIndex) pteIndex)

def modifyPtbl (s : VmState) (procIndex pdeIndex pteIndex : Nat) (pte : Word) : VmState :=
  { s with mem := writeWord s.mem (ptblAddr (s.pdirPool procIndex pdeIndex) pteIndex) pte }

def setPtblEntry (s : VmState) (procIndex pdeIndex pteIndex pageIndex perm : Nat) : VmState :=
  modifyPtbl s procIndex pdeIndex pteIndex (ofNat 32 (pageIndex * pageSize + perm))

def setPtblEntryIdentity (L : Layout) (s : VmState) (pdeIndex pteIndex perm : Nat) : VmState :=
  let addr := L.idptbl + ofNat 32 ((pdeIndex * 1024 + pteIndex) * 4)
  { s with mem := writeWord s.mem addr (ofNat 32 ((pdeIndex * 1024 + pteIndex) * pageSize + perm)) }

def rmvPtblEntry (s : VmState) (procIndex pdeIndex pteIndex : Nat) : VmState :=
  modifyPtbl s procIndex pdeIndex pteIndex 0#32

/-! ## Entries by virtual address -/

def pdeIndexOf (vaddr : Word) : Nat := vaddr.toNat / (4096 * 1024)
def pteIndexOf (vaddr : Word) : Nat := vaddr.toNat / 4096 % 1024

def getPtblEntryByVa (s : VmState) (procIndex : Nat) (vaddr : Word) : Word :=
  if getPdirEntry s procIndex (pdeIndexOf vaddr) = 0#32 then 0#32
  else getPtblEntry s procIndex (pdeIndexOf vaddr) (pteIndexOf vaddr)

def getPdirEntryByVa (s : VmState) (procIndex : Nat) (vaddr : Word) : Word :=
  getPdirEntry s procIndex (pdeIndexOf vaddr)

def rmvPtblEntryByVa (s : VmState) (procIndex : Nat) (vaddr : Word) : VmState :=
  rmvPtblEntry s procIndex (pdeIndexOf vaddr) (pteIndexOf vaddr)

def rmvPdirEntryByVa (s : VmState) (procIndex : Nat) (vaddr : Word) : VmState :=
  rmvPdirEntry s procIndex (pdeIndexOf vaddr)

def setPtblEntryByVa (s : VmState) (procIndex : Nat) (vaddr : Word) (pageIndex perm : Nat) : VmState :=
  setPtblEntry s procIndex (pdeIndexOf vaddr) (pteIndexOf vaddr) pageIndex perm

def setPdirEntryByVa (s : VmState) (procIndex : Nat) (vaddr : Word) (pageIndex : Nat) : VmState :=
  setPdirEntry s procIndex (pdeIndexOf vaddr) pageIndex

/-! ## Tables and pages -/

def allocPtbl (s : VmState) (procIndex : Nat) (vadr : Word) : VmState × Nat :=
  let (s, pi) := containerAlloc s procIndex
  if pi ≠ 0 then
    let s := setPdirEntryByVa s procIndex vadr pi
    (loop (fun i s => rmvPtblEntry s procIndex (pdeIndexOf vadr) i) 1024 s, pi)
  else (s, pi)

def freePtbl (s : VmState) (procIndex : Nat) (vadr : Word) : VmState :=
  let pde := getPdirEntryByVa s procIndex vadr
  let s := rmvPdirEntryByVa s procIndex vadr
  containerFree s procIndex (pde.toNat / pageSize)

def mapPage (s : VmState) (procIndex : Nat) (vadr : Word) (pageIndex perm : Nat) : VmState × Nat :=
  let (s, result) :=
    if getPdirEntryByVa s procIndex vadr ≠ 0#32 then (s, 0)
    else
      let (s, result) := allocPtbl s procIndex vadr
      if result = 0 then (s, magicNumber) else (s, result)
  if result ≠ magicNumber then (setPtblEntryByVa s procIndex vadr pageIndex perm, result)
  else (s, result)

def unmapPage (s : VmState) (procIndex : Nat) (vadr : Word) : VmState × Word :=
  let ptblEntry := getPtblEntryByVa s procIndex vadr
  if ptblEntry ≠ 0#32 then (rmvPtblEntryByVa s procIndex vadr, ptblEntry) else (s, ptblEntry)

def allocPage (s : VmState) (procIndex : Nat) (vaddr : Word) (perm : Nat) : VmState × Nat :=
  let (s, pi) := containerAlloc s procIndex
  if pi = 0 then (s, magicNumber) else mapPage s procIndex vaddr pi perm

def installTable (s : VmState) (pid pdeIndex frame : Nat) : VmState :=
  loop (fun i s => rmvPtblEntry s pid pdeIndex i) 1024 (setPdirEntry s pid pdeIndex frame)

theorem allocPtbl_eq (s : VmState) (pid : Nat) (va : Word) : allocPtbl s pid va = if (containerAlloc s pid).2 ≠ 0 then
        (installTable (containerAlloc s pid).1 pid (pdeIndexOf va) (containerAlloc s pid).2, (containerAlloc s pid).2)
      else containerAlloc s pid := rfl

theorem mapPage_cases (s : VmState) (pid : Nat) (va : Word) (page perm : Nat) : (getPdirEntryByVa s pid va ≠ 0#32 ∧
      mapPage s pid va page perm = (setPtblEntryByVa s pid va page perm, 0)) ∨ getPdirEntryByVa s pid va = 0#32 ∧
      (((containerAlloc s pid).2 = 0 ∧ mapPage s pid va page perm = ((containerAlloc s pid).1, magicNumber)) ∨
      (containerAlloc s pid).2 ≠ 0 ∧ mapPage s pid va page perm = (setPtblEntryByVa
              (installTable (containerAlloc s pid).1 pid (pdeIndexOf va) (containerAlloc s pid).2) pid va page perm,
            (containerAlloc s pid).2)) := by
  by_cases dir : getPdirEntryByVa s pid va = 0#32
  · refine .inr ⟨dir, ?_⟩
    by_cases failed : (containerAlloc s pid).2 = 0
    · refine .inl ⟨failed, ?_⟩
      simp [mapPage, dir, allocPtbl_eq, failed]
    · refine .inr ⟨failed, ?_⟩
      have magic := containerAlloc_ne_magic s pid
      simp [mapPage, dir, allocPtbl_eq, failed, magic]
  · refine .inl ⟨dir, ?_⟩
    simp [mapPage, dir]

variable {pid perm : Nat} {va : Word}

theorem allocPage_preserves {s : VmState} (holds : VmState → Prop) (start : holds s)
    (alloc : ∀ t, holds t → holds (containerAlloc t pid).1)
    (table : ∀ t f, holds t → holds (installTable t pid (pdeIndexOf va) f))
    (entry : ∀ t f, holds t → holds (setPtblEntryByVa t pid va f perm)) : holds (allocPage s pid va perm).1 := by
  have first := alloc s start
  unfold allocPage
  dsimp only
  split
  · exact first
  · rcases mapPage_cases (containerAlloc s pid).1 pid va (containerAlloc s pid).2 perm with
      ⟨-, mapped⟩ | ⟨-, ⟨-, mapped⟩ | ⟨-, mapped⟩⟩
    · rw [mapped]
      exact entry _ _ first
    · rw [mapped]
      exact alloc _ first
    · rw [mapped]
      exact entry _ _ (table _ _ (alloc _ first))

theorem getPtblEntryByVa_congr {s s' : VmState} (dir : s'.pdirPool = s.pdirPool) (mem : s'.mem = s.mem) :
    getPtblEntryByVa s' pid va = getPtblEntryByVa s pid va := by
  unfold getPtblEntryByVa getPdirEntry getPtblEntry
  rw [dir, mem]

theorem entryByVa_alloc (s : VmState) (pid q : Nat) (va : Word) :
    getPtblEntryByVa (containerAlloc s pid).1 q va = getPtblEntryByVa s q va :=
  getPtblEntryByVa_congr (containerAlloc_frame s pid).1 (containerAlloc_frame s pid).2

/-! ## What entries read -/

def entryFrame (entry : Word) : Nat := entry.toNat / pageSize

theorem entryFrame_mk {frame : Nat} (hf : frame < 1048576) (hp : perm < 4096) :
    entryFrame (ofNat 32 (frame * pageSize + perm)) = frame := by
  unfold entryFrame pageSize
  rw [BitVec.toNat_ofNat]
  omega

section Entries

variable {s : VmState} {p q i j k l : Nat} {w : Word}

theorem toNat_ptblAddr (pde : Word) (hk : k < 1024) : (ptblAddr pde k).toNat = entryFrame pde * 4096 + k * 4 := by
  rw [ptblAddr, BitVec.toNat_add, toNat_pageMask, BitVec.toNat_ofNat, entryFrame, pageSize]
  omega

variable {pde va : Word} {f : Nat}

theorem ptblAddr_inj {pde' : Word} (hk : k < 1024) (hl : l < 1024) :
    ptblAddr pde k = ptblAddr pde' l ↔ entryFrame pde = entryFrame pde' ∧ k = l := by
  rw [← BitVec.toNat_inj, toNat_ptblAddr pde hk, toNat_ptblAddr pde' hl]
  omega

@[simp] theorem pdir_modifyPdir :
    (modifyPdir s p i w).pdirPool q j = if q = p ∧ j = i then w else s.pdirPool q j := by
  by_cases hq : q = p
  · subst hq
    by_cases hj : j = i
    · subst hj
      simp [modifyPdir]
    · simp [modifyPdir, hj]
  · simp [modifyPdir, hq]

theorem readWord_modifyPtbl (hk : k < 1024) (hl : l < 1024) :
    readWord (modifyPtbl s p i k w).mem (ptblAddr pde l) =
      if entryFrame pde = entryFrame (s.pdirPool p i) ∧ l = k then w else readWord s.mem (ptblAddr pde l) := by
  by_cases same : entryFrame pde = entryFrame (s.pdirPool p i) ∧ l = k
  · have addr : ptblAddr pde l = ptblAddr (s.pdirPool p i) k := (ptblAddr_inj hl hk).2 same
    rw [if_pos same, addr]
    exact readWord_writeWord ..
  · rw [if_neg same]
    apply readWord_writeWord_ne
    · rw [toNat_ptblAddr _ hk]
      omega
    · rw [toNat_ptblAddr _ hl]
      omega
    · exact fun addr => same ((ptblAddr_inj hl hk).1 addr)

theorem readWord_clear (hl : l < 1024) (n : Nat) (hn : n ≤ 1024) :
    readWord (loop (fun m s => rmvPtblEntry s p i m) n s).mem (ptblAddr pde l) =
      if entryFrame pde = entryFrame (s.pdirPool p i) ∧ l < n then 0#32 else readWord s.mem (ptblAddr pde l) := by
  have dir (m : Nat) : (loop (fun m s => rmvPtblEntry s p i m) m s).pdirPool = s.pdirPool :=
    loop_preserves (fun t : VmState => t.pdirPool = s.pdirPool) rfl fun _ _ _ h => h
  induction n with
  | zero => simp [loop]
  | succ n ih =>
    rw [loop, rmvPtblEntry, readWord_modifyPtbl (by omega) hl, ih (by omega), dir]
    by_cases same : entryFrame pde = entryFrame (s.pdirPool p i)
    · by_cases last : l = n
      · simp [same, last]
      · have before : l < n + 1 ↔ l < n := by omega
        simp [same, last, before]
    · simp [same]

/-! ## Entries by virtual address, after a write -/

theorem pteIndexOf_lt (va : Word) : pteIndexOf va < 1024 := Nat.mod_lt _ (by decide)

theorem entryByVa_modifyPtbl (hk : k < 1024) (dir : s.pdirPool p i ≠ 0#32)
    (alone : s.pdirPool q (pdeIndexOf va) ≠ 0#32 →
      entryFrame (s.pdirPool q (pdeIndexOf va)) = entryFrame (s.pdirPool p i) → q = p ∧ pdeIndexOf va = i) :
    getPtblEntryByVa (modifyPtbl s p i k w) q va =
      if q = p ∧ pdeIndexOf va = i ∧ pteIndexOf va = k then w else getPtblEntryByVa s q va := by
  have same : getPdirEntry (modifyPtbl s p i k w) q (pdeIndexOf va) = s.pdirPool q (pdeIndexOf va) := rfl
  have entry : getPtblEntry (modifyPtbl s p i k w) q (pdeIndexOf va) (pteIndexOf va) =
      if entryFrame (s.pdirPool q (pdeIndexOf va)) = entryFrame (s.pdirPool p i) ∧ pteIndexOf va = k then w
      else getPtblEntry s q (pdeIndexOf va) (pteIndexOf va) :=
    readWord_modifyPtbl hk (pteIndexOf_lt va)
  unfold getPtblEntryByVa
  rw [same, entry, getPdirEntry]
  by_cases mapped : s.pdirPool q (pdeIndexOf va) = 0#32
  · rw [if_pos mapped, if_pos mapped, if_neg]
    rintro ⟨rfl, rfl, -⟩
    exact dir mapped
  · rw [if_neg mapped, if_neg mapped]
    refine if_congr ⟨?_, ?_⟩ rfl rfl
    · rintro ⟨frame, pte⟩
      obtain ⟨process, pde⟩ := alone mapped frame
      exact ⟨process, pde, pte⟩
    · rintro ⟨rfl, rfl, pte⟩
      exact ⟨rfl, pte⟩

theorem pdir_setPtblEntryByVa (s : VmState) (pid : Nat) (va : Word) (page perm : Nat) :
    (setPtblEntryByVa s pid va page perm).pdirPool = s.pdirPool := rfl

theorem pdir_installTable (s : VmState) (pid i f : Nat) :
    (installTable s pid i f).pdirPool = (setPdirEntry s pid i f).pdirPool :=
  loop_preserves (fun t : VmState => t.pdirPool = (setPdirEntry s pid i f).pdirPool) rfl fun _ _ _ h => h

theorem tableEntry_eq (f : Nat) : ofNat 32 (f * pageSize) + ptPermPtu = ofNat 32 (f * pageSize + 7) :=
  (BitVec.ofNat_add ..).symm

theorem tableEntry_ne_zero (f : Nat) : ofNat 32 (f * pageSize + 7) ≠ 0#32 := by
  intro zero
  have := congrArg BitVec.toNat zero
  simp only [BitVec.toNat_ofNat, pageSize] at this
  omega

theorem pdirEntry_installTable (s : VmState) (p i f q j : Nat) : (installTable s p i f).pdirPool q j =
      if q = p ∧ j = i then ofNat 32 (f * pageSize + 7) else s.pdirPool q j := by
  rw [pdir_installTable, setPdirEntry, tableEntry_eq, pdir_modifyPdir]

theorem pdir_installTable_self :
    getPdirEntryByVa (installTable s p (pdeIndexOf va) f) p va ≠ 0#32 := by
  rw [getPdirEntryByVa, getPdirEntry, pdirEntry_installTable, if_pos ⟨rfl, rfl⟩]
  exact tableEntry_ne_zero f

theorem pdir_allocPage {perm : Nat} (ne : ¬(q = p ∧ j = pdeIndexOf va)) :
    (allocPage s p va perm).1.pdirPool q j = s.pdirPool q j := by
  apply allocPage_preserves (fun t => t.pdirPool q j = s.pdirPool q j) rfl
  · intro t same
    rw [(containerAlloc_frame t p).1, same]
  · intro t f same
    rw [pdirEntry_installTable, if_neg ne, same]
  · exact fun _ _ same => same

theorem entryFrame_setPdirEntry (hf : f < 1048576) :
    entryFrame ((setPdirEntry s p i f).pdirPool p i) = f := by
  rw [setPdirEntry, tableEntry_eq, pdir_modifyPdir, if_pos ⟨rfl, rfl⟩, entryFrame_mk hf (by omega)]

theorem readWord_installTable (hf : f < 1048576) (hk : k < 1024) (pde : Word) :
    readWord (installTable s p i f).mem (ptblAddr pde k) =
      if entryFrame pde = f then 0#32 else readWord s.mem (ptblAddr pde k) := by
  rw [installTable, readWord_clear hk 1024 le_rfl, entryFrame_setPdirEntry hf]
  simp only [hk, and_true]
  rfl

theorem entryByVa_installTable (missing : s.pdirPool p i = 0#32) (hf : f < 1048576)
    (fresh : s.pdirPool q (pdeIndexOf va) ≠ 0#32 → entryFrame (s.pdirPool q (pdeIndexOf va)) ≠ f) :
    getPtblEntryByVa (installTable s p i f) q va = getPtblEntryByVa s q va := by
  unfold getPtblEntryByVa getPtblEntry
  rw [getPdirEntry, pdirEntry_installTable, readWord_installTable hf (pteIndexOf_lt va), getPdirEntry]
  by_cases here : q = p ∧ pdeIndexOf va = i
  · have before : s.pdirPool q (pdeIndexOf va) = 0#32 := by rw [here.1, here.2, missing]
    rw [if_pos here, if_neg (tableEntry_ne_zero f), entryFrame_mk hf (by omega), if_pos rfl, if_pos before]
  · rw [if_neg here]
    by_cases mapped : s.pdirPool q (pdeIndexOf va) = 0#32
    · rw [if_pos mapped, if_pos mapped]
    · rw [if_neg mapped, if_neg mapped, if_neg (fresh mapped)]

end Entries

end Certikos
