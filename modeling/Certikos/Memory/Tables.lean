import Certikos.Memory.CopyOut

/-!
# Tables given back

`free_ptbl` after `alloc_ptbl` leaves the bytes of the page that was the table as the only trace.
-/

namespace Certikos
open Lib Function

def granted (s : VmState) (pid f : Nat) : VmState := { atSetAllocated (charge s pid) f 1 with lastPallocIndex := f }

section

variable {L : Layout} {s : VmState} {pid f : Nat} {va : Word}

theorem rmvPdirEntry_installTable {i : Nat} (missing : s.pdirPool pid i = 0#32) :
    rmvPdirEntry (installTable s pid i f) pid i = { s with mem := (installTable s pid i f).mem } := by
  have dir : (rmvPdirEntry (installTable s pid i f) pid i).pdirPool = s.pdirPool := by
    funext q j
    rw [rmvPdirEntry, pdir_modifyPdir]
    split
    · rename_i here
      rw [here.1, here.2, missing]
    · rename_i other
      rw [pdirEntry_installTable, if_neg other]
  obtain ⟨dir', mem, account⟩ := installTable_account s pid i f
  rw [account] at dir ⊢
  exact congrArg (fun d => ({ s with pdirPool := d, mem := mem } : VmState)) dir

theorem containerFree_granted {m : Mem} (free : atIsAllocated s f = 0) :
    containerFree { granted s pid f with mem := m } pid f =
      { if 0 < ((s.container pid).usage + 1).toInt then s else charge s pid with lastPallocIndex := f, mem := m } := by
  have flag : (s.allocTable f).allocated = 0 := by
    by_contra taken
    simp [atIsAllocated, taken] at free
  have entry : ({ s.allocTable f with allocated := 0 } : ATStruct) = s.allocTable f := by rw [← flag]
  have allocated : atIsAllocated { granted s pid f with mem := m } f ≠ 0 := by
    simp [atIsAllocated, granted, atSetAllocated, modifyAt]
  have usage : ((pfree { granted s pid f with mem := m } f).container pid).usage = (s.container pid).usage + 1 := by
    simp [pfree, granted, atSetAllocated, modifyAt, charge, modifyContainer]
  rw [containerFree, if_pos allocated]
  dsimp only
  rw [usage]
  split
  · simp [pfree, granted, atSetAllocated, modifyAt, modifyContainer, charge, entry]
  · simp [pfree, granted, atSetAllocated, modifyAt, modifyContainer, charge, entry]

theorem allocPtbl_found (found : (allocPtbl s pid va).2 ≠ 0) :
    ∃ f, Available s f ∧ allocPtbl s pid va = (installTable (granted s pid f) pid (pdeIndexOf va) f, f) := by
  rw [allocPtbl_eq] at found ⊢
  rcases containerAlloc_cases s pid with ⟨-, result⟩ | ⟨-, ⟨-, result⟩ | ⟨f, -, available, -, result⟩⟩
  · simp [result] at found
  · simp [result] at found
  · rw [result] at found ⊢
    refine ⟨f, available, if_pos ?_⟩
    intro zero
    change f = 0 at zero
    subst zero
    simp at found

theorem freePtbl_granted (missing : getPdirEntryByVa s pid va = 0#32) (free : atIsAllocated s f = 0)
    (small : f < 1048576) :
    freePtbl (installTable (granted s pid f) pid (pdeIndexOf va) f) pid va =
      { if 0 < ((s.container pid).usage + 1).toInt then s else charge s pid with
        lastPallocIndex := f, mem := (installTable (granted s pid f) pid (pdeIndexOf va) f).mem } := by
  have pde : getPdirEntryByVa (installTable (granted s pid f) pid (pdeIndexOf va) f) pid va =
      BitVec.ofNat 32 (f * pageSize + 7) := (pdirEntry_installTable ..).trans (if_pos ⟨rfl, rfl⟩)
  have frame : (BitVec.ofNat 32 (f * pageSize + 7)).toNat / pageSize = f := entryFrame_mk small (by decide)
  have absent : (granted s pid f).pdirPool pid (pdeIndexOf va) = 0#32 := missing
  rw [freePtbl, pde, frame, rmvPdirEntryByVa, rmvPdirEntry_installTable absent]
  exact containerFree_granted free

/-- The cursor of the allocator and the bytes of the page are all that `free_ptbl` does not put back. -/
theorem freePtbl_allocPtbl (h : Isolated L s) (missing : getPdirEntryByVa s pid va = 0#32)
    (found : (allocPtbl s pid va).2 ≠ 0) (counted : 0 < ((s.container pid).usage + 1).toInt) :
    (∀ k < 1024, getPtblEntry (allocPtbl s pid va).1 pid (pdeIndexOf va) k = 0#32) ∧
      freePtbl (allocPtbl s pid va).1 pid va =
        { s with lastPallocIndex := (allocPtbl s pid va).2, mem := (allocPtbl s pid va).1.mem } ∧
      (∀ x : Word, x.toNat / pageSize ≠ (allocPtbl s pid va).2 → (allocPtbl s pid va).1.mem x = s.mem x) ∧
      ∀ q va', (1 ≤ q ∧ q < numIds) → userVa va' →
        getPtblEntryByVa (freePtbl (allocPtbl s pid va).1 pid va) q va' = getPtblEntryByVa s q va' := by
  obtain ⟨f, available, result⟩ := allocPtbl_found found
  have range := h.normal f available.1 available.2.1
  have small : f < 1048576 := by
    simp only [vmUserhiPi, vmUserhi, pageSize] at range
    omega
  rw [result]
  have undone := freePtbl_granted missing available.2.2 small
  rw [if_pos counted] at undone
  have outside (x : Word) (other : x.toNat / pageSize ≠ f) :
      (installTable (granted s pid f) pid (pdeIndexOf va) f).mem x = s.mem x := mem_installTable small other
  refine ⟨?_, undone, outside, ?_⟩
  · intro k hk
    rw [getPtblEntry, pdir_installTable, installTable, readWord_clear hk 1024 le_rfl, if_pos ⟨rfl, hk⟩]
  · intro q va' hq user'
    rw [undone]
    unfold getPtblEntryByVa
    by_cases absent : getPdirEntry s q (pdeIndexOf va') = 0#32
    · exact (if_pos absent).trans (if_pos absent).symm
    · refine (if_neg absent).trans (Eq.trans ?_ (if_neg absent).symm)
      refine readWord_page (pteIndexOf_lt va') fun x here => outside x ?_
      -- a page that a table lies in is not free
      have valid : (Use.table q (pdeIndexOf va')).Valid := pdeIndexOf_eq va' ▸ table_valid (page_valid hq user')
      have used := (frameOf_table valid).2 ⟨absent, rfl⟩
      rintro rfl
      have taken := (h.owned _ _ used).2.2
      rw [← here, available.2.2] at taken
      cases taken

theorem allocPtbl_ne_zero (left : (s.container pid).usage ≠ (s.container pid).quota) (available : Available s f)
    (above : s.lastPallocIndex < f) : (allocPtbl s pid va).2 ≠ 0 := by
  rw [allocPtbl_eq]
  rcases containerAlloc_cases s pid with ⟨full, -⟩ | ⟨-, ⟨none, -⟩ | ⟨g, later, -, -, result⟩⟩
  · exact absurd full left
  · exact absurd available (none f above)
  · have nonzero : g ≠ 0 := by omega
    simp [result, nonzero]

end

def charged (s : VmState) (usage : Word) : VmState := { s with container := fun _ => ⟨100, usage, 0, 0, 1⟩ }

section

variable {m : Mem} {s : VmState} {usage : Word} (boot : JustBooted m 0x40000 s)
include boot

theorem JustBooted.charged_isolated : Isolated sampleLayout (charged s usage) :=
  boot.isolated.account rfl rfl rfl (fun _ => rfl) fun _ _ _ taken => taken

theorem JustBooted.charged_missing : getPdirEntryByVa (charged s usage) 1 0x40000000 = 0#32 :=
  boot.dir 1 256 (by decide)

theorem JustBooted.charged_found (left : usage ≠ 100) : (allocPtbl (charged s usage) 1 0x40000000).2 ≠ 0 := by
  have available : Available (charged s usage) 0x40001 := (boot.available 0x40001).mpr (by decide)
  apply allocPtbl_ne_zero left available
  change s.lastPallocIndex < 0x40001
  rw [boot.cursor]
  decide

end

theorem freePtbl_allocPtbl_boot :
    let s := charged (bootVm (fun _ => 0) 0x40000) 0
    (allocPtbl s 1 0x40000000).2 ≠ 0 ∧
      (freePtbl (allocPtbl s 1 0x40000000).1 1 0x40000000).container = s.container := by
  have boot := bootVm_justBooted (fun _ => 0) 0x40000
  generalize bootVm (fun _ => 0) 0x40000 = s at boot
  have found := boot.charged_found (show (0 : Word) ≠ 100 by decide)
  refine ⟨found, ?_⟩
  rw [(freePtbl_allocPtbl boot.charged_isolated boot.charged_missing found (show 0 < (0#32 + 1).toInt by decide)).2.1]

theorem freePtbl_overcounted :
    let s := charged (bootVm (fun _ => 0) 0x40000) 0x7fffffff
    Isolated sampleLayout s ∧ getPdirEntryByVa s 1 0x40000000 = 0#32 ∧ (allocPtbl s 1 0x40000000).2 ≠ 0 ∧
      ((freePtbl (allocPtbl s 1 0x40000000).1 1 0x40000000).container 1).usage ≠ (s.container 1).usage := by
  have boot := bootVm_justBooted (fun _ => 0) 0x40000
  generalize bootVm (fun _ => 0) 0x40000 = s at boot
  have found := boot.charged_found (show (0x7fffffff : Word) ≠ 100 by decide)
  refine ⟨boot.charged_isolated, boot.charged_missing, found, ?_⟩
  obtain ⟨f, available, result⟩ := allocPtbl_found found
  have range := boot.charged_isolated.normal f available.1 available.2.1
  simp only [vmUserhiPi, vmUserhi, pageSize] at range
  have wrapped : ¬0 < (((charged s 0x7fffffff).container 1).usage + 1).toInt :=
    show ¬0 < (0x7fffffff#32 + 1).toInt by decide
  rw [result, freePtbl_granted boot.charged_missing available.2.2 (by omega), if_neg wrapped]
  simp [charged, charge, modifyContainer]

end Certikos
