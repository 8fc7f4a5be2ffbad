import Certikos.Memory.FlatMap
import Certikos.Memory.UserView

/-!
# Absent entries are zero

In the states that the address spaces grow into, an entry of a process's tables is present or 0, so that a copy that
cannot have a page goes to page 0.
-/

namespace Certikos
open Lib

def AbsentZero (s : VmState) : Prop :=
  ∀ pid va, (1 ≤ pid ∧ pid < numIds) → userVa va → ¬present (getPtblEntryByVa s pid va) →
    getPtblEntryByVa s pid va = 0#32

structure Tidy (L : Layout) (s : VmState) : Prop where
  isolated : Isolated L s
  identity : IdentityDir L s
  absent : AbsentZero s

variable {L : Layout} {s : VmState} {pid : Nat} {va : Word}

theorem Tidy.account (h : Tidy L s) {s' : VmState} (isolated : Isolated L s') (dir : s'.pdirPool = s.pdirPool)
    (mem : s'.mem = s.mem) : Tidy L s' := by
  refine ⟨isolated, fun j hj => ?_, fun pid va hp user missing => ?_⟩
  · rw [dir]
    exact h.identity j hj
  · rw [getPtblEntryByVa_congr dir mem] at missing ⊢
    exact h.absent pid va hp user missing

theorem Tidy.distinctTables (h : Tidy L s) : DistinctTables s := h.isolated.distinctTables h.identity

theorem present_add (f perm : Nat) (hperm : present (BitVec.ofNat 32 perm)) :
    present (BitVec.ofNat 32 (f * pageSize + perm)) := by
  rw [present_iff, BitVec.toNat_ofNat] at *
  simp only [pageSize]
  omega

theorem Updates.absent {s' : VmState} {w : Word} (updates : Updates s s' pid va w) (entry : ¬present w → w = 0#32)
    (h : AbsentZero s) : AbsentZero s' := by
  intro q va' hq user
  rw [updates q va' hq.2]
  split
  · exact entry
  · exact h q va' hq user

theorem Tidy.absent_allocPage (h : Tidy L s) {perm : Nat} (hp : UserPid pid) (user : userVa va)
    (hperm : present (BitVec.ofNat 32 perm)) : AbsentZero (allocPage s pid va perm).1 := by
  have tidy : Tidy L (containerAlloc s pid).1 :=
    h.account (h.isolated.alloc pid).1 (containerAlloc_frame s pid).1 (containerAlloc_frame s pid).2
  unfold allocPage
  dsimp only
  split
  · exact tidy.absent
  · rcases tidy.distinctTables.mapPage hp user (containerAlloc s pid).2 perm with ⟨-, same⟩ | ⟨-, updates⟩
    · intro q va' hq user'
      rw [same]
      exact tidy.absent q va' hq user'
    · exact updates.absent (fun missing => absurd (present_add _ _ hperm) missing) tidy.absent

theorem entryByVa_freePtbl (s : VmState) (pid : Nat) (va : Word) (q : Nat) (va' : Word) :
    getPtblEntryByVa (freePtbl s pid va) q va' = 0#32 ∨
      getPtblEntryByVa (freePtbl s pid va) q va' = getPtblEntryByVa s q va' := by
  unfold freePtbl
  rw [getPtblEntryByVa_congr (containerFree_frame ..).1 (containerFree_frame ..).2]
  by_cases same : q = pid ∧ pdeIndexOf va' = pdeIndexOf va
  · refine .inl (if_pos ?_)
    rw [rmvPdirEntryByVa, rmvPdirEntry, getPdirEntry, pdir_modifyPdir, if_pos same]
  · refine .inr ?_
    unfold getPtblEntryByVa getPtblEntry getPdirEntry
    rw [rmvPdirEntryByVa, rmvPdirEntry, pdir_modifyPdir, if_neg same]
    rfl

theorem Tidy.exec (h : Tidy L s) {op : MapOp} (allowed : op.Allowed) : Tidy L (op.exec s) := by
  refine ⟨exec_isolated h.isolated allowed, exec_identityDir h.identity allowed, ?_⟩
  cases op with
  | allocPage pid va perm => exact h.absent_allocPage allowed.1 allowed.2.1 allowed.2.2.2
  | unmapPage pid va =>
    obtain ⟨-, updates, -⟩ := h.distinctTables.unmapPage allowed.1 allowed.2
    exact updates.absent (fun _ => rfl) h.absent
  | freePtbl pid va =>
    intro q va' hq user' missing
    rcases entryByVa_freePtbl s pid va q va' with zero | same
    · exact zero
    · refine same.trans (h.absent q va' hq user' ?_)
      rw [← same]
      exact missing
  | allocMemQuota id quota => exact h.absent

theorem pdirInitKern_tidy (L : Layout) (mmap : List MemRange) (s : VmState) : Tidy L (pdirInitKern L mmap s) := by
  refine ⟨pdirInitKern_isolated L mmap s, pdirInitKern_identityDir L mmap s, fun pid va hp user _ => if_pos ?_⟩
  obtain ⟨-, lo, hi⟩ := table_valid_va hp user
  rw [getPdirEntry, (pdirInitKern_frame L mmap s).2.2.2 pid _ (.inl (by omega)),
    pdirInit_pdir L mmap s hp.2 (by omega), initialPde, if_neg (by omega)]

/-! ## Writes to data -/

def edgeVa (va : Word) : Prop := va.toNat < pageSize ∨ 2 ^ 32 - pageSize ≤ va.toNat

def CopyVa (va : Word) : Prop := userVa va ∨ edgeVa va

theorem edgeVa.kernel (edge : edgeVa va) : KernelPde (pdeIndexOf va) := by
  unfold edgeVa at edge
  unfold KernelPde pdeIndexOf
  simp only [pageSize] at edge
  omega

theorem userVa_or_kernel (va : Word) : userVa va ∨ KernelPde (pdeIndexOf va) := by
  unfold userVa KernelPde pdeIndexOf
  simp only [vmUserlo, vmUserhi]
  omega

theorem Isolated.entry_kernel (h : Isolated L s) (hp : pid < numIds) (kernel : KernelPde (pdeIndexOf va)) :
    getPtblEntryByVa s pid va = identityPte (pdeIndexOf va) (pteIndexOf va) := by
  have dir := h.kernelDir pid _ hp kernel
  have nonzero : identityPde L (pdeIndexOf va) ≠ 0#32 := by
    intro zero
    have value := congrArg BitVec.toNat zero
    have below := L.below
    have lt := kernel.lt
    simp only [identityPde, BitVec.toNat_add, BitVec.toNat_ofNat, pageSize, vmUserlo, pteP, pteW, pteU] at value below
    omega
  rw [getPtblEntryByVa, dir, if_neg nonzero, getPtblEntry]
  unfold getPdirEntry at dir
  rw [dir]
  exact h.kernelTable _ _ kernel (pteIndexOf_lt va)

theorem Isolated.kernel (h : Isolated L s) (hp : pid < numIds) (kernel : KernelPde (pdeIndexOf va)) :
    present (getPtblEntryByVa s pid va) ∧ entryFrame (getPtblEntryByVa s pid va) = va.toNat / pageSize := by
  have number : (pdeIndexOf va * 1024 + pteIndexOf va) = va.toNat / pageSize := by
    simp only [pdeIndexOf, pteIndexOf, pageSize]
    omega
  rw [h.entry_kernel hp kernel, identityPte, number]
  refine ⟨present_add _ _ (by decide), entryFrame_mk ?_ (by decide)⟩
  simp only [pageSize]
  omega

theorem Isolated.userPa_kernel (h : Isolated L s) (hp : pid < numIds) (kernel : KernelPde (pdeIndexOf va)) :
    userPa s pid va = va := by
  apply BitVec.eq_of_toNat_eq
  rw [toNat_userPa, (h.kernel hp kernel).2, pageSize]
  omega

theorem Isolated.entryByVa_data (h : Isolated L s) {m : Mem} (data : ∀ x, m x ≠ s.mem x → Writable L s x)
    (hp : UserPid pid) (va : Word) :
    getPtblEntryByVa { s with mem := m } pid va = getPtblEntryByVa s pid va := by
  rcases userVa_or_kernel va with user | kernel
  · have entry := h.entry_write data (page_valid hp user)
    rwa [getPtblEntryByVa_page, getPtblEntryByVa_page] at entry
  · rw [(h.write data).entry_kernel hp.2 kernel, h.entry_kernel hp.2 kernel]

theorem Tidy.write (h : Tidy L s) {m : Mem} (data : ∀ x, m x ≠ s.mem x → Writable L s x) :
    Tidy L { s with mem := m } := by
  refine ⟨h.isolated.write data, h.identity, fun pid va hp user => ?_⟩
  rw [h.isolated.entryByVa_data data hp va]
  exact h.absent pid va hp user

theorem Tidy.pa_cases (h : Tidy L s) (hp : UserPid pid) (reach : CopyVa va) :
    (userVa va ∧ present (getPtblEntryByVa s pid va) ∧
      frameOf s (.page pid (va.toNat / pageSize)) = some (entryFrame (getPtblEntryByVa s pid va))) ∨
    (userVa va ∧ ¬present (getPtblEntryByVa s pid va) ∧ entryFrame (getPtblEntryByVa s pid va) = 0) ∨
    (edgeVa va ∧ present (getPtblEntryByVa s pid va) ∧ entryFrame (getPtblEntryByVa s pid va) = va.toNat / pageSize) := by
  rcases reach with user | edge
  · by_cases mapped : present (getPtblEntryByVa s pid va)
    · exact .inl ⟨user, mapped, frameOf_va hp user mapped⟩
    · refine .inr (.inl ⟨user, mapped, ?_⟩)
      rw [h.absent pid va hp user mapped]
      rfl
  · exact .inr (.inr ⟨edge, h.isolated.kernel hp.2 edge.kernel⟩)

theorem Tidy.behind (h : Tidy L s) (idptbl : pageSize ≤ L.idptbl.toNat) (hp : UserPid pid)
    (reach : CopyVa va) {x : Word} (frame : x.toNat / pageSize = entryFrame (getPtblEntryByVa s pid va)) :
    Writable L s x ∧ (x.toNat < pageSize ∨ vmUserlo ≤ x.toNat) := by
  have below := L.below
  rcases h.pa_cases hp reach with ⟨-, -, used⟩ | ⟨-, -, zero⟩ | ⟨edge, -, same⟩
  · have range := h.isolated.frame_range used
    refine ⟨.inl ⟨pid, _, frame ▸ used⟩, .inr ?_⟩
    simp only [vmUserloPi, vmUserlo, pageSize] at range frame ⊢
    omega
  · rw [zero] at frame
    simp only [vmUserlo, pageSize, Writable] at *
    omega
  · rw [same] at frame
    simp only [vmUserlo, vmUserhi, pageSize, Writable, edgeVa] at *
    omega

theorem Tidy.userPa_ne (h : Tidy L s) (hp : UserPid pid) (high : vmUserlo ≤ va.toNat) (reach : CopyVa va)
    (mapped : present (getPtblEntryByVa s pid va)) {a : Word} (other : CopyVa a) (ne : a ≠ va) :
    userPa s pid a ≠ userPa s pid va := by
  intro same
  have same := congrArg BitVec.toNat same
  have differ : a.toNat ≠ va.toNat := fun e => ne (BitVec.eq_of_toNat_eq e)
  rw [toNat_userPa, toNat_userPa] at same
  rcases h.pa_cases hp reach with ⟨user, -, used⟩ | ⟨-, missing, -⟩ | ⟨edge, -, frame⟩
  · have range := h.isolated.frame_range used
    rcases h.pa_cases hp other with ⟨-, -, used'⟩ | ⟨-, -, zero⟩ | ⟨edge', -, frame'⟩
    · have frames : entryFrame (getPtblEntryByVa s pid a) = entryFrame (getPtblEntryByVa s pid va) := by omega
      have pages := (Use.page.inj (h.isolated.injective (frames ▸ used') used)).2
      simp only [pageSize] at pages
      omega
    · simp only [vmUserloPi, vmUserlo, pageSize] at range
      omega
    · simp only [vmUserloPi, vmUserlo, vmUserhiPi, vmUserhi, pageSize, edgeVa] at range frame' edge'
      omega
  · exact missing mapped
  · rcases h.pa_cases hp other with ⟨-, -, used'⟩ | ⟨-, -, zero⟩ | ⟨edge', -, frame'⟩
    · have range := h.isolated.frame_range used'
      simp only [vmUserloPi, vmUserlo, vmUserhiPi, vmUserhi, pageSize, edgeVa] at high range frame edge
      omega
    · simp only [vmUserlo, pageSize, edgeVa] at high frame edge
      omega
    · simp only [pageSize] at frame frame'
      omega

theorem Tidy.touch (h : Tidy L s) (hp : UserPid pid) (reach : CopyVa va) (len : Word) :
    Tidy L (touchAt s pid va len).vm := by
  rw [touch_vm]
  split
  · exact h
  · rename_i missing
    rcases reach with user | edge
    · have allowed : (MapOp.allocPage pid va (pteP + pteU + pteW)).Allowed := ⟨hp, user, by decide, by decide⟩
      exact h.exec allowed
    · exact absurd (h.isolated.kernel hp.2 edge.kernel).1 missing

end Certikos
