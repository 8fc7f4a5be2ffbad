import Certikos.Memory.Boot

/-!
# Page tables are maps

Seen through `get_ptbl_entry_by_va`, the page tables of all processes are one map from processes and virtual pages to
entries.
-/

namespace Certikos
open Lib

structure DistinctTables (s : VmState) : Prop where
  alone : ∀ pid i q j, (Use.table pid i).Valid → q < numIds → s.pdirPool pid i ≠ 0#32 → s.pdirPool q j ≠ 0#32 →
    j < 1024 → entryFrame (s.pdirPool q j) = entryFrame (s.pdirPool pid i) → q = pid ∧ j = i
  taken : ∀ q j, q < numIds → j < 1024 → s.pdirPool q j ≠ 0#32 → ¬Available s (entryFrame (s.pdirPool q j))

section

variable {s : VmState} {pid page perm : Nat} {va : Word}

theorem pdeIndexOf_lt (va : Word) : pdeIndexOf va < 1024 := by
  unfold pdeIndexOf
  omega

theorem vpage_eq_iff (va va' : Word) :
    va'.toNat / pageSize = va.toNat / pageSize ↔ pdeIndexOf va' = pdeIndexOf va ∧ pteIndexOf va' = pteIndexOf va := by
  simp only [pdeIndexOf, pteIndexOf, pageSize]
  omega

theorem table_valid_va (hp : UserPid pid) (user : userVa va) : (Use.table pid (pdeIndexOf va)).Valid :=
  pdeIndexOf_eq va ▸ table_valid (page_valid hp user)

theorem entryByVa_write {w : Word} (dir : s.pdirPool pid (pdeIndexOf va) ≠ 0#32)
    (alone : ∀ q j, q < numIds → j < 1024 → s.pdirPool q j ≠ 0#32 →
      entryFrame (s.pdirPool q j) = entryFrame (s.pdirPool pid (pdeIndexOf va)) → q = pid ∧ j = pdeIndexOf va)
    {q : Nat} (hq : q < numIds) (va' : Word) :
    getPtblEntryByVa (modifyPtbl s pid (pdeIndexOf va) (pteIndexOf va) w) q va' =
      if q = pid ∧ va'.toNat / pageSize = va.toNat / pageSize then w else getPtblEntryByVa s q va' := by
  rw [entryByVa_modifyPtbl (pteIndexOf_lt va) dir (alone q _ hq (pdeIndexOf_lt va'))]
  simp only [vpage_eq_iff]

theorem pdir_alloc (s : VmState) (pid : Nat) : (containerAlloc s pid).1.pdirPool = s.pdirPool :=
  (containerAlloc_frame s pid).1

theorem available_alloc (found : (containerAlloc s pid).2 ≠ 0) : Available s (containerAlloc s pid).2 := by
  rcases containerAlloc_cases s pid with ⟨-, result⟩ | ⟨-, ⟨-, result⟩ | ⟨f, -, available, -, result⟩⟩
  · exact absurd (by rw [result]) found
  · exact absurd (by rw [result]) found
  · rw [result]
    exact available

/-! ## Mapping and unmapping -/

def Updates (s s' : VmState) (pid : Nat) (va w : Word) : Prop :=
  ∀ q va', q < numIds → getPtblEntryByVa s' q va' =
    if q = pid ∧ va'.toNat / pageSize = va.toNat / pageSize then w else getPtblEntryByVa s q va'

theorem setPtblEntryByVa_updates (dir : s.pdirPool pid (pdeIndexOf va) ≠ 0#32)
    (alone : ∀ q j, q < numIds → j < 1024 → s.pdirPool q j ≠ 0#32 →
      entryFrame (s.pdirPool q j) = entryFrame (s.pdirPool pid (pdeIndexOf va)) → q = pid ∧ j = pdeIndexOf va) :
    Updates s (setPtblEntryByVa s pid va page perm) pid va (BitVec.ofNat 32 (page * pageSize + perm)) :=
  fun _ va' hq => entryByVa_write dir alone hq va'

section Operations

variable (h : DistinctTables s)
include h

theorem DistinctTables.alone_install (found : (containerAlloc s pid).2 ≠ 0) {q j : Nat} (hq : q < numIds)
    (hj : j < 1024) : let t := installTable (containerAlloc s pid).1 pid (pdeIndexOf va) (containerAlloc s pid).2
    t.pdirPool q j ≠ 0#32 → entryFrame (t.pdirPool q j) = entryFrame (t.pdirPool pid (pdeIndexOf va)) →
      q = pid ∧ j = pdeIndexOf va := by
  intro t nonzero frame
  have available := available_alloc found
  have lt : (containerAlloc s pid).2 < 1048576 := lt_of_lt_of_le available.1 s.numPages_le
  by_contra other
  have own := pdirEntry_installTable (containerAlloc s pid).1 pid (pdeIndexOf va) (containerAlloc s pid).2 pid
    (pdeIndexOf va)
  have its := pdirEntry_installTable (containerAlloc s pid).1 pid (pdeIndexOf va) (containerAlloc s pid).2 q j
  rw [if_pos ⟨rfl, rfl⟩] at own
  rw [if_neg other, pdir_alloc] at its
  rw [its, own, entryFrame_mk lt (by omega)] at frame
  rw [its] at nonzero
  exact h.taken q j hq hj nonzero (frame ▸ available)

variable (hp : UserPid pid) (user : userVa va)
include hp user

theorem DistinctTables.mapPage (page perm : Nat) : ((mapPage s pid va page perm).2 = magicNumber ∧
      ∀ q va', getPtblEntryByVa (mapPage s pid va page perm).1 q va' = getPtblEntryByVa s q va') ∨
    ((mapPage s pid va page perm).2 ≠ magicNumber ∧
      Updates s (mapPage s pid va page perm).1 pid va (BitVec.ofNat 32 (page * pageSize + perm))) := by
  have valid := table_valid_va hp user
  rcases mapPage_cases s pid va page perm with ⟨dir, result⟩ | ⟨missing, ⟨-, result⟩ | ⟨found, result⟩⟩
  · rw [result]
    refine .inr ⟨show 0 ≠ magicNumber by decide, setPtblEntryByVa_updates dir fun q j hq hj nonzero frame => ?_⟩
    exact h.alone pid _ q j valid hq dir nonzero hj frame
  · rw [result]
    exact .inl ⟨rfl, fun q va' => entryByVa_alloc s pid q va'⟩
  · rw [result]
    have available := available_alloc found
    have lt : (containerAlloc s pid).2 < 1048576 := lt_of_lt_of_le available.1 s.numPages_le
    refine .inr ⟨containerAlloc_ne_magic s pid, fun q va' hq => ?_⟩
    have written : Updates (installTable (containerAlloc s pid).1 pid (pdeIndexOf va) (containerAlloc s pid).2)
        (setPtblEntryByVa (installTable (containerAlloc s pid).1 pid (pdeIndexOf va) (containerAlloc s pid).2) pid va
          page perm) pid va (BitVec.ofNat 32 (page * pageSize + perm)) := by
      refine setPtblEntryByVa_updates ?_ fun q j hq hj => h.alone_install found hq hj
      rw [pdirEntry_installTable, if_pos ⟨rfl, rfl⟩]
      exact tableEntry_ne_zero _
    have installed : getPtblEntryByVa (installTable (containerAlloc s pid).1 pid (pdeIndexOf va) (containerAlloc s pid).2)
        q va' = getPtblEntryByVa (containerAlloc s pid).1 q va' := by
      refine entryByVa_installTable (by rw [pdir_alloc]; exact missing) lt ?_
      rw [pdir_alloc]
      intro nonzero frame
      exact h.taken q _ hq (pdeIndexOf_lt va') nonzero (frame ▸ available)
    rw [written q va' hq, installed, entryByVa_alloc]

theorem DistinctTables.unmapPage : (unmapPage s pid va).2 = getPtblEntryByVa s pid va ∧
    Updates s (unmapPage s pid va).1 pid va 0#32 ∧
    (getPtblEntryByVa s pid va = 0#32 → (unmapPage s pid va).1 = s) := by
  unfold Certikos.unmapPage
  by_cases entry : getPtblEntryByVa s pid va = 0#32
  · rw [if_neg (not_not.2 entry)]
    refine ⟨rfl, fun q va' _ => ?_, fun _ => rfl⟩
    split
    · rename_i same
      obtain ⟨pde, pte⟩ := (vpage_eq_iff va va').1 same.2
      rw [← entry, same.1, getPtblEntryByVa, pde, pte, getPtblEntryByVa]
    · rfl
  · rw [if_pos entry]
    have dir : s.pdirPool pid (pdeIndexOf va) ≠ 0#32 := fun missing => entry (if_pos missing)
    refine ⟨rfl, fun q va' hq => ?_, fun zero => absurd zero entry⟩
    refine entryByVa_write dir (fun q j hq hj nonzero frame => ?_) hq va'
    exact h.alone pid _ q j (table_valid_va hp user) hq dir nonzero hj frame

end Operations

end

/-- In a state with distinct tables. -/
theorem mapPage_unmapPage_flat {s : VmState} (h : DistinctTables s) {pid : Nat} (hp : 1 ≤ pid ∧ pid < numIds)
    {va : Word} (user : userVa va) :
    (∀ page perm, page < 1048576 → perm < 4096 →
      ((mapPage s pid va page perm).2 = magicNumber ∧
        ∀ q va', getPtblEntryByVa (mapPage s pid va page perm).1 q va' = getPtblEntryByVa s q va') ∨
      ((mapPage s pid va page perm).2 ≠ magicNumber ∧
        (getPtblEntryByVa (mapPage s pid va page perm).1 pid va).toNat = page * 4096 + perm ∧
        (∀ q va', q < numIds → (q, va'.toNat / 4096) ≠ (pid, va.toNat / 4096) →
          getPtblEntryByVa (mapPage s pid va page perm).1 q va' = getPtblEntryByVa s q va') ∧
        (getPdirEntryByVa s pid va = 0#32 → ∀ va', pdeIndexOf va' = pdeIndexOf va → pteIndexOf va' ≠ pteIndexOf va →
          getPtblEntryByVa (mapPage s pid va page perm).1 pid va' = 0#32))) ∧
    (unmapPage s pid va).2 = getPtblEntryByVa s pid va ∧
    getPtblEntryByVa (unmapPage s pid va).1 pid va = 0#32 ∧
    (∀ q va', q < numIds → (q, va'.toNat / 4096) ≠ (pid, va.toNat / 4096) →
      getPtblEntryByVa (unmapPage s pid va).1 q va' = getPtblEntryByVa s q va') ∧
    (getPtblEntryByVa s pid va = 0#32 → (unmapPage s pid va).1 = s) := by
  have elsewhere {s' : VmState} {w : Word} (updates : Updates s s' pid va w) (q : Nat) (va' : Word) (hq : q < numIds)
      (other : (q, va'.toNat / 4096) ≠ (pid, va.toNat / 4096)) :
      getPtblEntryByVa s' q va' = getPtblEntryByVa s q va' := by
    rw [updates q va' hq, if_neg fun same => other (Prod.ext same.1 same.2)]
  have here {s' : VmState} {w : Word} (updates : Updates s s' pid va w) : getPtblEntryByVa s' pid va = w := by
    rw [updates pid va hp.2, if_pos ⟨rfl, rfl⟩]
  constructor
  · intro page perm hpage hperm
    rcases h.mapPage hp user page perm with failed | ⟨done, updates⟩
    · exact .inl failed
    · refine .inr ⟨done, ?_, elsewhere updates, fun missing va' pde pte => ?_⟩
      · rw [here updates, BitVec.toNat_ofNat, pageSize]
        omega
      · rw [elsewhere updates pid va' hp.2]
        · exact if_pos (pde ▸ missing)
        · intro same
          exact pte ((vpage_eq_iff va va').1 (Prod.ext_iff.1 same).2).2
  · obtain ⟨entry, updates, absent⟩ := h.unmapPage hp user
    exact ⟨entry, here updates, elsewhere updates, absent⟩

/-! ## Where tables are distinct -/

section Reachable

variable {L : Layout} {s : VmState}

def IdentityDir (L : Layout) (s : VmState) : Prop := ∀ j, j < 1024 → s.pdirPool 0 j = identityPde L j

theorem Isolated.distinctTables (h : Isolated L s) (identity : IdentityDir L s) : DistinctTables s := by
  -- a directory entry is that of a table of a process, or one of the identity map
  have split (q j : Nat) (hq : q < numIds) (hj : j < 1024) :
      (Use.table q j).Valid ∨ s.pdirPool q j = identityPde L j := by
    by_cases user : 1 ≤ q ∧ 256 ≤ j ∧ j < 960
    · exact .inl ⟨⟨user.1, hq⟩, user.2⟩
    · by_cases zero : q = 0
      · exact .inr (zero ▸ identity j hj)
      · refine .inr (h.kernelDir q j hq ?_)
        unfold KernelPde
        omega
  constructor
  · intro pid i q j valid hq dir nonzero hj frame
    have used := (frameOf_table valid).2 ⟨dir, rfl⟩
    rcases split q j hq hj with other | kernel
    · have tables := h.injective ((frameOf_table other).2 ⟨nonzero, frame⟩) used
      exact Use.table.inj tables
    · have low := entryFrame_identityPde_lt L hj
      have high := (h.frame_range used).1
      rw [kernel] at frame
      omega
  · intro q j hq hj nonzero available
    rcases split q j hq hj with other | kernel
    · have owned := (h.owned _ _ ((frameOf_table other).2 ⟨nonzero, rfl⟩)).2.2
      rw [available.2.2] at owned
      contradiction
    · have low := entryFrame_identityPde_lt L hj
      have range := (h.normal _ available.1 available.2.1).2.1
      rw [kernel] at range
      omega

theorem pdirInitKern_identityDir (L : Layout) (mmap : List MemRange) (s : VmState) :
    IdentityDir L (pdirInitKern L mmap s) := by
  intro j hj
  by_cases kernel : KernelPde j
  · have same := (pdirInitKern_frame L mmap s).2.2.2 0 j (.inr kernel)
    rw [same, pdirInit_pdir L mmap s (by decide) hj, initialPde, if_pos]
    rcases kernel with low | high
    · exact .inl low
    · exact .inr high.1
  · unfold KernelPde at kernel
    have written : ∀ i < 960 - 256, (pdirInitKern L mmap s).pdirPool 0 (256 + i) = identityPde L (256 + i) := by
      refine loop_invariant (fun n (t : VmState) => ∀ i < n, t.pdirPool 0 (256 + i) = identityPde L (256 + i))
        (fun i hi => absurd hi (by omega)) fun n t _ below i hi => ?_
      rw [setPdirEntryIdentity, pdir_modifyPdir]
      split
      · rename_i last
        rw [last.2]
      · rename_i other
        exact below i (by omega)
    have entry := written (j - 256) (by omega)
    rwa [Nat.add_sub_cancel' (by omega)] at entry

theorem exec_identityDir {op : MapOp} (h : IdentityDir L s) (allowed : op.Allowed) : IdentityDir L (op.exec s) := by
  intro j hj
  refine Eq.trans ?_ (h j hj)
  cases op with
  | allocPage pid va perm =>
    have other : 0 ≠ pid := ne_of_lt allowed.1.1
    exact pdir_allocPage fun same => other same.1
  | unmapPage pid va =>
    change (Certikos.unmapPage s pid va).1.pdirPool 0 j = _
    unfold Certikos.unmapPage
    dsimp only
    split
    · rfl
    · rfl
  | freePtbl pid va =>
    have other : 0 ≠ pid := ne_of_lt allowed.1.1
    change (containerFree _ pid _).pdirPool 0 j = _
    rw [(containerFree_frame ..).1, rmvPdirEntryByVa, rmvPdirEntry, pdir_modifyPdir, if_neg fun same => other same.1]
  | allocMemQuota id quota => rfl

theorem mapPage_unmapPage_flat_booted :
    let s := pdirInitKern sampleLayout sampleMap blankVm
    ((mapPage s 1 0x40000000#32 0x40010 7).2 = magicNumber ∨
      (getPtblEntryByVa (mapPage s 1 0x40000000#32 0x40010 7).1 1 0x40000000#32).toNat = 0x40010 * 4096 + 7) ∧
    getPtblEntryByVa (unmapPage s 1 0x40000000#32).1 1 0x40000000#32 = 0#32 := by
  intro s
  have distinct : DistinctTables s :=
    (pdirInitKern_isolated sampleLayout sampleMap blankVm).distinctTables
      (pdirInitKern_identityDir sampleLayout sampleMap blankVm)
  obtain ⟨mapped, -, unmapped, -⟩ :=
    @mapPage_unmapPage_flat s distinct 1 (by decide) 0x40000000#32 (by decide)
  refine ⟨?_, unmapped⟩
  rcases mapped 0x40010 7 (by decide) (by decide) with ⟨failed, -⟩ | ⟨-, entry, -⟩
  · exact .inl failed
  · exact .inr entry

end Reachable

end Certikos
