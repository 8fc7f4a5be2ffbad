import Certikos.Memory.PageTable
import Certikos.Lib.PartialInj

/-!
# Address spaces do not share memory

Every page that a process uses, as a second-level table or behind one of its virtual pages, is used once in the whole
system, is normal and is marked allocated.
-/

namespace Certikos
open Lib

abbrev vmUserloPi : Nat := vmUserlo / pageSize
abbrev vmUserhiPi : Nat := vmUserhi / pageSize

inductive Use
  | table (pid pdeIndex : Nat)
  | page (pid vpage : Nat)
  deriving DecidableEq

def Use.Valid : Use → Prop
  | .table pid pdeIndex => (1 ≤ pid ∧ pid < numIds) ∧ 256 ≤ pdeIndex ∧ pdeIndex < 960
  | .page pid vpage => (1 ≤ pid ∧ pid < numIds) ∧ vmUserloPi ≤ vpage ∧ vpage < vmUserhiPi

instance : (u : Use) → Decidable u.Valid
  | .table _ _ => inferInstanceAs (Decidable (_ ∧ _))
  | .page _ _ => inferInstanceAs (Decidable (_ ∧ _))

def present (entry : Word) : Prop := entry &&& BitVec.ofNat 32 pteP ≠ 0#32
deriving Decidable

def frameOf (s : VmState) (u : Use) : Option Nat :=
  if u.Valid then
    match u with
    | .table pid pdeIndex =>
      if getPdirEntry s pid pdeIndex = 0#32 then none else some (entryFrame (getPdirEntry s pid pdeIndex))
    | .page pid vpage =>
      let entry := getPtblEntryByVa s pid (BitVec.ofNat 32 (vpage * pageSize))
      if present entry then some (entryFrame entry) else none
  else none

theorem pdeIndexOf_vpage {vpage : Nat} (h : vpage < 1048576) :
    pdeIndexOf (BitVec.ofNat 32 (vpage * pageSize)) = vpage / 1024 := by
  rw [pdeIndexOf, BitVec.toNat_ofNat, pageSize]
  omega

theorem pteIndexOf_vpage (vpage : Nat) : pteIndexOf (BitVec.ofNat 32 (vpage * pageSize)) = vpage % 1024 := by
  rw [pteIndexOf, BitVec.toNat_ofNat, pageSize]
  omega

theorem getPtblEntryByVa_vpage (s : VmState) (pid : Nat) {vpage : Nat} (h : vpage < 1048576) :
    getPtblEntryByVa s pid (BitVec.ofNat 32 (vpage * pageSize)) =
      if getPdirEntry s pid (vpage / 1024) = 0#32 then 0#32
      else getPtblEntry s pid (vpage / 1024) (vpage % 1024) := by
  rw [getPtblEntryByVa, pdeIndexOf_vpage h, pteIndexOf_vpage]

section Frames

variable {s s' : VmState} {pid i k v f g : Nat} {u : Use} {w : Word}

theorem valid_of_frameOf (h : frameOf s u = some f) : u.Valid := by
  by_contra invalid
  simp [frameOf, invalid] at h

theorem frameOf_table (valid : (Use.table pid i).Valid) :
    frameOf s (.table pid i) = some f ↔ s.pdirPool pid i ≠ 0#32 ∧ entryFrame (s.pdirPool pid i) = f := by
  simp only [frameOf, if_pos valid, getPdirEntry]
  by_cases dir : s.pdirPool pid i = 0#32 <;> simp [dir]

theorem vpage_lt (valid : (Use.page pid v).Valid) : v < 1048576 := by
  have := valid.2.2
  simp only [vmUserhiPi, vmUserhi, pageSize] at this
  omega

theorem table_valid (valid : (Use.page pid v).Valid) : (Use.table pid (v / 1024)).Valid := by
  obtain ⟨hp, lo, hi⟩ := valid
  simp only [vmUserloPi, vmUserlo, vmUserhiPi, vmUserhi, pageSize] at lo hi
  exact ⟨hp, by omega, by omega⟩

theorem frameOf_page (valid : (Use.page pid v).Valid) :
    frameOf s (.page pid v) = some f ↔ s.pdirPool pid (v / 1024) ≠ 0#32 ∧
      present (getPtblEntry s pid (v / 1024) (v % 1024)) ∧
      entryFrame (getPtblEntry s pid (v / 1024) (v % 1024)) = f := by
  simp only [frameOf, if_pos valid, getPtblEntryByVa_vpage s pid (vpage_lt valid), getPdirEntry]
  by_cases dir : s.pdirPool pid (v / 1024) = 0#32
  · simp [dir, present]
  · simp [dir]

theorem frameOf_congr (dir : s'.pdirPool = s.pdirPool) (mem : s'.mem = s.mem) : frameOf s' = frameOf s := by
  cases s
  cases s'
  cases dir
  cases mem
  rfl

theorem frameOf_modifyPtbl (inj : PartialInj (frameOf s)) (valid : (Use.page pid v).Valid)
    (dir : s.pdirPool pid (v / 1024) ≠ 0#32) (h : frameOf (modifyPtbl s pid (v / 1024) (v % 1024) w) u = some g) :
    u = .page pid v ∧ present w ∧ entryFrame w = g ∨ u ≠ .page pid v ∧ frameOf s u = some g := by
  have uValid := valid_of_frameOf h
  cases u with
  | table q j => exact .inr ⟨by simp, h⟩
  | page q x =>
    obtain ⟨dir', entry, frame⟩ := (frameOf_page uValid).1 h
    rw [getPtblEntry, readWord_modifyPtbl (Nat.mod_lt _ (by omega)) (Nat.mod_lt _ (by omega))] at entry frame
    by_cases same : entryFrame (s.pdirPool q (x / 1024)) = entryFrame (s.pdirPool pid (v / 1024)) ∧
        x % 1024 = v % 1024
    · rw [show (modifyPtbl s pid (v / 1024) (v % 1024) w).pdirPool = s.pdirPool from rfl, if_pos same]
        at entry frame
      have tables := inj ((frameOf_table (table_valid uValid)).2 ⟨dir', same.1⟩)
        ((frameOf_table (table_valid valid)).2 ⟨dir, rfl⟩)
      obtain ⟨rfl, quot⟩ := Use.table.inj tables
      have : x = v := by omega
      exact .inl ⟨by rw [this], entry, frame⟩
    · rw [show (modifyPtbl s pid (v / 1024) (v % 1024) w).pdirPool = s.pdirPool from rfl, if_neg same]
        at entry frame
      refine .inr ⟨?_, (frameOf_page uValid).2 ⟨dir', entry, frame⟩⟩
      rintro ⟨rfl, rfl⟩
      exact same ⟨rfl, rfl⟩

theorem installTable_account (s : VmState) (pid i f : Nat) :
    ∃ dir mem, installTable s pid i f = { s with pdirPool := dir, mem := mem } := by
  refine loop_preserves (fun t : VmState => ∃ dir mem, t = { s with pdirPool := dir, mem := mem })
    ⟨_, _, rfl⟩ ?_
  rintro k t - ⟨dir, mem, rfl⟩
  exact ⟨_, _, rfl⟩

theorem frameOf_installTable (hf : f < 1048576)
    (fresh : ∀ u, frameOf s u ≠ some f) (h : frameOf (installTable s pid i f) u = some g) :
    u = .table pid i ∧ g = f ∨ frameOf s u = some g := by
  have uValid := valid_of_frameOf h
  cases u with
  | table q j =>
    obtain ⟨nonzero, frame⟩ := (frameOf_table uValid).1 h
    rw [pdirEntry_installTable] at nonzero frame
    by_cases here : q = pid ∧ j = i
    · rw [if_pos here, entryFrame_mk hf (by omega)] at frame
      exact .inl ⟨by rw [here.1, here.2], frame.symm⟩
    · rw [if_neg here] at nonzero frame
      exact .inr ((frameOf_table uValid).2 ⟨nonzero, frame⟩)
  | page q x =>
    obtain ⟨nonzero, entry, frame⟩ := (frameOf_page uValid).1 h
    have mod : x % 1024 < 1024 := Nat.mod_lt _ (by omega)
    rw [getPtblEntry, readWord_installTable hf mod, pdirEntry_installTable] at entry frame
    rw [pdirEntry_installTable] at nonzero
    by_cases here : q = pid ∧ x / 1024 = i
    · rw [if_pos here, entryFrame_mk hf (by omega), if_pos rfl] at entry
      simp [present] at entry
    · rw [if_neg here] at nonzero entry frame
      have other : entryFrame (s.pdirPool q (x / 1024)) ≠ f := fun e =>
        fresh (.table q (x / 1024)) ((frameOf_table (table_valid uValid)).2 ⟨nonzero, e⟩)
      rw [if_neg other] at entry frame
      exact .inr ((frameOf_page uValid).2 ⟨nonzero, entry, frame⟩)

theorem frameOf_rmvPdirEntry (h : frameOf (rmvPdirEntry s pid i) u = some g) :
    u ≠ .table pid i ∧ frameOf s u = some g := by
  have uValid := valid_of_frameOf h
  have dir (q j) : (rmvPdirEntry s pid i).pdirPool q j =
      if q = pid ∧ j = i then 0#32 else s.pdirPool q j := by
    rw [rmvPdirEntry, pdir_modifyPdir]
  cases u with
  | table q j =>
    obtain ⟨nonzero, frame⟩ := (frameOf_table uValid).1 h
    rw [dir] at nonzero frame
    by_cases here : q = pid ∧ j = i
    · simp [here] at nonzero
    · rw [if_neg here] at nonzero frame
      refine ⟨?_, (frameOf_table uValid).2 ⟨nonzero, frame⟩⟩
      rintro ⟨rfl, rfl⟩
      exact here ⟨rfl, rfl⟩
  | page q x =>
    obtain ⟨nonzero, entry, frame⟩ := (frameOf_page uValid).1 h
    rw [getPtblEntry, dir] at entry frame
    rw [dir] at nonzero
    by_cases here : q = pid ∧ x / 1024 = i
    · simp [here] at nonzero
    · rw [if_neg here] at nonzero entry frame
      exact ⟨by simp, (frameOf_page uValid).2 ⟨nonzero, entry, frame⟩⟩

end Frames

/-! ## The invariant -/

def KernelPde (pdeIndex : Nat) : Prop := pdeIndex < 256 ∨ 960 ≤ pdeIndex ∧ pdeIndex < 1024

def identityPte (pdeIndex pteIndex : Nat) : Word :=
  BitVec.ofNat 32 ((pdeIndex * 1024 + pteIndex) * pageSize + (pteP + pteW + pteG))

structure Isolated (L : Layout) (s : VmState) : Prop where
  injective : PartialInj (frameOf s)
  owned : ∀ u f, frameOf s u = some f → f < getNps s ∧ atIsNorm s f = 1 ∧ atIsAllocated s f = 1
  normal : ∀ f, f < getNps s → atIsNorm s f = 1 →
    (s.allocTable f).perm = 2 ∧ vmUserloPi ≤ f ∧ f < vmUserhiPi
  kernelDir : ∀ pid j, pid < numIds → KernelPde j → getPdirEntry s pid j = identityPde L j
  kernelTable : ∀ j k, KernelPde j → k < 1024 →
    readWord s.mem (ptblAddr (identityPde L j) k) = identityPte j k

structure Fresh (s : VmState) (f : Nat) : Prop where
  lt : f < getNps s
  norm : atIsNorm s f = 1
  allocated : atIsAllocated s f = 1
  unused : ∀ u, frameOf s u ≠ some f

variable {va : Word}

section Preservation

variable {L : Layout} {s s' : VmState} {pid i v f g perm : Nat}

theorem entryFrame_identityPde (L : Layout) {j : Nat} (hj : j < 1024) :
    entryFrame (identityPde L j) = L.idptbl.toNat / pageSize + j := by
  have := L.below
  have := L.aligned
  simp only [vmUserlo, pageSize] at *
  simp only [entryFrame, identityPde, BitVec.toNat_add, BitVec.toNat_ofNat, pageSize, pteP, pteW, pteU]
  omega

theorem entryFrame_identityPde_lt (L : Layout) {j : Nat} (hj : j < 1024) :
    entryFrame (identityPde L j) < vmUserloPi := by
  have := L.below
  rw [entryFrame_identityPde L hj]
  simp only [vmUserloPi, vmUserlo, pageSize] at *
  omega

theorem KernelPde.lt {j : Nat} (h : KernelPde j) : j < 1024 := by
  rcases h with h | h <;> omega

theorem KernelPde.other {q j : Nat} (kernel : KernelPde j) (valid : (Use.table pid i).Valid) : ¬(q = pid ∧ j = i) := by
  rintro ⟨rfl, rfl⟩
  rcases kernel with low | high
  · exact absurd valid.2.1 (by omega)
  · exact absurd valid.2.2 (by omega)

section

variable (h : Isolated L s)
include h

theorem Isolated.frame_range {u : Use} (used : frameOf s u = some f) : vmUserloPi ≤ f ∧ f < vmUserhiPi :=
  (h.normal f (h.owned u f used).1 (h.owned u f used).2.1).2

theorem Isolated.fresh_range (fresh : Fresh s f) : vmUserloPi ≤ f ∧ f < vmUserhiPi :=
  (h.normal f fresh.lt fresh.norm).2

theorem Isolated.account (dir : s'.pdirPool = s.pdirPool) (mem : s'.mem = s.mem)
    (nps : getNps s' = getNps s) (perms : ∀ f, (s'.allocTable f).perm = (s.allocTable f).perm)
    (kept : ∀ u f, frameOf s u = some f → atIsAllocated s f = 1 → atIsAllocated s' f = 1) : Isolated L s' := by
  have norm (f) : atIsNorm s' f = atIsNorm s f := by simp only [atIsNorm, perms]
  refine ⟨frameOf_congr dir mem ▸ h.injective, fun u f used => ?_, fun f lt hf => ?_, ?_, ?_⟩
  · rw [frameOf_congr dir mem] at used
    obtain ⟨lt, hn, ha⟩ := h.owned u f used
    exact ⟨nps ▸ lt, norm f ▸ hn, kept u f used ha⟩
  · rw [perms]
    exact h.normal f (nps ▸ lt) (norm f ▸ hf)
  · intro pid j
    rw [getPdirEntry, dir]
    exact h.kernelDir pid j
  · rw [mem]
    exact h.kernelTable

theorem Isolated.writeEntry (valid : (Use.page pid v).Valid)
    (dir : s.pdirPool pid (v / 1024) ≠ 0#32) {w : Word} (fresh : present w → Fresh s (entryFrame w)) :
    Isolated L (modifyPtbl s pid (v / 1024) (v % 1024) w) := by
  have table : frameOf s (.table pid (v / 1024)) = some (entryFrame (s.pdirPool pid (v / 1024))) :=
    (frameOf_table (table_valid valid)).2 ⟨dir, rfl⟩
  refine ⟨?_, fun u g used => ?_, h.normal, h.kernelDir, fun j k kernel hk => ?_⟩
  · by_cases hw : present w
    · refine h.injective.grant (u := .page pid v) (fresh hw).unused fun u g used => ?_
      rcases frameOf_modifyPtbl h.injective valid dir used with ⟨e, -, frame⟩ | ⟨-, old⟩
      · exact .inl ⟨e, frame.symm⟩
      · exact .inr old
    · refine h.injective.drop fun u g used => ?_
      rcases frameOf_modifyPtbl h.injective valid dir used with ⟨-, hw', -⟩ | ⟨-, old⟩
      · exact absurd hw' hw
      · exact old
  · rcases frameOf_modifyPtbl h.injective valid dir used with ⟨-, hw, rfl⟩ | ⟨-, old⟩
    · exact ⟨(fresh hw).lt, (fresh hw).norm, (fresh hw).allocated⟩
    · exact h.owned u g old
  · -- the identity tables lie below every page that holds a table of a process
    have low := entryFrame_identityPde_lt L kernel.lt
    have high := (h.frame_range table).1
    rw [readWord_modifyPtbl (Nat.mod_lt _ (by omega)) hk, if_neg (by omega)]
    exact h.kernelTable j k kernel hk

theorem Isolated.install (valid : (Use.table pid i).Valid) (fresh : Fresh s f) :
    Isolated L (installTable s pid i f) := by
  have range := h.fresh_range fresh
  simp only [vmUserloPi, vmUserlo, vmUserhiPi, vmUserhi, pageSize] at range
  have hf : f < 1048576 := by omega
  obtain ⟨dir, mem, account⟩ := installTable_account s pid i f
  have nps : getNps (installTable s pid i f) = getNps s := by rw [account]; rfl
  have table : (installTable s pid i f).allocTable = s.allocTable := by rw [account]
  have cases (u g) (used : frameOf (installTable s pid i f) u = some g) :=
    frameOf_installTable hf fresh.unused used
  refine ⟨h.injective.grant fresh.unused cases, fun u g used => ?_, fun g lt norm => ?_, fun q j hq kernel => ?_,
    fun j k kernel hk => ?_⟩
  · rw [nps, atIsNorm, atIsAllocated, table]
    rcases cases u g used with ⟨-, rfl⟩ | old
    · exact ⟨fresh.lt, fresh.norm, fresh.allocated⟩
    · exact h.owned u g old
  · rw [nps] at lt
    rw [atIsNorm, table] at norm
    rw [table]
    exact h.normal g lt norm
  · rw [getPdirEntry, pdirEntry_installTable, if_neg (kernel.other valid)]
    exact h.kernelDir q j hq kernel
  · have low := entryFrame_identityPde_lt L kernel.lt
    simp only [vmUserloPi, vmUserlo, pageSize] at low
    rw [readWord_installTable hf hk, if_neg (by omega)]
    exact h.kernelTable j k kernel hk

/-! ## Allocation and release -/

theorem Isolated.alloc (pid : Nat) : Isolated L (containerAlloc s pid).1 ∧
      ((containerAlloc s pid).2 ≠ 0 → Fresh (containerAlloc s pid).1 (containerAlloc s pid).2) ∧
      ∀ g, Fresh s g → Fresh (containerAlloc s pid).1 g ∧ g ≠ (containerAlloc s pid).2 := by
  have nonzero (g) (fresh : Fresh s g) : g ≠ 0 := by
    have low := (h.fresh_range fresh).1
    simp only [vmUserloPi, vmUserlo, pageSize] at low
    omega
  rcases containerAlloc_cases s pid with ⟨-, result⟩ | ⟨-, ⟨-, result⟩ | ⟨f, -, available, -, result⟩⟩
  · rw [result]
    exact ⟨h, fun zero => absurd rfl zero, fun g fresh => ⟨fresh, nonzero g fresh⟩⟩
  · rw [result]
    refine ⟨h.account rfl rfl rfl (fun _ => rfl) fun _ _ _ ha => ha, fun zero => absurd rfl zero, fun g fresh => ?_⟩
    exact ⟨⟨fresh.lt, fresh.norm, fresh.allocated, fresh.unused⟩, nonzero g fresh⟩
  · rw [result]
    have norm (g) : atIsNorm { atSetAllocated (charge s pid) f 1 with lastPallocIndex := f } g = atIsNorm s g :=
      norm_setAllocated (charge s pid) f g 1
    have allocated (g) : atIsAllocated { atSetAllocated (charge s pid) f 1 with lastPallocIndex := f } g =
        if g = f then 1 else atIsAllocated s g :=
      allocated_setAllocated (charge s pid) f g 1
    have kept (g) (ha : atIsAllocated s g = 1) :
        atIsAllocated { atSetAllocated (charge s pid) f 1 with lastPallocIndex := f } g = 1 := by
      rw [allocated, ha, ite_self]
    refine ⟨h.account rfl rfl rfl (perm_setAllocated (charge s pid) f · 1) fun _ g _ => kept g, fun _ => ?_,
      fun g fresh => ?_⟩
    · refine ⟨available.1, (norm f).trans available.2.1, by rw [allocated, if_pos rfl], fun u used => ?_⟩
      -- a page in use was allocated already, and this one was not
      have := (h.owned u f used).2.2
      simp [available.2.2] at this
    · refine ⟨⟨fresh.lt, (norm g).trans fresh.norm, kept g fresh.allocated, fresh.unused⟩, ?_⟩
      rintro rfl
      have := fresh.allocated
      simp [available.2.2] at this

theorem Isolated.free (unused : ∀ u, frameOf s u ≠ some f) : Isolated L (containerFree s pid f) := by
  have perms (g) : ((atSetAllocated s f 0).allocTable g).perm = (s.allocTable g).perm :=
    perm_setAllocated s f g 0
  have kept (u g) (used : frameOf s u = some g) (ha : atIsAllocated s g = 1) :
      atIsAllocated (atSetAllocated s f 0) g = 1 := by
    have hg : g ≠ f := fun e => unused u (e ▸ used)
    rw [allocated_setAllocated, if_neg hg, ha]
  unfold containerFree
  split
  · dsimp only [pfree]
    split
    · exact h.account rfl rfl rfl perms kept
    · exact h.account rfl rfl rfl perms kept
  · exact h

end

/-! ## The operations -/

def userVa (va : Word) : Prop := vmUserlo ≤ va.toNat ∧ va.toNat < vmUserhi
deriving Decidable

theorem page_valid (hp : UserPid pid) (user : userVa va) : (Use.page pid (va.toNat / pageSize)).Valid := by
  refine ⟨hp, ?_, ?_⟩ <;> simp only [userVa, vmUserloPi, vmUserhiPi, vmUserlo, vmUserhi, pageSize] at * <;> omega

theorem pdeIndexOf_eq (va : Word) : pdeIndexOf va = va.toNat / pageSize / 1024 := by
  rw [pdeIndexOf, Nat.div_div_eq_div_mul]

theorem Fresh.install (fresh : Fresh s g) (lt : f < 1048576) (unused : ∀ u, frameOf s u ≠ some f)
    (ne : g ≠ f) : Fresh (installTable s pid i f) g := by
  obtain ⟨dir, mem, account⟩ := installTable_account s pid i f
  refine ⟨?_, ?_, ?_, fun u used => ?_⟩
  · rw [account]
    exact fresh.lt
  · rw [account]
    exact fresh.norm
  · rw [account]
    exact fresh.allocated
  · rcases frameOf_installTable lt unused used with ⟨-, e⟩ | old
    · exact ne e
    · exact fresh.unused u old

section

variable (h : Isolated L s) (hp : UserPid pid) (user : userVa va)
include h hp user

theorem Isolated.map (hperm : perm < 4096) (fresh : Fresh s f) : Isolated L (mapPage s pid va f perm).1 := by
  have valid := page_valid hp user
  have pde := pdeIndexOf_eq va
  have set (t : VmState) (ht : Isolated L t) (freshT : Fresh t f) (dir : getPdirEntryByVa t pid va ≠ 0#32) :
      Isolated L (setPtblEntryByVa t pid va f perm) := by
    have hf := (ht.fresh_range freshT).2
    simp only [vmUserhiPi, vmUserhi, pageSize] at hf
    rw [setPtblEntryByVa, setPtblEntry, pde]
    refine ht.writeEntry valid (pde ▸ dir) fun _ => ?_
    rw [entryFrame_mk (by omega) hperm]
    exact freshT
  obtain ⟨allocated, given, kept⟩ := h.alloc pid
  rcases mapPage_cases s pid va f perm with ⟨dir, result⟩ | ⟨-, ⟨-, result⟩ | ⟨found, result⟩⟩
  · rw [result]
    exact set s h fresh dir
  · rw [result]
    exact allocated
  · rw [result]
    have table := given found
    have range := (allocated.fresh_range table).2
    simp only [vmUserhiPi, vmUserhi, pageSize] at range
    refine set _ ?_ ((kept f fresh).1.install (by omega) table.unused (kept f fresh).2) ?_
    · rw [pde]
      exact allocated.install (table_valid valid) table
    · exact pdir_installTable_self

theorem isolated_allocPage (hperm : perm < 4096) : Isolated L (allocPage s pid va perm).1 := by
  obtain ⟨allocated, given, -⟩ := h.alloc pid
  unfold allocPage
  dsimp only
  split
  · exact allocated
  · rename_i found
    exact allocated.map hp user hperm (given found)

theorem isolated_unmapPage : Isolated L (unmapPage s pid va).1 := by
  unfold unmapPage
  dsimp only
  split
  · rename_i entry
    have dir : getPdirEntry s pid (pdeIndexOf va) ≠ 0#32 := by
      intro zero
      simp [getPtblEntryByVa, zero] at entry
    have pde := pdeIndexOf_eq va
    rw [rmvPtblEntryByVa, rmvPtblEntry, pde]
    exact h.writeEntry (page_valid hp user) (pde ▸ dir) fun p => absurd p (by simp [present])
  · exact h

theorem isolated_freePtbl : Isolated L (freePtbl s pid va) := by
  have valid := table_valid (page_valid hp user)
  rw [← pdeIndexOf_eq] at valid
  have removed : Isolated L (rmvPdirEntry s pid (pdeIndexOf va)) := by
    refine ⟨h.injective.drop fun u f used => (frameOf_rmvPdirEntry used).2,
      fun u f used => h.owned u f (frameOf_rmvPdirEntry used).2, h.normal, fun q j hq kernel => ?_, h.kernelTable⟩
    rw [getPdirEntry, rmvPdirEntry, pdir_modifyPdir, if_neg (kernel.other valid)]
    exact h.kernelDir q j hq kernel
  refine removed.free fun u used => ?_
  obtain ⟨other, old⟩ := frameOf_rmvPdirEntry used
  by_cases dir : getPdirEntry s pid (pdeIndexOf va) = 0#32
  · -- without a table the page that is freed is page 0, which nobody uses
    have low := (h.frame_range old).1
    simp [getPdirEntryByVa, dir, vmUserloPi, vmUserlo, pageSize] at low
  · exact other (h.injective old ((frameOf_table valid).2 ⟨dir, rfl⟩))

end

/-! ## Entries of other pages, and writes to data -/

def vaddr (vpage : Nat) : Word := BitVec.ofNat 32 (vpage * pageSize)

theorem readWord_page {m m' : Mem} {pde : Word} {k : Nat} (hk : k < 1024)
    (same : ∀ x : Word, x.toNat / pageSize = entryFrame pde → m' x = m x) :
    readWord m' (ptblAddr pde k) = readWord m (ptblAddr pde k) := by
  have addr := toNat_ptblAddr pde hk
  refine readWord_congr fun i hi => same _ ?_
  rw [BitVec.lt_def] at hi
  rw [BitVec.toNat_add, addr]
  simp only [pageSize]
  simp at hi
  omega

theorem entry_modifyPtbl {w : Word} {q x : Nat} (inj : PartialInj (frameOf s)) (valid : (Use.page pid v).Valid)
    (dir : s.pdirPool pid (v / 1024) ≠ 0#32) (xValid : (Use.page q x).Valid) (ne : Use.page q x ≠ .page pid v) :
    getPtblEntryByVa (modifyPtbl s pid (v / 1024) (v % 1024) w) q (vaddr x) = getPtblEntryByVa s q (vaddr x) := by
  have pde : pdeIndexOf (vaddr x) = x / 1024 := pdeIndexOf_vpage (vpage_lt xValid)
  have pte : pteIndexOf (vaddr x) = x % 1024 := pteIndexOf_vpage x
  rw [entryByVa_modifyPtbl (Nat.mod_lt _ (by omega)) dir, if_neg]
  · rintro ⟨rfl, quot, rem⟩
    exact ne (congrArg (Use.page q) (by omega))
  · rw [pde]
    intro mapped frame
    have tables := inj ((frameOf_table (table_valid xValid)).2 ⟨mapped, frame⟩)
      ((frameOf_table (table_valid valid)).2 ⟨dir, rfl⟩)
    exact Use.table.inj tables

theorem entry_installTable {q x : Nat} (missing : s.pdirPool pid i = 0#32) (hf : f < 1048576)
    (fresh : ∀ u, frameOf s u ≠ some f) (xValid : (Use.page q x).Valid) :
    getPtblEntryByVa (installTable s pid i f) q (vaddr x) = getPtblEntryByVa s q (vaddr x) := by
  have pde : pdeIndexOf (vaddr x) = x / 1024 := pdeIndexOf_vpage (vpage_lt xValid)
  refine entryByVa_installTable missing hf fun mapped frame => ?_
  rw [pde] at mapped frame
  exact fresh (.table q (x / 1024)) ((frameOf_table (table_valid xValid)).2 ⟨mapped, frame⟩)

def Writable (L : Layout) (s : VmState) (x : Word) : Prop :=
  (∃ q v, frameOf s (.page q v) = some (x.toNat / pageSize)) ∨
    (x.toNat < vmUserlo ∨ vmUserhi ≤ x.toNat) ∧
      (x.toNat < L.idptbl.toNat ∨ L.idptbl.toNat + 1024 * pageSize ≤ x.toNat)

section

variable {m : Mem} (h : Isolated L s) (data : ∀ x, m x ≠ s.mem x → Writable L s x)
include h data

theorem Isolated.table_write {q j k : Nat} (valid : (Use.table q j).Valid) (dir : s.pdirPool q j ≠ 0#32)
    (hk : k < 1024) :
    readWord m (ptblAddr (s.pdirPool q j) k) = readWord s.mem (ptblAddr (s.pdirPool q j) k) := by
  refine readWord_page hk fun x frame => ?_
  by_contra changed
  have used := (frameOf_table valid).2 ⟨dir, rfl⟩
  rcases data x changed with ⟨p, v, page⟩ | ⟨low, -⟩
  · exact Use.noConfusion (h.injective used (frame ▸ page))
  · have := h.frame_range used
    simp only [vmUserloPi, vmUserlo, vmUserhiPi, vmUserhi, pageSize] at this low frame
    omega

theorem Isolated.entry_write {q x : Nat} (valid : (Use.page q x).Valid) : getPtblEntryByVa { s with mem := m } q
    (vaddr x) = getPtblEntryByVa s q (vaddr x) := by
  rw [vaddr, getPtblEntryByVa_vpage _ _ (vpage_lt valid), getPtblEntryByVa_vpage _ _ (vpage_lt valid)]
  by_cases dir : s.pdirPool q (x / 1024) = 0#32
  · rw [if_pos (show getPdirEntry { s with mem := m } q (x / 1024) = 0#32 from dir),
      if_pos (show getPdirEntry s q (x / 1024) = 0#32 from dir)]
  · rw [if_neg (show getPdirEntry { s with mem := m } q (x / 1024) ≠ 0#32 from dir),
      if_neg (show getPdirEntry s q (x / 1024) ≠ 0#32 from dir)]
    exact h.table_write data (table_valid valid) dir (Nat.mod_lt _ (by omega))

theorem Isolated.frameOf_write : frameOf { s with mem := m } = frameOf s := by
  funext u
  by_cases valid : u.Valid
  · cases u with
    | table q j => rfl
    | page q x =>
      have entry := h.entry_write data valid
      unfold vaddr at entry
      simp only [frameOf, if_pos valid, entry]
  · simp only [frameOf, if_neg valid]

theorem Isolated.write : Isolated L { s with mem := m } := by
  have frames := h.frameOf_write data
  refine ⟨frames ▸ h.injective, fun u f used => h.owned u f (frames ▸ used), h.normal, h.kernelDir,
    fun j k kernel hk => ?_⟩
  rw [← h.kernelTable j k kernel hk]
  refine readWord_page hk fun x frame => ?_
  by_contra changed
  rcases data x changed with ⟨p, v, page⟩ | ⟨-, outside⟩
  · have low := entryFrame_identityPde_lt L kernel.lt
    have high := (h.frame_range page).1
    omega
  · have aligned := L.aligned
    have lt := kernel.lt
    rw [entryFrame_identityPde L lt] at frame
    simp only [pageSize] at *
    omega

end

/-! ## What it says of virtual addresses -/

theorem pteIndexOf_eq (va : Word) : pteIndexOf va = va.toNat / pageSize % 1024 := rfl

theorem frameOf_va (hp : UserPid pid) (user : userVa va) (mapped : present (getPtblEntryByVa s pid va)) :
    frameOf s (.page pid (va.toNat / pageSize)) = some (entryFrame (getPtblEntryByVa s pid va)) := by
  have valid := page_valid hp user
  by_cases dir : getPdirEntry s pid (pdeIndexOf va) = 0#32
  · simp [getPtblEntryByVa, dir, present] at mapped
  · rw [getPtblEntryByVa, if_neg dir, pdeIndexOf_eq, pteIndexOf_eq] at mapped ⊢
    exact (frameOf_page valid).2 ⟨pdeIndexOf_eq va ▸ dir, mapped, rfl⟩

theorem frameOf_pde (hp : UserPid pid) (user : userVa va) (mapped : getPdirEntryByVa s pid va ≠ 0#32) :
    frameOf s (.table pid (pdeIndexOf va)) = some (entryFrame (getPdirEntryByVa s pid va)) :=
  (frameOf_table (pdeIndexOf_eq va ▸ table_valid (page_valid hp user))).2 ⟨mapped, rfl⟩

end Preservation

structure SeparateSpaces (L : Layout) (s : VmState) : Prop where
  pages : ∀ pid pid' va va', (1 ≤ pid ∧ pid < numIds) → (1 ≤ pid' ∧ pid' < numIds) → userVa va → userVa va' →
    present (getPtblEntryByVa s pid va) → present (getPtblEntryByVa s pid' va') →
    entryFrame (getPtblEntryByVa s pid va) = entryFrame (getPtblEntryByVa s pid' va') →
    pid = pid' ∧ va.toNat / pageSize = va'.toNat / pageSize
  tables : ∀ pid pid' va va', (1 ≤ pid ∧ pid < numIds) → (1 ≤ pid' ∧ pid' < numIds) → userVa va → userVa va' →
    getPdirEntryByVa s pid va ≠ 0#32 → getPdirEntryByVa s pid' va' ≠ 0#32 →
    entryFrame (getPdirEntryByVa s pid va) = entryFrame (getPdirEntryByVa s pid' va') →
    pid = pid' ∧ pdeIndexOf va = pdeIndexOf va'
  disjoint : ∀ pid pid' va va', (1 ≤ pid ∧ pid < numIds) → (1 ≤ pid' ∧ pid' < numIds) → userVa va → userVa va' →
    getPdirEntryByVa s pid va ≠ 0#32 → present (getPtblEntryByVa s pid' va') →
    entryFrame (getPdirEntryByVa s pid va) ≠ entryFrame (getPtblEntryByVa s pid' va')
  pageNormal : ∀ pid va, (1 ≤ pid ∧ pid < numIds) → userVa va → present (getPtblEntryByVa s pid va) →
    (s.allocTable (entryFrame (getPtblEntryByVa s pid va))).perm = 2 ∧
      atIsAllocated s (entryFrame (getPtblEntryByVa s pid va)) = 1
  tableNormal : ∀ pid va, (1 ≤ pid ∧ pid < numIds) → userVa va → getPdirEntryByVa s pid va ≠ 0#32 →
    (s.allocTable (entryFrame (getPdirEntryByVa s pid va))).perm = 2 ∧
      atIsAllocated s (entryFrame (getPdirEntryByVa s pid va)) = 1
  kernelDir : ∀ pid j, pid < numIds → KernelPde j → getPdirEntry s pid j = identityPde L j
  kernelTable : ∀ pid j k, pid < numIds → KernelPde j → k < 1024 → getPtblEntry s pid j k = identityPte j k

theorem Isolated.separateSpaces {L : Layout} {s : VmState} (h : Isolated L s) : SeparateSpaces L s where
  pages pid pid' va va' hp hp' user user' mapped mapped' same := by
    have frame := frameOf_va hp' user' mapped'
    rw [← same] at frame
    exact Use.page.inj (h.injective (frameOf_va hp user mapped) frame)
  tables pid pid' va va' hp hp' user user' mapped mapped' same := by
    have frame := frameOf_pde hp' user' mapped'
    rw [← same] at frame
    exact Use.table.inj (h.injective (frameOf_pde hp user mapped) frame)
  disjoint pid pid' va va' hp hp' user user' mapped mapped' same := by
    have frame := frameOf_va hp' user' mapped'
    rw [← same] at frame
    exact Use.noConfusion (h.injective (frameOf_pde hp user mapped) frame)
  pageNormal pid va hp user mapped := by
    obtain ⟨lt, norm, allocated⟩ := h.owned _ _ (frameOf_va hp user mapped)
    exact ⟨(h.normal _ lt norm).1, allocated⟩
  tableNormal pid va hp user mapped := by
    obtain ⟨lt, norm, allocated⟩ := h.owned _ _ (frameOf_pde hp user mapped)
    exact ⟨(h.normal _ lt norm).1, allocated⟩
  kernelDir := h.kernelDir
  kernelTable pid j k hp kernel hk := by
    have dir := h.kernelDir pid j hp kernel
    rw [getPtblEntry, ← getPdirEntry, dir]
    exact h.kernelTable j k kernel hk

end Certikos
