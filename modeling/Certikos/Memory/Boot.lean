import Certikos.Memory.Isolation

/-!
# From the memory map to isolated address spaces

The initialisation of `MATInit.c`, `MContainer.c`, `MPTOp.c`, `MPTComm.c` and `MPTKern.c`, over any
memory map and any contents of memory, and the address spaces that grow from it.
-/

namespace Certikos
open Lib

structure MemRange where
  start : Word
  len : Word
  usable : Bool

def memNps (mmap : List MemRange) : Nat :=
  mmap.foldl (fun nps r =>
    let maxs := (r.start + r.len).toNat / pageSize + 1
    if maxs > nps then maxs else nps) 0

/-- The permission that the second loop of `pmem_init` gives page `i`: the first range that contains
the whole page decides. -/
def memPerm (mmap : List MemRange) (i : Nat) : Nat :=
  if i < vmUserloPi ∨ i ≥ vmUserhiPi then 1
  else
    match mmap.find? fun r => r.start.toNat ≤ i * pageSize ∧ (r.len + r.start).toNat ≥ (i + 1) * pageSize with
    | some r => if r.usable then 2 else 0
    | none => 0

theorem memNps_le (mmap : List MemRange) : memNps mmap ≤ 1048576 := by
  refine List.foldlRecOn (motive := (· ≤ 1048576)) mmap _ (Nat.zero_le _) fun nps le r _ => ?_
  dsimp only
  split
  · simp only [pageSize]
    omega
  · exact le

def pmemInit (mmap : List MemRange) (s : VmState) : VmState :=
  let s := setNps s (memNps mmap) (memNps_le mmap)
  loop (fun i s => atSetPerm s i (memPerm mmap i)) (memNps mmap) s

def containerInit (mmap : List MemRange) (s : VmState) : VmState :=
  let s := pmemInit mmap s
  let count (i n : Nat) := if atIsNorm s (i + 1) = 1 ∧ atIsAllocated s (i + 1) = 0 then n + 1 else n
  let realQuota := loop count (getNps s - 1) 0
  modifyContainer s 0 fun _ => ⟨BitVec.ofNat 32 realQuota, 0, 0, 0, 1⟩

def idptblRow (L : Layout) (i : Nat) (s : VmState) : VmState :=
  let perm := if i < 256 ∨ i ≥ 960 then pteP + pteW + pteG else pteP + pteW
  loop (fun j s => setPtblEntryIdentity L s i j perm) 1024 s

def idptblInit (L : Layout) (mmap : List MemRange) (s : VmState) : VmState :=
  loop (idptblRow L) 1024 (containerInit mmap s)

def pdirRow (L : Layout) (i : Nat) (s : VmState) : VmState :=
  loop (fun j s => if j < 256 ∨ j ≥ 960 then setPdirEntryIdentity L s i j else rmvPdirEntry s i j) 1024 s

def pdirInit (L : Layout) (mmap : List MemRange) (s : VmState) : VmState :=
  loop (pdirRow L) numIds (idptblInit L mmap s)

def pdirInitKern (L : Layout) (mmap : List MemRange) (s : VmState) : VmState :=
  loop (fun i s => setPdirEntryIdentity L s 0 (256 + i)) (960 - 256) (pdirInit L mmap s)

/-! ## The first state is isolated -/

section Boot

variable (L : Layout) (mmap : List MemRange) (s : VmState)

variable {f j k i pid : Nat}

theorem pmemInit_perm (hf : f < memNps mmap) : ((pmemInit mmap s).allocTable f).perm = memPerm mmap f := by
  refine loop_invariant (fun n (t : VmState) => ∀ g < n, (t.allocTable g).perm = memPerm mmap g)
    (fun g hg => absurd hg (by omega)) ?_ f hf
  intro i t _ below g hg
  by_cases last : g = i
  · simp [last, atSetPerm, modifyAt]
  · simpa [atSetPerm, modifyAt, last] using below g (by omega)

theorem memPerm_normal (normal : memPerm mmap f ≠ 0 ∧ memPerm mmap f ≠ 1) :
    memPerm mmap f = 2 ∧ vmUserloPi ≤ f ∧ f < vmUserhiPi := by
  unfold memPerm at *
  split at normal
  · exact absurd rfl normal.2
  · rename_i user
    rw [if_neg user]
    split at normal
    · split at normal
      · rename_i usable
        simp only [usable, if_true]
        exact ⟨trivial, by omega, by omega⟩
      · exact absurd rfl normal.1
    · exact absurd rfl normal.1

theorem idptbl_addr (hj : j < 1024) (hk : k < 1024) :
    L.idptbl + BitVec.ofNat 32 ((j * 1024 + k) * 4) = ptblAddr (identityPde L j) k := by
  have := L.aligned
  simp only [pageSize] at *
  apply BitVec.eq_of_toNat_eq
  rw [toNat_ptblAddr _ hk]
  simp only [entryFrame, identityPde, BitVec.toNat_add, BitVec.toNat_ofNat, pageSize, pteP, pteW, pteU]
  omega

theorem readWord_setPtblEntryIdentity {l perm : Nat} (hi : i < 1024) (hj : j < 1024) (hk : k < 1024) (hl : l < 1024) :
    readWord (setPtblEntryIdentity L s i k perm).mem (ptblAddr (identityPde L j) l) =
      if j = i ∧ l = k then BitVec.ofNat 32 ((i * 1024 + k) * pageSize + perm)
      else readWord s.mem (ptblAddr (identityPde L j) l) := by
  unfold setPtblEntryIdentity
  rw [idptbl_addr L hi hk]
  by_cases same : j = i ∧ l = k
  · obtain ⟨rfl, rfl⟩ := same
    simp
  · rw [if_neg same]
    apply readWord_writeWord_ne
    · rw [toNat_ptblAddr _ hk]
      omega
    · rw [toNat_ptblAddr _ hl]
      omega
    · rw [Ne, ptblAddr_inj hl hk, entryFrame_identityPde L hj, entryFrame_identityPde L hi]
      omega

theorem idptblRow_table (hi : i < 1024) (hj : j < 1024) (hk : k < 1024) :
    readWord (idptblRow L i s).mem (ptblAddr (identityPde L j) k) = if j = i then
        BitVec.ofNat 32 ((i * 1024 + k) * pageSize + if i < 256 ∨ i ≥ 960 then pteP + pteW + pteG else pteP + pteW)
      else readWord s.mem (ptblAddr (identityPde L j) k) := by
  have written := loop_invariant (n := 1024) (s := s) (fun m (t : VmState) => ∀ j < 1024, ∀ k < 1024,
    readWord t.mem (ptblAddr (identityPde L j) k) =
      if j = i ∧ k < m then
        BitVec.ofNat 32 ((i * 1024 + k) * pageSize +
          if i < 256 ∨ i ≥ 960 then pteP + pteW + pteG else pteP + pteW)
      else readWord s.mem (ptblAddr (identityPde L j) k))
    (by simp) (fun m t hm below j hj k hk => by
      rw [readWord_setPtblEntryIdentity L t hi hj hm hk, below j hj k hk]
      by_cases last : j = i ∧ k = m
      · rw [if_pos last, if_pos ⟨last.1, by omega⟩, last.2]
      · rw [if_neg last]
        exact if_congr (by omega) rfl rfl)
  simpa only [idptblRow, hk, and_true] using written j hj k hk

theorem idptblInit_table (kernel : KernelPde j) (hk : k < 1024) :
    readWord (idptblInit L mmap s).mem (ptblAddr (identityPde L j) k) = identityPte j k := by
  refine loop_invariant (fun n (t : VmState) => ∀ j < n, KernelPde j → ∀ k < 1024,
    readWord t.mem (ptblAddr (identityPde L j) k) = identityPte j k)
    (fun j hj => absurd hj (by omega)) ?_ j kernel.lt kernel k hk
  intro i t hi rows j hj kernel k hk
  rw [idptblRow_table L t hi (by omega) hk]
  by_cases last : j = i
  · have perm : i < 256 ∨ i ≥ 960 := by
      rcases kernel with low | high <;> omega
    rw [if_pos last, if_pos perm, last]
    rfl
  · rw [if_neg last]
    exact rows j (by omega) kernel k hk

theorem idptblInit_account : (idptblInit L mmap s).allocTable = (pmemInit mmap s).allocTable ∧
      (idptblInit L mmap s).numPages = (pmemInit mmap s).numPages := by
  let same (t : VmState) : Prop :=
    t.allocTable = (pmemInit mmap s).allocTable ∧ t.numPages = (pmemInit mmap s).numPages
  exact loop_preserves same ⟨rfl, rfl⟩ fun i t _ h => loop_preserves same h fun _ _ _ h => h

theorem pmemInit_nps : (pmemInit mmap s).numPages = memNps mmap :=
  loop_preserves (fun t : VmState => t.numPages = memNps mmap) rfl fun _ _ _ h => h

theorem getNps_pmemInit : getNps (pmemInit mmap s) = memNps mmap := pmemInit_nps ..

theorem pmemInit_free (lt : i < memNps mmap) : atIsAllocated (pmemInit mmap s) i = 0 := by
  refine loop_invariant (fun n (t : VmState) => ∀ g < n, atIsAllocated t g = 0)
    (fun g hg => absurd hg (by omega)) ?_ i lt
  intro j t _ below g hg
  by_cases last : g = j
  · simp [last, atIsAllocated, atSetPerm, modifyAt]
  · have old := below g (by omega)
    simp only [atIsAllocated, atSetPerm, modifyAt, Function.update_of_ne last] at old ⊢
    exact old

theorem pmemInit_available (i : Nat) : Available (pmemInit mmap s) i ↔ i < memNps mmap ∧ memPerm mmap i = 2 := by
  unfold Available
  rw [getNps_pmemInit]
  constructor
  · rintro ⟨lt, norm, -⟩
    unfold atIsNorm at norm
    rw [pmemInit_perm mmap s lt] at norm
    exact ⟨lt, (memPerm_normal mmap ⟨fun e => by simp [e] at norm, fun e => by simp [e] at norm⟩).1⟩
  · rintro ⟨lt, perm⟩
    refine ⟨lt, ?_, pmemInit_free mmap s lt⟩
    unfold atIsNorm
    rw [pmemInit_perm mmap s lt, perm]
    rfl

theorem pdirInit_frame : (pdirInit L mmap s).allocTable = (idptblInit L mmap s).allocTable ∧
      (pdirInit L mmap s).numPages = (idptblInit L mmap s).numPages ∧
      (pdirInit L mmap s).mem = (idptblInit L mmap s).mem := by
  let same (t : VmState) : Prop :=
    t.allocTable = (idptblInit L mmap s).allocTable ∧ t.numPages = (idptblInit L mmap s).numPages ∧
      t.mem = (idptblInit L mmap s).mem
  refine loop_preserves same ⟨rfl, rfl, rfl⟩ fun i t _ h => loop_preserves same h fun j u _ h => ?_
  split <;> exact h

def initialPde (j : Nat) : Word := if j < 256 ∨ j ≥ 960 then identityPde L j else 0#32

theorem pdirRow_pdir {p : Nat} (hj : j < 1024) :
    (pdirRow L i s).pdirPool p j = if p = i then initialPde L j else s.pdirPool p j := by
  have written := loop_invariant (n := 1024) (s := s) (fun m (t : VmState) => ∀ p j,
    t.pdirPool p j = if p = i ∧ j < m then initialPde L j else s.pdirPool p j)
    (by simp) (fun m t hm below p j => by
      have write : (if m < 256 ∨ m ≥ 960 then setPdirEntryIdentity L t i m else rmvPdirEntry t i m).pdirPool p j =
          if p = i ∧ j = m then initialPde L m else t.pdirPool p j := by
        unfold initialPde
        split <;> exact pdir_modifyPdir
      rw [write, below p j]
      by_cases last : p = i ∧ j = m
      · rw [if_pos last, if_pos ⟨last.1, by omega⟩, last.2]
      · rw [if_neg last]
        exact if_congr (by omega) rfl rfl)
  simpa only [pdirRow, hj, and_true] using written p j

theorem pdirInit_pdir (hp : pid < numIds) (hj : j < 1024) :
    (pdirInit L mmap s).pdirPool pid j = initialPde L j := by
  have rows : ∀ p < numIds, (pdirInit L mmap s).pdirPool p j = initialPde L j := by
    refine loop_invariant (fun n (t : VmState) => ∀ p < n, t.pdirPool p j = initialPde L j)
      (fun p hp => absurd hp (by omega)) fun i t _ below p hp => ?_
    rw [pdirRow_pdir L t hj]
    split
    · rfl
    · exact below p (by omega)
  exact rows pid hp

theorem pdirInitKern_frame : (pdirInitKern L mmap s).allocTable = (pdirInit L mmap s).allocTable ∧
      (pdirInitKern L mmap s).numPages = (pdirInit L mmap s).numPages ∧
      (pdirInitKern L mmap s).mem = (pdirInit L mmap s).mem ∧
      ∀ p j, p ≠ 0 ∨ KernelPde j → (pdirInitKern L mmap s).pdirPool p j = (pdirInit L mmap s).pdirPool p j := by
  refine loop_preserves (fun t : VmState => t.allocTable = (pdirInit L mmap s).allocTable ∧
    t.numPages = (pdirInit L mmap s).numPages ∧ t.mem = (pdirInit L mmap s).mem ∧
      ∀ p j, p ≠ 0 ∨ KernelPde j → t.pdirPool p j = (pdirInit L mmap s).pdirPool p j)
    ⟨rfl, rfl, rfl, fun _ _ _ => rfl⟩ fun i t hi h => ⟨h.1, h.2.1, h.2.2.1, fun p j other => ?_⟩
  rw [setPdirEntryIdentity, pdir_modifyPdir, if_neg]
  · exact h.2.2.2 p j other
  · rintro ⟨rfl, rfl⟩
    rcases other with ne | low | high
    · exact ne rfl
    · omega
    · omega

theorem pdirInitKern_account : (pdirInitKern L mmap s).allocTable = (pmemInit mmap s).allocTable ∧
      (pdirInitKern L mmap s).numPages = (pmemInit mmap s).numPages := by
  obtain ⟨table, nps, -⟩ := pdirInitKern_frame L mmap s
  obtain ⟨table', nps', -⟩ := pdirInit_frame L mmap s
  obtain ⟨table'', nps''⟩ := idptblInit_account L mmap s
  exact ⟨table.trans (table'.trans table''), nps.trans (nps'.trans nps'')⟩

theorem pdirInitKern_user (valid : (Use.table pid i).Valid) :
    (pdirInitKern L mmap s).pdirPool pid i = 0#32 := by
  obtain ⟨⟨pos, lt⟩, lo, hi⟩ := valid
  rw [(pdirInitKern_frame L mmap s).2.2.2 pid i (.inl (by omega)), pdirInit_pdir L mmap s lt (by omega), initialPde,
    if_neg (by omega)]

theorem pdirInitKern_isolated : Isolated L (pdirInitKern L mmap s) := by
  obtain ⟨table, nps⟩ := pdirInitKern_account L mmap s
  obtain ⟨-, -, mem, dir⟩ := pdirInitKern_frame L mmap s
  obtain ⟨-, -, mem'⟩ := pdirInit_frame L mmap s
  have unused (u : Use) (f : Nat) : frameOf (pdirInitKern L mmap s) u ≠ some f := by
    intro used
    have valid := valid_of_frameOf used
    cases u with
    | table pid i => exact ((frameOf_table valid).1 used).1 (pdirInitKern_user L mmap s valid)
    | page pid v => exact ((frameOf_page valid).1 used).1 (pdirInitKern_user L mmap s (table_valid valid))
  refine ⟨fun u v f hu => absurd hu (unused u f), fun u f hu => absurd hu (unused u f), ?_, ?_, ?_⟩
  · intro f lt norm
    rw [getNps, nps, pmemInit_nps] at lt
    have perm := pmemInit_perm mmap s lt
    rw [atIsNorm, table, perm] at norm
    rw [table, perm]
    exact memPerm_normal mmap ⟨fun e => by simp [e] at norm, fun e => by simp [e] at norm⟩
  · intro pid j hp kernel
    rw [getPdirEntry, dir pid j (.inr kernel), pdirInit_pdir L mmap s hp kernel.lt, initialPde, if_pos]
    rcases kernel with low | high <;> omega
  · intro j k kernel hk
    rw [mem, mem']
    exact idptblInit_table L mmap s kernel hk

theorem pdirInitKern_mem {x : Word} (out : x.toNat < L.idptbl.toNat ∨ L.idptbl.toNat + 1024 * pageSize ≤ x.toNat) :
    (pdirInitKern L mmap s).mem x = s.mem x := by
  rw [(pdirInitKern_frame L mmap s).2.2.1, (pdirInit_frame L mmap s).2.2]
  have below := L.below
  refine loop_preserves (fun t : VmState => t.mem x = s.mem x) ?_ fun i t hi before =>
    loop_preserves (fun t : VmState => t.mem x = s.mem x) before fun j u hj before => ?_
  · exact loop_preserves (fun t : VmState => t.mem x = s.mem x) rfl fun _ _ _ before => before
  · refine (if_neg ?_ : (setPtblEntryIdentity L u i j _).mem x = u.mem x).trans before
    simp only [vmUserlo, pageSize] at *
    rw [BitVec.lt_def, BitVec.toNat_sub, BitVec.toNat_add, BitVec.toNat_ofNat]
    change ¬_ < 4
    omega

theorem pdirInitKern_rest : (pdirInitKern L mmap s).lastPallocIndex = s.lastPallocIndex ∧
      ∀ id, id ≠ 0 → (pdirInitKern L mmap s).container id = s.container id := by
  let same (t : VmState) : Prop :=
    t.lastPallocIndex = s.lastPallocIndex ∧ ∀ id, id ≠ 0 → t.container id = s.container id
  have start : same (pmemInit mmap s) := loop_preserves same ⟨rfl, fun _ _ => rfl⟩ fun _ _ _ h => h
  have contained : same (containerInit mmap s) := by
    refine ⟨start.1, fun id other => ?_⟩
    rw [← start.2 id other]
    exact Function.update_of_ne other ..
  have tables : same (idptblInit L mmap s) :=
    loop_preserves same contained fun i t _ h => loop_preserves same h fun _ _ _ h => h
  have dirs : same (pdirInit L mmap s) := by
    refine loop_preserves same tables fun i t _ h => loop_preserves same h fun j u _ h => ?_
    split <;> exact h
  exact loop_preserves same dirs fun _ _ _ h => h

end Boot

/-! ## Runs -/

inductive MapOp
  | allocPage (pid : Nat) (va : Word) (perm : Nat)
  | unmapPage (pid : Nat) (va : Word)
  | freePtbl (pid : Nat) (va : Word)
  | allocMemQuota (id : Nat) (quota : Word)

def MapOp.exec (s : VmState) : MapOp → VmState
  | .allocPage pid va perm => (Certikos.allocPage s pid va perm).1
  | .unmapPage pid va => (Certikos.unmapPage s pid va).1
  | .freePtbl pid va => Certikos.freePtbl s pid va
  | .allocMemQuota id quota => (containerSplit s id quota).1

def MapOp.Allowed : MapOp → Prop
  | .allocPage pid va perm =>
    (1 ≤ pid ∧ pid < numIds) ∧ userVa va ∧ perm < 4096 ∧ present (BitVec.ofNat 32 perm)
  | .unmapPage pid va => (1 ≤ pid ∧ pid < numIds) ∧ userVa va
  | .freePtbl pid va => (1 ≤ pid ∧ pid < numIds) ∧ userVa va
  | .allocMemQuota _ _ => True

theorem exec_isolated {L : Layout} {s : VmState} (h : Isolated L s) {op : MapOp} (allowed : op.Allowed) :
    Isolated L (op.exec s) := by
  cases op with
  | allocPage pid va perm => exact isolated_allocPage h allowed.1 allowed.2.1 allowed.2.2.1
  | unmapPage pid va => exact isolated_unmapPage h allowed.1 allowed.2
  | freePtbl pid va => exact isolated_freePtbl h allowed.1 allowed.2
  | allocMemQuota id quota => exact h.account rfl rfl rfl (fun _ => rfl) fun _ _ _ ha => ha

theorem foldl_isolated {L : Layout} {s : VmState} (h : Isolated L s) {ops : List MapOp}
    (allowed : ∀ op ∈ ops, op.Allowed) : Isolated L (ops.foldl MapOp.exec s) := by
  induction ops generalizing s with
  | nil => exact h
  | cons op ops ih =>
    rw [List.forall_mem_cons] at allowed
    exact ih (exec_isolated h allowed.1) allowed.2

/-- From the state that `pdir_init_kern` builds over any memory map, whatever memory and the containers
held before, address spaces stay separate in every run. -/
theorem foldl_separateSpaces (L : Layout) (mmap : List MemRange) (s : VmState) (ops : List MapOp)
    (allowed : ∀ op ∈ ops, op.Allowed) :
    SeparateSpaces L (ops.foldl MapOp.exec (pdirInitKern L mmap s)) :=
  (foldl_isolated (pdirInitKern_isolated L mmap s) allowed).separateSpaces

def sampleLayout : Layout := ⟨0x1000000, by decide, by decide⟩
def sampleMap : List MemRange := [⟨0, 0x50000000, true⟩]

theorem sampleMap_pages (s : VmState) (i : Nat) : Available (pmemInit sampleMap s) i ↔ 0x40000 ≤ i ∧ i < 0x50000 := by
  have nps : memNps sampleMap = 0x50001 := by decide
  rw [pmemInit_available, nps]
  simp only [memPerm, sampleMap, vmUserloPi, vmUserhiPi, vmUserlo, vmUserhi, pageSize]
  constructor
  · rintro ⟨lt, perm⟩
    split at perm
    · exact absurd perm (by decide)
    · refine ⟨by omega, ?_⟩
      by_contra high
      rw [List.find?_cons_of_neg (by simp; omega)] at perm
      exact absurd perm (show (0 : Nat) ≠ 2 by decide)
  · rintro ⟨low, high⟩
    refine ⟨by omega, ?_⟩
    rw [if_neg (by omega), List.find?_cons_of_pos (by simp; omega)]
    rfl

theorem foldl_separateSpaces_two :
    SeparateSpaces sampleLayout
      ([MapOp.allocPage 1 0x40000000 7, .allocPage 2 0x40001000 3, .unmapPage 1 0x40000000,
          .freePtbl 2 0x40001000].foldl MapOp.exec (pdirInitKern sampleLayout sampleMap blankVm)) :=
  foldl_separateSpaces sampleLayout sampleMap blankVm _ (by
    simp only [List.forall_mem_cons, List.not_mem_nil, false_imp_iff, implies_true, and_true, MapOp.Allowed,
      userVa, present]
    decide)

end Certikos
