import Certikos.Machine
import Mathlib.Logic.Function.Basic

/-!
# Physical pages and containers

The allocation table of `MATIntro.c`, the allocator of `MATOp.c` and the quota accounting of
`MContainer.c`. Page indices are natural numbers; the fields of a container are 32-bit words, as in
the source.
-/

namespace Certikos
open Lib Function

structure ATStruct where
  perm : Nat
  allocated : Nat
  deriving DecidableEq, Repr

structure SContainer where
  quota : Word
  usage : Word
  parent : Word
  nchildren : Word
  used : Word
  deriving DecidableEq, Repr

structure VmState where
  numPages : Nat
  numPages_le : numPages ≤ 1048576
  allocTable : Nat → ATStruct
  lastPallocIndex : Nat
  container : Nat → SContainer
  pdirPool : Nat → Nat → Word
  mem : Mem

/-! ## The allocation table -/

def getNps (s : VmState) : Nat := s.numPages
def setNps (s : VmState) (nps : Nat) (le : nps ≤ 1048576) : VmState :=
  { s with numPages := nps, numPages_le := le }

def atIsNorm (s : VmState) (pageIndex : Nat) : Nat :=
  let tperm := (s.allocTable pageIndex).perm
  if tperm = 0 then 0 else if tperm = 1 then 0 else 1

def modifyAt (s : VmState) (pageIndex : Nat) (f : ATStruct → ATStruct) : VmState :=
  { s with allocTable := update s.allocTable pageIndex (f (s.allocTable pageIndex)) }

def atSetPerm (s : VmState) (pageIndex normVal : Nat) : VmState :=
  modifyAt s pageIndex fun _ => { perm := normVal, allocated := 0 }

def atIsAllocated (s : VmState) (pageIndex : Nat) : Nat :=
  if (s.allocTable pageIndex).allocated = 0 then 0 else 1

def atSetAllocated (s : VmState) (pageIndex allocated : Nat) : VmState :=
  modifyAt s pageIndex fun a => { a with allocated := allocated }

/-! ## The allocator -/

def pallocScan (s : VmState) : (fuel pallocIndex : Nat) → Nat
  | 0, _ => getNps s
  | fuel + 1, pallocIndex =>
    if atIsNorm s pallocIndex = 1 then
      if atIsAllocated s pallocIndex = 0 then pallocIndex else pallocScan s fuel (pallocIndex + 1)
    else pallocScan s fuel (pallocIndex + 1)

def palloc (s : VmState) : VmState × Nat :=
  let tnps := getNps s
  let pallocIndex := s.lastPallocIndex + 1
  let pallocFreeIndex := pallocScan s (tnps - pallocIndex) pallocIndex
  let (s, pallocFreeIndex) :=
    if pallocFreeIndex = tnps then (s, 0) else (atSetAllocated s pallocFreeIndex 1, pallocFreeIndex)
  ({ s with lastPallocIndex := pallocFreeIndex % tnps }, pallocFreeIndex)

def pfree (s : VmState) (pfreeIndex : Nat) : VmState := atSetAllocated s pfreeIndex 0

/-! ## Containers -/

def modifyContainer (s : VmState) (id : Nat) (f : SContainer → SContainer) : VmState :=
  { s with container := update s.container id (f (s.container id)) }

def containerGetNchildren (s : VmState) (id : Nat) : Word := (s.container id).nchildren

def containerCanConsume (s : VmState) (id : Nat) (n : Word) : Bool :=
  if (s.container id).usage + n > (s.container id).quota then false else true

def containerSplit (s : VmState) (id : Nat) (quota : Word) : VmState × Nat :=
  let nc := (s.container id).nchildren
  let child := (BitVec.ofNat 32 (id * maxChildren + 1) + nc).toNat
  let s := modifyContainer s child fun _ => ⟨quota, 0, BitVec.ofNat 32 id, 0, 1⟩
  let s := modifyContainer s id fun c => { c with usage := c.usage + quota, nchildren := nc + 1 }
  (s, child)

def containerAlloc (s : VmState) (id : Nat) : VmState × Nat :=
  let u := (s.container id).usage
  let q := (s.container id).quota
  if u = q then (s, 0)
  else palloc (modifyContainer s id fun c => { c with usage := u + 1 })

def containerFree (s : VmState) (id pageIndex : Nat) : VmState :=
  if atIsAllocated s pageIndex ≠ 0 then
    let s := pfree s pageIndex
    if (s.container id).usage.toInt > 0 then
      modifyContainer s id fun c => { c with usage := c.usage - 1 }
    else s
  else s

/-! ## What they see of each other -/

def Available (s : VmState) (i : Nat) : Prop :=
  i < getNps s ∧ atIsNorm s i = 1 ∧ atIsAllocated s i = 0
deriving Decidable

theorem available_congr {s s' : VmState} (table : s'.allocTable = s.allocTable) (nps : s'.numPages = s.numPages) (i : Nat) :
    Available s' i ↔ Available s i := by
  unfold Available getNps atIsNorm atIsAllocated
  rw [table, nps]

section Getters

variable (s : VmState) (i j v : Nat)

@[simp] theorem norm_setAllocated : atIsNorm (atSetAllocated s i v) j = atIsNorm s j := by
  by_cases h : j = i
  · subst h
    simp [atIsNorm, atSetAllocated, modifyAt]
  · simp [atIsNorm, atSetAllocated, modifyAt, h]

@[simp] theorem allocated_setAllocated : atIsAllocated (atSetAllocated s i v) j =
      if j = i then (if v = 0 then 0 else 1) else atIsAllocated s j := by
  by_cases h : j = i
  · subst h
    simp [atIsAllocated, atSetAllocated, modifyAt]
  · simp [atIsAllocated, atSetAllocated, modifyAt, h]

@[simp] theorem perm_setAllocated : ((atSetAllocated s i v).allocTable j).perm = (s.allocTable j).perm := by
  by_cases h : j = i
  · subst h
    simp [atSetAllocated, modifyAt]
  · simp [atSetAllocated, modifyAt, h]

end Getters

/-! ## Specification of the allocator -/

variable (s : VmState)

theorem pallocScan_cases (fuel i : Nat) (bound : i + fuel ≤ getNps s) :
    (pallocScan s fuel i = getNps s ∧ ∀ j, i ≤ j → j < i + fuel → ¬Available s j) ∨
      ∃ k, pallocScan s fuel i = k ∧ i ≤ k ∧ k < i + fuel ∧ Available s k ∧ ∀ j, i ≤ j → j < k → ¬Available s j := by
  induction fuel generalizing i with
  | zero => exact .inl ⟨rfl, fun j le lt => absurd le (by omega)⟩
  | succ fuel ih =>
    by_cases here : Available s i
    · refine .inr ⟨i, ?_, le_rfl, by omega, here, fun j le lt => absurd le (by omega)⟩
      simp [pallocScan, here.2.1, here.2.2]
    · have skip : pallocScan s (fuel + 1) i = pallocScan s fuel (i + 1) := by
        rw [pallocScan]
        split
        · rename_i norm
          exact if_neg fun free => here ⟨by omega, norm, free⟩
        · rfl
      have notBelow (j) (le : i ≤ j) (above : i + 1 ≤ j → ¬Available s j) : ¬Available s j := by
        rcases Nat.eq_or_lt_of_le le with rfl | lt
        · exact here
        · exact above lt
      rw [skip]
      rcases ih (i + 1) (by omega) with ⟨scan, none⟩ | ⟨k, scan, le, lt, found, first⟩
      · exact .inl ⟨scan, fun j le lt => notBelow j le fun above => none j above (by omega)⟩
      · exact .inr ⟨k, scan, by omega, by omega, found,
          fun j le lt => notBelow j le fun above => first j above lt⟩

theorem palloc_cases :
    (palloc s = ({ s with lastPallocIndex := 0 }, 0) ∧ ∀ j, s.lastPallocIndex < j → ¬Available s j) ∨
      ∃ k, palloc s = ({ atSetAllocated s k 1 with lastPallocIndex := k }, k) ∧
        s.lastPallocIndex < k ∧ Available s k ∧ ∀ j, s.lastPallocIndex < j → j < k → ¬Available s j := by
  by_cases beyond : getNps s < s.lastPallocIndex + 1
  · refine .inl ⟨?_, fun j lt available => absurd available.1 (by omega)⟩
    have fuel : getNps s - (s.lastPallocIndex + 1) = 0 := by omega
    simp [palloc, fuel, pallocScan]
  · rcases pallocScan_cases s (getNps s - (s.lastPallocIndex + 1)) (s.lastPallocIndex + 1) (by omega) with
      ⟨scan, none⟩ | ⟨k, scan, le, lt, found, first⟩
    · refine .inl ⟨by simp [palloc, scan], fun j lt available => ?_⟩
      exact none j lt (by have := available.1; omega) available
    · refine .inr ⟨k, ?_, le, found, first⟩
      have hk : k ≠ getNps s := ne_of_lt found.1
      simp [palloc, scan, hk, Nat.mod_eq_of_lt found.1]

def charge (s : VmState) (id : Nat) : VmState :=
  modifyContainer s id fun c => { c with usage := c.usage + 1 }

theorem containerAlloc_cases (id : Nat) :
    ((s.container id).usage = (s.container id).quota ∧ containerAlloc s id = (s, 0)) ∨
    (s.container id).usage ≠ (s.container id).quota ∧
      (((∀ j, s.lastPallocIndex < j → ¬Available s j) ∧
        containerAlloc s id = ({ charge s id with lastPallocIndex := 0 }, 0)) ∨
      ∃ f, s.lastPallocIndex < f ∧ Available s f ∧ (∀ j, s.lastPallocIndex < j → j < f → ¬Available s j) ∧
        containerAlloc s id = ({ atSetAllocated (charge s id) f 1 with lastPallocIndex := f }, f)) := by
  by_cases full : (s.container id).usage = (s.container id).quota
  · exact .inl ⟨full, if_pos full⟩
  · refine .inr ⟨full, ?_⟩
    have alloc : containerAlloc s id = palloc (charge s id) := if_neg full
    rw [alloc]
    rcases palloc_cases (charge s id) with ⟨result, none⟩ | ⟨f, result, above, available, first⟩
    · exact .inl ⟨none, result⟩
    · exact .inr ⟨f, above, available, first, result⟩

theorem containerAlloc_dry {s : VmState} {id : Nat} (left : (s.container id).usage ≠ (s.container id).quota)
    (none : ∀ j, s.lastPallocIndex < j → ¬Available s j) :
    containerAlloc s id = ({ charge s id with lastPallocIndex := 0 }, 0) := by
  rcases containerAlloc_cases s id with ⟨full, -⟩ | ⟨-, ⟨-, result⟩ | ⟨f, above, available, -⟩⟩
  · exact absurd full left
  · exact result
  · exact absurd available (none f above)

theorem containerAlloc_ne_magic (id : Nat) : (containerAlloc s id).2 ≠ magicNumber := by
  rcases containerAlloc_cases s id with ⟨-, result⟩ | ⟨-, ⟨-, result⟩ | ⟨f, -, available, -, result⟩⟩
  · simp [result]
  · simp [result]
  · rw [result]
    exact ne_of_lt (lt_trans available.1 (Nat.lt_succ_of_le s.numPages_le))

theorem containerAlloc_frame (pid : Nat) :
    (containerAlloc s pid).1.pdirPool = s.pdirPool ∧ (containerAlloc s pid).1.mem = s.mem := by
  rcases containerAlloc_cases s pid with ⟨-, result⟩ | ⟨-, ⟨-, result⟩ | ⟨f, -, -, -, result⟩⟩ <;>
    rw [result] <;> exact ⟨rfl, rfl⟩

theorem containerFree_frame (pid f : Nat) :
    (containerFree s pid f).pdirPool = s.pdirPool ∧ (containerFree s pid f).mem = s.mem := by
  unfold containerFree
  dsimp only
  split_ifs <;> exact ⟨rfl, rfl⟩

theorem containerSplit_child {s : VmState} {id : Nat} (quota : Word) (fits : id * maxChildren + maxChildren < numIds)
    (room : (containerGetNchildren s id).toNat < maxChildren) :
    (containerSplit s id quota).2 = id * maxChildren + 1 + (containerGetNchildren s id).toNat := by
  change (BitVec.ofNat 32 (id * maxChildren + 1) + containerGetNchildren s id).toNat = _
  simp only [maxChildren, numIds] at *
  rw [BitVec.toNat_add, BitVec.toNat_ofNat]
  omega

theorem container_split {s : VmState} {id : Nat} (quota : Word) (j : Nat) :
    (containerSplit s id quota).1.container j =
      if j = id then
        let c := if id = (containerSplit s id quota).2 then ⟨quota, 0, BitVec.ofNat 32 id, 0, 1⟩ else s.container id
        { c with usage := c.usage + quota, nchildren := (s.container id).nchildren + 1 }
      else if j = (containerSplit s id quota).2 then ⟨quota, 0, BitVec.ofNat 32 id, 0, 1⟩
      else s.container j := by
  unfold containerSplit modifyContainer
  dsimp only
  by_cases here : j = id
  · subst here
    rw [if_pos rfl, update_self, update_apply]
  · rw [if_neg here, update_of_ne here, update_apply]

def blankVm : VmState where
  numPages := 0
  numPages_le := by decide
  allocTable _ := ⟨0, 0⟩
  lastPallocIndex := 262144
  container _ := ⟨100, 0, 0, 0, 1⟩
  pdirPool _ _ := 0
  mem _ := 0

end Certikos
