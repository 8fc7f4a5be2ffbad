import Certikos.Lib.Budget
import Certikos.Memory.Boot
import Mathlib.Order.Interval.Finset.Nat

/-!
# Quotas

The containers of `MContainer.c` are a tree of budgets: a page that `container_alloc` hands out is spent, and
`container_split` hands part of the quota on to a child.
-/

namespace Certikos
open Lib Function

structure Ledger where
  vm : VmState
  pages : Nat → List Nat

inductive ContainerOp
  | alloc (id : Nat)
  | split (id : Nat) (quota : Word)

def Ledger.exec (l : Ledger) : ContainerOp → Ledger
  | .alloc id =>
    let (vm, page) := containerAlloc l.vm id
    ⟨vm, if page = 0 then l.pages else update l.pages id (page :: l.pages id)⟩
  | .split id quota => ⟨(containerSplit l.vm id quota).1, l.pages⟩

def Used (s : VmState) (id : Nat) : Prop := id < numIds ∧ (s.container id).used ≠ 0#32
deriving Decidable

def ContainerOp.Allowed (l : Ledger) : ContainerOp → Prop
  | .alloc id => Used l.vm id
  | .split id quota =>
    Used l.vm id ∧ containerCanConsume l.vm id quota = true ∧
      (containerGetNchildren l.vm id).toNat < maxChildren ∧ id * maxChildren + maxChildren < numIds ∧
      quota.toNat < 2 ^ 31

def Ledger.step (l : Ledger) (op : ContainerOp) : Except Empty Ledger := .ok (l.exec op)

def availablePages (s : VmState) : Finset Nat := (Finset.Ico 1 (getNps s)).filter (Available s)

def allocatedPages (s : VmState) : Finset Nat := (Finset.range (getNps s)).filter fun i => atIsAllocated s i = 1

def Ledger.budget (l : Ledger) : Budget Nat where
  members := (Finset.range numIds).filter (Used l.vm)
  root := 0
  parent id := (l.vm.container id).parent.toNat
  quota id := (l.vm.container id).quota.toNat
  usage id := (l.vm.container id).usage.toNat
  spent id := (l.pages id).length

/-- The invariant: the budgets balance, small enough for 32 bits, and the children of `id` are the used ones of
`3 * id + 1` to `3 * id + 3` in this order. -/
structure Accounted (l : Ledger) : Prop where
  balanced : l.budget.Balanced
  small : ∀ id, Used l.vm id → (l.vm.container id).quota.toNat < 2 ^ 31
  few : ∀ id, Used l.vm id → (containerGetNchildren l.vm id).toNat = 0 ∨
    (containerGetNchildren l.vm id).toNat ≤ maxChildren ∧ id * maxChildren + maxChildren < numIds
  placed : ∀ c, Used l.vm c ↔ c < numIds ∧ (c = 0 ∨ Used l.vm ((c - 1) / maxChildren) ∧
    (c - 1) % maxChildren < (containerGetNchildren l.vm ((c - 1) / maxChildren)).toNat)
  parent : ∀ c, Used l.vm c → c ≠ 0 → (l.vm.container c).parent.toNat = (c - 1) / maxChildren
  unused : ∀ id, ¬Used l.vm id → l.pages id = []
  allocated : (allocatedPages l.vm).card = ∑ id ∈ l.budget.members, l.budget.spent id

section

variable {l : Ledger} {id : Nat}

theorem mem_members : id ∈ l.budget.members ↔ Used l.vm id := by
  simp only [Ledger.budget, Finset.mem_filter, Finset.mem_range, and_iff_right_iff_imp]
  exact fun used => used.1

/-! ## Allocating -/

theorem container_charge (s : VmState) (id j : Nat) : (charge s id).container j =
    if j = id then { s.container id with usage := (s.container id).usage + 1 } else s.container j := by
  unfold charge modifyContainer
  dsimp only
  by_cases here : j = id
  · rw [if_pos here, here, update_self]
  · rw [if_neg here, update_of_ne here]

theorem part_charge {α : Type} (part : SContainer → α) (s : VmState) (id j : Nat)
    (keep : ∀ c u, part { c with usage := u } = part c) :
    part ((charge s id).container j) = part (s.container j) := by
  rw [container_charge]
  split
  · rename_i here
    rw [keep, here]
  · rfl

section Charged

variable {l' : Ledger} {n : Nat} (containers : l'.vm.container = (charge l.vm id).container)
variable (spent : ∀ j, (l'.pages j).length =
  update (fun i => (l.pages i).length) id ((l.pages id).length + n) j)
include containers

theorem used_charged (j : Nat) : Used l'.vm j ↔ Used l.vm j := by
  unfold Used
  rw [containers, part_charge (fun c => c.used) l.vm id j fun _ _ => rfl]

include spent in
theorem budget_charged (room : (l.vm.container id).usage.toNat < 2 ^ 31) : l'.budget = l.budget.charge id 1 n := by
  apply Budget.ext
  · exact Finset.filter_congr fun j _ => used_charged containers j
  · rfl
  · funext j
    change (l'.vm.container j).parent.toNat = _
    rw [containers]
    exact part_charge (fun c => c.parent.toNat) l.vm id j fun _ _ => rfl
  · funext j
    change (l'.vm.container j).quota.toNat = _
    rw [containers]
    exact part_charge (fun c => c.quota.toNat) l.vm id j fun _ _ => rfl
  · funext j
    change (l'.vm.container j).usage.toNat = update (fun i => (l.vm.container i).usage.toNat) id _ j
    rw [containers, container_charge]
    by_cases here : j = id
    · subst here
      rw [if_pos rfl, update_self]
      change _ = (l.vm.container j).usage.toNat + 1
      exact BitVec.toNat_add_of_lt (by simp only [BitVec.ofNat_eq_ofNat, BitVec.toNat_ofNat]; omega)
    · rw [if_neg here, update_of_ne here]
  · funext j
    exact spent j

include spent in
theorem Accounted.charged (h : Accounted l) (used : Used l.vm id)
    (room : (l.vm.container id).usage ≠ (l.vm.container id).quota) (le : n ≤ 1)
    (allocated : (allocatedPages l'.vm).card = (allocatedPages l.vm).card + n) : Accounted l' := by
  have within := h.balanced.within id (mem_members.2 used)
  change (l.vm.container id).usage.toNat ≤ (l.vm.container id).quota.toNat at within
  have less : (l.vm.container id).usage.toNat < (l.vm.container id).quota.toNat :=
    Nat.lt_of_le_of_ne within fun e => room (BitVec.eq_of_toNat_eq e)
  have budget := budget_charged containers spent (less.trans (h.small id used))
  have nchildren (j : Nat) : containerGetNchildren l'.vm j = containerGetNchildren l.vm j := by
    unfold containerGetNchildren
    rw [containers]
    exact part_charge (fun c => c.nchildren) l.vm id j fun _ _ => rfl
  refine ⟨?_, fun j hj => ?_, fun j hj => ?_, fun c => ?_, fun c hc => ?_, fun j hj => ?_, ?_⟩
  · rw [budget]
    exact h.balanced.charge le less
  · rw [containers, part_charge (fun c => c.quota) l.vm id j fun _ _ => rfl]
    exact h.small j ((used_charged containers j).1 hj)
  · rw [nchildren]
    exact h.few j ((used_charged containers j).1 hj)
  · rw [used_charged containers, used_charged containers, nchildren]
    exact h.placed c
  · rw [containers, part_charge (fun c => c.parent) l.vm id c fun _ _ => rfl]
    exact h.parent c ((used_charged containers c).1 hc)
  · have unused := fun hu => hj ((used_charged containers j).2 hu)
    have other : j ≠ id := fun e => unused (e ▸ used)
    have empty := spent j
    rw [update_of_ne other, h.unused j unused] at empty
    exact List.eq_nil_of_length_eq_zero empty
  · rw [allocated, h.allocated, budget, Budget.sum_spent_charge (mem_members.2 used)]

end Charged

theorem allocatedPages_insert {s : VmState} {f : Nat} (lt : f < getNps s) :
    allocatedPages (atSetAllocated s f 1) = insert f (allocatedPages s) := by
  ext i
  have nps : getNps (atSetAllocated s f 1) = getNps s := rfl
  simp only [allocatedPages, Finset.mem_filter, Finset.mem_range, Finset.mem_insert, nps, allocated_setAllocated]
  by_cases here : i = f
  · simp [here, lt]
  · simp [here]

theorem Accounted.alloc (h : Accounted l) (used : Used l.vm id) : Accounted (l.exec (.alloc id)) := by
  unfold Ledger.exec
  dsimp only
  rcases containerAlloc_cases l.vm id with ⟨-, result⟩ | ⟨room, ⟨-, result⟩ | ⟨f, above, available, -, result⟩⟩
  · rw [result]
    exact h
  · rw [result]
    refine h.charged (n := 0) rfl (fun j => ?_) used room (Nat.zero_le 1) rfl
    rw [if_pos rfl]
    by_cases here : j = id
    · rw [here, update_self, Nat.add_zero]
    · rw [update_of_ne here]
  · rw [result]
    refine h.charged (n := 1) rfl (fun j => ?_) used room le_rfl ?_
    · dsimp only
      rw [if_neg (Nat.ne_zero_of_lt above)]
      by_cases here : j = id
      · rw [here, update_self, update_self, List.length_cons]
      · rw [update_of_ne here, update_of_ne here]
    · have fresh : f ∉ allocatedPages l.vm := by
        simp [allocatedPages, available.2.2]
      have inserted : allocatedPages (atSetAllocated (charge l.vm id) f 1) = insert f (allocatedPages l.vm) :=
        allocatedPages_insert available.1
      rw [← Finset.card_insert_of_notMem fresh, ← inserted]
      rfl

/-! ## Splitting -/

section Split

variable {quota : Word} (h : Accounted l) (allowed : (ContainerOp.split id quota).Allowed l)
include h allowed

theorem Accounted.fresh :
    (containerSplit l.vm id quota).2 < numIds ∧ ¬Used l.vm (containerSplit l.vm id quota).2 := by
  obtain ⟨used, consume, room, fits, small⟩ := allowed
  rw [containerSplit_child quota fits room]
  refine ⟨by simp only [maxChildren, numIds] at *; omega, fun taken => ?_⟩
  rcases ((h.placed _).1 taken).2 with zero | ⟨-, less⟩
  · omega
  · have parent : (id * maxChildren + 1 + (containerGetNchildren l.vm id).toNat - 1) / maxChildren = id := by
      simp only [maxChildren] at *
      omega
    rw [parent] at less
    simp only [maxChildren] at *
    omega

theorem Accounted.fits : (l.vm.container id).usage.toNat + quota.toNat ≤ (l.vm.container id).quota.toNat := by
  obtain ⟨used, consume, room, fits, small⟩ := allowed
  have within := h.balanced.within id (mem_members.2 used)
  change (l.vm.container id).usage.toNat ≤ (l.vm.container id).quota.toNat at within
  have quotaSmall := h.small id used
  have le : ¬(l.vm.container id).usage + quota > (l.vm.container id).quota := by
    intro exceeds
    simp [containerCanConsume, exceeds] at consume
  rw [gt_iff_lt, BitVec.lt_def, BitVec.toNat_add] at le
  omega

theorem Accounted.container_split (j : Nat) : (containerSplit l.vm id quota).1.container j =
    if j = id then
      { l.vm.container id with
        usage := (l.vm.container id).usage + quota, nchildren := (l.vm.container id).nchildren + 1 }
    else if j = (containerSplit l.vm id quota).2 then ⟨quota, 0, BitVec.ofNat 32 id, 0, 1⟩
    else l.vm.container j := by
  have other : id ≠ (containerSplit l.vm id quota).2 := by
    intro same
    exact (h.fresh allowed).2 (same ▸ allowed.1)
  rw [Certikos.container_split, if_neg other]

theorem Accounted.used_split (j : Nat) :
    Used (containerSplit l.vm id quota).1 j ↔ Used l.vm j ∨ j = (containerSplit l.vm id quota).2 := by
  obtain ⟨lt, fresh⟩ := h.fresh allowed
  unfold Used
  rw [h.container_split allowed]
  by_cases parent : j = id
  · subst parent
    rw [if_pos rfl]
    exact ⟨.inl, fun _ => allowed.1⟩
  · rw [if_neg parent]
    by_cases child : j = (containerSplit l.vm id quota).2
    · simp [child, lt]
    · simp [child]

theorem Accounted.child_ne : (containerSplit l.vm id quota).2 ≠ id := by
  intro same
  apply (h.fresh allowed).2
  rw [same]
  exact allowed.1

theorem Accounted.part_split {α : Type} (part : SContainer → α)
    (keep : ∀ c u n, part { c with usage := u, nchildren := n } = part c) (j : Nat) :
    part ((containerSplit l.vm id quota).1.container j) =
      update (fun i => part (l.vm.container i)) (containerSplit l.vm id quota).2
        (part ⟨quota, 0, BitVec.ofNat 32 id, 0, 1⟩) j := by
  rw [h.container_split allowed, update_apply]
  by_cases parent : j = id
  · rw [if_pos parent, if_neg (parent ▸ (h.child_ne allowed).symm), keep, parent]
  · rw [if_neg parent]
    split
    · rfl
    · rfl

theorem Accounted.budget_split :
    (l.exec (.split id quota)).budget = l.budget.grant id (containerSplit l.vm id quota).2 quota.toNat := by
  obtain ⟨lt, fresh⟩ := h.fresh allowed
  apply Budget.ext
  · ext j
    rw [mem_members]
    change _ ↔ j ∈ insert _ l.budget.members
    rw [Finset.mem_insert, mem_members, or_comm]
    exact h.used_split allowed j
  · rfl
  · funext j
    have parent := h.part_split allowed (fun c => c.parent.toNat) (fun _ _ _ => rfl) j
    rwa [BitVec.toNat_ofNat, Nat.mod_eq_of_lt (lt_trans allowed.1.1 (by decide))] at parent
  · funext j
    exact h.part_split allowed (fun c => c.quota.toNat) (fun _ _ _ => rfl) j
  · funext j
    change ((containerSplit l.vm id quota).1.container j).usage.toNat =
      update (update (fun i => (l.vm.container i).usage.toNat) _ 0) id
        ((l.vm.container id).usage.toNat + quota.toNat) j
    rw [h.container_split allowed, update_apply, update_apply]
    by_cases parent : j = id
    · rw [if_pos parent, if_pos parent]
      have fits := h.fits allowed
      exact BitVec.toNat_add_of_lt (by omega)
    · rw [if_neg parent, if_neg parent]
      split
      · rfl
      · rfl
  · funext j
    change (l.pages j).length = update (fun i => (l.pages i).length) _ 0 j
    rw [update_apply]
    split
    · rename_i child
      rw [child, h.unused _ fresh]
      rfl
    · rfl

theorem Accounted.nchildren_split (j : Nat) : (containerGetNchildren (containerSplit l.vm id quota).1 j).toNat =
      if j = id then (containerGetNchildren l.vm id).toNat + 1 else if j = (containerSplit l.vm id quota).2 then 0
      else (containerGetNchildren l.vm j).toNat := by
  have room : (l.vm.container id).nchildren.toNat < 3 := allowed.2.2.1
  change ((containerSplit l.vm id quota).1.container j).nchildren.toNat = _
  rw [h.container_split allowed]
  split
  · exact BitVec.toNat_add_of_lt (by simp only [BitVec.ofNat_eq_ofNat, BitVec.toNat_ofNat]; omega)
  · split
    · rfl
    · rfl

theorem Accounted.placed_split (c : Nat) : Used (containerSplit l.vm id quota).1 c ↔ c < numIds ∧ (c = 0 ∨
    Used (containerSplit l.vm id quota).1 ((c - 1) / maxChildren) ∧ (c - 1) % maxChildren <
      (containerGetNchildren (containerSplit l.vm id quota).1 ((c - 1) / maxChildren)).toNat) := by
  obtain ⟨lt, fresh⟩ := h.fresh allowed
  have placed := h.placed c
  have child := containerSplit_child quota allowed.2.2.2.1 allowed.2.2.1
  have room := allowed.2.2.1
  have parent := allowed.1
  rw [h.used_split allowed, h.used_split allowed, h.nchildren_split allowed]
  generalize (containerSplit l.vm id quota).2 = new at *
  by_cases own : (c - 1) / maxChildren = id
  · rw [own] at placed ⊢
    simp only [parent, true_and, if_true, true_or] at placed ⊢
    rw [placed]
    simp only [maxChildren] at *
    omega
  · rw [if_neg own]
    by_cases under : (c - 1) / maxChildren = new
    · rw [under] at placed ⊢
      simp only [fresh, false_and, or_false] at placed
      rw [placed]
      simp only [if_true, Nat.not_lt_zero, and_false, or_false, maxChildren] at *
      omega
    · have other : c ≠ new := by
        rintro rfl
        simp only [maxChildren] at *
        omega
      simp only [under, other, or_false, if_false, placed]

theorem Accounted.split : Accounted (l.exec (.split id quota)) := by
  obtain ⟨lt, fresh⟩ := h.fresh allowed
  have used := h.used_split allowed
  have budget := h.budget_split allowed
  have child := containerSplit_child quota allowed.2.2.2.1 allowed.2.2.1
  have room := allowed.2.2.1
  have notMember : (containerSplit l.vm id quota).2 ∉ l.budget.members := fun mem => fresh (mem_members.1 mem)
  refine ⟨?_, fun j hj => ?_, fun j hj => ?_, h.placed_split allowed, fun c hc nonzero => ?_, fun j hj => ?_, ?_⟩
  · rw [budget]
    exact h.balanced.grant (mem_members.2 allowed.1) notMember (h.fits allowed)
  · have quotas := h.part_split allowed (fun c => c.quota) (fun _ _ _ => rfl) j
    change ((containerSplit l.vm id quota).1.container j).quota.toNat < _
    rw [quotas, update_apply]
    split
    · exact allowed.2.2.2.2
    · rename_i other
      exact h.small j (((used j).1 hj).resolve_right other)
  · have few := h.nchildren_split allowed j
    change (containerGetNchildren (containerSplit l.vm id quota).1 j).toNat = 0 ∨
      (containerGetNchildren (containerSplit l.vm id quota).1 j).toNat ≤ _ ∧ _
    rw [few]
    split
    · rename_i own
      exact .inr ⟨room, own ▸ allowed.2.2.2.1⟩
    · split
      · exact .inl rfl
      · rename_i other
        exact h.few j (((used j).1 hj).resolve_right other)
  · have parents := h.part_split allowed (fun c => c.parent.toNat) (fun _ _ _ => rfl) c
    change ((containerSplit l.vm id quota).1.container c).parent.toNat = _
    rw [parents, update_apply]
    split
    · rename_i new
      rw [BitVec.toNat_ofNat, Nat.mod_eq_of_lt (lt_trans allowed.1.1 (by decide)), new, child]
      simp only [maxChildren] at *
      omega
    · rename_i other
      exact h.parent c (((used c).1 hc).resolve_right other) nonzero
  · exact h.unused j fun old => hj ((used j).2 (.inl old))
  · rw [budget, Budget.sum_spent_grant notMember]
    exact h.allocated

end Split

theorem Accounted.exec (h : Accounted l) {op : ContainerOp} (allowed : op.Allowed l) : Accounted (l.exec op) := by
  cases op with
  | alloc id => exact h.alloc allowed
  | split id quota => exact h.split allowed

theorem Accounted.quota_root (h : Accounted l) {op : ContainerOp} (allowed : op.Allowed l) :
    ((l.exec op).vm.container 0).quota = (l.vm.container 0).quota := by
  cases op with
  | alloc id =>
    have charged := part_charge (fun c => c.quota) l.vm id 0 fun _ _ => rfl
    unfold Ledger.exec
    dsimp only
    rcases containerAlloc_cases l.vm id with ⟨-, result⟩ | ⟨-, ⟨-, result⟩ | ⟨f, -, -, -, result⟩⟩
    · rw [result]
    · rw [result]
      exact charged
    · rw [result]
      exact charged
  | split id quota =>
    have child := containerSplit_child quota allowed.2.2.2.1 allowed.2.2.1
    refine (h.part_split allowed (fun c => c.quota) (fun _ _ _ => rfl) 0).trans (update_of_ne ?_ ..)
    omega

end

/-! ## Booting -/

def bootLedger (mmap : List MemRange) (s : VmState) : Ledger := ⟨containerInit mmap s, fun _ => []⟩

theorem loop_count (P : Nat → Prop) [DecidablePred P] (n : Nat) :
    loop (fun i r => if P (i + 1) then r + 1 else r) n 0 = ((Finset.Ico 1 (n + 1)).filter P).card := by
  refine loop_invariant (fun i r => r = ((Finset.Ico 1 (i + 1)).filter P).card) (by simp) fun i r _ count => ?_
  have last : Finset.Ico 1 (i + 1 + 1) = insert (i + 1) (Finset.Ico 1 (i + 1)) :=
    Nat.Ico_succ_right_eq_insert_Ico (by omega)
  rw [last, Finset.filter_insert, count]
  split
  · rw [Finset.card_insert_of_notMem (by simp)]
  · rfl

section Boot

variable (mmap : List MemRange) (s : VmState)

theorem containerInit_quota :
    ((containerInit mmap s).container 0).quota = BitVec.ofNat 32 (availablePages (pmemInit mmap s)).card := by
  unfold containerInit modifyContainer
  dsimp only
  rw [update_self]
  dsimp only
  rw [loop_count fun i => atIsNorm (pmemInit mmap s) i = 1 ∧ atIsAllocated (pmemInit mmap s) i = 0]
  congr 2
  ext i
  simp only [availablePages, Available, Finset.mem_filter, Finset.mem_Ico]
  omega

theorem availablePages_small : (availablePages (pmemInit mmap s)).card < 2 ^ 31 := by
  have le : (availablePages (pmemInit mmap s)).card ≤ (Finset.Ico 1 (getNps (pmemInit mmap s))).card :=
    Finset.card_filter_le ..
  have nps : getNps (pmemInit mmap s) ≤ 1048576 := (pmemInit mmap s).numPages_le
  rw [Nat.card_Ico] at le
  omega

theorem containerInit_root :
    ((containerInit mmap s).container 0).quota.toNat = (availablePages (pmemInit mmap s)).card := by
  have small := availablePages_small mmap s
  rw [containerInit_quota, BitVec.toNat_ofNat]
  omega

variable {mmap s} (zeroed : ∀ id, (s.container id).used = 0#32)
include zeroed

theorem bootLedger_used (id : Nat) : Used (bootLedger mmap s).vm id ↔ id = 0 := by
  have containers : (pmemInit mmap s).container = s.container :=
    loop_preserves (fun t : VmState => t.container = s.container) rfl fun _ _ _ same => same
  unfold Used bootLedger containerInit modifyContainer
  by_cases root : id = 0
  · simp [root, numIds]
  · simp [root, containers, zeroed]

theorem bootLedger_accounted : Accounted (bootLedger mmap s) := by
  have used (id : Nat) : Used (bootLedger mmap s).vm id ↔ id = 0 := bootLedger_used zeroed id
  have childless (c : Nat) (hc : Used (bootLedger mmap s).vm c) : containerGetNchildren (bootLedger mmap s).vm c = 0 := by
    rw [(used c).1 hc]
    rfl
  refine ⟨⟨?_, fun c mem other => ?_, fun i mem => ?_, fun i mem => ?_⟩, fun id hid => ?_, fun id hid => ?_, fun c => ?_,
    fun c hc other => ?_, fun id _ => rfl, ?_⟩
  · exact mem_members.2 ((used 0).2 rfl)
  · exact absurd ((used c).1 (mem_members.1 mem)) other
  · have none : (bootLedger mmap s).budget.children i = ∅ := by
      refine Finset.eq_empty_of_forall_notMem fun c hc => ?_
      obtain ⟨member, other, -⟩ := Budget.mem_children.1 hc
      exact other ((used c).1 (mem_members.1 member))
    rw [none]
    exact Nat.zero_le _
  · obtain rfl := (used i).1 (mem_members.1 mem)
    exact Nat.zero_le _
  · obtain rfl := (used id).1 hid
    exact (containerInit_root mmap s).trans_lt (availablePages_small mmap s)
  · rw [childless id hid]
    exact .inl rfl
  · rw [used]
    constructor
    · rintro rfl
      exact ⟨by decide, .inl rfl⟩
    · rintro ⟨-, zero | ⟨parent, less⟩⟩
      · exact zero
      · rw [childless _ parent] at less
        exact absurd less (Nat.not_lt_zero _)
  · exact absurd ((used c).1 hc) other
  · have empty : allocatedPages (bootLedger mmap s).vm = ∅ := by
      refine Finset.filter_eq_empty_iff.2 fun i hi allocated => ?_
      have free := pmemInit_free mmap s (i := i) (pmemInit_nps mmap s ▸ Finset.mem_range.1 hi)
      exact absurd (free.symm.trans allocated) (by decide)
    rw [empty]
    exact (Finset.sum_eq_zero fun _ _ => rfl).symm

end Boot

def childIndices (s : VmState) (id : Nat) : Finset Nat :=
  Finset.Ico (id * maxChildren + 1) (id * maxChildren + 1 + (containerGetNchildren s id).toNat)

section Tree

variable {l : Ledger} (h : Accounted l)
include h

theorem Accounted.mem_childIndices {id c : Nat} (used : Used l.vm id) :
    c ∈ childIndices l.vm id ↔
      c < numIds ∧ c ≠ 0 ∧ (c - 1) / maxChildren = id ∧ (c - 1) % maxChildren < (containerGetNchildren l.vm id).toNat := by
  have few := h.few id used
  simp only [childIndices, Finset.mem_Ico, maxChildren, numIds] at *
  omega

theorem Accounted.children_eq {id : Nat} (used : Used l.vm id) : l.budget.children id = childIndices l.vm id := by
  ext c
  rw [h.mem_childIndices used, Budget.mem_children, mem_members]
  change Used l.vm c ∧ c ≠ 0 ∧ (l.vm.container c).parent.toNat = id ↔ _
  constructor
  · rintro ⟨member, other, rfl⟩
    have parent := h.parent c member other
    obtain ⟨lt, place⟩ := (h.placed c).1 member
    have less := (place.resolve_left other).2
    rw [parent]
    exact ⟨lt, other, rfl, less⟩
  · rintro ⟨lt, other, rfl, less⟩
    have member := (h.placed c).2 ⟨lt, .inr ⟨used, less⟩⟩
    exact ⟨member, other, h.parent c member other⟩

theorem Accounted.existsUnique_parent {c : Nat} (used : Used l.vm c) (other : c ≠ 0) :
    ∃! id, Used l.vm id ∧ c ∈ childIndices l.vm id := by
  obtain ⟨lt, place⟩ := (h.placed c).1 used
  obtain ⟨parent, less⟩ := place.resolve_left other
  refine ⟨(c - 1) / maxChildren, ⟨parent, (h.mem_childIndices parent).2 ⟨lt, other, rfl, less⟩⟩, ?_⟩
  rintro id ⟨owner, mem⟩
  exact ((h.mem_childIndices owner).1 mem).2.2.1.symm

theorem Accounted.fresh_index {id : Nat} {quota : Word} (allowed : (ContainerOp.split id quota).Allowed l) {p : Nat}
    (used : Used l.vm p) : (containerSplit l.vm id quota).2 ∉ childIndices l.vm p := by
  intro mem
  rw [← h.children_eq used] at mem
  exact (h.fresh allowed).2 (mem_members.1 (Budget.mem_children.1 mem).1)

end Tree

structure Conserved (n : Nat) (l : Ledger) : Prop where
  conserved : ∀ id, Used l.vm id →
    (l.pages id).length + ∑ c ∈ childIndices l.vm id, (l.vm.container c).quota.toNat ≤
      (l.vm.container id).usage.toNat ∧
    (l.vm.container id).usage.toNat ≤ (l.vm.container id).quota.toNat
  children : ∀ id, Used l.vm id → ∀ c ∈ childIndices l.vm id, Used l.vm c ∧ (l.vm.container c).parent.toNat = id
  oneParent : ∀ c, Used l.vm c → c ≠ 0 → ∃! id, Used l.vm id ∧ c ∈ childIndices l.vm id
  fresh : ∀ id quota, (ContainerOp.split id quota).Allowed l →
    (containerSplit l.vm id quota).2 < numIds ∧ ¬Used l.vm (containerSplit l.vm id quota).2 ∧
      ∀ p, Used l.vm p → (containerSplit l.vm id quota).2 ∉ childIndices l.vm p
  total : (allocatedPages l.vm).card = ∑ id ∈ (Finset.range numIds).filter (Used l.vm), (l.pages id).length
  bound : (allocatedPages l.vm).card ≤ (l.vm.container 0).quota.toNat
  root : (l.vm.container 0).quota.toNat = n

theorem Accounted.conserved {l : Ledger} (h : Accounted l) : Conserved (l.vm.container 0).quota.toNat l where
  conserved id used := by
    rw [← h.children_eq used]
    exact ⟨h.balanced.conserved id (mem_members.2 used), h.balanced.within id (mem_members.2 used)⟩
  children id used c mem := by
    rw [← h.children_eq used] at mem
    obtain ⟨member, -, parent⟩ := Budget.mem_children.1 mem
    exact ⟨mem_members.1 member, parent⟩
  oneParent c used other := h.existsUnique_parent used other
  fresh id quota allowed :=
    ⟨(h.fresh allowed).1, (h.fresh allowed).2, fun p used => h.fresh_index allowed used⟩
  total := h.allocated
  bound := h.allocated.trans_le h.balanced.sum_spent_le
  root := rfl

/-- Whatever is allocated and split from `container_init` on, no container goes beyond its quota, and all of them
together hold no more pages than were available at the start. -/
theorem run_conserved (mmap : List MemRange) (s : VmState) (zeroed : ∀ id, (s.container id).used = 0#32)
    (ops : List ContainerOp) (allowed : Along Ledger.step (fun l op => op.Allowed l) (bootLedger mmap s) ops)
    (l : Ledger) (reached : run Ledger.step (bootLedger mmap s) ops = .ok l) :
    Conserved (availablePages (pmemInit mmap s)).card l := by
  let start := ((bootLedger mmap s).vm.container 0).quota
  obtain ⟨accounted, root⟩ : Accounted l ∧ (l.vm.container 0).quota = start := by
    refine run_invariant (fun l => Accounted l ∧ (l.vm.container 0).quota = start) ?_
      ⟨bootLedger_accounted zeroed, rfl⟩ allowed reached
    rintro l op l' ⟨accounted, root⟩ here next
    cases next
    exact ⟨accounted.exec here, (accounted.quota_root here).trans root⟩
  have conserved := accounted.conserved
  rw [root] at conserved
  exact containerInit_root mmap s ▸ conserved

def zeroVm : VmState := { blankVm with container := fun _ => ⟨0, 0, 0, 0, 0⟩ }

theorem sampleMap_available : 10 ≤ (availablePages (pmemInit sampleMap zeroVm)).card := by
  have subset : Finset.Ico 0x40000 0x4000a ⊆ availablePages (pmemInit sampleMap zeroVm) := by
    intro i member
    obtain ⟨low, high⟩ := Finset.mem_Ico.1 member
    have available : Available (pmemInit sampleMap zeroVm) i := (sampleMap_pages zeroVm i).2 ⟨low, by omega⟩
    exact Finset.mem_filter.2 ⟨Finset.mem_Ico.2 ⟨by omega, available.1⟩, available⟩
  exact (Finset.card_le_card subset).trans' (by simp)

theorem split_root_allowed : (ContainerOp.split 0 10).Allowed (bootLedger sampleMap zeroVm) := by
  refine ⟨(bootLedger_used (fun _ => rfl) 0).2 rfl, ?_, by decide, by decide, by decide⟩
  have enough := sampleMap_available
  rw [← containerInit_root] at enough
  have unused : ((bootLedger sampleMap zeroVm).vm.container 0).usage + 10 = 10#32 := rfl
  have fits : ¬10#32 > ((bootLedger sampleMap zeroVm).vm.container 0).quota := by
    rw [gt_iff_lt, BitVec.lt_def]
    exact Nat.not_lt.2 enough
  unfold containerCanConsume
  rw [unused, if_neg fits]

theorem run_conserved_child :
    Conserved (availablePages (pmemInit sampleMap zeroVm)).card
      (((bootLedger sampleMap zeroVm).exec (.split 0 10)).exec (.alloc 1)) := by
  have accounted : Accounted (bootLedger sampleMap zeroVm) := bootLedger_accounted fun _ => rfl
  have child : Used ((bootLedger sampleMap zeroVm).exec (.split 0 10)).vm 1 :=
    (accounted.used_split split_root_allowed 1).2 (.inr rfl)
  exact run_conserved sampleMap zeroVm (fun _ => rfl) [.split 0 10, .alloc 1]
    ⟨split_root_allowed, fun _ next => Except.ok.inj next ▸ ⟨child, fun _ _ => trivial⟩⟩ _ rfl

end Certikos
