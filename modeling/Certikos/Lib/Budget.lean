import Mathlib.Algebra.BigOperators.Group.Finset.Piecewise
import Mathlib.Algebra.Order.BigOperators.Group.Finset

/-!
# A tree of budgets

Every member of a tree has a quota. It spends part of it and hands parts of it on to its children, which join the tree
with them.
-/

namespace Certikos.Lib
open Function

variable {ι : Type*} [DecidableEq ι]

@[ext]
structure Budget (ι : Type*) where
  members : Finset ι
  root : ι
  parent : ι → ι
  quota : ι → ℕ
  usage : ι → ℕ
  spent : ι → ℕ

namespace Budget

def children (b : Budget ι) (i : ι) : Finset ι := b.members.filter fun c => c ≠ b.root ∧ b.parent c = i

structure Balanced (b : Budget ι) : Prop where
  rooted : b.root ∈ b.members
  closed : ∀ c ∈ b.members, c ≠ b.root → b.parent c ∈ b.members
  conserved : ∀ i ∈ b.members, b.spent i + ∑ c ∈ b.children i, b.quota c ≤ b.usage i
  within : ∀ i ∈ b.members, b.usage i ≤ b.quota i

def charge (b : Budget ι) (i : ι) (cost got : ℕ) : Budget ι :=
  { b with
    usage := update b.usage i (b.usage i + cost)
    spent := update b.spent i (b.spent i + got) }

def grant (b : Budget ι) (i c : ι) (q : ℕ) : Budget ι where
  members := insert c b.members
  root := b.root
  parent := update b.parent c i
  quota := update b.quota c q
  usage := update (update b.usage c 0) i (b.usage i + q)
  spent := update b.spent c 0

variable {b : Budget ι} {i c : ι} {q : ℕ}

theorem Balanced.charge (h : b.Balanced) {cost got : ℕ} (le : got ≤ cost) (fits : b.usage i + cost ≤ b.quota i) :
    (b.charge i cost got).Balanced := by
  refine ⟨h.rooted, h.closed, fun j mem => ?_, fun j mem => ?_⟩
  · have old := h.conserved j mem
    change update b.spent i _ j + ∑ c ∈ b.children j, b.quota c ≤ update b.usage i _ j
    by_cases here : j = i
    · subst here
      rw [update_self, update_self]
      omega
    · rwa [update_of_ne here, update_of_ne here]
  · change update b.usage i _ j ≤ b.quota j
    by_cases here : j = i
    · subst here
      rwa [update_self]
    · rw [update_of_ne here]
      exact h.within j mem

theorem mem_children : c ∈ b.children i ↔ c ∈ b.members ∧ c ≠ b.root ∧ b.parent c = i := Finset.mem_filter

section

variable (h : b.Balanced) (fresh : c ∉ b.members)
include h fresh

theorem Balanced.children_fresh : b.children c = ∅ := by
  refine Finset.eq_empty_of_forall_notMem fun d hd => fresh ?_
  obtain ⟨mem, other, rfl⟩ := mem_children.1 hd
  exact h.closed d mem other

theorem Balanced.children_grant (j : ι) :
    (b.grant i c q).children j = if j = i then insert c (b.children j) else b.children j := by
  have notRoot : c ≠ b.root := fun e => fresh (e ▸ h.rooted)
  ext d
  have granted : d ∈ (b.grant i c q).children j ↔
      d ∈ insert c b.members ∧ d ≠ b.root ∧ update b.parent c i d = j := mem_children
  rw [granted, Finset.mem_insert]
  by_cases new : d = c
  · subst new
    rw [update_self]
    split
    · rename_i here
      simp [here, notRoot]
    · rename_i other
      simp [mem_children, fresh, Ne.symm other]
  · rw [update_of_ne new]
    split
    · simp [mem_children, new]
    · simp [mem_children, new]

theorem Balanced.sum_children_grant (j : ι) : ∑ d ∈ (b.grant i c q).children j, (b.grant i c q).quota d =
      (if j = i then q else 0) + ∑ d ∈ b.children j, b.quota d := by
  have notMem : c ∉ b.children j := fun hc => fresh (mem_children.1 hc).1
  have unchanged (d : ι) (hd : d ∈ b.children j) : update b.quota c q d = b.quota d := by
    apply update_of_ne
    rintro rfl
    exact notMem hd
  rw [h.children_grant fresh]
  change ∑ d ∈ _, update b.quota c q d = _
  split
  · rw [Finset.sum_insert notMem, update_self, Finset.sum_congr rfl unchanged]
  · rw [Finset.sum_congr rfl unchanged, Nat.zero_add]

end

theorem Balanced.grant (h : b.Balanced) (mem : i ∈ b.members) (fresh : c ∉ b.members)
    (fits : b.usage i + q ≤ b.quota i) : (b.grant i c q).Balanced := by
  have older {d : ι} (hd : d ∈ b.members) : d ≠ c := by
    rintro rfl
    exact fresh hd
  refine ⟨Finset.mem_insert_of_mem h.rooted, fun d hd other => ?_, fun j hj => ?_, fun j hj => ?_⟩
  · apply Finset.mem_insert_of_mem
    change update b.parent c i d ∈ b.members
    rcases Finset.mem_insert.1 hd with rfl | old
    · rwa [update_self]
    · rw [update_of_ne (older old)]
      exact h.closed d old other
  · rw [h.sum_children_grant fresh]
    change update b.spent c 0 j + _ ≤ update (update b.usage c 0) i _ j
    rcases Finset.mem_insert.1 hj with rfl | old
    · rw [h.children_fresh fresh, if_neg (Ne.symm (older mem)), update_self]
      simp
    · have before := h.conserved j old
      rw [update_of_ne (older old)]
      by_cases here : j = i
      · subst here
        rw [if_pos rfl, update_self]
        omega
      · rw [if_neg here, update_of_ne here, update_of_ne (older old)]
        omega
  · change update (update b.usage c 0) i _ j ≤ update b.quota c q j
    by_cases here : j = i
    · subst here
      rwa [update_self, update_of_ne (older mem)]
    · rw [update_of_ne here]
      rcases Finset.mem_insert.1 hj with rfl | old
      · rw [update_self]
        exact Nat.zero_le _
      · rw [update_of_ne (older old), update_of_ne (older old)]
        exact h.within j old

theorem sum_spent_charge (mem : i ∈ b.members) (cost got : ℕ) :
    ∑ j ∈ (b.charge i cost got).members, (b.charge i cost got).spent j = ∑ j ∈ b.members, b.spent j + got := by
  change ∑ j ∈ b.members, update b.spent i (b.spent i + got) j = _
  rw [Finset.sum_update_of_mem mem, ← Finset.add_sum_erase _ _ mem, Finset.sdiff_singleton_eq_erase]
  omega

theorem sum_spent_grant (fresh : c ∉ b.members) :
    ∑ j ∈ (b.grant i c q).members, (b.grant i c q).spent j = ∑ j ∈ b.members, b.spent j := by
  change ∑ j ∈ insert c b.members, update b.spent c 0 j = _
  rw [Finset.sum_insert fresh, update_self, Nat.zero_add, Finset.sum_update_of_notMem fresh]

theorem Balanced.sum_children (h : b.Balanced) :
    ∑ i ∈ b.members, ∑ c ∈ b.children i, b.quota c = ∑ c ∈ b.members.erase b.root, b.quota c := by
  have maps (c : ι) (hc : c ∈ b.members.erase b.root) : b.parent c ∈ b.members :=
    h.closed c (Finset.mem_of_mem_erase hc) (Finset.ne_of_mem_erase hc)
  rw [← Finset.sum_fiberwise_of_maps_to maps]
  refine Finset.sum_congr rfl fun i _ => Finset.sum_congr ?_ fun _ _ => rfl
  ext c
  simp only [mem_children, Finset.mem_filter, Finset.mem_erase]
  tauto

theorem Balanced.sum_spent_le (h : b.Balanced) : ∑ i ∈ b.members, b.spent i ≤ b.quota b.root := by
  have total : ∑ i ∈ b.members, (b.spent i + ∑ c ∈ b.children i, b.quota c) ≤ ∑ i ∈ b.members, b.quota i :=
    Finset.sum_le_sum fun i mem => (h.conserved i mem).trans (h.within i mem)
  have root := Finset.add_sum_erase b.members b.quota h.rooted
  rw [Finset.sum_add_distrib, h.sum_children] at total
  omega

end Budget

end Certikos.Lib
