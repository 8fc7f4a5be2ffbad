import Certikos.Memory.OwnFrames
import Certikos.Memory.Quota

/-!
# What the allocators answer

`palloc` against a scan of the whole table, what a failed allocation leaves behind, and the quota test of
`container_can_consume` against the integers.
-/

namespace Certikos
open Lib

/-! ## The allocator and the naive scan -/

/-- `palloc` fails exactly when no page can be handed out at all, and otherwise takes one such page. -/
structure AgreesWithScan (s : VmState) : Prop where
  fails_iff : (palloc s).2 = 0 ↔ ∀ i, ¬Available s i
  takes : (palloc s).2 ≠ 0 → Available s (palloc s).2 ∧
    (palloc s).1.allocTable =
      Function.update s.allocTable (palloc s).2 { s.allocTable (palloc s).2 with allocated := 1 }

/-- Pages at or below the cursor are missed: the allocator agrees with the scan exactly when there is a page
above the cursor, or none anywhere. -/
theorem palloc_agrees_iff (s : VmState) :
    AgreesWithScan s ↔ (∃ i, s.lastPallocIndex < i ∧ Available s i) ∨ ∀ i, ¬Available s i := by
  rcases palloc_cases s with ⟨result, none⟩ | ⟨k, result, above, available, -⟩
  · constructor
    · intro agrees
      exact .inr (agrees.fails_iff.1 (by rw [result]))
    · rintro (⟨i, above, available⟩ | nowhere)
      · exact absurd available (none i above)
      · exact ⟨by simp [result, nowhere], fun found => absurd (by rw [result]) found⟩
  · have found : (palloc s).2 ≠ 0 := by
      rw [result]
      exact ne_of_gt (Nat.zero_lt_of_lt above)
    constructor
    · exact fun _ => .inl ⟨k, above, available⟩
    · intro _
      constructor
      · constructor
        · exact fun zero => absurd zero found
        · exact fun nowhere => absurd available (nowhere k)
      · intro _
        rw [result]
        exact ⟨available, rfl⟩

def loneMap : List MemRange := [⟨0x40000000, 0x1000, true⟩]

theorem palloc_misses_lone :
    (palloc (pmemInit loneMap blankVm)).2 = 0 ∧ Available (pmemInit loneMap blankVm) 262144 ∧
      ¬AgreesWithScan (pmemInit loneMap blankVm) := by
  have here : Available (pmemInit loneMap blankVm) 262144 := (pmemInit_available _ _ _).2 (by decide)
  have cursor : (pmemInit loneMap blankVm).lastPallocIndex = 262144 :=
    loop_preserves (fun t : VmState => t.lastPallocIndex = 262144) rfl fun _ _ _ same => same
  have above (i : Nat) (lt : 262144 < i) : ¬Available (pmemInit loneMap blankVm) i := by
    intro available
    obtain ⟨bound, perm⟩ := (pmemInit_available _ _ _).1 available
    have last : i = 262145 := by
      have : memNps loneMap = 262146 := by decide
      omega
    rw [last] at perm
    exact absurd perm (by decide)
  have zero : (palloc (pmemInit loneMap blankVm)).2 = 0 := by
    rcases palloc_cases (pmemInit loneMap blankVm) with ⟨result, -⟩ | ⟨k, -, later, available, -⟩
    · rw [result]
    · exact absurd available (above k (cursor ▸ later))
  exact ⟨zero, here, fun agrees => agrees.fails_iff.1 zero 262144 here⟩

/-! ## Failed allocations -/

structure Untouched (s t : VmState) (id : Nat) : Prop where
  usage : (t.container id).usage = (s.container id).usage
  flags : ∀ i, atIsAllocated t i = atIsAllocated s i
  directories : t.pdirPool = s.pdirPool
  tables : t.mem = s.mem

def pagesAsked (s : VmState) (pid : Nat) (va : Word) : Nat := if getPdirEntryByVa s pid va = 0#32 then 2 else 1

section Failed

variable {s : VmState} {pid : Nat}

theorem usage_containerAlloc (s : VmState) (pid : Nat) : ((containerAlloc s pid).1.container pid).usage =
      if room s pid = 0 then (s.container pid).usage else (s.container pid).usage + 1 := by
  have charged : ((charge s pid).container pid).usage = (s.container pid).usage + 1 := by
    simp [charge, modifyContainer]
  rcases containerAlloc_cases s pid with ⟨full, result⟩ | ⟨left, ⟨-, result⟩ | ⟨f, -, -, -, result⟩⟩
  · rw [result, if_pos (Nat.eq_zero_of_not_pos fun pos => room_pos.1 pos full)]
  · rw [result, if_neg (ne_of_gt (room_pos.2 left))]
    exact charged
  · rw [result, if_neg (ne_of_gt (room_pos.2 left))]
    exact charged

theorem containerAlloc_fails_iff (s : VmState) (pid : Nat) :
    (containerAlloc s pid).2 = 0 ↔ ¬(1 ≤ room s pid ∧ 1 ≤ (stock s).card) := by
  rcases containerAlloc_supply s pid with ⟨failed, short⟩ | ⟨found, room₁, stock₁⟩
  · simp only [failed, true_iff]
    exact short
  · simp only [found, false_iff, not_not]
    exact ⟨by omega, by omega⟩

theorem allocPage_charges (va : Word) (perm : Nat) (left : room s pid ≠ 0)
    (failed : (allocPage s pid va perm).2 = magicNumber) :
    ((allocPage s pid va perm).1.container pid).usage ≠ (s.container pid).usage := by
  have first := usage_containerAlloc s pid
  rw [if_neg left] at first
  unfold allocPage at failed ⊢
  dsimp only at failed ⊢
  split at failed
  · rename_i none
    rw [if_pos none, first]
    bv_omega
  · rename_i found
    rw [if_neg found]
    have second := usage_containerAlloc (containerAlloc s pid).1 pid
    have magic := containerAlloc_ne_magic (containerAlloc s pid).1 pid
    rcases mapPage_cases (containerAlloc s pid).1 pid va (containerAlloc s pid).2 perm with
      ⟨-, mapped⟩ | ⟨-, ⟨-, mapped⟩ | ⟨-, mapped⟩⟩
    · rw [mapped] at failed
      exact absurd failed (show (0 : Nat) ≠ magicNumber by decide)
    · rw [mapped]
      rw [second, first]
      split <;> bv_omega
    · rw [mapped] at failed
      exact absurd failed magic

theorem allocPage_fails_iff (s : VmState) (pid : Nat) (va : Word) (perm : Nat) :
    (allocPage s pid va perm).2 = magicNumber ↔
      ¬(pagesAsked s pid va ≤ room s pid ∧ pagesAsked s pid va ≤ (stock s).card) := by
  have asked : 1 ≤ pagesAsked s pid va := by
    unfold pagesAsked
    split <;> omega
  have first := containerAlloc_supply s pid
  have pde : getPdirEntryByVa (containerAlloc s pid).1 pid va = getPdirEntryByVa s pid va := by
    rw [getPdirEntryByVa, getPdirEntry, (containerAlloc_frame s pid).1]
    rfl
  unfold allocPage
  dsimp only
  split
  · rename_i none
    omega
  · rename_i found
    obtain ⟨-, room₁, stock₁⟩ := first.resolve_left fun h => found h.1
    have second := containerAlloc_fails_iff (containerAlloc s pid).1 pid
    have magic := containerAlloc_ne_magic (containerAlloc s pid).1 pid
    rcases mapPage_cases (containerAlloc s pid).1 pid va (containerAlloc s pid).2 perm with
      ⟨dir, mapped⟩ | ⟨dir, ⟨failed, mapped⟩ | ⟨ok, mapped⟩⟩
    · have one : pagesAsked s pid va = 1 := if_neg (pde ▸ dir)
      rw [mapped, one]
      simp only [show (0 : Nat) ≠ magicNumber by decide, false_iff, not_not]
      omega
    · have two : pagesAsked s pid va = 2 := if_pos (pde ▸ dir)
      rw [mapped, two]
      omega
    · have two : pagesAsked s pid va = 2 := if_pos (pde ▸ dir)
      rw [mapped, two]
      omega

end Failed

structure QuotaExact (s : VmState) (id : Nat) (n : Word) : Prop where
  test : containerCanConsume s id n = true ↔
    (s.container id).usage.toInt + n.toNat ≤ (s.container id).quota.toInt
  split : containerCanConsume s id n = true →
    ((containerSplit s id n).1.container id).usage.toInt = (s.container id).usage.toInt + n.toNat ∧
      0 ≤ ((containerSplit s id n).1.container id).usage.toInt ∧
      ((containerSplit s id n).1.container id).usage.toInt ≤ ((containerSplit s id n).1.container id).quota.toInt ∧
      0 ≤ ((containerSplit s id n).1.container (containerSplit s id n).2).quota.toInt

section Test

variable {s : VmState} {id : Nat} {n : Word}

theorem toInt_nonneg {w : Word} (nonneg : 0 ≤ w.toInt) : w.toInt = w.toNat ∧ w.toNat < 2 ^ 31 := by
  rw [BitVec.toInt_eq_toNat_cond] at *
  split at nonneg <;> omega

theorem toInt_small {w : Word} (small : w.toNat < 2 ^ 31) : w.toInt = w.toNat := by
  rw [BitVec.toInt_eq_toNat_cond, if_pos (by omega)]

theorem canConsume_iff : containerCanConsume s id n = true ↔
    ((s.container id).usage.toNat + n.toNat) % 2 ^ 32 ≤ (s.container id).quota.toNat := by
  unfold containerCanConsume
  rw [← BitVec.toNat_add]
  split
  · rename_i beyond
    rw [gt_iff_lt, BitVec.lt_def] at beyond
    simp only [Bool.false_eq_true, false_iff]
    omega
  · rename_i within
    rw [gt_iff_lt, BitVec.lt_def] at within
    simp only [true_iff]
    omega

theorem containerSplit_account (s : VmState) (id : Nat) (n : Word) : ((containerSplit s id n).1.container id).usage =
        (if (containerSplit s id n).2 = id then 0#32 else (s.container id).usage) + n ∧
      ((containerSplit s id n).1.container id).quota =
        (if (containerSplit s id n).2 = id then n else (s.container id).quota) ∧
      ((containerSplit s id n).1.container (containerSplit s id n).2).quota = n := by
  have parent : (containerSplit s id n).1.container id = _ := container_split n id
  have child : (containerSplit s id n).1.container (containerSplit s id n).2 = _ := container_split n _
  rw [if_pos rfl] at parent
  by_cases same : (containerSplit s id n).2 = id
  · rw [if_pos same, if_pos same.symm] at child
    rw [if_pos same.symm] at parent
    rw [parent, child, if_pos same, if_pos same]
    exact ⟨rfl, rfl, rfl⟩
  · rw [if_neg same, if_pos rfl] at child
    rw [if_neg (Ne.symm same)] at parent
    rw [parent, child, if_neg same, if_neg same]
    exact ⟨rfl, rfl, rfl⟩

/-- The test adds modulo `2 ^ 32`, so it is exact as long as the sum does not wrap around; and the container that
`container_split` fills must not be the parent itself, unless the parent has used nothing. -/
theorem quotaTest_exact_iff (s : VmState) (id : Nat) (n : Word) (usage : 0 ≤ (s.container id).usage.toInt)
    (quota : (s.container id).usage.toInt ≤ (s.container id).quota.toInt) :
    QuotaExact s id n ↔
      (s.container id).usage.toNat + n.toNat < 2 ^ 32 ∧
        (containerCanConsume s id n = true → (containerSplit s id n).2 = id → (s.container id).usage = 0#32) := by
  obtain ⟨u, uSmall⟩ := toInt_nonneg usage
  obtain ⟨q, qSmall⟩ := toInt_nonneg (usage.trans quota)
  obtain ⟨usage', quota', child⟩ := containerSplit_account s id n
  constructor
  · intro holds
    have fits : (s.container id).usage.toNat + n.toNat < 2 ^ 32 := by
      by_contra wraps
      have test := holds.test
      rw [canConsume_iff, u, q] at test
      omega
    refine ⟨fits, fun passes same => ?_⟩
    have bound := canConsume_iff.1 passes
    obtain ⟨after, -⟩ := holds.split passes
    rw [usage', if_pos same, BitVec.zero_add, toInt_small (by omega), u] at after
    exact BitVec.eq_of_toNat_eq (by simpa using after)
  · rintro ⟨fits, apart⟩
    constructor
    · rw [canConsume_iff, u, q]
      omega
    · intro passes
      have bound := canConsume_iff.1 passes
      have small : n.toInt = n.toNat := toInt_small (by omega)
      rw [usage', quota', child, u, small]
      by_cases same : (containerSplit s id n).2 = id
      · rw [if_pos same, if_pos same, BitVec.zero_add, small, apart passes same]
        simp
      · have sum : ((s.container id).usage + n).toNat = (s.container id).usage.toNat + n.toNat := by
          rw [BitVec.toNat_add, Nat.mod_eq_of_lt fits]
        rw [if_neg same, if_neg same, toInt_small (by omega), sum, q]
        omega

end Test

theorem quotaTest_exact_iff_ten :
    0 ≤ (blankVm.container 1).usage.toInt ∧ (blankVm.container 1).usage.toInt ≤ (blankVm.container 1).quota.toInt ∧
      QuotaExact blankVm 1 10 :=
  ⟨by decide, by decide, (quotaTest_exact_iff blankVm 1 10 (by decide) (by decide)).2 (by decide)⟩

theorem quotaTest_wraps :
    0 ≤ ((charge blankVm 1).container 1).usage.toInt ∧
      ((charge blankVm 1).container 1).usage.toInt ≤ ((charge blankVm 1).container 1).quota.toInt ∧
      ¬QuotaExact (charge blankVm 1) 1 0xffffffff ∧
      ((containerSplit (charge blankVm 1) 1 0xffffffff).1.container 1).usage = 0#32 ∧
      ((containerSplit (charge blankVm 1) 1 0xffffffff).1.container 4).quota.toInt = -1 :=
  ⟨by decide, by decide, fun holds => absurd (holds.test.1 (by decide)) (by decide), by decide, by decide⟩

end Certikos
