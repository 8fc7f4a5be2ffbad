import Mathlib.Data.List.Nodup

/-!
# Numbers given out one after another

A counter gives each new use the next number. The uses so far, in order, say which number each of them has; a use
without a number has zero.
-/

namespace Certikos.Lib

variable {κ : Type*} [DecidableEq κ] {base : Nat} {uses : List κ} {u v : κ}

def serial (base : Nat) (uses : List κ) (u : κ) : Nat := if u ∈ uses then base + uses.idxOf u else 0

theorem serial_of_mem (member : u ∈ uses) : serial base uses u = base + uses.idxOf u := if_pos member

theorem serial_of_not_mem (other : u ∉ uses) : serial base uses u = 0 := if_neg other

theorem serial_bounds (member : u ∈ uses) : base ≤ serial base uses u ∧ serial base uses u < base + uses.length := by
  have below := List.idxOf_lt_length_iff.mpr member
  rw [serial_of_mem member]
  omega

theorem serial_lt (positive : 0 < base) : serial base uses u < base + uses.length := by
  by_cases member : u ∈ uses
  · exact (serial_bounds member).2
  · rw [serial_of_not_mem member]
    omega

theorem serial_eq_zero (positive : 0 < base) : serial base uses u = 0 ↔ u ∉ uses := by
  constructor
  · intro zero member
    have bounds : base ≤ serial base uses u := (serial_bounds member).1
    omega
  · exact serial_of_not_mem

theorem serial_inj (member : u ∈ uses) (same : serial base uses u = serial base uses v) (positive : 0 < base) :
    u = v := by
  by_cases other : v ∈ uses
  · rw [serial_of_mem member, serial_of_mem other] at same
    exact (List.idxOf_inj member).mp (by omega)
  · rw [serial_of_not_mem other, serial_eq_zero positive] at same
    exact absurd member same

theorem serial_append_of_ne (ne : v ≠ u) : serial base (uses ++ [u]) v = serial base uses v := by
  by_cases member : v ∈ uses
  · rw [serial_of_mem member, serial_of_mem (List.mem_append_left _ member), List.idxOf_append_of_mem member]
  · rw [serial_of_not_mem member, serial_of_not_mem]
    rw [List.mem_append, List.mem_singleton]
    exact fun either => either.elim member ne

theorem serial_append_self (fresh : u ∉ uses) : serial base (uses ++ [u]) u = base + uses.length := by
  have member : u ∈ uses ++ [u] := List.mem_append_right _ (List.mem_singleton_self u)
  rw [serial_of_mem member, List.idxOf_append_of_notMem fresh, List.idxOf_cons_self, Nat.add_zero]

theorem exists_serial (nodup : uses.Nodup) {n : Nat} (above : base ≤ n) (below : n < base + uses.length) :
    ∃ u ∈ uses, serial base uses u = n := by
  have lt : n - base < uses.length := by omega
  refine ⟨uses[n - base], List.getElem_mem lt, ?_⟩
  rw [serial_of_mem (List.getElem_mem lt), nodup.idxOf_getElem]
  omega

end Certikos.Lib
