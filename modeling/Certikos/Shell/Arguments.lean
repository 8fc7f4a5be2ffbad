import Certikos.Shell.Lines

/-!
# What `kill` makes of its arguments

`atoi` reads a sign and the digits a string begins with, modulo `2 ^ 32`, and nothing is made of what follows them.
-/

namespace Certikos.Shell
open Lib

def noting (s : Answers × List (Int × Int)) : Request → Answer × Answers × List (Int × Int)
  | .kill pid sig => (s.1 0, s.1.later 1, s.2 ++ [(pid, sig)])
  | _ => (s.1 0, s.1.later 1, s.2)

def value (s : CString) : Nat := s.foldl (fun acc c => acc * 10 + (c.toNat - 48)) 0

def numeral (s : CString) : Option Nat := if s ≠ [] ∧ digits s = s then some (value s) else none

def afterDash (signal : CString) : CString := if signal.head? = some 45#8 then signal.tail else signal

def asked (signal pid : CString) : List (Int × Int) :=
  match numeral (afterDash signal), numeral pid with
  | some sig, some pid => if (1 ≤ sig ∧ sig ≤ 31) ∧ 1 ≤ pid ∧ pid ≤ 63 then [(pid, sig)] else []
  | _, _ => []

def leading (s : CString) : Int :=
  let negative := s.head? = some 45#8
  let s := if negative ∨ s.head? = some 43#8 then s.tail else s
  if negative then -value (digits s) else value (digits s)

def Within (bound : Int) (s : CString) : Prop :=
  1 ≤ (leading s).bmod (2 ^ 32) ∧ (leading s).bmod (2 ^ 32) ≤ bound

def Exact (s : CString) : Prop := ∃ n, numeral s = some n ∧ n < 2 ^ 32

variable {s signal pid : CString} {n : Nat}

theorem foldl_ofNat (numerals : ∀ c ∈ s, 48 ≤ c.toNat) :
    s.foldl (fun acc c => acc * 10#32 + (c.setWidth 32 - 48#32)) (BitVec.ofNat 32 n) =
      BitVec.ofNat 32 (s.foldl (fun acc c => acc * 10 + (c.toNat - 48)) n) := by
  induction s generalizing n with
  | nil => rfl
  | cons c s ih =>
    have digit : c.setWidth 32 - 48#32 = BitVec.ofNat 32 (c.toNat - 48) := by
      have := numerals c (.head _)
      bv_omega
    rw [List.foldl_cons, List.foldl_cons, ← ih fun c member => numerals c (.tail _ member), digit,
      BitVec.ofNat_add, BitVec.ofNat_mul]

theorem digits_foldl (s : CString) :
    (digits s).foldl (fun acc c => acc * 10#32 + (c.setWidth 32 - 48#32)) 0 = BitVec.ofInt 32 (value (digits s)) := by
  rw [BitVec.ofInt_natCast]
  apply foldl_ofNat
  intro c member
  have digit := List.all_eq_true.mp List.all_takeWhile c member
  simp only [Bool.and_eq_true, decide_eq_true_eq, BitVec.le_def] at digit
  exact digit.1

theorem strToInt_eq (s : CString) : strToInt s = (leading s).bmod (2 ^ 32) := by
  rw [← BitVec.toInt_ofInt]
  unfold strToInt atoi leading
  simp only [digits_foldl]
  generalize (if s.head? = some 45#8 ∨ s.head? = some 43#8 then s.tail else s) = t
  by_cases blank : digits t = []
  · simp [blank, value]
  · rw [if_neg blank, Option.getD_some]
    by_cases negative : s.head? = some 45#8
    · rw [if_pos negative, if_pos negative, BitVec.ofInt_neg]
    · rw [if_neg negative, if_neg negative]

theorem leading_of_numeral (reads : numeral s = some n) : leading s = n := by
  unfold numeral at reads
  split at reads
  · rename_i plain
    obtain ⟨nonempty, all⟩ := plain
    cases reads
    cases s with
    | nil => exact absurd rfl nonempty
    | cons c s =>
      have digit : 48#8 ≤ c := by
        by_contra small
        simp [digits, small] at all
      have sign : c ≠ 45#8 ∧ c ≠ 43#8 := by
        constructor
        · rintro rfl
          exact absurd digit (by decide)
        · rintro rfl
          exact absurd digit (by decide)
      simp [leading, sign, all]
  · cases reads

theorem within_iff_of_exact {bound : Int} (reads : numeral s = some n) (small : n < 2 ^ 32) (low : bound < 2 ^ 31) :
    Within bound s ↔ 1 ≤ n ∧ n ≤ bound := by
  rw [Within, leading_of_numeral reads, Int.bmod_def]
  omega

theorem shellKill_noting (answers : Answers) (signal pid : CString) (rest : List CString) (calls : List (Int × Int)) :
    ((shellKill (signal :: pid :: rest)).Ends noting (answers, []) fun _ t => t.2 = calls) ↔
      calls = if Sends [signal, pid] then [(strToInt pid, strToInt (afterDash signal))] else [] := by
  have same : afterDash signal = if signal.head? = some 45#8 then signal.tail else signal := rfl
  simp only [shellKill, Sends, ← apply_ite strToInt, ← same]
  generalize strToInt (afterDash signal) = sig
  generalize strToInt pid = target
  by_cases signals : sig < 1 ∨ 31 < sig
  · rw [if_pos signals, if_neg (by omega)]
    simp only [noValue, ask, noting, Interact.ends_bind, Interact.ends_call, Interact.ends_pure, eq_comm]
  · rw [if_neg signals]
    by_cases targets : target < 1 ∨ 63 < target
    · rw [if_pos targets, if_neg (by omega)]
      simp only [noValue, ask, noting, Interact.ends_bind, Interact.ends_call, Interact.ends_pure, eq_comm]
    · rw [if_neg targets, if_pos (by omega)]
      simp only [sysKill, sysStatus, noValue, ask, noting, Interact.ends_bind, Interact.ends_call, Interact.ends_pure,
        eq_comm, List.nil_append]

theorem sends_iff : Sends [signal, pid] ↔ Within 31 (afterDash signal) ∧ Within 63 pid := by
  simp only [Sends, Within, ← strToInt_eq, ← apply_ite strToInt]
  rfl

theorem asked_of_exact (first : Exact (afterDash signal)) (second : Exact pid) :
    asked signal pid = if Sends [signal, pid] then [(strToInt pid, strToInt (afterDash signal))] else [] := by
  obtain ⟨n, reads, small⟩ := first
  obtain ⟨m, reads', small'⟩ := second
  have sends : Sends [signal, pid] ↔ (1 ≤ n ∧ n ≤ 31) ∧ 1 ≤ m ∧ m ≤ 63 := by
    rw [sends_iff, within_iff_of_exact reads small (by decide), within_iff_of_exact reads' small' (by decide)]
    omega
  simp only [asked, reads, reads', sends, strToInt_eq, leading_of_numeral reads, leading_of_numeral reads']
  split
  · rw [Int.bmod_eq_of_le (by omega) (by omega), Int.bmod_eq_of_le (by omega) (by omega)]
  · rfl

theorem asked_of_not_exact (inexact : ¬(Exact (afterDash signal) ∧ Exact pid)) :
    asked signal pid = [] := by
  unfold asked
  split
  · rename_i n m reads reads'
    refine if_neg ?_
    intro range
    exact inexact ⟨⟨n, reads, by omega⟩, m, reads', by omega⟩
  · rfl

theorem shellKill_iff (answers : Answers) (signal pid : CString) (rest : List CString) :
    ((shellKill (signal :: pid :: rest)).Ends noting (answers, []) fun _ t => t.2 = asked signal pid) ↔
      Exact (afterDash signal) ∧ Exact pid ∨ ¬(Within 31 (afterDash signal) ∧ Within 63 pid) := by
  rw [shellKill_noting, ← sends_iff]
  by_cases exact : Exact (afterDash signal) ∧ Exact pid
  · rw [asked_of_exact exact.1 exact.2]
    exact iff_of_true rfl (.inl exact)
  · rw [asked_of_not_exact exact, or_iff_right exact]
    by_cases sends : Sends [signal, pid]
    · rw [if_pos sends]
      exact iff_of_false (List.cons_ne_nil _ _).symm (not_not_intro sends)
    · rw [if_neg sends]
      exact iff_of_true rfl sends

theorem kill_misread : asked (ascii "-4294967305") (ascii "2x") = [] ∧ ∀ answers : Answers,
    (shellKill [ascii "-4294967305", ascii "2x"]).Ends noting (answers, []) fun _ t => t.2 = [(2, 9)] := by
  constructor
  · decide
  · intro answers
    apply (shellKill_noting ..).mpr
    decide

end Certikos.Shell
