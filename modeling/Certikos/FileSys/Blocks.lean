import Certikos.FileSys.Kernel

/-!
# What is in a block after a write

A block is an array of 128 words, read and written as bytes, as inodes and as bits.
-/

namespace Certikos.FileSys
open Lib
open Fs (Block)

variable {b : Block}

/-! ## Bytes -/

theorem blockByte_setBytes {off : Nat} {src : List Byte} {i : Nat} (lt : i < bsize) :
    blockByte (setBytes b off src) i =
      if off ≤ i ∧ i < off + src.length then src.getD (i - off) 0 else blockByte b i := by
  change i < 512 at lt
  have word : (Fin.ofNat 128 (i / 4)).val = i / 4 := Nat.mod_eq_of_lt (by omega)
  have place : 4 * (i / 4) + i % 4 = i := by omega
  rw [blockByte, setBytes]
  rw [word]
  have byte := byteOf_wordOf
    (f := fun k => if off ≤ 4 * (i / 4) + k ∧ 4 * (i / 4) + k < off + src.length then src.getD (4 * (i / 4) + k - off) 0
      else blockByte b (4 * (i / 4) + k)) rfl rfl rfl rfl (show i % 4 < 4 by omega)
  rw [place] at byte
  exact byte

theorem blockByte_zero {i : Nat} : blockByte (fun _ => 0) i = 0 := by
  unfold blockByte byteOf
  apply BitVec.eq_of_getLsbD_eq
  intro k _
  simp

/-! ## Inodes -/

theorem dinodeAt_setDinode_self {inum : Word} {d : Dinode} : dinodeAt (setDinode b inum d) inum = d := by
  have index : ∀ j, j < 16 → setDinode b inum d (Fin.ofNat 128 (16 * (inum.toNat % ipb) + j)) = d.word j := by
    intro j lt
    have place : (Fin.ofNat 128 (16 * (inum.toNat % ipb) + j)).val = 16 * (inum.toNat % 8) + j :=
      Nat.mod_eq_of_lt (show 16 * (inum.toNat % 8) + j < 128 by omega)
    rw [setDinode, place, if_pos (show (16 * (inum.toNat % 8) + j) / 16 = inum.toNat % 8 by omega)]
    congr 1
    omega
  have low : ∀ hi lo : BitVec 16, (hi ++ lo).extractLsb' 0 16 = lo := by
    intro hi lo
    apply BitVec.eq_of_getLsbD_eq
    intro k small
    simp only [BitVec.getLsbD_extractLsb', BitVec.getLsbD_append, small, Nat.zero_add, decide_true, Bool.true_and,
      if_true]
  have high : ∀ hi lo : BitVec 16, (hi ++ lo).extractLsb' 16 16 = hi := by
    intro hi lo
    apply BitVec.eq_of_getLsbD_eq
    intro k small
    simp only [BitVec.getLsbD_extractLsb', BitVec.getLsbD_append, small, show ¬16 + k < 16 by omega, decide_true,
      Bool.true_and, if_false, Nat.add_sub_cancel_left]
  have addr : ∀ k : Fin (ndirect + 1), d.word (k.val + 3) = d.addrs k := by
    intro k
    rw [Dinode.word, if_neg (by omega), if_neg (by omega), if_neg (by omega), Nat.add_sub_cancel]
    congr 1
    exact Fin.ext (Nat.mod_eq_of_lt k.isLt)
  unfold dinodeAt
  dsimp only
  rw [index 0 (by decide), index 1 (by decide), index 2 (by decide)]
  cases d with
  | mk type major minor nlink size addrs =>
    congr 1
    · exact low _ _
    · exact high _ _
    · exact low _ _
    · exact high _ _
    · funext k
      rw [index (k.val + 3) (by have := k.isLt; change k.val < 13 at this; omega)]
      exact addr k

theorem dinodeAt_setDinode_of_ne {inum inum' : Word} {d : Dinode} (ne : inum'.toNat % ipb ≠ inum.toNat % ipb) :
    dinodeAt (setDinode b inum d) inum' = dinodeAt b inum' := by
  have index : ∀ j, j < 16 → setDinode b inum d (Fin.ofNat 128 (16 * (inum'.toNat % ipb) + j)) =
      b (Fin.ofNat 128 (16 * (inum'.toNat % ipb) + j)) := by
    intro j lt
    have place : (Fin.ofNat 128 (16 * (inum'.toNat % ipb) + j)).val = 16 * (inum'.toNat % 8) + j :=
      Nat.mod_eq_of_lt (show 16 * (inum'.toNat % 8) + j < 128 by omega)
    have other : ¬(16 * (inum'.toNat % 8) + j) / 16 = inum.toNat % 8 := by
      change inum'.toNat % 8 ≠ inum.toNat % 8 at ne
      omega
    rw [setDinode, place, if_neg other]
  unfold dinodeAt
  dsimp only
  rw [index 0 (by decide), index 1 (by decide), index 2 (by decide)]
  congr 1
  funext k
  exact index (k.val + 3) (by have := k.isLt; change k.val < 13 at this; omega)

theorem dinodeAt_zero {inum : Word} : dinodeAt (fun _ => 0) inum = ⟨0, 0, 0, 0, 0, fun _ => 0⟩ := by
  have low : (0 : Word).extractLsb' 0 16 = 0 := by decide
  have high : (0 : Word).extractLsb' 16 16 = 0 := by decide
  simp only [dinodeAt, low, high]

/-! ## Bits -/

theorem bitAt_zero {i : Nat} : bitAt (fun _ => 0) i = false := by
  rw [bitAt]
  exact BitVec.getLsbD_zero

theorem bitAt_setBit {i j : Nat} {v : Bool} (small : i < bpb) (small' : j < bpb) :
    bitAt (setBit b i v) j = if j = i then v else bitAt b j := by
  change i < 4096 at small
  change j < 4096 at small'
  have word : (Fin.ofNat 128 (j / 32)).val = j / 32 := Nat.mod_eq_of_lt (by omega)
  have inside : j % 32 < 32 := by omega
  have bit : ((1 : Word) <<< (i % 32)).getLsbD (j % 32) = decide (j % 32 = i % 32) := by
    rw [BitVec.getLsbD_shiftLeft, decide_eq_true inside, Bool.true_and]
    have one : (1 : Word).getLsbD (j % 32 - i % 32) = decide (j % 32 - i % 32 = 0) := by simp
    rw [one]
    simp only [← decide_not, ← Bool.decide_and]
    exact decide_eq_decide.mpr (by omega)
  rw [bitAt, bitAt, setBit, word]
  by_cases same : j / 32 = i / 32
  · have index : decide (j % 32 = i % 32) = decide (j = i) := decide_eq_decide.mpr (by omega)
    rw [if_pos same]
    cases v with
    | true =>
      rw [if_pos rfl, BitVec.getLsbD_or, bit, index]
      by_cases equal : j = i <;> simp [equal]
    | false =>
      rw [if_neg Bool.false_ne_true, BitVec.getLsbD_and, BitVec.getLsbD_not, bit, index, decide_eq_true inside]
      by_cases equal : j = i <;> simp [equal]
  · rw [if_neg same, if_neg fun equal => same (by rw [equal])]

end Certikos.FileSys
