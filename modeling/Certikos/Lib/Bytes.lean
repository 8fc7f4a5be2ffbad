import Mathlib.Data.BitVec
import Mathlib.Tactic.IntervalCases
import Mathlib.Tactic.Ring

/-!
# Byte memories and little-endian words

A flat memory of bytes addressed by 32-bit words, the two views of it that C code uses (a 32-bit word at an address, a
run of bytes), and when a write through one view leaves a read through the other alone.
-/

namespace Certikos.Lib

abbrev Byte := BitVec 8
abbrev Word := BitVec 32
abbrev Mem := Word → Byte

/-! ## Words as four bytes -/

def wordOf (b₀ b₁ b₂ b₃ : Byte) : Word := b₃ ++ b₂ ++ b₁ ++ b₀

def byteOf (w : Word) (i : Nat) : Byte := w.extractLsb' (8 * i) 8

theorem wordOf_byteOf (w : Word) : wordOf (byteOf w 0) (byteOf w 1) (byteOf w 2) (byteOf w 3) = w := by
  apply BitVec.eq_of_getLsbD_eq
  intro i hi
  simp only [wordOf, byteOf, BitVec.getLsbD_append, BitVec.getLsbD_extractLsb']
  by_cases h0 : i < 8
  · simp [h0]
  by_cases h1 : i - 8 < 8
  · simp [h0, h1]
    congr 1
    omega
  by_cases h2 : i - 8 - 8 < 8
  · simp [h0, h1, h2]
    congr 1
    omega
  · have h3 : i - 8 - 8 - 8 < 8 := by omega
    simp [h0, h1, h2, h3]
    congr 1
    omega

theorem byteOf_wordOf {b₀ b₁ b₂ b₃ : Byte} {f : Nat → Byte} (first : f 0 = b₀) (second : f 1 = b₁) (third : f 2 = b₂)
    (fourth : f 3 = b₃) {i : Nat} (lt : i < 4) : byteOf (wordOf b₀ b₁ b₂ b₃) i = f i := by
  apply BitVec.eq_of_getLsbD_eq
  intro k small
  simp only [wordOf, byteOf, BitVec.getLsbD_append, BitVec.getLsbD_extractLsb']
  interval_cases i
  · simp [first, small]
  · rw [second]
    simp [small, show ¬8 * 1 + k < 8 by omega, show 8 * 1 + k - 8 = k by omega]
  · rw [third]
    simp [small, show ¬8 * 2 + k < 8 by omega, show ¬8 * 2 + k - 8 < 8 by omega, show 8 * 2 + k - 8 - 8 = k by omega]
  · rw [fourth]
    simp [small, show ¬8 * 3 + k < 8 by omega, show ¬8 * 3 + k - 8 < 8 by omega,
      show ¬8 * 3 + k - 8 - 8 < 8 by omega, show 8 * 3 + k - 8 - 8 - 8 = k by omega]

def readWord (m : Mem) (a : Word) : Word := wordOf (m a) (m (a + 1)) (m (a + 2)) (m (a + 3))

def writeWord (m : Mem) (a w : Word) : Mem := fun x =>
  if x - a < 4 then byteOf w (x - a).toNat else m x

def writeBytes (m : Mem) (a : Word) (bs : List Byte) : Mem := fun x =>
  if (x - a).toNat < bs.length then bs.getD (x - a).toNat 0 else m x

def memmove (m : Mem) (dst src n : Word) : Mem := fun x =>
  if x - dst < n then m (src + (x - dst)) else m x

def memset (m : Mem) (dst : Word) (c : Byte) (n : Word) : Mem := fun x =>
  if x - dst < n then c else m x

theorem readWord_congr {m m' : Mem} {a : Word} (h : ∀ i : Word, i < 4 → m (a + i) = m' (a + i)) :
    readWord m a = readWord m' a := by
  have h0 : m a = m' a := by simpa using h 0 (by decide)
  simp only [readWord, h0, h 1 (by decide), h 2 (by decide), h 3 (by decide)]

@[simp] theorem readWord_writeWord (m : Mem) (a w : Word) : readWord (writeWord m a w) a = w := by
  have e (k : Word) (hk : k < 4) : writeWord m a w (a + k) = byteOf w k.toNat := by
    have cancel : a + k - a = k := by bv_omega
    simp only [writeWord, cancel, if_pos hk]
  have e0 : writeWord m a w a = byteOf w 0 := by simpa using e 0 (by decide)
  simp only [readWord, e0, e 1 (by decide), e 2 (by decide), e 3 (by decide)]
  exact wordOf_byteOf w

theorem readWord_writeWord_ne {m : Mem} {a b w : Word} (ha : a.toNat % 4 = 0)
    (hb : b.toNat % 4 = 0) (h : b ≠ a) : readWord (writeWord m a w) b = readWord m b := by
  apply readWord_congr
  intro i hi
  have outside : ¬ b + i - a < 4 := by
    intro inside
    apply h
    bv_omega
  simp only [writeWord, if_neg outside]

theorem memmove_outside {m : Mem} {dst src n x : Word} (h : ¬ x - dst < n) : memmove m dst src n x = m x := by
  simp [memmove, h]

theorem memset_outside {m : Mem} {dst n x : Word} {c : Byte} (h : ¬ x - dst < n) : memset m dst c n x = m x := by
  simp [memset, h]

/-! ## Rounding down to words and pages -/

theorem toNat_wordMask (x : Word) : (x &&& ~~~3#32).toNat = x.toNat / 4 * 4 := by
  have shift : x &&& ~~~3#32 = (x >>> 2) <<< 2 := by
    apply BitVec.eq_of_getLsbD_eq
    intro i hi
    interval_cases i <;> simp
  rw [shift]
  simp only [BitVec.toNat_shiftLeft, BitVec.toNat_ushiftRight, Nat.shiftRight_eq_div_pow, Nat.shiftLeft_eq]
  omega

theorem pageMask_eq (x : Word) : x &&& 0xfffff000#32 = (x >>> 12) <<< 12 := by
  apply BitVec.eq_of_getLsbD_eq
  intro i hi
  interval_cases i <;> simp

theorem toNat_pageMask (x : Word) : (x &&& 0xfffff000#32).toNat = x.toNat / 4096 * 4096 := by
  rw [pageMask_eq]
  simp only [BitVec.toNat_shiftLeft, BitVec.toNat_ushiftRight, Nat.shiftRight_eq_div_pow, Nat.shiftLeft_eq]
  omega

end Certikos.Lib
