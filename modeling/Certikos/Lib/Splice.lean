import Mathlib.Data.List.Basic

/-!
# Overwriting a stretch of a list

The elements from a position on are replaced, and the list grows if they reach beyond its end. Overwriting with one list
after the other is overwriting with both.
-/

namespace Certikos.Lib

variable {α : Type*} {xs ys zs : List α} {off : Nat}

def splice (xs : List α) (off : Nat) (ys : List α) : List α := xs.take off ++ ys ++ xs.drop (off + ys.length)

@[simp]
theorem splice_nil (xs : List α) (off : Nat) : splice xs off [] = xs := by
  simp [splice]

theorem length_splice (within : off ≤ xs.length) : (splice xs off ys).length = max xs.length (off + ys.length) := by
  simp only [splice, List.length_append, List.length_take, List.length_drop]
  omega

theorem splice_append (within : off ≤ xs.length) :
    splice (splice xs off ys) (off + ys.length) zs = splice xs off (ys ++ zs) := by
  have front : (xs.take off ++ ys).length = off + ys.length := by
    rw [List.length_append, List.length_take, Nat.min_eq_left within]
  have cut : (splice xs off ys).take (off + ys.length) = xs.take off ++ ys := by
    rw [splice, List.take_left' front]
  have rest : (splice xs off ys).drop (off + ys.length + zs.length) = xs.drop (off + ys.length + zs.length) := by
    rw [splice, ← List.drop_drop, List.drop_left' front, List.drop_drop]
  rw [splice, cut, rest, splice, List.length_append, List.append_assoc, List.append_assoc, List.append_assoc,
    List.append_assoc, Nat.add_assoc]

theorem splice_map_range {n : Nat} {f g : Nat → α} (within : off ≤ n)
    (inside : ∀ k (lt : k < ys.length), g (off + k) = ys[k])
    (outside : ∀ k, k < n → k < off ∨ off + ys.length ≤ k → g k = f k) :
    (List.range (max n (off + ys.length))).map g = splice ((List.range n).map f) off ys := by
  apply List.ext_getElem?
  intro k
  have front : (((List.range n).map f).take off).length = off := by
    rw [List.length_take, List.length_map, List.length_range, Nat.min_eq_left within]
  rcases Nat.lt_or_ge k off with low | high
  · rw [splice, List.append_assoc, List.getElem?_append_left (by omega), List.getElem?_take_of_lt low,
      List.getElem?_map, List.getElem?_map, List.getElem?_range (by omega), List.getElem?_range (by omega)]
    exact congrArg some (outside k (by omega) (.inl low))
  · rcases Nat.lt_or_ge k (off + ys.length) with middle | beyond
    · rw [splice, List.append_assoc, List.getElem?_append_right (by omega), front,
        List.getElem?_append_left (by omega), List.getElem?_map, List.getElem?_range (by omega),
        List.getElem?_eq_getElem (by omega)]
      have here := inside (k - off) (by omega)
      rw [Nat.add_sub_cancel' high] at here
      exact congrArg some here
    · have both : (((List.range n).map f).take off ++ ys).length = off + ys.length := by
        rw [List.length_append, front]
      rw [splice, List.getElem?_append_right (by omega), both, List.getElem?_drop,
        Nat.add_sub_cancel' beyond, List.getElem?_map, List.getElem?_map]
      rcases Nat.lt_or_ge k n with lt | ge
      · rw [List.getElem?_range (by omega), List.getElem?_range lt]
        exact congrArg some (outside k lt (.inr beyond))
      · rw [List.getElem?_eq_none (by rw [List.length_range]; omega),
          List.getElem?_eq_none (by rw [List.length_range]; omega)]
        rfl

end Certikos.Lib
