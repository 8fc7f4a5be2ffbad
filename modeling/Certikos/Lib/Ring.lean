import Mathlib.Data.List.Nodup
import Mathlib.Logic.Function.Basic

/-!
# Circular lists with a head

Two arrays of links, which go around from `head` and back to it. `Holds` says which list lies on the way; taking an
element out and putting one in front are then the two operations on that list.
-/

namespace Certikos.Lib
open Function

variable {ι : Type*}

def Chain (f : ι → ι) : ι → List ι → ι → Prop
  | a, [], c => f a = c
  | a, x :: xs, c => f a = x ∧ Chain f x xs c

section Chain

variable {f g : ι → ι} {a b c : ι} {l r xs : List ι}

theorem chain_append : Chain f a (l ++ b :: r) c ↔ Chain f a l b ∧ Chain f b r c := by
  induction l generalizing a with
  | nil => rfl
  | cons x l ih => simp only [List.cons_append, Chain, ih, and_assoc]

theorem Chain.congr (chain : Chain f a xs c) (same : ∀ x ∈ a :: xs, g x = f x) : Chain g a xs c := by
  induction xs generalizing a with
  | nil => exact (same a (.head _)).trans chain
  | cons x xs ih =>
    refine ⟨(same a (.head _)).trans chain.1, ih chain.2 ?_⟩
    intro y member
    exact same y (.tail _ member)

theorem Chain.eq_headD (chain : Chain f a xs c) : f a = xs.headD c := by
  cases xs with
  | nil => exact chain
  | cons x xs => exact chain.1

theorem getLastD_mem_cons (a : ι) (xs : List ι) : xs.getLastD a ∈ a :: xs := by
  cases xs with
  | nil => exact .head _
  | cons x xs =>
    rw [List.getLastD_cons, ← List.getLast_eq_getLastD (List.cons_ne_nil x xs)]
    exact .tail _ (List.getLast_mem _)

variable [DecidableEq ι]

theorem Chain.turn (chain : Chain f a l b) (nodup : (a :: l).Nodup) : Chain (update f (l.getLastD a) c) a l c := by
  induction l generalizing a with
  | nil => exact update_self ..
  | cons x l ih =>
    have ne : a ≠ l.getLastD x := by
      intro same
      exact (List.nodup_cons.mp nodup).1 (same ▸ getLastD_mem_cons x l)
    rw [List.getLastD_cons]
    refine ⟨?_, ih chain.2 (List.nodup_cons.mp nodup).2⟩
    rw [update_of_ne ne]
    exact chain.1

theorem Chain.skip (chain : Chain f a (l ++ b :: r) c) (nodup : (a :: (l ++ b :: r)).Nodup) :
    Chain (update f (l.getLastD a) (f b)) a (l ++ r) c := by
  obtain ⟨before, after⟩ := chain_append.mp chain
  have first : (a :: l).Nodup := nodup.sublist ((List.sublist_append_left l (b :: r)).cons_cons a)
  rw [after.eq_headD]
  cases r with
  | nil =>
    rw [List.append_nil]
    exact before.turn first
  | cons y r =>
    refine chain_append.mpr ⟨before.turn first, after.2.congr ?_⟩
    intro x member
    refine update_of_ne ?_ ..
    intro same
    have disjoint := (List.nodup_append.mp (show ((a :: l) ++ b :: y :: r).Nodup from nodup)).2.2
    exact disjoint x (same ▸ getLastD_mem_cons a l) x (List.mem_cons_of_mem b member) rfl

theorem Chain.push (chain : Chain f a l c) (nodup : (a :: l).Nodup) (fresh : b ∉ a :: l) :
    Chain (update (update f b c) (l.getLastD a) b) a (l ++ [b]) c := by
  have ne : b ≠ l.getLastD a := fun same => fresh (same ▸ getLastD_mem_cons a l)
  refine chain_append.mpr ⟨?_, ?_⟩
  · refine Chain.turn (b := c) (chain.congr ?_) nodup
    intro x member
    refine update_of_ne ?_ ..
    intro same
    exact fresh (same ▸ member)
  · show update (update f b c) (l.getLastD a) b b = c
    rw [update_of_ne ne, update_self]

end Chain

structure RingLinks (ι : Type*) where
  prev : ι → ι
  next : ι → ι

structure RingLinks.Holds (g : RingLinks ι) (head : ι) (xs : List ι) : Prop where
  nodup : (head :: xs).Nodup
  next : Chain g.next head xs head
  prev : Chain g.prev head xs.reverse head

namespace RingLinks

variable {g : RingLinks ι} {head b : ι} {l r xs : List ι}

def empty (head : ι) : RingLinks ι := ⟨fun _ => head, fun _ => head⟩

theorem holds_empty (head : ι) : (empty head).Holds head [] := ⟨List.nodup_singleton head, rfl, rfl⟩

theorem nodup_reverse (nodup : (head :: xs).Nodup) : (head :: xs.reverse).Nodup := by
  rw [List.nodup_cons] at nodup ⊢
  exact ⟨fun member => nodup.1 (List.mem_reverse.mp member), List.nodup_reverse.mpr nodup.2⟩

theorem getLastD_reverse (head : ι) (xs : List ι) : xs.reverse.getLastD head = xs.headD head := by
  cases xs with
  | nil => rfl
  | cons x xs => simp

theorem Holds.next_eq (holds : g.Holds head (l ++ b :: r)) : g.next b = r.headD head :=
  (chain_append.mp holds.next).2.eq_headD

theorem Holds.prev_eq (holds : g.Holds head (l ++ b :: r)) : g.prev b = l.getLastD head := by
  have around := holds.prev
  rw [List.reverse_append, List.reverse_cons, List.append_assoc, List.singleton_append] at around
  rw [(chain_append.mp around).2.eq_headD, ← getLastD_reverse, List.reverse_reverse]

variable [DecidableEq ι]

def remove (g : RingLinks ι) (b : ι) : RingLinks ι where
  prev := update g.prev (g.next b) (g.prev b)
  next := update g.next (update g.prev (g.next b) (g.prev b) b) (g.next b)

def pushFront (g : RingLinks ι) (head b : ι) : RingLinks ι where
  prev := update (update g.prev b head) (update g.next b (g.next head) head) b
  next := update (update g.next b (g.next head)) head b

theorem Holds.remove (holds : g.Holds head (l ++ b :: r)) : (g.remove b).Holds head (l ++ r) := by
  have nodup := holds.nodup
  have reversed := nodup_reverse nodup
  have around := holds.prev
  rw [List.reverse_append, List.reverse_cons, List.append_assoc, List.singleton_append] at around reversed
  have away : b ≠ r.headD head := by
    intro same
    have disjoint := (List.nodup_append.mp (show ((head :: l) ++ b :: r).Nodup from nodup)).2.2
    cases r with
    | nil => exact disjoint head (.head _) b (.head _) same.symm
    | cons y r =>
      have inner := (List.nodup_append.mp (show ((head :: l) ++ b :: y :: r).Nodup from nodup)).2.1
      exact (List.nodup_cons.mp inner).1 (same ▸ .head _)
  have next := holds.next.skip nodup
  have prev := around.skip reversed
  rw [getLastD_reverse, ← List.reverse_append] at prev
  refine ⟨nodup.sublist (((List.sublist_cons_self b r).append_left l).cons_cons head), ?_, ?_⟩
  · have same : update g.prev (g.next b) (g.prev b) b = l.getLastD head := by
      rw [holds.next_eq, update_of_ne away, holds.prev_eq]
    rw [RingLinks.remove, same]
    exact next
  · rw [RingLinks.remove, holds.next_eq]
    exact prev

theorem Holds.pushFront (holds : g.Holds head xs) (fresh : b ∉ head :: xs) :
    (g.pushFront head b).Holds head (b :: xs) := by
  have ne : head ≠ b := fun same => fresh (same ▸ .head _)
  have out : b ∉ xs := fun member => fresh (.tail _ member)
  have first : update g.next b (g.next head) head = xs.headD head := by
    rw [update_of_ne ne, holds.next.eq_headD]
  refine ⟨?_, ⟨update_self .., ?_⟩, ?_⟩
  · have nodup := List.nodup_cons.mp holds.nodup
    refine List.nodup_cons.mpr ⟨?_, List.nodup_cons.mpr ⟨out, nodup.2⟩⟩
    intro member
    cases List.mem_cons.mp member with
    | inl same => exact ne same
    | inr inside => exact nodup.1 inside
  · -- `b` leads where the head did, and the rest is as it was
    have chain := holds.next
    cases xs with
    | nil =>
      show update (update g.next b (g.next head)) head b b = head
      rw [update_of_ne ne.symm, update_self]
      exact chain
    | cons x xs =>
      refine ⟨?_, chain.2.congr ?_⟩
      · show update (update g.next b (g.next head)) head b b = x
        rw [update_of_ne ne.symm, update_self]
        exact chain.1
      · intro y member
        have apart : y ≠ head := fun same => (List.nodup_cons.mp holds.nodup).1 (same ▸ member)
        have other : y ≠ b := fun same => out (same ▸ member)
        show update (update g.next b (g.next head)) head b y = g.next y
        rw [update_of_ne apart, update_of_ne other]
  · have fresh' : b ∉ head :: xs.reverse := by simpa using fresh
    have pushed := holds.prev.push (nodup_reverse holds.nodup) fresh'
    rw [getLastD_reverse] at pushed
    rw [List.reverse_cons, RingLinks.pushFront, first]
    exact pushed

end RingLinks

end Certikos.Lib
