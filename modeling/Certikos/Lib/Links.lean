import Mathlib.Data.List.Nodup
import Mathlib.Logic.Function.Basic

/-!
# Doubly linked lists over index arrays

A queue kept as `head` and `tail` indices and two arrays of links, with a distinguished index `null` for "no
neighbour".
-/

namespace Certikos.Lib
open Function

variable {ι : Type*}

/-- `xs` is a segment of the links, entered from `before` and left towards `after`. -/
def Linked (prev next : ι → ι) : ι → ι → List ι → Prop
  | _, _, [] => True
  | before, after, x :: xs =>
    prev x = before ∧ next x = xs.headD after ∧ Linked prev next x after xs

theorem Linked.congr {prev next prev' next' : ι → ι} {before after : ι} {xs : List ι}
    (same : ∀ x ∈ xs, prev' x = prev x ∧ next' x = next x)
    (h : Linked prev next before after xs) : Linked prev' next' before after xs := by
  induction xs generalizing before with
  | nil => trivial
  | cons x xs ih =>
    obtain ⟨hp, hn, rest⟩ := h
    obtain ⟨sp, sn⟩ := same x (.head _)
    exact ⟨sp.trans hp, sn.trans hn, ih (fun y hy => same y (.tail _ hy)) rest⟩

theorem headD_append (xs ys : List ι) (a : ι) : (xs ++ ys).headD a = xs.headD (ys.headD a) := by
  cases xs <;> rfl

theorem linked_append {prev next : ι → ι} {before after : ι} {xs ys : List ι} :
    Linked prev next before after (xs ++ ys) ↔ Linked prev next before (ys.headD after) xs ∧
        Linked prev next (xs.getLastD before) after ys := by
  induction xs generalizing before with
  | nil => simp [Linked]
  | cons x xs ih =>
    simp only [List.cons_append, Linked, headD_append, ih, List.getLastD_cons, and_assoc]

theorem headD_mem (xs : List ι) (a : ι) : xs.headD a = a ∨ xs.headD a ∈ xs := by
  cases xs <;> simp

theorem getLastD_mem (xs : List ι) (a : ι) : xs.getLastD a = a ∨ xs.getLastD a ∈ xs := by
  rcases List.eq_nil_or_concat xs with rfl | ⟨l, x, rfl⟩ <;> simp

structure Links (ι : Type*) where
  prev : ι → ι
  next : ι → ι
  head : ι
  tail : ι

structure Links.Represents (q : Links ι) (null : ι) (xs : List ι) : Prop where
  nodup : xs.Nodup
  proper : null ∉ xs
  head_eq : q.head = xs.headD null
  tail_eq : q.tail = xs.getLastD null
  linked : Linked q.prev q.next null null xs

namespace Links

variable {q : Links ι} {null p : ι} {xs l r : List ι}

theorem Represents.tail_eq_null (h : q.Represents null xs) : q.tail = null ↔ xs = [] := by
  rw [h.tail_eq]
  rcases List.eq_nil_or_concat xs with rfl | ⟨l, x, rfl⟩
  · simp
  · have hx : x ≠ null := fun e => h.proper (by simp [e])
    simp [hx]

theorem Represents.prev_eq (h : q.Represents null (l ++ p :: r)) : q.prev p = l.getLastD null :=
  (linked_append.1 h.linked).2.1

theorem Represents.next_eq (h : q.Represents null (l ++ p :: r)) : q.next p = r.headD null :=
  (linked_append.1 h.linked).2.2.1

theorem Represents.neighbours (h : q.Represents null xs) (member : p ∈ xs) :
    (q.prev p = null ∨ q.prev p ∈ xs) ∧ (q.next p = null ∨ q.next p ∈ xs) := by
  obtain ⟨l, r, rfl⟩ := List.append_of_mem member
  rw [h.prev_eq, h.next_eq]
  constructor
  · exact (getLastD_mem l null).imp_right (List.mem_append_left _)
  · exact (headD_mem r null).imp_right fun inside => List.mem_append_right _ (.tail _ inside)

variable [DecidableEq ι]

/-! ## Appending -/

def enqueue (q : Links ι) (null p : ι) : Links ι :=
  if q.tail = null then
    { prev := update q.prev p null, next := update q.next p null,
      head := p, tail := p }
  else
    { prev := update q.prev p q.tail,
      next := update (update q.next q.tail p) p null,
      head := q.head, tail := p }

theorem Represents.enqueue (h : q.Represents null xs) (fresh : p ∉ xs) (hp : p ≠ null) :
    (q.enqueue null p).Represents null (xs ++ [p]) := by
  have nodup : (xs ++ [p]).Nodup := by
    refine List.nodup_append.2 ⟨h.nodup, List.nodup_singleton p, ?_⟩
    rintro a ha b hb rfl
    exact fresh (List.mem_singleton.1 hb ▸ ha)
  have proper : null ∉ xs ++ [p] := by simp [h.proper, hp.symm]
  by_cases empty : q.tail = null
  · obtain rfl := h.tail_eq_null.1 empty
    exact ⟨nodup, proper, by simp [Links.enqueue, empty], by simp [Links.enqueue, empty],
      by simp [Links.enqueue, empty, Linked]⟩
  · obtain ⟨l, t, rfl⟩ : ∃ l t, xs = l ++ [t] := by
      rcases List.eq_nil_or_concat xs with rfl | ⟨l, t, rfl⟩
      · exact absurd (h.tail_eq_null.2 rfl) empty
      · exact ⟨l, t, by simp⟩
    have tail : q.tail = t := by simp [h.tail_eq]
    have ht : t ≠ null := tail ▸ empty
    have tp : t ≠ p := fun e => fresh (by simp [e])
    have tl : t ∉ l := by
      have := h.nodup
      simp only [List.nodup_append, List.mem_singleton] at this
      exact fun ht => this.2.2 t ht t rfl rfl
    refine ⟨nodup, proper, ?_, by simp [Links.enqueue, empty], ?_⟩
    · simp only [Links.enqueue, if_neg empty, h.head_eq, headD_append, List.headD_cons]
    · -- only the old tail and `p` change their links
      obtain ⟨before, last⟩ := linked_append.1 h.linked
      simp only [Links.enqueue, tail, if_neg ht]
      rw [linked_append, linked_append]
      refine ⟨⟨before.congr fun x hx => ?_, ?_⟩, ?_⟩
      · have xp : x ≠ p := fun e => fresh (by simp [← e, hx])
        have xt : x ≠ t := fun e => tl (e ▸ hx)
        simp [update_of_ne, xp, xt]
      · simpa [Linked, update_of_ne, tp] using last.1
      · simp [Linked]

/-! ## Popping -/

def dequeue (q : Links ι) (null : ι) : Links ι :=
  if q.head = null then q
  else if q.next q.head = null then
    { prev := update q.prev q.head null, next := update q.next q.head null,
      head := null, tail := null }
  else
    { prev := update (update q.prev (q.next q.head) null) q.head null,
      next := update q.next q.head null, head := q.next q.head, tail := q.tail }

theorem Represents.dequeue (h : q.Represents null (p :: xs)) : (q.dequeue null).Represents null xs := by
  have head : q.head = p := h.head_eq
  have hp : p ≠ null := fun e => h.proper (e ▸ .head _)
  have next : q.next p = xs.headD null := h.linked.2.1
  have pxs : p ∉ xs := (List.nodup_cons.1 h.nodup).1
  have nodup := (List.nodup_cons.1 h.nodup).2
  have proper : null ∉ xs := fun hn => h.proper (.tail _ hn)
  cases xs with
  | nil =>
    have stop : q.next p = null := next
    refine ⟨nodup, proper, ?_, ?_, trivial⟩ <;>
      simp [Links.dequeue, head, hp, stop]
  | cons y ys =>
    have hy : y ≠ null := fun e => proper (e ▸ .head _)
    have yp : y ≠ p := fun e => pxs (e ▸ .head _)
    have go : q.next p = y := next
    have tail : q.tail = (y :: ys).getLastD null := by simpa using h.tail_eq
    refine ⟨nodup, proper, by simp [Links.dequeue, head, hp, go, hy],
      by simpa [Links.dequeue, head, hp, go, hy] using tail, ?_⟩
    simp only [Links.dequeue, head, hp, go, hy, if_false]
    obtain ⟨_, hn, rest⟩ := h.linked.2.2
    refine ⟨by simp [update_of_ne, yp], by simpa [update_of_ne, yp] using hn,
      rest.congr fun x hx => ?_⟩
    have xp : x ≠ p := fun e => pxs (by simp [← e, hx])
    have xy : x ≠ y := fun e => (List.nodup_cons.1 nodup).1 (e ▸ hx)
    simp [update_of_ne, xp, xy]

/-! ## Removing from any position -/

def remove (q : Links ι) (null p : ι) : Links ι :=
  if q.prev p = null then
    if q.next p = null then
      { prev := update q.prev p null, next := update q.next p null,
        head := null, tail := null }
    else
      { prev := update (update q.prev (q.next p) null) p null,
        next := update q.next p null, head := q.next p, tail := q.tail }
  else if q.next p = null then
    { prev := update q.prev p null,
      next := update (update q.next (q.prev p) null) p null,
      head := q.head, tail := q.prev p }
  else
    { prev := update (update q.prev (q.next p) (q.prev p)) p null,
      next := update
        (if q.prev p ≠ q.next p then update q.next (q.prev p) (q.next p) else q.next) p null,
      head := q.head, tail := q.tail }

theorem remove_head (h : q.Represents null (p :: xs)) : q.remove null p = q.dequeue null := by
  have head : q.head = p := h.head_eq
  have prev : q.prev p = null := h.linked.1
  have hp : p ≠ null := fun e => h.proper (e ▸ .head _)
  simp [Links.remove, Links.dequeue, head, prev, hp]

theorem Represents.remove (h : q.Represents null (l ++ p :: r)) : (q.remove null p).Represents null (l ++ r) := by
  rcases List.eq_nil_or_concat l with rfl | ⟨l, b, rfl⟩
  · rw [List.nil_append] at h
    rw [remove_head h]
    exact h.dequeue
  rw [List.concat_eq_append] at h ⊢
  have nodup := h.nodup
  have sub : List.Sublist (l ++ [b] ++ r) (l ++ [b] ++ p :: r) :=
    (List.Sublist.refl _).append (List.sublist_cons_self p r)
  have proper : null ∉ l ++ [b] ++ r := fun hn => h.proper (sub.subset hn)
  have hb : b ≠ null := fun e => proper (by simp [e])
  have prev : q.prev p = b := by simpa using h.prev_eq
  have next := h.next_eq
  simp only [List.append_assoc, List.singleton_append, List.nodup_append, List.nodup_cons,
    List.mem_cons] at nodup
  obtain ⟨-, ⟨bpr, pr, nodup_r⟩, cross⟩ := nodup
  have bp : b ≠ p := fun e => bpr (.inl e)
  have lb (x) (hx : x ∈ l) : x ≠ b := cross x hx b (.inl rfl)
  have lp (x) (hx : x ∈ l) : x ≠ p := cross x hx p (.inr (.inl rfl))
  obtain ⟨front, back⟩ := linked_append.1 h.linked
  obtain ⟨front, mid⟩ := linked_append.1 front
  cases r with
  | nil =>
    have stop : q.next p = null := next
    refine ⟨h.nodup.sublist sub, proper, ?_, ?_, ?_⟩
    · simp only [Links.remove, prev, hb, stop, if_false, if_true, h.head_eq, headD_append,
        List.headD_cons]
    · simp [Links.remove, prev, hb, stop]
    · simp only [Links.remove, prev, hb, stop, if_false, if_true, List.append_nil]
      refine linked_append.2 ⟨front.congr fun x hx => ?_, ?_⟩
      · simp [update_of_ne, lb x hx, lp x hx]
      · simpa [Linked, update_of_ne, bp] using mid.1
  | cons y ys =>
    have go : q.next p = y := next
    have hy : y ≠ null := fun e => proper (by simp [e])
    have yp : y ≠ p := fun e => pr (e ▸ .head _)
    have by' : b ≠ y := fun e => bpr (.inr (e ▸ .head _))
    have ly (x) (hx : x ∈ l) : x ≠ y := cross x hx y (.inr (.inr (.head _)))
    refine ⟨h.nodup.sublist sub, proper, ?_, ?_, ?_⟩
    · simp only [Links.remove, prev, hb, go, hy, if_false, h.head_eq, headD_append,
        List.headD_cons]
    · have tail := h.tail_eq
      simp only [Links.remove, prev, hb, go, hy, if_false, tail]
      simp
    · simp only [Links.remove, prev, hb, go, hy, if_false, ne_eq, by', not_false_eq_true, if_true]
      obtain ⟨_, hn, rest⟩ := back.2.2
      rw [linked_append, linked_append]
      refine ⟨⟨front.congr fun x hx => ?_, ?_⟩, by simp [update_of_ne, yp], ?_, ?_⟩
      · simp [update_of_ne, lb x hx, lp x hx, ly x hx]
      · simpa [Linked, update_of_ne, bp, by'] using mid.1
      · simpa [update_of_ne, yp, by'.symm] using hn
      · refine rest.congr fun x hx => ?_
        have xp : x ≠ p := fun e => pr (by simp [← e, hx])
        have xy : x ≠ y := fun e => (List.nodup_cons.1 nodup_r).1 (e ▸ hx)
        have xb : x ≠ b := fun e => bpr (.inr (by simp [← e, hx]))
        simp [update_of_ne, xp, xy, xb]

/-! ## What an operation leaves alone -/

section Elsewhere

variable {y : ι}

theorem Represents.enqueue_elsewhere (h : q.Represents null xs) (outside : y ∉ xs) (other : y ≠ p) :
    (q.enqueue null p).prev y = q.prev y ∧ (q.enqueue null p).next y = q.next y := by
  unfold Links.enqueue
  split
  · simp [other]
  · rename_i occupied
    have apart : y ≠ q.tail := by
      rw [h.tail_eq] at occupied ⊢
      exact fun e => outside (e ▸ (getLastD_mem xs null).resolve_left occupied)
    simp [other, apart]

theorem Represents.remove_elsewhere (h : q.Represents null xs) (member : p ∈ xs) (outside : y ∉ xs) :
    (q.remove null p).prev y = q.prev y ∧ (q.remove null p).next y = q.next y := by
  obtain ⟨before, after⟩ := h.neighbours member
  have other : y ≠ p := fun e => outside (e ▸ member)
  have prev (some : q.prev p ≠ null) : y ≠ q.prev p := fun e => outside (e ▸ before.resolve_left some)
  have next (some : q.next p ≠ null) : y ≠ q.next p := fun e => outside (e ▸ after.resolve_left some)
  unfold Links.remove
  by_cases first : q.prev p = null <;> by_cases last : q.next p = null
  · simp [first, last, other]
  · simp [first, last, other, next last]
  · simp [first, last, other, prev first]
  · by_cases same : q.prev p = q.next p
    · simp [last, other, same, next last]
    · simp [first, last, other, same, prev first, next last]

theorem Represents.dequeue_elsewhere (h : q.Represents null xs) (outside : y ∉ xs) :
    (q.dequeue null).prev y = q.prev y ∧ (q.dequeue null).next y = q.next y := by
  cases xs with
  | nil =>
    have empty : q.head = null := h.head_eq
    simp [Links.dequeue, empty]
  | cons p xs =>
    rw [← remove_head h]
    exact h.remove_elsewhere (.head _) outside

end Elsewhere

theorem remove_links (q : Links ι) (null p : ι) :
    (q.remove null p).prev p = null ∧ (q.remove null p).next p = null := by
  unfold Links.remove
  split <;> split <;> simp

end Links

end Certikos.Lib
