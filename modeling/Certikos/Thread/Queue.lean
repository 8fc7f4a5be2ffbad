import Certikos.Thread.Tcb
import Certikos.Lib.Links

/-!
# Thread queues

`tqueue_enqueue`, `tqueue_dequeue` and `tqueue_remove` of `PTQueueInit.c`. A queue is a list kept
in the `prev` and `next` fields of the thread control blocks, so the three are the operations of
`Lib.Links` on the links that a state holds, and touch nothing else.
-/

namespace Certikos
open Lib Function

def tqueueEnqueue (s : ThreadState) (chid pid : Nat) : ThreadState :=
  let tail := tqueueGetTail s chid
  if tail = numIds then
    let s := tcbSetPrev s pid numIds
    let s := tcbSetNext s pid numIds
    let s := tqueueSetHead s chid pid
    tqueueSetTail s chid pid
  else
    let s := tcbSetNext s tail pid
    let s := tcbSetPrev s pid tail
    let s := tcbSetNext s pid numIds
    tqueueSetTail s chid pid

def tqueueDequeue (s : ThreadState) (chid : Nat) : ThreadState × Nat :=
  let head := tqueueGetHead s chid
  if head ≠ numIds then
    let next := tcbGetNext s head
    let s :=
      if next = numIds then tqueueSetTail (tqueueSetHead s chid numIds) chid numIds
      else tqueueSetHead (tcbSetPrev s next numIds) chid next
    let s := tcbSetPrev s head numIds
    (tcbSetNext s head numIds, head)
  else (s, numIds)

def tqueueRemove (s : ThreadState) (chid pid : Nat) : ThreadState :=
  let prev := tcbGetPrev s pid
  let next := tcbGetNext s pid
  let s :=
    if prev = numIds then
      if next = numIds then tqueueSetTail (tqueueSetHead s chid numIds) chid numIds
      else tqueueSetHead (tcbSetPrev s next numIds) chid next
    else
      if next = numIds then tqueueSetTail (tcbSetNext s prev numIds) chid prev
      else
        let s := if prev ≠ next then tcbSetNext s prev next else s
        tcbSetPrev s next prev
  tcbSetNext (tcbSetPrev s pid numIds) pid numIds

def links (s : ThreadState) (chid : Nat) : Links Nat :=
  ⟨tcbGetPrev s, tcbGetNext s, tqueueGetHead s chid, tqueueGetTail s chid⟩

def QueueOf (s : ThreadState) (chid : Nat) (xs : List Nat) : Prop :=
  (links s chid).Represents numIds xs

/-! ## The operations act on the links -/

@[ext] theorem links_ext {a b : Links Nat} (hp : ∀ q, a.prev q = b.prev q) (hn : ∀ q, a.next q = b.next q)
    (hh : a.head = b.head) (ht : a.tail = b.tail) : a = b := by
  cases a
  cases b
  simp only [Links.mk.injEq]
  exact ⟨funext hp, funext hn, hh, ht⟩

theorem links_tqueueEnqueue (s : ThreadState) (chid pid : Nat) :
    links (tqueueEnqueue s chid pid) chid = (links s chid).enqueue numIds pid := by
  by_cases h : tqueueGetTail s chid = 64
  · ext q <;> simp [links, tqueueEnqueue, Links.enqueue, h, update_apply]
  · ext q <;> simp [links, tqueueEnqueue, Links.enqueue, h, update_apply]

theorem links_tqueueDequeue (s : ThreadState) (chid : Nat) :
    links (tqueueDequeue s chid).1 chid = (links s chid).dequeue numIds := by
  by_cases h : tqueueGetHead s chid = 64
  · simp [links, tqueueDequeue, Links.dequeue, h]
  by_cases h' : tcbGetNext s (tqueueGetHead s chid) = 64
  · ext q <;> simp [links, tqueueDequeue, Links.dequeue, h, h', update_apply]
  · ext q <;> simp [links, tqueueDequeue, Links.dequeue, h, h', update_apply]

theorem tqueueDequeue_result (s : ThreadState) (chid : Nat) : (tqueueDequeue s chid).2 = tqueueGetHead s chid := by
  by_cases h : tqueueGetHead s chid = 64 <;> simp [tqueueDequeue, h]

theorem links_tqueueRemove (s : ThreadState) (chid pid : Nat) :
    links (tqueueRemove s chid pid) chid = (links s chid).remove numIds pid := by
  by_cases hp : tcbGetPrev s pid = 64 <;> by_cases hn : tcbGetNext s pid = 64
  · ext q <;> simp [links, tqueueRemove, Links.remove, hp, hn, update_apply]
  · ext q <;> simp [links, tqueueRemove, Links.remove, hp, hn, update_apply]
  · ext q <;> simp [links, tqueueRemove, Links.remove, hp, hn, update_apply]
  · by_cases he : tcbGetPrev s pid = tcbGetNext s pid
    · ext q <;> simp [links, tqueueRemove, Links.remove, hn, he, update_apply]
    · ext q <;> simp [links, tqueueRemove, Links.remove, hp, hn, he, update_apply]

/-! ## Everything else is unchanged -/

structure OnlyLinks (s s' : ThreadState) : Prop where
  state : ∀ q, tcbGetState s' q = tcbGetState s q
  chan : ∀ q, tcbGetChan s' q = tcbGetChan s q
  sig : ∀ q, tcbGetSigstate s' q = tcbGetSigstate s q
  curid : getCurid s' = getCurid s

theorem onlyLinks_tqueueEnqueue (s : ThreadState) (chid pid : Nat) : OnlyLinks s (tqueueEnqueue s chid pid) := by
  unfold tqueueEnqueue
  constructor <;> intros <;> dsimp only <;> split <;> simp

theorem onlyLinks_tqueueDequeue (s : ThreadState) (chid : Nat) : OnlyLinks s (tqueueDequeue s chid).1 := by
  unfold tqueueDequeue
  constructor <;> intros <;> dsimp only <;> split <;> try split
  all_goals simp

theorem onlyLinks_tqueueRemove (s : ThreadState) (chid pid : Nat) : OnlyLinks s (tqueueRemove s chid pid) := by
  unfold tqueueRemove
  constructor <;> intros <;> dsimp only <;> split <;> split <;> try split
  all_goals simp

/-! ## Refinement of lists -/

variable {xs : List Nat}

variable {s s' : ThreadState} {chid pid : Nat}

theorem QueueOf.enqueue (h : QueueOf s chid xs) (fresh : pid ∉ xs) (hp : pid ≠ numIds) :
    QueueOf (tqueueEnqueue s chid pid) chid (xs ++ [pid]) := by
  unfold QueueOf
  rw [links_tqueueEnqueue]
  exact Links.Represents.enqueue h fresh hp

theorem QueueOf.dequeue (h : QueueOf s chid (pid :: xs)) :
    (tqueueDequeue s chid).2 = pid ∧ QueueOf (tqueueDequeue s chid).1 chid xs := by
  refine ⟨(tqueueDequeue_result s chid).trans h.head_eq, ?_⟩
  unfold QueueOf
  rw [links_tqueueDequeue]
  exact Links.Represents.dequeue h

theorem QueueOf.dequeue_nil (h : QueueOf s chid []) :
    tqueueDequeue s chid = (s, numIds) := by
  have head : tqueueGetHead s chid = 64 := h.head_eq
  simp [tqueueDequeue, head]

theorem QueueOf.remove (h : QueueOf s chid xs) (member : pid ∈ xs) :
    QueueOf (tqueueRemove s chid pid) chid (xs.erase pid) := by
  obtain ⟨l, r, notl, rfl, erase⟩ := List.exists_erase_eq member
  unfold QueueOf
  rw [links_tqueueRemove, erase]
  exact Links.Represents.remove h

theorem QueueOf.congr (h : QueueOf s chid xs) (same : links s' chid = links s chid) : QueueOf s' chid xs := by
  unfold QueueOf
  rw [same]
  exact h

/-! ## All queues of a processor

A thread has one pair of links, which whatever queue holds it uses. The queues are therefore lists
only together, as long as no thread is in two of them. -/

structure Queues (s : ThreadState) (qs : Nat → List Nat) : Prop where
  queue : ∀ chid ≤ numIds, QueueOf s chid (qs chid)
  valid : ∀ chid ≤ numIds, ∀ pid ∈ qs chid, pid < numIds
  disjoint : ∀ c ≤ numIds, ∀ d ≤ numIds, c ≠ d → (qs c).Disjoint (qs d)

def SameHeads (s s' : ThreadState) (chid : Nat) : Prop :=
  ∀ d, d ≠ chid → tqueueGetHead s' d = tqueueGetHead s d ∧ tqueueGetTail s' d = tqueueGetTail s d

theorem sameHeads_tqueueEnqueue (s : ThreadState) (chid pid : Nat) : SameHeads s (tqueueEnqueue s chid pid) chid := by
  intro d other
  unfold tqueueEnqueue
  dsimp only
  split <;> simp [other]

theorem sameHeads_tqueueDequeue (s : ThreadState) (chid : Nat) : SameHeads s (tqueueDequeue s chid).1 chid := by
  intro d other
  unfold tqueueDequeue
  dsimp only
  split <;> try split
  all_goals simp [other]

theorem sameHeads_tqueueRemove (s : ThreadState) (chid pid : Nat) : SameHeads s (tqueueRemove s chid pid) chid := by
  intro d other
  unfold tqueueRemove
  dsimp only
  split <;> split <;> try split
  all_goals simp [other]

theorem Queues.change {qs : Nat → List Nat} {ys : List Nat} (h : Queues s qs) (queue : QueueOf s' chid ys)
    (heads : SameHeads s s' chid) (elsewhere : ∀ d ≤ numIds, d ≠ chid → ∀ y ∈ qs d,
      tcbGetPrev s' y = tcbGetPrev s y ∧ tcbGetNext s' y = tcbGetNext s y)
    (valid : ∀ pid ∈ ys, pid < numIds) (apart : ∀ d ≤ numIds, d ≠ chid → ys.Disjoint (qs d)) :
    Queues s' (update qs chid ys) where
  queue d inside := by
    by_cases here : d = chid
    · subst here
      rwa [update_self]
    · rw [update_of_ne here]
      have old := h.queue d inside
      obtain ⟨head, tail⟩ := heads d here
      exact ⟨old.nodup, old.proper, head.trans old.head_eq, tail.trans old.tail_eq,
        old.linked.congr (elsewhere d inside here)⟩
  valid d inside := by
    by_cases here : d = chid
    · subst here
      rwa [update_self]
    · rw [update_of_ne here]
      exact h.valid d inside
  disjoint c hc d hd differ := by
    by_cases left : c = chid
    · subst left
      rw [update_self, update_of_ne differ.symm]
      exact apart d hd differ.symm
    by_cases right : d = chid
    · subst right
      rw [update_self, update_of_ne left]
      exact (apart c hc left).symm
    · rw [update_of_ne left, update_of_ne right]
      exact h.disjoint c hc d hd differ

section Operations

variable {s : ThreadState} {qs : Nat → List Nat} {chid pid : Nat}

section

variable (h : Queues s qs) (inside : chid ≤ numIds)
include h inside

theorem Queues.enqueue (valid : pid < numIds) (fresh : ∀ d ≤ numIds, pid ∉ qs d) :
    Queues (tqueueEnqueue s chid pid) (update qs chid (qs chid ++ [pid])) := by
  have here := h.queue chid inside
  apply h.change (here.enqueue (fresh chid inside) (ne_of_lt valid))
    (sameHeads_tqueueEnqueue s chid pid)
  · intro d hd other y member
    have differ : y ≠ pid := fun e => fresh d hd (e ▸ member)
    have same := here.enqueue_elsewhere (h.disjoint d hd chid inside other member) differ
    rwa [← links_tqueueEnqueue] at same
  · intro q member
    rcases List.mem_append.1 member with old | new
    · exact h.valid chid inside q old
    · exact List.mem_singleton.1 new ▸ valid
  · intro d hd other
    apply List.disjoint_append_left.2
    exact ⟨h.disjoint chid inside d hd other.symm, List.singleton_disjoint.2 (fresh d hd)⟩

theorem Queues.shrink {s' : ThreadState} {ys : List Nat}
    (queue : QueueOf s' chid ys) (heads : SameHeads s s' chid) (part : ys ⊆ qs chid)
    (elsewhere : ∀ y ∉ qs chid, tcbGetPrev s' y = tcbGetPrev s y ∧ tcbGetNext s' y = tcbGetNext s y) :
    Queues s' (update qs chid ys) := by
  apply h.change queue heads
  · intro d hd other y member
    exact elsewhere y (h.disjoint d hd chid inside other member)
  · exact fun q member => h.valid chid inside q (part member)
  · intro d hd other
    exact List.disjoint_of_subset_left part (h.disjoint chid inside d hd other.symm)

theorem Queues.dequeue : Queues (tqueueDequeue s chid).1 (update qs chid (qs chid).tail) := by
  have here := h.queue chid inside
  apply h.shrink inside _ (sameHeads_tqueueDequeue s chid) (List.tail_subset _)
  · intro y outside
    have same := Links.Represents.dequeue_elsewhere here outside
    rwa [← links_tqueueDequeue] at same
  · cases list : qs chid with
    | nil =>
      rw [list] at here
      rwa [here.dequeue_nil]
    | cons pid xs =>
      rw [list] at here
      exact here.dequeue.2

theorem Queues.remove (member : pid ∈ qs chid) :
    Queues (tqueueRemove s chid pid) (update qs chid ((qs chid).erase pid)) := by
  have here := h.queue chid inside
  apply h.shrink inside (here.remove member) (sameHeads_tqueueRemove s chid pid) List.erase_subset
  intro y outside
  have same := Links.Represents.remove_elsewhere here member outside
  rwa [← links_tqueueRemove] at same

end

def Unlinked (s : ThreadState) (pid : Nat) : Prop :=
  tcbGetPrev s pid = numIds ∧ tcbGetNext s pid = numIds

theorem tqueueRemove_unlinked (s : ThreadState) (chid pid : Nat) : Unlinked (tqueueRemove s chid pid) pid := by
  have free := Links.remove_links (links s chid) numIds pid
  rwa [← links_tqueueRemove] at free

theorem tqueueDequeue_unlinked (h : Queues s qs) (inside : chid ≤ numIds) (member : pid ∈ (qs chid).head?) :
    Unlinked (tqueueDequeue s chid).1 pid := by
  have here := h.queue chid inside
  obtain ⟨xs, list⟩ := List.head?_eq_some_iff.1 member
  rw [list] at here
  have free := Links.remove_links (links s chid) numIds pid
  rwa [Links.remove_head here, ← links_tqueueDequeue] at free

/-- Queues are lists: the three operations append, pop and erase in the queue they are given, leave
the list of every other queue, and unlink the thread they take out. -/
theorem tqueue_refines (h : Queues s qs) (inside : chid ≤ numIds) :
    (∀ pid, pid < numIds → (∀ d ≤ numIds, pid ∉ qs d) →
      Queues (tqueueEnqueue s chid pid) (update qs chid (qs chid ++ [pid]))) ∧
    ((tqueueDequeue s chid).2 = (qs chid).headD numIds ∧
      Queues (tqueueDequeue s chid).1 (update qs chid (qs chid).tail) ∧
      ∀ pid ∈ (qs chid).head?, Unlinked (tqueueDequeue s chid).1 pid) ∧
    (∀ pid ∈ qs chid,
      Queues (tqueueRemove s chid pid) (update qs chid ((qs chid).erase pid)) ∧
      Unlinked (tqueueRemove s chid pid) pid) := by
  refine ⟨?_, ⟨?_, ?_, ?_⟩, ?_⟩
  · intro pid valid fresh
    exact h.enqueue inside valid fresh
  · exact (tqueueDequeue_result s chid).trans (h.queue chid inside).head_eq
  · exact h.dequeue inside
  · intro pid first
    exact tqueueDequeue_unlinked h inside first
  · intro pid member
    exact ⟨h.remove inside member, tqueueRemove_unlinked s chid pid⟩

end Operations

def idleThreads : ThreadState where
  tcbPool p := { state := if p = 0 then .run else .dead, prev := numIds, next := numIds, channel := 0,
                 sigstate := ⟨fun _ => ⟨0, 0, 0, 0, 0⟩, 0, 0, 0, 0⟩ }
  tqueuePool _ _ := ⟨numIds, numIds⟩
  curid _ := 0
  schedTicks _ := 0
  pcpuIdx := 0

theorem idleThreads_queues : Queues idleThreads fun _ => [] where
  queue _ _ := ⟨List.nodup_nil, List.not_mem_nil, rfl, rfl, trivial⟩
  valid _ _ _ member := absurd member List.not_mem_nil
  disjoint _ _ _ _ _ := List.disjoint_nil_left _

theorem tqueue_refines_middle :
    Queues (tqueueRemove (tqueueEnqueue (tqueueEnqueue (tqueueEnqueue idleThreads 64 1) 64 2) 64 3) 64 2)
      (update (fun _ => []) 64 [1, 3]) := by
  have one := idleThreads_queues.enqueue (show 64 ≤ numIds by decide) (show 1 < numIds by decide)
    (fun _ _ => List.not_mem_nil)
  have two := one.enqueue (show 64 ≤ numIds by decide) (show 2 < numIds by decide)
    (fun d _ => by by_cases here : d = 64 <;> simp [here])
  have three := two.enqueue (show 64 ≤ numIds by decide) (show 3 < numIds by decide)
    (fun d _ => by by_cases here : d = 64 <;> simp [here])
  have removed := ((tqueue_refines three (show 64 ≤ numIds by decide)).2.2 2 (by simp)).1
  simpa using removed

end Certikos
