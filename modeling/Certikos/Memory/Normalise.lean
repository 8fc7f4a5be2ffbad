import Certikos.Memory.MemoryMap

/-!
# Sorting and merging the memory map

`pmmap_insert` keeps the list sorted, and `pmmap_merge` changes nothing in what the entries of a type cover. It goes
through the list once and leaves each slot behind that it has merged, so that a third entry is not joined to two others.
-/

namespace Certikos
open Lib

def SortedByStart (slots : List Pmmap) : Prop := slots.Pairwise fun a b => a.start ≤ b.start

/-! ## Insertion -/

variable {slots : List Pmmap}

theorem insertSlot_sorted (sorted : SortedByStart slots) (slot : Pmmap) :
    SortedByStart (insertSlot slot slots) := by
  induction slots with
  | nil => exact List.pairwise_singleton ..
  | cons first rest ih =>
    obtain ⟨least, later⟩ := List.pairwise_cons.1 sorted
    unfold insertSlot
    split
    · rename_i before
      apply List.pairwise_cons.2
      refine ⟨fun other member => ?_, sorted⟩
      rcases List.mem_cons.1 member with rfl | member
      · exact BitVec.le_of_lt before
      · exact BitVec.le_trans (BitVec.le_of_lt before) (least other member)
    · rename_i behind
      apply List.pairwise_cons.2
      refine ⟨fun other member => ?_, ih later⟩
      rcases List.mem_cons.1 ((insertSlot_perm slot rest).mem_iff.1 member) with rfl | member
      · exact BitVec.not_lt.1 behind
      · exact least other member

theorem insertSlots_sorted (sorted : SortedByStart slots) (more : List Pmmap) :
    SortedByStart (insertSlots slots more) := by
  induction more generalizing slots with
  | nil => exact sorted
  | cons slot rest ih => exact ih (insertSlot_sorted sorted slot)

/-! ## Merging -/

theorem mergeSlots_sorted (sorted : SortedByStart slots) : SortedByStart (mergeSlots slots) := by
  induction slots using mergeSlots.induct with
  | case1 => exact .nil
  | case2 only => exact sorted
  | case3 first next rest merges ih =>
    obtain ⟨least, later⟩ := List.pairwise_cons.1 sorted
    rw [mergeSlots, if_pos merges]
    apply List.pairwise_cons.2
    refine ⟨fun slot member => ?_, ih (List.pairwise_cons.1 later).2⟩
    obtain ⟨old, present, start, -⟩ := mergeSlots_origin member
    exact start ▸ least old (.tail _ present)
  | case4 first next rest apart ih =>
    obtain ⟨least, later⟩ := List.pairwise_cons.1 sorted
    rw [mergeSlots, if_neg apart]
    apply List.pairwise_cons.2
    refine ⟨fun slot member => ?_, ih later⟩
    obtain ⟨old, present, start, -⟩ := mergeSlots_origin member
    exact start ▸ least old present

/-! ## The lists of the types -/

theorem sortByType_eq {lists result : PmmapType → List Pmmap} (done : sortByType lists slots = .ok result) :
    (∀ slot ∈ slots, (pmmapSublistNr slot.type).isSome) ∧
      ∀ nr, result nr = lists nr ++ slots.filter fun slot => pmmapSublistNr slot.type = some nr := by
  induction slots generalizing lists with
  | nil =>
    cases done
    simp
  | cons slot rest ih =>
    unfold sortByType at done
    cases here : pmmapSublistNr slot.type with
    | none =>
      rw [here] at done
      cases done
    | some home =>
      rw [here] at done
      obtain ⟨known, split⟩ := ih done
      refine ⟨List.forall_mem_cons.2 ⟨by simp [here], known⟩, fun nr => ?_⟩
      rw [split nr, List.filter_cons]
      by_cases same : home = nr
      · subst same
        simp [here]
      · rw [Function.update_of_ne (Ne.symm same)]
        simp [here, same]

structure Normalised (slots : List Pmmap) (lists : PmmapLists) : Prop where
  sorted : SortedByStart lists.list
  covers : ∀ type x, (∃ slot ∈ lists.list, slot.type = type ∧ slot.Covers x) ↔
    ∃ slot ∈ slots, slot.type = type ∧ slot.Covers x
  sublists : ∀ nr, lists.sublist nr = lists.list.filter fun slot => pmmapSublistNr slot.type = some nr
  home : ∀ slot ∈ lists.list, ∃! nr, slot ∈ lists.sublist nr

/-- Every map of at most 128 entries of the four types is accepted. The list is sorted after every insertion and holds
each entry once, and merging keeps it sorted and keeps what it says. -/
theorem pmmapInit_normalised (entries : List MbootMmap) :
    (entries.length ≤ 128 → (∀ p ∈ entries, (pmmapSublistNr p.type).isSome) → ∃ lists, pmmapInit entries = .ok lists) ∧
    ∀ slots, insertEntries [] entries = .ok slots →
      SortedByStart slots ∧ slots.Perm (entries.filterMap MbootMmap.slot) ∧
        ∀ lists, pmmapMerge slots = .ok lists → Normalised slots lists := by
  refine ⟨pmmapInit_ok, fun slots inserted => ?_⟩
  have perm := insertEntries_perm inserted
  have sorted : SortedByStart slots := by
    rw [insertEntries_eq inserted]
    exact insertSlots_sorted .nil _
  refine ⟨sorted, perm, fun lists merged => ?_⟩
  unfold pmmapMerge at merged
  split at merged
  · cases merged
  · rename_i sublist byType
    cases merged
    obtain ⟨known, split⟩ := sortByType_eq byType
    have sublists (nr : PmmapType) : sublist nr =
        (mergeSlots slots).filter fun slot => pmmapSublistNr slot.type = some nr := split nr
    refine ⟨mergeSlots_sorted sorted, fun type x => mergeSlots_covers type x slots, sublists, fun slot member => ?_⟩
    obtain ⟨nr, here⟩ := Option.isSome_iff_exists.1 (known slot member)
    refine ⟨nr, ?_, fun other present => ?_⟩
    · change slot ∈ sublist nr
      rw [sublists, List.mem_filter]
      exact ⟨member, by simp [here]⟩
    · change slot ∈ sublist other at present
      rw [sublists, List.mem_filter] at present
      have same : nr = other := by simpa [here] using present.2
      exact same.symm

/-! ## Runs of adjacent entries -/

def Touches (a b : Pmmap) : Prop := a.type = b.type ∧ b.start ≤ a.endAddr
deriving Decidable

def joined (a b : Pmmap) : Pmmap := { a with endAddr := wordMax a.endAddr b.endAddr }

def AdjacentRun : Pmmap → List Pmmap → Prop
  | _, [] => True
  | first, slot :: rest => Touches first slot ∧ AdjacentRun (joined first slot) rest

def NoTriple : List Pmmap → Prop
  | a :: b :: c :: rest => (Touches a b → ¬Touches (joined a b) c) ∧ NoTriple (b :: c :: rest)
  | _ => True

structure MergedCompletely (slots : List Pmmap) (lists : PmmapLists) : Prop where
  apart : lists.list.IsChain fun a b => ¬Touches a b
  whole : ∀ first rest, first :: rest <:+: slots → AdjacentRun first rest →
    ∃ slot ∈ lists.list, slot.type = first.type ∧
      ∀ part ∈ first :: rest, slot.start ≤ part.start ∧ part.endAddr ≤ slot.endAddr
  pages : ∀ first rest, first :: rest <:+: slots → AdjacentRun first rest → first.type = memRam →
    ∀ i, (∀ x, x / pageSize = i → ∃ part ∈ first :: rest, part.Covers x) →
      ∃ r ∈ memTable lists, r.usable = true ∧ r.start.toNat ≤ i * pageSize ∧
        (i + 1) * pageSize ≤ (r.len + r.start).toNat

variable {a : Pmmap}

theorem NoTriple.tail (none : NoTriple (a :: slots)) : NoTriple slots := by
  match slots with
  | [] => trivial
  | [b] => trivial
  | b :: c :: rest => exact none.2

theorem joined_end (a b : Pmmap) : a.endAddr ≤ (joined a b).endAddr ∧ b.endAddr ≤ (joined a b).endAddr := by
  simp only [joined, BitVec.le_def, wordMax_toNat]
  omega

section Merge

variable {first next : Pmmap} {rest slots : List Pmmap}

section

variable (sorted : SortedByStart (first :: next :: rest))
include sorted

theorem merges_iff :
    (first.start ≤ next.start ∧ first.endAddr ≥ next.start ∧ first.type = next.type) ↔ Touches first next := by
  have ordered := (List.pairwise_cons.1 sorted).1 next (.head _)
  rw [Touches, and_iff_right ordered, and_comm, GE.ge]

theorem mergeSlots_touching (touch : Touches first next) :
    mergeSlots (first :: next :: rest) = joined first next :: mergeSlots rest := by
  rw [mergeSlots, if_pos ((merges_iff sorted).2 touch)]
  rfl

theorem mergeSlots_separate (apart : ¬Touches first next) :
    mergeSlots (first :: next :: rest) = first :: mergeSlots (next :: rest) := by
  rw [mergeSlots, if_neg (mt (merges_iff sorted).1 apart)]

end

theorem mergeSlots_head (first : Pmmap) (rest : List Pmmap) :
    ∃ head tail, mergeSlots (first :: rest) = head :: tail ∧ head.start = first.start ∧ head.type = first.type := by
  cases rest with
  | nil => exact ⟨first, [], rfl, rfl, rfl⟩
  | cons next rest =>
    rw [mergeSlots]
    split
    · exact ⟨_, _, rfl, rfl, rfl⟩
    · exact ⟨_, _, rfl, rfl, rfl⟩

theorem touches_congr {a head slot : Pmmap} (start : head.start = slot.start) (type : head.type = slot.type) :
    Touches a head ↔ Touches a slot := by
  rw [Touches, Touches, start, type]

theorem isChain_mergeSlots_cons : (a :: mergeSlots (first :: rest)).IsChain (fun a b => ¬Touches a b) ↔
      ¬Touches a first ∧ (mergeSlots (first :: rest)).IsChain fun a b => ¬Touches a b := by
  obtain ⟨head, tail, merged, start, type⟩ := mergeSlots_head first rest
  rw [merged, List.isChain_cons_cons, touches_congr start type]

theorem noTriple_cons_iff {a b : Pmmap} (apart : ¬Touches a b) : NoTriple (a :: b :: rest) ↔ NoTriple (b :: rest) := by
  cases rest with
  | nil => exact Iff.rfl
  | cons c rest => exact and_iff_right fun touch => absurd touch apart

theorem touches_joined {a b c : Pmmap} (first : Touches a b) (touch : Touches b c) : Touches (joined a b) c :=
  ⟨first.1.trans touch.1, BitVec.le_trans touch.2 (joined_end a b).2⟩

theorem mergeSlots_apart_iff (sorted : SortedByStart slots) :
    (mergeSlots slots).IsChain (fun a b => ¬Touches a b) ↔ NoTriple slots := by
  induction slots using mergeSlots.induct with
  | case1 => exact iff_of_true .nil trivial
  | case2 only => exact iff_of_true (.singleton _) trivial
  | case3 first next rest merges ih =>
    have touch := (merges_iff sorted).1 merges
    have later := (List.pairwise_cons.1 (List.pairwise_cons.1 sorted).2).2
    rw [mergeSlots_touching sorted touch]
    cases rest with
    | nil => exact iff_of_true (.singleton _) trivial
    | cons c rest =>
      rw [isChain_mergeSlots_cons, ih later, NoTriple, imp_iff_right touch]
      refine and_congr_right fun apart => ?_
      exact (noTriple_cons_iff fun close => apart (touches_joined touch close)).symm
  | case4 first next rest separate ih =>
    have apart : ¬Touches first next := mt (merges_iff sorted).2 separate
    rw [mergeSlots_separate sorted apart, isChain_mergeSlots_cons, ih (List.pairwise_cons.1 sorted).2,
      noTriple_cons_iff apart]
    exact and_iff_right apart

def HeldByOne (slots parts : List Pmmap) : Prop :=
  ∃ slot ∈ slots, ∀ part ∈ parts, slot.type = part.type ∧ slot.start ≤ part.start ∧ part.endAddr ≤ slot.endAddr

theorem HeldByOne.cons {parts : List Pmmap} (held : HeldByOne slots parts) : HeldByOne (a :: slots) parts := by
  obtain ⟨slot, member, holds⟩ := held
  exact ⟨slot, .tail _ member, holds⟩

theorem held_joined {a b : Pmmap} (sorted : SortedByStart (a :: b :: rest)) (touch : Touches a b) (slots : List Pmmap) :
    HeldByOne (joined a b :: slots) [a, b] := by
  have ordered := (List.pairwise_cons.1 sorted).1 b (.head _)
  refine ⟨joined a b, .head _, fun part member => ?_⟩
  rcases List.mem_cons.1 member with rfl | member
  · exact ⟨rfl, BitVec.le_refl _, (joined_end ..).1⟩
  · rw [List.mem_singleton.1 member]
    exact ⟨touch.1, ordered, (joined_end ..).2⟩

theorem held_self (a : Pmmap) (slots : List Pmmap) : HeldByOne (a :: slots) [a] := by
  refine ⟨a, .head _, fun part member => ?_⟩
  rw [List.mem_singleton.1 member]
  exact ⟨rfl, BitVec.le_refl _, BitVec.le_refl _⟩

theorem mergeSlots_holds (sorted : SortedByStart slots) (member : a ∈ slots) : HeldByOne (mergeSlots slots) [a] := by
  induction slots using mergeSlots.induct with
  | case1 => cases member
  | case2 only =>
    rw [List.mem_singleton.1 member]
    exact held_self only []
  | case3 first next rest merges ih =>
    have touch := (merges_iff sorted).1 merges
    rw [mergeSlots_touching sorted touch]
    obtain ⟨slot, here, holds⟩ := held_joined sorted touch (mergeSlots rest)
    rcases List.mem_cons.1 member with rfl | member
    · exact ⟨slot, here, fun part only => holds part (List.mem_singleton.1 only ▸ .head _)⟩
    · rcases List.mem_cons.1 member with rfl | member
      · exact ⟨slot, here, fun part only => holds part (List.mem_singleton.1 only ▸ .tail _ (.head _))⟩
      · exact (ih (List.pairwise_cons.1 (List.pairwise_cons.1 sorted).2).2 member).cons
  | case4 first next rest separate ih =>
    have apart : ¬Touches first next := mt (merges_iff sorted).2 separate
    rw [mergeSlots_separate sorted apart]
    rcases List.mem_cons.1 member with rfl | member
    · exact held_self ..
    · exact (ih (List.pairwise_cons.1 sorted).2 member).cons

theorem mergeSlots_holds_pair (sorted : SortedByStart slots) (none : NoTriple slots) {a b : Pmmap}
    (row : [a, b] <:+: slots) (touch : Touches a b) : HeldByOne (mergeSlots slots) [a, b] := by
  induction slots using mergeSlots.induct with
  | case1 => exact absurd row.length_le (by simp)
  | case2 only => exact absurd row.length_le (by simp)
  | case3 first next rest merges ih =>
    have close := (merges_iff sorted).1 merges
    have sorted' := (List.pairwise_cons.1 sorted).2
    rw [mergeSlots_touching sorted close]
    rcases List.infix_cons_iff.1 row with start | later
    · obtain ⟨rfl, second⟩ := List.cons_prefix_cons.1 start
      obtain ⟨rfl, -⟩ := List.cons_prefix_cons.1 second
      exact held_joined sorted touch _
    · rcases List.infix_cons_iff.1 later with start | later
      · -- the second of the two would touch the slots merged before
        obtain ⟨rfl, second⟩ := List.cons_prefix_cons.1 start
        cases rest with
        | nil => exact absurd start.length_le (by simp)
        | cons c rest =>
          obtain ⟨rfl, -⟩ := List.cons_prefix_cons.1 second
          exact absurd (touches_joined close touch) (none.1 close)
      · exact (ih (List.pairwise_cons.1 sorted').2 none.tail.tail later).cons
  | case4 first next rest separate ih =>
    have apart : ¬Touches first next := mt (merges_iff sorted).2 separate
    rw [mergeSlots_separate sorted apart]
    rcases List.infix_cons_iff.1 row with start | later
    · obtain ⟨rfl, second⟩ := List.cons_prefix_cons.1 start
      obtain ⟨rfl, -⟩ := List.cons_prefix_cons.1 second
      exact absurd touch apart
    · exact (ih (List.pairwise_cons.1 sorted).2 none.tail later).cons

theorem NoTriple.of_infix {a b c : Pmmap} (none : NoTriple slots) (row : a :: b :: c :: rest <:+: slots)
    (touch : Touches a b) : ¬Touches (joined a b) c := by
  induction slots with
  | nil => exact absurd row.length_le (by simp)
  | cons first slots ih =>
    rcases List.infix_cons_iff.1 row with start | later
    · obtain ⟨tail, whole⟩ := start
      rw [← whole] at none
      exact none.1 touch
    · exact ih none.tail later

theorem mergeSlots_holds_run (sorted : SortedByStart slots) (none : NoTriple slots)
    (row : a :: rest <:+: slots) (run : AdjacentRun a rest) : HeldByOne (mergeSlots slots) (a :: rest) := by
  match rest with
  | [] => exact mergeSlots_holds sorted (row.subset (.head _))
  | [b] => exact mergeSlots_holds_pair sorted none row run.1
  | b :: c :: rest => exact absurd run.2.1 (none.of_infix row run.1)

end Merge

section Complete

variable {entries : List MbootMmap} {lists : PmmapLists}

def sortedSlots (entries : List MbootMmap) : List Pmmap := insertSlots [] (entries.filterMap MbootMmap.slot)

theorem pmmapInit_list (init : pmmapInit entries = .ok lists) : lists.list = mergeSlots (sortedSlots entries) := by
  unfold pmmapInit at init
  split at init
  · cases init
  · rename_i slots inserted
    rw [(pmmapMerge_ok init).1, insertEntries_eq inserted]
    rfl

theorem Pmmap.range_end (slot : Pmmap) : slot.range.len + slot.range.start = slot.endAddr := BitVec.sub_add_cancel ..

theorem page_inside {slot : Pmmap} {parts : List Pmmap} {i : Nat}
    (holds : ∀ part ∈ parts, slot.start ≤ part.start ∧ part.endAddr ≤ slot.endAddr)
    (covered : ∀ x, x / pageSize = i → ∃ part ∈ parts, part.Covers x) :
    slot.start.toNat ≤ i * pageSize ∧ (i + 1) * pageSize ≤ slot.endAddr.toNat := by
  obtain ⟨low, lowPart, lowCovers⟩ := covered (i * pageSize) (Nat.mul_div_cancel i (by decide))
  obtain ⟨high, highPart, highCovers⟩ := covered (i * pageSize + 4095) (by simp only [pageSize]; omega)
  have below := (holds low lowPart).1
  have above := (holds high highPart).2
  rw [BitVec.le_def] at below above
  have first := lowCovers.1
  have last := highCovers.2
  simp only [pageSize] at *
  omega

/-- Merging is complete exactly if no three entries that follow each other make one range. -/
theorem pmmapInit_complete_iff (entries : List MbootMmap) (lists : PmmapLists) (init : pmmapInit entries = .ok lists) :
    MergedCompletely (sortedSlots entries) lists ↔ NoTriple (sortedSlots entries) := by
  have sorted : SortedByStart (sortedSlots entries) := insertSlots_sorted .nil _
  have list := pmmapInit_list init
  constructor
  · intro complete
    rw [← mergeSlots_apart_iff sorted, ← list]
    exact complete.apart
  · intro none
    have held (first : Pmmap) (rest : List Pmmap) (row : first :: rest <:+: sortedSlots entries)
        (run : AdjacentRun first rest) : ∃ slot ∈ lists.list, slot.type = first.type ∧
          ∀ part ∈ first :: rest, slot.start ≤ part.start ∧ part.endAddr ≤ slot.endAddr := by
      obtain ⟨slot, member, holds⟩ := mergeSlots_holds_run sorted none row run
      exact ⟨slot, list ▸ member, (holds first (.head _)).1, fun part part' => (holds part part').2⟩
    refine ⟨?_, held, fun first rest row run ram i covered => ?_⟩
    · rw [list]
      exact (mergeSlots_apart_iff sorted).2 none
    · obtain ⟨slot, member, type, holds⟩ := held first rest row run
      obtain ⟨low, high⟩ := page_inside holds covered
      refine ⟨slot.range, ?_, decide_eq_true (type.trans ram), low, ?_⟩
      · rw [(pmmapInit_table init).1]
        exact List.mem_map_of_mem member
      · rw [slot.range_end]
        exact high

end Complete

def threePieces : List MbootMmap :=
  [⟨0x40000000, 0, 0x800, 0, memRam⟩, ⟨0x40000800, 0, 0x1000, 0, memRam⟩, ⟨0x40001800, 0, 0x800, 0, memRam⟩]

theorem pmmapInit_complete_iff_two :
    ∃ lists, pmmapInit (threePieces.take 2) = .ok lists ∧
      MergedCompletely (sortedSlots (threePieces.take 2)) lists := by
  refine ⟨_, rfl, (pmmapInit_complete_iff (threePieces.take 2) _ rfl).2 trivial⟩

theorem pmmapInit_losesPage :
    ∃ lists, pmmapInit threePieces = .ok lists ∧
      lists.list = [⟨0x40000000, 0x40001800, memRam⟩, ⟨0x40001800, 0x40002000, memRam⟩] ∧
      firstRange (memTable lists) 0x40001 = none ∧
      (∀ x, x / pageSize = 0x40001 → ∃ p ∈ threePieces, p.type = memRam ∧ p.Covers x) ∧
      ¬MergedCompletely (sortedSlots threePieces) lists := by
  refine ⟨_, rfl, by decide, by decide, fun x page => ?_, fun complete => ?_⟩
  · simp only [pageSize] at page
    by_cases early : x < 0x40001800
    · refine ⟨_, .tail _ (.head _), rfl, ?_, ?_⟩
      · change 0x40000800 ≤ x
        omega
      · change x < 0x40001800
        omega
    · refine ⟨_, .tail _ (.tail _ (.head _)), rfl, ?_, ?_⟩
      · change 0x40001800 ≤ x
        omega
      · change x < 0x40002000
        omega
  · have apart := complete.apart
    exact absurd (⟨rfl, by decide⟩ : Touches ⟨0x40000000, 0x40001800, memRam⟩ ⟨0x40001800, 0x40002000, memRam⟩)
      (List.isChain_cons_cons.1 apart).1

end Certikos
