import Certikos.Memory.Quota
import Certikos.Thread.Sched

/-!
# The memory map of the boot loader

`mboot.c`: the entries that the boot loader passes are sorted by their start, neighbours of one type are merged, and
`pmem_init` looks at the list that results.
-/

namespace Certikos
open Lib

structure MbootMmap where
  baseAddrLow : Word
  baseAddrHigh : Word
  lengthLow : Word
  lengthHigh : Word
  type : Word

structure Pmmap where
  start : Word
  endAddr : Word
  type : Word
  deriving DecidableEq

abbrev memRam : Word := 1
abbrev memReserved : Word := 2
abbrev memAcpi : Word := 3
abbrev memNvs : Word := 4

inductive PmmapType
  | usable | resv | acpi | nvs
  deriving DecidableEq

def pmmapSublistNr (type : Word) : Option PmmapType :=
  if type = memRam then some .usable
  else if type = memReserved then some .resv
  else if type = memAcpi then some .acpi
  else if type = memNvs then some .nvs
  else none

structure PmmapLists where
  list : List Pmmap
  sublist : PmmapType → List Pmmap
  nentries : Nat

/-! ## Sorting and merging -/

/-- The search of `pmmap_insert`: the slot goes behind the last one that does not start later. -/
def insertSlot (freeSlot : Pmmap) : List Pmmap → List Pmmap
  | [] => [freeSlot]
  | slot :: rest =>
    if freeSlot.start < slot.start then freeSlot :: slot :: rest else slot :: insertSlot freeSlot rest

def pmmapInsert (slots : List Pmmap) (slot : Pmmap) : Except (Halt (List Pmmap)) (List Pmmap) :=
  if slots.length = 128 then .error (.panic "More than 128 E820 entries.\n" slots)
  else .ok (insertSlot slot slots)

def wordMax (a b : Word) : Word := if a > b then a else b

/-- The first loop of `pmmap_merge`. After a merge it goes on with the slot behind the one that was removed. -/
def mergeSlots : List Pmmap → List Pmmap
  | [] => []
  | [slot] => [slot]
  | slot :: next :: rest =>
    if slot.start ≤ next.start ∧ slot.endAddr ≥ next.start ∧ slot.type = next.type then
      { slot with endAddr := wordMax slot.endAddr next.endAddr } :: mergeSlots rest
    else slot :: mergeSlots (next :: rest)

def sortByType : (lists : PmmapType → List Pmmap) → List Pmmap → Except (Halt (List Pmmap)) (PmmapType → List Pmmap)
  | lists, [] => .ok lists
  | lists, slot :: rest =>
    match pmmapSublistNr slot.type with
    | none => .error (.panic "Kernel assertion failed: %s\n" (slot :: rest))
    | some nr => sortByType (Function.update lists nr (lists nr ++ [slot])) rest

def pmmapMerge (slots : List Pmmap) : Except (Halt (List Pmmap)) PmmapLists :=
  match sortByType (fun _ => []) (mergeSlots slots) with
  | .error halt => .error halt
  | .ok sublist => .ok ⟨mergeSlots slots, sublist, (mergeSlots slots).length⟩

def MbootMmap.slot (p : MbootMmap) : Option Pmmap :=
  if p.baseAddrHigh ≠ 0#32 then none
  else
    let start := p.baseAddrLow
    let endAddr :=
      if p.lengthHigh ≠ 0#32 ∨ p.lengthLow ≥ 0xffffffff#32 - start then 0xffffffff#32 else start + p.lengthLow
    some ⟨start, endAddr, p.type⟩

def insertEntries : List Pmmap → List MbootMmap → Except (Halt (List Pmmap)) (List Pmmap)
  | slots, [] => .ok slots
  | slots, p :: rest =>
    match p.slot with
    | none => insertEntries slots rest
    | some slot =>
      match pmmapInsert slots slot with
      | .error halt => .error halt
      | .ok slots => insertEntries slots rest

def pmmapInit (entries : List MbootMmap) : Except (Halt (List Pmmap)) PmmapLists :=
  match insertEntries [] entries with
  | .error halt => .error halt
  | .ok slots => pmmapMerge slots

/-! ## The table that `pmem_init` reads -/

def getSize (s : PmmapLists) : Nat := s.nentries

def slotAt (s : PmmapLists) (idx : Nat) : Option Pmmap := if idx = s.nentries then none else s.list[idx]?

def getMms (s : PmmapLists) (idx : Nat) : Word :=
  match slotAt s idx with
  | none => 0
  | some slot => slot.start

def getMml (s : PmmapLists) (idx : Nat) : Word :=
  match slotAt s idx with
  | none => 0
  | some slot => slot.endAddr - slot.start

def isUsable (s : PmmapLists) (idx : Nat) : Bool :=
  match slotAt s idx with
  | none => false
  | some slot => slot.type = memRam

def memTable (s : PmmapLists) : List MemRange :=
  (List.range (getSize s)).map fun j => ⟨getMms s j, getMml s j, isUsable s j⟩

def Pmmap.range (slot : Pmmap) : MemRange := ⟨slot.start, slot.endAddr - slot.start, slot.type = memRam⟩

theorem memTable_eq {s : PmmapLists} (size : s.nentries = s.list.length) : memTable s = s.list.map Pmmap.range := by
  apply List.ext_getElem
  · simp [memTable, getSize, size]
  · intro j left right
    have lt : j < s.list.length := by simpa using right
    have slot : slotAt s j = some s.list[j] := by
      rw [slotAt, if_neg (by omega), List.getElem?_eq_getElem lt]
    simp [memTable, getMms, getMml, isUsable, slot, Pmmap.range]

/-! ## What the slots cover -/

def MbootMmap.Covers (p : MbootMmap) (x : Nat) : Prop :=
  p.baseAddrHigh.toNat * 2 ^ 32 + p.baseAddrLow.toNat ≤ x ∧
    x < p.baseAddrHigh.toNat * 2 ^ 32 + p.baseAddrLow.toNat + (p.lengthHigh.toNat * 2 ^ 32 + p.lengthLow.toNat)

def Pmmap.Covers (slot : Pmmap) (x : Nat) : Prop := slot.start.toNat ≤ x ∧ x < slot.endAddr.toNat

theorem insertSlot_perm (slot : Pmmap) (slots : List Pmmap) : (insertSlot slot slots).Perm (slot :: slots) := by
  induction slots with
  | nil => exact .refl _
  | cons first rest ih =>
    unfold insertSlot
    split
    · exact .refl _
    · exact (ih.cons first).trans (.swap slot first rest)

def insertSlots (slots more : List Pmmap) : List Pmmap := more.foldl (fun slots slot => insertSlot slot slots) slots

theorem insertSlots_perm (slots more : List Pmmap) : (insertSlots slots more).Perm (slots ++ more) := by
  induction more generalizing slots with
  | nil => simp [insertSlots]
  | cons slot rest ih =>
    refine (ih (insertSlot slot slots)).trans (((insertSlot_perm slot slots).append_right rest).trans ?_)
    exact List.perm_middle.symm

variable {entries : List MbootMmap} {slot : Pmmap} {r : MemRange} {i : Nat}

theorem insertEntries_eq {slots result : List Pmmap} (done : insertEntries slots entries = .ok result) :
    result = insertSlots slots (entries.filterMap MbootMmap.slot) := by
  induction entries generalizing slots with
  | nil =>
    cases done
    rfl
  | cons p rest ih =>
    unfold insertEntries at done
    cases here : p.slot with
    | none =>
      rw [here] at done
      rw [List.filterMap_cons_none here]
      exact ih done
    | some slot =>
      rw [here] at done
      dsimp only at done
      rw [List.filterMap_cons_some here]
      unfold pmmapInsert at done
      split at done
      · cases done
      · rename_i inserted
        split at inserted
        · cases inserted
        · cases inserted
          exact ih done

theorem insertEntries_perm {slots result : List Pmmap} (done : insertEntries slots entries = .ok result) :
    result.Perm (slots ++ entries.filterMap MbootMmap.slot) := by
  rw [insertEntries_eq done]
  exact insertSlots_perm slots _

theorem wordMax_toNat (a b : Word) : (wordMax a b).toNat = max a.toNat b.toNat := by
  unfold wordMax
  split
  · rename_i gt
    rw [GT.gt, BitVec.lt_def] at gt
    omega
  · rename_i le
    rw [GT.gt, BitVec.lt_def] at le
    omega

theorem mergeSlots_covers (type : Word) (x : Nat) (slots : List Pmmap) :
    (∃ slot ∈ mergeSlots slots, slot.type = type ∧ slot.Covers x) ↔
      ∃ slot ∈ slots, slot.type = type ∧ slot.Covers x := by
  induction slots using mergeSlots.induct with
  | case1 => rfl
  | case2 slot => rfl
  | case3 slot next rest merges ih =>
    obtain ⟨ordered, touching, same⟩ := merges
    rw [BitVec.le_def] at ordered
    rw [GE.ge, BitVec.le_def] at touching
    have joined : Pmmap.Covers { slot with endAddr := wordMax slot.endAddr next.endAddr } x ↔
        slot.Covers x ∨ next.Covers x := by
      simp only [Pmmap.Covers, wordMax_toNat]
      omega
    rw [mergeSlots, if_pos ⟨ordered, touching, same⟩]
    simp only [List.mem_cons, exists_eq_or_imp, ih, joined, ← same]
    rw [and_or_left, or_assoc]
  | case4 slot next rest apart ih =>
    rw [mergeSlots, if_neg apart]
    simp only [List.mem_cons, exists_eq_or_imp] at ih ⊢
    rw [ih]

theorem MbootMmap.slot_eq_some {p : MbootMmap} (here : p.slot = some slot) :
    slot.type = p.type ∧ ∀ x, slot.Covers x → p.Covers x := by
  unfold MbootMmap.slot at here
  split at here
  · cases here
  · rename_i low
    cases here
    refine ⟨rfl, fun x covers => ?_⟩
    have zero : p.baseAddrHigh = 0#32 := not_not.1 low
    obtain ⟨above, below⟩ := covers
    have rest : (0xffffffff#32 - p.baseAddrLow).toNat = 0xffffffff - p.baseAddrLow.toNat := by bv_omega
    rw [MbootMmap.Covers, zero]
    dsimp only at above below
    split at below
    · rename_i long
      change x < 0xffffffff at below
      rcases long with high | low
      · have pos : p.lengthHigh.toNat ≠ 0 := fun zero => high (BitVec.eq_of_toNat_eq zero)
        simp only [BitVec.toNat_ofNat]
        omega
      · rw [GE.ge, BitVec.le_def, rest] at low
        simp only [BitVec.toNat_ofNat]
        omega
    · rename_i short
      rw [not_or, not_not, GE.ge, BitVec.not_le, BitVec.lt_def, rest] at short
      rw [BitVec.toNat_add] at below
      rw [short.1]
      simp only [BitVec.toNat_ofNat]
      omega

/-! ## The pages that are handed out -/

def firstRange (mmap : List MemRange) (i : Nat) : Option MemRange :=
  mmap.find? fun r => r.start.toNat ≤ i * pageSize ∧ (r.len + r.start).toNat ≥ (i + 1) * pageSize

theorem memPerm_eq_two (mmap : List MemRange) (i : Nat) :
    memPerm mmap i = 2 ↔ (vmUserloPi ≤ i ∧ i < vmUserhiPi) ∧ ∃ r, firstRange mmap i = some r ∧ r.usable = true := by
  unfold memPerm
  rw [← firstRange]
  split
  · rename_i kernel
    refine iff_of_false (by decide) fun user => ?_
    omega
  · rename_i user
    rw [not_or] at user
    cases first : firstRange mmap i with
    | none => simp
    | some r =>
      have range : vmUserloPi ≤ i ∧ i < vmUserhiPi := by omega
      cases usable : r.usable with
      | false => simp [usable]
      | true => simp [usable, range]

theorem lt_foldl_of_step {α : Type} {f : Nat → α → Nat} (bound : α → Nat) (step : ∀ n a, n ≤ f n a ∧ bound a < f n a)
    (xs : List α) (n : Nat) : n ≤ xs.foldl f n ∧ ∀ a ∈ xs, bound a < xs.foldl f n := by
  induction xs generalizing n with
  | nil => exact ⟨le_rfl, nofun⟩
  | cons a xs ih =>
    obtain ⟨grows, rest⟩ := ih (f n a)
    rw [List.foldl_cons, List.forall_mem_cons]
    exact ⟨(step n a).1.trans grows, (step n a).2.trans_le grows, rest⟩

variable {slots : List Pmmap} {mmap : List MemRange}

theorem range_lt_memNps (member : r ∈ mmap) : (r.start + r.len).toNat / pageSize < memNps mmap := by
  unfold memNps
  refine (lt_foldl_of_step (fun r => (r.start + r.len).toNat / pageSize) (fun n r => ?_) mmap 0).2 r member
  dsimp only
  split <;> omega

theorem firstRange_lt_memNps (first : firstRange mmap i = some r) : i < memNps mmap := by
  have inside := List.find?_some first
  have below := range_lt_memNps (List.mem_of_find?_eq_some first)
  simp only [decide_eq_true_eq] at inside
  rw [BitVec.add_comm] at below
  have : (i + 1) * pageSize / pageSize ≤ (r.len + r.start).toNat / pageSize := Nat.div_le_div_right inside.2
  rw [Nat.mul_div_cancel _ (by decide)] at this
  omega

def normalPages (s : VmState) : Finset Nat := (Finset.range (getNps s)).filter fun i => (s.allocTable i).perm = 2

structure OnlyUsable (entries : List MbootMmap) (mmap : List MemRange) (s : VmState) : Prop where
  avoids : ∀ i ∈ normalPages s, ∀ p ∈ entries, p.type ≠ memRam → ∀ x, x / pageSize = i → ¬p.Covers x
  inside : ∀ i ∈ normalPages s, ∀ x, x / pageSize = i → ∃ p ∈ entries, p.type = memRam ∧ p.Covers x
  user : ∀ i ∈ normalPages s, vmUserlo ≤ i * pageSize ∧ (i + 1) * pageSize ≤ vmUserhi
  indices : memNps mmap ≤ 2 ^ 20
  quota : (s.container 0).quota.toNat = (normalPages s).card

theorem mem_normalPages {vm : VmState} : i ∈ normalPages (containerInit mmap vm) ↔
      (vmUserloPi ≤ i ∧ i < vmUserhiPi) ∧ ∃ r, firstRange mmap i = some r ∧ r.usable = true := by
  have table : (containerInit mmap vm).allocTable = (pmemInit mmap vm).allocTable := rfl
  have nps : getNps (containerInit mmap vm) = memNps mmap := getNps_pmemInit mmap vm
  rw [normalPages, Finset.mem_filter, Finset.mem_range, nps, table, ← memPerm_eq_two]
  constructor
  · rintro ⟨lt, perm⟩
    rwa [pmemInit_perm mmap vm lt] at perm
  · intro perm
    obtain ⟨-, r, first, -⟩ := (memPerm_eq_two mmap i).1 perm
    have lt := firstRange_lt_memNps first
    exact ⟨lt, (pmemInit_perm mmap vm lt).trans perm⟩

theorem containerInit_normal (mmap : List MemRange) (vm : VmState) :
    ((containerInit mmap vm).container 0).quota.toNat = (normalPages (containerInit mmap vm)).card := by
  rw [containerInit_root]
  congr 1
  ext i
  rw [availablePages, Finset.mem_filter, Finset.mem_Ico, pmemInit_available, getNps_pmemInit, mem_normalPages,
    memPerm_eq_two]
  constructor
  · rintro ⟨-, -, normal⟩
    exact normal
  · intro normal
    obtain ⟨⟨low, above⟩, r, first, two⟩ := normal
    have lt := firstRange_lt_memNps first
    have pos : 1 ≤ i := le_trans (by decide) low
    exact ⟨⟨pos, lt⟩, lt, ⟨low, above⟩, r, first, two⟩

/-! ## Maps that are accepted -/

theorem insertEntries_ok (room : slots.length + entries.length ≤ 128) :
    ∃ result, insertEntries slots entries = .ok result := by
  induction entries generalizing slots with
  | nil => exact ⟨slots, rfl⟩
  | cons p rest ih =>
    rw [List.length_cons] at room
    unfold insertEntries
    cases p.slot with
    | none => exact ih (by omega)
    | some slot =>
      dsimp only
      rw [pmmapInsert, if_neg (by omega)]
      refine ih ?_
      rw [(insertSlot_perm slot slots).length_eq, List.length_cons]
      omega

theorem sortByType_ok {lists : PmmapType → List Pmmap}
    (known : ∀ slot ∈ slots, (pmmapSublistNr slot.type).isSome) : ∃ result, sortByType lists slots = .ok result := by
  induction slots generalizing lists with
  | nil => exact ⟨lists, rfl⟩
  | cons slot rest ih =>
    obtain ⟨nr, here⟩ := Option.isSome_iff_exists.1 (known slot (.head _))
    unfold sortByType
    rw [here]
    exact ih fun other member => known other (.tail _ member)

theorem mergeSlots_origin (member : slot ∈ mergeSlots slots) :
    ∃ old ∈ slots, old.start = slot.start ∧ old.type = slot.type := by
  induction slots using mergeSlots.induct with
  | case1 => cases member
  | case2 only => exact ⟨slot, member, rfl, rfl⟩
  | case3 first next rest merges ih =>
    rw [mergeSlots, if_pos merges] at member
    rcases List.mem_cons.1 member with rfl | later
    · exact ⟨first, .head _, rfl, rfl⟩
    · obtain ⟨old, present, same⟩ := ih later
      exact ⟨old, .tail _ (.tail _ present), same⟩
  | case4 first next rest apart ih =>
    rw [mergeSlots, if_neg apart] at member
    rcases List.mem_cons.1 member with rfl | later
    · exact ⟨slot, .head _, rfl, rfl⟩
    · obtain ⟨old, present, same⟩ := ih later
      exact ⟨old, .tail _ present, same⟩

theorem pmmapInit_ok (few : entries.length ≤ 128) (known : ∀ p ∈ entries, (pmmapSublistNr p.type).isSome) :
    ∃ lists, pmmapInit entries = .ok lists := by
  have none : ([] : List Pmmap).length + entries.length ≤ 128 := by simpa using few
  obtain ⟨slots, inserted⟩ := insertEntries_ok none
  have types (slot : Pmmap) (member : slot ∈ mergeSlots slots) : (pmmapSublistNr slot.type).isSome := by
    obtain ⟨old, present, -, same⟩ := mergeSlots_origin member
    have entry := (insertEntries_perm inserted).mem_iff.1 present
    rw [List.nil_append, List.mem_filterMap] at entry
    obtain ⟨p, given, here⟩ := entry
    rw [← same, (MbootMmap.slot_eq_some here).1]
    exact known p given
  obtain ⟨sublist, sorted⟩ := sortByType_ok types
  exact ⟨⟨mergeSlots slots, sublist, _⟩, by rw [pmmapInit, inserted]; dsimp only; rw [pmmapMerge, sorted]⟩

/-! ## What a map leads to -/

/-- The ranges of a map: what its entries cover below 4G in the order of their starts, with neighbours of one type
joined as `pmmap_merge` joins them. -/
def mergedRanges (entries : List MbootMmap) : List MemRange :=
  (mergeSlots (insertSlots [] (entries.filterMap MbootMmap.slot))).map Pmmap.range

section Init

variable {entries : List MbootMmap} {lists : PmmapLists}

theorem pmmapMerge_ok (done : pmmapMerge slots = .ok lists) :
    lists.list = mergeSlots slots ∧ lists.nentries = lists.list.length := by
  unfold pmmapMerge at done
  split at done
  · cases done
  · cases done
    exact ⟨rfl, rfl⟩

variable (init : pmmapInit entries = .ok lists)
include init

theorem pmmapInit_covers {slot : Pmmap} (member : slot ∈ lists.list) {x : Nat} (covers : slot.Covers x) :
    ∃ p ∈ entries, p.type = slot.type ∧ p.Covers x := by
  unfold pmmapInit at init
  split at init
  · cases init
  · rename_i slots inserted
    rw [(pmmapMerge_ok init).1] at member
    obtain ⟨old, present, same, inside⟩ := (mergeSlots_covers slot.type x slots).1 ⟨slot, member, rfl, covers⟩
    have entry := (insertEntries_perm inserted).mem_iff.1 present
    rw [List.nil_append, List.mem_filterMap] at entry
    obtain ⟨p, given, here⟩ := entry
    obtain ⟨type, covered⟩ := MbootMmap.slot_eq_some here
    exact ⟨p, given, type ▸ same, covered x inside⟩

theorem pmmapInit_table : memTable lists = lists.list.map Pmmap.range ∧ memTable lists = mergedRanges entries := by
  unfold pmmapInit at init
  split at init
  · cases init
  · rename_i slots inserted
    obtain ⟨list, size⟩ := pmmapMerge_ok init
    have table := memTable_eq size
    refine ⟨table, ?_⟩
    rw [table, list, insertEntries_eq inserted]
    rfl

theorem firstRange_inside {i : Nat} {r : MemRange} (first : firstRange (memTable lists) i = some r)
    (usable : r.usable = true) {x : Nat} (page : x / pageSize = i) : ∃ p ∈ entries, p.type = memRam ∧ p.Covers x := by
  rw [(pmmapInit_table init).1] at first
  have contains := List.find?_some first
  obtain ⟨slot, member, rfl⟩ := List.mem_map.1 (List.mem_of_find?_eq_some first)
  simp only [decide_eq_true_eq, Pmmap.range, BitVec.sub_add_cancel] at contains
  have ram : slot.type = memRam := by simpa [Pmmap.range] using usable
  have covers : slot.Covers x := by
    simp only [pageSize] at *
    constructor <;> omega
  obtain ⟨p, given, type, covered⟩ := pmmapInit_covers init member covers
  exact ⟨p, given, type.trans ram, covered⟩

end Init

def overlapMap : List MbootMmap :=
  [⟨0x40000000, 0, 0x10000000, 0, memRam⟩, ⟨0x40001000, 0, 0x1000, 0, memReserved⟩]

end Certikos
