import Certikos.FileSys.Blocks
import Certikos.Lib.Serial
import Certikos.Mkfs.Program
import Mathlib.Algebra.BigOperators.Group.Finset.Basic
import Mathlib.Algebra.Order.BigOperators.Group.Finset
import Mathlib.Data.List.GetD

/-!
# How the image is laid out

Blocks are given out one after another and never taken back, so the order in which they were asked for says where
everything is.
-/

namespace Certikos.Mkfs
open Lib Function
open FileSys
open Fs (Block)

/-! ## Steps of the program -/

def State.write (s : State) (sec : Nat) (buf : Block) : State :=
  { s with image := update s.image sec buf, sectors := max s.sectors (sec + 1) }

def State.advance (s : State) : State :=
  { s with freeblock := s.freeblock + 1, usedblocks := s.usedblocks + 1 }

section Steps

variable {s : State} {sec : Nat} {E : Abort → State → Prop}

variable {buf : Block}

@[simp] theorem wp_wsect {Q : PUnit → State → Prop} : wp (wsect sec buf) Q E s ↔ Q ⟨⟩ (s.write sec buf) :=
  Iff.rfl

@[simp] theorem wp_nextBlock {Q : Word → State → Prop} :
    wp nextBlock Q E s ↔ Q (BitVec.ofNat 32 s.freeblock) s.advance := Iff.rfl

theorem wp_rsect {Q : Block → State → Prop} (below : sec < s.sectors) : wp (rsect sec) Q E s ↔ Q (s.image sec) s := by
  rw [rsect, wp_bind, wp_get, if_pos below, wp_pure]

@[simp] theorem image_write_self : (s.write sec buf).image sec = buf := update_self ..

theorem image_write_of_ne {b : Nat} (ne : b ≠ sec) : (s.write sec buf).image b = s.image b :=
  update_of_ne ne ..

@[simp] theorem image_advance : s.advance.image = s.image := rfl

end Steps

/-! ## Uses of blocks -/

inductive Use
  | data (i bn : Nat)
  | table (i : Nat)
  deriving DecidableEq

abbrev firstData : Nat := 29

abbrev inodeLimit : Nat := 216

abbrev tableLimit : Nat := (ninodes / ipb + 1) * ipb

def blocksFor (n : Nat) : Nat := (n + (bsize - 1)) / bsize + if ndirect * bsize < n then 1 else 0

def Use.Below (bound : Nat → Nat) : Use → Prop
  | .data i bn => i < inodeLimit ∧ bn * bsize < bound i
  | .table i => i < inodeLimit ∧ ndirect * bsize < bound i

def total (bound : Nat → Nat) : Nat := ∑ i ∈ Finset.range inodeLimit, blocksFor (bound i)

theorem length_le_total {bound : Nat → Nat} {uses : List Use} (nodup : uses.Nodup)
    (below : ∀ u ∈ uses, u.Below bound) : uses.length ≤ total bound := by
  let ofInode (i : Nat) : Finset Use :=
    (Finset.range ((bound i + (bsize - 1)) / bsize)).image (Use.data i) ∪
      if ndirect * bsize < bound i then {Use.table i} else ∅
  have card : ∀ i, (ofInode i).card ≤ blocksFor (bound i) := by
    intro i
    refine (Finset.card_union_le _ _).trans (Nat.add_le_add ?_ ?_)
    · exact Finset.card_image_le.trans (Finset.card_range _).le
    · split <;> simp
  have subset : uses.toFinset ⊆ (Finset.range inodeLimit).biUnion ofInode := by
    intro u member
    have here := below u (List.mem_toFinset.mp member)
    rw [Finset.mem_biUnion]
    cases u with
    | data i bn =>
      refine ⟨i, Finset.mem_range.mpr here.1, Finset.mem_union_left _ (Finset.mem_image_of_mem _ ?_)⟩
      have inside : bn * 512 < bound i := here.2
      rw [Finset.mem_range]
      show bn < (bound i + 511) / 512
      omega
    | table i =>
      refine ⟨i, Finset.mem_range.mpr here.1, Finset.mem_union_right _ ?_⟩
      rw [if_pos here.2]
      exact Finset.mem_singleton_self _
  calc uses.length = uses.toFinset.card := (List.toFinset_card_of_nodup nodup).symm
    _ ≤ ((Finset.range inodeLimit).biUnion ofInode).card := Finset.card_le_card subset
    _ ≤ ∑ i ∈ Finset.range inodeLimit, (ofInode i).card := Finset.card_biUnion_le
    _ ≤ total bound := Finset.sum_le_sum fun i _ => card i

/-! ## The image -/

structure Layout where
  uses : List Use
  content : Nat → List Byte
  next : Nat

def slotUse (i : Nat) (k : Fin (ndirect + 1)) : Use := if k.val < ndirect then .data i k.val else .table i

def kind (i : Nat) : BitVec 16 := if i = 1 then tDir else tFile

namespace Layout

def place (l : Layout) (u : Use) : Nat := serial firstData l.uses u

def addr (l : Layout) (u : Use) : Word := BitVec.ofNat 32 (l.place u)

def inMemory (l : Layout) (i : Nat) (size : Word) : Dinode := ⟨kind i, 0, 0, 1, size, fun k => l.addr (slotUse i k)⟩

def dinode (l : Layout) (i : Nat) : Dinode := l.inMemory i (BitVec.ofNat 32 (l.content i).length)

structure Live (l : Layout) : Prop where
  data : ∀ i bn, .data i bn ∈ l.uses ↔ bn * bsize < (l.content i).length
  table : ∀ i, .table i ∈ l.uses ↔ ndirect * bsize < (l.content i).length

theorem Live.table_of_data {l : Layout} (live : l.Live) {i bn : Nat} (member : .data i bn ∈ l.uses)
    (indirect : ndirect ≤ bn) : .table i ∈ l.uses := by
  rw [live.data] at member
  rw [live.table]
  exact lt_of_le_of_lt (Nat.mul_le_mul_right bsize indirect) member

end Layout

structure Laid (bound : Nat → Nat) (l : Layout) (written : Nat → Prop) (s : State) : Prop where
  sectors : s.sectors = size
  freeblock : s.freeblock = firstData + l.uses.length
  usedblocks : s.usedblocks = firstData + l.uses.length
  freeinode : s.freeinode = l.next
  nodup : l.uses.Nodup
  below : ∀ u ∈ l.uses, u.Below bound
  inodes : ∀ i, written i → i < inodeLimit ∧ dinodeAt (s.image (i2b i)) (BitVec.ofNat 32 i) = l.dinode i
  blank : ∀ i, i < tableLimit → (i = 0 ∨ l.next ≤ i) →
    dinodeAt (s.image (i2b i)) (BitVec.ofNat 32 i) = ⟨0, 0, 0, 0, 0, fun _ => 0⟩
  tables : ∀ i, .table i ∈ l.uses → ∀ j : Fin 128,
    s.image (l.place (.table i)) j = l.addr (.data i (ndirect + j.val))
  bytes : ∀ i bn, .data i bn ∈ l.uses → ∀ k, k < bsize →
    blockByte (s.image (l.place (.data i bn))) k = (l.content i).getD (bn * bsize + k) 0
  clear : ∀ b, firstData + l.uses.length ≤ b → s.image b = fun _ => 0
  super : s.image 1 = superblock

variable {content : List Byte}

section Laid

variable {bound : Nat → Nat} {l : Layout} {written : Nat → Prop} {s : State} {i : Nat} {u v : Use}

theorem Laid.length_le (laid : Laid bound l written s) (fits : total bound ≤ nblocks) : l.uses.length ≤ nblocks :=
  (length_le_total laid.nodup laid.below).trans fits

theorem Layout.place_lt : l.place u < firstData + l.uses.length := serial_lt (by decide)

theorem Layout.place_bounds (member : u ∈ l.uses) : firstData ≤ l.place u ∧ l.place u < firstData + l.uses.length :=
  serial_bounds member

theorem Layout.place_inj (member : u ∈ l.uses) (ne : u ≠ v) : l.place u ≠ l.place v :=
  fun same => ne (serial_inj member same (by decide))

theorem Layout.toNat_addr (few : l.uses.length ≤ nblocks) : (l.addr u).toNat = l.place u := by
  have lt : l.place u < 29 + l.uses.length := place_lt
  rw [addr, BitVec.toNat_ofNat]
  exact Nat.mod_eq_of_lt (by change l.uses.length ≤ 985 at few; omega)

theorem Layout.addr_eq_zero (few : l.uses.length ≤ nblocks) : l.addr u = 0 ↔ u ∉ l.uses := by
  rw [← serial_eq_zero (show 0 < firstData by decide), ← BitVec.toNat_inj, toNat_addr few]
  rfl

def Layout.give (l : Layout) (u : Use) : Layout := { l with uses := l.uses ++ [u] }

theorem Layout.mem_give : v ∈ (l.give u).uses ↔ v ∈ l.uses ∨ v = u := by
  rw [give, List.mem_append, List.mem_singleton]

theorem Layout.place_give_of_ne (ne : v ≠ u) : (l.give u).place v = l.place v := serial_append_of_ne ne

theorem Layout.place_give_self (fresh : u ∉ l.uses) : (l.give u).place u = firstData + l.uses.length :=
  serial_append_self fresh

theorem Layout.addr_give_of_ne (ne : v ≠ u) : (l.give u).addr v = l.addr v := by
  rw [addr, addr, place_give_of_ne ne]

theorem i2b_lt (small : i < inodeLimit) : i2b i < firstData := by
  change i < 216 at small
  show i / 8 + 2 < 29
  omega

variable {bn j : Nat} {l' : Layout} {n : Word}

theorem slotUse_direct (direct : bn < ndirect) : slotUse i (Fin.ofNat (ndirect + 1) bn) = .data i bn := by
  have index : (Fin.ofNat (ndirect + 1) bn).val = bn := Nat.mod_eq_of_lt (Nat.lt_succ_of_lt direct)
  unfold slotUse
  rw [index, if_pos direct]

theorem slotUse_table : slotUse i (Fin.ofNat (ndirect + 1) ndirect) = .table i := rfl

theorem entry_index (large : ndirect ≤ bn) (range : bn < maxfile) :
    ndirect + (Fin.ofNat 128 (bn - ndirect)).val = bn := by
  change bn < 12 + 128 at range
  rw [show (Fin.ofNat 128 (bn - ndirect)).val = bn - ndirect from Nat.mod_eq_of_lt (show bn - 12 < 128 by omega)]
  omega

theorem slotUse_ne (ne : j ≠ i) (k k' : Fin (ndirect + 1)) : slotUse j k ≠ slotUse i k' := by
  unfold slotUse
  split <;> split <;> simp [ne]

theorem slotUse_inj {k k' : Fin (ndirect + 1)} (same : slotUse i k = slotUse i k') : k = k' := by
  unfold slotUse at same
  split at same <;> split at same
  · exact Fin.ext (Use.data.inj same).2
  · cases same
  · cases same
  · exact Fin.ext (by omega)

theorem slotUse_ne_indirect {m : Nat} (k : Fin (ndirect + 1)) : slotUse i k ≠ .data j (ndirect + m) := by
  unfold slotUse
  split
  · intro same
    have := (Use.data.inj same).2
    omega
  · simp

theorem Laid.nodup_give (laid : Laid bound l written s) (fresh : u ∉ l.uses) : (l.give u).uses.Nodup :=
  List.Nodup.append laid.nodup (List.nodup_singleton u) (by simpa using fresh)

theorem Laid.below_give (laid : Laid bound l written s) (below : u.Below bound) :
    ∀ v ∈ (l.give u).uses, v.Below bound := by
  intro v member
  cases Layout.mem_give.mp member with
  | inl before => exact laid.below v before
  | inr same => exact same ▸ below

theorem Layout.length_give : (l.give u).uses.length = l.uses.length + 1 := List.length_append

theorem Layout.inMemory_congr {addrs : Fin (ndirect + 1) → Word} (same : ∀ k, addrs k = l'.addr (slotUse i k)) :
    ⟨kind i, 0, 0, 1, n, addrs⟩ = l'.inMemory i n :=
  congrArg (Dinode.mk (kind i) 0 0 1 n) (funext same)

theorem Laid.give_slot (laid : Laid bound l written s) (out : ¬written i) (k : Fin (ndirect + 1))
    (fresh : slotUse i k ∉ l.uses) (below : (slotUse i k).Below bound)
    (unlisted : slotUse i k = .table i → ∀ j, .data i (ndirect + j) ∉ l.uses)
    (past : ∀ bn, slotUse i k = .data i bn → (l.content i).length ≤ bn * bsize) :
    Laid bound (l.give (slotUse i k)) written s.advance := by
  have new := l.place_give_self fresh
  have clear := laid.clear (firstData + l.uses.length) le_rfl
  refine ⟨laid.sectors, ?_, ?_, laid.freeinode, laid.nodup_give fresh, laid.below_give below, ?_, laid.blank, ?_, ?_,
    ?_, laid.super⟩
  · rw [Layout.length_give]
    exact congrArg (· + 1) laid.freeblock
  · rw [Layout.length_give]
    exact congrArg (· + 1) laid.usedblocks
  · intro j wrote
    obtain ⟨small, here⟩ := laid.inodes j wrote
    have other : j ≠ i := fun same => out (same ▸ wrote)
    refine ⟨small, here.trans ?_⟩
    exact Layout.inMemory_congr fun k' => (Layout.addr_give_of_ne (slotUse_ne other k' k)).symm
  · intro j member m
    have entry : (l.give (slotUse i k)).addr (.data j (ndirect + m.val)) = l.addr (.data j (ndirect + m.val)) :=
      Layout.addr_give_of_ne (slotUse_ne_indirect k).symm
    rw [entry]
    by_cases same : Use.table j = slotUse i k
    · have mine : j = i := by
        unfold slotUse at same
        split at same
        · cases same
        · exact Use.table.inj same
      subst mine
      rw [same, new, image_advance, clear, Layout.addr, Layout.place,
        serial_of_not_mem (unlisted same.symm m.val)]
      rfl
    · rw [Layout.place_give_of_ne same]
      exact laid.tables j ((Layout.mem_give.mp member).resolve_right same) m
  · intro j bn member m lt
    by_cases same : Use.data j bn = slotUse i k
    · have mine : j = i := by
        unfold slotUse at same
        split at same
        · exact (Use.data.inj same).1
        · cases same
      subst mine
      rw [same, new, image_advance, clear, blockByte_zero]
      exact (List.getD_eq_default _ _ (Nat.le_add_right_of_le (past bn same.symm))).symm
    · rw [Layout.place_give_of_ne same]
      exact laid.bytes j bn ((Layout.mem_give.mp member).resolve_right same) m lt
  · intro b above
    rw [Layout.length_give] at above
    exact laid.clear b (by omega)

theorem Laid.give_entry (laid : Laid bound l written s) (table : .table i ∈ l.uses) (j : Fin 128)
    (few : l.uses.length ≤ nblocks)
    (fresh : .data i (ndirect + j.val) ∉ l.uses) (below : (Use.data i (ndirect + j.val)).Below bound)
    (past : (l.content i).length ≤ (ndirect + j.val) * bsize) :
    Laid bound (l.give (.data i (ndirect + j.val))) written (s.advance.write (l.place (.table i))
        (update (s.image (l.place (.table i))) j (BitVec.ofNat 32 s.freeblock))) := by
  have new := l.place_give_self fresh
  have clear := laid.clear (firstData + l.uses.length) le_rfl
  have bounds := l.place_bounds table
  have low : l.place (.table i) < 1024 := by
    change l.uses.length ≤ 985 at few
    change _ ∧ _ < 29 + _ at bounds
    omega
  have away : ∀ b, b ≠ l.place (.table i) → (s.advance.write (l.place (.table i))
      (update (s.image (l.place (.table i))) j (BitVec.ofNat 32 s.freeblock))).image b = s.image b :=
    fun b ne => image_write_of_ne ne
  refine ⟨?_, ?_, ?_, laid.freeinode, laid.nodup_give fresh, laid.below_give below, ?_, ?_, ?_, ?_, ?_, ?_⟩
  · show max s.sectors (l.place (.table i) + 1) = 1024
    rw [laid.sectors]
    exact Nat.max_eq_left low
  · rw [Layout.length_give]
    exact congrArg (· + 1) laid.freeblock
  · rw [Layout.length_give]
    exact congrArg (· + 1) laid.usedblocks
  · intro i' wrote
    obtain ⟨small, here⟩ := laid.inodes i' wrote
    refine ⟨small, ?_⟩
    rw [away]
    · refine here.trans ?_
      exact Layout.inMemory_congr fun k => (Layout.addr_give_of_ne (slotUse_ne_indirect k)).symm
    · have early := i2b_lt small
      omega
  · intro i' small unmade
    have early : i2b i' < firstData := i2b_lt (lt_trans small (by decide))
    rw [away _ (by omega)]
    exact laid.blank i' small unmade
  · intro i' member m
    have there : .table i' ∈ l.uses := (Layout.mem_give.mp member).resolve_right (by simp)
    rw [Layout.place_give_of_ne (by simp)]
    by_cases same : i' = i
    · subst same
      rw [image_write_self]
      by_cases entry : m = j
      · subst entry
        rw [update_self, Layout.addr, new, laid.freeblock]
      · rw [update_of_ne entry, Layout.addr_give_of_ne]
        · exact laid.tables i' table m
        · intro equal
          exact entry (Fin.ext (by have := (Use.data.inj equal).2; omega))
    · rw [away _ (l.place_inj there (by simpa using same)), Layout.addr_give_of_ne (by simp [same])]
      exact laid.tables i' there m
  · intro i' bn member m lt
    by_cases same : Use.data i' bn = .data i (ndirect + j.val)
    · obtain ⟨rfl, rfl⟩ := Use.data.inj same
      rw [new, away _ (by omega), clear, blockByte_zero]
      exact (List.getD_eq_default _ _ (Nat.le_add_right_of_le past)).symm
    · have there := (Layout.mem_give.mp member).resolve_right same
      rw [Layout.place_give_of_ne same, away _ (l.place_inj there (by simp))]
      exact laid.bytes i' bn there m lt
  · intro b above
    rw [Layout.length_give] at above
    rw [away b (by omega)]
    exact laid.clear b (by omega)
  · rw [away 1 (by change 29 ≤ _ ∧ _ at bounds; omega)]
    exact laid.super

/-! ## Appending -/

theorem Layout.addrs_inMemory (k : Fin (ndirect + 1)) : (l.inMemory i n).addrs k = l.addr (slotUse i k) := rfl

theorem fillAddr_laid (fits : total bound ≤ nblocks) (laid : Laid bound l written s) (out : ¬written i)
    (k : Fin (ndirect + 1)) (n : Word) (below : (slotUse i k).Below bound)
    (unlisted : slotUse i k ∉ l.uses → slotUse i k = .table i → ∀ j, .data i (ndirect + j) ∉ l.uses)
    (past : slotUse i k ∉ l.uses → ∀ bn, slotUse i k = .data i bn → (l.content i).length ≤ bn * bsize) :
    wp (fillAddr (l.inMemory i n) k) (fun din t => ∃ l' : Layout,
      Laid bound l' written t ∧ l'.content = l.content ∧ l'.next = l.next ∧ din = l'.inMemory i n ∧
      ∀ v, v ∈ l'.uses ↔ v ∈ l.uses ∨ v = slotUse i k) (fun _ _ => False) s := by
  unfold fillAddr
  rw [Layout.addrs_inMemory]
  have empty := l.addr_eq_zero (u := slotUse i k) (laid.length_le fits)
  refine wp_ite (fun zero => ?_) fun held => ?_
  · have fresh := empty.mp zero
    rw [wp_bind, wp_nextBlock, wp_pure]
    refine ⟨l.give (slotUse i k), laid.give_slot out k fresh below (unlisted fresh) (past fresh), rfl, rfl, ?_,
      fun v => Layout.mem_give⟩
    refine Layout.inMemory_congr fun k' => ?_
    by_cases same : k' = k
    · subst same
      rw [update_self, Layout.addr, Layout.place_give_self fresh, laid.freeblock]
    · rw [update_of_ne same, Layout.addr_give_of_ne fun equal => same (slotUse_inj equal)]
      rfl
  · rw [wp_pure]
    have there := not_not.mp fun fresh => held (empty.mpr fresh)
    refine ⟨l, laid, rfl, rfl, rfl, ?_⟩
    intro v
    constructor
    · exact .inl
    · rintro (before | rfl)
      · exact before
      · exact there

theorem findBlock_laid (fits : total bound ≤ nblocks) (laid : Laid bound l written s) (live : l.Live)
    (out : ¬written i) (n : Word) (inside : i < inodeLimit) (more : (l.content i).length < bound i)
    (range : (l.content i).length / bsize < maxfile) :
    wp (findBlock (l.inMemory i n) ((l.content i).length / bsize)) (fun found t => ∃ l' : Layout,
      Laid bound l' written t ∧ l'.content = l.content ∧ l'.next = l.next ∧ found.1 = l'.inMemory i n ∧
      found.2 = l'.addr (.data i ((l.content i).length / bsize)) ∧
      ∀ v, v ∈ l'.uses ↔ v ∈ l.uses ∨ v = .data i ((l.content i).length / bsize) ∨
        (v = .table i ∧ ndirect ≤ (l.content i).length / bsize)) (fun _ _ => False) s := by
  generalize number : (l.content i).length / bsize = fbn at range ⊢
  have off : fbn * 512 ≤ (l.content i).length ∧ (l.content i).length < (fbn + 1) * 512 := by
    change (l.content i).length / 512 = fbn at number
    omega
  have data : (Use.data i fbn).Below bound := ⟨inside, by show fbn * 512 < _; omega⟩
  have past : Use.data i fbn ∉ l.uses → (l.content i).length ≤ fbn * bsize := by
    intro fresh
    rw [live.data] at fresh
    exact not_lt.mp fresh
  unfold findBlock
  refine wp_ite (fun direct => ?_) fun indirect => ?_
  · have slot := slotUse_direct (i := i) direct
    rw [wp_bind]
    refine wp_mono (fillAddr_laid fits laid out (Fin.ofNat (ndirect + 1) fbn) n (slot ▸ data) ?_ ?_) ?_ fun _ _ h => h
    · intro _ other
      rw [slot] at other
      cases other
    · intro fresh bn same
      rw [slot] at fresh same
      cases same
      exact past fresh
    · rintro din t ⟨l', laid', content, next, rfl, uses⟩
      refine ⟨l', laid', content, next, rfl, ?_, ?_⟩
      · rw [← slot]
        rfl
      · intro v
        rw [uses, slot]
        constructor
        · rintro (before | new)
          · exact .inl before
          · exact .inr (.inl new)
        · rintro (before | new | ⟨-, past⟩)
          · exact .inl before
          · exact .inr new
          · exact absurd direct (Nat.not_lt.mpr past)
  · have slot : slotUse i (Fin.ofNat (ndirect + 1) ndirect) = .table i := rfl
    have high : ndirect ≤ fbn := not_lt.mp indirect
    have table : (Use.table i).Below bound := ⟨inside, by
      change 12 ≤ fbn at high
      show 12 * 512 < _
      omega⟩
    rw [wp_bind]
    refine wp_mono (fillAddr_laid fits laid out (Fin.ofNat (ndirect + 1) ndirect) n table ?_ ?_) ?_ fun _ _ h => h
    · intro fresh _ j member
      rw [slot, live.table] at fresh
      rw [live.data] at member
      change ¬12 * 512 < _ at fresh
      change (12 + j) * 512 < _ at member
      omega
    · intro _ bn same
      rw [slot] at same
      cases same
    · rintro din t ⟨l', laid', content, next, rfl, uses⟩
      have few := laid'.length_le fits
      have there : .table i ∈ l'.uses := (uses _).mpr (.inr slot.symm)
      have bounds := l'.place_bounds there
      have block := entry_index high range
      have entry := laid'.tables i there (Fin.ofNat 128 (fbn - ndirect))
      rw [block] at entry
      have same : Use.data i fbn ∈ l'.uses ↔ Use.data i fbn ∈ l.uses := by
        rw [uses, slot]
        simp
      rw [Layout.addrs_inMemory, slot, Layout.toNat_addr few, wp_bind, wp_rsect (by
        rw [laid'.sectors]
        change l'.uses.length ≤ 985 at few
        show l'.place (.table i) < 1024
        change _ ∧ _ < 29 + _ at bounds
        omega), entry]
      have empty := l'.addr_eq_zero (u := .data i fbn) few
      refine wp_ite (fun zero => ?_) fun held => ?_
      · have fresh := empty.mp zero
        have given := laid'.give_entry there (Fin.ofNat 128 (fbn - ndirect)) few (block.symm ▸ fresh)
          (block.symm ▸ data) (by rw [block, content]; exact past fun before => fresh (same.mpr before))
        rw [block] at given
        rw [wp_bind, wp_nextBlock, wp_bind, wp_wsect, wp_pure]
        refine ⟨_, given, content, next, ?_, ?_, ?_⟩
        · refine Layout.inMemory_congr fun k => (Layout.addr_give_of_ne ?_).symm
          rw [← block]
          exact slotUse_ne_indirect k
        · rw [Layout.addr, Layout.place_give_self fresh, ← laid'.freeblock]
        · intro v
          rw [Layout.mem_give, uses, slot, or_assoc, or_comm (a := v = .table i), and_iff_left high]
      · rw [wp_pure]
        refine ⟨l', laid', content, next, rfl, rfl, ?_⟩
        intro v
        rw [uses, slot, and_iff_left high]
        constructor
        · rintro (before | new)
          · exact .inl before
          · exact .inr (.inr new)
        · rintro (before | rfl | new)
          · exact .inl before
          · exact .inl (same.mp (not_not.mp fun fresh => held (empty.mpr fresh)))
          · exact .inr new

def Layout.store (l : Layout) (i : Nat) (content : List Byte) : Layout :=
  { l with content := update l.content i content }

theorem Layout.content_store_self : (l.store i content).content i = content :=
  update_self ..

theorem Layout.content_store_of_ne (ne : j ≠ i) :
    (l.store i content).content j = l.content j := update_of_ne ne ..

section

variable (laid : Laid bound l written s) (few : l.uses.length ≤ nblocks) (out : ¬written i)
include laid few out

theorem Laid.write_data {bn : Nat} (member : .data i bn ∈ l.uses) {block : Block}
    (here : ∀ k, k < bsize → blockByte block k = content.getD (bn * bsize + k) 0)
    (others : ∀ bm, bm ≠ bn → ∀ k, k < bsize →
      content.getD (bm * bsize + k) 0 = (l.content i).getD (bm * bsize + k) 0) :
    Laid bound (l.store i content) written (s.write (l.place (.data i bn)) block) := by
  have bounds : 29 ≤ l.place (.data i bn) ∧ l.place (.data i bn) < 29 + l.uses.length := l.place_bounds member
  have away : ∀ b, b ≠ l.place (.data i bn) → (s.write (l.place (.data i bn)) block).image b = s.image b :=
    fun b ne => image_write_of_ne ne
  refine ⟨?_, laid.freeblock, laid.usedblocks, laid.freeinode, laid.nodup, laid.below, ?_, ?_, ?_, ?_, ?_, ?_⟩
  · show max s.sectors (l.place (.data i bn) + 1) = 1024
    rw [laid.sectors]
    change l.uses.length ≤ 985 at few
    exact Nat.max_eq_left (show l.place (.data i bn) + 1 ≤ 1024 by omega)
  · intro j wrote
    obtain ⟨small, there⟩ := laid.inodes j wrote
    have low : i2b j < 29 := i2b_lt small
    have other : j ≠ i := fun same => out (same ▸ wrote)
    refine ⟨small, ?_⟩
    rw [away _ (by omega), there, Layout.dinode, Layout.dinode, Layout.content_store_of_ne other]
    rfl
  · intro j small unmade
    have early : i2b j < 29 := i2b_lt (lt_trans small (by decide))
    rw [away _ (by omega)]
    exact laid.blank j small unmade
  · intro j table m
    have old := laid.tables j table m
    rw [← away _ (l.place_inj table (by simp))] at old
    exact old
  · intro j bm there k lt
    by_cases same : Use.data j bm = .data i bn
    · obtain ⟨rfl, rfl⟩ := Use.data.inj same
      rw [Layout.content_store_self]
      exact (congrArg (blockByte · k) image_write_self).trans (here k lt)
    · have old := laid.bytes j bm there k lt
      rw [← away _ (l.place_inj there same)] at old
      refine old.trans ?_
      by_cases mine : j = i
      · subst mine
        rw [Layout.content_store_self]
        exact (others bm (fun equal => same (equal ▸ rfl)) k lt).symm
      · rw [Layout.content_store_of_ne mine]
  · intro b above
    change 29 + l.uses.length ≤ b at above
    rw [away b (by omega)]
    exact laid.clear b above
  · rw [away 1 (by omega)]
    exact laid.super

theorem Laid.append_piece (piece : List Byte) (member : .data i ((l.content i).length / bsize) ∈ l.uses)
    (within : (l.content i).length % bsize + piece.length ≤ bsize) :
    Laid bound (l.store i (l.content i ++ piece)) written (s.write (l.place (.data i ((l.content i).length / bsize)))
        (setBytes (s.image (l.place (.data i ((l.content i).length / bsize))))
    ((l.content i).length % bsize) piece)) := by
  have old := laid.bytes i _ member
  generalize file : l.content i = content at member within old ⊢
  change content.length % 512 + piece.length ≤ 512 at within
  refine laid.write_data few out member ?_ ?_
  · intro k lt
    rw [blockByte_setBytes lt, old k lt]
    by_cases inside : content.length % bsize ≤ k ∧ k < content.length % bsize + piece.length
    · change content.length % 512 ≤ k ∧ _ at inside
      rw [if_pos inside, List.getD_append_right _ _ _ _ (show content.length ≤ content.length / 512 * 512 + k by omega)]
      congr 1
      show k - content.length % 512 = content.length / 512 * 512 + k - content.length
      omega
    · rw [if_neg inside]
      change ¬(content.length % 512 ≤ k ∧ k < content.length % 512 + piece.length) at inside
      rcases lt_or_ge k (content.length % 512) with before | after
      · exact (List.getD_append _ _ _ _ (show content.length / 512 * 512 + k < content.length by omega)).symm
      · rw [List.getD_eq_default _ _ (show content.length ≤ content.length / 512 * 512 + k by omega),
          List.getD_eq_default]
        rw [List.length_append]
        show content.length + piece.length ≤ content.length / 512 * 512 + k
        omega
  · intro bm other k lt
    change bm ≠ content.length / 512 at other
    rw [file]
    rcases lt_or_ge (bm * 512 + k) content.length with before | after
    · exact List.getD_append _ _ _ _ before
    · rw [List.getD_eq_default _ _ (show content.length ≤ bm * 512 + k from after), List.getD_eq_default]
      rw [List.length_append]
      change k < 512 at lt
      show content.length + piece.length ≤ bm * 512 + k
      omega

end

theorem Layout.Live.extend (live : l.Live) (content : l'.content = l.content) (piece : List Byte)
    (uses : ∀ v, v ∈ l'.uses ↔ v ∈ l.uses ∨ v = .data i ((l.content i).length / bsize) ∨
      (v = .table i ∧ ndirect ≤ (l.content i).length / bsize))
    (positive : 0 < piece.length) (within : (l.content i).length % 512 + piece.length ≤ 512) :
    (l'.store i (l.content i ++ piece)).Live := by
  have file : (l'.store i (l.content i ++ piece)).content i = l.content i ++ piece := Layout.content_store_self
  constructor
  · intro j bn
    refine (uses (.data j bn)).trans ?_
    rw [live.data]
    by_cases mine : j = i
    · subst mine
      rw [file, List.length_append]
      show bn * 512 < _ ∨ _ ∨ _ ↔ bn * 512 < _
      simp only [Use.data.injEq, true_and, reduceCtorEq, false_and, or_false]
      change bn * 512 < _ ∨ bn = _ / 512 ↔ _
      omega
    · rw [Layout.content_store_of_ne mine, content]
      simp [mine]
  · intro j
    refine (uses (.table j)).trans ?_
    rw [live.table]
    by_cases mine : j = i
    · subst mine
      rw [file, List.length_append]
      simp only [reduceCtorEq, true_and, false_or]
      show 12 * 512 < _ ∨ 12 ≤ _ / 512 ↔ 12 * 512 < _
      omega
    · rw [Layout.content_store_of_ne mine, content]
      simp [mine]

theorem iappendLoop_laid (fits : total bound ≤ nblocks) (small : bound i ≤ maxfile * bsize) (inside : i < inodeLimit)
    (out : ¬written i) (n : Word) {fuel : Nat} {src : List Byte} (laid : Laid bound l written s) (live : l.Live)
    (enough : src.length ≤ fuel) (room : (l.content i).length + src.length ≤ bound i) :
    wp (iappendLoop fuel (l.inMemory i n) (l.content i).length src) (fun appended t => ∃ l' : Layout,
      Laid bound l' written t ∧ l'.Live ∧ l'.content = update l.content i (l.content i ++ src) ∧
      l'.next = l.next ∧ appended = (l'.inMemory i n, (l.content i ++ src).length)) (fun _ _ => False) s := by
  induction fuel generalizing l s src with
  | zero =>
    have none : src = [] := List.length_eq_zero_iff.mp (Nat.le_zero.mp enough)
    subst none
    exact ⟨l, laid, live, by simp, rfl, by rw [List.append_nil]⟩
  | succ fuel ih =>
    unfold iappendLoop
    refine wp_ite (fun none => ?_) fun some => ?_
    · subst none
      exact ⟨l, laid, live, by simp, rfl, by rw [List.append_nil]⟩
    have positive : 0 < src.length := List.length_pos_iff.mpr some
    have range : (l.content i).length / bsize < maxfile := by
      change bound i ≤ (12 + 128) * 512 at small
      show (l.content i).length / 512 < 12 + 128
      omega
    rw [if_pos range, wp_bind]
    refine wp_mono (findBlock_laid fits laid live out n inside (by omega) range) ?_ fun _ _ h => h
    rintro ⟨din, x⟩ t ⟨l', laid', content, next, rfl, rfl, uses⟩
    have few := laid'.length_le fits
    have there : .data i ((l.content i).length / bsize) ∈ l'.uses := (uses _).mpr (.inr (.inl rfl))
    have bounds : 29 ≤ l'.place (.data i ((l.content i).length / bsize)) ∧
      l'.place (.data i ((l.content i).length / bsize)) < 29 + l'.uses.length := l'.place_bounds there
    have same : l'.content i = l.content i := by rw [content]
    generalize count : min src.length (((l.content i).length / bsize + 1) * bsize - (l.content i).length) = n1
    have start : (l.content i).length - (l.content i).length / bsize * bsize = (l.content i).length % bsize := by
      have := Nat.div_add_mod' (l.content i).length bsize
      omega
    have size : (src.take n1).length = n1 := by
      rw [List.length_take]
      omega
    have piece : 0 < n1 ∧ (l.content i).length % 512 + n1 ≤ 512 := by
      change min src.length (((l.content i).length / 512 + 1) * 512 - (l.content i).length) = n1 at count
      omega
    rw [Layout.toNat_addr few, wp_bind, wp_rsect (by
      rw [laid'.sectors]
      change l'.uses.length ≤ 985 at few
      show _ < 1024
      omega), wp_bind, wp_wsect, start]
    have stored := laid'.append_piece few out (src.take n1) (by rw [same]; exact there)
      (by rw [same, size]; exact piece.2)
    rw [same] at stored
    have extended := live.extend content (src.take n1) uses (by rw [size]; exact piece.1)
      (by rw [size]; exact piece.2)
    have file : (l'.store i (l.content i ++ src.take n1)).content i = l.content i ++ src.take n1 :=
      Layout.content_store_self
    have left : (src.drop n1).length = src.length - n1 := List.length_drop
    have rest := ih stored extended (show (src.drop n1).length ≤ fuel by omega)
      (by rw [file, List.length_append, size]; omega)
    rw [file, List.length_append, size] at rest
    refine wp_mono rest ?_ fun _ _ h => h
    rintro appended t' ⟨l'', laid'', live'', content'', next'', rfl⟩
    have whole : (l.content i ++ src.take n1) ++ src.drop n1 = l.content i ++ src := by
      rw [List.append_assoc, List.take_append_drop]
    rw [whole] at content''
    refine ⟨l'', laid'', live'', ?_, next''.trans next, by rw [whole]⟩
    rw [content'', Layout.store, content, update_idem]

end Laid

end Certikos.Mkfs
