import Certikos.FileSys.Blocks
import Certikos.FileSys.Mount
import Certikos.FileSys.Reading
import Mathlib.Data.Finset.Card
import Mathlib.Data.Finset.Range

/-!
# The free blocks

The bitmap has a bit for every block. A process that is alone gets the lowest free block from `block_alloc`, zeroed; if
there is none, it gets whatever is in `%eax`.
-/

namespace Certikos.FileSys
open Lib
open BitVec (ofNat toNat_ofNat)
open Fs (nbuf Block rootdev logsize)

variable {p : Nat} {H : List (Fin nbuf × Word)} {a a' : View} {sb : Superblock} {watch : Note → Bool}
  {E : Cut Stop Note → Prop} {W : Set Word} {b : Fin nbuf} {q q' : Word} {d : Block} {α : Type}

/-! ## The layout of the disk -/

namespace Superblock

def mapStart (sb : Superblock) : Nat := sb.ninodes.toNat / ipb + 3

def dataStart (sb : Superblock) : Nat := sb.mapStart + (sb.size.toNat / bpb + 1)

theorem mapStart_eq (sb : Superblock) : sb.mapStart = sb.ninodes.toNat / 8 + 3 := rfl

theorem dataStart_eq (sb : Superblock) : sb.dataStart = sb.mapStart + (sb.size.toNat / 4096 + 1) := rfl

def logStart (sb : Superblock) : Nat := sb.size.toNat - sb.nlog.toNat

def IsData (sb : Superblock) (q : Word) : Prop := sb.dataStart ≤ q.toNat ∧ q.toNat < sb.logStart
deriving Decidable

structure Proper (sb : Superblock) : Prop where
  nlog : sb.nlog.toNat = logsize
  order : sb.dataStart ≤ sb.logStart
  small : sb.size.toNat ≤ 2 ^ 28

theorem Proper.size_eq (proper : sb.Proper) : sb.size.toNat = sb.logStart + 10 := by
  have nlog : sb.nlog.toNat = 10 := proper.nlog
  have order := proper.order
  rw [dataStart_eq] at order
  unfold logStart at *
  omega

theorem Proper.toNat_bblock (proper : sb.Proper) (lt : q.toNat < sb.size.toNat) :
    (bblock q sb.ninodes).toNat = sb.mapStart + q.toNat / 4096 := by
  have order := proper.order
  rw [dataStart_eq, mapStart_eq] at order
  rw [mapStart_eq]
  show ((q.toNat / 4096 + sb.ninodes.toNat / 8) % 2 ^ 32 + 3) % 2 ^ 32 = sb.ninodes.toNat / 8 + 3 + q.toNat / 4096
  omega

theorem Proper.bblock_bounds (proper : sb.Proper) (lt : q.toNat < sb.size.toNat) :
    sb.mapStart ≤ (bblock q sb.ninodes).toNat ∧ (bblock q sb.ninodes).toNat < sb.dataStart := by
  have place := proper.toNat_bblock lt
  rw [dataStart_eq]
  omega

theorem IsData.lt_size (data : sb.IsData q) : q.toNat < sb.size.toNat := by
  have below := data.2
  unfold logStart at below
  omega

end Superblock

namespace View

structure Formatted (a : View) (sb : Superblock) : Prop where
  proper : sb.Proper
  super : superblockOf (a.block 1) = sb
  start : a.start.toNat = sb.logStart
  size : a.size = sb.nlog

theorem Formatted.home (format : a.Formatted sb) (lt : q.toNat < sb.logStart) : a.Home q := by
  have small := format.proper.small
  have size := format.proper.size_eq
  refine ⟨by omega, ?_⟩
  rintro ⟨above, -⟩
  rw [format.start] at above
  omega

theorem Formatted.home_bblock (format : a.Formatted sb) (lt : q.toNat < sb.size.toNat) : a.Home (bblock q sb.ninodes) :=
  format.home (lt_of_lt_of_le (format.proper.bblock_bounds lt).2 format.proper.order)

theorem Formatted.home_one (format : a.Formatted sb) : a.Home 1 := by
  apply format.home
  have order := format.proper.order
  rw [Superblock.dataStart_eq, Superblock.mapStart_eq] at order
  show 1 < _
  omega

def marked (a : View) (sb : Superblock) (q : Word) : Bool := bitAt (a.block (bblock q sb.ninodes)) (q.toNat % bpb)

structure Lowest (a : View) (sb : Superblock) (q : Word) : Prop where
  inside : q.toNat < sb.size.toNat
  free : a.marked sb q = false
  below : ∀ q' : Word, q'.toNat < q.toNat → a.marked sb q' = true

def Full (a : View) (sb : Superblock) : Prop := ∀ q : Word, q.toNat < sb.size.toNat → a.marked sb q = true

theorem exists_lowest (inside : q.toNat < sb.size.toNat) (free : a.marked sb q = false) :
    ∃ q', a.Lowest sb q' ∧ q'.toNat ≤ q.toNat := by
  classical
  have some' : ∃ n, ∃ q' : Word, q'.toNat = n ∧ a.marked sb q' = false := ⟨_, q, rfl, free⟩
  obtain ⟨q', place, free'⟩ := Nat.find_spec some'
  have least : Nat.find some' ≤ q.toNat := Nat.find_min' some' ⟨q, rfl, free⟩
  refine ⟨q', ⟨by omega, free', fun q'' lt => ?_⟩, by omega⟩
  rw [place] at lt
  have taken := Nat.find_min some' lt
  cases value : a.marked sb q'' with
  | true => rfl
  | false => exact absurd ⟨q'', rfl, value⟩ taken

theorem exists_lowest_data (metadata : ∀ q : Word, q.toNat < sb.dataStart → a.marked sb q = true) (data : sb.IsData q)
    (free : a.marked sb q = false) : ∃ q', a.Lowest sb q' ∧ sb.IsData q' := by
  obtain ⟨q', lowest, le⟩ := exists_lowest data.lt_size free
  refine ⟨q', lowest, not_lt.mp fun low => ?_, lt_of_le_of_lt le data.2⟩
  have taken := metadata q' low
  rw [lowest.free] at taken
  exact Bool.false_ne_true taken

theorem logged_write (a : View) (q : Word) (d : Block) : a.logged <+: (a.write q d).logged := by
  by_cases member : q ∈ a.logged
  · rw [show (a.write q d).logged = a.logged from if_pos member]
  · rw [show (a.write q d).logged = a.logged ++ [q] from if_neg member]
    exact List.prefix_append ..

theorem Formatted.write (format : a.Formatted sb) (ne : q ≠ 1) : (a.write q d).Formatted sb :=
  ⟨format.proper, (congrArg superblockOf (block_write_of_ne ne.symm)).trans format.super, format.start, format.size⟩

theorem marked_write (a : View) (ne : bblock q' sb.ninodes ≠ q) : (a.write q d).marked sb q' = a.marked sb q' := by
  rw [marked, block_write_of_ne ne, marked]

def setMark (a : View) (sb : Superblock) (q : Word) (v : Bool) : View :=
  a.write (bblock q sb.ninodes) (setBit (a.block (bblock q sb.ninodes)) (q.toNat % bpb) v)

theorem marked_setMark (a : View) (proper : sb.Proper) {v : Bool} (inside : q.toNat < sb.size.toNat)
    (inside' : q'.toNat < sb.size.toNat) :
    (a.setMark sb q v).marked sb q' = if q' = q then v else a.marked sb q' := by
  have place := proper.toNat_bblock inside
  have place' := proper.toNat_bblock inside'
  have small : q.toNat % bpb < bpb := Nat.mod_lt _ (by decide)
  have small' : q'.toNat % bpb < bpb := Nat.mod_lt _ (by decide)
  by_cases sector : bblock q' sb.ninodes = bblock q sb.ninodes
  · have same : q'.toNat % bpb = q.toNat % bpb ↔ q' = q := by
      rw [sector, place] at place'
      rw [← BitVec.toNat_inj]
      show q'.toNat % 4096 = q.toNat % 4096 ↔ _
      omega
    rw [marked, setMark, sector, block_write_self, bitAt_setBit small small', marked, sector]
    simp only [same]
  · rw [setMark, marked_write a sector, if_neg]
    rintro rfl
    exact sector rfl

def take (a : View) (sb : Superblock) (q : Word) : View := (a.setMark sb q true).write q fun _ => 0

theorem logged_take (a : View) (sb : Superblock) (q : Word) : a.logged <+: (a.take sb q).logged :=
  (a.logged_write _ _).trans (logged_write _ _ _)

section Take

variable (proper : sb.Proper) (inside : q.toNat < sb.size.toNat) (above : sb.dataStart ≤ q.toNat)

include proper inside

theorem Formatted.setMark {v : Bool} (format : a.Formatted sb) : (a.setMark sb q v).Formatted sb := by
  have low := (proper.bblock_bounds inside).1
  rw [Superblock.mapStart_eq] at low
  apply format.write
  rintro one
  rw [one] at low
  change _ ≤ 1 at low
  omega

include above

theorem Formatted.take (format : a.Formatted sb) : (a.take sb q).Formatted sb := by
  apply (format.setMark proper inside).write
  rintro rfl
  rw [Superblock.dataStart_eq, Superblock.mapStart_eq] at above
  change _ ≤ 1 at above
  omega

theorem marked_take (inside' : q'.toNat < sb.size.toNat) :
    (a.take sb q).marked sb q' = if q' = q then true else a.marked sb q' := by
  rw [take, marked_write, marked_setMark a proper inside inside']
  rintro rfl
  exact absurd (proper.bblock_bounds inside').2 (not_lt_of_ge above)

def freeBlocks (a : View) (sb : Superblock) : Finset Nat :=
  (Finset.range sb.logStart).filter fun n => sb.dataStart ≤ n ∧ a.marked sb (ofNat 32 n) = false

omit proper inside above in
theorem mem_freeBlocks : q.toNat ∈ a.freeBlocks sb ↔ sb.IsData q ∧ a.marked sb q = false := by
  rw [freeBlocks, Finset.mem_filter, Finset.mem_range, BitVec.ofNat_toNat, BitVec.setWidth_eq, Superblock.IsData]
  tauto

theorem freeBlocks_take : (a.take sb q).freeBlocks sb = (a.freeBlocks sb).erase q.toNat := by
  have size := proper.size_eq
  ext n
  simp only [freeBlocks, Finset.mem_erase, Finset.mem_filter, Finset.mem_range]
  by_cases lt : n < sb.logStart
  · have toNat : (ofNat 32 n).toNat = n := by
      rw [toNat_ofNat, Nat.mod_eq_of_lt (by omega)]
    have same : ofNat 32 n = q ↔ n = q.toNat := by
      rw [← BitVec.toNat_inj, toNat]
    rw [marked_take proper inside above (by omega)]
    by_cases here : n = q.toNat
    · simp [here]
    · simp [here, same]
  · simp [lt]

omit above

omit proper inside in
theorem block_take_self : (a.take sb q).block q = fun _ => 0 := block_write_self

theorem block_take_of_ne (outside : q'.toNat < sb.mapStart ∨ sb.dataStart ≤ q'.toNat) (ne : q' ≠ q) :
    (a.take sb q).block q' = a.block q' := by
  have bounds := proper.bblock_bounds inside
  rw [take, block_write_of_ne ne, setMark, block_write_of_ne]
  rintro rfl
  omega

end Take

end View

/-! ## The bitmap in the state -/

def State.sector (s : State) (q : Word) : Block :=
  match s.cached rootdev q with
  | some b => (s.buf b).data
  | none => s.disk ⟨rootdev, q⟩

variable {s : State}

theorem Sees.sector_eq (sees : Sees p H a s) (home : a.Home q) : s.sector q = a.block q := by
  obtain ⟨-, c, r, lone, is⟩ := sees
  rw [← is.block q home]
  unfold State.sector
  cases found : s.cached rootdev q with
  | some b =>
    have holds : (s.buf b).Holds rootdev q := by simpa using List.find?_some found
    have data := lone.data b holds.1
    rw [holds.2] at data
    exact data
  | none =>
    refine lone.disk q home.1 fun b holds => ?_
    have other := List.find?_eq_none.mp found b (lone.ring b)
    exact absurd holds (by simpa using other)

def State.super (s : State) : Superblock := superblockOf (s.sector 1)

def State.marked (s : State) (q : Word) : Bool := bitAt (s.sector (bblock q s.super.ninodes)) (q.toNat % bpb)

theorem Sees.super_eq (sees : Sees p H a s) (format : a.Formatted sb) : s.super = sb := by
  rw [State.super, sees.sector_eq format.home_one, format.super]

theorem Sees.marked_eq (sees : Sees p H a s) (format : a.Formatted sb) (inside : q.toNat < sb.size.toNat) :
    s.marked q = a.marked sb q := by
  rw [State.marked, sees.super_eq format, sees.sector_eq (format.home_bblock inside), View.marked]

/-! ## What the log and the cache allow -/

/-- In a transaction there is room for more in the log and in the cache, or the process may end for want of it; and nobody
minds if the sectors of `W` are logged. -/
structure Allows (watch : Note → Bool) (E : Cut Stop Note → Prop) (W : Set Word) (a : View) : Prop where
  inside : a.trans = true ∨ E outsideTrans
  room : a.logged.length + 2 < nbuf ∨ E noBuffers
  fits : a.logged.length < logsize ∧ (a.logged.length : Int) < a.size.toInt - 1 ∨ ∀ size n, E (tooBig size n)
  logged : ∀ q ∈ W, watch (.logWrite q) = true → E (.notes (.logWrite q))
  hole : ∀ ip bn, watch (.hole ip bn) = true → E (.notes (.hole ip bn))
  found : ∀ q ∈ W, watch (.blockAlloc (some q)) = true → E (.notes (.blockAlloc (some q)))

theorem Allows.before (allows : Allows watch E W a') (le : a.logged <+: a'.logged) (trans : a.trans = a'.trans)
    (size : a.size = a'.size) : Allows watch E W a where
  inside := by
    rw [trans]
    exact allows.inside
  room := allows.room.imp_left fun small => lt_of_le_of_lt (Nat.add_le_add_right le.length_le 2) small
  fits := by
    have length := le.length_le
    rw [size]
    exact allows.fits.imp_left fun small => by omega
  logged := allows.logged
  hole := allows.hole
  found := allows.found

theorem Allows.read (allows : Allows watch E W a) (short : H.length ≤ 2) :
    H.length + a.logged.length < nbuf ∨ E noBuffers := allows.room.imp_left fun small => by omega

theorem Allows.anything (watch : Note → Bool) (W : Set Word) (a : View) : Allows watch (fun _ => True) W a :=
  ⟨.inr trivial, .inr trivial, .inr fun _ _ => trivial, fun _ _ _ => trivial, fun _ _ _ => trivial, fun _ _ _ => trivial⟩

theorem logEdited_sees (terms : Terms watch E p) (short : H.length ≤ 1) (allows : Allows watch E W a) (mine : q ∈ W) :
    (logWrite b).Acts watch E p (Edited p ((b, q) :: H) a b q d) fun _ =>
      Sees p ((b, q) :: H) (a.write q d) :=
  logWrite_sees terms (.head _) allows.inside (allows.logged q mine)
    (allows.read (Nat.succ_le_succ short)) allows.fits

/-! ## `block_alloc` -/

theorem View.marked_add (a : View) (sb : Superblock) {b bi : Nat} (aligned : b % bpb = 0) (lt : bi < bpb) :
    a.marked sb (ofNat 32 (b + bi)) = bitAt (a.block (bblock (ofNat 32 b) sb.ninodes)) bi := by
  change b % 4096 = 0 at aligned
  change bi < 4096 at lt
  have sector : ofNat 32 (b + bi) / ofNat 32 bpb = ofNat 32 b / ofNat 32 bpb := by
    apply BitVec.eq_of_toNat_eq
    show (b + bi) % 2 ^ 32 / 4096 = b % 2 ^ 32 / 4096
    omega
  have bit : (ofNat 32 (b + bi)).toNat % bpb = bi := by
    rw [toNat_ofNat]
    show (b + bi) % 2 ^ 32 % 4096 = bi
    omega
  rw [marked, bblock, sector, bit]
  rfl

theorem View.Lowest.freeBit_eq (lowest : a.Lowest sb q) {b : Nat} (aligned : b % bpb = 0) (le : b ≤ q.toNat) :
    freeBit (a.block (bblock (ofNat 32 b) sb.ninodes)) b sb.size =
      if q.toNat < b + bpb then some (q.toNat - b) else none := by
  have inside := lowest.inside
  have taken : ∀ bi, bi < bpb → b + bi < q.toNat →
      bitAt (a.block (bblock (ofNat 32 b) sb.ninodes)) bi = true := by
    intro bi lt below
    rw [← a.marked_add sb aligned lt]
    apply lowest.below
    rw [toNat_ofNat, Nat.mod_eq_of_lt (by omega)]
    exact below
  unfold freeBit
  split
  next here =>
    have place : b + (q.toNat - b) = q.toNat := by omega
    have here' : q.toNat - b < bpb := by omega
    have clear : bitAt (a.block (bblock (ofNat 32 b) sb.ninodes)) (q.toNat - b) = false := by
      rw [← a.marked_add sb aligned here', place, BitVec.ofNat_toNat, BitVec.setWidth_eq]
      exact lowest.free
    rw [List.find?_range_eq_some]
    refine ⟨by simp [place, inside, clear], List.mem_range.mpr here', fun bi lt => ?_⟩
    simp [taken bi (by omega) (by omega)]
  next beyond =>
    rw [List.find?_eq_none]
    intro bi member
    have lt := List.mem_range.mp member
    simp [taken bi lt (by omega)]

theorem View.Full.freeBit_eq (full : a.Full sb) {b : Nat} (aligned : b % bpb = 0) :
    freeBit (a.block (bblock (ofNat 32 b) sb.ninodes)) b sb.size = none := by
  unfold freeBit
  rw [List.find?_eq_none]
  intro bi member
  have lt := List.mem_range.mp member
  by_cases inside : b + bi < sb.size.toNat
  · have taken := full (ofNat 32 (b + bi)) (by rwa [toNat_ofNat, Nat.mod_eq_of_lt (by omega)])
    rw [a.marked_add sb aligned lt] at taken
    simp [taken]
  · simp [inside]

theorem blockZero_sees (terms : Terms watch E p) (home : a.Home q) (free : ∀ b, (b, q) ∉ H) (short : H.length ≤ 1)
    (allows : Allows watch E W a) (mine : q ∈ W) :
    (blockZero rootdev q).Acts watch E p (Sees p H a) fun _ => Sees p H (a.write q fun _ => 0) :=
  .bind (bufcacheRead_sees terms home free (allows.read (by omega))) fun bp =>
    .seq (modifyData_sees (.head _)) <| .seq (logEdited_sees terms short allows mine) <|
    release_sees terms free

def Aside (sb : Superblock) (q : Word) (H : List (Fin nbuf × Word)) : Prop :=
  H.length ≤ 1 ∧ ∀ k ∈ H, sb.dataStart ≤ k.2.toNat ∧ k.2 ≠ q

theorem apart_of_low (above : ∀ k ∈ H, sb.dataStart ≤ k.2.toNat) (low : q.toNat < sb.dataStart) (c : Fin nbuf) :
    (c, q) ∉ H :=
  fun member => absurd low (not_lt_of_ge (above _ member))

theorem Superblock.one_lt_dataStart : (1#32).toNat < sb.dataStart := by
  rw [dataStart_eq, mapStart_eq]
  show 1 < _
  omega

theorem aside_nil : Aside sb q [] := ⟨Nat.zero_le _, by simp⟩

theorem Sees.eax_eq (sees : Sees p H a s) : s.eax = a.eax := congrArg Rest.eax sees.rest_eq

theorem Sees.setEax (sees : Sees p H a s) (eax : Nat → Word) :
    Sees p H { a with eax := eax } { s with eax := eax } := by
  obtain ⟨homes, c, r, lone, is⟩ := sees
  refine ⟨homes, c, { r with eax := eax }, { lone with rest := ?_ }, { is with rest := ?_ }⟩
  · rw [← lone.rest]
    rfl
  · rw [is.rest]

section Alloc

variable (terms : Terms watch E p) (format : a.Formatted sb)

include terms format

section

variable {Q : Word → State → Prop} (lowest : a.Lowest sb q) (aside : Aside sb q H) (allows : Allows watch E W a)
  (mine : bblock q sb.ninodes ∈ W) (found : watch (.blockAlloc (some q)) = true → E (.notes (.blockAlloc (some q))))
  (after : watch (.blockAlloc (some q)) = false →
    (blockZero rootdev q >>= fun _ => pure q).Acts watch E p (Sees p H (a.setMark sb q true)) Q)
include lowest aside allows mine found after

theorem blockAllocLoop_reaches (fuel b : Nat) (aligned : b % bpb = 0) (le : b ≤ q.toNat)
    (enough : q.toNat < b + fuel * bpb) :
    (blockAllocLoop rootdev sb fuel b).Acts watch E p (Sees p H a) Q := by
  have inside := lowest.inside
  induction fuel generalizing b with
  | zero => omega
  | succ fuel ih =>
    have toNat : (ofNat 32 b).toNat = b := by
      rw [toNat_ofNat, Nat.mod_eq_of_lt (by omega)]
    have bounds := format.proper.bblock_bounds (q := ofNat 32 b) (by omega)
    have free := apart_of_low (fun k member => (aside.2 k member).1) bounds.2
    have room := allows.read (Nat.le_succ_of_le aside.1)
    unfold blockAllocLoop
    rw [if_pos (by omega)]
    refine .bind (bufcacheRead_sees terms (format.home_bblock (by omega)) free room) fun bp => ?_
    refine .learn (C := fun s => (s.buf bp).data = a.block (bblock (ofNat 32 b) sb.ninodes))
      (fun s sees => sees.block_eq) fun t data => ?_
    rw [data, lowest.freeBit_eq aligned le]
    by_cases here : q.toNat < b + bpb
    · have place : ofNat 32 (b + (q.toNat - b)) = q := by
        rw [Nat.add_sub_cancel' le, BitVec.ofNat_toNat, BitVec.setWidth_eq]
      change b % 4096 = 0 at aligned
      change q.toNat < b + 4096 at here
      have sector : bblock (ofNat 32 b) sb.ninodes = bblock q sb.ninodes := by
        apply BitVec.eq_of_toNat_eq
        rw [format.proper.toNat_bblock (by omega), format.proper.toNat_bblock inside, toNat]
        omega
      have bit : q.toNat - b = q.toNat % bpb := by
        show _ = _ % 4096
        omega
      rw [if_pos here]
      dsimp only
      rw [place, sector, bit]
      rw [sector] at free
      exact .noted found fun unwatched => .seq (modifyData_sees (.head _)) <|
        .seq (logEdited_sees terms aside.1 allows mine) <| .seq (release_sees terms free) <| after unwatched
    · rw [if_neg here]
      refine .seq (release_sees terms free) <| ih (b + bpb) ?_ (not_lt.mp here) ?_
      · rw [Nat.add_mod_right]
        exact aligned
      · rw [Nat.succ_mul] at enough
        omega

theorem blockAlloc_reaches : (blockAlloc rootdev).Acts watch E p (Sees p H a) Q := by
  have room := allows.read (Nat.le_succ_of_le aside.1)
  have start := apart_of_low (fun k member => (aside.2 k member).1) sb.one_lt_dataStart
  have inside := lowest.inside
  refine does_value (readSuperblock_sees terms format.home_one start room) ?_
  rw [format.super]
  refine blockAllocLoop_reaches terms format lowest aside allows mine found after _ 0 (by decide) (Nat.zero_le _) ?_
  show q.toNat < 0 + (sb.size.toNat / 4096 + 2) * 4096
  omega

end

theorem blockAlloc_sees (lowest : a.Lowest sb q) (low : q.toNat < sb.logStart) (aside : Aside sb q H)
    (allows : Allows watch E W (a.setMark sb q true)) (mine : bblock q sb.ninodes ∈ W) (mine' : q ∈ W) :
    (blockAlloc rootdev).Acts watch E p (Sees p H a) fun r t => r = q ∧ Sees p H (a.take sb q) t := by
  refine blockAlloc_reaches terms format lowest aside (allows.before (View.logged_write _ _ _) rfl rfl) mine
    (allows.found q mine') fun _ => ?_
  exact .seq (blockZero_sees terms (format.home low) (fun c member => (aside.2 _ member).2 rfl) aside.1 allows mine')
    <| .pure fun _ sees => ⟨rfl, sees⟩

section

variable (full : a.Full sb) (above : ∀ k ∈ H, sb.dataStart ≤ k.2.toNat)
  (told : watch (.blockAlloc none) = true → E (.notes (.blockAlloc none)))
  (room : H.length + a.logged.length < nbuf ∨ E noBuffers)
include full above told room

theorem blockAllocLoop_full (fuel b : Nat) (aligned : b % bpb = 0)
    (near : b < sb.size.toNat + bpb) (enough : sb.size.toNat + bpb ≤ b + fuel * bpb) :
    (blockAllocLoop rootdev sb fuel b).Acts watch E p (Sees p H a) fun r t =>
      watch (.blockAlloc none) = false ∧ r = a.eax 0 ∧ Sees p H { a with eax := fun k => a.eax (k + 1) } t := by
  induction fuel generalizing b with
  | zero => omega
  | succ fuel ih =>
    unfold blockAllocLoop
    refine .ite (fun inside => ?_) fun _ => ?_
    · have bounds := format.proper.bblock_bounds (q := ofNat 32 b)
        (by rwa [toNat_ofNat, Nat.mod_eq_of_lt (by omega)])
      have free := apart_of_low above bounds.2
      refine .bind (bufcacheRead_sees terms
        (format.home (lt_of_lt_of_le bounds.2 format.proper.order)) free room) fun bp => ?_
      refine .learn (C := fun s => (s.buf bp).data = a.block (bblock (ofNat 32 b) sb.ninodes))
        (fun s sees => sees.block_eq) fun t data => ?_
      rw [data, full.freeBit_eq aligned]
      refine .seq (release_sees terms free) <| ih (b + bpb) ?_ (by omega) ?_
      · rw [Nat.add_mod_right]
        exact aligned
      · rw [Nat.succ_mul] at enough
        omega
    · refine .noted told fun unwatched => .learn (C := fun s => s.eax = a.eax) (fun s sees => sees.eax_eq)
        fun t same => ?_
      rw [same]
      refine .seq (Q := fun _ => Sees p H { a with eax := fun k => a.eax (k + 1) }) (.modify fun s sees => ?_)
        <| .pure fun _ sees => ⟨unwatched, rfl, sees⟩
      rw [sees.eax_eq]
      exact sees.setEax _

theorem blockAlloc_full :
    (blockAlloc rootdev).Acts watch E p (Sees p H a) fun r t =>
      watch (.blockAlloc none) = false ∧ r = a.eax 0 ∧ Sees p H { a with eax := fun k => a.eax (k + 1) } t := by
  refine does_value (readSuperblock_sees terms format.home_one (apart_of_low above sb.one_lt_dataStart) room) ?_
  rw [format.super]
  refine blockAllocLoop_full terms format full above told room _ 0 (by decide) (Nat.add_pos_right _ (by decide)) ?_
  show sb.size.toNat + 4096 ≤ 0 + (sb.size.toNat / 4096 + 2) * 4096
  omega

end

/-! ## `block_free` -/

abbrev freeingFree : Cut Stop Note := .stops (.panic "freeing free block")

theorem blockFree_sees (inside : q.toNat < sb.size.toNat) (above : ∀ k ∈ H, sb.dataStart ≤ k.2.toNat)
    (short : H.length ≤ 1) (allows : Allows watch E W a) (mine : bblock q sb.ninodes ∈ W)
    (taken : a.marked sb q = true ∨ E freeingFree) :
    (blockFree rootdev q).Acts watch E p (Sees p H a) fun _ t =>
      a.marked sb q = true ∧ Sees p H (a.setMark sb q false) t := by
  have room := allows.read (Nat.le_succ_of_le short)
  have free := apart_of_low above (format.proper.bblock_bounds inside).2
  refine does_value (readSuperblock_sees terms format.home_one (apart_of_low above sb.one_lt_dataStart) room) ?_
  rw [format.super]
  refine .bind (bufcacheRead_sees terms (format.home_bblock inside) free room) fun bp => ?_
  refine .learn (C := fun s => (s.buf bp).data = a.block (bblock q sb.ninodes)) (fun s sees => sees.block_eq)
    fun t data => ?_
  rw [data]
  refine .ite (fun clear => .stop fun _ _ => taken.resolve_left ?_) fun set => ?_
  · rw [View.marked, clear]
    exact Bool.false_ne_true
  · exact .seq (modifyData_sees (.head _)) <| .seq (logEdited_sees terms short allows mine) <|
      (release_sees terms free).weaken fun _ _ sees => ⟨(Bool.not_eq_false _).mp set, sees⟩

end Alloc

end Certikos.FileSys
