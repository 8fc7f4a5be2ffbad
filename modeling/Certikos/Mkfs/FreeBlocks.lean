import Certikos.FileSys.Space
import Certikos.Mkfs.Agreement

/-!
# The blocks that are handed out

The log has the last blocks of the disk, and `mkfs` leaves their bits clear. As long as there is a free block before
them `block_alloc` takes that one; then it takes the blocks of the log.
-/

namespace Certikos.Mkfs
open Lib
open FileSys
open Fs (Block Disk nbuf rootdev logSlot)

inductive BlockCall
  | alloc
  | free (b : Word)
  | nextTrans

def BlockCall.code : BlockCall → KernM (Option Word)
  | .alloc => do
      let b ← blockAlloc rootdev
      pure (some b)
  | .free b => do
      blockFree rootdev b
      pure none
  | .nextTrans => do
      commitTrans
      beginTrans
      pure none

inductive BlockRun (allowed : FileSys.State → BlockCall → Prop) (p : Nat) (s : FileSys.State) :
    List Word → FileSys.State → Prop
  | start {t : FileSys.State} (begun : beginTrans.alone world p s = .ok (⟨⟩, t)) : BlockRun allowed p s [] t
  | call {got : List Word} {t u : FileSys.State} {c : BlockCall} {r : Option Word} (before : BlockRun allowed p s got t)
      (meets : allowed t c) (done : c.code.alone world p t = .ok (r, u)) : BlockRun allowed p s (r.toList ++ got) u

def Orderly (s : FileSys.State) : BlockCall → Prop
  | .alloc => ∃ q, s.super.IsData q ∧ s.marked q = false
  | .free b => s.super.IsData b
  | .nextTrans => True

abbrev geometry : Superblock := ⟨1024, 985, 200, 10⟩

theorem geometry_proper : geometry.Proper := ⟨by decide, by decide, by decide⟩

structure Kept (a : View) : Prop where
  format : a.Formatted geometry
  trans : a.trans = true
  metadata : ∀ q : Word, q.toNat < geometry.dataStart → a.marked geometry q = true
  log : ∀ q : Word, geometry.logStart ≤ q.toNat → q.toNat < 1024 → a.marked geometry q = false

def nextView (a : View) : View := { a with logged := [], trans := true }

section Runs

variable {files : List Input} {l : Layout} {t : State} {disk : Disk} {p : Nat} {s u : FileSys.State} {a : View}
  {q : Word}

theorem Kept.setMark (kept : Kept a) (data : geometry.IsData q) (v : Bool) : Kept (a.setMark geometry q v) := by
  have inside := data.lt_size
  have marks := fun (q' : Word) (lt : q'.toNat < geometry.size.toNat) =>
    View.marked_setMark a geometry_proper (v := v) inside lt
  refine ⟨kept.format.setMark geometry_proper inside, kept.trans, fun q' low => ?_, fun q' high below => ?_⟩
  · rw [marks q' (lt_trans low (by decide)), if_neg]
    · exact kept.metadata q' low
    · rintro rfl
      exact absurd low (not_lt_of_ge data.1)
  · rw [marks q' below, if_neg]
    · exact kept.log q' high below
    · rintro rfl
      exact absurd data.2 (not_lt_of_ge high)

theorem Kept.take (kept : Kept a) (data : geometry.IsData q) : Kept (a.take geometry q) := by
  have marked := kept.setMark data true
  have other : ∀ q' : Word, q'.toNat < 1024 → bblock q' geometry.ninodes ≠ q := by
    rintro q' lt rfl
    exact absurd (geometry_proper.bblock_bounds lt).2 (not_lt_of_ge data.1)
  refine ⟨kept.format.take geometry_proper data.lt_size data.1, kept.trans, fun q' low => ?_, fun q' high below => ?_⟩
  · rw [View.take, View.marked_write _ (other q' (lt_trans low (by decide)))]
    exact marked.metadata q' low
  · rw [View.take, View.marked_write _ (other q' below)]
    exact marked.log q' high below

theorem Kept.next (kept : Kept a) : Kept (nextView a) := by
  obtain ⟨⟨proper, super, start, size⟩, trans, metadata, log⟩ := kept
  exact ⟨⟨proper, super, start, size⟩, rfl, metadata, log⟩

theorem Kept.lowest_isData (kept : Kept a) (sees : Sees p [] a s) (meets : Orderly s .alloc) :
    ∃ q, a.Lowest geometry q ∧ geometry.IsData q := by
  obtain ⟨q, data, free⟩ := meets
  rw [sees.super_eq kept.format] at data
  rw [sees.marked_eq kept.format data.lt_size] at free
  exact View.exists_lowest_data kept.metadata data free

theorem Kept.lowest_log (kept : Kept a) (sees : Sees p [] a s) (none : ¬Orderly s .alloc) : a.Lowest geometry 1014 := by
  obtain ⟨q, lowest, le⟩ := View.exists_lowest (q := 1014) (show (1014 : Word).toNat < geometry.size.toNat by decide)
    (kept.log 1014 (by decide) (by decide))
  have same : q = 1014 := by
    apply BitVec.eq_of_toNat_eq
    refine le_antisymm le (not_lt.mp fun lt => none ⟨q, ?_, ?_⟩)
    · rw [sees.super_eq kept.format]
      refine ⟨not_lt.mp fun low => ?_, lt⟩
      have taken := kept.metadata q low
      rw [lowest.free] at taken
      exact Bool.false_ne_true taken
    · rw [sees.marked_eq kept.format lowest.inside]
      exact lowest.free
  exact same ▸ lowest

theorem anyTerms (p : Nat) : Terms (fun _ => false) (fun _ => True) p := ⟨nofun, .inr trivial⟩

theorem Kept.call (kept : Kept a) (sees : Sees p [] a s) {c : BlockCall} (meets : Orderly s c) {r : Option Word}
    (done : c.code.alone world p s = .ok (r, u)) :
    (∀ q ∈ r, geometry.IsData q) ∧ ∃ a', Sees p [] a' u ∧ Kept a' := by
  cases c with
  | alloc =>
    obtain ⟨q, lowest, data⟩ := kept.lowest_isData sees meets
    have gives : BlockCall.alloc.code.Does world (fun _ => True) p (Sees p [] a) fun r t =>
        r = some q ∧ Sees p [] (a.take geometry q) t :=
      does_value (blockAlloc_sees (anyTerms p) kept.format lowest data.2 aside_nil (.anything _ .univ _) trivial trivial)
        (.pure fun _ sees => ⟨rfl, sees⟩)
    obtain ⟨rfl, after⟩ := (gives s sees).of_ok done
    refine ⟨fun q' member => ?_, _, after, kept.take data⟩
    cases member
    exact data
  | free b =>
    have data : geometry.IsData b := by
      rw [← sees.super_eq kept.format]
      exact meets
    have gives : (BlockCall.free b).code.Does world (fun _ => True) p (Sees p [] a) fun r t =>
        r = none ∧ Sees p [] (a.setMark geometry b false) t :=
      .seq (blockFree_sees (anyTerms p) kept.format data.lt_size (by simp) (by simp) (.anything _ .univ _) trivial
        (.inr trivial)) <| .pure fun _ both => ⟨rfl, both.2⟩
    obtain ⟨rfl, after⟩ := (gives s sees).of_ok done
    exact ⟨nofun, _, after, kept.setMark data false⟩
  | nextTrans =>
    have gives : BlockCall.nextTrans.code.Does world (fun _ => True) p (Sees p [] a) fun r t =>
        r = none ∧ Sees p [] (nextView a) t :=
      .seq (commitTrans_sees (anyTerms p) (.inr trivial)) <| .seq (beginTrans_sees (anyTerms p) rfl) <|
        .pure fun _ sees => ⟨rfl, sees⟩
    obtain ⟨rfl, after⟩ := (gives s sees).of_ok done
    exact ⟨nofun, _, after, kept.next⟩

theorem Kept.run (begins : ∀ t, beginTrans.alone world p s = .ok (⟨⟩, t) → ∃ a, Sees p [] a t ∧ Kept a)
    {got : List Word} (run : BlockRun Orderly p s got u) :
    (∀ q ∈ got, geometry.IsData q) ∧ ∃ a, Sees p [] a u ∧ Kept a := by
  induction run with
  | start begun => exact ⟨by simp, begins _ begun⟩
  | call before meets done ih =>
    obtain ⟨each, a, sees, kept⟩ := ih
    obtain ⟨now, after⟩ := kept.call sees meets done
    refine ⟨fun q member => ?_, after⟩
    cases List.mem_append.mp member with
    | inl here => exact now q (Option.mem_toList.mp here)
    | inr earlier => exact each q earlier

theorem Kept.returned_iff (kept : Kept a) (sees : Sees p [] a s)
    (done : (blockAlloc rootdev).alone world p s = .ok (q, u)) : geometry.IsData q ↔ Orderly s .alloc := by
  by_cases meets : Orderly s .alloc
  · obtain ⟨q', lowest, data⟩ := kept.lowest_isData sees meets
    have gives := blockAlloc_sees (anyTerms p) kept.format lowest data.2 aside_nil (.anything _ .univ _) trivial trivial s
      sees
    obtain ⟨rfl, -⟩ := gives.of_ok done
    exact iff_of_true data meets
  · have lowest := kept.lowest_log sees meets
    have gives := blockAlloc_reaches (Q := fun r _ => r = 1014) (anyTerms p) kept.format lowest aside_nil
      (.anything _ .univ _) trivial (fun _ => trivial) (fun _ => .seq (.anything _) <| .pure fun _ _ => rfl) s sees
    obtain rfl := gives.of_ok done
    exact iff_of_false (by decide) meets

theorem Kept.allows_take (kept : Kept a) (few : a.logged.length ≤ 5) (q : Word) :
    Allows (fun _ => false) (fun _ => False) .univ (a.setMark geometry q true) ∧
      1 + (a.take geometry q).logged.length < nbuf := by
  have once := View.length_write (a := a) (q := bblock q geometry.ninodes)
    (d := setBit (a.block (bblock q geometry.ninodes)) (q.toNat % bpb) true)
  have twice := View.length_write (a := a.setMark geometry q true) (q := q) (d := fun _ => 0)
  unfold View.take
  unfold View.setMark at *
  have size : a.size.toInt = 10 := by
    rw [kept.format.size]
    decide
  exact ⟨⟨.inl kept.trans, .inl (show _ + 2 < 10 by omega), .inl ⟨show _ < 10 by omega, show _ < a.size.toInt - 1 by omega⟩,
    nofun, nofun, nofun⟩, show _ < 10 by omega⟩

theorem Kept.returns (kept : Kept a) (sees : Sees p [] a s) (low : 1 ≤ p) (high : p < numIds) (meets : Orderly s .alloc)
    (few : s.log.lh.n ≤ 5) : ∃ q u, (blockAlloc rootdev).alone world p s = .ok (q, u) := by
  obtain ⟨q, lowest, data⟩ := kept.lowest_isData sees meets
  have terms : Terms (fun _ => false) (fun _ => False) p := ⟨nofun, .inl ⟨low, high⟩⟩
  rw [sees.log.2.1] at few
  have allows := (kept.allows_take (by omega) q).1
  obtain ⟨r, u, returned, -⟩ := (blockAlloc_sees terms kept.format lowest data.2 aside_nil allows trivial trivial s
    sees).returns
  exact ⟨r, u, returned⟩

theorem Finished.begin_kept (finished : Finished files l t) (few : l.uses.length ≤ nblocks) (on : OnDisk t.image disk)
    (mounted : Mounted disk p s) :
    (beginTrans p s).Gives world (fun _ => False) p fun _ u => ∃ a, Sees p [] a u ∧ Kept a ∧ a.logged = [] ∧
      ∀ q : Word, q.toNat < bpb → a.marked geometry q = decide (q.toNat < firstData + l.uses.length) := by
  obtain ⟨a, sees, clean, start, size⟩ := finished.mounted few on mounted
  obtain ⟨low, high, -⟩ := mounted
  have terms : Terms (fun _ => false) (fun _ => False) p := ⟨nofun, .inl ⟨low, high⟩⟩
  have super : superblockOf (a.block 1) = geometry := by
    rw [clean.block 1 (by decide)]
    exact finished.super_eq
  have marks : ∀ q : Word, q.toNat < bpb →
      a.marked geometry q = decide (q.toNat < firstData + l.uses.length) := by
    intro q small
    have place := toNat_bblock small
    have marked := finished.marked_iff few small
    rw [View.marked, clean.block _ (by rw [place]; decide), place]
    unfold Marked at marked
    rw [finished.super_eq, place] at marked
    rw [Bool.eq_iff_iff, marked, decide_eq_true_eq]
  refine (beginTrans_sees terms clean.idle s sees).mono (fun _ u sees => ⟨_, sees, ?_, clean.logged, marks⟩)
    fun _ ended => ended
  refine ⟨⟨geometry_proper, super, ?_, size⟩, rfl, fun q small => ?_, fun q above below => ?_⟩
  · show a.start.toNat = _
    rw [start]
    decide
  · refine (marks q (lt_trans small (by decide))).trans (decide_eq_true ?_)
    exact lt_of_lt_of_le small (Nat.le_add_right 29 _)
  · refine (marks q (lt_trans below (by decide))).trans (decide_eq_false ?_)
    change 1014 ≤ q.toNat at above
    change l.uses.length ≤ 985 at few
    show ¬q.toNat < 29 + l.uses.length
    omega

end Runs

/-- From the image of files that fit, calls that ask for a block only while a data block is free, and free data blocks
only, get data blocks and nothing else; and a call gets one only if one is free. -/
theorem blockAlloc_avoidsLog (files : List Input) (fits : Fits files) : ∃ image, output files = some image ∧
    ∀ disk p s, OnDisk image disk → Mounted disk p s → ∀ got t, BlockRun Orderly p s got t →
      (∀ q ∈ got, (superblockOf (image 1)).IsData q) ∧
      (∀ q u, (blockAlloc rootdev).alone world p t = .ok (q, u) →
        ((superblockOf (image 1)).IsData q ↔ Orderly t .alloc)) ∧
      (Orderly t .alloc → t.log.lh.n ≤ 5 → ∃ q u, (blockAlloc rootdev).alone world p t = .ok (q, u)) := by
  obtain ⟨l, t, made, finished, few⟩ := fits.finished
  refine ⟨t.image, made, fun disk p s on mounted got u run => ?_⟩
  have begins : ∀ u, beginTrans.alone world p s = .ok (⟨⟩, u) → ∃ a, Sees p [] a u ∧ Kept a := by
    intro u begun
    obtain ⟨a, sees, kept, -⟩ := (finished.begin_kept few on mounted).of_ok begun
    exact ⟨a, sees, kept⟩
  obtain ⟨each, a, sees, kept⟩ := Kept.run begins run
  rw [finished.super_eq]
  exact ⟨each, fun q v done => kept.returned_iff sees done, kept.returns sees mounted.1 mounted.2.1⟩

theorem blockAlloc_avoidsLog_empty : ∃ image, output [] = some image ∧ ∃ disk s t q, OnDisk image disk ∧
    Mounted disk 1 s ∧ BlockRun Orderly 1 s [q] t ∧ (superblockOf (image 1)).IsData q := by
  have fits : Fits [] := ⟨by decide, by decide, by decide, by decide⟩
  obtain ⟨image, made, agree⟩ := blockAlloc_avoidsLog [] fits
  obtain ⟨l, t, made', finished, few⟩ := fits.finished
  obtain rfl : t.image = image := Option.some.inj (made'.symm.trans made)
  obtain ⟨disk, s, on, mounted⟩ := finished.exists_mounted few
  obtain ⟨_, u, begun, a, sees, kept, logged, marks⟩ := (finished.begin_kept few on mounted).returns
  have short : l.uses.length ≤ 1 := by
    apply (length_le_total finished.laid.nodup finished.laid.below).trans
    rw [total_contents (by decide)]
    decide
  have free : Orderly u .alloc := by
    refine ⟨30, ?_, ?_⟩
    · rw [sees.super_eq kept.format]
      decide
    · rw [sees.marked_eq kept.format (by decide), marks 30 (by decide)]
      exact decide_eq_false (show ¬30 < 29 + l.uses.length by omega)
  have started : BlockRun Orderly 1 s [] u := .start begun
  have few' : u.log.lh.n ≤ 5 := by
    rw [sees.log.2.1, logged]
    decide
  obtain ⟨q, v, done⟩ := (agree disk 1 s on mounted [] u started).2.2 free few'
  have again : BlockCall.alloc.code.alone world 1 u = .ok (some q, v) := Turn.alone_bind_ok done
  have run : BlockRun Orderly 1 s [q] v := .call started free again
  exact ⟨t.image, made, disk, s, v, q, on, mounted, run, (agree disk 1 s on mounted [q] v run).1 q (by simp)⟩

/-! ## A full disk -/

section Full

variable {s u : FileSys.State} {a : View} {got : List Word}

theorem oneTerms : Terms (fun _ => false) (fun _ => False) 1 := ⟨nofun, .inl ⟨by decide, by decide⟩⟩

theorem zeroLog_sees (start : a.start = 1014) (size : a.size = 10) (trans : a.trans = true)
    (logged : a.logged = [bblock 1014 200]) :
    (blockZero rootdev 1014).Does world (fun _ => False) 1 (Sees 1 [] a) fun _ _ => True := by
  rintro s ⟨-, c, r, lone, is⟩
  have index : logSlot r.log.lh 1014 = 1 := by
    rw [is.logSlot_eq, logged]
    decide
  have count : r.log.lh.n = (1 : Nat) := by
    rw [is.header.1, logged]
    rfl
  obtain ⟨start', size', busy, -⟩ := is.log
  have slot : r.log.start + BitVec.ofNat 32 1 + 1 = 1016 := by
    rw [start', start]
    decide
  have written := fun b => logWrite_lone (c := c) (L := a.logged) (M := [bblock 1014 200, 1014]) (d := fun _ => 0) (b := b)
    (H := [(b, 1014)]) oneTerms (.head _) (busy.trans trans) nofun (.inl (by rw [logged]; exact show 1 + 1 < 10 by decide))
    index count
    (by rw [size', size]; decide) (by rw [slot]; decide) (by rw [slot]; simp) (by rw [logged]; simp) (by simp)
  exact Code.Does.bind (bufcacheRead_lone oneTerms (by decide) (by simp) (.inl (by rw [logged]; decide))) (fun b =>
    .seq (modifyData_lone (.head _)) <| .seq (written b) <|
    (releaseLast_lone oneTerms (by simp) (by simp)).weaken fun _ _ _ => trivial) s lone

theorem Kept.allocLog (kept : Kept a) (sees : Sees 1 [] a u) (logged : a.logged = []) (none : ¬Orderly u .alloc) :
    ∃ v, (blockAlloc rootdev).alone world 1 u = .ok (1014, v) := by
  have lowest := kept.lowest_log sees none
  have start : a.start = 1014 := BitVec.eq_of_toNat_eq (kept.format.start.trans (by decide))
  have one : (a.setMark geometry 1014 true).logged = [bblock 1014 200] := by
    rw [View.setMark, View.write, logged]
    simp
  have size : a.size.toInt = 10 := by
    rw [kept.format.size]
    decide
  have allows : Allows (fun _ => false) (fun _ => False) .univ a := by
    refine ⟨.inl kept.trans, .inl ?_, .inl ⟨?_, ?_⟩, by simp, by simp, by simp⟩
    · rw [logged]
      decide
    · rw [logged]
      decide
    · rw [logged, size]
      decide
  have gives := blockAlloc_reaches (Q := fun r _ => r = 1014) oneTerms kept.format lowest aside_nil allows trivial (by simp)
    (fun _ => .seq (zeroLog_sees start kept.format.size kept.trans one) <| .pure fun _ _ => rfl) u sees
  obtain ⟨q, v, returned, rfl⟩ := gives.returns
  exact ⟨v, returned⟩

theorem Kept.exhausts (kept : Kept a) (sees : Sees 1 [] a u) (logged : a.logged = [])
    (run : BlockRun (fun _ _ => True) 1 s got u) : ∃ got' v, BlockRun (fun _ _ => True) 1 s (1014 :: got') v := by
  -- by induction on the number of free data blocks
  induction free : (a.freeBlocks geometry).card generalizing a u got with
  | zero =>
    have none : ¬Orderly u .alloc := by
      rintro ⟨q, data, clear⟩
      rw [sees.super_eq kept.format] at data
      rw [sees.marked_eq kept.format data.lt_size] at clear
      have member := View.mem_freeBlocks.mpr ⟨data, clear⟩
      rw [Finset.card_eq_zero.mp free] at member
      exact Finset.notMem_empty _ member
    obtain ⟨v, done⟩ := kept.allocLog sees logged none
    exact ⟨got, v, .call (c := .alloc) run trivial (Turn.alone_bind_ok done)⟩
  | succ n ih =>
    have some' : Orderly u .alloc := by
      obtain ⟨m, member⟩ := Finset.card_pos.mp (Nat.lt_of_lt_of_eq (Nat.succ_pos n) free.symm)
      have small := Finset.mem_range.mp (Finset.mem_filter.mp member).1
      have toNat : (BitVec.ofNat 32 m).toNat = m := by
        change m < 1014 at small
        rw [BitVec.toNat_ofNat, Nat.mod_eq_of_lt (by omega)]
      rw [← toNat] at member
      obtain ⟨data, clear⟩ := View.mem_freeBlocks.mp member
      refine ⟨BitVec.ofNat 32 m, ?_, ?_⟩
      · rw [sees.super_eq kept.format]
        exact data
      · rw [sees.marked_eq kept.format data.lt_size]
        exact clear
    obtain ⟨q, lowest, data⟩ := kept.lowest_isData sees some'
    have taken := kept.take data
    have room := kept.allows_take (by rw [logged]; decide) q
    have alloc : BlockCall.alloc.code.Does world (fun _ => False) 1 (Sees 1 [] a) fun r t =>
        r = some q ∧ Sees 1 [] (a.take geometry q) t :=
      does_value (blockAlloc_sees oneTerms kept.format lowest data.2 aside_nil room.1 trivial trivial)
        (.pure fun _ sees => ⟨rfl, sees⟩)
    have next : BlockCall.nextTrans.code.Does world (fun _ => False) 1 (Sees 1 [] (a.take geometry q)) fun r t =>
        r = none ∧ Sees 1 [] (nextView (a.take geometry q)) t :=
      .seq (commitTrans_sees oneTerms (.inl room.2)) <| .seq (beginTrans_sees oneTerms rfl) <|
        .pure fun _ sees => ⟨rfl, sees⟩
    obtain ⟨_, v, done, rfl, sees'⟩ := (alloc u sees).returns
    obtain ⟨_, w, done', rfl, sees''⟩ := (next v sees').returns
    have run' : BlockRun (fun _ _ => True) 1 s (q :: got) w := .call (.call run trivial done) trivial done'
    refine ih taken.next sees'' rfl run' ?_
    have count := Finset.card_erase_of_mem (View.mem_freeBlocks.mpr ⟨data, lowest.free⟩)
    rw [← View.freeBlocks_take geometry_proper data.lt_size data.1, free] at count
    exact count

end Full

theorem blockAlloc_returnsLog : ∃ image, output [] = some image ∧ ∃ disk s got t, OnDisk image disk ∧ Mounted disk 1 s ∧
    BlockRun (fun _ _ => True) 1 s (1014 :: got) t ∧ ¬(superblockOf (image 1)).IsData 1014 ∧
      (superblockOf (image 1)).logStart = 1014 := by
  have fits : Fits [] := ⟨by decide, by decide, by decide, by decide⟩
  obtain ⟨l, t, made, finished, few⟩ := fits.finished
  obtain ⟨disk, s, on, mounted⟩ := finished.exists_mounted few
  obtain ⟨_, u, begun, a, sees, kept, logged, -⟩ := (finished.begin_kept few on mounted).returns
  obtain ⟨got, v, run⟩ := kept.exhausts sees logged (.start begun)
  refine ⟨t.image, made, disk, s, got, v, on, mounted, run, ?_⟩
  rw [finished.super_eq]
  decide

end Certikos.Mkfs
