import Certikos.FileSys.References

/-!
# Reference counts between calls

The open files and the working directories, whose entries are the references that remain when a call is over.
-/

namespace Certikos.FileSys
open Lib Function
open Fs (rootdev Disk)

variable {extra : Fin ninode → Int} {spare : Fin nfile → Int} {s t : State} {p : Nat}
  {watch : Note → Bool}

/-! ## The tables -/

variable {α : Type} {omode fd userBuf n : Word} {dp : Slot}

theorem countP_change {l : List α} {P Q : α → Bool} {a : α} (nodup : l.Nodup) (member : a ∈ l)
    (others : ∀ b, b ≠ a → Q b = P b) :
    (l.countP Q : Int) = l.countP P + (if Q a then 1 else 0) - if P a then 1 else 0 := by
  classical
  have order := List.perm_cons_erase member
  have rest : (l.erase a).countP Q = (l.erase a).countP P := by
    refine List.countP_congr ?_
    intro b inside
    rw [others b fun same => nodup.not_mem_erase (same ▸ inside)]
  rw [order.countP_eq, order.countP_eq P, List.countP_cons, List.countP_cons, rest]
  split <;> split <;> omega

variable {f : Fin nfile} {path : List Byte} {ip : Slot}

theorem Counts.setFile {x : File} {extra' : Fin ninode → Int} {spare' : Fin nfile → Int}
    (counts : Counts extra spare s) (ref : x.ref = (s.file f).ref + (spare' f - spare f))
    (others : ∀ g, g ≠ f → spare' g = spare g) (closed : x.ref ≤ 0 → x.type ≠ .inode)
    (moved : ∀ i, extra' i = extra i + (if (s.file f).PointsTo i then 1 else 0) - if x.PointsTo i then 1 else 0) :
    Counts extra' spare' (s.setFile f x) where
  inodes i := by
    have change : ((s.setFile f x).fileRefs i : Int)
        = s.fileRefs i + (if x.PointsTo i then 1 else 0) - if (s.file f).PointsTo i then 1 else 0 := by
      have counted := countP_change (P := fun g => (s.file g).PointsTo i)
        (Q := fun g => ((s.setFile f x).file g).PointsTo i) (List.nodup_finRange nfile) (List.mem_finRange f) ?_
      · simpa [State.fileRefs, State.setFile] using counted
      · intro g ne
        simp [State.setFile, ne]
    have before := counts.inodes i
    rw [change, moved i]
    show (s.inode (some i)).ref = _ + (s.cwdRefs i : Int) + _
    omega
  files g := by
    have before := counts.files g
    show (update s.file f x g).ref = s.fdRefs g + spare' g
    by_cases here : g = f
    · rw [here, update_self, ref]
      rw [here] at before
      omega
    · rw [update_of_ne here, others g here]
      exact before
  closed g := by
    show (update s.file f x g).ref ≤ 0 → (update s.file f x g).type ≠ .inode
    by_cases here : g = f
    · rw [here, update_self]
      exact closed
    · rw [update_of_ne here]
      exact counts.closed g
  distinct := counts.distinct

theorem Counts.setCwd (counts : Counts extra spare s) (range : p < numIds) (ip : Slot) :
    Counts (extra + one (s.cwd p) - one ip) spare { s with cwd := update s.cwd p ip } where
  inodes i := by
    have change : (State.cwdRefs { s with cwd := update s.cwd p ip } i : Int)
        = s.cwdRefs i + one ip i - one (s.cwd p) i := by
      have counted := countP_change (P := fun q => s.cwd q = some i)
        (Q := fun q => update s.cwd p ip q = some i) List.nodup_range (List.mem_range.mpr range) ?_
      · simpa [State.cwdRefs, one] using counted
      · intro q ne
        simp [ne]
    have before := counts.inodes i
    show (s.inode (some i)).ref = s.fileRefs i + _ + (extra i + _ - _)
    omega
  files := counts.files
  closed := counts.closed
  distinct := counts.distinct

theorem Counts.setOpenfile (counts : Counts extra spare s) (range : p < numIds) {fd : Nat} (small : fd < nofile)
    (f : Option (Fin nfile)) :
    Counts extra (spare + one (s.openfiles p fd) - one f)
      { s with openfiles := update s.openfiles p (update (s.openfiles p) fd f) } where
  inodes := counts.inodes
  files g := by
    have change : (State.fdRefs
        { s with openfiles := update s.openfiles p (update (s.openfiles p) fd f) } g : Int)
        = s.fdRefs g + one f g - one (s.openfiles p fd) g := by
      have counted := countP_change (P := fun d => s.openfiles d.1 d.2 = some g)
        (Q := fun d => update s.openfiles p (update (s.openfiles p) fd f) d.1 d.2 = some g)
        (a := (p, fd)) (List.nodup_range.product List.nodup_range)
        (List.mem_product.mpr ⟨List.mem_range.mpr range, List.mem_range.mpr small⟩) ?_
      · simpa [State.fdRefs, one] using counted
      · intro d ne
        by_cases same : d.1 = p
        · have other : d.2 ≠ fd := fun equal => ne (Prod.ext same equal)
          simp [same, other]
        · simp [same]
    have before := counts.files g
    show (s.file g).ref = _ + (spare g + _ - _)
    omega
  closed := counts.closed
  distinct := counts.distinct

/-! ## Open files -/

theorem fileAlloc_counts :
    fileAlloc.Acts watch anyhow p (Counts extra spare) fun found s => Counts extra (spare + one found) s ∧
      ∀ f, found = some f → 0 < (s.file f).ref ∧ (s.file f).type ≠ .inode := by
  refine .seq (counts_does (cache_refs acquire_step)) <| .read fun t counts => ?_
  cases found : (List.finRange nfile).find? fun f => (t.file f).ref = 0 with
  | none =>
    refine .seq (counts_does (cache_refs release_step) |>.strengthen fun s same => same ▸ counts) <| .pure ?_
    intro s counts
    refine ⟨?_, fun f missing => nomatch missing⟩
    rw [one_none, add_zero]
    exact counts
  | some f =>
    have unused := List.find?_some found
    simp only [decide_eq_true_eq] at unused
    have type := counts.closed f (le_of_eq unused)
    refine .seq (.modify (Q := fun _ s => Counts extra (spare + one (some f)) s ∧ 0 < (s.file f).ref ∧
      (s.file f).type ≠ .inode) ?_) <| .seq (still_does (cache_refs release_step) ?_) <| .pure ?_
    · rintro s rfl
      refine ⟨counts.setFile ?_ ?_ ?_ ?_, ?_⟩
      · simp [unused]
      · intro g ne
        simp [one_of_ne (fun same => ne (Option.some.inj same).symm)]
      · exact fun _ => type
      · simp [File.PointsTo, type]
      · simp [State.setFile, type]
    · rintro s t ⟨counts, used, type⟩ same
      rw [(same.file f).1, (same.file f).2.1]
      exact ⟨counts.same same, used, type⟩
    · rintro s ⟨counts, used, type⟩
      refine ⟨counts, ?_⟩
      rintro g here
      rw [← Option.some.inj here]
      exact ⟨used, type⟩

structure SameTables (s t : State) : Prop where
  openfiles : t.openfiles = s.openfiles
  cwd : t.cwd = s.cwd

instance instPreorderSameTables : IsPreorder State SameTables where
  refl _ := ⟨rfl, rfl⟩
  trans _ _ _ first second := ⟨second.openfiles.trans first.openfiles, second.cwd.trans first.cwd⟩

theorem refs_tables {x : KernM α} (within : x.Within SameRefs) : x.Within SameTables :=
  within.mono fun _ _ same => ⟨same.openfiles, same.cwd⟩

theorem drive_tables (s : State) : SameTables s (drive s) := ⟨(drive_refs s).openfiles, (drive_refs s).cwd⟩

theorem modifyInode_tables {f : Inode → Inode} : (modifyInode ip f).Within SameTables :=
  .modify fun _ => ⟨rfl, rfl⟩

theorem modifyFile_tables {g : File → File} : (modifyFile f g).Within SameTables :=
  .modify fun _ => ⟨rfl, rfl⟩

theorem inodeGet_tables {dev inum : Word} : (inodeGet dev inum).Within SameTables := by
  refine .seq (refs_tables (cache_refs acquire_step)) <| .get fun t => ?_
  cases t.cachedInode dev inum with
  | some i =>
    exact .seq .note <| .seq modifyInode_tables <| .seq (refs_tables (cache_refs release_step))
      .pure
  | none =>
    cases t.emptyInode with
    | none => exact .stop
    | some i =>
      exact .seq .note <| .seq modifyInode_tables <| .seq (refs_tables (cache_refs release_step))
        .pure

theorem inodePut_tables : (inodePut ip).Within SameTables := by
  refine .seq (refs_tables (cache_refs acquire_step)) <| .seq .note <| .get fun _ => .seq ?_ <|
    .seq modifyInode_tables <| refs_tables (cache_refs release_step)
  refine .both (.both .stop ?_) .pure
  exact .seq .note <| .seq modifyInode_tables <| .seq .note <|
    .seq (refs_tables (cache_refs release_step)) <| .seq (refs_tables inodeTrunc_refs) <|
    .seq modifyInode_tables <| .seq (refs_tables inodeUpdate_refs) <|
    .seq (refs_tables (cache_refs acquire_step)) <| .seq modifyInode_tables <| .seq .note <|
    refs_tables (cache_refs threadWakeup_step)

theorem fileClose_tables : (fileClose f).Within SameTables := by
  refine .seq (refs_tables (cache_refs acquire_step)) <| .get fun _ => .both .stop <|
    .both (.seq modifyFile_tables <| refs_tables (cache_refs release_step)) <|
    .seq modifyFile_tables <| .seq (refs_tables (cache_refs release_step)) <| .both ?_
    .pure
  exact .seq (refs_tables (cache_refs beginTrans_step)) <| .seq inodePut_tables <|
    refs_tables (cache_refs commitTrans_step)

theorem fileClose_counts :
    (fileClose f).Acts watch anyhow p (Counts extra (spare + one (some f))) fun _ => Counts extra spare := by
  refine .seq (counts_does (cache_refs acquire_step)) <| .read fun t counts => .ite (fun _ => stop_does)
    fun used => .ite (fun more => ?_) fun last => ?_
  · refine .seq (.modify ?_) <| counts_does (cache_refs release_step)
    rintro s rfl
    refine counts.setFile ?_ ?_ ?_ ?_
    · simp [sub_eq_add_neg]
    · intro g ne
      simp [one_of_ne (fun same => ne (Option.some.inj same).symm)]
    · exact fun none => absurd more (by simpa using none)
    · intro i
      have before : 0 < (s.file f).ref := by omega
      have after : 1 < (s.file f).ref := by omega
      simp [File.PointsTo, before, after]
  · have one_left : (t.file f).ref = 1 := by omega
    refine .seq (.modify (Q := fun _ => Counts (extra + if (t.file f).type = .inode then one (t.file f).ip else 0) spare)
      ?_) <| .seq (counts_does (cache_refs release_step)) <| .ite (fun inode => ?_) fun other => ?_
    · rintro s rfl
      refine counts.setFile ?_ ?_ ?_ ?_
      · simp [one_left]
      · intro g ne
        simp [one_of_ne (fun same => ne (Option.some.inj same).symm)]
      · exact fun _ => by simp
      · intro i
        by_cases inode : (s.file f).type = .inode <;> simp [File.PointsTo, one_left, inode, one]
    · rw [if_pos inode]
      exact .seq (counts_does (cache_refs beginTrans_step)) <| .seq inodePut_counts <|
        counts_does (cache_refs commitTrans_step)
    · rw [if_neg other, add_zero]
      exact .same

theorem fdalloc_counts (range : p < numIds) :
    (fdalloc f).Acts watch anyhow p
      (fun s => Counts extra (spare + one (some f)) s ∧ 0 < (s.file f).ref ∧ (s.file f).type ≠ .inode)
      fun fd s => match fd with
        | some _ => Counts extra spare s ∧ 0 < (s.file f).ref ∧ (s.file f).type ≠ .inode
        | none => Counts extra (spare + one (some f)) s := by
  refine .self (.read fun t given => ?_)
  obtain ⟨counts, open'⟩ := given
  cases found : (List.range nofile).find? fun fd => t.openfiles p fd = none with
  | none => exact .pure fun s same => same ▸ counts
  | some fd =>
    have empty := List.find?_some found
    simp only [decide_eq_true_eq] at empty
    refine .seq (.modify (Q := fun _ s => Counts extra spare s ∧ 0 < (s.file f).ref ∧ (s.file f).type ≠ .inode) ?_)
      <| .pure fun _ post => post
    rintro s rfl
    refine ⟨?_, open'⟩
    have after := counts.setOpenfile range (List.mem_range.mp (List.mem_of_find?_eq_some found)) (some f)
    rw [empty, one_none, add_zero, add_sub_cancel_right] at after
    exact after

theorem openInode_counts (range : p < numIds) :
    (openInode ip omode).Acts watch anyhow p (Counts (extra + one ip) spare) fun _ => Counts extra spare := by
  refine .bind fileAlloc_counts fun found => ?_
  cases found with
  | none =>
    refine .seq (inodeUnlockput_counts.strengthen ?_) .same
    rintro s ⟨counts, -⟩
    rw [one_none, add_zero] at counts
    exact counts
  | some f =>
    refine .bind ((fdalloc_counts range).strengthen fun s given => ⟨given.1, given.2 f rfl⟩) fun fd => ?_
    cases fd with
    | none =>
      exact .seq fileClose_counts <| .seq inodeUnlockput_counts .same
    | some fd =>
      refine .seq (still_does inodeUnlock_refs ?_) <| .seq (.modify ?_) .same
      · rintro s t ⟨counts, used, type⟩ same
        rw [(same.file f).1, (same.file f).2.1]
        exact ⟨counts.same same, used, type⟩
      · rintro s ⟨counts, used, type⟩
        refine counts.setFile ?_ (fun _ _ => rfl) ?_ ?_
        · simp
        · exact fun none => absurd used (not_lt.mpr none)
        · intro i
          simp [File.PointsTo, used, type, one]

/-! ## The calls -/

abbrev Exact : State → Prop := Counts 0 0

theorem nonneg_zero (i : Fin ninode) : (0 : Int) ≤ (0 : Fin ninode → Int) i := le_refl 0

theorem one_nonneg (ip : Slot) (i : Fin ninode) : 0 ≤ (0 + one ip) i := by
  simp only [Pi.add_apply, Pi.zero_apply, one]
  split <;> decide

theorem sysOpen_exact (range : p < numIds) :
    (sysOpen path omode).Acts watch anyhow p Exact fun _ => Exact := by
  refine .get fun _ => .seq (Q := fun _ => Exact) ?_ <| .both ?_ ?_
  · refine .both (.seq (counts_does ?_) <| counts_does (cache_refs logInit_step)) .same
    exact .modify fun _ => ⟨fun _ => ⟨rfl, rfl, rfl⟩, fun _ => ⟨rfl, rfl, rfl⟩, rfl, rfl⟩
  · refine .seq (counts_does (cache_refs beginTrans_step)) <| .bind (create_counts range nonneg_zero) fun ip =>
      .seq (counts_does (cache_refs commitTrans_step)) <| .ite (fun null => .pure ?_) fun _ =>
      openInode_counts range
    rw [null]
    exact fun _ => Counts.of_null
  · refine .bind (namei_counts range nonneg_zero) fun ip => .ite (fun null => .pure ?_) fun _ =>
      .seq (counts_does inodeLock_refs) <| .get fun _ => .both ?_ <| openInode_counts range
    · rw [null]
      exact fun _ => Counts.of_null
    · exact .seq inodeUnlockput_counts .same

theorem sysClose_exact (range : p < numIds) : (sysClose fd).Acts watch anyhow p Exact fun _ => Exact := by
  refine .self (.read fun t counts => .ite (fun _ => .pure fun s same => same ▸ counts) fun small => ?_)
  cases found : t.openfile p fd with
  | none => exact .pure fun s same => same ▸ counts
  | some f =>
    have closes : (fileClose f).Acts watch anyhow p
        (fun s => Counts 0 (-one (some f) + one (some f)) s ∧ s.openfiles p fd.toNat = some f)
        fun _ s => Counts 0 (-one (some f)) s ∧ s.openfiles p fd.toNat = some f :=
      fileClose_counts.also fileClose_tables drive_tables fun s t here same => by rw [same.openfiles]; exact here
    refine .seq (closes.strengthen ?_) <| .seq (.modify ?_) .same
    · rintro s rfl
      rw [neg_add_cancel]
      exact ⟨counts, found⟩
    · rintro s ⟨counts, here⟩
      have after := counts.setOpenfile range (not_le.mp small) none
      rw [here, one_none, sub_zero, neg_add_cancel] at after
      exact after

theorem sysMkdir_exact (range : p < numIds) : (sysMkdir path).Acts watch anyhow p Exact fun _ => Exact := by
  refine .seq (counts_does (cache_refs beginTrans_step)) <| .bind (create_counts range nonneg_zero) fun ip =>
    .ite (fun null => .seq (counts_does (cache_refs commitTrans_step)) <| .pure ?_) fun _ =>
    .seq inodeUnlockput_counts <| .seq (counts_does (cache_refs commitTrans_step)) .same
  rw [null]
  exact fun _ => Counts.of_null

theorem sysChdir_exact (range : p < numIds) : (sysChdir path).Acts watch anyhow p Exact fun _ => Exact := by
  refine .self (.bind (namei_counts range nonneg_zero) fun ip => .ite (fun null => .pure ?_) fun _ =>
    .seq (counts_does inodeLock_refs) <| .get fun _ => .both ?_ ?_)
  · rw [null]
    exact fun _ => Counts.of_null
  · exact .seq inodeUnlockput_counts .same
  · refine .seq (counts_does inodeUnlock_refs) <| .read fun t counts => ?_
    -- the old directory is put first, and is still the working directory then
    have puts : (inodePut (t.cwd p)).Acts watch anyhow p
        (fun s => Counts (0 + one ip - one (t.cwd p) + one (t.cwd p)) 0 s ∧ s.cwd p = t.cwd p)
        fun _ s => Counts (0 + one ip - one (t.cwd p)) 0 s ∧ s.cwd p = t.cwd p :=
      inodePut_counts.also inodePut_tables drive_tables fun s u here same => by rw [same.cwd]; exact here
    refine .seq (puts.strengthen ?_) <| .seq (.modify ?_) .same
    · rintro s rfl
      rw [sub_add_cancel]
      exact ⟨counts, rfl⟩
    · rintro s ⟨counts, here⟩
      have after := counts.setCwd range ip
      rw [here, sub_add_cancel, add_sub_cancel_right] at after
      exact after

theorem undoLink_exact : (undoLink ip).Acts watch anyhow p (Counts (0 + one ip) 0) fun _ => Exact :=
  .seq (counts_does inodeLock_refs) <| .seq (counts_does (modifyInode_refs fun _ => ⟨rfl, rfl, rfl⟩)) <|
    .seq (counts_does inodeUpdate_refs) <| .seq inodeUnlockput_counts <|
    .seq (counts_does (cache_refs commitTrans_step)) .same

theorem finishLink_exact {ip : Slot} {linked : Bool} :
    (finishLink ip dp linked).Acts watch anyhow p (Counts (0 + one ip + one dp) 0) fun _ => Exact :=
  .seq inodeUnlockput_counts <| .both (.seq inodePut_counts <|
    .seq (counts_does (cache_refs commitTrans_step)) .same) undoLink_exact

theorem sysLink_exact {old new : List Byte} (range : p < numIds) :
    (sysLink old new).Acts watch anyhow p Exact fun _ => Exact := by
  refine .bind (namei_counts range nonneg_zero) fun ip => .ite (fun null => .pure ?_) fun _ =>
    .seq (counts_does (cache_refs beginTrans_step)) <| .seq (counts_does inodeLock_refs) <|
    .get fun _ => .both ?_ ?_
  · rw [null]
    exact fun _ => Counts.of_null
  · exact .seq inodeUnlockput_counts <| .seq (counts_does (cache_refs commitTrans_step)) .same
  · refine .seq (counts_does (modifyInode_refs fun _ => ⟨rfl, rfl, rfl⟩)) <|
      .seq (counts_does inodeUpdate_refs) <| .seq (counts_does inodeUnlock_refs) <|
      .bind (namex_counts range (one_nonneg ip)) fun found => ?_
    obtain ⟨dp, name⟩ := found
    refine .ite (fun null => undoLink_exact.strengthen ?_) fun _ => .seq (counts_does inodeLock_refs) <|
      .get fun _ => .both (.seq (.same) finishLink_exact) <|
      .seq dirLink_counts finishLink_exact
    rw [show dp = none from null]
    exact fun _ => Counts.of_null

theorem undoUnlink_exact : (undoUnlink dp).Acts watch anyhow p (Counts (0 + one dp) 0) fun _ => Exact :=
  .seq inodeUnlockput_counts <| .seq (counts_does (cache_refs commitTrans_step)) .same

theorem removeEntry_exact {ip : Slot} {off : Word} {empty : Bool} :
    (removeEntry dp ip off empty).Acts watch anyhow p (Counts (0 + one dp + one ip) 0) fun _ => Exact := by
  refine .both (.seq inodeUnlockput_counts undoUnlink_exact) <|
    .seq (counts_does inodeWrite_refs) <| .both stop_does <| .get fun _ =>
    .seq (counts_does (.both (.seq (modifyInode_refs fun _ => ⟨rfl, rfl, rfl⟩) inodeUpdate_refs)
      .pure)) ?_
  rw [add_right_comm]
  exact .seq inodeUnlockput_counts <| .seq (counts_does (modifyInode_refs fun _ => ⟨rfl, rfl, rfl⟩)) <|
    .seq (counts_does inodeUpdate_refs) <| .seq inodeUnlockput_counts <|
    .seq (counts_does (cache_refs commitTrans_step)) .same

theorem sysUnlink_exact (range : p < numIds) : (sysUnlink path).Acts watch anyhow p Exact fun _ => Exact := by
  refine .bind (namex_counts range nonneg_zero) fun parent => ?_
  obtain ⟨dp, name⟩ := parent
  refine .ite (fun null => .pure ?_) fun _ => .seq (counts_does (cache_refs beginTrans_step)) <|
    .seq (counts_does inodeLock_refs) <| .both undoUnlink_exact <|
    .bind dirLookup_counts fun found => ?_
  · rw [show dp = none from null]
    exact fun _ => Counts.of_null
  · obtain ⟨ip, off⟩ := found
    refine .ite (fun null => undoUnlink_exact.strengthen ?_) fun _ => .seq (counts_does inodeLock_refs) <|
      .get fun _ => .both stop_does <| .both ?_ ?_
    · rw [show ip = none from null]
      exact fun _ => Counts.of_null
    · exact .seq (counts_does (isdiremptyLoop_refs _ _)) removeEntry_exact
    · exact .seq (.same) removeEntry_exact

theorem readLocked_refs : (readLocked fd userBuf n).Within SameRefs := by
  refine .self fun q => ?_
  cases badArgs fd userBuf n with
  | some e => exact .pure
  | none =>
    refine .get fun t => ?_
    cases t.inodeFile q fd with
    | none => exact .pure
    | some f =>
      refine .bind fileRead_refs fun read => ?_
      cases read <;> exact .pure

theorem writeLocked_refs {data : List Byte} :
    (writeLocked fd userBuf n data).Within SameRefs := by
  refine .self fun q => ?_
  cases badArgs fd userBuf n with
  | some e => exact .pure
  | none =>
    refine .get fun t => ?_
    cases t.inodeFile q fd with
    | none => exact .pure
    | some f => exact .seq fileWrite_refs <| .both .pure .pure

theorem sysFstat_refs {userStp : Word} : (sysFstat fd userStp).Within SameRefs := by
  refine .self fun q => .get fun t => .both .pure ?_
  cases t.openfile q fd with
  | none => exact .pure
  | some f =>
    refine .bind fileStat_refs fun st => ?_
    cases st <;> exact .pure

theorem sysLs_exact {bufLen : Word} {stack : List Byte} (range : p < numIds) :
    (sysLs bufLen stack).Acts watch anyhow p Exact fun _ => Exact := by
  refine .bind (Q := fun _ => Exact) (.self (.read fun t counts => .ite (fun unset => ?_) fun _ => ?_)) fun dp =>
    .seq (counts_does inodeLock_refs) <| .seq (counts_does (lsLoop_refs _ _)) <|
    .seq (counts_does inodeUnlock_refs) .same
  · have gets : (inodeGet rootdev rootino).Acts watch anyhow p (fun s => Exact s ∧ s.cwd p = none)
        fun ip s => Counts (0 + one ip) 0 s ∧ s.cwd p = none :=
      inodeGet_counts.also inodeGet_tables drive_tables fun s u here same => by rw [same.cwd]; exact here
    refine .bind (gets.strengthen ?_) fun ip => .seq (.modify ?_) .same
    · rintro s rfl
      exact ⟨counts, unset⟩
    · rintro s ⟨counts, here⟩
      have after := counts.setCwd range ip
      rw [here, one_none, add_zero, add_sub_cancel_right] at after
      exact after
  · exact .pure fun s same => same ▸ counts

theorem sysIsDir_refs : (sysIsDir fd).Within SameRefs := by
  refine .self fun q => .get fun t => .both .stop ?_
  cases t.inodeFile q fd with
  | none => exact .pure
  | some f => exact .seq .note .pure

theorem sysKill_refs {pid signum : Word} : (sysKill pid signum).Within SameRefs := by
  refine .get fun t => .both .pure <| .both .pure <| .both ?_ ?_
  · exact .seq (.modify fun _ => ⟨fun _ => ⟨rfl, rfl, rfl⟩, fun _ => ⟨rfl, rfl, rfl⟩, rfl, rfl⟩) <|
      .seq .note .pure
  · cases t.thread pid.toNat with
    | asleep chan => exact .seq (cache_refs threadWakeup_step) .pure
    | _ => exact .seq .pure .pure

theorem trap_exact {c : Trap} (range : p < numIds) (balanced : ∀ stack, c ≠ .pwd stack) :
    (trap c).Acts watch anyhow p Exact fun _ => Exact := by
  cases c with
  | read fd userBuf n =>
    exact .seq (counts_does (cache_refs acquire_step)) <| .seq (counts_does readLocked_refs) <|
      .seq (counts_does (cache_refs release_step)) .same
  | write fd userBuf n data =>
    exact .seq (counts_does (cache_refs acquire_step)) <| .seq (counts_does writeLocked_refs) <|
      .seq (counts_does (cache_refs release_step)) .same
  | close fd => exact sysClose_exact range
  | fstat fd userStp => exact counts_does sysFstat_refs
  | link old new => exact sysLink_exact range
  | unlink path => exact sysUnlink_exact range
  | «open» path omode => exact sysOpen_exact range
  | mkdir path => exact sysMkdir_exact range
  | chdir path => exact sysChdir_exact range
  | ls bufLen stack => exact sysLs_exact range
  | pwd stack => exact absurd rfl (balanced stack)
  | isDir fd => exact counts_does sysIsDir_refs
  | kill pid signum => exact counts_does sysKill_refs
  | ideIntr error => exact .seq (counts_does ideIntr_refs) .same

theorem call_exact {c : Nat × Trap} (range : c.1 < numIds) (balanced : ∀ stack, c.2 ≠ .pwd stack) (counts : Exact s)
    (done : call s c = .ok t) : Exact t := by
  cases call_cases done with
  | inl same => exact same ▸ counts
  | inr result =>
    obtain ⟨-, reply, returned⟩ := result
    exact (trap_exact range balanced s counts).of_ok returned

section Boot

variable (disk : Disk) (live : Nat → Bool) (null : Inode) (devsw : Nat → Bool × Bool) (eax : Nat → Word)

theorem boot_exact : Exact (boot disk live null devsw eax) where
  inodes i := by
    simp [boot, State.fileRefs, File.PointsTo, State.cwdRefs]
  files f := by
    simp [boot, State.fdRefs]
  closed f := by
    simp [boot]
  distinct i j := by
    simp [boot]

theorem boot_between : Between (boot disk live null devsw eax) := by
  have settled := booted_settled disk live null devsw eax
  exact ⟨[], settled.inv, settled.seated⟩

/-- Between calls the counters are exact, the cache has no inode twice, and nothing is left busy. Of all the calls only
`sys_pwd` keeps references that nothing points to. -/
theorem run_references (cs : List (Nat × Trap)) (calls : ∀ c ∈ cs, c.1 < numIds ∧ ∀ stack, c.2 ≠ .pwd stack) (t : State)
    (completed : run call (boot disk live null devsw eax) cs = .ok t) :
    (∀ i, (t.inode (some i)).ref = t.fileRefs i + t.cwdRefs i) ∧
    (∀ f, (t.file f).ref = t.fdRefs f) ∧
    (∀ i j, 0 < (t.inode (some i)).ref → 0 < (t.inode (some j)).ref → (t.inode (some i)).dev = (t.inode (some j)).dev →
      (t.inode (some i)).inum = (t.inode (some j)).inum → i = j) ∧
    (∀ i, (t.inode (some i)).busy = false) ∧ ∀ b, (t.buf b).busy = false := by
  have start : Between (boot disk live null devsw eax) ∧ Exact (boot disk live null devsw eax) :=
    ⟨boot_between disk live null devsw eax, boot_exact disk live null devsw eax⟩
  obtain ⟨between, counts⟩ := run_invariant (fun s => Between s ∧ Exact s)
    (fun s c s' inv given done => ⟨call_between inv.1 done, call_exact given.1 given.2 inv.2 done⟩)
    start (along_of_forall calls _) completed
  refine ⟨?_, ?_, counts.distinct, fun i => between.free (.inode (some i)), fun b => between.free (.buf b)⟩
  · intro i
    have exact := counts.inodes i
    rw [Pi.zero_apply, add_zero] at exact
    exact exact
  · intro f
    have exact := counts.files f
    rw [Pi.zero_apply, add_zero] at exact
    exact exact

end Boot

def referenceCalls : List (Nat × Trap) :=
  [(1, .ls 100 []), (1, .open [47, 102] 2), (1, .unlink [102]), (1, .mkdir [120])]

theorem run_references_unlinked :
    Reaches (run call sampleKernel.state referenceCalls) fun t =>
      t.fileRefs 1 = 1 ∧ (t.inode (some 1)).nlink = 0 ∧ t.cwdRefs 0 = 1 ∧
        (t.inode (some 1)).ref = t.fileRefs 1 + t.cwdRefs 1 := by
  have reaches : Reaches (run call sampleKernel.state referenceCalls) fun t =>
      t.fileRefs 1 = 1 ∧ (t.inode (some 1)).nlink = 0 ∧ t.cwdRefs 0 = 1 := by decide +kernel
  obtain ⟨t, reached, file, links, cwd⟩ := reaches
  refine ⟨t, reached, file, links, cwd, ?_⟩
  exact (run_references _ _ _ _ _ referenceCalls (by simp [referenceCalls]) t reached).1 1

end Certikos.FileSys
