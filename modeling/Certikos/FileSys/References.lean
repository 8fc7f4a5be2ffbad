import Certikos.FileSys.Runs
import Certikos.FileSys.Sequence

/-!
# Reference counts

Every entry of the inode cache counts the open files and working directories that point to it, and every open file the
descriptors.
-/

namespace Certikos.FileSys
open Lib Function
open Fs (nbuf Block Buf rootdev Disk)

def File.PointsTo (x : File) (i : Fin ninode) : Prop := 0 < x.ref ∧ x.type = .inode ∧ x.ip = some i
deriving Decidable

def State.fileRefs (s : State) (i : Fin ninode) : Nat := (List.finRange nfile).countP fun f => (s.file f).PointsTo i

def State.cwdRefs (s : State) (i : Fin ninode) : Nat := (List.range numIds).countP fun q => s.cwd q = some i

def State.fdRefs (s : State) (f : Fin nfile) : Nat :=
  (List.range numIds ×ˢ List.range nofile).countP fun d => s.openfiles d.1 d.2 = some f

structure Counts (extra : Fin ninode → Int) (spare : Fin nfile → Int) (s : State) : Prop where
  inodes : ∀ i, (s.inode (some i)).ref = s.fileRefs i + s.cwdRefs i + extra i
  files : ∀ f, (s.file f).ref = s.fdRefs f + spare f
  closed : ∀ f, (s.file f).ref ≤ 0 → (s.file f).type ≠ .inode
  distinct : ∀ i j, 0 < (s.inode (some i)).ref → 0 < (s.inode (some j)).ref →
    (s.inode (some i)).dev = (s.inode (some j)).dev → (s.inode (some i)).inum = (s.inode (some j)).inum → i = j

def one {n : Nat} (ip : Option (Fin n)) : Fin n → Int := fun i => if ip = some i then 1 else 0

variable {n : Nat} {x : KernM α} {off inum : Word} {type major minor : BitVec 16} {nameiparent : Bool}

@[simp] theorem one_none : one (none : Option (Fin n)) = 0 := rfl

@[simp] theorem one_self {i : Fin n} : one (some i) i = 1 := if_pos rfl

theorem one_of_ne {ip : Option (Fin n)} {i : Fin n} (ne : ip ≠ some i) : one ip i = 0 := if_neg ne

/-! ## What moves no reference -/

structure SameRefs (s t : State) : Prop where
  inode : ∀ ip, (t.inode ip).ref = (s.inode ip).ref ∧ (t.inode ip).dev = (s.inode ip).dev ∧
    (t.inode ip).inum = (s.inode ip).inum
  file : ∀ f, (t.file f).ref = (s.file f).ref ∧ (t.file f).type = (s.file f).type ∧ (t.file f).ip = (s.file f).ip
  openfiles : t.openfiles = s.openfiles
  cwd : t.cwd = s.cwd

instance instPreorderSameRefs : IsPreorder State SameRefs where
  refl _ := ⟨fun _ => ⟨rfl, rfl, rfl⟩, fun _ => ⟨rfl, rfl, rfl⟩, rfl, rfl⟩
  trans s t u first second := by
    refine ⟨?_, ?_, second.openfiles.trans first.openfiles, second.cwd.trans first.cwd⟩
    · intro ip
      simp only [second.inode, first.inode, and_self]
    · intro f
      simp only [second.file, first.file, and_self]

variable {extra : Fin ninode → Int} {spare : Fin nfile → Int} {s t : State} {p : Nat}
  {watch : Note → Bool}

theorem Counts.same (counts : Counts extra spare s) (same : SameRefs s t) : Counts extra spare t where
  inodes i := by
    simp only [State.fileRefs, File.PointsTo, State.cwdRefs, same.inode, same.file, same.cwd]
    exact counts.inodes i
  files f := by
    simp only [State.fdRefs, same.file, same.openfiles]
    exact counts.files f
  closed f := by
    simp only [same.file]
    exact counts.closed f
  distinct i j := by
    simp only [same.inode]
    exact counts.distinct i j

theorem CacheStep.sameRefs (step : CacheStep s t) : SameRefs s t := by
  refine ⟨?_, ?_, step.openfiles, step.cwd⟩
  · rw [step.inode]
    exact fun _ => ⟨rfl, rfl, rfl⟩
  · rw [step.file]
    exact fun _ => ⟨rfl, rfl, rfl⟩

variable {ip : Slot} {dp : Slot} {f : Fin nfile} {name : List Byte} {dev : Word} {path : List Byte} {α : Type}

theorem cache_refs (step : x.Within CacheStep) : x.Within SameRefs :=
  step.mono fun _ _ => CacheStep.sameRefs

theorem modifyInode_refs {f : Inode → Inode}
    (same : ∀ x, (f x).ref = x.ref ∧ (f x).dev = x.dev ∧ (f x).inum = x.inum) :
    (modifyInode ip f).Within SameRefs := by
  refine .modify fun s => ⟨?_, fun _ => ⟨rfl, rfl, rfl⟩, rfl, rfl⟩
  intro ip'
  by_cases here : ip' = ip
  · rw [here]
    simpa [State.setInode] using same (s.inode ip)
  · simp [State.setInode, here]

theorem modifyFile_refs {g : File → File}
    (same : ∀ x, (g x).ref = x.ref ∧ (g x).type = x.type ∧ (g x).ip = x.ip) : (modifyFile f g).Within SameRefs := by
  refine .modify fun s => ⟨fun _ => ⟨rfl, rfl, rfl⟩, ?_, rfl, rfl⟩
  intro f'
  by_cases here : f' = f
  · rw [here]
    simpa [State.setFile] using same (s.file f)
  · simp [State.setFile, here]

theorem blockZero_refs {dev bno : Word} : (blockZero dev bno).Within SameRefs :=
  .seq (cache_refs bufcacheRead_step) <| .seq (cache_refs modifyData_step) <|
    .seq (cache_refs logWrite_step) <| cache_refs bufcacheRelease_step

variable (fuel : Nat)

theorem blockAllocLoop_refs {sb : Superblock} (b : Nat) : (blockAllocLoop dev sb fuel b).Within SameRefs := by
  induction fuel generalizing b with
  | zero => exact .stop
  | succ fuel ih =>
    refine .both (.bind (cache_refs bufcacheRead_step) fun bp => .get fun t => ?_) ?_
    · cases freeBit (t.buf bp).data b sb.size with
      | some bi =>
        exact .seq .note <| .seq (cache_refs modifyData_step) <| .seq (cache_refs logWrite_step) <|
          .seq (cache_refs bufcacheRelease_step) <| .seq blockZero_refs .pure
      | none => exact .seq (cache_refs bufcacheRelease_step) <| ih (b + bpb)
    · exact .seq .note <| .get fun _ =>
        .seq (.modify fun _ => ⟨fun _ => ⟨rfl, rfl, rfl⟩, fun _ => ⟨rfl, rfl, rfl⟩, rfl, rfl⟩) .pure

theorem blockAlloc_refs : (blockAlloc dev).Within SameRefs :=
  .seq (cache_refs readSuperblock_step) <| blockAllocLoop_refs _ _

theorem blockFree_refs {dev b : Word} : (blockFree dev b).Within SameRefs :=
  .seq (cache_refs readSuperblock_step) <| .seq (cache_refs bufcacheRead_step) <| .get fun _ =>
    .both .stop <| .seq (cache_refs modifyData_step) <| .seq (cache_refs logWrite_step) <|
      cache_refs bufcacheRelease_step

theorem inodeUpdate_refs : (inodeUpdate ip).Within SameRefs :=
  .get fun _ => .seq (cache_refs bufcacheRead_step) <| .get fun _ => .seq (cache_refs modifyData_step) <|
    .seq (cache_refs logWrite_step) <| cache_refs bufcacheRelease_step

theorem inodeLock_refs : (inodeLock ip).Within SameRefs := by
  refine .get fun _ => .both .stop <| .seq (cache_refs acquire_step) <| .seq .note <|
    .seq (cache_refs sleepWhile_step) <| .seq (modifyInode_refs fun _ => ⟨rfl, rfl, rfl⟩) <|
    .seq .note <| .seq (cache_refs release_step) <| .get fun _ => .both ?_ .pure
  refine .seq (cache_refs bufcacheRead_step) <| .get fun _ =>
    .seq (modifyInode_refs fun _ => ⟨rfl, rfl, rfl⟩) <| .seq (cache_refs bufcacheRelease_step) <|
    .seq (modifyInode_refs fun _ => ⟨rfl, rfl, rfl⟩) <| .get fun _ => ?_
  exact .both .stop .pure

theorem inodeUnlock_refs : (inodeUnlock ip).Within SameRefs :=
  .get fun _ => .both .stop <| .seq (cache_refs acquire_step) <|
    .seq (modifyInode_refs fun _ => ⟨rfl, rfl, rfl⟩) <| .seq .note <|
      .seq (cache_refs threadWakeup_step) <| cache_refs release_step

theorem inodeTrunc_refs : (inodeTrunc ip).Within SameRefs := by
  refine .seq (.forLoop fun i _ => ?_) <| .get fun _ => .seq (.both ?_ .pure) ?_
  · exact .get fun _ => .both (.seq blockFree_refs <| modifyInode_refs fun _ => ⟨rfl, rfl, rfl⟩)
      .pure
  · refine .bind (cache_refs bufcacheRead_step) fun bp => .seq (.forLoop fun j _ => ?_) <|
      .seq (cache_refs bufcacheRelease_step) <| .get fun _ => .seq blockFree_refs <|
        modifyInode_refs fun _ => ⟨rfl, rfl, rfl⟩
    exact .get fun _ => .both blockFree_refs .pure
  · exact .seq (modifyInode_refs fun _ => ⟨rfl, rfl, rfl⟩) inodeUpdate_refs

theorem bmap_refs {bn : Word} : (bmap ip bn).Within SameRefs := by
  refine .get fun _ => .both ?_ <| .both ?_ .stop
  · exact .both (.seq .note <| .seq blockAlloc_refs <|
      .seq (modifyInode_refs fun _ => ⟨rfl, rfl, rfl⟩) .pure) .pure
  · refine .seq (.both (.seq .note <| .seq blockAlloc_refs <|
      modifyInode_refs fun _ => ⟨rfl, rfl, rfl⟩) .pure) <| .get fun _ =>
      .seq (cache_refs bufcacheRead_step) <| .get fun _ => .both ?_ ?_
    · exact .seq .note <| .seq blockAlloc_refs <| .seq (cache_refs modifyData_step) <|
        .seq (cache_refs logWrite_step) <| .seq (cache_refs bufcacheRelease_step) .pure
    · exact .seq (cache_refs bufcacheRelease_step) .pure

theorem inodeReadLoop_refs (off : Word) (left : Nat) :
    (inodeReadLoop ip fuel off left).Within SameRefs := by
  induction fuel generalizing off left with
  | zero => exact .both .pure .stop
  | succ fuel ih =>
    exact .both .pure <| .seq bmap_refs <| .get fun _ =>
      .seq (cache_refs bufcacheRead_step) <| .get fun _ => .seq (cache_refs bufcacheRelease_step) <|
        .seq (ih _ _) .pure

theorem inodeRead_refs {n : Word} : (inodeRead ip off n).Within SameRefs :=
  .get fun _ => .both (.both .pure .stop) <| .both .pure <|
    .seq (inodeReadLoop_refs _ _ _) .pure

theorem inodeWriteLoop_refs (off : Word) (src : List Byte) :
    (inodeWriteLoop ip fuel off src).Within SameRefs := by
  induction fuel generalizing off src with
  | zero => exact .both .pure .stop
  | succ fuel ih =>
    exact .both .pure <| .seq bmap_refs <| .get fun _ =>
      .seq (cache_refs bufcacheRead_step) <| .seq (cache_refs modifyData_step) <|
        .seq (cache_refs logWrite_step) <| .seq (cache_refs bufcacheRelease_step) <| ih _ _

theorem inodeWrite_refs {src : List Byte} : (inodeWrite ip src off).Within SameRefs := by
  refine .get fun _ => .both (.both .pure .stop) <| .both .pure <|
    .both .pure <| .seq (inodeWriteLoop_refs _ _ _) <| .get fun _ => .seq ?_ .pure
  exact .both (.seq (modifyInode_refs fun _ => ⟨rfl, rfl, rfl⟩) inodeUpdate_refs) .pure

theorem emptyDirent_refs (off : Word) : (emptyDirent dp fuel off).Within SameRefs := by
  induction fuel generalizing off with
  | zero => exact .stop
  | succ fuel ih =>
    refine .get fun _ => .both (.bind inodeRead_refs fun read => ?_) .pure
    cases read with
    | none => exact .stop
    | some de => exact .both .stop <| .both .pure <| ih _

theorem isdiremptyLoop_refs (off : Word) : (isdiremptyLoop dp fuel off).Within SameRefs := by
  induction fuel generalizing off with
  | zero => exact .stop
  | succ fuel ih =>
    refine .get fun _ => .both (.bind inodeRead_refs fun read => ?_) .pure
    cases read with
    | none => exact .stop
    | some de => exact .both .stop <| .both .pure <| ih _

theorem lsLoop_refs {stack : List Byte} (off : Word) : (lsLoop dp stack fuel off).Within SameRefs := by
  induction fuel generalizing off with
  | zero => exact .stop
  | succ fuel ih =>
    refine .get fun _ => .both (.bind inodeRead_refs fun read => ?_) .pure
    cases read with
    | none => exact .seq inodeUnlock_refs .stop
    | some de =>
      exact .both (.seq inodeUnlock_refs .stop) <| .seq (ih _) <|
        .both .pure .pure

theorem fileStat_refs : (fileStat f).Within SameRefs :=
  .get fun _ => .both (.seq inodeLock_refs <| .get fun _ => .seq inodeUnlock_refs .pure)
    .pure

theorem fileRead_refs {n : Word} : (fileRead f n).Within SameRefs := by
  refine .get fun _ => .both .pure <| .both ?_ .stop
  exact .seq inodeLock_refs <| .get fun _ => .seq inodeRead_refs <|
    .seq (modifyFile_refs fun _ => ⟨rfl, rfl, rfl⟩) <| .seq inodeUnlock_refs .pure

theorem fileWriteLoop_refs (data : List Byte) : (fileWriteLoop f fuel data).Within SameRefs := by
  induction fuel generalizing data with
  | zero => exact .both .pure .stop
  | succ fuel ih =>
    refine .both .pure <| .seq (cache_refs beginTrans_step) <| .get fun _ =>
      .seq inodeLock_refs <| .get fun _ => .seq inodeWrite_refs <| .seq ?_ <|
      .seq inodeUnlock_refs <| .seq (cache_refs commitTrans_step) ?_
    · exact .both (modifyFile_refs fun _ => ⟨rfl, rfl, rfl⟩) .pure
    · exact .both (ih _) .pure

theorem fileWrite_refs {data : List Byte} : (fileWrite f data).Within SameRefs :=
  .get fun _ => .both .pure <| .both (fileWriteLoop_refs _ _) .stop

/-! ## The inode cache -/

abbrev anyhow : Cut Stop Note → Prop := fun _ => True

theorem ideIntr_refs {error : Bool} : (ideIntr error).Within SameRefs := by
  refine ideIntr_rest.mono ?_
  intro s t same
  refine ⟨?_, ?_, same.openfiles, same.cwd⟩
  · rw [same.inode]
    exact fun _ => ⟨rfl, rfl, rfl⟩
  · rw [same.file]
    exact fun _ => ⟨rfl, rfl, rfl⟩

theorem drive_refs (s : State) : SameRefs s (drive s) := drive_within ideIntr_refs s

theorem still_does {C : State → Prop} (within : x.Within SameRefs) (stable : ∀ s t, C s → SameRefs s t → C t) :
    x.Acts watch anyhow p C fun _ => C :=
  .of_within within drive_refs stable

theorem counts_does (within : x.Within SameRefs) :
    x.Acts watch anyhow p (Counts extra spare) fun _ => Counts extra spare :=
  still_does within fun _ _ counts => counts.same

theorem stop_does {e : Stop} {P : State → Prop} {Q : α → State → Prop} :
    (Code.stop e : KernM α).Does (watched watch) anyhow p P Q := .stop fun _ _ => trivial

theorem Counts.setInode {x : Inode} {extra' : Fin ninode → Int} (counts : Counts extra spare s)
    (ref : ∀ i, ip = some i → x.ref = (s.inode ip).ref + (extra' i - extra i))
    (others : ∀ i, ip ≠ some i → extra' i = extra i)
    (distinct : ∀ i j, ip = some i → j ≠ i → 0 < x.ref → 0 < (s.inode (some j)).ref →
      x.dev = (s.inode (some j)).dev → x.inum ≠ (s.inode (some j)).inum) : Counts extra' spare (s.setInode ip x) where
  inodes i := by
    have before := counts.inodes i
    by_cases here : ip = some i
    · have after := ref i here
      rw [here] at after
      show (update s.inode ip x (some i)).ref = s.fileRefs i + s.cwdRefs i + extra' i
      rw [here, update_self]
      omega
    · show (update s.inode ip x (some i)).ref = s.fileRefs i + s.cwdRefs i + extra' i
      rw [update_of_ne (Ne.symm here), others i here]
      exact before
  files := counts.files
  closed := counts.closed
  distinct i j := by
    by_cases first : some i = ip <;> by_cases second : some j = ip
    · intro _ _ _ _
      exact Option.some.inj (first.trans second.symm)
    · simp only [State.setInode, first, update_self, update_of_ne second]
      intro used used' dev inum
      by_contra ne
      exact distinct i j first.symm (Ne.symm ne) used used' dev inum
    · simp only [State.setInode, second, update_self, update_of_ne first]
      intro used used' dev inum
      by_contra ne
      exact distinct j i second.symm ne used' used dev.symm inum.symm
    · simp only [State.setInode, update_of_ne first, update_of_ne second]
      exact counts.distinct i j

theorem Counts.dup (counts : Counts extra spare s) (used : ∀ i, ip = some i → 0 < (s.inode ip).ref) :
    Counts (extra + one ip) spare (s.setInode ip { s.inode ip with ref := (s.inode ip).ref + 1 }) := by
  refine counts.setInode ?_ ?_ ?_
  · rintro i rfl
    simp
  · intro i ne
    simp [one_of_ne ne]
  · rintro i j rfl ne _ used' dev inum
    exact ne (counts.distinct i j (used i rfl) used' dev inum).symm

theorem inodeGet_counts {dev : Word} :
    (inodeGet dev inum).Acts watch anyhow p (Counts extra spare) fun ip => Counts (extra + one ip) spare := by
  refine .seq (counts_does (cache_refs acquire_step)) <| .read fun t counts => ?_
  cases found : t.cachedInode dev inum with
  | some i =>
    refine .noted (fun _ => trivial) fun _ => .seq (.modify ?_) <|
      .seq (counts_does (cache_refs release_step)) <| .pure fun _ post => post
    rintro _ rfl
    have used := List.find?_some found
    simp only [decide_eq_true_eq] at used
    exact counts.dup fun j _ => used.1
  | none =>
    cases free : t.emptyInode with
    | none => exact stop_does
    | some i =>
      refine .noted (fun _ => trivial) fun _ => .seq (.modify ?_) <|
        .seq (counts_does (cache_refs release_step)) <| .pure fun _ post => post
      rintro s rfl
      have unused := List.find?_some free
      have missing := List.find?_eq_none.mp found
      simp only [decide_eq_true_eq] at unused missing
      refine counts.setInode ?_ ?_ ?_
      · rintro j same
        rw [Option.some.injEq] at same
        subst same
        simp [unused]
      · intro j ne
        simp [one_of_ne ne]
      · rintro _ j _ _ _ used same other
        exact missing j (List.mem_finRange j) ⟨used, same.symm, other.symm⟩

theorem inodeDup_counts :
    (inodeDup ip).Acts watch anyhow p (fun s => Counts extra spare s ∧ ∀ i, ip = some i → 0 < (s.inode ip).ref)
      fun ip => Counts (extra + one ip) spare := by
  refine .seq (still_does (cache_refs acquire_step) ?_) <| .noted (fun _ => trivial) fun _ =>
    .seq (.modify fun s given => Counts.dup given.1 given.2) <|
    .seq (counts_does (cache_refs release_step)) <| .pure fun _ post => post
  intro s t given same
  refine ⟨given.1.same same, ?_⟩
  intro i here
  rw [(same.inode ip).1]
  exact given.2 i here

theorem inodePut_counts :
    (inodePut ip).Acts watch anyhow p (Counts (extra + one ip) spare) fun _ => Counts extra spare := by
  refine .seq (counts_does (cache_refs acquire_step)) <| .noted (fun _ => trivial) fun _ => .get fun t =>
    .seq (Q := fun _ => Counts (extra + one ip) spare) ?_ <| .seq (.modify ?_) <|
    counts_does (cache_refs release_step)
  · refine .both (.both stop_does ?_) .same
    refine counts_does ?_
    exact .seq .note <| .seq (modifyInode_refs fun _ => ⟨rfl, rfl, rfl⟩) <| .seq .note <|
      .seq (cache_refs release_step) <| .seq inodeTrunc_refs <|
      .seq (modifyInode_refs fun _ => ⟨rfl, rfl, rfl⟩) <| .seq inodeUpdate_refs <|
      .seq (cache_refs acquire_step) <| .seq (modifyInode_refs fun _ => ⟨rfl, rfl, rfl⟩) <|
      .seq .note <| cache_refs threadWakeup_step
  · intro s counts
    refine counts.setInode ?_ ?_ ?_
    · rintro i rfl
      simp [sub_eq_add_neg]
    · intro i ne
      simp [one_of_ne ne]
    · rintro i j rfl ne used used' dev inum
      have before : 0 < (s.inode (some i)).ref := by
        have used : 0 < (s.inode (some i)).ref - 1 := used
        omega
      exact ne (counts.distinct i j before used' dev inum).symm

theorem inodeUnlockput_counts :
    (inodeUnlockput ip).Acts watch anyhow p (Counts (extra + one ip) spare) fun _ => Counts extra spare :=
  .seq (counts_does inodeUnlock_refs) inodePut_counts

theorem inodeAllocLoop_counts {ninodes : Word} (inum : Word) :
    (inodeAllocLoop dev type ninodes fuel inum).Acts watch anyhow p (Counts extra spare)
      fun ip => Counts (extra + one ip) spare := by
  induction fuel generalizing inum with
  | zero => exact stop_does
  | succ fuel ih =>
    refine .both ?_ stop_does
    refine .seq (counts_does (cache_refs bufcacheRead_step)) <| .get fun _ => .both ?_ ?_
    · exact .seq (counts_does (cache_refs modifyData_step)) <|
        .seq (counts_does (cache_refs logWrite_step)) <|
        .seq (counts_does (cache_refs bufcacheRelease_step)) inodeGet_counts
    · exact .seq (counts_does (cache_refs bufcacheRelease_step)) <| ih _

theorem inodeAlloc_counts :
    (inodeAlloc dev type).Acts watch anyhow p (Counts extra spare) fun ip => Counts (extra + one ip) spare :=
  .seq (counts_does (cache_refs readSuperblock_step)) <| inodeAllocLoop_counts _ _

/-! ## Directories and paths -/

theorem Counts.null (counts : Counts extra spare s) : Counts (extra + one none) spare s := by
  rw [one_none, add_zero]
  exact counts

theorem Counts.of_null (counts : Counts (extra + one none) spare s) : Counts extra spare s := by
  rw [one_none, add_zero] at counts
  exact counts

theorem dirLookupLoop_counts (off : Word) :
    (dirLookupLoop dp name fuel off).Acts watch anyhow p (Counts extra spare)
      fun found => Counts (extra + one found.1) spare := by
  induction fuel generalizing off with
  | zero => exact stop_does
  | succ fuel ih =>
    refine .get fun _ => .both (.bind (counts_does inodeRead_refs) fun read => ?_) <|
      .pure fun _ => Counts.null
    cases read with
    | none => exact stop_does
    | some de =>
      exact .both stop_does <| .both (.get fun _ => .seq inodeGet_counts <|
        .pure fun _ post => post) <| ih _

theorem dirLookup_counts :
    (dirLookup dp name).Acts watch anyhow p (Counts extra spare) fun found => Counts (extra + one found.1) spare :=
  .get fun _ => .both stop_does <| dirLookupLoop_counts _ _

theorem dirLink_counts :
    (dirLink dp name inum).Acts watch anyhow p (Counts extra spare) fun _ => Counts extra spare := by
  refine .bind dirLookup_counts fun found => ?_
  obtain ⟨ip, off⟩ := found
  cases ip with
  | some i => exact .seq inodePut_counts .same
  | none =>
    refine .strengthen ?_ fun _ => Counts.of_null
    exact .seq (counts_does (emptyDirent_refs _ _)) <| .get fun _ => .noted (fun _ => trivial) fun _ =>
      .seq (counts_does inodeWrite_refs) <| .both .same stop_does

theorem namexLoop_counts (ip : Slot) (path name : List Byte) :
    (namexLoop nameiparent fuel ip path name).Acts watch anyhow p (Counts (extra + one ip) spare)
      fun found => Counts (extra + one found.1) spare := by
  induction fuel generalizing ip path name with
  | zero => exact stop_does
  | succ fuel ih =>
    unfold namexLoop
    cases skipelem path with
    | none =>
      exact .both (.seq inodePut_counts <| .pure fun _ => Counts.null) <|
        .pure fun _ post => post
    | some rest =>
      obtain ⟨path, name⟩ := rest
      refine .seq (counts_does inodeLock_refs) <| .get fun _ => .both ?_ <|
        .both ?_ ?_
      · exact .seq inodeUnlockput_counts <| .pure fun _ => Counts.null
      · exact .seq (counts_does inodeUnlock_refs) <| .pure fun _ post => post
      · refine .bind dirLookup_counts fun subdir => ?_
        obtain ⟨sub, off⟩ := subdir
        have put : (inodeUnlockput ip).Acts watch anyhow p (Counts (extra + one ip + one sub) spare)
            fun _ => Counts (extra + one sub) spare := by
          rw [add_right_comm]
          exact inodeUnlockput_counts
        refine .seq put <| .ite (fun null => .pure ?_) fun _ => ih sub path name
        rw [show sub = none from null]
        exact fun _ counts => counts

theorem Counts.cwd_used (counts : Counts extra spare s) (positive : ∀ i, 0 ≤ extra i) (range : p < numIds)
    (i : Fin ninode) (here : s.cwd p = some i) : 0 < (s.inode (some i)).ref := by
  have counted : 0 < s.cwdRefs i :=
    List.countP_pos_iff.mpr ⟨p, List.mem_range.mpr range, decide_eq_true here⟩
  have exact := counts.inodes i
  have more := positive i
  omega

theorem namex_counts (range : p < numIds) (positive : ∀ i, 0 ≤ extra i) :
    (namex path nameiparent).Acts watch anyhow p (Counts extra spare)
      fun found => Counts (extra + one found.1) spare := by
  refine .self (.read fun t counts => .both ?_ ?_)
  · exact .bind (inodeGet_counts.strengthen fun s same => same ▸ counts) fun ip => namexLoop_counts _ _ _ _
  · refine .bind (inodeDup_counts.strengthen fun s same => ?_) fun ip => namexLoop_counts _ _ _ _
    rw [same]
    refine ⟨counts, ?_⟩
    intro i here
    rw [here]
    exact counts.cwd_used positive range i here

theorem namei_counts (range : p < numIds) (positive : ∀ i, 0 ≤ extra i) :
    (namei path).Acts watch anyhow p (Counts extra spare) fun ip => Counts (extra + one ip) spare :=
  .seq (namex_counts range positive) <| .pure fun _ post => post

theorem createNew_counts :
    (createNew dp name type major minor).Acts watch anyhow p (Counts (extra + one dp) spare)
      fun ip => Counts (extra + one ip) spare := by
  refine .get fun _ => .bind inodeAlloc_counts fun ip => .seq (counts_does inodeLock_refs) <|
    .seq (counts_does (modifyInode_refs fun _ => ⟨rfl, rfl, rfl⟩)) <|
    .seq (counts_does inodeUpdate_refs) <|
    .seq (Q := fun _ => Counts (extra + one dp + one ip) spare) ?_ ?_
  · refine .both (.seq (counts_does (modifyInode_refs fun _ => ⟨rfl, rfl, rfl⟩)) <|
      .seq (counts_does inodeUpdate_refs) <| .get fun _ => .seq dirLink_counts <|
      .both stop_does ?_) .same
    exact .get fun _ => .seq dirLink_counts <| .both stop_does .same
  · refine .get fun _ => .seq dirLink_counts <| .both stop_does ?_
    rw [add_right_comm]
    exact .seq inodeUnlockput_counts <| .pure fun _ post => post

theorem create_counts (range : p < numIds) (positive : ∀ i, 0 ≤ extra i) :
    (create path type major minor).Acts watch anyhow p (Counts extra spare)
      fun ip => Counts (extra + one ip) spare := by
  refine .bind (namex_counts range positive) fun parent => ?_
  obtain ⟨dp, name⟩ := parent
  refine .ite (fun null => .pure ?_) fun _ => .seq (counts_does inodeLock_refs) <|
    .bind dirLookup_counts fun found => ?_
  · rw [show dp = none from null]
    exact fun _ counts => counts
  · obtain ⟨ip, off⟩ := found
    cases ip with
    | none => exact createNew_counts.strengthen fun _ => Counts.of_null
    | some i =>
      have put : (inodeUnlockput dp).Acts watch anyhow p (Counts (extra + one dp + one (some i)) spare)
          fun _ => Counts (extra + one (some i)) spare := by
        rw [add_right_comm]
        exact inodeUnlockput_counts
      exact .seq put <| .seq (counts_does inodeLock_refs) <| .get fun _ =>
        .both (.pure fun _ post => post) <| .seq inodeUnlockput_counts <|
        .pure fun _ => Counts.null

end Certikos.FileSys
