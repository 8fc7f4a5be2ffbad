import Certikos.FileSys.Conduct

/-!
# How the system calls keep to the rules

Directories, paths, open files and the calls themselves, up to what a call holds when it returns: nothing.
-/

namespace Certikos.FileSys
open Lib

variable {p : Nat} {m : Mode} {H H' : List Resource} {ip dp : Slot}

/-! ## Directories and paths -/

variable {path : List Byte} {f : Fin nfile} {fuel : Nat} {off : Word} {name : List Byte} {stack : List Byte} {data :
  List Byte} {s : State}

section Paths

variable (ready : m.phase = .ready)
include ready

theorem dirLookupLoop_meets : Steady p m [] H (dirLookupLoop dp name fuel off) := by
  induction fuel generalizing off with
  | zero => exact stop_meets (by simp)
  | succ fuel ih =>
    refine .get fun s => .both ?_ .same
    refine (inodeRead_meets ready).bind fun read => ?_
    cases read with
    | none => exact kernPanic_meets (by decide)
    | some de =>
      refine .both (kernPanic_meets (by decide)) <| .both (.get fun s => ?_) ih
      exact (inodeGet_meets ready).seq .same

theorem dirLookup_meets : Steady p m [] H (dirLookup dp name) :=
  .get fun _ => .both (kernPanic_meets (by decide)) <| dirLookupLoop_meets ready

theorem emptyDirent_meets : Steady p m [] H (emptyDirent dp fuel off) := by
  induction fuel generalizing off with
  | zero => exact stop_meets (by simp)
  | succ fuel ih =>
    refine .get fun s => .both ?_ .same
    refine (inodeRead_meets ready).bind fun read => ?_
    cases read with
    | none => exact kernPanic_meets (by decide)
    | some de =>
      exact .both (kernPanic_meets (by decide)) <|
        .both .same ih

theorem dirLink_meets {inum : Word} (may : m.mayLog = true) : Steady p m [] H (dirLink dp name inum) := by
  refine (dirLookup_meets ready).bind fun found => .both ?_ ?_
  · exact (inodePut_meets ready).seq .same
  · refine (emptyDirent_meets ready).bind fun off => .get fun s => entry_noted.seq ?_
    refine (inodeWrite_meets ready may).bind fun written => ?_
    exact .both .same <| kernPanic_meets (by decide)

theorem namexLoop_meets {parent : Bool} {path name : List Byte} :
    Steady p m [] H (namexLoop parent fuel ip path name) := by
  induction fuel generalizing ip path name with
  | zero => exact stop_meets (by simp)
  | succ fuel ih =>
    unfold namexLoop
    cases skipelem path with
    | none =>
      refine .both ?_ .same
      exact (inodePut_meets ready).seq .same
    | some found =>
      refine (inodeLock_meets ready).seq <| .get fun s => .both ?_ <| .both ?_ ?_
      · exact (inodeUnlockput_last ready).seq .same
      · exact inodeUnlock_last.seq .same
      · refine (dirLookup_meets ready).bind fun subdir => ?_
        refine (inodeUnlockput_last ready).seq ?_
        exact .both .same ih

theorem namex_meets {parent : Bool} : Steady p m [] H (namex path parent) := by
  refine .self <| .get fun s => .both ?_ ?_
  · exact (inodeGet_meets ready).seq <| namexLoop_meets ready
  · exact (inodeDup_meets ready).seq <| namexLoop_meets ready

theorem namei_meets : Steady p m [] H (namei path) :=
  (namex_meets ready).seq .same

theorem nameiparent_meets : Steady p m [] H (nameiparent path) :=
  namex_meets ready

end Paths

/-! ## Open files -/

def Mode.outside (buffered : Bool) : Mode := ⟨buffered, false, false, .ready⟩

def Mode.inside (buffered : Bool) : Mode := ⟨buffered, true, true, .ready⟩

variable {buffered : Bool}

theorem begin_meets : beginTrans.Meets rules p (At p (.outside buffered) [] H) fun _ => At p (.inside buffered) [] H :=
  beginTrans_meets rfl

theorem commit_meets : commitTrans.Meets rules p (At p (.inside buffered) [] H) fun _ => At p (.outside buffered) [] H :=
  commitTrans_meets rfl rfl

theorem fileAlloc_meets : Steady p m [] H fileAlloc := by
  refine (acquire_meets (by simp)).seq <| .get fun s => ?_
  cases (List.finRange nfile).find? fun f => (s.file f).ref = 0 with
  | some f =>
    refine modifyFile_meets.seq <| (release_meets (by simp)).seq ?_
    exact .same
  | none => exact (release_meets (by simp)).seq .same

theorem fileClose_meets : Steady p (.outside buffered) [] H (fileClose f) := by
  refine (acquire_meets (by simp)).seq <| .get fun s => .both (kernPanic_meets (by decide)) ?_
  refine .both ?_ ?_
  · exact modifyFile_meets.seq <| release_meets (by simp)
  · refine modifyFile_meets.seq <| (release_meets (by simp)).seq <| .both ?_ ?_
    · exact begin_meets.seq <| (inodePut_meets rfl).seq commit_meets
    · exact .same

theorem fileStat_meets (ready : m.phase = .ready) : Steady p m [] H (fileStat f) := by
  refine .get fun s => .both ?_ .same
  refine (inodeLock_meets ready).seq <| .get fun s => ?_
  exact inodeUnlock_last.seq .same

variable {n fd userBuf omode : Word} {q : Nat} {type major minor : BitVec 16} {h : Notes}

theorem fileRead_meets (ready : m.phase = .ready) : Steady p m [] H (fileRead f n) := by
  refine .get fun s => .both .same <| .both ?_ ?_
  · refine (inodeLock_meets ready).seq <| .get fun s => (inodeRead_meets ready).bind fun read => ?_
    refine modifyFile_meets.seq <| inodeUnlock_last.seq ?_
    exact .same
  · exact kernPanic_meets (by decide)

theorem fileWriteLoop_meets : Steady p (.outside buffered) [] H (fileWriteLoop f fuel data) := by
  induction fuel generalizing data with
  | zero => exact .both .same <| stop_meets (by simp)
  | succ fuel ih =>
    refine .both .same <| begin_meets.seq <| .get fun s => ?_
    refine (inodeLock_meets rfl).seq <| .get fun s => (inodeWrite_meets rfl rfl).bind fun written => ?_
    refine (Code.Meets.both modifyFile_meets .same).seq ?_
    refine inodeUnlock_last.seq <| commit_meets.seq ?_
    exact .both ih .same

theorem fileWrite_meets : Steady p (.outside buffered) [] H (fileWrite f data) :=
  .get fun _ => .both .same <|
    .both fileWriteLoop_meets <| kernPanic_meets (by decide)

theorem fdalloc_meets (ready : m.phase = .ready) : Steady p m [] H (fdalloc f) := by
  refine .self <| .get fun s => ?_
  cases (List.range nofile).find? fun fd => s.openfiles p fd = none with
  | some fd => exact (setOpenfile_meets ready).seq .same
  | none => exact .same

/-! ## Calls on descriptors -/

theorem descriptor_meets {fd : Nat} {code : KernM Reply} (isOpen : s.openfiles q fd = some f)
    (meets : Steady p (.outside buffered) [] [] code) :
    code.Meets rules p (fun h t => At p (.caller buffered) [] [] h t ∧ t = s) fun _ => At p (.caller buffered) [] [] := by
  refine meets.conseq ?_ fun _ _ _ here => here.forgets
  rintro h t ⟨here, rfl⟩
  exact here.opened isOpen

theorem openfile_of_inodeFile (found : s.inodeFile p fd = some f) : s.openfiles p fd.toNat = some f :=
  (Option.filter_eq_some_iff.mp found).1

theorem readLocked_meets : Steady p (.caller true) [] [] (readLocked fd userBuf n) := by
  refine .self ?_
  cases badArgs fd userBuf n with
  | some e => exact .same
  | none =>
    refine .read fun s => ?_
    cases found : s.inodeFile p fd with
    | none => exact .pure fun _ _ here => here.1
    | some f =>
      refine descriptor_meets (openfile_of_inodeFile found) ((fileRead_meets rfl).bind fun read => ?_)
      cases read <;> exact .same

theorem writeLocked_meets : Steady p (.caller true) [] [] (writeLocked fd userBuf n data) := by
  refine .self ?_
  cases badArgs fd userBuf n with
  | some e => exact .same
  | none =>
    refine .read fun s => ?_
    cases found : s.inodeFile p fd with
    | none => exact .pure fun _ _ here => here.1
    | some f =>
      refine descriptor_meets (openfile_of_inodeFile found) (fileWrite_meets.bind fun written => ?_)
      exact .both .same .same

theorem sysClose_meets : Steady p (.caller false) [] [] (sysClose fd) := by
  refine .self <| .read fun s => .both (.pure fun _ _ here => here.1) ?_
  cases isOpen : s.openfile p fd with
  | none => exact .pure fun _ _ here => here.1
  | some f =>
    refine descriptor_meets isOpen (fileClose_meets.seq <| (setOpenfile_meets rfl).seq ?_)
    exact .same

theorem sysFstat_meets {userStp : Word} : Steady p (.caller false) [] [] (sysFstat fd userStp) := by
  refine .self <| .read fun s => .both (.pure fun _ _ here => here.1) ?_
  cases isOpen : s.openfile p fd with
  | none => exact .pure fun _ _ here => here.1
  | some f =>
    refine descriptor_meets isOpen ((fileStat_meets rfl).bind fun st => ?_)
    cases st <;> exact .same

theorem sysIsDir_meets : Steady p (.caller false) [] [] (sysIsDir fd) := by
  refine .self <| .read fun s => .both ((stop_meets (by simp)).strengthen fun _ _ here => here.1) ?_
  cases found : s.inodeFile p fd with
  | none => exact .pure fun _ _ here => here.1
  | some f =>
    refine descriptor_meets (openfile_of_inodeFile found) ((inode_meets rfl).seq ?_)
    exact .same

/-! ## Calls on paths -/

theorem undoLink_meets {ip : Slot} :
    (undoLink ip).Meets rules p (At p (.inside buffered) [] []) fun _ => At p (.outside buffered) [] [] := by
  refine (inodeLock_meets rfl).seq <| (modifyInode_meets (by simp)).seq ?_
  refine (inodeUpdate_meets rfl rfl).seq <| (inodeUnlockput_last rfl).seq ?_
  exact commit_meets.seq .same

theorem finishLink_meets {ip dp : Slot} {linked : Bool} :
    (finishLink ip dp linked).Meets rules p (At p (.inside buffered) [] [.inode dp]) fun _ =>
      At p (.outside buffered) [] [] := by
  refine (inodeUnlockput_last rfl).seq <| .both ?_ undoLink_meets
  exact (inodePut_meets rfl).seq <| commit_meets.seq .same

theorem sysLink_meets {old new : List Byte} : Steady p (.outside buffered) [] [] (sysLink old new) := by
  refine (namei_meets rfl).bind fun ip => .both .same ?_
  refine begin_meets.seq <| (inodeLock_meets rfl).seq <| .get fun s => .both ?_ ?_
  · refine (inodeUnlockput_last rfl).seq <| commit_meets.seq ?_
    exact .same
  refine (modifyInode_meets (by simp)).seq <| (inodeUpdate_meets rfl rfl).seq ?_
  refine inodeUnlock_last.seq <| (nameiparent_meets rfl).bind fun found => ?_
  refine .both undoLink_meets <| (inodeLock_meets rfl).seq <| .get fun s => ?_
  exact .both ((Code.Meets.same).seq finishLink_meets) <|
    (dirLink_meets rfl rfl).seq finishLink_meets

theorem isdiremptyLoop_meets {dp : Slot} (ready : m.phase = .ready) :
    Steady p m [] H (isdiremptyLoop dp fuel off) := by
  induction fuel generalizing off with
  | zero => exact stop_meets (by simp)
  | succ fuel ih =>
    refine .get fun s => .both ?_ .same
    refine (inodeRead_meets ready).bind fun read => ?_
    cases read with
    | none => exact kernPanic_meets (by decide)
    | some de =>
      exact .both (kernPanic_meets (by decide)) <|
        .both .same ih

theorem undoUnlink_meets {dp : Slot} :
    (undoUnlink dp).Meets rules p (At p (.inside buffered) [] [.inode dp]) fun _ => At p (.outside buffered) [] [] :=
  (inodeUnlockput_last rfl).seq <| commit_meets.seq .same

theorem removeEntry_meets {dp ip : Slot} {empty : Bool} :
    (removeEntry dp ip off empty).Meets rules p (At p (.inside buffered) [] [.inode ip, .inode dp]) fun _ =>
      At p (.outside buffered) [] [] := by
  refine .both ?_ ?_
  · exact (inodeUnlockput_last rfl).seq undoUnlink_meets
  refine (inodeWrite_meets rfl rfl).bind fun written => .both (kernPanic_meets (by decide)) <| .get fun s => ?_
  refine Code.Meets.seq (Q := fun _ => At p (.inside buffered) [] [.inode ip, .inode dp])
    (.both ?_ .same) ?_
  · exact (modifyInode_meets (by simp)).seq <| inodeUpdate_meets rfl rfl
  refine Code.Meets.seq (Q := fun _ => At p (.inside buffered) [] [.inode ip])
    (inodeUnlockput_meets rfl (by simp +contextual)) ?_
  refine (modifyInode_meets (by simp)).seq <| (inodeUpdate_meets rfl rfl).seq ?_
  refine (inodeUnlockput_last rfl).seq <| commit_meets.seq ?_
  exact .same

theorem sysUnlink_meets : Steady p (.outside buffered) [] [] (sysUnlink path) := by
  refine (nameiparent_meets rfl).bind fun parent => .both .same ?_
  refine begin_meets.seq <| (inodeLock_meets rfl).seq <| .both undoUnlink_meets ?_
  refine (dirLookup_meets rfl).bind fun found => .both undoUnlink_meets ?_
  refine (inodeLock_meets rfl).seq <| .get fun s => .both (kernPanic_meets (by decide)) ?_
  exact .both ((isdiremptyLoop_meets rfl).seq removeEntry_meets) <|
    (Code.Meets.same).seq removeEntry_meets

def locked : Slot → List Resource
  | none => []
  | some i => [.inode (some i)]

theorem locked_of_ne {ip : Slot} (found : ip ≠ none) : locked ip = [.inode ip] := by
  cases ip with
  | none => exact absurd rfl found
  | some i => rfl

theorem inodeLock_null_meets {Q : PUnit → Notes → State → Prop} : (inodeLock none).Meets rules p (At p m [] H) Q :=
  Code.Meets.get fun _ => .ite (fun _ => kernPanic_meets (by decide)) fun some => absurd (.inl rfl) some

theorem createNew_meets {dp : Slot} :
    (createNew dp name type major minor).Meets rules p (At p (.inside buffered) [] [.inode dp]) fun ip =>
      At p (.inside buffered) [] (locked ip) := by
  refine .get fun s => (inodeAlloc_meets rfl rfl).bind fun ip => ?_
  by_cases null : ip = none
  · rw [null]
    exact (inodeLock_null_meets (Q := fun _ _ _ => False)).bind fun _ _ _ impossible => impossible.elim
  refine (inodeLock_meets rfl).seq <| (modifyInode_meets (by simp)).seq ?_
  refine (inodeUpdate_meets rfl rfl).seq ?_
  refine Code.Meets.seq (Q := fun _ => At p (.inside buffered) [] [.inode ip, .inode dp])
    (.both ?_ .same) ?_
  · refine (modifyInode_meets (by simp)).seq <| (inodeUpdate_meets rfl rfl).seq <| .get fun s => ?_
    refine (dirLink_meets rfl rfl).bind fun self => .both (kernPanic_meets (by decide)) ?_
    refine .get fun s => (dirLink_meets rfl rfl).bind fun parent => ?_
    exact .both (kernPanic_meets (by decide)) .same
  refine .get fun s => (dirLink_meets rfl rfl).bind fun linked => .both (kernPanic_meets (by decide)) ?_
  refine (inodeUnlockput_meets rfl ?_).seq <| .pure fun _ _ here => here
  simp +contextual [locked_of_ne null]

theorem create_meets :
    (create path type major minor).Meets rules p (At p (.inside buffered) [] []) fun ip =>
      At p (.inside buffered) [] (locked ip) := by
  refine (nameiparent_meets rfl).bind fun parent => .both (.pure fun _ _ here => here) ?_
  refine (inodeLock_meets rfl).seq <| (dirLookup_meets rfl).bind fun found => ?_
  refine .ite (fun exist => ?_) fun _ => createNew_meets
  refine (inodeUnlockput_last rfl).seq <| (inodeLock_meets rfl).seq ?_
  refine .get fun s => .both ?_ ?_
  · exact .pure fun _ _ here => locked_of_ne exist ▸ here
  · exact (inodeUnlockput_last rfl).seq <| .pure fun _ _ here => here

theorem openInode_meets {ip : Slot} :
    (openInode ip omode).Meets rules p (At p (.outside buffered) [] [.inode ip]) fun _ =>
      At p (.outside buffered) [] [] := by
  refine fileAlloc_meets.bind fun f => ?_
  cases f with
  | none => exact (inodeUnlockput_last rfl).seq .same
  | some f =>
    refine (fdalloc_meets rfl).bind fun fd => ?_
    cases fd with
    | none =>
      refine fileClose_meets.seq <| (inodeUnlockput_last rfl).seq ?_
      exact .same
    | some fd =>
      refine inodeUnlock_last.seq <| modifyFile_meets.seq ?_
      exact .same

theorem sysOpen_meets :
    (sysOpen path omode).Meets rules p (Entered p (.open path omode)) fun _ => At p (.outside false) [] [] := by
  refine .read fun s => Code.Meets.seq (Q := fun _ => At p (.outside false) [] []) (.ite ?_ ?_) ?_
  · exact fun _ => (logInit_meets (m := .caller false)).strengthen fun _ _ entered => entered.1.here rfl
  · -- `log_init` has been called, so a call on time finds recovery over
    intro later
    refine .pure fun h t entered => ?_
    obtain ⟨entered, rfl⟩ := entered
    refine (entered.here rfl).knows fun always => (entered.onTime always rfl).resolve_right ?_
    rintro ⟨-, early⟩
    exact later (entered.away.base.first.mpr early)
  refine .both ?_ ?_
  · refine begin_meets.seq <| create_meets.bind fun ip => commit_meets.seq ?_
    refine .ite (fun null => .pure fun _ _ here => ?_) fun found => ?_
    · rwa [null] at here
    · rw [locked_of_ne found]
      exact openInode_meets
  · refine (namei_meets rfl).bind fun ip => .both .same ?_
    refine (inodeLock_meets rfl).seq <| .get fun s => .both ?_ openInode_meets
    exact (inodeUnlockput_last rfl).seq .same

theorem sysMkdir_meets : Steady p (.outside buffered) [] [] (sysMkdir path) := by
  refine begin_meets.seq <| create_meets.bind fun ip => .ite (fun null => ?_) fun found => ?_
  · rw [null]
    exact commit_meets.seq .same
  · rw [locked_of_ne found]
    refine (inodeUnlockput_last rfl).seq <| commit_meets.seq ?_
    exact .same

theorem setCwd_meets {ip : Slot} : Steady p m [] H (setCwd q ip) :=
  modify_meets (by intro s; exact frame_same rfl rfl rfl rfl rfl rfl rfl)

section Directories

variable (ready : m.phase = .ready)
include ready

theorem sysChdir_meets : Steady p m [] [] (sysChdir path) := by
  refine .self <| (namei_meets ready).bind fun ip => .both .same ?_
  refine (inodeLock_meets ready).seq <| .get fun s => .both ?_ ?_
  · exact (inodeUnlockput_last ready).seq .same
  · refine inodeUnlock_last.seq <| .get fun s => (inodePut_meets ready).seq ?_
    exact setCwd_meets.seq .same

theorem getCwd_meets : Steady p m [] H getCwd := by
  refine .self <| .get fun s => .both ?_ .same
  exact (inodeGet_meets ready).seq <| setCwd_meets.seq .same

theorem lsLoop_meets {dp : Slot} : Steady p m [] H (lsLoop dp stack fuel off) := by
  have unlock : ∀ r ∈ H, r = .inode dp ∨ r ∈ H := fun _ => .inr
  induction fuel generalizing off with
  | zero => exact stop_meets (by simp)
  | succ fuel ih =>
    refine .get fun s => .both ?_ .same
    refine (inodeRead_meets ready).bind fun read => ?_
    cases read with
    | none => exact (inodeUnlock_meets unlock).seq <| kernPanic_meets (by decide)
    | some de =>
      refine .both ((inodeUnlock_meets unlock).seq <| kernPanic_meets (by decide)) ?_
      exact ih.seq <| .both .same .same

theorem sysLs_meets {bufLen : Word} : Steady p m [] [] (sysLs bufLen stack) := by
  refine (getCwd_meets ready).bind fun dp => (inodeLock_meets ready).seq <| (lsLoop_meets ready).seq ?_
  exact inodeUnlock_last.seq .same

theorem pwdEntry_meets {parent : Slot} {inum : Word} : Steady p m [] H (pwdEntry parent inum fuel off) := by
  induction fuel generalizing off with
  | zero => exact stop_meets (by simp)
  | succ fuel ih =>
    refine .get fun s => .both ?_ .same
    refine (inodeRead_meets ready).bind fun read => ?_
    cases read with
    | none => exact .same
    | some de =>
      exact .both .same <|
        .both .same ih

theorem pwdLoop_meets {curi parent : Slot} {len : Nat} {arr : Nat → Byte} :
    Steady p m [] H (pwdLoop fuel curi parent len arr) := by
  induction fuel generalizing curi parent len arr with
  | zero => exact stop_meets (by simp)
  | succ fuel ih =>
    refine .get fun s => .both .same ?_
    refine (pwdEntry_meets ready).bind fun entry => .both (stop_meets (by simp)) ?_
    refine (dirLookup_meets ready).bind fun up => ?_
    cases entry <;> exact ih

theorem sysPwd_meets : Steady p m [] [] (sysPwd stack) :=
  (getCwd_meets ready).seq <| (dirLookup_meets ready).seq <| (pwdLoop_meets ready).seq .same

end Directories

/-! ## Killing, and the interrupt of the drive -/

theorem At.kills (here : At p (.caller false) [] [] h s) :
    Away p false ((p, .killed q) :: h) { s with thread := Function.update s.thread q .dead } := by
  have base := here.base
  have own := here.own
  have apart : Apart p ((p, .killed q) :: h) s := (here.gate.apart own.buffered).noted
  refine ⟨?_, ⟨apart.lock, apart.one⟩, ?_⟩
  · refine base.noted ⟨rfl, rfl, base.flags rfl rfl, base.transBusy, base.oneTrans, base.first, fun _ => trivial,
      fun _ => trivial⟩ ?_
    intro always q' holding
    have other : q' ≠ q := by
      rintro rfl
      exact always.1 holding
    simpa only [Function.update_of_ne other] using base.alive always.2 q' holding
  · exact ⟨own.held, own.buffered, own.trans, by simp [Mode.caller], by simp [Mode.caller], by simp [Mode.caller]⟩

theorem sysKill_meets {pid signum : Word} :
    (sysKill pid signum).Meets rules p (At p (.caller false) [] []) fun _ => Away p false := by
  refine .get fun s => .both ?_ <| .both ?_ <| .both ?_ ?_
  · exact .pure fun _ _ here => here.away rfl rfl
  · exact .pure fun _ _ here => here.away rfl rfl
  · exact fun h s here => here.kills
  · refine Code.Meets.seq (Q := fun _ => At p (.caller false) [] []) ?_ <| .pure fun _ _ here => here.away rfl rfl
    cases s.thread pid.toNat with
    | asleep chan => exact threadWakeup_meets
    | running => exact .same
    | dead => exact .same

theorem ideIntr_meets {error : Bool} : Steady p m [] H (ideIntr error) := by
  refine (acquire_meets (by simp)).seq <| .get fun s => ?_
  cases s.idequeue with
  | nil => exact release_meets (by simp)
  | cons b rest =>
    refine (modify_meets (by intro s; exact frame_same rfl rfl rfl rfl rfl rfl rfl)).seq ?_
    refine Code.Meets.seq (Q := fun _ => At p m [.ide] H) (.both ?_ ?_) ?_
    · exact modify_meets fun _ => frame_setBuf fun busy => busy
    · exact .same
    refine (modifyBuf_meets (by simp)).seq <| threadWakeup_meets.seq ?_
    refine Code.Meets.seq (Q := fun _ => At p m [.ide] H) ?_ <| release_meets (by simp)
    cases rest with
    | nil => exact .same
    | cons next others => exact modify_meets fun _ => ideStart_frame

/-! ## The kernel -/

theorem Entered.ready {c : Trap} (entered : Entered p c h s) (plain : c.buffered = false)
    (pathwise : c.pathwise = true) (opens : c.opens = false) : At p (.outside false) [] [] h s := by
  refine (entered.here plain).knows fun always => (entered.onTime always pathwise).resolve_right ?_
  rintro ⟨isOpen, -⟩
  rw [opens] at isOpen
  cases isOpen

theorem trap_meets (c : Trap) : (trap c).Meets rules p (Entered p c) fun _ => Away p c.buffered := by
  cases c with
  | read fd userBuf n => exact withBufLock_meets rfl readLocked_meets
  | write fd userBuf n data => exact withBufLock_meets rfl writeLocked_meets
  | close fd => exact sysClose_meets.conseq (fun _ _ entered => entered.here rfl) fun _ _ _ here => here.away rfl rfl
  | fstat fd userStp =>
    exact sysFstat_meets.conseq (fun _ _ entered => entered.here rfl) fun _ _ _ here => here.away rfl rfl
  | isDir fd => exact sysIsDir_meets.conseq (fun _ _ entered => entered.here rfl) fun _ _ _ here => here.away rfl rfl
  | kill pid signum => exact sysKill_meets.strengthen fun _ _ entered => entered.here rfl
  | link old new =>
    exact sysLink_meets.conseq (fun _ _ entered => entered.ready rfl rfl rfl) fun _ _ _ here => here.away rfl rfl
  | unlink path =>
    exact sysUnlink_meets.conseq (fun _ _ entered => entered.ready rfl rfl rfl) fun _ _ _ here => here.away rfl rfl
  | «open» path omode => exact sysOpen_meets.weaken fun _ _ _ here => here.away rfl rfl
  | mkdir path =>
    exact sysMkdir_meets.conseq (fun _ _ entered => entered.ready rfl rfl rfl) fun _ _ _ here => here.away rfl rfl
  | chdir path =>
    exact (sysChdir_meets rfl).conseq (fun _ _ entered => entered.ready rfl rfl rfl) fun _ _ _ here => here.away rfl rfl
  | ls bufLen stack =>
    exact (sysLs_meets rfl).conseq (fun _ _ entered => entered.ready rfl rfl rfl) fun _ _ _ here => here.away rfl rfl
  | pwd stack =>
    exact (sysPwd_meets rfl).conseq (fun _ _ entered => entered.ready rfl rfl rfl) fun _ _ _ here => here.away rfl rfl
  | ideIntr error =>
    refine (ideIntr_meets.strengthen fun _ _ entered => entered.here rfl).seq ?_
    exact .pure fun _ _ here => here.away rfl rfl

theorem kernel_sound : kernel.Sound rules Idle where
  runs p s runs := of_decide_eq_true (p := s.thread p = .running) runs
  later _ _ _ := idle_later
  code _ c := enter_meets.seq <| (trap_meets c).seq leave_meets

end Certikos.FileSys
