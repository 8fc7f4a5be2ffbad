import Certikos.FileSys.Discipline

/-!
# How the code keeps to the rules

One lemma for each function of the kernel: what the process holds before and after it, and in which modes it may run.
-/

namespace Certikos.FileSys
open Lib
open Fs (nbuf Block Buf rootdev logsize)

variable {p : Nat} {m : Mode} {H H' : List Resource} {b : Fin nbuf} {dev sector : Word}

/-! ## The drive and the buffer cache -/

theorem ideStart_frame {s : State} : Frame s (s.ideStart b) := frame_same rfl rfl rfl rfl rfl rfl rfl

theorem ideRw_meets : Steady p m [] H (ideRw b) := by
  refine .get fun s => .both (kernPanic_meets (by decide)) ?_
  refine .both (kernPanic_meets (by decide)) <| .both (kernPanic_meets (by decide)) ?_
  refine (acquire_meets (by simp)).seq <| .get fun s => ?_
  refine (modify_meets (by intro s; exact frame_same rfl rfl rfl rfl rfl rfl rfl)).seq ?_
  refine (Code.Meets.both (modify_meets fun _ => ideStart_frame) .same).seq ?_
  exact (sleepWhile_meets (by simp) fun _ _ => rfl).seq <|
    (release_meets (by simp)).strengthen fun _ _ here => here.1

section Flags

variable {α : Type} {L : List Lock} {ip : Slot} {Q : α → Notes → State → Prop} {next : KernM α}

theorem takeBuf_meets {f : Buf → Buf} (rest : next.Meets rules p (At p m L (.buf b :: H)) Q) :
    Code.Meets rules p (At p m L H)
      (do
        modifyBuf b f
        Code.note (.take (.buf b))
        next) Q :=
  fun _ _ here => rest _ _ (here.takes sets_setBuf)

theorem dropBuf_meets {f : Buf → Buf} (clear : ∀ x, (f x).busy = false) (sub : ∀ r ∈ H, r = .buf b ∨ r ∈ H')
    (rest : next.Meets rules p (At p m L H') Q) :
    Code.Meets rules p (At p m L H)
      (do
        modifyBuf b f
        Code.note (.drop (.buf b))
        next) Q :=
  fun _ s here => rest _ _ (here.drops sets_setBuf (by simp [State.busy, State.setBuf, clear]) sub)

theorem takeInode_meets {f : Inode → Inode} (rest : next.Meets rules p (At p m L (.inode ip :: H)) Q) :
    Code.Meets rules p (At p m L H)
      (do
        modifyInode ip f
        Code.note (.take (.inode ip))
        next) Q :=
  fun _ _ here => rest _ _ (here.takes sets_setInode)

theorem dropInode_meets {f : Inode → Inode} (clear : ∀ x, (f x).busy = false)
    (sub : ∀ r ∈ H, r = .inode ip ∨ r ∈ H') (rest : next.Meets rules p (At p m L H') Q) :
    Code.Meets rules p (At p m L H)
      (do
        modifyInode ip f
        Code.note (.drop (.inode ip))
        next) Q := by
  refine fun _ s here => rest _ _ (here.drops sets_setInode ?_ sub)
  cases ip <;> simp [State.busy, State.setInode, clear]

end Flags

theorem bufcacheGet_meets : (bufcacheGet dev sector).Meets rules p (At p m [] H) fun b => At p m [] (.buf b :: H) := by
  refine (acquire_meets (by simp)).seq <| (sleepWhile_meets (by simp) fun _ _ => rfl).seq ?_
  refine Code.Meets.strengthen (P := At p m [.bcache] H) (.get fun s => ?_) fun _ _ here => here.1
  cases s.cached dev sector with
  | some b => exact takeBuf_meets ((release_meets (by simp)).seq <| .pure fun _ _ here => here)
  | none =>
    cases s.recyclable with
    | some b => exact takeBuf_meets ((release_meets (by simp)).seq <| .pure fun _ _ here => here)
    | none => exact kernPanic_meets (by decide)

theorem bufcacheRead_meets (known : m.phase ≠ .early) :
    (bufcacheRead dev sector).Meets rules p (At p m [] H) fun b => At p m [] (.buf b :: H) := by
  refine (block_meets known).seq <| bufcacheGet_meets.bind fun b => .get fun s => ?_
  exact (Code.Meets.both ideRw_meets .same).seq <|
    .pure fun _ _ here => here

theorem bufcacheWrite_meets : Steady p m [] H (bufcacheWrite b) :=
  .get fun _ => .both (kernPanic_meets (by decide)) <|
    (modifyBuf_meets (by simp)).seq ideRw_meets

theorem bufcacheRelease_meets (sub : ∀ r ∈ H, r = .buf b ∨ r ∈ H') :
    (bufcacheRelease b).Meets rules p (At p m [] H) fun _ => At p m [] H' := by
  refine .get fun s => .both (kernPanic_meets (by decide)) <| (acquire_meets (by simp)).seq ?_
  refine (modify_meets (by intro s; exact frame_same rfl rfl rfl rfl rfl rfl rfl)).seq ?_
  exact dropBuf_meets (fun _ => rfl) sub (threadWakeup_meets.seq <| release_meets (by simp))

theorem bufcacheRelease_last : (bufcacheRelease b).Meets rules p (At p m [] (.buf b :: H)) fun _ => At p m [] H :=
  bufcacheRelease_meets fun _ => List.mem_cons.mp

theorem modifyData_meets {f : Block → Block} : Steady p m [] H (modifyData b f) :=
  modifyBuf_meets fun _ busy => busy

theorem memmove_meets {src : Fin nbuf} : Steady p m [] H (memmove b src) :=
  modify_meets fun _ => frame_setBuf fun busy => busy

section

variable (known : m.phase ≠ .early)
include known

theorem readSuperblock_meets : Steady p m [] H (readSuperblock dev) :=
  (bufcacheRead_meets known).seq <| .get fun _ => bufcacheRelease_last.seq .same

/-! ## The log -/

theorem installBlock_meets {tail : Nat} : Steady p m [] H (installBlock tail) := by
  refine .get fun s => (bufcacheRead_meets known).bind fun lbuf => .get fun s => ?_
  refine (bufcacheRead_meets known).bind fun dbuf => memmove_meets.seq <| bufcacheWrite_meets.seq ?_
  refine Code.Meets.seq (Q := fun _ => At p m [] (.buf dbuf :: H)) (bufcacheRelease_meets ?_) ?_
  · simp +contextual
  · exact bufcacheRelease_last

theorem installLoop_meets {fuel tail : Nat} : Steady p m [] H (installLoop fuel tail) := by
  induction fuel generalizing tail with
  | zero => exact stop_meets (by simp)
  | succ fuel ih =>
    refine .get fun s => .both ?_ .same
    exact (installBlock_meets known).seq ih

theorem installTrans_meets : Steady p m [] H installTrans := installLoop_meets known

theorem readHead_meets : Steady p m [] H readHead := by
  refine .get fun s => (bufcacheRead_meets known).bind fun buf => .get fun s => ?_
  refine .both (stop_meets (by simp)) <| (modifyLog_meets (by intro; rfl)).seq ?_
  exact bufcacheRelease_last

theorem writeHead_meets : Steady p m [] H writeHead := by
  refine .get fun s => (bufcacheRead_meets known).bind fun buf => .get fun s => ?_
  refine .both (stop_meets (by simp)) <| modifyData_meets.seq ?_
  exact bufcacheWrite_meets.seq bufcacheRelease_last

end

theorem emptyHead_meets : Steady p m [] H emptyHead := modifyLog_meets fun _ => rfl

theorem recoverFromLog_meets (known : m.phase ≠ .early) :
    recoverFromLog.Meets rules p (At p m [] H) fun _ => At p { m with phase := .ready } [] H :=
  (readHead_meets known).seq <| (installTrans_meets known).seq <| emptyHead_meets.seq <|
    (writeHead_meets known).seq <| Code.Meets.note fun _ _ here => here.recovers

theorem logInit_meets :
    Code.Meets rules p (At p m [] H)
      (do
        Code.modify fun s => { s with first := false }
        logInit) fun _ => At p { m with phase := .ready } [] H := by
  have known : { m with phase := Phase.init }.phase ≠ .early := by simp
  have rest : (do
      Code.modify (State.setLock · .log false)
      let sb ← readSuperblock rootdev
      modifyLog fun log => { log with start := sb.size - sb.nlog, size := sb.nlog, dev := rootdev }
      recoverFromLog : KernM PUnit).Meets rules p (At p { m with phase := .init } [] H) fun _ =>
        At p { m with phase := .ready } [] H := by
    refine (spinlockInit_meets (by simp)).seq <| (readSuperblock_meets known).bind fun sb => ?_
    exact (modifyLog_meets (by intro; rfl)).seq <| recoverFromLog_meets known
  exact fun h s here => rest _ _ here.initialises

theorem beginTrans_meets (ready : m.phase = .ready) :
    beginTrans.Meets rules p (At p m [] H) fun _ => At p { m with trans := true, mayLog := true } [] H := by
  refine (acquire_meets (by simp)).seq <| (sleepWhile_meets (by simp) fun _ _ => rfl).bind fun _ => ?_
  intro h s here
  have free : s.log.busy = false := by simpa using here.2
  exact release_meets (by simp) _ _ (here.1.begins ready free)

theorem commitTrans_meets (ready : m.phase = .ready) (inside : m.trans = true) :
    commitTrans.Meets rules p (At p m [] H) fun _ => At p { m with trans := false, mayLog := false } [] H := by
  have known : m.phase ≠ .early := by simp [ready]
  refine .get fun s => Code.Meets.seq (Q := fun _ => At p m [] H) (.both ?_ ?_) ?_
  · exact (writeHead_meets known).seq <| (installTrans_meets known).seq <|
      emptyHead_meets.seq <| writeHead_meets known
  · exact .same
  · refine (acquire_meets (by simp)).bind fun _ => ?_
    have rest : (do
        threadWakeup .log
        release .log : KernM PUnit).Meets rules p (At p { m with trans := false, mayLog := false } [.log] H) fun _ =>
          At p { m with trans := false, mayLog := false } [] H :=
      threadWakeup_meets.seq <| release_meets (by simp)
    exact fun h s here => rest _ _ (here.commits inside)

theorem tooBig_ne (size n : Int) (k : Nat) :
    s!"too big a transaction. {size} < {n} <= {k}" ≠ "write outside of trans" := by
  intro same
  have first := congrArg (fun message : String => message.toList.head?) same
  have literal : ∀ message : String, toString message = message := fun _ => rfl
  simp [literal] at first

section

variable (known : m.phase ≠ .early) (may : m.mayLog = true)
include known may

theorem logWrite_meets : Steady p m [] H (logWrite b) := by
  refine .read fun s => ?_
  refine Code.Meets.seq (Q := fun _ h t => At p m [] H h t ∧ t = s) ?_ ?_
  · exact Code.Meets.note fun h t here => ⟨here.1.logWrite may, here.2⟩
  refine .both ((kernPanic_meets (by exact tooBig_ne _ _ _)).strengthen fun _ _ here => here.1) ?_
  refine .ite (fun idle => Code.Meets.stop fun h t here => ?_) fun _ => ?_
  · -- in a transaction the log is busy
    refine ⟨fun always => ?_, here.1.base.recovery⟩
    have busy := here.1.base.transBusy.mpr ⟨p, here.1.own.mayLog may always⟩
    rw [here.2, idle] at busy
    cases busy
  · refine Code.Meets.strengthen (P := At p m [] H) ?_ fun _ _ here => here.1
    refine (modifyLog_meets (by intro; rfl)).seq <| (bufcacheRead_meets known).bind fun lbuf => ?_
    refine memmove_meets.seq <| bufcacheWrite_meets.seq ?_
    refine bufcacheRelease_last.seq <| (modifyLog_meets (by intro; rfl)).seq ?_
    exact modifyBuf_meets (by simp)

/-! ## The blocks -/

theorem blockZero_meets : Steady p m [] H (blockZero dev sector) :=
  (bufcacheRead_meets known).seq <| modifyData_meets.seq <| (logWrite_meets known may).seq bufcacheRelease_last

theorem blockAllocLoop_meets {sb : Superblock} {fuel start : Nat} :
    Steady p m [] H (blockAllocLoop dev sb fuel start) := by
  induction fuel generalizing start with
  | zero => exact stop_meets (by simp)
  | succ fuel ih =>
    refine .both ?_ ?_
    · refine (bufcacheRead_meets known).bind fun bp => .get fun s => ?_
      cases freeBit (s.buf bp).data start sb.size with
      | some bi =>
        refine blockAlloc_noted.seq <| modifyData_meets.seq ?_
        refine (logWrite_meets known may).seq ?_
        refine bufcacheRelease_last.seq <| (blockZero_meets known may).seq ?_
        exact .same
      | none => exact bufcacheRelease_last.seq ih
    · refine blockAlloc_noted.seq <| .get fun s => ?_
      refine (modify_meets (by intro s; exact frame_same rfl rfl rfl rfl rfl rfl rfl)).seq ?_
      exact .same

theorem blockAlloc_meets : Steady p m [] H (blockAlloc dev) :=
  (readSuperblock_meets known).seq <| blockAllocLoop_meets known may

theorem blockFree_meets : Steady p m [] H (blockFree dev sector) := by
  refine (readSuperblock_meets known).seq <| (bufcacheRead_meets known).bind fun bp => .get fun s => ?_
  refine .both (kernPanic_meets (by decide)) <| modifyData_meets.seq ?_
  exact (logWrite_meets known may).seq bufcacheRelease_last

end

/-! ## The inode cache -/

section Inodes

variable {ip : Slot} (ready : m.phase = .ready)
include ready

theorem inodeGet_meets {inum : Word} : Steady p m [] H (inodeGet dev inum) := by
  refine (acquire_meets (by simp)).seq <| .get fun s => ?_
  cases s.cachedInode dev inum with
  | some i =>
    refine (inode_meets ready).seq <| (modifyInode_meets (by simp)).seq ?_
    exact (release_meets (by simp)).seq .same
  | none =>
    cases s.emptyInode with
    | none => exact kernPanic_meets (by decide)
    | some i =>
      refine (inode_meets ready).seq <| (modifyInode_meets (by simp)).seq ?_
      exact (release_meets (by simp)).seq .same

theorem inodeDup_meets : Steady p m [] H (inodeDup ip) :=
  (acquire_meets (by simp)).seq <| (inode_meets ready).seq <| (modifyInode_meets (by simp)).seq <|
    (release_meets (by simp)).seq .same

theorem known_of_ready : m.phase ≠ .early := by simp [ready]

theorem inodeAllocLoop_meets {type : BitVec 16} {ninodes inum : Word} {fuel : Nat} (may : m.mayLog = true) :
    Steady p m [] H (inodeAllocLoop dev type ninodes fuel inum) := by
  have known := known_of_ready ready
  induction fuel generalizing inum with
  | zero => exact kernPanic_meets (by decide)
  | succ fuel ih =>
    refine .both ?_ <| kernPanic_meets (by decide)
    refine (bufcacheRead_meets known).bind fun bp => .get fun s => .both ?_ ?_
    · refine modifyData_meets.seq <| (logWrite_meets known may).seq ?_
      exact bufcacheRelease_last.seq <| inodeGet_meets ready
    · exact bufcacheRelease_last.seq ih

theorem inodeAlloc_meets {type : BitVec 16} (may : m.mayLog = true) : Steady p m [] H (inodeAlloc dev type) :=
  (readSuperblock_meets (known_of_ready ready)).seq <| inodeAllocLoop_meets ready may

theorem inodeUpdate_meets (may : m.mayLog = true) : Steady p m [] H (inodeUpdate ip) := by
  have known := known_of_ready ready
  refine .get fun s => (bufcacheRead_meets known).bind fun bp => .get fun s => modifyData_meets.seq ?_
  exact (logWrite_meets known may).seq bufcacheRelease_last

theorem inodeLock_meets : (inodeLock ip).Meets rules p (At p m [] H) fun _ => At p m [] (.inode ip :: H) := by
  refine .get fun s => .both (kernPanic_meets (by decide)) <| (acquire_meets (by simp)).seq ?_
  refine (inode_meets ready).seq <| (sleepWhile_meets (by simp) fun _ _ => rfl).seq ?_
  refine Code.Meets.strengthen (P := At p m [.inodeCache] H) (takeInode_meets ?_) fun _ _ here => here.1
  refine (release_meets (by simp)).seq <| .get fun s => .both ?_ .same
  refine (bufcacheRead_meets (known_of_ready ready)).bind fun bp => .get fun s => ?_
  refine (modifyInode_meets (by simp)).seq <| bufcacheRelease_last.seq ?_
  refine (modifyInode_meets (by simp)).seq <| .get fun s => ?_
  exact .both (kernPanic_meets (by decide)) .same

end Inodes

theorem inodeUnlock_meets {ip : Slot} (sub : ∀ r ∈ H, r = .inode ip ∨ r ∈ H') :
    (inodeUnlock ip).Meets rules p (At p m [] H) fun _ => At p m [] H' := by
  refine .get fun s => .both (kernPanic_meets (by decide)) <| (acquire_meets (by simp)).seq ?_
  exact dropInode_meets (fun _ => rfl) sub (threadWakeup_meets.seq <| release_meets (by simp))

theorem inodeUnlock_last {ip : Slot} :
    (inodeUnlock ip).Meets rules p (At p m [] (.inode ip :: H)) fun _ => At p m [] H :=
  inodeUnlock_meets fun _ => List.mem_cons.mp

/-! ## The content of an inode -/

section Content

variable {ip : Slot} (ready : m.phase = .ready)
include ready

theorem inodeTruncDirect_meets {i : Nat} (may : m.mayLog = true) : Steady p m [] H (inodeTruncDirect ip i) := by
  refine .get fun s => .both ?_ .same
  exact (blockFree_meets (known_of_ready ready) may).seq <| modifyInode_meets (by simp)

theorem inodeTruncIndirect_meets {bp : Fin nbuf} {j : Nat} (may : m.mayLog = true) :
    Steady p m [] H (inodeTruncIndirect ip bp j) :=
  .get fun _ => .both (blockFree_meets (known_of_ready ready) may) .same

theorem inodeTrunc_meets (may : m.mayLog = true) : Steady p m [] H (inodeTrunc ip) := by
  have known := known_of_ready ready
  refine (Code.Meets.forLoop fun i _ => inodeTruncDirect_meets ready may).seq <| .get fun s => ?_
  refine Code.Meets.seq (Q := fun _ => At p m [] H) (.both ?_ .same) ?_
  · refine (bufcacheRead_meets known).bind fun bp => ?_
    refine Code.Meets.seq (Code.Meets.forLoop fun j _ => inodeTruncIndirect_meets ready may) ?_
    refine bufcacheRelease_last.seq <| .get fun s => (blockFree_meets known may).seq ?_
    exact modifyInode_meets (by simp)
  · exact (modifyInode_meets (by simp)).seq <| inodeUpdate_meets ready may

theorem inodePut_meets : Steady p m [] H (inodePut ip) := by
  refine (acquire_meets (by simp)).seq <| (inode_meets ready).seq <| .get fun s => ?_
  refine Code.Meets.seq (Q := fun _ => At p m [.inodeCache] H) (.both ?_ ?_) ?_
  · refine .both (kernPanic_meets (by decide)) <| frees_meets.seq <| takeInode_meets ?_
    refine (release_meets (by simp)).seq <| (inodeTrunc_meets (m := { m with mayLog := true }) ready rfl).seq ?_
    refine (modifyInode_meets (by simp)).seq <|
      (inodeUpdate_meets (m := { m with mayLog := true }) ready rfl).bind fun _ => ?_
    have sub : ∀ r ∈ Resource.inode ip :: H, r = .inode ip ∨ r ∈ H := fun _ => List.mem_cons.mp
    refine (acquire_meets (by simp)).bind fun _ => dropInode_meets (fun _ => rfl) sub ?_
    exact threadWakeup_meets.weaken fun _ _ _ here => here.restrain
  · exact .same
  · exact (modifyInode_meets (by simp)).seq <| release_meets (by simp)

theorem inodeUnlockput_meets (sub : ∀ r ∈ H, r = .inode ip ∨ r ∈ H') :
    (inodeUnlockput ip).Meets rules p (At p m [] H) fun _ => At p m [] H' :=
  (inodeUnlock_meets sub).seq <| inodePut_meets ready

theorem inodeUnlockput_last : (inodeUnlockput ip).Meets rules p (At p m [] (.inode ip :: H)) fun _ => At p m [] H :=
  inodeUnlock_last.seq <| inodePut_meets ready

variable {bn off : Word} {fuel : Nat} {src : List Byte}

theorem hole_blockAlloc_meets {α : Type} {next : Word → KernM α} {Q : α → Notes → State → Prop}
    (rest : ∀ addr, (next addr).Meets rules p (At p { m with mayLog := true } [] H) Q) :
    Code.Meets rules p (At p m [] H)
      (do
        Code.note (.hole ip bn)
        let addr ← blockAlloc dev
        next addr) Q :=
  hole_meets.seq <| (blockAlloc_meets (m := { m with mayLog := true }) (known_of_ready ready) rfl).bind rest

theorem bmap_meets : Steady p m [] H (bmap ip bn) := by
  have known := known_of_ready ready
  refine .get fun s => .both (.both ?_ ?_) <| .both ?_ ?_
  · refine hole_blockAlloc_meets ready fun addr => (modifyInode_meets (by simp)).seq ?_
    exact .pure fun _ _ here => here.restrain
  · exact .same
  · refine Code.Meets.seq (Q := fun _ => At p m [] H) (.both ?_ ?_) ?_
    · refine hole_blockAlloc_meets ready fun addr => ?_
      exact (modifyInode_meets (by simp)).weaken fun _ _ _ here => here.restrain
    · exact .same
    · refine .get fun s => (bufcacheRead_meets known).bind fun bp => .get fun s => .both ?_ ?_
      · refine hole_blockAlloc_meets ready fun addr => modifyData_meets.seq ?_
        refine (logWrite_meets (m := { m with mayLog := true }) known rfl).seq <| bufcacheRelease_last.seq ?_
        exact .pure fun _ _ here => here.restrain
      · exact bufcacheRelease_last.seq .same
  · exact kernPanic_meets (by decide)

theorem inodeReadLoop_meets {left : Nat} : Steady p m [] H (inodeReadLoop ip fuel off left) := by
  induction fuel generalizing off left with
  | zero => exact .both .same <| stop_meets (by simp)
  | succ fuel ih =>
    refine .both .same <| (bmap_meets ready).bind fun addr => .get fun s => ?_
    refine (bufcacheRead_meets (known_of_ready ready)).bind fun bp => .get fun s => ?_
    exact bufcacheRelease_last.seq <| ih.seq .same

theorem inodeRead_meets {n : Word} : Steady p m [] H (inodeRead ip off n) := by
  refine .get fun s => .both (.both ?_ ?_) <| .both ?_ ?_
  · exact .same
  · exact stop_meets (by simp)
  · exact .same
  · exact (inodeReadLoop_meets ready).seq .same

theorem inodeWriteLoop_meets (may : m.mayLog = true) :
    Steady p m [] H (inodeWriteLoop ip fuel off src) := by
  have known := known_of_ready ready
  induction fuel generalizing off src with
  | zero => exact .both .same <| stop_meets (by simp)
  | succ fuel ih =>
    refine .both .same <| (bmap_meets ready).bind fun addr => .get fun s => ?_
    refine (bufcacheRead_meets known).bind fun bp => modifyData_meets.seq ?_
    exact (logWrite_meets known may).seq <| bufcacheRelease_last.seq ih

theorem inodeWrite_meets (may : m.mayLog = true) :
    Steady p m [] H (inodeWrite ip src off) := by
  refine .get fun s => .both (.both ?_ ?_) <| .both ?_ ?_
  · exact .same
  · exact stop_meets (by simp)
  · exact .same
  refine .both .same <| (inodeWriteLoop_meets ready may).bind fun off => ?_
  refine .get fun s => Code.Meets.seq (Q := fun _ => At p m [] H) (.both ?_ ?_) ?_
  · exact (modifyInode_meets (by simp)).seq <| inodeUpdate_meets ready may
  · exact .same
  · exact .same

end Content

end Certikos.FileSys
