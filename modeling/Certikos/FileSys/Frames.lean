import Certikos.FileSys.Pool

/-!
# What the cache and the log leave alone

In none of its turns does the code of `bufcache.c`, `log.c` and `ide_rw` touch an inode, an open file or a working
directory, and a dirty buffer keeps its sector.
-/

namespace Certikos.FileSys
open Lib
open Fs (nbuf Block Buf)

structure CacheStep (s t : State) : Prop where
  inode : t.inode = s.inode
  file : t.file = s.file
  openfiles : t.openfiles = s.openfiles
  cwd : t.cwd = s.cwd
  first : t.first = s.first
  pinned : ∀ b, (s.buf b).dirty = true → (t.buf b).dirty = true ∧ (t.buf b).Holds (s.buf b).dev (s.buf b).sector

theorem CacheStep.refl (s : State) : CacheStep s s := ⟨rfl, rfl, rfl, rfl, rfl, fun _ dirty => ⟨dirty, rfl, rfl⟩⟩

theorem CacheStep.trans {s t u : State} (first : CacheStep s t) (second : CacheStep t u) : CacheStep s u := by
  refine ⟨second.inode.trans first.inode, second.file.trans first.file, second.openfiles.trans first.openfiles,
    second.cwd.trans first.cwd, second.first.trans first.first, ?_⟩
  intro b dirty
  obtain ⟨still, holds⟩ := first.pinned b dirty
  obtain ⟨after, holds'⟩ := second.pinned b still
  exact ⟨after, holds'.1.trans holds.1, holds'.2.trans holds.2⟩

instance instPreorderCacheStep : IsPreorder State CacheStep where
  refl := CacheStep.refl
  trans _ _ _ := CacheStep.trans

variable {b : Fin nbuf} {s : State}

theorem cacheStep_setBuf {x : Buf} (pinned : (s.buf b).dirty = true → x.dirty = true ∧
    x.Holds (s.buf b).dev (s.buf b).sector) : CacheStep s (s.setBuf b x) := by
  refine ⟨rfl, rfl, rfl, rfl, rfl, ?_⟩
  intro b' dirty
  by_cases same : b' = b
  · subst same
    rw [buf_setBuf_self]
    exact pinned dirty
  · rw [buf_setBuf_of_ne same]
    exact ⟨dirty, rfl, rfl⟩

theorem modifyBuf_step {f : Buf → Buf} (dirty : ∀ x, x.dirty = true → (f x).dirty = true)
    (holds : ∀ x, (f x).Holds x.dev x.sector) : (modifyBuf b f).Within CacheStep :=
  Code.Within.modify fun s => cacheStep_setBuf fun set => ⟨dirty _ set, holds (s.buf b)⟩

theorem modify_step {f : State → State} (same : ∀ s, (f s).inode = s.inode ∧ (f s).file = s.file ∧
    (f s).openfiles = s.openfiles ∧ (f s).cwd = s.cwd ∧ (f s).first = s.first ∧ (f s).buf = s.buf) :
    (Code.modify f : KernM PUnit).Within CacheStep := by
  refine Code.Within.modify fun s => ?_
  obtain ⟨inode, file, openfiles, cwd, first, buf⟩ := same s
  refine ⟨inode, file, openfiles, cwd, first, ?_⟩
  rw [buf]
  exact fun _ dirty => ⟨dirty, rfl, rfl⟩

variable {l lk : Lock} {chan : Chan} {dev sector : Word}

theorem acquire_step : (acquire l).Within CacheStep :=
  .get fun _ => .both .stop <| modify_step fun _ => ⟨rfl, rfl, rfl, rfl, rfl, rfl⟩

theorem release_step : (release l).Within CacheStep := modify_step fun _ => ⟨rfl, rfl, rfl, rfl, rfl, rfl⟩

theorem modifyLog_step {f : Log → Log} : (modifyLog f).Within CacheStep :=
  modify_step fun _ => ⟨rfl, rfl, rfl, rfl, rfl, rfl⟩

theorem threadWakeup_step : (threadWakeup chan).Within CacheStep :=
  .seq acquire_step <| .seq (modify_step fun _ => ⟨rfl, rfl, rfl, rfl, rfl, rfl⟩) release_step

theorem cacheStep_fallAsleep {p : Nat} : CacheStep s (s.fallAsleep p chan lk) :=
  ⟨rfl, rfl, rfl, rfl, rfl, fun _ dirty => ⟨dirty, rfl, rfl⟩⟩

theorem sleepWhile_step {blocked : State → Option Chan} : (sleepWhile lk blocked).Within CacheStep := by
  intro p s
  unfold sleepWhile
  cases blocked s with
  | none => exact CacheStep.refl s
  | some chan =>
    simp only
    split
    · trivial
    · refine ⟨cacheStep_fallAsleep, ?_⟩
      intro s'
      beta_reduce
      refine ⟨?_, ?_⟩
      · intro t left
        split at left
        · cases left
        · obtain ⟨chan', _, rfl⟩ := Option.map_eq_some_iff.mp left
          exact cacheStep_fallAsleep
      · split
        · trivial
        · split
          · trivial
          · exact ⟨rfl, rfl, rfl, rfl, rfl, fun _ dirty => ⟨dirty, rfl, rfl⟩⟩

theorem ideRw_step : (ideRw b).Within CacheStep := by
  refine .get fun _ => .both .stop <| .both .stop <| .both .stop ?_
  refine .seq acquire_step <| .get fun _ => .seq ?_ <| .seq ?_ <| .seq sleepWhile_step release_step
  · exact modify_step fun _ => ⟨rfl, rfl, rfl, rfl, rfl, rfl⟩
  · exact .both (modify_step fun _ => ⟨rfl, rfl, rfl, rfl, rfl, rfl⟩) .pure

theorem bufcacheGet_step : (bufcacheGet dev sector).Within CacheStep := by
  refine .seq acquire_step <| .seq sleepWhile_step <| .read fun p s => ?_
  cases s.cached dev sector with
  | some b =>
    have taken : CacheStep s (s.setBuf b { s.buf b with busy := true }) :=
      cacheStep_setBuf fun dirty => ⟨dirty, rfl, rfl⟩
    exact Turn.Within.bind taken fun _ => Code.Within.bind .note (fun _ => .seq release_step .pure) p
  | none =>
    cases victim : s.recyclable with
    | none => trivial
    | some b =>
      -- a dirty buffer is no candidate
      have clean : (s.buf b).dirty = false := by
        have idle := List.find?_some victim
        simp at idle
        exact idle.2
      have taken : ∀ x : Buf, CacheStep s (s.setBuf b x) :=
        fun x => cacheStep_setBuf fun dirty => absurd dirty (by simp [clean])
      exact Turn.Within.bind (taken _) fun _ => Code.Within.bind .note (fun _ => .seq release_step .pure) p

theorem bufcacheRead_step : (bufcacheRead dev sector).Within CacheStep :=
  .seq .note <| .seq bufcacheGet_step <| .get fun _ =>
    .seq (.both ideRw_step .pure) .pure

theorem bufcacheWrite_step : (bufcacheWrite b).Within CacheStep :=
  .get fun _ => .both .stop <| .seq (modifyBuf_step (fun _ _ => rfl) fun _ => ⟨rfl, rfl⟩) ideRw_step

theorem bufcacheRelease_step : (bufcacheRelease b).Within CacheStep := by
  refine .get fun _ => .both .stop <| .seq acquire_step <| .seq ?_ <| .seq ?_ <|
    .seq .note <| .seq threadWakeup_step release_step
  · exact modify_step fun _ => ⟨rfl, rfl, rfl, rfl, rfl, rfl⟩
  · exact modifyBuf_step (fun _ dirty => dirty) fun _ => ⟨rfl, rfl⟩

theorem modifyData_step {f : Block → Block} : (modifyData b f).Within CacheStep :=
  modifyBuf_step (fun _ dirty => dirty) fun _ => ⟨rfl, rfl⟩

theorem memmove_step {dst src : Fin nbuf} : (memmove dst src).Within CacheStep :=
  Code.Within.modify fun _ => cacheStep_setBuf fun dirty => ⟨dirty, rfl, rfl⟩

theorem readSuperblock_step : (readSuperblock dev).Within CacheStep :=
  .seq bufcacheRead_step <| .get fun _ => .seq bufcacheRelease_step .pure

structure SameRest (s t : State) : Prop where
  inode : t.inode = s.inode
  file : t.file = s.file
  openfiles : t.openfiles = s.openfiles
  cwd : t.cwd = s.cwd
  first : t.first = s.first

instance instPreorderSameRest : IsPreorder State SameRest where
  refl _ := ⟨rfl, rfl, rfl, rfl, rfl⟩
  trans _ _ _ first second :=
    ⟨second.inode.trans first.inode, second.file.trans first.file, second.openfiles.trans first.openfiles,
      second.cwd.trans first.cwd, second.first.trans first.first⟩

theorem ideIntr_rest {error : Bool} : (ideIntr error).Within SameRest := by
  have acquired : ∀ l, (acquire l).Within SameRest :=
    fun l => .get fun _ => .both .stop <| .modify fun _ => ⟨rfl, rfl, rfl, rfl, rfl⟩
  have changed : ∀ {f : State → State}, (∀ s, SameRest s (f s)) → (Code.modify f : KernM PUnit).Within SameRest :=
    fun same => .modify same
  refine .seq (acquired .ide) <| .get fun t => ?_
  cases t.idequeue with
  | nil => exact changed fun _ => ⟨rfl, rfl, rfl, rfl, rfl⟩
  | cons b rest =>
    refine .seq (changed fun _ => ⟨rfl, rfl, rfl, rfl, rfl⟩) <| .seq ?_ <|
      .seq (changed fun _ => ⟨rfl, rfl, rfl, rfl, rfl⟩) <| .seq ?_ <| .seq ?_ <|
        changed fun _ => ⟨rfl, rfl, rfl, rfl, rfl⟩
    · exact .both (changed fun _ => ⟨rfl, rfl, rfl, rfl, rfl⟩) .pure
    · exact .seq (acquired .sched) <| .seq (changed fun _ => ⟨rfl, rfl, rfl, rfl, rfl⟩) <|
        changed fun _ => ⟨rfl, rfl, rfl, rfl, rfl⟩
    · cases rest with
      | nil => exact .pure
      | cons next rest => exact changed fun _ => ⟨rfl, rfl, rfl, rfl, rfl⟩

/-! ## `log.c` -/

theorem installBlock_step {tail : Nat} : (installBlock tail).Within CacheStep :=
  .get fun _ => .seq bufcacheRead_step <| .get fun _ => .seq bufcacheRead_step <| .seq memmove_step
    <| .seq bufcacheWrite_step <| .seq bufcacheRelease_step bufcacheRelease_step

theorem installLoop_step (fuel tail : Nat) : (installLoop fuel tail).Within CacheStep := by
  induction fuel generalizing tail with
  | zero => exact .stop
  | succ fuel ih =>
    exact .get fun _ => .both (.seq installBlock_step <| ih (tail + 1)) .pure

theorem writeHead_step : writeHead.Within CacheStep :=
  .get fun _ => .seq bufcacheRead_step <| .get fun _ => .both .stop <| .seq modifyData_step
    <| .seq bufcacheWrite_step bufcacheRelease_step

theorem readHead_step : readHead.Within CacheStep :=
  .get fun _ => .seq bufcacheRead_step <| .get fun _ => .both .stop <| .seq modifyLog_step
    bufcacheRelease_step

theorem recoverFromLog_step : recoverFromLog.Within CacheStep :=
  .seq readHead_step <| .seq (installLoop_step _ _) <| .seq modifyLog_step <|
    .seq writeHead_step .note

theorem logInit_step : logInit.Within CacheStep :=
  .seq .note <| .seq release_step <| .seq readSuperblock_step <| .seq modifyLog_step recoverFromLog_step

theorem beginTrans_step : beginTrans.Within CacheStep :=
  .seq acquire_step <| .seq sleepWhile_step <| .seq modifyLog_step <| .seq .note release_step

theorem commitTrans_step : commitTrans.Within CacheStep := by
  refine .get fun _ => .seq (.both ?_ .pure) <| .seq acquire_step <|
    .seq modifyLog_step <| .seq .note <| .seq threadWakeup_step release_step
  exact .seq writeHead_step <| .seq (installLoop_step _ _) <| .seq modifyLog_step writeHead_step

theorem logWrite_step : (logWrite b).Within CacheStep := by
  refine .get fun _ => .seq .note <| .both .stop <| .both .stop ?_
  refine .seq modifyLog_step <| .seq bufcacheRead_step <| .seq memmove_step <|
    .seq bufcacheWrite_step <| .seq bufcacheRelease_step <| .seq modifyLog_step ?_
  exact modifyBuf_step (fun _ _ => rfl) fun _ => ⟨rfl, rfl⟩

end Certikos.FileSys
