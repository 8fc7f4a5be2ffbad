import Certikos.FileSys.Syscall
import Certikos.Lib.Yields

/-!
# The replies of the file system

Every exit of every call on files sets an error number, except those of `sys_pwd`.
-/

namespace Certikos.FileSys
open Lib

def Reply.HasErrno (r : Reply) : Prop := ∃ e, r.errno = some e

variable {path : List Byte}

variable {ip dp : Slot} {fd userBuf n omode off : Word}

theorem hasErrno_failed (e : ErrorNr) : (failed e).HasErrno := ⟨e, rfl⟩

theorem hasErrno_failedWith (e : ErrorNr) : (failedWith e).HasErrno := ⟨e, rfl⟩

theorem hasErrno_succeeded : succeeded.HasErrno := ⟨_, rfl⟩

theorem readLocked_errno : (readLocked fd userBuf n).OnlyYields Reply.HasErrno := by
  unfold readLocked
  refine .bind fun p => ?_
  split
  · exact .pure (hasErrno_failedWith _)
  · refine .bind fun s => ?_
    split
    · exact .pure (hasErrno_failedWith _)
    · refine .bind fun read => ?_
      split
      · exact .pure ⟨_, rfl⟩
      · exact .pure (hasErrno_failedWith _)

theorem sysRead_errno : (sysRead fd userBuf n).OnlyYields Reply.HasErrno := by
  unfold sysRead
  refine .seq <| .bind_of readLocked_errno fun reply has => ?_
  exact .seq <| .pure has

theorem writeLocked_errno {data : List Byte} : (writeLocked fd userBuf n data).OnlyYields Reply.HasErrno := by
  unfold writeLocked
  refine .bind fun p => ?_
  split
  · exact .pure (hasErrno_failedWith _)
  · refine .bind fun s => ?_
    split
    · exact .pure (hasErrno_failedWith _)
    · exact .bind fun written => .ite (.pure ⟨_, rfl⟩) (.pure (hasErrno_failedWith _))

theorem sysWrite_errno {data : List Byte} : (sysWrite fd userBuf n data).OnlyYields Reply.HasErrno := by
  unfold sysWrite
  refine .seq <| .bind_of writeLocked_errno fun reply has => ?_
  exact .seq <| .pure has

theorem sysClose_errno : (sysClose fd).OnlyYields Reply.HasErrno := by
  unfold sysClose
  refine .bind fun p => .bind fun s => .ite (.pure (hasErrno_failedWith _)) ?_
  split
  · exact .pure (hasErrno_failedWith _)
  · exact .seq <| .seq <| .pure ⟨_, rfl⟩

theorem sysFstat_errno {userStp : Word} : (sysFstat fd userStp).OnlyYields Reply.HasErrno := by
  unfold sysFstat
  refine .bind fun p => .bind fun s => .ite (.pure (hasErrno_failedWith _)) ?_
  split
  · exact .pure (hasErrno_failedWith _)
  · refine .bind fun st => ?_
    split
    · exact .pure ⟨_, rfl⟩
    · exact .pure (hasErrno_failedWith _)

theorem undoLink_errno : (undoLink ip).OnlyYields Reply.HasErrno := by
  unfold undoLink
  exact .seq <| .seq <| .seq <| .seq <| .seq <| .pure (hasErrno_failed _)

theorem finishLink_errno {linked : Bool} : (finishLink ip dp linked).OnlyYields Reply.HasErrno := by
  unfold finishLink
  exact .seq <| .ite (.seq <| .seq <| .pure hasErrno_succeeded) undoLink_errno

theorem sysLink_errno {old new : List Byte} : (sysLink old new).OnlyYields Reply.HasErrno := by
  unfold sysLink
  refine .bind fun ip => .ite (.pure (hasErrno_failed _)) (.seq <| .seq <| .bind fun s => .ite ?_ ?_)
  · exact .seq <| .seq <| .pure (hasErrno_failed _)
  · refine .seq <| .seq <| .seq <| .bind fun found => .ite undoLink_errno ?_
    refine .seq <| .bind fun s => ?_
    exact .ite (.seq finishLink_errno) (.seq finishLink_errno)

theorem undoUnlink_errno : (undoUnlink dp).OnlyYields Reply.HasErrno := by
  unfold undoUnlink
  exact .seq <| .seq <| .pure (hasErrno_failed _)

theorem removeEntry_errno {empty : Bool} : (removeEntry dp ip off empty).OnlyYields Reply.HasErrno := by
  unfold removeEntry
  refine .ite (.seq undoUnlink_errno) (.bind fun written => .ite .stop (.bind fun s => .seq ?_))
  exact .seq <| .seq <| .seq <| .seq <| .seq <| .pure hasErrno_succeeded

theorem sysUnlink_errno : (sysUnlink path).OnlyYields Reply.HasErrno := by
  unfold sysUnlink
  refine .bind fun parent => .ite (.pure (hasErrno_failed _)) (.seq <| .seq <| .ite undoUnlink_errno ?_)
  refine .bind fun found => .ite undoUnlink_errno (.seq <| .bind fun s => .ite .stop ?_)
  exact .ite (.seq removeEntry_errno) (.seq removeEntry_errno)

theorem openInode_errno : (openInode ip omode).OnlyYields Reply.HasErrno := by
  unfold openInode
  refine .bind fun f => ?_
  split
  · exact .seq <| .pure (hasErrno_failedWith _)
  · refine .bind fun fd => ?_
    split
    · exact .seq <| .seq <| .pure (hasErrno_failedWith _)
    · exact .seq <| .seq <| .pure ⟨_, rfl⟩

theorem sysOpen_errno : (sysOpen path omode).OnlyYields Reply.HasErrno := by
  unfold sysOpen
  refine .bind fun s => .seq <| .ite ?_ ?_
  · refine .seq <| .bind fun ip => .seq ?_
    exact .ite (.pure (hasErrno_failedWith _)) openInode_errno
  · refine .bind fun ip => .ite (.pure (hasErrno_failedWith _)) (.seq <| .bind fun s => .ite ?_ openInode_errno)
    exact .seq <| .pure (hasErrno_failedWith _)

theorem sysMkdir_errno : (sysMkdir path).OnlyYields Reply.HasErrno := by
  unfold sysMkdir
  refine .seq <| .bind fun ip => .ite (.seq <| .pure (hasErrno_failed _)) ?_
  exact .seq <| .seq <| .pure hasErrno_succeeded

theorem sysChdir_errno : (sysChdir path).OnlyYields Reply.HasErrno := by
  unfold sysChdir
  refine .bind fun p => .bind fun ip => .ite (.pure (hasErrno_failed _)) (.seq <| .bind fun s => .ite ?_ ?_)
  · exact .seq <| .pure (hasErrno_failed _)
  · exact .seq <| .bind fun s => .seq <| .seq <| .pure hasErrno_succeeded

theorem sysIsDir_errno : (sysIsDir fd).OnlyYields Reply.HasErrno := by
  unfold sysIsDir
  refine .bind fun p => .bind fun s => .ite .stop ?_
  split
  · exact .pure (hasErrno_failedWith _)
  · exact .seq <| .pure ⟨_, rfl⟩

theorem sysPwd_errno {stack : List Byte} : (sysPwd stack).OnlyYields fun r => r.errno = none := by
  unfold sysPwd
  exact .bind fun curi => .bind fun up => .bind fun found => .pure rfl

def lsReply (bufLen : Word) (names : List Byte) : Reply :=
  let len := if (names.length : Int) < bufLen.toInt then BitVec.ofNat 32 names.length else bufLen
  ⟨some .succ, some len, (names.dropLast ++ [0]).take len.toNat⟩

theorem sysLs_reply {bufLen : Word} {stack : List Byte} {r : Reply} (yields : (sysLs bufLen stack).Yields r) :
    ∃ dp names, (lsLoop dp stack direntFuel 0).Yields names ∧ r = lsReply bufLen names := by
  unfold sysLs at yields
  obtain ⟨dp, -, rest⟩ := yields.of_bind
  obtain ⟨-, -, rest⟩ := rest.of_bind
  obtain ⟨names, listed, rest⟩ := rest.of_bind
  obtain ⟨-, -, rest⟩ := rest.of_bind
  exact ⟨dp, names, listed, rest.of_pure⟩

end Certikos.FileSys
