import Certikos.FileSys.Kernel
import Certikos.Lib.Interact

/-!
# The shell

`user/shell/shell.c` with the stubs of `user/include/syscall.h` it calls. The shell is a program that asks the kernel,
and two questions of its own: what lies in memory that it has not written, and what `EAX` holds when a function with a
value ends without one.
-/

namespace Certikos.Shell
open Lib
open FileSys (cstring)

abbrev CString := List Byte

def ascii (s : String) : CString := s.toList.map fun c => BitVec.ofNat 8 c.toNat

inductive Request
  | open (path : CString) (omode : Word)
  | close (fd : Int)
  | read (fd : Int) (n : Nat)
  | write (fd : Int) (bytes : List Byte)
  | unlink (path : CString)
  | mkdir (path : CString)
  | chdir (path : CString)
  | isDir (fd : Int)
  | ls (n : Nat)
  | pwd
  | kill (pid signum : Int)
  | sigaction (signum : Int)
  | spawn (elf quota : Word)
  | yield
  | readline
  | memory
  | eax

structure Answer where
  eax : Word
  ebx : Word
  bytes : List Byte

inductive Halt
  | nullPointer
  | overrun
  | starved
  | exited
  deriving DecidableEq, Repr

abbrev ShellM := Interact Request Answer Halt

abbrev oRdonly : Word := 0x000
abbrev oRdwr : Word := 0x002
abbrev oCreate : Word := 0x200

abbrev buflen : Nat := 1024
abbrev maxargs : Nat := 16

/-! ## Stubs and strings -/

def ask (r : Request) : ShellM Answer := Interact.call r

def halt (h : Halt) : ShellM α := Interact.stop h

def Answer.status (a : Answer) (ret : Int) : Int := if a.eax = 0#32 then ret else -1

def Answer.value (a : Answer) : Int := a.status a.ebx.toInt

def sysValue (r : Request) : ShellM Int := do
  let a ← ask r
  pure a.value

def sysStatus (r : Request) : ShellM Int := do
  let a ← ask r
  pure (a.status 0)

def sysOpen (path : CString) (omode : Word) : ShellM Int := sysValue (.open path omode)
def sysClose (fd : Int) : ShellM Int := sysStatus (.close fd)
def sysWrite (fd : Int) (bytes : List Byte) : ShellM Int := sysValue (.write fd bytes)
def sysUnlink (path : CString) : ShellM Int := sysStatus (.unlink path)
def sysMkdir (path : CString) : ShellM Int := sysStatus (.mkdir path)
def sysChdir (path : CString) : ShellM Int := sysStatus (.chdir path)
def sysIsDir (fd : Int) : ShellM Int := sysValue (.isDir fd)
def sysKill (pid signum : Int) : ShellM Int := sysStatus (.kill pid signum)
def sysSigaction (signum : Int) : ShellM Int := sysStatus (.sigaction signum)
def sysSpawn (elf quota : Word) : ShellM Int := sysValue (.spawn elf quota)

/-- `sys_read` into a buffer that has not been written before: the value, and memory from the buffer on. -/
def sysRead (fd : Int) (n : Nat) : ShellM (Int × List Byte) := do
  let stale ← ask .memory
  let a ← ask (.read fd n)
  let read := a.bytes.take n
  pure (a.value, read ++ stale.bytes.drop read.length)

def sysLs (n : Nat) : ShellM (Int × List Byte) := do
  let a ← ask (.ls n)
  pure (a.value, a.bytes)

/-- The kernel copies the path to the address in `EAX`, so what the buffer then holds may be anything. -/
def sysPwd : ShellM CString := do
  let a ← ask .pwd
  pure (cstring a.bytes)

def noValue : ShellM Int := do
  let a ← ask .eax
  pure a.eax.toInt

def unset : ShellM Int := do
  let a ← ask .memory
  pure a.ebx.toInt

def deref (p : Option CString) : ShellM CString :=
  match p with
  | some s => pure s
  | none => halt .nullPointer

def strcpy (size off : Nat) (src : CString) : ShellM CString :=
  if off + src.length < size then pure src else halt .overrun

def digits (s : CString) : CString := s.takeWhile fun c => 48#8 ≤ c && c ≤ 57#8

def atoi (s : CString) : Option Word :=
  let negative := s.head? = some 45#8
  let s := if negative ∨ s.head? = some 43#8 then s.tail else s
  let acc := (digits s).foldl (fun acc c => acc * 10#32 + (c.setWidth 32 - 48#32)) 0
  if digits s = [] then none else some (if negative then -acc else acc)

def strToInt (s : CString) : Int := ((atoi s).getD 0).toInt

def dot : CString := ascii "."
def dotdot : CString := ascii ".."
def slash : Byte := 47#8
def blank : Byte := 32#8
def dashR : CString := ascii "-r"

/-! ## Files -/

def isFileExist (path : CString) : ShellM Int := do
  let fd ← sysOpen path oRdonly
  if fd = -1 then pure 0
  else do
    let _ ← sysClose fd
    pure 1

def isDir (path : CString) : ShellM Int := do
  let there ← isFileExist path
  let fd ← (if there ≠ 0 then sysOpen path oRdonly else unset : ShellM Int)
  let dir ← sysIsDir fd
  let _ ← sysClose fd
  pure dir

def isDirThere (path : CString) : ShellM Int := do
  let there ← isFileExist path
  if there ≠ 0 then isDir path else pure 0

def rmFile (filename : CString) : ShellM Int := sysUnlink filename

/-- The buffer of `ls_dir`, where a null byte has taken the place of each blank, and the length. -/
def lsDir (path : Option CString) : ShellM (Int × List Byte) := do
  let listing ←
    (match path with
    | none => sysLs buflen
    | some path => do
        let pwd ← sysPwd
        let _ ← sysChdir path
        let listing ← sysLs buflen
        let _ ← sysChdir pwd
        pure listing : ShellM (Int × List Byte))
  if (buflen : Int) < listing.1 then halt .overrun
  else pure (listing.1, listing.2.mapIdx fun i c => if (i : Int) < listing.1 ∧ c = blank then 0 else c)

def names (len : Int) (buf : List Byte) : Nat → Nat → List CString
  | 0, _ => []
  | fuel + 1, p =>
    if (p : Int) < len then
      let name := cstring (buf.drop p)
      name :: names len buf fuel (p + name.length + 1)
    else []

def entries (listing : Int × List Byte) : List CString :=
  (names listing.1 listing.2 listing.1.toNat 0).filter fun name => name ≠ dot ∧ name ≠ dotdot

def extractFilename (path : CString) : ShellM CString := do
  let stale ← ask .memory
  let base := (path.reverse.takeWhile fun c => c ≠ slash).reverse
  if 100 < base.length then halt .overrun
  else pure (cstring (base ++ stale.bytes.drop base.length))

def cpFile (dest src : CString) : ShellM Int := do
  let dir ← isDir src
  if dir ≠ 0 then do
    let _ ← sysMkdir dest
    pure 0
  else do
    let fd ← sysOpen src oRdonly
    let read ← sysRead fd 1000
    let _ ← sysClose fd
    let fd ← sysOpen dest (oCreate ||| oRdwr)
    let _ ← sysWrite fd (cstring read.2)
    let _ ← sysClose fd
    pure 0

def joinPath (dir name : CString) : ShellM CString := do
  let dir ← strcpy buflen 0 dir
  let name ← strcpy buflen (dir.length + 1) name
  pure (dir ++ slash :: name)

def shellCpPath : Nat → CString → CString → Bool → ShellM Int
  | 0, _, _, _ => halt .starved
  | fuel + 1, dest, src, recursive => do
      let there ← isFileExist src
      if there = 0 then pure 0
      else do
        let dir ← isDir src
        if recursive then
          if dir ≠ 0 then do
            let destThere ← isFileExist dest
            if destThere ≠ 0 then do
              let destDir ← isDir dest
              if destDir ≠ 0 then do
                let filename ← extractFilename src
                let path ← joinPath dest filename
                let _ ← shellCpPath fuel path src recursive
                pure 0
              else pure 0
            else do
              let _ ← cpFile dest src
              let listing ← lsDir (some src)
              (entries listing).forM fun name => do
                let destPath ← joinPath dest name
                let srcPath ← joinPath src name
                let _ ← shellCpPath fuel destPath srcPath recursive
                pure ()
              pure 0
          else do
            let _ ← shellCpPath fuel dest src false
            pure 0
        else if dir ≠ 0 then pure 0
        else do
          let destDir ← isDirThere dest
          if destDir ≠ 0 then do
            let filename ← extractFilename src
            let path ← joinPath dest filename
            let _ ← shellCpPath fuel path src recursive
            pure 0
          else do
            let _ ← cpFile dest src
            pure 0

def shellRmPath : Nat → CString → Bool → ShellM Int
  | 0, _, _ => halt .starved
  | fuel + 1, path, recursive => do
      let dir ← isDir path
      if recursive then
        if dir = 0 then rmFile path
        else do
          let _ ← sysChdir path
          let listing ← lsDir none
          (entries listing).forM fun name => do
            let _ ← shellRmPath fuel name recursive
            pure ()
          let _ ← sysChdir dotdot
          let _ ← rmFile path
          pure 0
      else if dir ≠ 0 then pure (-1)
      else rmFile path

def shellCatPath (path : CString) : ShellM Int := do
  let fd ← sysOpen path oRdonly
  if fd = -1 then pure (-1)
  else do
    let read ← sysRead fd 99
    -- the null byte is stored at `buf[size_read]`
    if read.1 < 0 ∨ 99 < read.1 then halt .overrun
    else do
      let _ ← sysClose fd
      pure 0

/-! ## Commands

Each takes the arguments after the name of the command: `argv[i + 1]` is `args[i]?`, and `argc` is one more than their
number. -/

def shellHelp : ShellM Int := pure 0

def shellLs (args : List CString) : ShellM Int := do
  match args with
  | [] => do
      let _ ← sysLs buflen
      pure 0
  | [path] => do
      let pwd ← sysPwd
      let _ ← sysChdir path
      let _ ← sysLs buflen
      let _ ← sysChdir pwd
      pure 0
  | _ => pure 0

def shellPwd : ShellM Int := do
  let _ ← sysPwd
  pure 0

def shellCd (args : List CString) : ShellM Int := do
  -- without an argument, `strcpy(path, '\0')` copies from the null pointer
  let dir ← deref args[0]?
  let path ← strcpy buflen 0 dir
  let _ ← sysChdir path
  noValue

def shellCp (fuel : Nat) (args : List CString) : ShellM Int := do
  match args with
  | [src, dest] => do
      let _ ← shellCpPath fuel dest src false
      pure 0
  | [option, src, dest] =>
    if option ≠ dashR then pure 0
    else do
      let _ ← shellCpPath fuel dest src true
      pure 0
  | _ => pure 0

def shellMvPath (fuel : Nat) (dest src : CString) (dir : Bool) : ShellM Int := do
  let _ ← shellCpPath fuel dest src true
  let _ ← shellRmPath fuel src dir
  pure 0

def shellMv (fuel : Nat) (args : List CString) : ShellM Int := do
  match args with
  | [src, dest] => do
      let there ← isFileExist src
      if there = 0 then pure 0
      else do
        let dir ← isDir src
        if dir ≠ 0 then do
          let destThere ← isFileExist dest
          if destThere ≠ 0 then do
            let destDir ← isDir dest
            if destDir = 0 then pure 0 else shellMvPath fuel dest src true
          else shellMvPath fuel dest src true
        else shellMvPath fuel dest src false
  | _ => pure 0

/-- With `-r` alone the test `pathIdx > argc + 1` lets the null pointer through. -/
def shellRm (fuel : Nat) (args : List CString) : ShellM Int := do
  match args with
  | [] => pure 0
  | first :: rest => do
      let path ← (if first = dashR then deref rest[0]? else pure first : ShellM CString)
      let there ← isFileExist path
      if there = 0 then pure 0
      else do
        let _ ← shellRmPath fuel path (first = dashR)
        pure 0

def shellMkdir (args : List CString) : ShellM Int := do
  args.forM fun path => do
    let _ ← sysMkdir path
    pure ()
  pure 0

def shellCat (args : List CString) : ShellM Int := do
  if args = [] then noValue
  else do
    args.forM fun path => do
      let _ ← shellCatPath path
      pure ()
    pure 0

def shellTouch (args : List CString) : ShellM Int := do
  if args = [] then noValue
  else do
    args.forM fun path => do
      let fd ← sysOpen path oRdonly
      if 0 ≤ fd then do
        let _ ← sysClose fd
        pure ()
      else do
        let fd ← sysOpen path oCreate
        let _ ← sysClose fd
        pure ()
    pure 0

def shellWrite (args : List CString) : ShellM Int := do
  match args with
  | [] => pure 0
  | text :: rest => do
      let path ← deref rest[0]?
      let fd ← sysOpen path (oCreate ||| oRdwr)
      if 0 ≤ fd then do
        let _ ← sysWrite fd text
        let _ ← sysClose fd
        pure 0
      else pure 0

/-- `strncpy(buf + n, text, strlen(text))` in the buffer of 1000 characters at the head of the memory. -/
def appendText (n : Int) (memory : List Byte) (text : CString) : ShellM (List Byte) :=
  if 0 ≤ n ∧ n + text.length ≤ 1000 then
    pure (memory.take n.toNat ++ text ++ memory.drop (n.toNat + text.length))
  else halt .overrun

def shellAppend (args : List CString) : ShellM Int := do
  match args with
  | [] => pure 0
  | text :: rest => do
      let path ← deref rest[0]?
      let fd ← sysOpen path oRdonly
      if 0 ≤ fd then do
        let read ← sysRead fd 1000
        let _ ← sysClose fd
        let memory := if read.1 = 0 then read.2.set 0 0 else read.2
        let fd ← sysOpen path (oCreate ||| oRdwr)
        if fd < 0 then pure 0
        else do
          let memory ← appendText read.1 memory text
          let _ ← sysWrite fd (cstring memory)
          let _ ← sysClose fd
          pure 0
      else pure 0

def shellKill (args : List CString) : ShellM Int := do
  match args with
  | signal :: pid :: _ => do
      let sig := if signal.head? = some 45#8 then strToInt signal.tail else strToInt signal
      let pid := strToInt pid
      if sig < 1 ∨ 31 < sig then noValue
      else if pid < 1 ∨ 63 < pid then noValue
      else do
        let _ ← sysKill pid sig
        noValue
  | _ => noValue

def shellTrap (args : List CString) : ShellM Int := do
  match args with
  | [] => pure (-1)
  | signal :: _ =>
    let signum := strToInt signal
    if signum < 1 ∨ 32 ≤ signum then pure (-1)
    else do
      let result ← sysSigaction signum
      if result < 0 then pure (-1) else pure 0

def shellSpawn (args : List CString) : ShellM Int := do
  match args with
  | [] => pure (-1)
  | elf :: _ =>
    let elfId := strToInt elf
    if elfId < 1 ∨ 8 < elfId then pure (-1)
    else do
      let pid ← sysSpawn (BitVec.ofInt 32 elfId) 1000
      if pid ≠ -1 then pure 0 else pure (-1)

def shellTestSignal (args : List CString) : ShellM Int := do
  match args with
  | [] => pure (-1)
  | test :: _ =>
    if test = ascii "sigsegv" then do
      let pid ← sysSpawn 6 1000
      if pid = -1 then pure (-1)
      else do
        let _ ← ask .yield
        pure 0
    else if test = ascii "sigint" then do
      let pid ← sysSpawn 7 1000
      if pid = -1 then pure (-1) else pure 0
    else if test = ascii "sigint-custom" then do
      let pid ← sysSpawn 8 1000
      if pid = -1 then pure (-1) else pure 0
    else pure (-1)

inductive Command
  | ls | pwd | cd | cp | mv | rm | mkdir | cat | touch | write | append | help | kill | trap | spawn | test
  deriving DecidableEq, Repr

def commands : List (CString × Command) :=
  [(ascii "ls", .ls), (ascii "pwd", .pwd), (ascii "cd", .cd), (ascii "cp", .cp), (ascii "mv", .mv), (ascii "rm", .rm),
    (ascii "mkdir", .mkdir), (ascii "cat", .cat), (ascii "touch", .touch), (ascii "write", .write),
    (ascii "append", .append), (ascii "help", .help), (ascii "kill", .kill), (ascii "trap", .trap),
    (ascii "spawn", .spawn), (ascii "test", .test)]

def Command.func (fuel : Nat) (args : List CString) : Command → ShellM Int
  | .ls => shellLs args
  | .pwd => shellPwd
  | .cd => shellCd args
  | .cp => shellCp fuel args
  | .mv => shellMv fuel args
  | .rm => shellRm fuel args
  | .mkdir => shellMkdir args
  | .cat => shellCat args
  | .touch => shellTouch args
  | .write => shellWrite args
  | .append => shellAppend args
  | .help => shellHelp
  | .kill => shellKill args
  | .trap => shellTrap args
  | .spawn => shellSpawn args
  | .test => shellTestSignal args

/-! ## Lines -/

def whitespace : CString := ascii "\t\r\n "

/-- The words of the line from here on, after `argc` others; `none` if they are more than `argv` takes. -/
def splitLine : Nat → Nat → CString → Option (List CString)
  | 0, _, _ => some []
  | fuel + 1, argc, buf =>
    let buf := buf.dropWhile fun c => c ∈ whitespace
    if buf = [] then some []
    else if argc = maxargs - 1 then none
    else
      let word := buf.takeWhile fun c => c ∉ whitespace
      (splitLine fuel (argc + 1) (buf.drop word.length)).map (word :: ·)

def runcmd (fuel : Nat) (buf : CString) : ShellM Int :=
  match splitLine (buf.length + 1) 0 buf with
  | none => pure 0
  | some [] => pure 0
  | some (name :: args) =>
    match commands.lookup name with
    | some c => c.func fuel args
    | none => pure 0

/-- The loop of `main`, once for each element of the list, which bounds the recursion of the command. -/
def mainLoop : List Nat → ShellM Unit
  | [] => pure ()
  | fuel :: rounds => do
      let a ← ask .readline
      if a.status 0 < 0 then mainLoop rounds
      else if cstring a.bytes = [] then mainLoop rounds
      else do
        let result ← runcmd fuel (cstring a.bytes)
        if result < 0 then halt .exited else mainLoop rounds

end Certikos.Shell
