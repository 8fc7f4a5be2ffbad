import Certikos.Shell.Program

/-!
# Which lines end the shell

The kernel may answer anything: the answers are a stream, one for each question in turn. Against it, each command
returns a value that is not negative under a condition on its arguments and on the answers it gets, and the loop of
`main` goes on as long as the lines it reads meet theirs.
-/

namespace Certikos.Shell
open Lib
open FileSys (cstring)

abbrev Answers := Nat → Answer

def Answers.later (answers : Answers) (n : Nat) : Answers := fun i => answers (i + n)

def inTurn (answers : Answers) (_ : Request) : Answer × Answers := (answers 0, answers.later 1)

variable {n : Nat} {c : Command} {rounds : List Nat}

@[simp] theorem later_apply {answers : Answers} {i : Nat} : answers.later n i = answers (i + n) := rfl

@[simp] theorem later_later {answers : Answers} {m : Nat} : (answers.later m).later n = answers.later (m + n) := by
  funext i
  simp only [later_apply]
  congr 1
  omega

def Completes (m : Nat → ShellM Int) (answers : Answers) : Prop :=
  ∃ fuel, (m fuel).Ends inTurn answers fun _ _ => True

def Survives (answers : Answers) (line : List Byte) : Prop :=
  ∃ fuel, (runcmd fuel (cstring line)).Ends inTurn answers fun v _ => 0 ≤ v

def CatReads : Answers → List CString → Prop
  | _, [] => True
  | answers, _ :: paths =>
    if (answers 0).value = -1 then CatReads (answers.later 1) paths
    else 0 ≤ (answers 2).value ∧ (answers 2).value ≤ 99 ∧ CatReads (answers.later 4) paths

def AppendFits (answers : Answers) (text : CString) : Prop :=
  0 ≤ (answers 0).value → 0 ≤ (answers 4).value →
    0 ≤ (answers 2).value ∧ (answers 2).value + text.length ≤ 1000

def Sends : List CString → Prop
  | signal :: pid :: _ =>
    let sig := if signal.head? = some 45#8 then strToInt signal.tail else strToInt signal
    (1 ≤ sig ∧ sig ≤ 31) ∧ 1 ≤ strToInt pid ∧ strToInt pid ≤ 63
  | _ => False

instance decidableSends : (args : List CString) → Decidable (Sends args)
  | [] | [_] => .isFalse id
  | _ :: _ :: _ => inferInstanceAs (Decidable ((_ ∧ _) ∧ _ ∧ _))

def Command.Stays (answers : Answers) (args : List CString) : Command → Prop
  | .ls | .pwd | .mkdir | .help => True
  | .cd => ∃ dir, args[0]? = some dir ∧ dir.length < buflen ∧ 0 ≤ (answers 1).eax.toInt
  | .cp =>
    match args with
    | [src, dest] => Completes (fun fuel => shellCpPath fuel dest src false) answers
    | [option, src, dest] => option = dashR → Completes (fun fuel => shellCpPath fuel dest src true) answers
    | _ => True
  | .mv => args.length = 2 → Completes (fun fuel => shellMv fuel args) answers
  | .rm =>
    args[0]? = some dashR → 2 ≤ args.length ∧ Completes (fun fuel => shellRm fuel args) answers
  | .cat => if args = [] then 0 ≤ (answers 0).eax.toInt else CatReads answers args
  | .touch => args = [] → 0 ≤ (answers 0).eax.toInt
  | .write => args.length ≠ 1
  | .append => args.length ≠ 1 ∧ ∀ text, args[0]? = some text → AppendFits answers text
  | .kill => 0 ≤ (answers (if Sends args then 1 else 0)).eax.toInt
  | .trap => ∃ signal, args[0]? = some signal ∧ 1 ≤ strToInt signal ∧ strToInt signal < 32 ∧ (answers 0).eax = 0#32
  | .spawn => ∃ elf, args[0]? = some elf ∧ 1 ≤ strToInt elf ∧ strToInt elf ≤ 8 ∧ (answers 0).value ≠ -1
  | .test =>
    ∃ test, args[0]? = some test ∧ test ∈ [ascii "sigsegv", ascii "sigint", ascii "sigint-custom"] ∧
      (answers 0).value ≠ -1

def command (line : CString) : Option (Command × List CString) :=
  match splitLine (line.length + 1) 0 line with
  | some (name :: args) => (commands.lookup name).map fun c => (c, args)
  | _ => none

/-! ## Calls that always return -/

theorem sysValue_total {r : Request} : (sysValue r).Total := .bind .call fun _ => .pure

theorem sysStatus_total {r : Request} : (sysStatus r).Total := .bind .call fun _ => .pure

theorem unset_total : unset.Total := .bind .call fun _ => .pure

variable {path : CString} {fuel : Nat} {line : CString}

theorem isFileExist_total : (isFileExist path).Total := by
  apply Interact.Total.bind sysValue_total
  intro fd
  exact .ite .pure (.bind sysStatus_total fun _ => .pure)

theorem isDir_total : (isDir path).Total := by
  apply Interact.Total.bind isFileExist_total
  intro there
  apply Interact.Total.bind (.ite sysValue_total unset_total)
  intro fd
  apply Interact.Total.bind sysValue_total
  intro dir
  exact .bind sysStatus_total fun _ => .pure

theorem shellRmPath_total : (shellRmPath (fuel + 1) path false).Total := by
  apply Interact.Total.bind isDir_total
  intro dir
  rw [if_neg Bool.false_ne_true]
  exact .ite .pure sysStatus_total

/-! ## The answers a call takes -/

section Takes

variable {answers : Answers} {r : Request}

@[simp] theorem ask_ends {Q : Answer → Answers → Prop} :
    (ask r).Ends inTurn answers Q ↔ Q (answers 0) (answers.later 1) := Interact.ends_call

@[simp] theorem halt_ends {α : Type} {h : Halt} {Q : α → Answers → Prop} : ¬(halt h : ShellM α).Ends inTurn answers Q :=
  Interact.ends_stop

variable {Q : Int → Answers → Prop}

theorem sysValue_ends : (sysValue r).Ends inTurn answers Q ↔ Q (answers 0).value (answers.later 1) := by
  simp [sysValue]

theorem sysStatus_ends : (sysStatus r).Ends inTurn answers Q ↔ Q ((answers 0).status 0) (answers.later 1) := by
  simp [sysStatus]

@[simp] theorem sysOpen_ends {omode : Word} :
    (sysOpen path omode).Ends inTurn answers Q ↔ Q (answers 0).value (answers.later 1) := sysValue_ends

variable {fd signum : Int}

@[simp] theorem sysWrite_ends {bytes : List Byte} :
    (sysWrite fd bytes).Ends inTurn answers Q ↔ Q (answers 0).value (answers.later 1) := sysValue_ends

@[simp] theorem sysSpawn_ends {elf quota : Word} :
    (sysSpawn elf quota).Ends inTurn answers Q ↔ Q (answers 0).value (answers.later 1) := sysValue_ends

@[simp] theorem sysClose_ends :
    (sysClose fd).Ends inTurn answers Q ↔ Q ((answers 0).status 0) (answers.later 1) := sysStatus_ends

@[simp] theorem sysChdir_ends :
    (sysChdir path).Ends inTurn answers Q ↔ Q ((answers 0).status 0) (answers.later 1) := sysStatus_ends

@[simp] theorem sysKill_ends {pid : Int} :
    (sysKill pid signum).Ends inTurn answers Q ↔ Q ((answers 0).status 0) (answers.later 1) := sysStatus_ends

@[simp] theorem sysSigaction_ends :
    (sysSigaction signum).Ends inTurn answers Q ↔ Q ((answers 0).status 0) (answers.later 1) := sysStatus_ends

@[simp] theorem noValue_ends : noValue.Ends inTurn answers Q ↔ Q (answers 0).eax.toInt (answers.later 1) := by
  simp [noValue]

theorem sysRead_ends {n : Nat} {Q : Int × List Byte → Answers → Prop} :
    (sysRead fd n).Ends inTurn answers Q ↔ Q ((answers 1).value,
        (answers 1).bytes.take n ++ (answers 0).bytes.drop ((answers 1).bytes.take n).length) (answers.later 2) := by
  simp [sysRead]

end Takes

/-! ## Commands -/

variable {answers : Answers} {args : List CString}

theorem shellLs_stays : (shellLs args).Ends inTurn answers fun v _ => 0 ≤ v := by
  unfold shellLs
  split <;> simp [sysLs, sysPwd]

theorem shellPwd_stays : shellPwd.Ends inTurn answers fun v _ => 0 ≤ v := by
  simp [shellPwd, sysPwd]

theorem shellHelp_stays : shellHelp.Ends inTurn answers fun v _ => 0 ≤ v :=
  Interact.ends_pure.mpr (le_refl 0)

theorem shellMkdir_stays : (shellMkdir args).Ends inTurn answers fun v _ => 0 ≤ v := by
  apply (Interact.Leaves.ends_iff (.bind fun _ => le_refl 0)).mpr
  apply Interact.Total.ends
  exact .bind (.forM fun path => .bind sysStatus_total fun _ => .pure) fun _ => .pure

theorem shellCd_stays_iff :
    ((shellCd args).Ends inTurn answers fun v _ => 0 ≤ v) ↔ Command.cd.Stays answers args := by
  unfold shellCd Command.Stays
  cases args with
  | nil => simp [deref]
  | cons dir rest =>
    by_cases short : dir.length < buflen
    · simp [deref, strcpy, short]
    · simp [deref, strcpy, short]

theorem shellCp_stays_iff :
    (∃ fuel, (shellCp fuel args).Ends inTurn answers fun v _ => 0 ≤ v) ↔ Command.cp.Stays answers args := by
  unfold shellCp Command.Stays
  split
  · simp [Completes]
  · rename_i option src dest
    by_cases dash : option = dashR
    · simp [Completes, dash]
    · simp [dash]
  · simp

theorem shellMv_stays_iff :
    (∃ fuel, (shellMv fuel args).Ends inTurn answers fun v _ => 0 ≤ v) ↔ Command.mv.Stays answers args := by
  by_cases two : args.length = 2
  · obtain ⟨src, dest, rfl⟩ := List.length_eq_two.mp two
    have leaves : ∀ fuel, (shellMv fuel [src, dest]).Leaves fun v => 0 ≤ v := by
      intro fuel
      have moved : ∀ dir, (shellMvPath fuel dest src dir).Leaves fun v => 0 ≤ v :=
        fun dir => .bind fun _ => .bind fun _ => le_refl 0
      apply Interact.Leaves.bind
      intro there
      apply Interact.Leaves.ite (le_refl 0)
      apply Interact.Leaves.bind
      intro dir
      apply Interact.Leaves.ite _ (moved false)
      apply Interact.Leaves.bind
      intro destThere
      apply Interact.Leaves.ite _ (moved true)
      exact .bind fun destDir => .ite (le_refl 0) (moved true)
    exact (exists_congr fun fuel => (leaves fuel).ends_iff).trans ⟨fun ends _ => ends, fun stays => stays two⟩
  · apply iff_of_true
    · unfold shellMv
      split
      · simp at two
      · exact ⟨0, Interact.ends_pure.mpr (le_refl 0)⟩
    · exact fun absurdly => absurd absurdly two

theorem shellRm_leaves : (shellRm fuel args).Leaves fun v => 0 ≤ v := by
  unfold shellRm
  split
  · exact le_refl 0
  · apply Interact.Leaves.bind
    intro path
    apply Interact.Leaves.bind
    intro there
    exact .ite (le_refl 0) (.bind fun _ => le_refl 0)

theorem shellRm_stays_iff :
    (∃ fuel, (shellRm fuel args).Ends inTurn answers fun v _ => 0 ≤ v) ↔ Command.rm.Stays answers args := by
  apply (exists_congr fun fuel => shellRm_leaves.ends_iff).trans
  cases args with
  | nil => simp [shellRm, Command.Stays]
  | cons first rest =>
    by_cases dash : first = dashR
    · subst dash
      cases rest with
      | nil => simp [shellRm, Command.Stays, deref]
      | cons path rest => simp [Command.Stays, Completes]
    · apply iff_of_true
      · refine ⟨1, Interact.Total.ends ?_ answers⟩
        simp only [shellRm, if_neg dash]
        apply Interact.Total.bind .pure
        intro path
        apply Interact.Total.bind isFileExist_total
        intro there
        rw [decide_eq_false dash]
        exact .ite .pure (.bind shellRmPath_total fun _ => .pure)
      · exact fun same => absurd (Option.some.inj same) dash

theorem shellCatPath_ends_iff {P : Answers → Prop} :
    ((shellCatPath path).Ends inTurn answers fun _ after => P after) ↔
      if (answers 0).value = -1 then P (answers.later 1)
      else 0 ≤ (answers 2).value ∧ (answers 2).value ≤ 99 ∧ P (answers.later 4) := by
  unfold shellCatPath
  by_cases missing : (answers 0).value = -1
  · simp [missing]
  · by_cases index : 0 ≤ (answers 2).value ∧ (answers 2).value ≤ 99
    · have inside : ¬((answers 2).value < 0 ∨ 99 < (answers 2).value) := by omega
      simp [sysRead_ends, missing, index, inside]
    · have outside : (answers 2).value < 0 ∨ 99 < (answers 2).value := by omega
      have never : ¬(0 ≤ (answers 2).value ∧ (answers 2).value ≤ 99 ∧ P (answers.later 4)) :=
        fun both => index ⟨both.1, both.2.1⟩
      simp [sysRead_ends, missing, outside, never]

theorem catReads_iff {paths : List CString} :
    ((paths.forM fun path => do
      let _ ← shellCatPath path
      pure ()).Ends inTurn answers fun _ _ => True) ↔ CatReads answers paths := by
  induction paths generalizing answers with
  | nil => exact iff_of_true (Interact.ends_pure.mpr trivial) trivial
  | cons path paths ih =>
    refine Interact.ends_bind.trans (Interact.ends_bind.trans ?_)
    simp only [Interact.ends_pure]
    rw [shellCatPath_ends_iff (P := fun after => Interact.Ends inTurn _ after _), CatReads, ih, ih]

theorem shellCat_stays_iff :
    ((shellCat args).Ends inTurn answers fun v _ => 0 ≤ v) ↔ Command.cat.Stays answers args := by
  unfold shellCat Command.Stays
  by_cases empty : args = []
  · simp [empty]
  · rw [if_neg empty, if_neg empty, Interact.Leaves.ends_iff (.bind fun _ => le_refl 0), Interact.ends_bind]
    simp only [Interact.ends_pure]
    exact catReads_iff

theorem shellTouch_stays_iff :
    ((shellTouch args).Ends inTurn answers fun v _ => 0 ≤ v) ↔ Command.touch.Stays answers args := by
  unfold shellTouch Command.Stays
  by_cases empty : args = []
  · simp [empty]
  · rw [if_neg empty, Interact.Leaves.ends_iff (.bind fun _ => le_refl 0)]
    apply iff_of_true _ fun nothing => absurd nothing empty
    apply Interact.Total.ends
    apply Interact.Total.bind _ fun _ => .pure
    apply Interact.Total.forM
    intro path
    apply Interact.Total.bind sysValue_total
    intro fd
    apply Interact.Total.ite
    · exact .bind sysStatus_total fun _ => .pure
    · exact .bind sysValue_total fun _ => .bind sysStatus_total fun _ => .pure

theorem shellWrite_stays_iff :
    ((shellWrite args).Ends inTurn answers fun v _ => 0 ≤ v) ↔ Command.write.Stays answers args := by
  unfold shellWrite Command.Stays
  match args with
  | [] => simp
  | [_] => simp [deref]
  | text :: path :: rest =>
    by_cases opened : 0 ≤ (answers 0).value
    · simp [deref, opened]
    · simp [deref, opened]

theorem shellAppend_stays_iff :
    ((shellAppend args).Ends inTurn answers fun v _ => 0 ≤ v) ↔ Command.append.Stays answers args := by
  unfold shellAppend Command.Stays
  match args with
  | [] => simp
  | [_] => simp [deref]
  | text :: path :: rest =>
    by_cases opened : 0 ≤ (answers 0).value
    · by_cases again : (answers 4).value < 0
      · simp [deref, sysRead_ends, AppendFits, opened, again]
      · have reopened : 0 ≤ (answers 4).value := by omega
        by_cases fits : 0 ≤ (answers 2).value ∧ (answers 2).value + text.length ≤ 1000
        · simp [deref, sysRead_ends, AppendFits, appendText, again,
            opened, fits]
        · simp [deref, sysRead_ends, AppendFits, appendText, again,
            opened, reopened, fits]
    · simp [deref, AppendFits, opened]

theorem shellKill_stays_iff :
    ((shellKill args).Ends inTurn answers fun v _ => 0 ≤ v) ↔ Command.kill.Stays answers args := by
  unfold shellKill Command.Stays
  split
  · rename_i signal pid rest
    generalize number : (if signal.head? = some 45#8 then strToInt signal.tail else strToInt signal) = sig
    by_cases range : sig < 1 ∨ 31 < sig
    · have held : ¬Sends (signal :: pid :: rest) := by
        simp only [Sends, number]
        omega
      simp [range, held]
    · by_cases process : strToInt pid < 1 ∨ 63 < strToInt pid
      · have held : ¬Sends (signal :: pid :: rest) := by
          simp only [Sends, number]
          omega
        simp [range, process, held]
      · have sent : Sends (signal :: pid :: rest) := by
          simp only [Sends, number]
          omega
        simp [range, process, sent]
  · rename_i few
    have held : ¬Sends args := by
      intro sends
      cases args with
      | nil => exact sends
      | cons signal more =>
        cases more with
        | nil => exact sends
        | cons pid rest => exact few signal pid rest rfl
    simp [held]

theorem status_neg_iff {a : Answer} : a.status 0 < 0 ↔ a.eax ≠ 0#32 := by
  unfold Answer.status
  split <;> simp [*]

theorem shellTrap_stays_iff :
    ((shellTrap args).Ends inTurn answers fun v _ => 0 ≤ v) ↔ Command.trap.Stays answers args := by
  unfold shellTrap Command.Stays
  cases args with
  | nil => simp
  | cons signal rest =>
    by_cases range : strToInt signal < 1 ∨ 32 ≤ strToInt signal
    · have outside : ¬(1 ≤ strToInt signal ∧ strToInt signal < 32) := by omega
      simp [range, ← and_assoc, outside]
    · have inside : 1 ≤ strToInt signal ∧ strToInt signal < 32 := by omega
      by_cases refused : (answers 0).status 0 < 0
      · simp [range, refused, status_neg_iff.mp refused]
      · have taken : (answers 0).eax = 0#32 := not_not.mp (mt status_neg_iff.mpr refused)
        simp [range, inside, refused, taken]

theorem launch_stays_iff {elf : Word} {next : ShellM Int} (goes : ∀ after, next.Ends inTurn after fun v _ => 0 ≤ v) :
    ((do
      let pid ← sysSpawn elf 1000
      if pid = -1 then pure (-1) else next).Ends inTurn answers fun v _ => 0 ≤ v) ↔ (answers 0).value ≠ -1 := by
  by_cases failed : (answers 0).value = -1
  · simp [failed]
  · simp [failed, goes]

theorem shellSpawn_stays_iff :
    ((shellSpawn args).Ends inTurn answers fun v _ => 0 ≤ v) ↔ Command.spawn.Stays answers args := by
  unfold shellSpawn Command.Stays
  cases args with
  | nil => simp
  | cons elf rest =>
    by_cases range : strToInt elf < 1 ∨ 8 < strToInt elf
    · have outside : ¬(1 ≤ strToInt elf ∧ strToInt elf ≤ 8) := by omega
      simp [range, ← and_assoc, outside]
    · have inside : 1 ≤ strToInt elf ∧ strToInt elf ≤ 8 := by omega
      simp only [if_neg range, ite_not]
      rw [launch_stays_iff fun after => Interact.ends_pure.mpr (le_refl 0)]
      simp [inside]

theorem shellTestSignal_stays_iff :
    ((shellTestSignal args).Ends inTurn answers fun v _ => 0 ≤ v) ↔ Command.test.Stays answers args := by
  unfold shellTestSignal Command.Stays
  have returns : ∀ after, (pure 0 : ShellM Int).Ends inTurn after fun v _ => 0 ≤ v :=
    fun after => Interact.ends_pure.mpr (le_refl 0)
  cases args with
  | nil => simp
  | cons test rest =>
    simp only [List.getElem?_cons_zero, Option.some.injEq, exists_eq_left', List.mem_cons, List.not_mem_nil, or_false]
    by_cases segv : test = ascii "sigsegv"
    · rw [if_pos segv, launch_stays_iff fun after => by simp]
      simp only [segv, true_or, true_and]
    · rw [if_neg segv]
      by_cases int : test = ascii "sigint"
      · rw [if_pos int, launch_stays_iff returns]
        simp only [int, true_or, or_true, true_and]
      · rw [if_neg int]
        by_cases custom : test = ascii "sigint-custom"
        · rw [if_pos custom, launch_stays_iff returns]
          simp only [custom, or_true, true_and]
        · simp [segv, int, custom]

/-! ## Lines -/

theorem func_stays_iff :
    (∃ fuel, (c.func fuel args).Ends inTurn answers fun v _ => 0 ≤ v) ↔ c.Stays answers args := by
  have once : ∀ {p : Prop}, (∃ _ : Nat, p) ↔ p := exists_const Nat
  cases c with
  | ls => exact once.trans (iff_of_true shellLs_stays trivial)
  | pwd => exact once.trans (iff_of_true shellPwd_stays trivial)
  | mkdir => exact once.trans (iff_of_true shellMkdir_stays trivial)
  | help => exact once.trans (iff_of_true shellHelp_stays trivial)
  | cd => exact once.trans shellCd_stays_iff
  | cp => exact shellCp_stays_iff
  | mv => exact shellMv_stays_iff
  | rm => exact shellRm_stays_iff
  | cat => exact once.trans shellCat_stays_iff
  | touch => exact once.trans shellTouch_stays_iff
  | write => exact once.trans shellWrite_stays_iff
  | append => exact once.trans shellAppend_stays_iff
  | kill => exact once.trans shellKill_stays_iff
  | trap => exact once.trans shellTrap_stays_iff
  | spawn => exact once.trans shellSpawn_stays_iff
  | test => exact once.trans shellTestSignal_stays_iff

def LineStays (answers : Answers) (line : CString) : Prop :=
  ∀ c args, command line = some (c, args) → c.Stays answers args

theorem runcmd_of_command (named : command line = some (c, args)) :
    runcmd fuel line = c.func fuel args := by
  unfold command at named
  unfold runcmd
  split at named
  · rename_i name args' split
    obtain ⟨c', found, same⟩ := Option.map_eq_some_iff.mp named
    cases same
    simp only [split, found]
  · cases named

theorem runcmd_of_none (unnamed : command line = none) : runcmd fuel line = pure 0 := by
  unfold command at unnamed
  unfold runcmd
  split at unnamed
  · rename_i name args' split
    rw [Option.map_eq_none_iff] at unnamed
    simp only [split, unnamed]
  · rename_i other
    split
    · rfl
    · rfl
    · rename_i name args' split
      exact absurd split (other name args')

theorem runcmd_stays_iff :
    (∃ fuel, (runcmd fuel line).Ends inTurn answers fun v _ => 0 ≤ v) ↔ LineStays answers line := by
  cases found : command line with
  | none =>
    simp only [runcmd_of_none found]
    exact iff_of_true ⟨0, Interact.ends_pure.mpr (le_refl 0)⟩ fun c args named => nomatch found.symm.trans named
  | some entry =>
    obtain ⟨c, args⟩ := entry
    simp only [runcmd_of_command found]
    rw [func_stays_iff]
    constructor
    · intro stays c' args' named
      cases found.symm.trans named
      exact stays
    · intro stays
      exact stays c args found

def LinesStay : Nat → Answers → Prop
  | 0, _ => True
  | n + 1, answers =>
    let line := cstring (answers 0).bytes
    if (answers 0).status 0 < 0 ∨ line = [] then LinesStay n (answers.later 1)
    else
      LineStays (answers.later 1) line ∧
        ∀ fuel v after, (runcmd fuel line).exec inTurn (answers.later 1) = .ok (v, after) → LinesStay n after

theorem mainLoop_idle (idle : (answers 0).status 0 < 0 ∨ cstring (answers 0).bytes = [])
    (ends : (mainLoop rounds).Ends inTurn (answers.later 1) fun _ _ => True) :
    (mainLoop (fuel :: rounds)).Ends inTurn answers fun _ _ => True := by
  unfold mainLoop
  by_cases failed : (answers 0).status 0 < 0
  · simp [failed, ends]
  · simp [failed, idle.resolve_left failed, ends]

theorem mainLoop_busy {v : Int} {after : Answers}
    (busy : ¬((answers 0).status 0 < 0 ∨ cstring (answers 0).bytes = []))
    (ran : (runcmd fuel (cstring (answers 0).bytes)).exec inTurn (answers.later 1) = .ok (v, after)) (nonneg : 0 ≤ v)
    (ends : (mainLoop rounds).Ends inTurn after fun _ _ => True) :
    (mainLoop (fuel :: rounds)).Ends inTurn answers fun _ _ => True := by
  rw [not_or] at busy
  unfold mainLoop
  apply Interact.ends_bind.mpr
  apply Interact.ends_call.mpr
  split
  · rename_i failed
    exact absurd failed busy.1
  · split
    · rename_i empty
      exact absurd empty busy.2
    · apply Interact.ends_bind.mpr
      refine ⟨v, after, ran, ?_⟩
      simp only [if_neg (not_lt.mpr nonneg)]
      exact ends

theorem mainLoop_goes (stay : LinesStay n answers) :
    ∃ rounds : List Nat, rounds.length = n ∧ (mainLoop rounds).Ends inTurn answers fun _ _ => True := by
  induction n generalizing answers with
  | zero => exact ⟨[], rfl, Interact.ends_pure.mpr trivial⟩
  | succ n ih =>
    unfold LinesStay at stay
    by_cases idle : (answers 0).status 0 < 0 ∨ cstring (answers 0).bytes = []
    · rw [if_pos idle] at stay
      obtain ⟨rounds, length, ends⟩ := ih stay
      exact ⟨0 :: rounds, congrArg (· + 1) length, mainLoop_idle idle ends⟩
    · rw [if_neg idle] at stay
      obtain ⟨fuel, v, after, ran, nonneg⟩ := runcmd_stays_iff.mpr stay.1
      obtain ⟨rounds, length, ends⟩ := ih (stay.2 fuel v after ran)
      exact ⟨fuel :: rounds, congrArg (· + 1) length, mainLoop_busy idle ran nonneg ends⟩

def saying (text : String) : Answers := fun _ => ⟨0, 0, ascii text⟩

end Certikos.Shell
