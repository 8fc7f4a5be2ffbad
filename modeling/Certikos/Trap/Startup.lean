import Certikos.Trap.ProcessTree

/-!
# From the first instruction to the shell

`thread_init` with the layers below it, and `kern_main`. `PTCBInit.c` is compiled against a prototype of
`tcb_init_at_id` with one parameter; the function has two, and takes as the pid whatever word lies on the stack next
to the argument.
-/

namespace Certikos
open Lib Function

abbrev numCpus : Nat := 8

/-- The tables of the thread layers, with the file pointers of `struct TCB`; the null pointer is 0. -/
structure Threads where
  thread : ThreadState
  openfiles : Nat → Nat → Word
  cwd : Nat → Word

def noSignals : SigState := ⟨fun _ => ⟨0, 0, 0, 0, 0⟩, 0, 0, 0, 0⟩

def zeroThreads : Threads where
  thread :=
    { tcbPool := fun _ => ⟨.ready, 0, 0, 0, noSignals⟩
      tqueuePool := fun _ _ => ⟨0, 0⟩
      curid := fun _ => 0
      schedTicks := fun _ => 0
      pcpuIdx := 0 }
  openfiles := fun _ _ => 0
  cwd := fun _ => 0

def deadTcb : TCB := ⟨.dead, numIds, numIds, 0, noSignals⟩

def tcbInitAtId (s : Threads) (_cpuIdx pid : Word) : Except (Halt Threads) Threads :=
  if pid.toNat < numIds then
    .ok
      { thread := modifyTcb s.thread pid.toNat fun _ => deadTcb
        openfiles := update s.openfiles pid.toNat fun _ => 0
        cwd := update s.cwd pid.toNat 0 }
  else .error (.wildAccess s)

/-- The first `n` rounds of the loop of `tcb_init`. Round `i` passes `i` for `cpu_idx`, and `stack i` is the word that
stands where the second argument should. -/
def tcbInitRounds (stack : Nat → Word) : Nat → Threads → Except (Halt Threads) Threads
  | 0, s => .ok s
  | n + 1, s =>
    match tcbInitRounds stack n s with
    | .ok s => tcbInitAtId s (BitVec.ofNat 32 n) (stack n)
    | .error halt => .error halt

def tcbInit (stack : Nat → Word) (s : Threads) : Except (Halt Threads) Threads := tcbInitRounds stack numIds s

def tqueueInitAtId (s : ThreadState) (cpuIdx chid : Nat) : ThreadState :=
  { s with
    tqueuePool := update s.tqueuePool cpuIdx (update (s.tqueuePool cpuIdx) chid ⟨numIds, numIds⟩) }

def clearQueues (s : ThreadState) : ThreadState :=
  loop (fun cpuIdx t => loop (fun chid t => tqueueInitAtId t cpuIdx chid) (numIds + 1) t) numCpus s

def tqueueInit (stack : Nat → Word) (s : Threads) : Except (Halt Threads) Threads :=
  match tcbInit stack s with
  | .ok s => .ok { s with thread := clearQueues s.thread }
  | .error halt => .error halt

def clearTicks (s : ThreadState) : ThreadState :=
  loop (fun i (t : ThreadState) => { t with schedTicks := update t.schedTicks i 0 }) numCpus s

def threadInit (stack : Nat → Word) (s : Threads) : Except (Halt Threads) Threads :=
  match tqueueInit stack { s with thread := clearTicks s.thread } with
  | .ok s => .ok { s with thread := tcbSetState (setCurid s.thread 0) 0 .run }
  | .error halt => .error halt

/-- `kern_main` up to the switch to the shell; `idle` and `shell` are the addresses of the two programs. -/
def kernMain (idle shell : Word) (k : KState) : Except (Halt KState) KState :=
  match procCreate k idle 1000 with
  | .error halt => .error halt
  | .ok (k, _) =>
    match procCreate k shell 1000 with
    | .error halt => .error halt
    | .ok (k, pid) =>
      let s := tqueueRemove k.thread numIds pid
      let s := tcbSetState s pid .run
      .ok { k with thread := setCurid s pid }

def startShell (s : ThreadState) : ThreadState :=
  let s := threadSpawn (threadSpawn s 1) 2
  setCurid (tcbSetState (tqueueRemove s numIds 2) 2 .run) 2

/-! ## What the system should start with -/

structure Initialised (t : Threads) : Prop where
  blank : ∀ pid, pid ≠ 0 → pid < numIds → t.thread.tcbPool pid = deadTcb ∧ t.cwd pid = 0 ∧ ∀ fd, t.openfiles pid fd = 0
  queues : ∀ cpu, cpu < numCpus → ∀ chid, chid ≤ numIds → t.thread.tqueuePool cpu chid = ⟨numIds, numIds⟩
  current : getCurid t.thread = 0 ∧ tcbGetState t.thread 0 = .run

abbrev idlePid : Nat := 1
abbrev shellPid : Nat := 2

structure ShellRuns (s : ThreadState) : Prop where
  ready : ReadyList s [idlePid]
  current : getCurid s = shellPid ∧ tcbGetState s shellPid = .run
  dead : ∀ pid, pid ≠ 0 → pid < numIds → pid ≠ idlePid → pid ≠ shellPid → tcbGetState s pid = .dead
  quiet : ∀ pid, pid ≠ 0 → pid < numIds → tcbGetSigstate s pid = noSignals

def Rejects (s : ThreadState) (pid : Nat) : Prop :=
  ∀ tf, (syscallGetArg2 tf).toInt = pid → 1 ≤ (syscallGetArg3 tf).toInt → (syscallGetArg3 tf).toInt < nsig →
    sysKill s tf = (s, syscallSetErrno tf .invalPid)

def StartsUp (vm : VmState) (idle shell : Word) (stack : Nat → Word) : Prop :=
  ∃ t, threadInit stack zeroThreads = .ok t ∧ Initialised t ∧
    ∀ k, kernMain idle shell ⟨t.thread, vm⟩ = .ok k → ShellRuns k.thread ∧
      ∀ pid, pid ≠ 0 → pid < numIds → pid ≠ idlePid → pid ≠ shellPid → Rejects k.thread pid

structure NamesAll (stack : Nat → Word) : Prop where
  range : ∀ i, i < numIds → (stack i).toNat < numIds
  all : ∀ pid, pid ≠ 0 → pid < numIds → ∃ i, i < numIds ∧ (stack i).toNat = pid

/-! ## Clearing the thread control blocks -/

section Startup

variable {stack : Nat → Word} {s t : Threads}

def Threads.clear (s : Threads) (named : Nat → Prop) [DecidablePred named] : Threads where
  thread := { s.thread with tcbPool := fun pid => if named pid then deadTcb else s.thread.tcbPool pid }
  openfiles pid fd := if named pid then 0 else s.openfiles pid fd
  cwd pid := if named pid then 0 else s.cwd pid

theorem clear_none (named : Nat → Prop) [DecidablePred named] (none : ∀ pid, ¬ named pid) : s.clear named = s := by
  simp only [Threads.clear, none, if_false]

theorem tcbInitAtId_clear {named : Nat → Prop} [DecidablePred named] {cpuIdx pid : Word} (lt : pid.toNat < numIds) :
    tcbInitAtId (s.clear named) cpuIdx pid = .ok (s.clear fun q => named q ∨ pid.toNat = q) := by
  rw [tcbInitAtId, if_pos lt]
  unfold Threads.clear modifyTcb
  congr 2
  · congr 1
    funext q
    by_cases here : q = pid.toNat
    · simp [here]
    · simp [here, Ne.symm here]
  · funext q fd
    by_cases here : q = pid.toNat
    · simp [here]
    · simp [here, Ne.symm here]
  · funext q
    by_cases here : q = pid.toNat
    · simp [here]
    · simp [here, Ne.symm here]

theorem tcbInitRounds_eq {n : Nat} (range : ∀ i, i < n → (stack i).toNat < numIds) :
    tcbInitRounds stack n s = .ok (s.clear fun pid => ∃ i, i < n ∧ (stack i).toNat = pid) := by
  induction n with
  | zero => rw [tcbInitRounds, clear_none _ (by simp)]
  | succ n ih =>
    rw [tcbInitRounds, ih fun i lt => range i (Nat.lt_succ_of_lt lt)]
    dsimp only
    rw [tcbInitAtId_clear (range n (Nat.lt_succ_self n))]
    have same : ∀ pid, ((∃ i, i < n ∧ (stack i).toNat = pid) ∨ (stack n).toNat = pid) ↔
        ∃ i, i < n + 1 ∧ (stack i).toNat = pid := by
      intro pid
      simp only [Nat.lt_succ_iff_lt_or_eq, or_and_right, exists_or, exists_eq_left]
    simp only [Threads.clear, same]

theorem range_of_tcbInitRounds {n : Nat} (done : tcbInitRounds stack n s = .ok t) :
    ∀ i, i < n → (stack i).toNat < numIds := by
  induction n generalizing t with
  | zero => intro i lt; omega
  | succ n ih =>
    rw [tcbInitRounds] at done
    cases before : tcbInitRounds stack n s with
    | error halt =>
      rw [before] at done
      cases done
    | ok u =>
      rw [before] at done
      intro i lt
      by_cases last : i = n
      · by_contra outside
        rw [last] at outside
        simp only [tcbInitAtId, if_neg outside] at done
        cases done
      · exact ih before i (by omega)

/-! ## Clearing the queues -/

structure OnlyQueues (s s' : ThreadState) : Prop where
  tcbPool : s'.tcbPool = s.tcbPool
  curid : s'.curid = s.curid
  pcpuIdx : s'.pcpuIdx = s.pcpuIdx

theorem tqueueInitRow_spec (cpuIdx n : Nat) (s : ThreadState) :
    let s' := loop (fun chid t => tqueueInitAtId t cpuIdx chid) n s
    OnlyQueues s s' ∧ ∀ cpu chid, s'.tqueuePool cpu chid =
      if cpu = cpuIdx ∧ chid < n then ⟨numIds, numIds⟩ else s.tqueuePool cpu chid := by
  refine loop_invariant (fun n (s' : ThreadState) => OnlyQueues s s' ∧ ∀ cpu chid, s'.tqueuePool cpu chid =
    if cpu = cpuIdx ∧ chid < n then ⟨numIds, numIds⟩ else s.tqueuePool cpu chid) ⟨⟨rfl, rfl, rfl⟩, by simp⟩ ?_
  rintro i t - ⟨same, pool⟩
  refine ⟨⟨same.tcbPool, same.curid, same.pcpuIdx⟩, fun cpu chid => ?_⟩
  have write : (tqueueInitAtId t cpuIdx i).tqueuePool cpu chid =
      if cpu = cpuIdx ∧ chid = i then ⟨numIds, numIds⟩ else t.tqueuePool cpu chid := by
    unfold tqueueInitAtId
    by_cases row : cpu = cpuIdx
    · by_cases here : chid = i
      · simp [row, here]
      · simp [row, here]
    · simp [row]
  rw [write, pool]
  by_cases here : cpu = cpuIdx ∧ chid = i
  · rw [if_pos here, if_pos ⟨here.1, by omega⟩]
  · rw [if_neg here]
    exact if_congr (by omega) rfl rfl

structure OnlyTicks (s s' : ThreadState) : Prop where
  tcbPool : s'.tcbPool = s.tcbPool
  pcpuIdx : s'.pcpuIdx = s.pcpuIdx

theorem clearQueues_spec (s : ThreadState) : OnlyQueues s (clearQueues s) ∧
      ∀ cpu chid, cpu < numCpus → chid ≤ numIds → (clearQueues s).tqueuePool cpu chid = ⟨numIds, numIds⟩ := by
  refine loop_invariant (fun n (s' : ThreadState) => OnlyQueues s s' ∧ ∀ cpu chid, cpu < n → chid ≤ numIds →
    s'.tqueuePool cpu chid = ⟨numIds, numIds⟩) ⟨⟨rfl, rfl, rfl⟩, by simp⟩ ?_
  rintro i t - ⟨same, pool⟩
  obtain ⟨row, cleared⟩ := tqueueInitRow_spec i (numIds + 1) t
  refine ⟨⟨row.tcbPool.trans same.tcbPool, row.curid.trans same.curid, row.pcpuIdx.trans same.pcpuIdx⟩, ?_⟩
  intro cpu chid lt le
  rw [cleared]
  by_cases here : cpu = i
  · rw [if_pos ⟨here, by omega⟩]
  · rw [if_neg fun both => here both.1]
    exact pool cpu chid (by omega) le

/-! ## `thread_init` -/

theorem clearTicks_spec (s : ThreadState) : OnlyTicks s (clearTicks s) :=
  loop_preserves (OnlyTicks s) ⟨rfl, rfl⟩ fun _ _ _ same => ⟨same.tcbPool, same.pcpuIdx⟩

theorem tqueueInit_spec (range : ∀ i, i < numIds → (stack i).toNat < numIds) : ∃ t, tqueueInit stack s = .ok t ∧
      t.openfiles = (s.clear fun pid => ∃ i, i < numIds ∧ (stack i).toNat = pid).openfiles ∧
      t.cwd = (s.clear fun pid => ∃ i, i < numIds ∧ (stack i).toNat = pid).cwd ∧
      OnlyQueues (s.clear fun pid => ∃ i, i < numIds ∧ (stack i).toNat = pid).thread t.thread ∧
      ∀ cpu chid, cpu < numCpus → chid ≤ numIds → t.thread.tqueuePool cpu chid = ⟨numIds, numIds⟩ := by
  unfold tqueueInit tcbInit
  rw [tcbInitRounds_eq range]
  generalize s.clear (fun pid => ∃ i, i < numIds ∧ (stack i).toNat = pid) = cleared
  obtain ⟨same, queues⟩ := clearQueues_spec cleared.thread
  exact ⟨{ cleared with thread := clearQueues cleared.thread }, rfl, rfl, rfl, same, queues⟩

theorem threadInit_spec (range : ∀ i, i < numIds → (stack i).toNat < numIds) :
    ∃ t, threadInit stack zeroThreads = .ok t ∧ (∀ pid, pid ≠ 0 → t.thread.tcbPool pid =
        if ∃ i, i < numIds ∧ (stack i).toNat = pid then deadTcb else zeroThreads.thread.tcbPool pid) ∧
      (∀ pid, t.cwd pid = 0 ∧ ∀ fd, t.openfiles pid fd = 0) ∧
      (∀ cpu, cpu < numCpus → ∀ chid, chid ≤ numIds → t.thread.tqueuePool cpu chid = ⟨numIds, numIds⟩) ∧
      getCurid t.thread = 0 ∧ tcbGetState t.thread 0 = .run ∧ t.thread.pcpuIdx = 0 := by
  have ticks := clearTicks_spec zeroThreads.thread
  unfold threadInit
  generalize clearTicks zeroThreads.thread = ticked at ticks
  obtain ⟨u, done, openfiles, cwd, same, queues⟩ := tqueueInit_spec (s := { zeroThreads with thread := ticked }) range
  refine ⟨{ u with thread := tcbSetState (setCurid u.thread 0) 0 .run }, ?_, fun pid nonzero => ?_, fun pid => ⟨?_, ?_⟩,
    fun cpu lt chid le => queues cpu chid lt le, ?_, ?_, ?_⟩
  · rw [done]
  · dsimp only
    rw [tcbSetState, tcbPool_modifyTcb, if_neg nonzero, setCurid, same.tcbPool, ← ticks.tcbPool]
    rfl
  · rw [cwd]
    exact ite_self ..
  · intro fd
    rw [openfiles]
    exact ite_self ..
  · rw [curid_setState, curid_setCurid]
  · rw [state_setState, if_pos rfl]
  · exact same.pcpuIdx.trans ticks.pcpuIdx

/-! ## `kern_main` -/

theorem Initialised.scheduled (init : Initialised t) (cpu : t.thread.pcpuIdx < numCpus) : Scheduled t.thread [] := by
  have empty := init.queues _ cpu numIds le_rfl
  refine ⟨⟨⟨List.nodup_nil, by simp, congrArg TQueue.head empty, congrArg TQueue.tail empty, trivial⟩, fun p => ?_⟩,
    by rw [init.current.1]; decide, ?_⟩
  · constructor
    · intro member
      cases member
    · rintro ⟨lt, ready⟩
      by_cases zero : p = 0
      · rw [zero, init.current.2] at ready
        cases ready
      · rw [tcbGetState, (init.blank p zero lt).1] at ready
        cases ready
  · rw [init.current.1]
    exact .inl init.current.2

theorem Initialised.state (init : Initialised t) {pid : Nat} (nonzero : pid ≠ 0) (lt : pid < numIds) :
    tcbGetState t.thread pid = .dead := by
  rw [tcbGetState, (init.blank pid nonzero lt).1]
  rfl

theorem kernMain_ok {vm : VmState} {idle shell : Word} {s : ThreadState} {k : KState} (current : getCurid s = 0)
    (childless : containerGetNchildren vm 0 = 0#32) (done : kernMain idle shell ⟨s, vm⟩ = .ok k) :
    k.thread = startShell s := by
  unfold kernMain at done
  cases first : procCreate ⟨s, vm⟩ idle 1000 with
  | error halt =>
    rw [first] at done
    cases done
  | ok r =>
    obtain ⟨k₁, pid₁⟩ := r
    rw [first] at done
    obtain ⟨-, -, vm₁, children, rfl⟩ := procCreate_ok first
    have one : nextChild ⟨s, vm⟩ = idlePid := by
      rw [nextChild_eq (by rw [current]; decide) (by rw [current, childless]; decide), current, childless]
      rfl
    dsimp only at done children
    rw [current] at children
    rw [one] at done
    have single : containerGetNchildren vm₁ 0 = 1#32 := by
      rw [children.nchildren, nchildren_split, if_pos rfl, childless]
      rfl
    cases second : procCreate ⟨threadSpawn s idlePid, vm₁⟩ shell 1000 with
    | error halt =>
      rw [second] at done
      cases done
    | ok r =>
      obtain ⟨k₂, pid₂⟩ := r
      rw [second] at done
      obtain ⟨rfl, -, vm₂, -, rfl⟩ := procCreate_ok second
      have current₁ : getCurid (threadSpawn s idlePid) = 0 := (curid_threadSpawn ..).trans current
      have two : nextChild ⟨threadSpawn s idlePid, vm₁⟩ = shellPid := by
        rw [nextChild_eq (by rw [current₁]; decide) (by rw [current₁, single]; decide), current₁, single]
        rfl
      rw [two] at done
      cases done
      rfl

theorem Initialised.shellRuns (init : Initialised t) (cpu : t.thread.pcpuIdx < numCpus) :
    ShellRuns (startShell t.thread) := by
  have current := init.current.1
  have alone := init.scheduled cpu
  have one := alone.spawn (p := idlePid) (by decide) (by rw [init.state (by decide) (by decide)]; decide)
    (by rw [current]; decide)
  have fresh : tcbGetState (threadSpawn t.thread idlePid) shellPid = .dead := by
    rw [state_threadSpawn, if_neg (by decide), init.state (by decide) (by decide)]
  have two := one.spawn (p := shellPid) (by decide) (by rw [fresh]; decide)
    (by rw [curid_threadSpawn, current]; decide)
  have removed := two.toReadyList.remove (p := shellPid) (by decide) (by decide : TState.run ≠ .ready)
  have frame := onlyLinks_tqueueRemove (threadSpawn (threadSpawn t.thread idlePid) shellPid) numIds shellPid
  unfold startShell
  refine ⟨removed.congr (links_setCurid ..) fun _ => rfl, ⟨curid_setCurid .., ?_⟩, ?_, ?_⟩
  · rw [state_setCurid, state_setState, if_pos rfl]
  · intro pid nonzero lt notIdle notShell
    rw [state_setCurid, state_setState, if_neg notShell, frame.state, state_threadSpawn, if_neg notShell,
      state_threadSpawn, if_neg notIdle]
    exact init.state nonzero lt
  · intro pid nonzero lt
    rw [sig_setCurid, sig_setState, frame.sig, sig_threadSpawn, sig_threadSpawn, tcbGetSigstate,
      (init.blank pid nonzero lt).1]
    rfl

theorem rejects_of_dead {s : ThreadState} {pid : Nat} (dead : tcbGetState s pid = .dead) : Rejects s pid := by
  intro tf arg pos bound
  unfold sysKill
  rw [if_neg (by omega), if_pos]
  right
  right
  rw [arg, Int.toNat_natCast]
  exact dead

end Startup

theorem pdirInitKern_childless (L : Layout) (mmap : List MemRange) (vm : VmState) :
    containerGetNchildren (pdirInitKern L mmap vm) 0 = 0#32 := by
  let childless (s : VmState) : Prop := containerGetNchildren s 0 = 0#32
  have counted : childless (containerInit mmap vm) := by
    show ((containerInit mmap vm).container 0).nchildren = 0#32
    rw [containerInit, modifyContainer]
    dsimp only
    rw [update_self]
    rfl
  have tables : childless (idptblInit L mmap vm) :=
    loop_preserves childless counted fun i s _ before => loop_preserves childless before fun _ _ _ same => same
  have directories : childless (pdirInit L mmap vm) := by
    refine loop_preserves childless tables fun i s _ before => loop_preserves childless before fun j s _ same => ?_
    split <;> exact same
  exact loop_preserves childless directories fun _ _ _ same => same

/-- The kernel starts as it should exactly if the words that happen to lie on the stack name every thread. -/
theorem startsUp_iff (L : Layout) (mmap : List MemRange) (vm : VmState) (idle shell : Word) (stack : Nat → Word) :
    StartsUp (pdirInitKern L mmap vm) idle shell stack ↔ NamesAll stack := by
  constructor
  · rintro ⟨t, done, init, -⟩
    have range : ∀ i, i < numIds → (stack i).toNat < numIds := by
      unfold threadInit tqueueInit tcbInit at done
      cases rounds : tcbInitRounds stack numIds { zeroThreads with thread := clearTicks zeroThreads.thread } with
      | ok u => exact range_of_tcbInitRounds rounds
      | error halt =>
        rw [rounds] at done
        cases done
    refine ⟨range, fun pid nonzero lt => ?_⟩
    obtain ⟨t', done', blocks, -⟩ := threadInit_spec range
    cases done.symm.trans done'
    have blank := (init.blank pid nonzero lt).1
    rw [blocks pid nonzero] at blank
    by_contra unnamed
    rw [if_neg unnamed] at blank
    cases congrArg TCB.state blank
  · rintro ⟨range, all⟩
    obtain ⟨t, done, blocks, files, queues, current, state, cpu⟩ := threadInit_spec range
    have init : Initialised t := by
      refine ⟨fun pid nonzero lt => ⟨?_, files pid⟩, queues, current, state⟩
      rw [blocks pid nonzero, if_pos (all pid nonzero lt)]
    refine ⟨t, done, init, fun k started => ?_⟩
    have runs := init.shellRuns (by rw [cpu]; decide)
    rw [kernMain_ok current (pdirInitKern_childless L mmap vm) started]
    exact ⟨runs, fun pid nonzero lt notIdle notShell => rejects_of_dead (runs.dead pid nonzero lt notIdle notShell)⟩

theorem threadInit_zeroes :
    Reaches (threadInit (fun _ => 0) zeroThreads) fun t =>
      tcbGetState t.thread 5 = .ready ∧ tcbGetPrev t.thread 5 = 0 ∧
        (sysKill t.thread (syscallFrame .kill 5 15 0)).2.regs.eax = ErrorNr.succ.code := by
  decide +kernel

end Certikos
