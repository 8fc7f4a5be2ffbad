import Certikos.Memory.Elf
import Certikos.Trap.Signals

/-!
# The system

Whatever the threads of the system do, one event at a time: each system call that touches threads or signals, page
faults, timer ticks, and the return from a trap, where pending signals are handled.
-/

namespace Certikos
open Lib

/-! ## Spawning -/

def procCreate (k : KState) (exe quota : Word) : Except (Halt KState) (KState × Nat) :=
  let id := getCurid k.thread
  let (vm, pid) := containerSplit k.vm id quota
  -- `kctx_new` and `thread_spawn` index arrays of NUM_IDS elements
  if pid ≥ numIds then .error (.wildAccess { k with vm := vm })
  else
    let thread := threadSpawn k.thread pid
    match elfLoad vm exe pid with
    | .error halt => .error (halt.map fun vm => ⟨thread, vm⟩)
    | .ok vm =>
      match elfEntry vm exe with
      | .error halt => .error (halt.map fun vm => ⟨thread, vm⟩)
      | .ok _ => .ok (⟨thread, vm⟩, pid)

/-- `images` holds the addresses of the linked programs 1 to 8. `curid` is read before it is set, so that the
quota and the number of children are those of an arbitrary index `junk`. -/
def sysSpawn (images : Nat → Word) (k : KState) (tf : TrapFrame) (junk : Nat) :
    Except (Halt KState) (KState × TrapFrame) :=
  let elfId := syscallGetArg2 tf
  let quota := syscallGetArg3 tf
  let qok := containerCanConsume k.vm junk quota
  let nc := containerGetNchildren k.vm junk
  let curid := getCurid k.thread
  let fail (errno : ErrorNr) := syscallSetRetval1 (syscallSetErrno tf errno) (BitVec.ofNat 32 numIds)
  if qok = false then .ok (k, fail .exceedsQuota)
  else if numIds < curid * maxChildren + 1 + maxChildren then .ok (k, fail .maxNumChildenReached)
  else if nc = BitVec.ofNat 32 maxChildren then .ok (k, fail .invalChildId)
  else if 1 ≤ elfId.toNat ∧ elfId.toNat ≤ 8 then
    match procCreate k (images elfId.toNat) quota with
    | .error halt => .error halt
    | .ok (k, newPid) =>
      if newPid = numIds then .ok (k, fail .invalPid)
      else .ok (k, syscallSetRetval1 (syscallSetErrno tf .succ) (BitVec.ofNat 32 newPid))
  else .ok (k, fail .invalPid)

/-! ## Events -/

inductive Event
  | kill (tf : TrapFrame)
  | pause (tf : TrapFrame)
  | yield
  | spawn (tf : TrapFrame) (junk : Nat)
  | sigaction (buf : LocalBuf) (tf : TrapFrame)
  | sigreturn (buf : LocalBuf) (tf : TrapFrame)
  | readline (buf : LocalBuf) (tf : TrapFrame) (line : Option (Word × Word))
  | pageFault (tf : TrapFrame) (faultVa : Word)
  | timer
  | sleep (chan lk : Word)
  | sleepResume
  | wakeup (chan : Word)
  | copy (pid : Nat) (uva len : Word) (copy : UserCopy)
  | store (mem : Mem)
  | trapReturn (buf : LocalBuf) (tf : TrapFrame)

def step (images : Nat → Word) (k : KState) : Event → Except (Halt KState) KState
  | .kill tf => .ok { k with thread := (sysKill k.thread tf).1 }
  | .pause tf => k.onThread ((sysPause k.thread tf).map Prod.fst)
  | .yield => k.onThread (threadYield k.thread)
  | .spawn tf junk => (sysSpawn images k tf junk).map Prod.fst
  | .sigaction buf tf => .ok (sysSigaction buf k tf).1
  | .sigreturn buf tf => .ok (sysSigreturn buf k tf).1
  | .readline buf tf line => (sysReadline buf k tf line).map Prod.fst
  | .pageFault tf faultVa => pgfltHandler k tf faultVa
  | .timer => k.onThread (schedUpdate k.thread)
  | .sleep chan lk => k.onThread (threadSleep k.thread chan lk)
  | .sleepResume => .ok { k with thread := threadSleepResume k.thread }
  | .wakeup chan => .ok { k with thread := threadWakeup k.thread chan }
  | .copy pid uva len copy => .ok { k with vm := (copy.exec k.vm pid uva len).vm }
  | .store mem => .ok { k with vm := { k.vm with mem := mem } }
  | .trapReturn buf tf => (handlePendingSignals buf k tf).map Prod.fst

/-! ## Signal state and everything else -/

structure OnlySignals (s s' : ThreadState) : Prop where
  links : links s' numIds = links s numIds
  state : ∀ q, tcbGetState s' q = tcbGetState s q
  curid : getCurid s' = getCurid s

structure SignalContext where
  savedEspAddr : Word
  savedEipAddr : Word
  inSignalHandler : Word

def SigState.context (g : SigState) : SignalContext := ⟨g.savedEspAddr, g.savedEipAddr, g.inSignalHandler⟩

def signalContext (s : ThreadState) (pid : Nat) : SignalContext := (tcbGetSigstate s pid).context

structure SameSignals (s s' : ThreadState) : Prop where
  pending : ∀ q, tcbGetPendingSignals s' q = tcbGetPendingSignals s q
  context : ∀ q, signalContext s' q = signalContext s q

structure Moved (k k' : KState) : Prop where
  scheduled : ∃ ys, Scheduled k'.thread ys
  buried : ∀ q, Buried k.thread q → Buried k'.thread q
  children : SameChildren k.vm k'.vm

section Signals

variable {s s' : ThreadState} {xs : List Nat}

theorem OnlySignals.scheduled (h : OnlySignals s s') (scheduled : Scheduled s xs) : Scheduled s' xs :=
  scheduled.congr h.links h.state h.curid

theorem OnlySignals.buried (h : OnlySignals s s') {q : Nat} (b : Buried s q) : Buried s' q :=
  ⟨(h.state q).trans b.1, h.curid ▸ b.2⟩

theorem OnlySignals.trans {s₁ s₂ s₃ : ThreadState} (h : OnlySignals s₁ s₂) (k : OnlySignals s₂ s₃) :
    OnlySignals s₁ s₃ :=
  ⟨k.links.trans h.links, fun q => (k.state q).trans (h.state q), k.curid.trans h.curid⟩

section

variable (s : ThreadState) (pid : Nat)

theorem onlySignals_modifySigstate (f : SigState → SigState) : OnlySignals s (modifySigstate s pid f) :=
  ⟨links_modifySigstate .., fun _ => state_modifySigstate .., rfl⟩

theorem onlySignals_ite (f : SigState → SigState) (c : Prop) [Decidable c] :
    OnlySignals s (if c then modifySigstate s pid f else s) := by
  split
  · exact onlySignals_modifySigstate ..
  · exact ⟨rfl, fun _ => rfl, rfl⟩

theorem onlySignals_add (signum : Int) : OnlySignals s (tcbAddPendingSignal s pid signum) := onlySignals_ite ..

theorem onlySignals_clear (signum : Int) : OnlySignals s (tcbClearPendingSignal s pid signum) := onlySignals_ite ..

theorem onlySignals_setSigaction (signum : Int) (act : Sigaction) :
    OnlySignals s (tcbSetSigaction s pid signum act) := onlySignals_ite ..

theorem onlySignals_clearContext : OnlySignals s (tcbClearSignalContext s pid) :=
  onlySignals_modifySigstate ..

end

theorem SameSignals.refl (s : ThreadState) : SameSignals s s := ⟨fun _ => rfl, fun _ => rfl⟩

theorem SameSignals.of_sig (h : ∀ q, tcbGetSigstate s' q = tcbGetSigstate s q) : SameSignals s s' := by
  constructor
  · intro q
    rw [tcbGetPendingSignals, h q, tcbGetPendingSignals]
  · intro q
    rw [signalContext, h q, signalContext]

theorem part_modifySigstate {α : Type} (part : SigState → α) (s : ThreadState) (pid : Nat)
    (f : SigState → SigState) (q : Nat) (keep : ∀ g, part (f g) = part g) :
    part (tcbGetSigstate (modifySigstate s pid f) q) = part (tcbGetSigstate s q) := by
  rw [sig_modifySigstate]
  split
  · rename_i here
    rw [keep, here]
  · rfl

theorem part_ite {α : Type} (part : SigState → α) (s : ThreadState) (pid : Nat) (f : SigState → SigState) (q : Nat)
    (c : Prop) [Decidable c] (keep : ∀ g, part (f g) = part g) :
    part (tcbGetSigstate (if c then modifySigstate s pid f else s) q) = part (tcbGetSigstate s q) := by
  split
  · exact part_modifySigstate part s pid f q keep
  · rfl

variable (s : ThreadState)

variable (pid : Nat)

theorem sameSignals_setSigaction (signum : Int) (act : Sigaction) :
    SameSignals s (tcbSetSigaction s pid signum act) :=
  ⟨fun q => part_ite SigState.pendingSignals s pid _ q _ fun _ => rfl,
    fun q => part_ite SigState.context s pid _ q _ fun _ => rfl⟩

theorem pending_clearContext (q : Nat) :
    tcbGetPendingSignals (tcbClearSignalContext s pid) q = tcbGetPendingSignals s q :=
  part_modifySigstate SigState.pendingSignals s pid _ q fun _ => rfl

theorem sameSignals_threadSpawn : SameSignals s (threadSpawn s pid) :=
  .of_sig (sig_threadSpawn s pid)

theorem signalContext_add (signum : Int) (q : Nat) :
    signalContext (tcbAddPendingSignal s pid signum) q = signalContext s q :=
  part_ite SigState.context s pid _ q _ fun _ => rfl

theorem signalContext_clear (signum : Int) (q : Nat) :
    signalContext (tcbClearPendingSignal s pid signum) q = signalContext s q :=
  part_ite SigState.context s pid _ q _ fun _ => rfl

end Signals

/-! ## What an event does -/

inductive Posts (k : KState) : Event → (pid signum : Nat) → Prop
  | kill (tf : TrapFrame) (pid signum : Nat) (arg : (syscallGetArg2 tf).toInt = pid)
      (signal : (syscallGetArg3 tf).toInt = signum) (lt : pid < numIds) (alive : tcbGetState k.thread pid ≠ .dead)
      (pos : 1 ≤ signum) (bound : signum < nsig) (notKill : signum ≠ sigkill) :
      Posts k (.kill tf) pid signum
  | segv (tf : TrapFrame) (faultVa : Word) (user : getCurid k.thread > 0)
      (bad : tf.err &&& pfePr ≠ 0#32 ∨ faultVa.toNat < vmUserlo) :
      Posts k (.pageFault tf faultVa) (getCurid k.thread) sigsegv
  | interrupt (buf : LocalBuf) (tf : TrapFrame) : Posts k (.readline buf tf none) (getCurid k.thread) sigint

variable {signum : Nat} {e : Event}

theorem Posts.range {k : KState} {pid signum : Nat} (h : Posts k e pid signum) :
    1 ≤ signum ∧ signum < nsig ∧ signum ≠ sigkill := by
  cases h with
  | kill tf pid signum arg signal lt alive pos bound notKill => exact ⟨pos, bound, notKill⟩
  | segv tf faultVa user bad => decide
  | interrupt buf tf => decide

def nextChild (k : KState) : Nat := (containerSplit k.vm (getCurid k.thread) 0#32).2

inductive Stepped (k : KState) : Event → KState → Prop
  | quiet {e : Event} {k' : KState} (same : SameSignals k.thread k'.thread) (moved : Moved k k') : Stepped k e k'
  | posted {e : Event} {k' : KState} (pid signum : Nat) (posts : Posts k e pid signum)
      (pending : ∀ q n, pendingBit k'.thread q n = (pendingBit k.thread q n || decide (q = pid ∧ n = signum)))
      (context : ∀ q, signalContext k'.thread q = signalContext k.thread q) (moved : Moved k k') : Stepped k e k'
  | killed {tf : TrapFrame} (pid : Nat) (arg : (syscallGetArg2 tf).toInt = pid)
      (signal : (syscallGetArg3 tf).toInt = sigkill) (lt : pid < numIds)
      (alive : tcbGetState k.thread pid ≠ .dead) :
      Stepped k (.kill tf) { k with thread := terminateProcess k.thread pid }
  | spawned {tf : TrapFrame} {junk : Nat} (quota : Word) (vm : VmState)
      (parent : getCurid k.thread * maxChildren + 1 + maxChildren ≤ numIds) (lt : nextChild k < numIds)
      (children : SameChildren (containerSplit k.vm (getCurid k.thread) quota).1 vm) :
      Stepped k (.spawn tf junk) ⟨threadSpawn k.thread (nextChild k), vm⟩
  | returned {buf : LocalBuf} {tf : TrapFrame} (vm : VmState) (children : SameChildren k.vm vm) :
      Stepped k (.sigreturn buf tf) ⟨tcbClearSignalContext k.thread (getCurid k.thread), vm⟩
  | delivered {buf : LocalBuf} {tf : TrapFrame} (signum : Nat)
      (first : firstSignal (tcbGetPendingSignals k.thread (getCurid k.thread)) = some signum)
      (catchable : signum ≠ sigkill) (handler : handlerOf k.thread (getCurid k.thread) signum ≠ 0#32) :
      Stepped k (.trapReturn buf tf)
        (deliverSignal buf { k with thread := tcbClearPendingSignal k.thread (getCurid k.thread) signum } tf signum).1
  | ended {buf : LocalBuf} {tf : TrapFrame} {k' : KState} (signum : Nat)
      (first : firstSignal (tcbGetPendingSignals k.thread (getCurid k.thread)) = some signum)
      (fatal : signum = sigkill ∨ handlerOf k.thread (getCurid k.thread) signum = 0#32)
      (exit : terminateCurrent { k with thread := tcbClearPendingSignal k.thread (getCurid k.thread) signum } = .ok k') :
      Stepped k (.trapReturn buf tf) k'

section Step

variable {images : Nat → Word} {k k' : KState} {xs : List Nat}

theorem onThread_ok {r : Except (Halt ThreadState) ThreadState} (h : k.onThread r = .ok k') :
    ∃ s, r = .ok s ∧ k' = { k with thread := s } := by
  cases r with
  | error halt => contradiction
  | ok s =>
    cases h
    exact ⟨s, rfl, rfl⟩

theorem map_fst_ok {α β ε : Type} {r : Except ε (α × β)} {a : α} (h : r.map Prod.fst = .ok a) :
    ∃ b, r = .ok (a, b) := by
  cases r with
  | error halt => contradiction
  | ok p =>
    cases h
    exact ⟨p.2, rfl⟩

theorem Moved.of_thread {s : ThreadState} (scheduled : ∃ ys, Scheduled s ys)
    (buried : ∀ q, Buried k.thread q → Buried s q) : Moved k { k with thread := s } :=
  ⟨scheduled, buried, .refl k.vm⟩

theorem Moved.trans {k₁ k₂ k₃ : KState} (h : Moved k₁ k₂) (m : Moved k₂ k₃) : Moved k₁ k₃ :=
  ⟨m.scheduled, fun q b => m.buried q (h.buried q b), h.children.trans m.children⟩

theorem OnlySignals.moved (h : OnlySignals k.thread k'.thread)
    (scheduled : Scheduled k.thread xs) (children : SameChildren k.vm k'.vm) : Moved k k' :=
  ⟨⟨xs, h.scheduled scheduled⟩, fun _ b => h.buried b, children⟩

theorem Stepped.of_moves {s : ThreadState} (scheduled : ∃ ys, Scheduled s ys) (moves : Moves k.thread s) :
    Stepped k e { k with thread := s } :=
  .quiet (.of_sig moves.sig) (.of_thread scheduled moves.buried)

theorem Stepped.of_vm {vm : VmState} (scheduled : Scheduled k.thread xs) (children : SameChildren k.vm vm) :
    Stepped k e { k with vm := vm } :=
  .quiet (.refl _) ⟨⟨xs, scheduled⟩, fun _ b => b, children⟩

theorem kill_stepped (scheduled : Scheduled k.thread xs) (tf : TrapFrame) :
    Stepped k (.kill tf) { k with thread := (sysKill k.thread tf).1 } := by
  cases killed : sysKill k.thread tf with
  | mk s' tf' =>
    cases killed ▸ sysKill_cases k.thread tf with
    | invalSignum => exact .of_vm scheduled (.refl _)
    | invalPid => exact .of_vm scheduled (.refl _)
    | terminated pid arg lt alive kill => exact .killed pid arg kill lt alive
    | posted pid arg lt alive signum signal pos bound notKill =>
      obtain ⟨ys, next, wakes⟩ := wakeForSignal_tcbAdd (p := pid) scheduled signum
      have same := SameSignals.of_sig wakes.sig
      refine .posted pid signum (.kill tf pid signum arg signal lt alive pos bound notKill) ?_ ?_ ?_
      · intro q n
        rw [← pendingBit_add k.thread pid bound q n, pendingBit, same.pending, pendingBit]
      · intro q
        rw [same.context, signalContext_add]
      · exact .of_thread ⟨ys, next⟩ fun q b => wakes.buried ((onlySignals_add ..).buried b)

theorem sleep_stepped (scheduled : Scheduled k.thread xs) (chan lk : Word)
    (h : step images k (.sleep chan lk) = .ok k') : Stepped k (.sleep chan lk) k' := by
  obtain ⟨s, sleep, rfl⟩ := onThread_ok h
  by_cases hlk : lk = 0
  · rw [threadSleep, if_pos hlk] at sleep
    contradiction
  · cases xs with
    | nil =>
      obtain ⟨halt, stuck⟩ := threadSleep_nil scheduled chan hlk
      rw [stuck] at sleep
      contradiction
    | cons p ys =>
      obtain ⟨s', done, next, moves⟩ := threadSleep_spec scheduled chan hlk
      rw [done] at sleep
      cases sleep
      exact .of_moves ⟨ys, next⟩ moves

theorem procCreate_ok {exe quota : Word} {pid : Nat} (h : procCreate k exe quota = .ok (k', pid)) :
    pid = nextChild k ∧ nextChild k < numIds ∧
      ∃ vm, SameChildren (containerSplit k.vm (getCurid k.thread) quota).1 vm ∧
        k' = ⟨threadSpawn k.thread (nextChild k), vm⟩ := by
  have child : (containerSplit k.vm (getCurid k.thread) quota).2 = nextChild k := rfl
  unfold procCreate at h
  dsimp only at h
  rw [child] at h
  split at h
  · contradiction
  rename_i lt
  cases loaded : elfLoad (containerSplit k.vm (getCurid k.thread) quota).1 exe (nextChild k) with
  | error halt =>
    rw [loaded] at h
    contradiction
  | ok vm =>
    rw [loaded] at h
    dsimp only at h
    split at h
    · contradiction
    · cases h
      exact ⟨rfl, not_le.mp lt, vm, sameChildren_elfLoad loaded, rfl⟩

theorem sysSpawn_ok {tf tf' : TrapFrame} {junk : Nat} (h : sysSpawn images k tf junk = .ok (k', tf')) :
    k' = k ∨ getCurid k.thread * maxChildren + 1 + maxChildren ≤ numIds ∧ nextChild k < numIds ∧
      ∃ quota vm, SameChildren (containerSplit k.vm (getCurid k.thread) quota).1 vm ∧
        k' = ⟨threadSpawn k.thread (nextChild k), vm⟩ := by
  unfold sysSpawn at h
  dsimp only at h
  split at h
  · cases h
    exact .inl rfl
  split at h
  · cases h
    exact .inl rfl
  rename_i parent
  split at h
  · cases h
    exact .inl rfl
  split at h
  · cases created : procCreate k (images (syscallGetArg2 tf).toNat) (syscallGetArg3 tf) with
    | error halt =>
      rw [created] at h
      contradiction
    | ok p =>
      obtain ⟨k₁, pid⟩ := p
      obtain ⟨rfl, lt, vm, children, rfl⟩ := procCreate_ok created
      rw [created] at h
      dsimp only at h
      rw [if_neg (ne_of_lt lt)] at h
      cases h
      exact .inr ⟨not_lt.mp parent, lt, syscallGetArg3 tf, vm, children, rfl⟩
  · cases h
    exact .inl rfl

section

variable (scheduled : Scheduled k.thread xs)
include scheduled

variable (buf : LocalBuf) (tf : TrapFrame)

theorem spawn_stepped (junk : Nat)
    (h : step images k (.spawn tf junk) = .ok k') : Stepped k (.spawn tf junk) k' := by
  obtain ⟨tf', spawn⟩ := map_fst_ok h
  rcases sysSpawn_ok spawn with rfl | ⟨parent, lt, quota, vm, children, rfl⟩
  · exact .of_vm scheduled (.refl _)
  · exact .spawned quota vm parent lt children

theorem sigaction_stepped :
    Stepped k (.sigaction buf tf) (sysSigaction buf k tf).1 := by
  unfold sysSigaction
  dsimp only
  split
  · exact .of_vm scheduled (.refl _)
  · split
    case' isTrue =>
      refine .quiet (sameSignals_setSigaction ..) ((onlySignals_setSigaction ..).moved scheduled ?_)
      refine SameChildren.trans ?_ (sameChildren_ptCopyin ..)
    case' isFalse => refine .of_vm scheduled ?_
    -- either way the old action may have been copied out before
    all_goals
      split
      · split
        · exact .refl k.vm
        · exact (sameChildren_mem ..).trans (sameChildren_ptCopyout ..)
      · exact .refl k.vm

theorem sigreturn_stepped :
    Stepped k (.sigreturn buf tf) (sysSigreturn buf k tf).1 := by
  unfold sysSigreturn
  dsimp only
  split
  · exact .of_vm scheduled (.refl _)
  · split
    · exact .of_vm scheduled (sameChildren_ptCopyin ..)
    · split
      · exact .of_vm scheduled ((sameChildren_ptCopyin ..).trans (sameChildren_ptCopyin ..))
      · exact .returned _ ((sameChildren_ptCopyin ..).trans (sameChildren_ptCopyin ..))

theorem posted_current {vm : VmState}
    (posts : Posts k e (getCurid k.thread) signum) (children : SameChildren k.vm vm) :
    Stepped k e ⟨tcbAddPendingSignal k.thread (getCurid k.thread) signum, vm⟩ :=
  .posted (getCurid k.thread) signum posts (pendingBit_add k.thread (getCurid k.thread) posts.range.2.1)
    (signalContext_add k.thread (getCurid k.thread) signum) ((onlySignals_add ..).moved scheduled children)

theorem readline_stepped
    (line : Option (Word × Word)) (h : step images k (.readline buf tf line) = .ok k') :
    Stepped k (.readline buf tf line) k' := by
  obtain ⟨tf', read⟩ := map_fst_ok h
  unfold sysReadline at read
  cases line with
  | none =>
    cases read
    exact posted_current scheduled (.interrupt buf tf) ((sameChildren_mem ..).trans (sameChildren_ptCopyout ..))
  | some text =>
    dsimp only at read
    split at read
    · contradiction
    · cases read
      exact .of_vm scheduled (sameChildren_ptCopyout ..)

theorem pageFault_stepped (faultVa : Word)
    (h : step images k (.pageFault tf faultVa) = .ok k') : Stepped k (.pageFault tf faultVa) k' := by
  have fault : pgfltHandler k tf faultVa = .ok k' := h
  unfold pgfltHandler at fault
  dsimp only at fault
  split at fault
  · rename_i bad
    cases fault
    exact posted_current scheduled (.segv tf faultVa bad.1 bad.2) (.refl _)
  · split at fault
    · contradiction
    · split at fault
      · contradiction
      · cases fault
        exact .of_vm scheduled (sameChildren_allocPage ..)

theorem trapReturn_stepped
    (h : step images k (.trapReturn buf tf) = .ok k') : Stepped k (.trapReturn buf tf) k' := by
  obtain ⟨tf', handled⟩ := map_fst_ok h
  have ways := handlePendingSignals_cases buf k tf
  generalize handlePendingSignals buf k tf = r at handled ways
  cases ways with
  | nothing quiet =>
    cases handled
    exact .of_vm scheduled (.refl _)
  | terminated signum first fatal =>
    cases exit : terminateCurrent { k with thread := tcbClearPendingSignal k.thread (getCurid k.thread) signum } with
    | error halt =>
      rw [exit] at handled
      contradiction
    | ok k₁ =>
      rw [exit] at handled
      cases handled
      exact .ended signum first fatal exit
  | delivered signum first catchable handler =>
    have delivered : Stepped k (.trapReturn buf tf) _ := .delivered signum first catchable handler
    rwa [Except.ok.inj handled] at delivered

end

theorem step_cases (scheduled : ∃ xs, Scheduled k.thread xs) (h : step images k e = .ok k') : Stepped k e k' := by
  obtain ⟨xs, scheduled⟩ := scheduled
  cases e with
  | kill tf =>
    cases h
    exact kill_stepped scheduled tf
  | pause tf =>
    obtain ⟨s, pause, rfl⟩ := onThread_ok h
    obtain ⟨s', ys, done, next, moves⟩ := sysPause_spec scheduled tf
    rw [done] at pause
    cases pause
    exact .of_moves ⟨ys, next⟩ moves
  | yield =>
    obtain ⟨s, yield, rfl⟩ := onThread_ok h
    obtain ⟨s', ys, done, next, moves⟩ :=
      threadYield_spec scheduled.toReadyList scheduled.curid_lt scheduled.cur_not_ready
    rw [done] at yield
    cases yield
    exact .of_moves ⟨ys, next⟩ moves
  | spawn tf junk => exact spawn_stepped scheduled tf junk h
  | sigaction buf tf =>
    cases h
    exact sigaction_stepped scheduled buf tf
  | sigreturn buf tf =>
    cases h
    exact sigreturn_stepped scheduled buf tf
  | readline buf tf line => exact readline_stepped scheduled buf tf line h
  | pageFault tf faultVa => exact pageFault_stepped scheduled tf faultVa h
  | timer =>
    obtain ⟨s, update, rfl⟩ := onThread_ok h
    obtain ⟨s', ys, done, next, moves⟩ := schedUpdate_spec scheduled
    rw [done] at update
    cases update
    exact .of_moves ⟨ys, next⟩ moves
  | sleep chan lk => exact sleep_stepped scheduled chan lk h
  | sleepResume =>
    cases h
    refine .quiet (.of_sig fun q => sig_setChan ..) (.of_thread ⟨xs, scheduled.congr ?_ ?_ ?_⟩ fun q b => ?_)
    · exact links_setChan ..
    · exact fun q => state_setChan ..
    · exact curid_setChan ..
    · simpa [Buried, threadSleepResume] using b
  | wakeup chan =>
    have woken : { k with thread := threadWakeup k.thread chan } = k' := Except.ok.inj h
    obtain ⟨ys, next, wakes⟩ := threadWakeup_spec chan scheduled
    generalize threadWakeup k.thread chan = s at woken next wakes
    subst woken
    exact .quiet (.of_sig wakes.sig) (.of_thread ⟨ys, next⟩ fun q => wakes.buried)
  | copy pid uva len copy =>
    cases h
    exact .of_vm scheduled (sameChildren_exec ..)
  | store mem =>
    cases h
    exact .of_vm scheduled (sameChildren_mem ..)
  | trapReturn buf tf => exact trapReturn_stepped scheduled buf tf h

end Step

/-! ## Delivering and ending -/

section

variable (buf : LocalBuf) (vm : VmState) (pid : Nat)

theorem sameChildren_pushWord (uva value : Word) : SameChildren vm (pushWord buf vm pid uva value) :=
  (sameChildren_mem ..).trans (sameChildren_ptCopyout ..)

theorem sameChildren_pushTrampoline (uva : Word) : SameChildren vm (pushTrampoline buf vm pid uva) :=
  (sameChildren_mem ..).trans (sameChildren_ptCopyout ..)

theorem sameChildren_frameVm (esp eip : Word) (signum : Nat) :
    SameChildren vm (frameVm buf vm pid esp eip signum) := by
  apply SameChildren.trans _ (sameChildren_pushWord ..)
  apply SameChildren.trans _ (sameChildren_pushWord ..)
  apply SameChildren.trans _ (sameChildren_pushTrampoline ..)
  exact (sameChildren_pushWord ..).trans (sameChildren_pushWord ..)

end

theorem deliverSignal_state (buf : LocalBuf) (k : KState) (tf : TrapFrame) (lt : signum < nsig)
    (handler : handlerOf k.thread (getCurid k.thread) signum ≠ 0#32) : (deliverSignal buf k tf signum).1.thread =
        tcbSetSignalContext k.thread (getCurid k.thread) (tf.esp - 8#32) (tf.esp - 4#32) ∧
      SameChildren k.vm (deliverSignal buf k tf signum).1.vm := by
  rw [deliverSignal_eq, if_pos ⟨lt, handler⟩]
  exact ⟨rfl, sameChildren_frameVm ..⟩

theorem threadExit_nil {s : ThreadState} (h : ReadyList s []) :
    threadExit s = .error (.panic "thread_exit: no threads to switch to!\n" s) := by
  unfold threadExit
  rw [h.queue.dequeue_nil]
  rfl

theorem terminateCurrent_cases {k : KState} {xs : List Nat} (h : Scheduled k.thread xs) :
    (∃ k', terminateCurrent k = .ok k' ∧ Moved k k' ∧ Buried k'.thread (getCurid k.thread) ∧
      ∀ q, tcbGetSigstate k'.thread q = tcbGetSigstate (terminateProcess k.thread (getCurid k.thread)) q) ∨
    ∃ msg, terminateCurrent k =
      .error (.panic msg { k with thread := terminateProcess k.thread (getCurid k.thread) }) := by
  unfold terminateCurrent
  cases xs with
  | nil =>
    have ended := h.terminate h.curid_lt
    rw [threadExit_nil ended.toReadyList]
    exact .inr ⟨_, rfl⟩
  | cons p ys =>
    obtain ⟨s', exited, next, switched, cur, buried⟩ := terminateExit_spec h
    rw [exited]
    exact .inl ⟨_, rfl, .of_thread ⟨ys, next⟩ buried, cur, switched.sig⟩

section Cleared

variable {k k' : KState} {xs : List Nat}

/-- The state in which `handle_pending_signals` delivers or ends: the signal is no longer pending. -/
def cleared (k : KState) (signum : Nat) : KState :=
  { k with thread := tcbClearPendingSignal k.thread (getCurid k.thread) signum }

theorem cleared_moved (scheduled : Scheduled k.thread xs) (signum : Nat) : Moved k (cleared k signum) :=
  (onlySignals_clear ..).moved scheduled (.refl _)

theorem handlerOf_cleared (k : KState) (signum : Nat) :
    handlerOf (cleared k signum).thread (getCurid (cleared k signum).thread) signum =
      handlerOf k.thread (getCurid k.thread) signum := by
  simp only [handlerOf, cleared, curid_clear, actions_clear]

theorem delivered_moved (scheduled : Scheduled k.thread xs) (buf : LocalBuf) (tf : TrapFrame)
    (lt : signum < nsig) (handler : handlerOf k.thread (getCurid k.thread) signum ≠ 0#32) :
    Moved k (deliverSignal buf (cleared k signum) tf signum).1 := by
  obtain ⟨thread, children⟩ :=
    deliverSignal_state buf (cleared k signum) tf lt (by rwa [handlerOf_cleared])
  refine OnlySignals.moved ?_ scheduled children
  rw [thread]
  exact (onlySignals_clear ..).trans (onlySignals_modifySigstate ..)

theorem ended_ok (scheduled : Scheduled k.thread xs) (exit : terminateCurrent (cleared k signum) = .ok k') :
    Moved k k' ∧ Buried k'.thread (getCurid k.thread) ∧ ∀ q, tcbGetSigstate k'.thread q =
        tcbGetSigstate (terminateProcess (cleared k signum).thread (getCurid k.thread)) q := by
  have kept : Scheduled (cleared k signum).thread xs := (onlySignals_clear ..).scheduled scheduled
  rcases terminateCurrent_cases kept with ⟨k₁, done, moved, buried, sig⟩ | ⟨msg, halted⟩
  · cases done.symm.trans exit
    rw [cleared, curid_clear] at buried sig
    exact ⟨(cleared_moved scheduled signum).trans moved, buried, sig⟩
  · cases halted.symm.trans exit

end Cleared

end Certikos
