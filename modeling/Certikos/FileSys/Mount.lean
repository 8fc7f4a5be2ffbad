import Certikos.FileSys.View

/-!
# The first use of the file system

What a process sees before any call was made, and after `log_init`, which the first `sys_open` runs.
-/

namespace Certikos.FileSys
open Lib
open Fs (nbuf Block Disk LogHeader rootdev logsize headBlock)

variable {p : Nat} {H : List (Fin nbuf × Word)} {a : View} {s : State} {watch : Note → Bool} {E : Cut Stop Note → Prop}

def State.view (s : State) : View where
  block q := s.disk ⟨rootdev, q⟩
  logged := []
  trans := s.log.busy
  start := s.log.start
  size := s.log.size
  inode := s.inode
  file := s.file
  openfiles := s.openfiles
  cwd := s.cwd
  first := s.first
  devsw := s.devsw
  eax := s.eax

structure State.Idle (s : State) (p : Nat) : Prop where
  runs : s.thread p = .running
  locks : ∀ l, s.locks l = false
  queue : s.idequeue = []
  ring : ∀ b, b ∈ s.mru
  disk1 : s.havedisk1 = true
  empty : ∀ b, (s.buf b).dev ≠ rootdev ∧ (s.buf b).busy = false ∧ (s.buf b).dirty = false
  area : s.log.start.toNat + s.log.size.toNat ≤ 2 ^ 28
  head : s.log.lh.n = 0
  dev : s.log.size ≠ 0 → s.log.dev = rootdev

theorem State.Idle.sees (idle : s.Idle p) : Sees p [] s.view s := by
  have other := fun b => (idle.empty b).1
  refine ⟨by simp, fun q => s.disk ⟨rootdev, q⟩, s.rest, ?_, ?_⟩
  · exact {
      runs := idle.runs
      locks := fun l _ => idle.locks l
      queue := idle.queue
      ring := idle.ring
      disk1 := idle.disk1
      named := fun b dev => absurd dev (other b)
      distinct := fun b _ dev => absurd dev (other b)
      busy := fun b => ⟨fun busy => absurd busy (by simp [(idle.empty b).2.1]), fun held => by simp at held⟩
      held := by simp
      edits := by simp
      dirty := fun b dirty => absurd dirty (by simp [(idle.empty b).2.2])
      data := fun b dev => absurd dev (other b)
      disk := fun _ _ _ => rfl
      rest := rfl }
  · exact {
      area := idle.area
      count := Nat.zero_le _
      fits := .inl rfl
      nodup := List.nodup_nil
      homes := nofun
      block := fun _ _ => rfl
      slots := fun i lt => absurd lt (Nat.not_lt_zero i)
      log := ⟨rfl, rfl, rfl, idle.dev⟩
      header := ⟨idle.head, rfl⟩
      rest := rfl }

theorem boot_sees (disk : Disk) {live : Nat → Bool} (null : Inode) (devsw : Nat → Bool × Bool) (eax : Nat → Word)
    (alive : live p = true) : Sees p [] (boot disk live null devsw eax).view (boot disk live null devsw eax) := by
  refine State.Idle.sees ⟨if_pos alive, fun _ => rfl, rfl, fun b => List.mem_reverse.mpr (List.mem_finRange b), rfl, ?_, ?_, rfl,
    fun present => absurd rfl present⟩
  · exact fun _ => ⟨show (-1 : Word) ≠ rootdev by decide, rfl, rfl⟩
  · exact show (0 : Word).toNat + (0 : Word).toNat ≤ 2 ^ 28 by decide

def View.state (a : View) : State where
  locks _ := false
  thread _ := .running
  buf _ := ⟨-1, 0, false, false, false, fun _ => 0⟩
  mru := List.finRange nbuf
  idequeue := []
  command := ⟨0, 0⟩
  disk addr := a.block addr.sector
  havedisk1 := true
  log := ⟨a.start, a.size, a.trans, rootdev, ⟨0, fun _ => 0⟩⟩
  inode := a.inode
  file := a.file
  openfiles := a.openfiles
  cwd := a.cwd
  first := a.first
  devsw := a.devsw
  eax := a.eax

theorem View.state_sees (a : View) (p : Nat) (none : a.logged = []) (area : a.start.toNat + a.size.toNat ≤ 2 ^ 28) :
    Sees p [] a a.state := by
  have same : a.state.view = a := by
    cases a with
    | mk block logged =>
      cases none
      rfl
  have sees : Sees p [] a.state.view a.state := State.Idle.sees ⟨rfl, fun _ => rfl, rfl, List.mem_finRange, rfl,
    fun _ => ⟨show (-1 : Word) ≠ rootdev by decide, rfl, rfl⟩, area, rfl, fun _ => rfl⟩
  rw [same] at sees
  exact sees

theorem readSuperblock_sees (terms : Terms watch E p) (home : a.Home 1) (free : ∀ b, (b, 1) ∉ H)
    (room : H.length + a.logged.length < nbuf ∨ E noBuffers) :
    (readSuperblock rootdev).Acts watch E p (Sees p H a) fun sb t =>
      sb = superblockOf (a.block 1) ∧ Sees p H a t := by
  refine .bind (bufcacheRead_sees terms home free room) fun bp =>
    .learn (C := fun s => (s.buf bp).data = a.block 1) (fun s sees => sees.data (.head _)) fun t data => ?_
  rw [data]
  exact .seq (release_sees terms free) <| .pure fun _ sees => ⟨rfl, sees⟩

theorem Terms.note (terms : Terms watch E p) {w : Note} (common : w.rare = false) {P : State → Prop} :
    (Code.note w : KernM PUnit).Does (watched watch) E p P fun _ => P :=
  terms.noted (f := fun u => pure u) common (.same)

section Recovery

variable {c : Word → Block} {r : Rest}

variable (terms : Terms watch E p) (dev : r.log.dev = rootdev) (low : r.log.start.toNat < 2 ^ 28)
  (empty : c r.log.start (Fin.ofNat 128 0) = 0)
include terms dev low empty

theorem readHead_lone : readHead.Acts watch E p (Lone p [] [] [] c r) fun _ t => ∃ lh : LogHeader, lh.n = 0 ∧
      Lone p [] [] [] c { r with log := { r.log with lh := lh } } t := by
  refine .learn (C := fun s => s.log = r.log) (fun s lone => lone.state_log) fun t log => ?_
  rw [log, dev]
  refine .bind (bufcacheRead_lone terms low (by simp) (.inl (by decide))) fun b => ?_
  refine .learn (C := fun s => (s.buf b).data = c r.log.start) (fun s lone => ?_) fun t data => ?_
  · have held := lone.held b _ (.head _)
    have here := lone.data b held.1
    rw [held.2] at here
    exact here
  rw [data]
  dsimp only
  rw [empty]
  refine .ite (fun wild => absurd wild (by decide)) fun _ => .seq modifyLog_lone <|
    (releaseLast_lone terms (by simp) (by simp)).weaken fun _ t lone => ⟨_, ?_, lone⟩
  rfl

theorem recoverFromLog_lone :
    recoverFromLog.Acts watch E p (Lone p [] [] [] c r) fun _ t => ∃ (lh : LogHeader) (x : Block), lh.n = 0 ∧
      Lone p [] [] [] (Function.update c r.log.start x) { r with log := { r.log with lh := lh } } t := by
  refine .bind (readHead_lone terms dev low empty) fun _ => ?_
  rintro s ⟨lh, none, lone⟩
  have installs : installTrans.Acts watch E p
      (Lone p [] [] [] c { r with log := { r.log with lh := lh } }) fun _ =>
        Lone p [] [] [] c { r with log := { r.log with lh := lh } } := by
    refine .learn (C := fun s => s.log.lh = lh) (fun s lone => by rw [lone.state_log]) fun t head => ?_
    rw [head, none]
    exact .ite (fun some => absurd some (by decide)) fun _ => .same
  have written := writeHead_lone (L := []) (c := c) (r := { r with log := { r.log with lh := { lh with n := 0 } } }) terms
    dev low (show (0 : Int) ≤ logsize by decide) (.inl (by decide))
  refine Code.Does.bind installs (fun _ => .seq modifyLog_lone <| .seq written <|
    (terms.note rfl).weaken fun _ t lone => ?_) s lone
  exact ⟨{ lh with n := 0 }, _, rfl, lone⟩

end Recovery

theorem logInit_sees (terms : Terms watch E p) (unmounted : a.size = 0) (logged : a.logged = []) (start size : Word)
    (place : (superblockOf (a.block 1)).size - (superblockOf (a.block 1)).nlog = start)
    (length : (superblockOf (a.block 1)).nlog = size) (area : start.toNat + size.toNat ≤ 2 ^ 28) (present : size ≠ 0)
    (empty : a.block start (Fin.ofNat 128 0) = 0) :
    logInit.Acts watch E p (Sees p [] a) fun _ => Sees p [] { a with start := start, size := size } := by
  have home : ∀ q : Word, q.toNat < 2 ^ 28 → a.Home q := by
    intro q low
    refine ⟨low, ?_⟩
    rw [unmounted]
    rintro ⟨above, below⟩
    rw [show (0 : Word).toNat = 0 from rfl] at below
    omega
  have positive : 0 < size.toNat := Nat.pos_of_ne_zero fun zero => present (BitVec.eq_of_toNat_eq zero)
  refine terms.noted rfl (.seq (Q := fun _ => Sees p [] a) (.modify fun s sees => ?_) <|
    .bind (readSuperblock_sees terms (home 1 (by decide)) (by simp) (.inl (by rw [logged]; decide))) fun sb => ?_)
  · have same : s.setLock .log false = s := by
      unfold State.setLock
      rw [update_free (sees.unlocked (by simp))]
    rw [same]
    exact sees
  · rintro s ⟨rfl, homes, c, r, lone, is⟩
    rw [logged] at lone
    rw [place, length]
    have header : c start (Fin.ofNat 128 0) = 0 := by
      rw [is.block start (home start (by omega))]
      exact empty
    refine Code.Does.bind modifyLog_lone (fun _ => (recoverFromLog_lone terms (r := { r with
      log := { r.log with start := start, size := size, dev := rootdev } }) rfl (by show start.toNat < _; omega)
      header).weaken fun _ t after => ?_) s lone
    obtain ⟨lh, x, none, lone'⟩ := after
    refine ⟨by simp, _, _, by rw [logged]; exact lone', ?_⟩
    exact {
      area := area
      count := is.count
      fits := .inl logged
      nodup := is.nodup
      homes := fun q member => absurd member (by rw [logged]; exact List.not_mem_nil)
      block := fun q outside => by
        have ne : q ≠ start := by
          rintro rfl
          exact outside.2 ⟨le_rfl, by show _ < q.toNat + size.toNat; omega⟩
        show Function.update c start x q = _
        rw [Function.update_of_ne ne]
        exact is.block q (home q outside.1)
      slots := fun i lt => absurd lt (by rw [logged]; exact Nat.not_lt_zero i)
      log := ⟨rfl, rfl, is.log.2.2.1, fun _ => rfl⟩
      header := by
        rw [logged]
        exact ⟨none, rfl⟩
      rest := by rw [is.rest] }

end Certikos.FileSys
