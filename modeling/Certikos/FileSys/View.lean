import Certikos.FileSys.Lone

/-!
# What a process that is alone sees

Through the cache and the log, the disk is a function from the sectors outside the log to blocks. A sector that is
logged has its new contents at once; committing changes nothing of what is seen.
-/

namespace Certikos.FileSys
open Lib Function
open Fs (nbuf Block Buf LogHeader rootdev logsize headBlock logSlot)

structure View where
  block : Word → Block
  logged : List Word
  trans : Bool
  start : Word
  size : Word
  inode : Slot → Inode
  file : Fin nfile → File
  openfiles : Nat → Nat → Option (Fin nfile)
  cwd : Nat → Slot
  first : Bool
  devsw : Nat → Bool × Bool
  eax : Nat → Word

namespace View

def Home (a : View) (q : Word) : Prop :=
  q.toNat < 2 ^ 28 ∧ ¬ (a.start.toNat ≤ q.toNat ∧ q.toNat < a.start.toNat + a.size.toNat)

def slot (a : View) (i : Nat) : Word := a.start + BitVec.ofNat 32 i + 1

def write (a : View) (q : Word) (d : Block) : View :=
  { a with
    block := update a.block q d
    logged := if q ∈ a.logged then a.logged else a.logged ++ [q] }

@[simp] theorem block_write_self {a : View} {q : Word} {d : Block} : (a.write q d).block q = d := update_self ..

theorem block_write_of_ne {a : View} {q q' : Word} {d : Block} (ne : q' ≠ q) : (a.write q d).block q' = a.block q' :=
  update_of_ne ne ..

structure Is (a : View) (c : Word → Block) (r : Rest) : Prop where
  area : a.start.toNat + a.size.toNat ≤ 2 ^ 28
  count : a.logged.length ≤ logsize
  fits : a.logged = [] ∨ a.logged.length < a.size.toNat
  nodup : a.logged.Nodup
  homes : ∀ q ∈ a.logged, a.Home q
  block : ∀ q, a.Home q → c q = a.block q
  slots : ∀ i (lt : i < a.logged.length), c (a.slot i) = a.block a.logged[i]
  log : r.log.start = a.start ∧ r.log.size = a.size ∧ r.log.busy = a.trans ∧ (a.size ≠ 0 → r.log.dev = rootdev)
  header : r.log.lh.n = a.logged.length ∧ (List.range a.logged.length).map r.log.lh.sector = a.logged
  rest : r = ⟨r.log, a.inode, a.file, a.openfiles, a.cwd, a.first, a.devsw, a.eax⟩

end View

def Sees (p : Nat) (H : List (Fin nbuf × Word)) (a : View) (s : State) : Prop :=
  (∀ k ∈ H, a.Home k.2) ∧ ∃ c r, Lone p [] H a.logged c r s ∧ a.Is c r

def Edited (p : Nat) (H : List (Fin nbuf × Word)) (a : View) (b : Fin nbuf) (q : Word) (d : Block) (s : State) : Prop :=
  (∀ k ∈ H, a.Home k.2) ∧ ∃ c r, Lone p [b] H a.logged (update c q d) r s ∧ a.Is c r

variable {p : Nat} {H H' : List (Fin nbuf × Word)} {a a' : View} {s t : State} {b : Fin nbuf} {q : Word} {d : Block}
  {watch : Note → Bool} {E : Cut Stop Note → Prop}

theorem Sees.data (sees : Sees p H a s) (held : (b, q) ∈ H) : (s.buf b).data = a.block q := by
  obtain ⟨homes, c, r, lone, is⟩ := sees
  exact (lone.block held).trans (is.block q (homes _ held))

/-! ## Reading -/

theorem bufcacheRead_sees (terms : Terms watch E p) (home : a.Home q) (free : ∀ b, (b, q) ∉ H)
    (room : H.length + a.logged.length < nbuf ∨ E noBuffers) :
    (bufcacheRead rootdev q).Acts watch E p (Sees p H a) fun b => Sees p ((b, q) :: H) a := by
  rintro s ⟨homes, c, r, lone, is⟩
  refine (bufcacheRead_lone terms home.1 free room s lone).mono ?_ fun _ ended => ended
  intro b t lone'
  refine ⟨?_, c, r, lone', is⟩
  intro k member
  cases List.mem_cons.mp member with
  | inl head => exact head ▸ home
  | inr tail => exact homes k tail

theorem release_sees (terms : Terms watch E p) (free : ∀ b, (b, q) ∉ H) :
    (bufcacheRelease b).Acts watch E p (Sees p ((b, q) :: H) a) fun _ => Sees p H a := by
  rintro s ⟨homes, c, r, lone, is⟩
  refine (releaseLast_lone terms free (by simp) s lone).mono ?_ fun _ ended => ended
  intro _ t lone'
  exact ⟨fun k member => homes k (.tail _ member), c, r, lone', is⟩

/-! ## Logging -/

theorem modifyData_sees {f : Block → Block} (held : (b, q) ∈ H) :
    (modifyData b f).Acts watch E p (Sees p H a) fun _ => Edited p H a b q (f (a.block q)) := by
  rintro s ⟨homes, c, r, lone, is⟩
  refine (modifyData_lone held s lone).mono ?_ fun _ ended => ended
  intro _ t lone'
  rw [is.block q (homes _ held)] at lone'
  exact ⟨homes, c, r, lone', is⟩

variable {X : List (Fin nbuf)} {L : List Word} {c : Word → Block} {r : Rest} {chan : Chan}

theorem modifyLog_lone {f : Log → Log} :
    (modifyLog f).Acts watch E p (Lone p X H L c r) fun _ => Lone p X H L c { r with log := f r.log } := by
  refine .modify fun s lone => ?_
  exact { lone with rest := by rw [← lone.rest]; rfl }

def tooBig (size n : Int) : Cut Stop Note :=
  .stops (.panic s!"too big a transaction. {size} < {n} <= {logsize}")

abbrev outsideTrans : Cut Stop Note := .stops (.panic "write outside of trans")

namespace View

variable {c : Word → Block} {r : Rest} {i j : Nat}

section

variable (area : a.start.toNat + a.size.toNat ≤ 2 ^ 28) (lt : i + 1 < a.size.toNat)
include area lt

theorem toNat_slot : (a.slot i).toNat = a.start.toNat + i + 1 := by
  simp only [slot, BitVec.toNat_add, BitVec.toNat_ofNat, show (1 : Word).toNat = 1 from rfl]
  omega

theorem slot_not_home : ¬ a.Home (a.slot i) := by
  rintro ⟨-, outside⟩
  rw [toNat_slot area lt] at outside
  omega

theorem slot_inj (lt' : j + 1 < a.size.toNat) (same : a.slot i = a.slot j) : i = j := by
  have nats := congrArg BitVec.toNat same
  rw [toNat_slot area lt, toNat_slot area lt'] at nats
  omega

end

theorem Is.logSlot_eq (is : a.Is c r) (q : Word) : logSlot r.log.lh q = a.logged.idxOf q := by
  rw [logSlot, is.header.1, Int.toNat_natCast]
  conv_rhs => rw [← is.header.2, List.idxOf, List.findIdx_map]
  rfl

theorem header_write (header : (List.range a.logged.length).map r.log.lh.sector = a.logged) : let i := a.logged.idxOf q
    let n := if i = a.logged.length then a.logged.length + 1 else a.logged.length
    n = (a.write q d).logged.length ∧
      (List.range n).map (update r.log.lh.sector i q) = (a.write q d).logged := by
  intro i n
  by_cases member : q ∈ a.logged
  · have lt : i < a.logged.length := List.idxOf_lt_length_iff.mpr member
    have count : n = a.logged.length := if_neg lt.ne
    rw [count, write, if_pos member]
    refine ⟨rfl, ?_⟩
    conv_rhs => rw [← header]
    refine List.map_congr_left ?_
    intro k inside
    by_cases same : k = i
    · have here : (List.range a.logged.length).map r.log.lh.sector = a.logged := header
      have at_i : a.logged[i] = r.log.lh.sector i := by
        conv_lhs => rw [List.getElem_of_eq here.symm]
        simp
      rw [same, update_self, ← at_i]
      exact (List.getElem_idxOf lt).symm
    · rw [update_of_ne same]
  · have fresh : i = a.logged.length := List.idxOf_eq_length member
    have count : n = a.logged.length + 1 := if_pos fresh
    rw [count, write, if_neg member]
    refine ⟨by simp, ?_⟩
    rw [List.range_succ, List.map_append, List.map_singleton, fresh, update_self]
    congr 1
    conv_rhs => rw [← header]
    refine List.map_congr_left ?_
    intro k inside
    rw [update_of_ne (List.mem_range.mp inside).ne]

theorem getElem_write (nodup : a.logged.Nodup) (lt : j < (a.write q d).logged.length) (ne : j ≠ a.logged.idxOf q) :
    ∃ before : j < a.logged.length, (a.write q d).logged[j] = a.logged[j] ∧ a.logged[j] ≠ q := by
  by_cases member : q ∈ a.logged
  · have same : (a.write q d).logged = a.logged := if_pos member
    have before : j < a.logged.length := by rwa [same] at lt
    refine ⟨before, List.getElem_of_eq same lt, ?_⟩
    rintro rfl
    exact ne (nodup.idxOf_getElem j before).symm
  · have longer : (a.write q d).logged = a.logged ++ [q] := if_neg member
    have before : j < a.logged.length := by
      rw [longer, List.length_append, List.length_singleton] at lt
      rw [List.idxOf_eq_length member] at ne
      omega
    refine ⟨before, (List.getElem_of_eq longer lt).trans (List.getElem_append_left before), ?_⟩
    rintro rfl
    exact member (List.getElem_mem before)

theorem getElem_write_self (lt : a.logged.idxOf q < (a.write q d).logged.length) :
    (a.write q d).logged[a.logged.idxOf q] = q := by
  by_cases member : q ∈ a.logged
  · have same : (a.write q d).logged = a.logged := if_pos member
    rw [List.getElem_of_eq same lt]
    exact List.getElem_idxOf _
  · have longer : (a.write q d).logged = a.logged ++ [q] := if_neg member
    rw [List.getElem_of_eq longer lt]
    simp [List.idxOf_eq_length member]

theorem mem_write {q' : Word} : q' ∈ (a.write q d).logged ↔ q' = q ∨ q' ∈ a.logged := by
  by_cases member : q ∈ a.logged
  · rw [show (a.write q d).logged = a.logged from if_pos member]
    constructor
    · exact .inr
    · rintro (rfl | before)
      · exact member
      · exact before
  · rw [show (a.write q d).logged = a.logged ++ [q] from if_neg member]
    simp [or_comm]

theorem length_write : (a.write q d).logged.length ≤ a.logged.length + 1 := by
  by_cases member : q ∈ a.logged
  · rw [show (a.write q d).logged = a.logged from if_pos member]
    omega
  · rw [show (a.write q d).logged = a.logged ++ [q] from if_neg member]
    simp

theorem nodup_write (nodup : a.logged.Nodup) : (a.write q d).logged.Nodup := by
  by_cases member : q ∈ a.logged
  · rw [show (a.write q d).logged = a.logged from if_pos member]
    exact nodup
  · rw [show (a.write q d).logged = a.logged ++ [q] from if_neg member]
    exact List.Nodup.append nodup (List.nodup_singleton q) (by simpa using member)

theorem Is.write (is : a.Is c r) (home : a.Home q) (count : a.logged.length < logsize)
    (fits : a.logged.length + 1 < a.size.toNat) :
    let i := a.logged.idxOf q
    let n : Int := if (i : Int) = r.log.lh.n then r.log.lh.n + 1 else r.log.lh.n
    (a.write q d).Is (update (update c q d) (a.slot i) d)
      { r with log := { r.log with lh := ⟨n, update r.log.lh.sector i q⟩ } } := by
  intro i n
  have index : i ≤ a.logged.length := List.idxOf_le_length
  have small : i + 1 < a.size.toNat := by omega
  have away : ¬ a.Home (a.slot i) := slot_not_home is.area small
  have longer := length_write (a := a) (q := q) (d := d)
  have size : (a.write q d).size = a.size := rfl
  refine ⟨is.area, by omega, .inr (by rw [size]; omega), nodup_write is.nodup, ?_, ?_, ?_, is.log, ?_, ?_⟩
  · intro q' member
    cases mem_write.mp member with
    | inl same => exact same ▸ home
    | inr before => exact is.homes q' before
  · intro q' home'
    have ne : q' ≠ a.slot i := by
      rintro rfl
      exact away home'
    rw [update_of_ne ne]
    by_cases same : q' = q
    · rw [same, update_self, block_write_self]
    · rw [update_of_ne same, is.block q' home', block_write_of_ne same]
  · intro j lt
    by_cases same : j = i
    · subst same
      rw [getElem_write_self, block_write_self]
      exact update_self ..
    · obtain ⟨before, sector, ne⟩ := getElem_write is.nodup lt same
      have small' : j + 1 < a.size.toNat := by omega
      have other : a.slot j ≠ a.slot i := fun equal => same (slot_inj is.area small' small equal)
      have apart : a.slot j ≠ q := by
        rintro rfl
        exact slot_not_home is.area small' home
      show update (update c q d) (a.slot i) d (a.slot j) = _
      rw [sector, update_of_ne other, update_of_ne apart, block_write_of_ne ne]
      exact is.slots j before
  · obtain ⟨count', header⟩ := header_write (d := d) (q := q) is.header.2
    have same : n = (a.write q d).logged.length := by
      rw [← count']
      show (if (i : Int) = r.log.lh.n then r.log.lh.n + 1 else r.log.lh.n) = _
      rw [is.header.1]
      simp only [Nat.cast_inj]
      split <;> rfl
    exact ⟨same, by rw [← count']; exact header⟩
  · rw [is.rest]
    rfl

end View

theorem Lone.state_log (lone : Lone p X H L c r s) :
    s.log = r.log := by
  rw [← lone.rest]
  rfl

theorem logWrite_lone (terms : Terms watch E p) {M : List Word} {i n : Nat} (held : (b, q) ∈ H)
    (busy : r.log.busy = true) (noted : watch (.logWrite q) = true → E (.notes (.logWrite q)))
    (room : H.length + L.length < nbuf ∨ E noBuffers) (index : logSlot r.log.lh q = i) (count : r.log.lh.n = n)
    (fits : n < logsize ∧ (n : Int) < r.log.size.toInt - 1)
    (low : (r.log.start + BitVec.ofNat 32 i + 1).toNat < 2 ^ 28)
    (free : ∀ b', (b', r.log.start + BitVec.ofNat 32 i + 1) ∉ H) (grows : L ⊆ M) (member : q ∈ M) :
    (logWrite b).Acts watch E p (Lone p [b] H L (update c q d) r) fun _ =>
      Lone p [] H M (update (update c q d) (r.log.start + BitVec.ofNat 32 i + 1) d)
        { r with log := { r.log with
          lh := ⟨if (i : Int) = r.log.lh.n then r.log.lh.n + 1 else r.log.lh.n, update r.log.lh.sector i q⟩ } } := by
  refine .read fun s lone => ?_
  have log := lone.state_log
  rw [(lone.held b q held).2, (lone.held b q held).1, log, index]
  have copied : update c q d q = d := update_self ..
  refine .noted noted fun _ => .ite (fun big => absurd big (by rw [count]; omega)) fun _ => ?_
  rw [busy]
  refine .ite (fun outside => nomatch outside) fun _ => .seq (modifyLog_lone.strengthen fun _ same => same ▸ lone)
    <| .bind (bufcacheRead_lone terms low free room) fun lbuf =>
    .seq (memmove_lone (.head _) (.tail _ held)) <|
    .seq (bufcacheWrite_lone terms [b] _ (.head _) (fun _ member _ => member) ?_) <|
    .seq (releaseLast_lone terms free ?_) <| .seq modifyLog_lone <|
    (setDirty_lone [] M held grows member ?_).weaken fun _ t lone' => ?_
  · intro b' ne
    simp [ne]
  · intro b' member
    exact ⟨q, List.mem_singleton.mp member ▸ held⟩
  · intro b' ne
    simp [ne]
  · rw [copied] at lone'
    exact lone'

theorem logWrite_sees (terms : Terms watch E p) (held : (b, q) ∈ H) (inside : a.trans = true ∨ E outsideTrans)
    (noted : watch (.logWrite q) = true → E (.notes (.logWrite q)))
    (room : H.length + a.logged.length < nbuf ∨ E noBuffers)
    (fits : a.logged.length < logsize ∧ (a.logged.length : Int) < a.size.toInt - 1 ∨ ∀ size n, E (tooBig size n)) :
    (logWrite b).Acts watch E p (Edited p H a b q d) fun _ => Sees p H (a.write q d) := by
  rintro s ⟨homes, c, r, lone, is⟩
  obtain ⟨start, size, busy, -⟩ := is.log
  by_cases big : (logsize : Int) ≤ a.logged.length ∨ a.size.toInt - 1 ≤ a.logged.length
  · have log := lone.state_log
    refine Code.Does.read (P := fun t => t = s) (fun t same => ?_) s rfl
    subst same
    rw [(lone.held b q held).2]
    refine .noted noted fun _ => .ite (fun _ => .stop fun _ _ => ?_) fun small => absurd big ?_
    · exact fits.resolve_left (by omega) _ _
    · rw [log, size, is.header.1] at small
      exact small
  by_cases trans : a.trans = true
  case neg =>
    refine Code.Does.read (P := fun t => t = s) (fun t same => ?_) s rfl
    subst same
    rw [(lone.held b q held).2]
    refine .noted noted fun _ => .ite (fun large => absurd large ?_) fun _ => .ite (fun _ => .stop fun _ _ => ?_)
      fun begun => absurd begun ?_
    · rw [lone.state_log, size, is.header.1]
      exact big
    · exact inside.resolve_left trans
    · rw [lone.state_log, busy]
      exact fun begun => begun (Bool.not_eq_true _ ▸ trans)
  have area := is.area
  have length : a.size.toInt = a.size.toNat := BitVec.toInt_eq_toNat_of_lt (by omega)
  have index : a.logged.idxOf q ≤ a.logged.length := List.idxOf_le_length
  have low : a.logged.idxOf q + 1 < a.size.toNat := by omega
  have written := logWrite_lone (c := c) (M := (a.write q d).logged) (d := d) terms held (busy.trans trans) noted room
    (is.logSlot_eq q) is.header.1 (by rw [size]; omega)
  rw [start] at written
  refine (written ?_ ?_ ?_ ?_ s lone).mono (fun _ t lone' => ?_) fun _ ended => ended
  · rw [show a.start + BitVec.ofNat 32 (a.logged.idxOf q) + 1 = a.slot (a.logged.idxOf q) from rfl,
      View.toNat_slot area low]
    omega
  · exact fun b' member => View.slot_not_home area low (homes _ member)
  · exact fun q' member => View.mem_write.mpr (.inr member)
  · exact View.mem_write.mpr (.inl rfl)
  · exact ⟨homes, _, _, lone', is.write (homes _ held) (by omega) (by omega)⟩

/-! ## Transactions -/

def Locked (l : Lock) (P : State → Prop) (s : State) : Prop := ∃ s₀, P s₀ ∧ s = s₀.setLock l true

variable {P : State → Prop} {l : Lock}

theorem acquire_does (free : ∀ s, P s → s.locks l = false) : (acquire l).Acts watch E p P fun _ => Locked l P := by
  intro s pre
  rw [acquire_eq (free s pre)]
  exact ⟨s, pre, rfl⟩

theorem release_does (free : ∀ s, P s → s.locks l = false) : (release l).Acts watch E p (Locked l P) fun _ => P := by
  refine .modify ?_
  rintro _ ⟨s, pre, rfl⟩
  rw [setLock_setLock (free s pre)]
  exact pre

theorem locked_modify {P Q : State → Prop} {f : State → State} (kept : ∀ s, P s → Q (f s))
    (other : ∀ s, f (s.setLock l true) = (f s).setLock l true) :
    (Code.modify f : KernM PUnit).Does (watched watch) E p (Locked l P) fun _ => Locked l Q := by
  refine .modify ?_
  rintro _ ⟨s, pre, rfl⟩
  exact ⟨f s, kept s pre, other s⟩

theorem locked_sleepWhile {blocked : State → Option Chan} (open' : ∀ s, P s → blocked (s.setLock l true) = none) :
    (sleepWhile l blocked).Acts watch E p (Locked l P) fun _ => Locked l P := by
  rintro _ ⟨s, pre, rfl⟩
  rw [sleepWhile_eq (open' s pre)]
  exact ⟨s, pre, rfl⟩

theorem locked_wakeup (other : l ≠ .sched) (free : ∀ s, P s → s.locks .sched = false)
    (kept : ∀ s, P s → P (s.wake chan)) :
    (threadWakeup chan).Acts watch E p (Locked l P) fun _ => Locked l P := by
  rintro _ ⟨s, pre, rfl⟩
  have sched : (s.setLock l true).locks .sched = false := by
    show update s.locks l true .sched = false
    rw [update_of_ne (Ne.symm other)]
    exact free s pre
  rw [threadWakeup_eq sched]
  exact ⟨s.wake chan, kept s pre, rfl⟩

theorem Sees.unlocked (sees : Sees p H a s) (ne : l ≠ .buf) : s.locks l = false := by
  obtain ⟨-, c, r, lone, -⟩ := sees
  exact lone.locks l ne

theorem Sees.wake (sees : Sees p H a s) : Sees p H a (s.wake chan) := by
  obtain ⟨homes, c, r, lone, is⟩ := sees
  have runs : (s.wake chan).thread p = .running := by
    show (if 1 ≤ p ∧ p < numIds ∧ s.thread p = .asleep chan then Life.running else s.thread p) = .running
    rw [lone.runs]
    split <;> rfl
  exact ⟨homes, c, r, { lone with runs := runs }, is⟩

theorem Sees.log (sees : Sees p H a s) : s.log.busy = a.trans ∧ s.log.lh.n = a.logged.length ∧
    s.log.start = a.start ∧ (a.size ≠ 0 → s.log.dev = rootdev) := by
  obtain ⟨homes, c, r, lone, is⟩ := sees
  rw [lone.state_log]
  exact ⟨is.log.2.2.1, is.header.1, is.log.1, is.log.2.2.2⟩

theorem Sees.setTrans {v : Bool} (sees : Sees p H a s) :
    Sees p H { a with trans := v } { s with log := { s.log with busy := v } } := by
  obtain ⟨homes, c, r, lone, is⟩ := sees
  refine ⟨homes, c, { r with log := { r.log with busy := v } }, { lone with rest := ?_ }, ?_⟩
  · rw [← lone.rest]
    rfl
  · exact { is with
      log := ⟨is.log.1, is.log.2.1, rfl, is.log.2.2.2⟩
      rest := by rw [is.rest] }

theorem beginTrans_sees (terms : Terms watch E p) (idle : a.trans = false) :
    beginTrans.Acts watch E p (Sees p H a) fun _ => Sees p H { a with trans := true } := by
  refine .seq (acquire_does fun s sees => sees.unlocked (by simp)) <| .seq (locked_sleepWhile ?_) <|
    .seq (locked_modify (fun s sees => sees.setTrans) fun _ => rfl) <| terms.noted rfl
      (release_does fun s sees => sees.unlocked (by simp))
  intro s sees
  have busy := sees.log.1
  rw [idle] at busy
  exact if_neg (by simp [State.setLock, busy])

/-! ## Committing -/

section Commit

variable {L : List Word} {c : Word → Block} {r : Rest}

theorem writeHead_lone (terms : Terms watch E p) (dev : r.log.dev = rootdev) (low : r.log.start.toNat < 2 ^ 28)
    (count : r.log.lh.n ≤ logsize) (room : L.length < nbuf ∨ E noBuffers) :
    writeHead.Acts watch E p (Lone p [] [] L c r) fun _ =>
      Lone p [] [] L (update c r.log.start (headBlock r.log.lh (c r.log.start))) r := by
  refine .learn (C := fun s => s.log = r.log) (fun s lone => lone.state_log) fun t log => ?_
  rw [log, dev]
  refine .bind (bufcacheRead_lone terms low (by simp) (by simpa using room)) fun b => ?_
  refine .learn (C := fun s => s.log = r.log) (fun s lone => lone.state_log) fun t log => ?_
  rw [log]
  refine .ite (fun wild => absurd wild (by omega)) fun _ => .seq (modifyData_lone (.head _)) <|
    .seq (bufcacheWrite_lone terms [] _ (.head _) (fun _ member _ => member) ?_) <|
    releaseLast_lone terms (by simp) (by simp)
  intro b' ne
  simp [ne]

theorem View.Is.setHead (is : a.Is c r) (present : a.size ≠ 0) (x : Block) : a.Is (update c r.log.start x) r := by
  rw [is.log.1]
  have positive : 0 < a.size.toNat := by
    rw [Nat.pos_iff_ne_zero]
    exact fun zero => present (BitVec.eq_of_toNat_eq zero)
  refine { is with block := ?_, slots := ?_ }
  · intro q home
    have ne : q ≠ a.start := by
      rintro rfl
      exact home.2 ⟨le_refl _, by omega⟩
    rw [update_of_ne ne]
    exact is.block q home
  · intro i lt
    have inside : i + 1 < a.size.toNat := by
      cases is.fits with
      | inl none => exact absurd lt (by simp [none])
      | inr fits => omega
    have ne : a.slot i ≠ a.start := by
      intro same
      have nats := congrArg BitVec.toNat same
      rw [View.toNat_slot is.area inside] at nats
      omega
    rw [update_of_ne ne]
    exact is.slots i lt

theorem installBlock_lone (terms : Terms watch E p) (is : a.Is c r) {tail : Nat} (lt : tail < a.logged.length)
    (room : 1 + a.logged.length < nbuf ∨ E noBuffers) :
    (installBlock tail).Acts watch E p (Lone p [] [] (a.logged.drop tail) c r) fun _ =>
      Lone p [] [] (a.logged.drop (tail + 1)) c r := by
  have fits : a.logged.length < a.size.toNat := is.fits.resolve_left fun none => by simp [none] at lt
  have inside : tail + 1 < a.size.toNat := by omega
  have area := is.area
  have low : (a.slot tail).toNat < 2 ^ 28 := by
    rw [View.toNat_slot area inside]
    omega
  have dev : r.log.dev = rootdev := is.log.2.2.2 (by rintro zero; simp [zero] at fits)
  have sector : r.log.lh.sector tail = a.logged[tail] := by
    rw [List.getElem_of_eq is.header.2.symm lt]
    simp
  have home := is.homes _ (List.getElem_mem lt)
  have apart : a.logged[tail] ≠ a.slot tail := by
    intro same
    rw [same] at home
    exact View.slot_not_home area inside home
  have same : update c a.logged[tail] (c (a.slot tail)) = c := by
    rw [is.slots tail lt, ← is.block _ home, update_eq_self]
  refine .learn (C := fun s => s.log = r.log) (fun s lone => lone.state_log) fun t log => ?_
  rw [log, dev, is.log.1, show a.start + BitVec.ofNat 32 tail + 1 = a.slot tail from rfl]
  refine .bind (bufcacheRead_lone terms low (by simp) ?_) fun lbuf => ?_
  · refine room.imp_left fun small => ?_
    rw [List.length_drop, List.length_nil]
    omega
  refine .learn (C := fun s => s.log = r.log) (fun s lone => lone.state_log) fun t log => ?_
  rw [log, dev, sector]
  refine .bind (bufcacheRead_lone terms home.1 (by simp [apart]) ?_) fun dbuf => ?_
  · refine room.imp_left fun small => ?_
    rw [List.length_drop, List.length_singleton]
    omega
  refine .seq (memmove_lone (.head _) (.tail _ (.head _))) ?_
  rw [same]
  refine .seq (bufcacheWrite_lone terms [] (a.logged.drop (tail + 1)) (.head _) ?_ ?_) ?_
  · intro q' member ne
    rw [List.drop_eq_getElem_cons lt] at member
    exact (List.mem_cons.mp member).resolve_left ne
  · intro b' ne
    simp [ne]
  refine .seq (Q := fun _ => Lone p [] [(dbuf, a.logged[tail])] (a.logged.drop (tail + 1)) c r) ?_ <|
    releaseLast_lone terms (by simp) (by simp)
  intro s lone
  have fresh := lone.fresh (by simp [apart])
  refine bufcacheRelease_lone terms (.tail _ (.head _)) (by simp) ?_ s lone
  intro k
  have ne : lbuf ≠ dbuf := fresh _ (.head _)
  constructor
  · intro member
    rw [List.mem_singleton.mp member]
    exact ⟨.head _, ne.symm⟩
  · rintro ⟨member, other⟩
    rcases List.mem_cons.mp member with head | tail'
    · exact head ▸ .head _
    · exact absurd (congrArg Prod.fst (List.mem_singleton.mp tail')) other

theorem installLoop_lone (terms : Terms watch E p) (is : a.Is c r) (room : 1 + a.logged.length < nbuf ∨ E noBuffers)
    (fuel tail : Nat) (enough : a.logged.length < fuel + tail) (bound : tail ≤ a.logged.length) :
    (installLoop fuel tail).Acts watch E p (Lone p [] [] (a.logged.drop tail) c r) fun _ =>
      Lone p [] [] [] c r := by
  induction fuel generalizing tail with
  | zero => omega
  | succ fuel ih =>
    refine .learn (C := fun s => s.log = r.log) (fun s lone => lone.state_log) fun t log => ?_
    rw [log, is.header.1]
    refine .ite (fun lt => ?_) fun done => ?_
    · have lt' : tail < a.logged.length := by omega
      exact .seq (installBlock_lone terms is lt' room) <| ih (tail + 1) (by omega) (by omega)
    · refine .pure fun s lone => ?_
      rw [List.drop_eq_nil_of_le (by omega)] at lone
      exact lone

theorem View.Is.emptied (is : a.Is c r) :
    View.Is { a with logged := [] } c { r with log := { r.log with lh := { r.log.lh with n := 0 } } } where
  area := is.area
  count := Nat.zero_le _
  fits := .inl rfl
  nodup := List.nodup_nil
  homes := by simp
  block := is.block
  slots i lt := absurd lt (by simp)
  log := is.log
  header := ⟨rfl, rfl⟩
  rest := by rw [is.rest]

theorem commitTrans_sees (terms : Terms watch E p) (room : 1 + a.logged.length < nbuf ∨ E noBuffers) :
    commitTrans.Acts watch E p (Sees p [] a) fun _ => Sees p [] { a with logged := [], trans := false } := by
  have closes : Code.Does (watched watch) E p (Sees p [] { a with logged := [] })
      (do
        acquire .log
        modifyLog fun log => { log with busy := false }
        Code.note .commitTrans
        threadWakeup .log
        release .log) fun _ => Sees p [] { a with logged := [], trans := false } :=
    .seq (acquire_does fun s sees => sees.unlocked (by simp)) <|
      .seq (locked_modify (fun s sees => sees.setTrans) fun _ => rfl) <| terms.noted rfl <|
      .seq (locked_wakeup (by simp) (fun s sees => sees.unlocked (by simp)) fun s sees => sees.wake) <|
      release_does fun s sees => sees.unlocked (by simp)
  refine .learn (C := fun s => s.log.lh.n = (a.logged.length : Int)) (fun s sees => sees.log.2.1) fun t count => ?_
  rw [count]
  refine .seq (Q := fun _ => Sees p [] { a with logged := [] }) (.ite (fun some => ?_) fun none => ?_) closes
  · rintro s ⟨homes, c, r, lone, is⟩
    have fits : a.logged.length < a.size.toNat := is.fits.resolve_left fun none => by simp [none] at some
    have present : a.size ≠ 0 := by
      rintro zero
      simp [zero] at fits
    have dev := is.log.2.2.2 present
    have area := is.area
    have count := is.count
    have low : r.log.start.toNat < 2 ^ 28 := by
      rw [is.log.1]
      omega
    have written := is.setHead present
    have head := writeHead_lone (c := c) (L := a.logged) terms dev low (by rw [is.header.1]; omega)
      (room.imp_left fun small => by omega)
    have cleared := fun c' : Word → Block => writeHead_lone (c := c') (L := [])
      (r := { r with log := { r.log with lh := { r.log.lh with n := 0 } } }) terms dev low (by simp) (.inl (by simp))
    refine Code.Does.bind head (fun _ => .seq (installLoop_lone terms (written _) room (logsize + 1) 0 (by omega)
      (Nat.zero_le _)) <| .seq modifyLog_lone <| (cleared _).weaken fun _ t lone' => ?_) s lone
    exact ⟨by simp, _, _, lone', ((written _).setHead present _).emptied⟩
  · refine .pure fun s sees => ?_
    have empty : a.logged = [] := List.length_eq_zero_iff.mp (by omega)
    have same : { a with logged := [] } = a := by rw [← empty]
    rw [same]
    exact sees

end Commit

end Certikos.FileSys
