import Certikos.Lib.Bytes
import Mathlib.Data.List.Infix
import Mathlib.Logic.Function.Basic

/-!
# The console

`kern/dev/console.c`: the ring of characters between the interrupts and `cons_getc`, and the lines that `readline`
makes of them. The two positions of the ring go round without a look at each other.
-/

namespace Certikos
open Lib Function

abbrev consoleBufferSize : Nat := 512

structure Console where
  buf : Nat → Byte
  rpos : Nat
  wpos : Nat

def Console.put (c : Console) (ch : Byte) : Console :=
  if ch = 0#8 then c
  else
    { c with
      buf := update c.buf c.wpos ch
      wpos := if c.wpos + 1 = consoleBufferSize then 0 else c.wpos + 1 }

def consIntr (c : Console) (input : List Byte) : Console := input.foldl Console.put c

def Console.take (c : Console) : Byte × Console :=
  if c.rpos ≠ c.wpos then
    (c.buf c.rpos, { c with rpos := if c.rpos + 1 = consoleBufferSize then 0 else c.rpos + 1 })
  else (0, c)

/-- `serial` and `keyboard` are what the two devices have when they are polled. -/
def consGetc (c : Console) (serial keyboard : List Byte) : Byte × Console :=
  (consIntr (consIntr c serial) keyboard).take

def Console.unread (c : Console) : List Byte :=
  (List.range ((c.wpos + consoleBufferSize - c.rpos) % consoleBufferSize)).map fun i =>
    c.buf ((c.rpos + i) % consoleBufferSize)

inductive ConsoleEvent
  | intr (input : List Byte)
  | getc (serial keyboard : List Byte)

structure ConsoleRun where
  ring : Console
  appended : List Byte
  returned : List Byte

namespace ConsoleRun

def step (r : ConsoleRun) : ConsoleEvent → ConsoleRun
  | .intr input => ⟨consIntr r.ring input, r.appended ++ input.filter fun ch => ch ≠ 0#8, r.returned⟩
  | .getc serial keyboard =>
    let got := consGetc r.ring serial keyboard
    ⟨got.2, (r.appended ++ serial.filter fun ch => ch ≠ 0#8) ++ keyboard.filter fun ch => ch ≠ 0#8,
      if got.1 = 0#8 then r.returned else r.returned ++ [got.1]⟩

def fed (r : ConsoleRun) (input : List Byte) : ConsoleRun := r.step (.intr input)

def taken (r : ConsoleRun) : ConsoleRun :=
  ⟨r.ring.take.2, r.appended, if r.ring.take.1 = 0#8 then r.returned else r.returned ++ [r.ring.take.1]⟩

def after (es : List ConsoleEvent) : ConsoleRun := es.foldl step ⟨⟨fun _ => 0, 0, 0⟩, [], []⟩

/-- The next character to be read is number `n` of those appended, or a later one in its slot. -/
structure At (r : ConsoleRun) (n : Nat) : Prop where
  le : n ≤ r.appended.length
  rpos : r.ring.rpos = n % consoleBufferSize
  wpos : r.ring.wpos = r.appended.length % consoleBufferSize
  slots : ∀ k < r.appended.length, r.appended.length ≤ k + consoleBufferSize →
    r.appended[k]? = some (r.ring.buf (k % consoleBufferSize))
  nonzero : 0#8 ∉ r.appended
  sub : List.Sublist r.returned (r.appended.take n)

variable {r : ConsoleRun} {n : Nat}

theorem At.put (here : r.At n) (ch : Byte) : (r.fed [ch]).At n := by
  by_cases zero : ch = 0#8
  · simpa [fed, step, consIntr, Console.put, zero] using here
  · obtain ⟨le, rpos, wpos, slots, nonzero, sub⟩ := here
    have size : (r.appended ++ [ch]).length = r.appended.length + 1 := List.length_append
    rw [show r.fed [ch] = ⟨{ r.ring with
        buf := update r.ring.buf r.ring.wpos ch
        wpos := if r.ring.wpos + 1 = consoleBufferSize then 0 else r.ring.wpos + 1 }, r.appended ++ [ch], r.returned⟩ by
      simp [fed, step, consIntr, Console.put, zero]]
    refine ⟨by rw [size]; omega, rpos, ?_, ?_, ?_, ?_⟩
    · simp only [size, wpos, consoleBufferSize]
      split
      · omega
      · omega
    · intro k lt recent
      simp only [size, wpos, consoleBufferSize] at lt recent slots ⊢
      by_cases last : k = r.appended.length
      · rw [last, List.getElem?_concat_length, update_self]
      · rw [List.getElem?_append_left (by omega), update_of_ne (by omega)]
        exact slots k (by omega) (by omega)
    · simp [nonzero, Ne.symm zero]
    · rwa [List.take_append_of_le_length le]

theorem At.fed (here : r.At n) (input : List Byte) : (r.fed input).At n := by
  induction input generalizing r with
  | nil => simpa [ConsoleRun.fed, step, consIntr] using here
  | cons ch input ih =>
    have both : r.fed (ch :: input) = (r.fed [ch]).fed input := by
      simp only [ConsoleRun.fed, step, consIntr, List.foldl_cons, List.foldl_nil, List.append_assoc, ← List.filter_append]
      rfl
    rw [both]
    exact ih (here.put ch)

theorem taken_empty (empty : r.ring.rpos = r.ring.wpos) : r.taken = r := by
  simp [taken, Console.take, empty]

theorem At.taken (here : r.At n) (waiting : r.ring.rpos ≠ r.ring.wpos) :
    ∃ k ch, n ≤ k ∧ (r.appended.length < n + consoleBufferSize → k = n) ∧ r.appended[k]? = some ch ∧
      r.taken.returned = r.returned ++ [ch] ∧ r.taken.At (k + 1) := by
  obtain ⟨le, rpos, wpos, slots, nonzero, sub⟩ := here
  have lt : n < r.appended.length := by
    refine Nat.lt_of_le_of_ne le ?_
    rintro rfl
    exact waiting (rpos.trans wpos.symm)
  obtain ⟨k, before, below, recent, slot⟩ : ∃ k, n ≤ k ∧ k < r.appended.length ∧
      r.appended.length ≤ k + consoleBufferSize ∧ k % consoleBufferSize = n % consoleBufferSize := by
    refine ⟨r.appended.length - 1 - (r.appended.length - 1 - n) % consoleBufferSize, ?_⟩
    simp only [consoleBufferSize]
    omega
  have read := slots k below recent
  rw [slot, ← rpos] at read
  have text : r.ring.buf r.ring.rpos ≠ 0#8 := by
    intro zero
    exact nonzero (zero ▸ List.mem_of_getElem? read)
  have returned : r.taken.returned = r.returned ++ [r.ring.buf r.ring.rpos] := by
    simp [ConsoleRun.taken, Console.take, waiting, text]
  have ring : r.taken.ring =
      { r.ring with rpos := if r.ring.rpos + 1 = consoleBufferSize then 0 else r.ring.rpos + 1 } := by
    simp [ConsoleRun.taken, Console.take, waiting]
  refine ⟨k, _, before, ?_, read, returned, below, ?_, ?_, ?_, nonzero, ?_⟩
  · intro short
    simp only [consoleBufferSize] at *
    omega
  · simp only [ring, rpos, consoleBufferSize] at slot ⊢
    split
    · omega
    · omega
  · rw [ring]
    exact wpos
  · rw [ring]
    exact slots
  · rw [returned]
    show List.Sublist _ (r.appended.take (k + 1))
    rw [List.take_add_one, read]
    have earlier : List.Sublist (r.appended.take n) (r.appended.take k) := List.take_sublist_take_left before
    exact (sub.trans earlier).append (.refl _)

structure Kept (r : ConsoleRun) : Prop where
  here : r.At r.returned.length
  kept : r.returned = r.appended.take r.returned.length

theorem Kept.fed (kept : r.Kept) (input : List Byte) : (r.fed input).Kept := by
  refine ⟨kept.here.fed input, ?_⟩
  show r.returned = (r.appended ++ _).take r.returned.length
  rw [List.take_append_of_le_length kept.here.le]
  exact kept.kept

theorem Kept.taken (kept : r.Kept) (few : r.taken.appended.length < r.taken.returned.length + consoleBufferSize) :
    r.taken.Kept := by
  by_cases empty : r.ring.rpos = r.ring.wpos
  · rwa [taken_empty empty]
  · obtain ⟨k, ch, -, first, read, returned, after⟩ := kept.here.taken empty
    have size : r.taken.returned.length = r.returned.length + 1 := by simp [returned]
    have same : k = r.returned.length := by
      refine first ?_
      have rpos := kept.here.rpos
      have wpos := kept.here.wpos
      have total : r.taken.appended.length = r.appended.length := rfl
      simp only [consoleBufferSize] at *
      omega
    subst same
    refine ⟨size ▸ after, ?_⟩
    rw [size, returned]
    show _ = r.appended.take _
    rw [List.take_add_one, read, ← kept.kept]
    rfl

theorem Kept.unread (kept : r.Kept) (few : r.appended.length < r.returned.length + consoleBufferSize) :
    r.returned ++ r.ring.unread = r.appended := by
  obtain ⟨⟨le, rpos, wpos, slots, -, -⟩, same⟩ := kept
  have rest : r.ring.unread = r.appended.drop r.returned.length := by
    apply List.ext_getElem?
    intro i
    have count : (r.ring.wpos + consoleBufferSize - r.ring.rpos) % consoleBufferSize =
        r.appended.length - r.returned.length := by
      simp only [consoleBufferSize] at *
      omega
    rw [Console.unread, count, List.getElem?_map, List.getElem?_drop]
    by_cases lt : i < r.appended.length - r.returned.length
    · rw [List.getElem?_range lt, slots _ (by omega) (by omega), rpos, Option.map_some, Nat.mod_add_mod]
    · rw [List.getElem?_eq_none (by simpa using lt), List.getElem?_eq_none (by omega)]
      rfl
  rw [rest]
  exact (congrArg (· ++ _) same).trans (List.take_append_drop ..)

theorem at_start : (after []).At 0 := ⟨le_rfl, rfl, rfl, by simp [after], by simp [after], .slnil⟩

theorem At.step (here : r.At n) (e : ConsoleEvent) : ∃ m, (r.step e).At m := by
  cases e with
  | intr input => exact ⟨n, here.fed input⟩
  | getc serial keyboard =>
    have polled := (here.fed serial).fed keyboard
    by_cases empty : ((r.fed serial).fed keyboard).ring.rpos = ((r.fed serial).fed keyboard).ring.wpos
    · refine ⟨n, ?_⟩
      show ((r.fed serial).fed keyboard).taken.At n
      rwa [taken_empty empty]
    · obtain ⟨k, ch, -, -, -, -, after⟩ := polled.taken empty
      exact ⟨k + 1, after⟩

theorem exists_at (es : List ConsoleEvent) : ∃ n, (after es).At n := by
  induction es using List.reverseRecOn with
  | nil => exact ⟨0, at_start⟩
  | append_singleton es e ih =>
    obtain ⟨n, here⟩ := ih
    rw [after, List.foldl_append]
    exact here.step e

def Few (es : List ConsoleEvent) : Prop :=
  ∀ before, before <+: es → (after before).appended.length < (after before).returned.length + consoleBufferSize

theorem Few.kept {es : List ConsoleEvent} (few : Few es) : (after es).Kept := by
  induction es using List.reverseRecOn with
  | nil => exact ⟨at_start, rfl⟩
  | append_singleton es e ih =>
    have kept := ih fun before early => few before (early.trans (List.prefix_append es [e]))
    have last := few _ List.prefix_rfl
    rw [after, List.foldl_append] at last ⊢
    cases e with
    | intr input => exact kept.fed input
    | getc serial keyboard => exact ((kept.fed serial).fed keyboard).taken last

theorem consoleRun_inOrder (es : List ConsoleEvent) :
    ((after es).ring.rpos < consoleBufferSize ∧ (after es).ring.wpos < consoleBufferSize) ∧
      List.Sublist (after es).returned (after es).appended ∧
      (Few es → (after es).returned ++ (after es).ring.unread = (after es).appended) := by
  obtain ⟨n, here⟩ := exists_at es
  refine ⟨⟨?_, ?_⟩, here.sub.trans (List.take_sublist n _), ?_⟩
  · rw [here.rpos]
    exact Nat.mod_lt _ (by decide)
  · rw [here.wpos]
    exact Nat.mod_lt _ (by decide)
  · intro few
    exact few.kept.unread (few es List.prefix_rfl)

end ConsoleRun

/-! ## Lines -/

abbrev buflen : Nat := 1024

inductive ReadlineResult
  | waiting
  | null
  | overrun
  | line (linebuf : List Byte)

/-- The loop of `readline`, over what `cons_getc` returns call after call: when that is 0, `getchar` calls again. -/
def readline (linebuf : List Byte) (i : Nat) : List Byte → ReadlineResult
  | [] => .waiting
  | c :: polls =>
    if c = 0#8 then readline linebuf i polls
    else if c.toInt < 0 then .null
    else if c = 3#8 then .null
    else if (c = 8#8 ∨ c = 127#8) ∧ 0 < i then readline linebuf (i - 1) polls
    else if 32 ≤ c.toInt ∧ i < buflen - 1 then
      if i < linebuf.length then readline (linebuf.set i c) (i + 1) polls else .overrun
    else if c = 10#8 ∨ c = 13#8 then
      if i < linebuf.length then .line (linebuf.set i 0#8) else .overrun
    else readline linebuf i polls

def edit (line : List Byte) (c : Byte) : List Byte :=
  if c = 8#8 ∨ c = 127#8 then line.dropLast
  else if (32#8 ≤ c ∧ c ≤ 126#8) ∧ line.length < buflen - 1 then line ++ [c]
  else line

def typed (line : List Byte) (c : Byte) : List Byte :=
  if (c = 8#8 ∨ c = 127#8) ∧ 0 < line.length then line.dropLast
  else if 32#8 ≤ c ∧ line.length < buflen - 1 then line ++ [c]
  else line

def count (n : Nat) (c : Byte) : Nat :=
  if (c = 8#8 ∨ c = 127#8) ∧ 0 < n then n - 1
  else if 32#8 ≤ c ∧ n < buflen - 1 then n + 1
  else n

/-- How many characters are held, and whether the first is a DEL, which came when none was. -/
def track (t : Nat × Bool) (c : Byte) : Nat × Bool :=
  (count t.1 c, if t.1 = 0 then c = 127#8 else t.2 && count t.1 c ≠ 0)

abbrev Plain (c : Byte) : Prop := c ≠ 3#8 ∧ c < 128#8 ∧ c ≠ 10#8 ∧ c ≠ 13#8

theorem length_typed (line : List Byte) (c : Byte) : (typed line c).length = count line.length c := by
  simp only [typed, apply_ite List.length, List.length_dropLast, List.length_append]
  rfl

theorem length_edit (line : List Byte) (c : Byte) : (edit line c).length = if c = 8#8 ∨ c = 127#8 then line.length - 1
      else if (32#8 ≤ c ∧ c ≤ 126#8) ∧ line.length < buflen - 1 then line.length + 1 else line.length := by
  simp only [edit, apply_ite List.length, List.length_dropLast, List.length_append]
  rfl

variable {line held linebuf : List Byte} {c : Byte} {t : Nat × Bool}

theorem typed_eq (plain : Plain c) (held : line ≠ [] ∨ c ≠ 127#8) :
    typed line c = edit line c := by
  unfold typed edit
  cases line with
  | nil => grind
  | cons d line => grind

theorem head_edit (before : line ≠ []) (after : edit line c ≠ []) :
    (edit line c).head? = line.head? := by
  obtain ⟨d, line, rfl⟩ := List.exists_cons_of_ne_nil before
  unfold edit at after ⊢
  split
  · cases line with
    | nil => simp_all
    | cons d' line => rfl
  · split
    · rfl
    · rfl

theorem not_mem_edit (free : 127#8 ∉ line) : 127#8 ∉ edit line c := by
  unfold edit
  split
  · exact fun member => free (List.mem_of_mem_dropLast member)
  · rename_i keeps
    split
    · simp [free, Ne.symm (not_or.mp keeps).2]
    · exact free

structure Follows (held line : List Byte) (t : Nat × Bool) : Prop where
  count : held.length = t.1
  same : t.2 = false → held = line
  stray : t.2 = true → held.head? = some 127#8 ∧ line.length ≤ held.length ∧ held.length ≤ line.length + 1
  plain : 127#8 ∉ line

theorem Follows.step (follows : Follows held line t) (plain : Plain c) :
    Follows (typed held c) (edit line c) (track t c) := by
  obtain ⟨n, stray⟩ := t
  obtain ⟨rfl, same, strays, free⟩ := follows
  have size := length_typed held c
  cases held with
  | nil =>
    cases stray with
    | true => cases (strays rfl).1
    | false =>
      obtain rfl := same rfl
      by_cases del : c = 127#8
      · subst del
        exact ⟨by decide, by decide, by decide, by decide⟩
      · refine ⟨size, fun _ => typed_eq plain (.inr del), fun marked => ?_, not_mem_edit free⟩
        simp [track, del] at marked
  | cons d held =>
    have edited := typed_eq plain (.inl (List.cons_ne_nil d held))
    rw [edited] at size ⊢
    have flag : (track ((d :: held).length, stray) c).2 = (stray && (edit (d :: held) c).length ≠ 0) := by
      simp [track, size]
    have before := length_edit (d :: held) c
    have after := length_edit line c
    refine ⟨size, ?_, ?_, not_mem_edit free⟩
    · intro clean
      cases stray with
      | false => rw [same rfl]
      | true =>
        obtain ⟨-, le, ge⟩ := strays rfl
        rw [flag] at clean
        have none : (edit (d :: held) c).length = 0 := by simpa using clean
        rw [List.eq_nil_of_length_eq_zero none]
        refine (List.eq_nil_of_length_eq_zero ?_).symm
        grind
    · intro marked
      rw [flag] at marked
      cases stray with
      | false => cases marked
      | true =>
        obtain ⟨first, le, ge⟩ := strays rfl
        have some : edit (d :: held) c ≠ [] := by simpa using marked
        refine ⟨(head_edit (List.cons_ne_nil d held) some).trans first, ?_⟩
        grind

theorem readline_step {polls : List Byte} (plain : Plain c) (size : linebuf.length = buflen)
    (held : linebuf.take line.length = line) (short : line.length < buflen) :
    ∃ linebuf', readline linebuf line.length (c :: polls) = readline linebuf' (typed line c).length polls ∧
      linebuf'.length = buflen ∧ linebuf'.take (typed line c).length = typed line c ∧ (typed line c).length < buflen := by
  obtain ⟨other, low, feed, turn⟩ := plain
  have signed : c.toInt = c.toNat := BitVec.toInt_eq_toNat_of_lt (by bv_omega)
  have printable : 32 ≤ c.toInt ↔ 32#8 ≤ c := by
    rw [signed, BitVec.le_def]
    simp
  rw [readline, if_neg (show ¬c.toInt < 0 by omega), if_neg other]
  simp only [printable]
  by_cases zero : c = 0#8
  · have same : typed line c = line := by simp [typed, zero]
    rw [if_pos zero, same]
    exact ⟨linebuf, rfl, size, held, short⟩
  · rw [if_neg zero]
    by_cases deletes : (c = 8#8 ∨ c = 127#8) ∧ 0 < line.length
    · have same : typed line c = line.dropLast := if_pos deletes
      rw [if_pos deletes, same, List.length_dropLast]
      refine ⟨linebuf, rfl, size, ?_, by omega⟩
      conv_rhs => rw [← held]
      rw [List.dropLast_eq_take, List.take_take, List.length_take]
      congr 1
      omega
    · rw [if_neg deletes]
      by_cases fits : 32#8 ≤ c ∧ line.length < buflen - 1
      · have same : typed line c = line ++ [c] := (if_neg deletes).trans (if_pos fits)
        have room : line.length < linebuf.length := by omega
        rw [if_pos fits, if_pos room, same, List.length_append]
        refine ⟨linebuf.set line.length c, rfl, by simpa using size, ?_, by simp; omega⟩
        rw [List.set_eq_take_append_cons_drop, if_pos room, held]
        simp [List.take_append]
      · have same : typed line c = line := (if_neg deletes).trans (if_neg fits)
        rw [if_neg fits, if_neg (by tauto), same]
        exact ⟨linebuf, rfl, size, held, short⟩

theorem readline_typed (line body rest : List Byte) {e : Byte} (ends : e = 10#8 ∨ e = 13#8)
    (plain : ∀ c ∈ body, Plain c) (size : linebuf.length = buflen) (held : linebuf.take line.length = line)
    (short : line.length < buflen) :
    ∃ tail, readline linebuf line.length (body ++ e :: rest) = .line (body.foldl typed line ++ 0#8 :: tail) := by
  induction body generalizing linebuf line with
  | nil =>
    have room : line.length < linebuf.length := by omega
    have set : linebuf.set line.length 0#8 = line ++ 0#8 :: linebuf.drop (line.length + 1) := by
      rw [List.set_eq_take_append_cons_drop, if_pos room, held]
    refine ⟨linebuf.drop (line.length + 1), ?_⟩
    cases ends with
    | inl same => simp [readline, same, room, set]
    | inr same => simp [readline, same, room, set]
  | cons c body ih =>
    obtain ⟨linebuf', step, size', held', short'⟩ := readline_step (plain c (.head _)) size held short
    obtain ⟨tail, run⟩ := ih _ (fun c member => plain c (.tail _ member)) size' held' short'
    exact ⟨tail, step.trans run⟩

theorem follows_foldl {body : List Byte} (plain : ∀ c ∈ body, Plain c) (follows : Follows held line t) :
    Follows (body.foldl typed held) (body.foldl edit line) (body.foldl track t) := by
  induction body generalizing held line t with
  | nil => exact follows
  | cons c body ih =>
    exact ih (fun c member => plain c (.tail _ member)) (follows.step (plain c (.head _)))

theorem readline_edits_iff (linebuf body rest : List Byte) (e : Byte) (ends : e = 10#8 ∨ e = 13#8)
    (plain : ∀ c ∈ body, Plain c) (size : linebuf.length = buflen) :
    (∃ tail, readline linebuf 0 (body ++ e :: rest) = .line (body.foldl edit [] ++ 0#8 :: tail)) ↔
      (body.foldl track (0, false)).2 = false := by
  have start : Follows [] [] (0, false) := ⟨rfl, fun _ => rfl, nofun, nofun⟩
  obtain ⟨-, same, stray, free⟩ := follows_foldl plain start
  obtain ⟨tail, run⟩ := readline_typed [] body rest ends plain size rfl (by decide)
  rw [show readline linebuf 0 (body ++ e :: rest) = _ from run]
  constructor
  · rintro ⟨tail', lines⟩
    by_contra marked
    have first := (stray (by simpa using marked)).1
    simp only [ReadlineResult.line.injEq] at lines
    have heads := congrArg List.head? lines
    rw [List.head?_append, List.head?_append, first] at heads
    cases text : body.foldl edit [] with
    | nil => simp [text] at heads
    | cons c line =>
      rw [text] at heads free
      cases heads
      exact free (.head _)
  · intro clean
    exact ⟨tail, by rw [same clean]⟩

theorem readline_edits_iff_back :
    ∃ tail, readline (List.replicate buflen 0#8) 0 [65#8, 66#8, 127#8, 13#8] = .line ([65#8] ++ 0#8 :: tail) :=
  (readline_edits_iff (List.replicate buflen 0#8) [65#8, 66#8, 127#8] [] 13#8 (.inr rfl) (by decide)
    List.length_replicate).mpr (by decide)

/-- DEL on an empty line is taken into it. -/
theorem readline_keepsDel :
    ∃ tail, readline (List.replicate buflen 0#8) 0 [127#8, 65#8, 10#8] = .line ([127#8, 65#8] ++ 0#8 :: tail) :=
  readline_typed [] [127#8, 65#8] [] (.inl rfl) (by decide) List.length_replicate rfl (by decide)

end Certikos
