import Certikos.Shell.Arguments

/-!
# Decimal numbers printed and read back

`vprintfmt` writes the argument of `%d` as its decimal numeral, and `atoi` reads that numeral to its end.
-/

namespace Certikos.Shell
open Lib

/-- The words on the stack from the next argument on. -/
abbrev VaList := Nat → Word

def VaList.skip (ap : VaList) (n : Nat) : VaList := fun i => ap (i + n)

def copies (n : Word) (c : Byte) : CString := List.replicate n.toInt.toNat c

def printnum (base : Nat) [base.AtLeastTwo] (num : Nat) (width : Word) (padc : Byte) : CString :=
  (if base ≤ num then printnum base (num / base) (width - 1) padc else copies (width - 1) padc) ++
    [(ascii "0123456789abcdef").getD (num % base) 0]
termination_by num
decreasing_by
  have two := Nat.AtLeastTwo.prop (n := base)
  exact Nat.div_lt_self (by omega) two

def vaArg (extend : Word → BitVec 64) (ap : VaList) (lflag : Nat) : BitVec 64 × VaList :=
  if 2 ≤ lflag then (ap 1 ++ ap 0, ap.skip 2) else (extend (ap 0), ap.skip 1)

def getuint : VaList → Nat → BitVec 64 × VaList := vaArg (·.setWidth 64)

def getint : VaList → Nat → BitVec 64 × VaList := vaArg (·.signExtend 64)

/-- What an escape sequence has set so far, the field width it is in the middle of, and the characters read. -/
structure Flags where
  padc : Byte
  width : Word
  precision : Word
  lflag : Nat
  altflag : Bool
  number : Option Word
  seen : CString

def Flags.start : Flags := ⟨32#8, -1, -1, 0, false, none, []⟩

def Flags.processPrecision (f : Flags) (precision : Word) : Flags :=
  if f.width.slt 0 then { f with width := precision, precision := -1 } else { f with precision := precision }

def Flags.string (f : Flags) (p : CString) : CString :=
  let padded := (0#32).slt f.width && f.padc ≠ 45#8
  let left := if padded then f.width - BitVec.ofNat 32 (min p.length f.precision.toNat) else f.width
  let shown := if f.precision.slt 0 then p else p.take f.precision.toNat
  (if padded then copies left f.padc else []) ++
    shown.map (fun ch => if f.altflag ∧ (ch.slt 32#8 ∨ (126#8).slt ch) then 63#8 else ch) ++
    copies ((if padded && (0#32).slt left then 0 else left) - BitVec.ofNat 32 shown.length) 32#8

/-- One turn of the switch: it goes on with the escape sequence, or ends it with the characters put. -/
def Flags.switch (f : Flags) (strings : Word → CString) (ap : VaList) (ch : Byte) :
    (Flags × VaList) ⊕ (CString × VaList) :=
  match Char.ofNat ch.toNat with
  | '-' => .inl ({ f with padc := ch }, ap)
  | '0' => .inl ({ f with padc := ch }, ap)
  | '*' => .inl (f.processPrecision (ap 0), ap.skip 1)
  | '.' => .inl (if f.width.slt 0 then { f with width := 0 } else f, ap)
  | '#' => .inl ({ f with altflag := true }, ap)
  | 'l' => .inl ({ f with lflag := f.lflag + 1 }, ap)
  | 'c' => .inr ([(ap 0).setWidth 8], ap.skip 1)
  | 's' => .inr (f.string (if ap 0 = 0 then ascii "(null)" else strings (ap 0)), ap.skip 1)
  | 'd' =>
    let (num, ap) := getint ap f.lflag
    .inr (if num.slt 0 then 45#8 :: printnum 10 (-num).toNat f.width f.padc
      else printnum 10 num.toNat f.width f.padc, ap)
  | 'u' =>
    let (num, ap) := getuint ap f.lflag
    .inr (printnum 10 num.toNat f.width f.padc, ap)
  | 'o' => .inr (ascii "XXX", ap)
  | 'p' => .inr (ascii "0x" ++ printnum 16 (ap 0).toNat f.width f.padc, ap.skip 1)
  | 'x' =>
    let (num, ap) := getuint ap f.lflag
    .inr (printnum 16 num.toNat f.width f.padc, ap)
  | '%' => .inr ([ch], ap)
  | c =>
    if '1' ≤ c ∧ c ≤ '9' then .inl ({ f with number := some (ch.setWidth 32 - 48#32) }, ap)
    else .inr (37#8 :: f.seen ++ [ch], ap)

/-- The digits of a field width are read up to the first other character, which the switch then sees. -/
def Flags.read (f : Flags) (strings : Word → CString) (ap : VaList) (ch : Byte) :
    (Flags × VaList) ⊕ (CString × VaList) :=
  match f.number with
  | none => f.switch strings ap ch
  | some precision =>
    if 48#8 ≤ ch ∧ ch ≤ 57#8 then
      .inl ({ f with number := some (precision * 10 + ch.setWidth 32 - 48#32) }, ap)
    else { f.processPrecision precision with number := none }.switch strings ap ch

def formatFrom (strings : Word → CString) : Option Flags → CString → VaList → CString
  | none, [], _ => []
  | none, ch :: fmt, ap =>
    if ch = 37#8 then formatFrom strings (some .start) fmt ap else ch :: formatFrom strings none fmt ap
  | some f, [], _ => 37#8 :: f.seen
  | some f, ch :: fmt, ap =>
    match f.read strings ap ch with
    | .inl (f, ap) => formatFrom strings (some { f with seen := f.seen ++ [ch] }) fmt ap
    | .inr (put, ap) => put ++ formatFrom strings none fmt ap

def vprintfmt (strings : Word → CString) : CString → VaList → CString := formatFrom strings none

def atoiLoop (loc : Nat) (acc : Word) : List Byte → Nat × Word
  | [] => (loc, acc)
  | c :: buf =>
    if 48#8 ≤ c ∧ c ≤ 57#8 then atoiLoop (loc + 1) (acc * 10#32 + (c.setWidth 32 - 48#32)) buf else (loc, acc)

/-- The location `atoi` returns and the number it stores. -/
def atoiBuf (buf : List Byte) : Nat × Option Word :=
  let negative := buf.head? = some 45#8
  let numstart := if negative ∨ buf.head? = some 43#8 then 1 else 0
  let (loc, acc) := atoiLoop numstart 0 (buf.drop numstart)
  if numstart = loc then (0, none) else (loc, some (if negative then -acc else acc))

def Canonical (s : CString) : Prop :=
  (numeral (afterDash s)).isSome ∧ ((afterDash s).head? = some 48#8 → s = [48#8])

/-! ## The numeral of a natural number -/

theorem toInt_sub_one {width : Word} (low : -2 ^ 31 < width.toInt) : (width - 1).toInt = width.toInt - 1 := by
  have high := width.toInt_lt
  rw [BitVec.toInt_sub, show (1 : Word).toInt = 1 from rfl]
  exact Int.bmod_eq_of_le (by omega) (by omega)

theorem hexDigit {d : Nat} (small : d < 16) :
    (ascii "0123456789abcdef").getD d 0 = BitVec.ofNat 8 d.digitChar.toNat := by
  revert d
  decide

section Printnum

variable {base : Nat} [base.AtLeastTwo] (table : base ≤ 16) {num : Nat} {width : Word} {padc : Byte}
include table

theorem printnum_digit (single : num < base) (low : -2 ^ 31 < width.toInt) (narrow : width.toInt ≤ 1) :
    printnum base num width padc = ascii (String.ofList (Nat.toDigits base num)) := by
  have none : copies (width - 1) padc = [] := by
    rw [copies, toInt_sub_one low, Int.toNat_of_nonpos (by omega), List.replicate_zero]
  rw [printnum, if_neg (by omega), none, Nat.toDigits_of_lt_base single, Nat.mod_eq_of_lt single,
    hexDigit (by omega)]
  simp [ascii]

/-- A width that is not positive pads nothing, and wraps around after more digits than a number has. -/
theorem printnum_eq (k : Nat) (small : num < base ^ (k + 1)) (low : -2 ^ 31 + k < width.toInt)
    (narrow : width.toInt ≤ 1) : printnum base num width padc = ascii (String.ofList (Nat.toDigits base num)) := by
  have two := Nat.AtLeastTwo.prop (n := base)
  induction k generalizing num width with
  | zero => exact printnum_digit table (by simpa using small) (by omega) narrow
  | succ k ih =>
    have shift : (width - 1).toInt = width.toInt - 1 := toInt_sub_one (by omega)
    by_cases more : base ≤ num
    · have shorter : num / base < base ^ (k + 1) := Nat.div_lt_of_lt_mul (by rwa [pow_succ'] at small)
      have digit := Nat.mod_lt num (show 0 < base by omega)
      rw [printnum, if_pos more, ih shorter (by omega) (by omega), Nat.toDigits_of_base_le two more,
        hexDigit (by omega)]
      simp [ascii]
    · exact printnum_digit table (by omega) (by omega) narrow

end Printnum

theorem printnum_ten {n : Nat} (small : n < 2 ^ 32) : printnum 10 n (-1) 32#8 = ascii (toString n) := by
  rw [printnum_eq (by decide) 9 (lt_trans small (by decide)) (by decide) (by decide), Nat.toString_eq_ofList_toDigits]

theorem ascii_negSucc (m : Nat) : ascii (toString (Int.negSucc m)) = 45#8 :: ascii (toString (m + 1)) := by
  have text : toString (Int.negSucc m) = "-" ++ toString (m + 1) := rfl
  rw [text, ascii, String.toList_append, List.map_append]
  rfl

theorem vprintfmt_eq (strings : Word → CString) (ap : VaList) :
    vprintfmt strings (ascii "%d") ap = ascii (toString (ap 0).toInt) := by
  have run : vprintfmt strings (ascii "%d") ap =
      if ((ap 0).signExtend 64).slt 0 then 45#8 :: printnum 10 (-(ap 0).signExtend 64).toNat (-1) 32#8
      else printnum 10 ((ap 0).signExtend 64).toNat (-1) 32#8 := List.append_nil _
  have whole : ((ap 0).signExtend 64).toInt = (ap 0).toInt := BitVec.toInt_signExtend_of_le (by decide)
  have low := (ap 0).le_toInt
  have high := (ap 0).toInt_lt
  rw [run, BitVec.slt_eq_decide, whole]
  generalize (ap 0).signExtend 64 = num at *
  generalize (ap 0).toInt = v at *
  have wrapped := num.toInt_eq_toNat_cond
  cases v with
  | ofNat m =>
    rw [Int.ofNat_eq_natCast] at *
    have same : num.toNat = m := by omega
    rw [if_neg (by simp), same, printnum_ten (by omega)]
    rfl
  | negSucc m =>
    have same : (-num).toNat = m + 1 := by
      rw [BitVec.toNat_neg]
      omega
    rw [if_pos (by simp), same, printnum_ten (by omega), ascii_negSucc]

/-! ## Reading it back -/

theorem atoiLoop_eq (loc : Nat) (acc : Word) (buf : List Byte) : atoiLoop loc acc buf =
    (loc + (digits buf).length, (digits buf).foldl (fun acc c => acc * 10#32 + (c.setWidth 32 - 48#32)) acc) := by
  induction buf generalizing loc acc with
  | nil => rfl
  | cons c buf ih =>
    by_cases digit : 48#8 ≤ c ∧ c ≤ 57#8
    · have first : digits (c :: buf) = c :: digits buf := List.takeWhile_cons_of_pos (by simpa using digit)
      rw [atoiLoop, if_pos digit, ih, first, List.length_cons, List.foldl_cons, Nat.add_assoc, Nat.add_comm 1]
    · have none : digits (c :: buf) = [] := List.takeWhile_cons_of_neg (by simpa using digit)
      rw [atoiLoop, if_neg digit, none]
      rfl

theorem toDigits_toNat {n : Nat} {c : Char} (member : c ∈ Nat.toDigits 10 n) : 48 ≤ c.toNat ∧ c.toNat ≤ 57 := by
  have digit := Nat.isDigit_of_mem_toDigits (by decide) (by decide) member
  simpa [Char.isDigit, UInt32.le_iff_toNat_le] using digit

theorem ascii_toString (n : Nat) :
    ascii (toString n) = (Nat.toDigits 10 n).map fun c => BitVec.ofNat 8 c.toNat := by
  rw [ascii, Nat.toString_eq_ofList_toDigits, String.toList_ofList]

theorem digits_toString (n : Nat) (rest : CString) (stop : digits rest = []) :
    digits (ascii (toString n) ++ rest) = ascii (toString n) := by
  have all : ∀ c ∈ ascii (toString n), (48#8 ≤ c && c ≤ 57#8) = true := by
    intro c member
    rw [ascii_toString, List.mem_map] at member
    obtain ⟨d, member, rfl⟩ := member
    have range := toDigits_toNat member
    simp only [Bool.and_eq_true, decide_eq_true_eq, BitVec.le_def, BitVec.toNat_ofNat]
    omega
  rw [digits, List.takeWhile_append_of_pos all, ← digits, stop, List.append_nil]

theorem value_toString (n : Nat) : value (ascii (toString n)) = n := by
  have same : value (ascii (toString n)) =
      (Nat.toDigits 10 n).foldl (fun acc c => 10 * acc + (c.toNat - '0'.toNat)) 0 := by
    rw [value, ascii_toString, List.foldl_map]
    apply List.foldl_ext
    intro acc c member
    have range := toDigits_toNat member
    rw [BitVec.toNat_ofNat, show '0'.toNat = 48 from rfl]
    omega
  rw [same, ← Nat.ofDigitChars_eq_foldl, Nat.ofDigitChars_ten_toDigits]

theorem toDigits_zero_first {n : Nat} (zero : (Nat.toDigits 10 n).head? = some '0') : n = 0 := by
  induction n using Nat.strong_induction_on with
  | _ n ih =>
    by_cases single : n < 10
    · rw [Nat.toDigits_of_lt_base single] at zero
      simpa using zero
    · rw [Nat.toDigits_of_base_le (by decide) (by omega), List.head?_append_of_ne_nil _ Nat.toDigits_ne_nil] at zero
      have := ih (n / 10) (by omega) zero
      omega

theorem toString_first (n : Nat) :
    ∃ c body, ascii (toString n) = c :: body ∧ (c ≠ 45#8 ∧ c ≠ 43#8) ∧ (c = 48#8 → n = 0) := by
  cases text : Nat.toDigits 10 n with
  | nil => exact absurd text Nat.toDigits_ne_nil
  | cons d rest =>
    have range := toDigits_toNat (n := n) (c := d) (by simp [text])
    have byte : (BitVec.ofNat 8 d.toNat).toNat = d.toNat := by
      rw [BitVec.toNat_ofNat]
      omega
    refine ⟨BitVec.ofNat 8 d.toNat, _, by rw [ascii_toString, text, List.map_cons], ⟨?_, ?_⟩, ?_⟩
    · bv_omega
    · bv_omega
    · intro zero
      rw [zero] at byte
      have code : d = '0' := Char.toNat_inj.mp byte.symm
      apply toDigits_zero_first
      rw [text, List.head?_cons, code]

theorem numeral_toString (n : Nat) : numeral (ascii (toString n)) = some n := by
  obtain ⟨c, body, text, -⟩ := toString_first n
  have all := digits_toString n [] rfl
  rw [List.append_nil] at all
  rw [numeral, if_pos ⟨text ▸ List.cons_ne_nil c body, all⟩, value_toString]

theorem canonical_toString (v : Int) : Canonical (ascii (toString v)) := by
  cases v with
  | ofNat m =>
    change Canonical (ascii (toString m))
    obtain ⟨c, body, text, sign, zero⟩ := toString_first m
    have plain : afterDash (ascii (toString m)) = ascii (toString m) := by
      rw [text, afterDash, List.head?_cons, if_neg (by simpa using sign.1)]
    rw [Canonical, plain, numeral_toString]
    refine ⟨rfl, ?_⟩
    intro first
    rw [text, List.head?_cons, Option.some_inj] at first
    rw [zero first]
    rfl
  | negSucc m =>
    obtain ⟨c, body, text, -, zero⟩ := toString_first (m + 1)
    have bare : afterDash (45#8 :: ascii (toString (m + 1))) = ascii (toString (m + 1)) := rfl
    rw [ascii_negSucc, Canonical, bare, numeral_toString]
    refine ⟨rfl, ?_⟩
    intro first
    rw [text, List.head?_cons, Option.some_inj] at first
    exact absurd (zero first) (Nat.succ_ne_zero m)

theorem atoiLoop_toString (loc n : Nat) : atoiLoop loc 0 (ascii (toString n) ++ [0]) =
    (loc + (ascii (toString n)).length, BitVec.ofInt 32 n) := by
  rw [atoiLoop_eq, digits_foldl, digits_toString n [0] rfl, value_toString]

theorem atoiBuf_toString (v : Int) :
    atoiBuf (ascii (toString v) ++ [0]) = ((ascii (toString v)).length, some (BitVec.ofInt 32 v)) := by
  cases v with
  | ofNat m =>
    change atoiBuf (ascii (toString m) ++ [0]) = ((ascii (toString m)).length, some (BitVec.ofInt 32 m))
    obtain ⟨c, body, text, sign, -⟩ := toString_first m
    have head : (ascii (toString m) ++ [0]).head? = some c := by
      rw [text]
      rfl
    have scanned : 0 ≠ 0 + (ascii (toString m)).length := by
      rw [text, List.length_cons]
      omega
    simp only [atoiBuf, head, Option.some_inj, sign.1, sign.2, or_self, if_false, List.drop_zero, atoiLoop_toString]
    rw [if_neg scanned, Nat.zero_add]
  | negSucc m =>
    obtain ⟨c, body, text, -⟩ := toString_first (m + 1)
    have scanned : 1 ≠ 1 + (ascii (toString (m + 1))).length := by
      rw [text, List.length_cons]
      omega
    rw [ascii_negSucc, List.cons_append]
    simp only [atoiBuf, List.head?_cons, true_or, if_true, List.drop_succ_cons, List.drop_zero, atoiLoop_toString]
    rw [if_neg scanned, List.length_cons, Nat.add_comm, ← BitVec.ofInt_neg]
    rfl

theorem vprintfmt_atoi (strings : Word → CString) (ap : VaList) :
    let printed := vprintfmt strings (ascii "%d") ap
    printed = ascii (toString (ap 0).toInt) ∧ Canonical printed ∧
      atoiBuf (printed ++ [0]) = (printed.length, some (ap 0)) := by
  intro printed
  have text : printed = ascii (toString (ap 0).toInt) := vprintfmt_eq strings ap
  rw [text]
  refine ⟨rfl, canonical_toString _, ?_⟩
  rw [atoiBuf_toString, BitVec.ofInt_toInt]

end Certikos.Shell
