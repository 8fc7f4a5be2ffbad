import Certikos.Lib.Run
import Mathlib.Logic.Function.Basic

/-!
# Processes that take turns

A process that has the machine runs until it returns, stops the machine for good or waits; nobody else runs meanwhile.
-/

namespace Certikos.Lib
open Function

inductive Turn (σ ε ω α : Type)
  | done (a : α) (s : σ)
  | stop (e : ε) (s : σ)
  | note (w : ω) (rest : Turn σ ε ω α)
  /-- It leaves the state `s`. At its next turn it waits again if `again` gives a state to leave. -/
  | wait (s : σ) (again : σ → Option σ) (go : σ → Turn σ ε ω α)

variable {ι σ ε ω κ α β : Type}

def Turn.bind : Turn σ ε ω α → (α → σ → Turn σ ε ω β) → Turn σ ε ω β
  | .done a s, f => f a s
  | .stop e s, _ => .stop e s
  | .note w rest, f => .note w (rest.bind f)
  | .wait s again go, f => .wait s again fun s => (go s).bind f

def Code (ι σ ε ω α : Type) := ι → σ → Turn σ ε ω α

instance instMonadCode : Monad (Code ι σ ε ω) where
  pure a := fun _ s => .done a s
  bind x f := fun p s => (x p s).bind fun a => f a p

namespace Code

def get : Code ι σ ε ω σ := fun _ s => .done s s

def self : Code ι σ ε ω ι := fun p s => .done p s

def modify (f : σ → σ) : Code ι σ ε ω PUnit := fun _ s => .done ⟨⟩ (f s)

def stop (e : ε) : Code ι σ ε ω α := fun _ s => .stop e s

def note (w : ω) : Code ι σ ε ω PUnit := fun _ s => .note w (.done ⟨⟩ s)

theorem bind_apply (x : Code ι σ ε ω α) (f : α → Code ι σ ε ω β) (p : ι) (s : σ) :
    (x >>= f) p s = (x p s).bind fun a => f a p := rfl

theorem get_apply (p : ι) (s : σ) : (get : Code ι σ ε ω σ) p s = .done s s := rfl

theorem modify_apply (f : σ → σ) (p : ι) (s : σ) : (modify f : Code ι σ ε ω PUnit) p s = .done ⟨⟩ (f s) := rfl

theorem note_apply (w : ω) (p : ι) (s : σ) : (note w : Code ι σ ε ω PUnit) p s = .note w (.done ⟨⟩ s) := rfl

def forLoop (body : Nat → Code ι σ ε ω PUnit) : Nat → Code ι σ ε ω PUnit
  | 0 => pure ⟨⟩
  | n + 1 => do
      forLoop body n
      body n

theorem forLoop_zero (body : Nat → Code ι σ ε ω PUnit) : forLoop body 0 = pure ⟨⟩ := rfl

theorem forLoop_succ (body : Nat → Code ι σ ε ω PUnit) (n : Nat) :
    forLoop body (n + 1) = (do forLoop body n; body n) := rfl

end Code

abbrev History (ι ω : Type) := List (ι × ω)

def Always (P : History ι ω → ι → ω → Prop) : History ι ω → Prop
  | [] => True
  | (p, w) :: h => P h p w ∧ Always P h

instance decidableAlways (P : History ι ω → ι → ω → Prop) [∀ h p w, Decidable (P h p w)] :
    (h : History ι ω) → Decidable (Always P h)
  | [] => .isTrue trivial
  | (p, w) :: h =>
    haveI := decidableAlways P h
    inferInstanceAs (Decidable (P h p w ∧ Always P h))

def Later (p : ι) (h h' : History ι ω) : Prop := ∃ notes, h' = notes ++ h ∧ ∀ n ∈ notes, n.1 ≠ p

theorem Later.refl (p : ι) (h : History ι ω) : Later p h h := ⟨[], rfl, by simp⟩

theorem Later.trans {p : ι} {h₁ h₂ h₃ : History ι ω} (first : Later p h₁ h₂) (second : Later p h₂ h₃) :
    Later p h₁ h₃ := by
  obtain ⟨notes, rfl, others⟩ := first
  obtain ⟨more, rfl, others'⟩ := second
  refine ⟨more ++ notes, by simp, ?_⟩
  intro n member
  cases List.mem_append.mp member with
  | inl left => exact others' n left
  | inr right => exact others n right

theorem Later.induct {p : ι} {h h' : History ι ω} (later : Later p h h') (P : History ι ω → Prop) (start : P h)
    (step : ∀ q w h, q ≠ p → P h → P ((q, w) :: h)) : P h' := by
  obtain ⟨notes, rfl, others⟩ := later
  induction notes with
  | nil => exact start
  | cons n notes ih =>
    exact step n.1 n.2 _ (others n (.head _)) (ih fun m member => others m (.tail _ member))

/-! ## What a process keeps to -/

/-- What the processes rely on: the invariant holds whenever nobody runs, a process is given a turn only in a state
where it `runs`, and the machine stops only in ways that are `allowed`. -/
structure Rules (ι σ ε ω : Type) where
  inv : History ι ω → σ → Prop
  runs : ι → σ → Prop
  allowed : ε → History ι ω → σ → Prop

variable {R : Rules ι σ ε ω} {p : ι}

def Turn.Keeps (R : Rules ι σ ε ω) (p : ι) (Q : α → History ι ω → σ → Prop) : Turn σ ε ω α → History ι ω → Prop
  | .done a s, h => Q a h s
  | .stop e s, h => R.allowed e h s
  | .note w rest, h => rest.Keeps R p Q ((p, w) :: h)
  | .wait s again go, h =>
    R.inv h s ∧ ∀ h' s', Later p h h' → R.inv h' s' → R.runs p s' →
      (∀ t, again s' = some t → R.inv h' t) ∧ (again s' = none → (go s').Keeps R p Q h')

variable {f : σ → Code ι σ ε ω α} {h : History ι ω}

theorem Turn.Keeps.bind {Q : α → History ι ω → σ → Prop} {Q' : β → History ι ω → σ → Prop}
    {t : Turn σ ε ω α} {f : α → σ → Turn σ ε ω β} (first : t.Keeps R p Q h)
    (next : ∀ a h s, Q a h s → (f a s).Keeps R p Q' h) : (t.bind f).Keeps R p Q' h := by
  induction t generalizing h with
  | done a s => exact next a h s first
  | stop e s => exact first
  | note w rest ih => exact ih first
  | wait s again go ih =>
    refine ⟨first.1, ?_⟩
    intro h' s' later inv runs
    have resumed := first.2 h' s' later inv runs
    exact ⟨resumed.1, fun ended => ih s' (resumed.2 ended)⟩

theorem Turn.Keeps.mono {Q Q' : α → History ι ω → σ → Prop} {t : Turn σ ε ω α}
    (keeps : t.Keeps R p Q h) (weaker : ∀ a h s, Q a h s → Q' a h s) : t.Keeps R p Q' h := by
  induction t generalizing h with
  | done a s => exact weaker a h s keeps
  | stop e s => exact keeps
  | note w rest ih => exact ih keeps
  | wait s again go ih =>
    refine ⟨keeps.1, ?_⟩
    intro h' s' later inv runs
    have resumed := keeps.2 h' s' later inv runs
    exact ⟨resumed.1, fun ended => ih s' (resumed.2 ended)⟩

/-- From every history and state with `P`, the code of `p` keeps to the rules and returns with `Q`. -/
def Code.Meets (R : Rules ι σ ε ω) (p : ι) (P : History ι ω → σ → Prop) (x : Code ι σ ε ω α)
    (Q : α → History ι ω → σ → Prop) : Prop :=
  ∀ h s, P h s → (x p s).Keeps R p Q h

namespace Code.Meets

variable {P P' : History ι ω → σ → Prop} {Q Q' : α → History ι ω → σ → Prop} {x y : Code ι σ ε ω α}

theorem bind {f : α → Code ι σ ε ω β} {Q' : β → History ι ω → σ → Prop} (first : x.Meets R p P Q)
    (next : ∀ a, (f a).Meets R p (Q a) Q') : Code.Meets R p P (x >>= f) Q' :=
  fun h s pre => (first h s pre).bind fun a h s post => next a h s post

theorem seq {f : α → Code ι σ ε ω β} {Q' : β → History ι ω → σ → Prop} (first : x.Meets R p P Q)
    (next : ∀ {a}, (f a).Meets R p (Q a) Q') : Code.Meets R p P (x >>= f) Q' := first.bind fun _ => next

theorem pure {a : α} (post : ∀ h s, P h s → Q a h s) : Code.Meets R p P (Pure.pure a) Q := post

theorem same {a : α} : Code.Meets R p P (Pure.pure a) fun _ => P := fun _ _ here => here

theorem conseq (meets : x.Meets R p P Q) (pre : ∀ h s, P' h s → P h s) (post : ∀ a h s, Q a h s → Q' a h s) :
    x.Meets R p P' Q' :=
  fun h s given => (meets h s (pre h s given)).mono post

theorem weaken (meets : x.Meets R p P Q) (post : ∀ a h s, Q a h s → Q' a h s) : x.Meets R p P Q' :=
  meets.conseq (fun _ _ given => given) post

theorem strengthen (meets : x.Meets R p P Q) (pre : ∀ h s, P' h s → P h s) : x.Meets R p P' Q :=
  meets.conseq pre fun _ _ _ post => post

theorem ite {c : Prop} [Decidable c] (onTrue : c → x.Meets R p P Q) (onFalse : ¬ c → y.Meets R p P Q) :
    Code.Meets R p P (if c then x else y) Q := by
  by_cases holds : c
  · rw [if_pos holds]
    exact onTrue holds
  · rw [if_neg holds]
    exact onFalse holds

theorem both {c : Prop} [Decidable c] (onTrue : x.Meets R p P Q) (onFalse : y.Meets R p P Q) :
    Code.Meets R p P (if c then x else y) Q := ite (fun _ => onTrue) fun _ => onFalse

theorem get (next : ∀ t, (f t).Meets R p P Q) : Code.Meets R p P (Code.get >>= f) Q :=
  fun h s pre => next s h s pre

theorem read (next : ∀ t, (f t).Meets R p (fun h s => P h s ∧ s = t) Q) : Code.Meets R p P (Code.get >>= f) Q :=
  fun h s pre => next s h s ⟨pre, rfl⟩

theorem learn {C : σ → Prop} (fact : ∀ h s, P h s → C s)
    (next : ∀ t, C t → (f t).Meets R p P Q) : Code.Meets R p P (Code.get >>= f) Q :=
  fun h s pre => next s (fact h s pre) h s pre

theorem self {f : ι → Code ι σ ε ω α} (next : (f p).Meets R p P Q) : Code.Meets R p P (Code.self >>= f) Q := next

theorem modify {f : σ → σ} {Q : PUnit → History ι ω → σ → Prop} (kept : ∀ h s, P h s → Q ⟨⟩ h (f s)) :
    (Code.modify f).Meets R p P Q := kept

theorem stop {e : ε} (allowed : ∀ h s, P h s → R.allowed e h s) : (Code.stop e).Meets R p P Q := allowed

theorem note {w : ω} {Q : PUnit → History ι ω → σ → Prop} (kept : ∀ h s, P h s → Q ⟨⟩ ((p, w) :: h) s) :
    (Code.note w).Meets R p P Q := kept

theorem forLoop {body : Nat → Code ι σ ε ω PUnit} {n : Nat}
    (each : ∀ i, i < n → (body i).Meets R p P fun _ => P) : (Code.forLoop body n).Meets R p P fun _ => P := by
  induction n with
  | zero => exact fun _ _ pre => pre
  | succ n ih =>
    exact bind (ih fun i lt => each i (Nat.lt_succ_of_lt lt)) fun _ => each n (Nat.lt_succ_self n)

end Code.Meets

-- the bounds of the loops are literals, and unification would unroll them
attribute [irreducible] Code.forLoop

/-! ## The machine they share -/

structure Parked (σ ε ω : Type) where
  again : σ → Option σ
  go : σ → Turn σ ε ω PUnit

structure Config (ι σ ε ω : Type) where
  state : σ
  history : History ι ω
  parked : ι → Option (Parked σ ε ω)

structure Stopped (ι σ ε ω : Type) where
  reason : ε
  history : History ι ω
  state : σ

inductive Event (ι κ : Type)
  | enter (p : ι) (c : κ)
  | resume (p : ι)

structure Machine (ι σ ε ω κ : Type) where
  code : κ → Code ι σ ε ω PUnit
  runs : ι → σ → Bool

/-- A machine whose processes keep to the rules: `idle` is what holds of a process outside it. -/
structure Machine.Sound (M : Machine ι σ ε ω κ) (R : Rules ι σ ε ω) (idle : ι → History ι ω → Prop) : Prop where
  runs : ∀ p s, M.runs p s = true → R.runs p s
  later : ∀ p h h', Later p h h' → idle p h → idle p h'
  code : ∀ p c, (M.code c).Meets R p (fun h s => R.inv h s ∧ R.runs p s ∧ idle p h) fun _ h s => R.inv h s ∧ idle p h

structure Machine.SoundIf (M : Machine ι σ ε ω κ) (R : Rules ι σ ε ω) (idle : ι → History ι ω → Prop)
    (C : History ι ω → σ → ι → κ → Prop) : Prop where
  runs : ∀ p s, M.runs p s = true → R.runs p s
  later : ∀ p h h', Later p h h' → idle p h → idle p h'
  code : ∀ p c, (M.code c).Meets R p (fun h s => R.inv h s ∧ R.runs p s ∧ idle p h ∧ C h s p c)
    fun _ h s => R.inv h s ∧ idle p h

def Config.Asks (C : History ι ω → σ → ι → κ → Prop) (cfg : Config ι σ ε ω) : Event ι κ → Prop
  | .enter p c => cfg.parked p = none → C cfg.history cfg.state p c
  | .resume _ => True

def Parked.Keeps (R : Rules ι σ ε ω) (idle : ι → History ι ω → Prop) (p : ι) (h : History ι ω) (k : Parked σ ε ω) :
    Prop :=
  ∀ h' s, Later p h h' → R.inv h' s → R.runs p s →
    (∀ t, k.again s = some t → R.inv h' t) ∧
      (k.again s = none → (k.go s).Keeps R p (fun _ h s => R.inv h s ∧ idle p h) h')

def Seated (R : Rules ι σ ε ω) (idle : ι → History ι ω → Prop) (p : ι) (h : History ι ω) :
    Option (Parked σ ε ω) → Prop
  | none => idle p h
  | some k => k.Keeps R idle p h

structure Settled (R : Rules ι σ ε ω) (idle : ι → History ι ω → Prop) (cfg : Config ι σ ε ω) : Prop where
  inv : R.inv cfg.history cfg.state
  seated : ∀ p, Seated R idle p cfg.history (cfg.parked p)

variable {M : Machine ι σ ε ω κ} {idle : ι → History ι ω → Prop} {C : History ι ω → σ → ι → κ → Prop}
  {cfg : Config ι σ ε ω}

theorem Machine.Sound.toIf (sound : M.Sound R idle) : M.SoundIf R idle fun _ _ _ _ => True where
  runs := sound.runs
  later := sound.later
  code p c := (sound.code p c).strengthen fun _ _ given => ⟨given.1, given.2.1, given.2.2.1⟩

theorem Seated.later (stable : ∀ p h h', Later p h h' → idle p h → idle p h') {h h' : History ι ω}
    {k : Option (Parked σ ε ω)} (seated : Seated R idle p h k) (later : Later p h h') : Seated R idle p h' k := by
  cases k with
  | none => exact stable p h h' later seated
  | some k => exact fun h'' s after => seated h'' s (later.trans after)

theorem Settled.outside (settled : Settled R idle cfg) (away : cfg.parked p = none) : idle p cfg.history := by
  have seated := settled.seated p
  rw [away] at seated
  exact seated

theorem Settled.parked (settled : Settled R idle cfg) {k : Parked σ ε ω} (waits : cfg.parked p = some k) :
    k.Keeps R idle p cfg.history := by
  have seated := settled.seated p
  rw [waits] at seated
  exact seated

def Ends (R : Rules ι σ ε ω) (idle : ι → History ι ω → Prop) : Except (Stopped ι σ ε ω) (Config ι σ ε ω) → Prop
  | .ok cfg => Settled R idle cfg
  | .error e => R.allowed e.reason e.history e.state

variable [DecidableEq ι]

def Config.after (cfg : Config ι σ ε ω) (p : ι) : Turn σ ε ω PUnit → Except (Stopped ι σ ε ω) (Config ι σ ε ω)
  | .done _ s => .ok { cfg with state := s, parked := update cfg.parked p none }
  | .stop e s => .error ⟨e, cfg.history, s⟩
  | .note w rest => after { cfg with history := (p, w) :: cfg.history } p rest
  | .wait s again go => .ok { cfg with state := s, parked := update cfg.parked p (some ⟨again, go⟩) }

def Machine.step (M : Machine ι σ ε ω κ) (cfg : Config ι σ ε ω) : Event ι κ → Except (Stopped ι σ ε ω) (Config ι σ ε ω)
  | .enter p c =>
    match cfg.parked p with
    | none => if M.runs p cfg.state then cfg.after p (M.code c p cfg.state) else .ok cfg
    | some _ => .ok cfg
  | .resume p =>
    match cfg.parked p with
    | none => .ok cfg
    | some k =>
      if M.runs p cfg.state then
        match k.again cfg.state with
        | some s => .ok { cfg with state := s }
        | none => cfg.after p (k.go cfg.state)
      else .ok cfg

theorem seated_update {parked : ι → Option (Parked σ ε ω)} {k : Option (Parked σ ε ω)}
    (own : Seated R idle p h k) (others : ∀ q, q ≠ p → Seated R idle q h (parked q)) (q : ι) :
    Seated R idle q h (update parked p k q) := by
  by_cases same : q = p
  · rw [same, update_self]
    exact own
  · rw [update_of_ne same]
    exact others q same

theorem ends_after (stable : ∀ p h h', Later p h h' → idle p h → idle p h') {t : Turn σ ε ω PUnit}
    (keeps : t.Keeps R p (fun _ h s => R.inv h s ∧ idle p h) cfg.history)
    (others : ∀ q, q ≠ p → Seated R idle q cfg.history (cfg.parked q)) : Ends R idle (cfg.after p t) := by
  induction t generalizing cfg with
  | done a s => exact ⟨keeps.1, seated_update keeps.2 others⟩
  | stop e s => exact keeps
  | note w rest ih =>
    refine ih keeps ?_
    intro q ne
    exact (others q ne).later stable ⟨[(p, w)], rfl, by simpa using Ne.symm ne⟩
  | wait s again go _ => exact ⟨keeps.1, seated_update keeps.2 others⟩

theorem Machine.SoundIf.ends_step (sound : M.SoundIf R idle C) (settled : Settled R idle cfg) {e : Event ι κ}
    (asked : cfg.Asks C e) : Ends R idle (M.step cfg e) := by
  cases e with
  | enter p c =>
    cases waiting : cfg.parked p with
    | some k =>
      simp only [Machine.step, waiting]
      exact settled
    | none =>
      simp only [Machine.step, waiting]
      by_cases runs : M.runs p cfg.state = true
      · rw [if_pos runs]
        have entered := sound.code p c cfg.history cfg.state
          ⟨settled.inv, sound.runs p _ runs, settled.outside waiting, asked waiting⟩
        exact ends_after sound.later entered fun q _ => settled.seated q
      · rw [if_neg runs]
        exact settled
  | resume p =>
    cases waiting : cfg.parked p with
    | none =>
      simp only [Machine.step, waiting]
      exact settled
    | some k =>
      simp only [Machine.step, waiting]
      by_cases runs : M.runs p cfg.state = true
      · rw [if_pos runs]
        have resumed := settled.parked waiting cfg.history cfg.state (Later.refl ..) settled.inv
          (sound.runs p _ runs)
        cases again : k.again cfg.state with
        | some s => exact ⟨resumed.1 s again, settled.seated⟩
        | none => exact ends_after sound.later (resumed.2 again) fun q _ => settled.seated q
      · rw [if_neg runs]
        exact settled

theorem Machine.SoundIf.ends_run (sound : M.SoundIf R idle C) (settled : Settled R idle cfg) {es : List (Event ι κ)}
    (asked : Along M.step (Config.Asks C) cfg es) : Ends R idle (run M.step cfg es) := by
  induction es generalizing cfg with
  | nil => exact settled
  | cons e es ih =>
    have first := sound.ends_step settled asked.1
    unfold run
    cases next : M.step cfg e with
    | ok cfg' =>
      rw [next] at first
      exact ih first (asked.2 cfg' next)
    | error stopped =>
      rw [next] at first
      exact first

theorem along_asks_true (es : List (Event ι κ)) (cfg : Config ι σ ε ω) :
    Along M.step (Config.Asks fun _ _ _ _ => True) cfg es := by
  induction es generalizing cfg with
  | nil => trivial
  | cons e es ih =>
    refine ⟨?_, fun cfg' _ => ih cfg'⟩
    cases e with
    | enter p c => exact fun _ => trivial
    | resume p => trivial

theorem Machine.Sound.ends_run (sound : M.Sound R idle) (settled : Settled R idle cfg) (es : List (Event ι κ)) :
    Ends R idle (run M.step cfg es) := sound.toIf.ends_run settled (along_asks_true es cfg)

end Certikos.Lib
