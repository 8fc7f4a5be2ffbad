import Certikos.Lib.Turns
import Mathlib.Order.Defs.Unbundled

/-!
# What a process does in its turns, and a process that is alone

`Within` bounds what a process changes in any of its turns, whatever the others do between them. `alone` is the other
extreme: nobody else runs, and whenever the process waits, what it waits for happens.
-/

namespace Certikos.Lib

variable {ι σ ε ω κ α β : Type}

/-! ## In each turn -/

/-- In this turn, which began in `s₀`, and in the later ones the state changes only as `G` says. -/
def Turn.Within (G : σ → σ → Prop) (s₀ : σ) : Turn σ ε ω α → Prop
  | .done _ s => G s₀ s
  | .stop _ _ => True
  | .note _ rest => rest.Within G s₀
  | .wait s again go => G s₀ s ∧ ∀ s', (∀ t, again s' = some t → G s' t) ∧ (go s').Within G s'

def Code.Within (G : σ → σ → Prop) (x : Code ι σ ε ω α) : Prop := ∀ p s, (x p s).Within G s

section Within

variable {G G' : σ → σ → Prop} {x y : Code ι σ ε ω α}

variable {s₀ : σ} {cfg cfg' : Config ι σ ε ω}

variable {t : Turn σ ε ω α}

theorem Turn.Within.mono (within : t.Within G s₀) (weaker : ∀ s s', G s s' → G' s s') :
    t.Within G' s₀ := by
  induction t generalizing s₀ with
  | done a s => exact weaker _ _ within
  | stop e s => trivial
  | note w rest ih => exact ih within
  | wait s again go ih =>
    refine ⟨weaker _ _ within.1, ?_⟩
    intro s'
    exact ⟨fun t left => weaker _ _ ((within.2 s').1 t left), ih s' (within.2 s').2⟩

namespace Code.Within

theorem mono (within : x.Within G) (weaker : ∀ s s', G s s' → G' s s') : x.Within G' :=
  fun p s => (within p s).mono weaker

variable {f : σ → Code ι σ ε ω α} {c : Prop}

theorem read (next : ∀ p s, (f s p s).Within G s) : Code.Within G (Code.get >>= f) := next

theorem get (next : ∀ t, (f t).Within G) : Code.Within G (Code.get >>= f) :=
  fun p s => next s p s

theorem self {f : ι → Code ι σ ε ω α} (next : ∀ q, (f q).Within G) : Code.Within G (Code.self >>= f) :=
  fun p s => next p p s

theorem modify {f : σ → σ} (change : ∀ s, G s (f s)) : Code.Within G (Code.modify f : Code ι σ ε ω PUnit) :=
  fun _ s => change s

theorem stop {e : ε} : Code.Within G (Code.stop e : Code ι σ ε ω α) := fun _ _ => trivial

theorem ite [Decidable c] (onTrue : c → x.Within G) (onFalse : ¬ c → y.Within G) :
    Code.Within G (if c then x else y) := by
  by_cases holds : c
  · rw [if_pos holds]
    exact onTrue holds
  · rw [if_neg holds]
    exact onFalse holds

theorem both [Decidable c] (onTrue : x.Within G) (onFalse : y.Within G) :
    Code.Within G (if c then x else y) := ite (fun _ => onTrue) fun _ => onFalse

end Code.Within

def Config.Within (G : σ → σ → Prop) (cfg : Config ι σ ε ω) : Prop :=
  ∀ p k, cfg.parked p = some k → ∀ s, (∀ t, k.again s = some t → G s t) ∧ (k.go s).Within G s

theorem Config.within_after [DecidableEq ι] {p : ι} {t : Turn σ ε ω PUnit} (others : cfg.Within G)
    (within : t.Within G s₀) (after : cfg.after p t = .ok cfg') :
    G s₀ cfg'.state ∧ cfg'.Within G := by
  induction t generalizing cfg with
  | done a s =>
    cases after
    refine ⟨within, ?_⟩
    intro q k parked
    by_cases same : q = p
    · simp [same] at parked
    · exact others q k (by simpa [same] using parked)
  | stop e s => cases after
  | note w rest ih =>
    exact ih (show ({ cfg with history := (p, w) :: cfg.history } : Config ι σ ε ω).Within G from others) within after
  | wait s again go _ =>
    cases after
    refine ⟨within.1, ?_⟩
    intro q k parked
    by_cases same : q = p
    · simp only [same, Function.update_self, Option.some.injEq] at parked
      rw [← parked]
      exact within.2
    · exact others q k (by simpa [same] using parked)

theorem Machine.within_step [DecidableEq ι] {M : Machine ι σ ε ω κ} (refl : ∀ s, G s s)
    (each : ∀ c, (M.code c).Within G) (others : cfg.Within G) {e : Event ι κ} (next : M.step cfg e = .ok cfg') :
    G cfg.state cfg'.state ∧ cfg'.Within G := by
  have stays : cfg = cfg' → G cfg.state cfg'.state ∧ cfg'.Within G := by
    intro same
    rw [← same]
    exact ⟨refl cfg.state, others⟩
  cases e with
  | enter p c =>
    simp only [Machine.step] at next
    cases waiting : cfg.parked p with
    | some k => simp only [waiting, Except.ok.injEq] at next; exact stays next
    | none =>
      simp only [waiting] at next
      split at next
      · exact Config.within_after others (each c p cfg.state) next
      · exact stays (Except.ok.inj next)
  | resume p =>
    simp only [Machine.step] at next
    cases waiting : cfg.parked p with
    | none => simp only [waiting, Except.ok.injEq] at next; exact stays next
    | some k =>
      simp only [waiting] at next
      have resumed := others p k waiting cfg.state
      split at next
      · cases again : k.again cfg.state with
        | some s =>
          simp only [again, Except.ok.injEq] at next
          rw [← next]
          exact ⟨resumed.1 s again, others⟩
        | none =>
          simp only [again] at next
          exact Config.within_after others resumed.2 next
      · exact stays (Except.ok.inj next)

variable [IsPreorder σ G]

theorem Turn.Within.after {s₁ : σ} (first : G s₀ s₁) (within : t.Within G s₁) :
    t.Within G s₀ := by
  induction t with
  | done a s => exact trans_of G first within
  | stop e s => trivial
  | note w rest ih => exact ih within
  | wait s again go ih => exact ⟨trans_of G first within.1, within.2⟩

theorem Turn.Within.bind {f : α → σ → Turn σ ε ω β} (first : t.Within G s₀) (next : ∀ a s, (f a s).Within G s) :
    (t.bind f).Within G s₀ := by
  induction t generalizing s₀ with
  | done a s => exact (next a s).after first
  | stop e s => trivial
  | note w rest ih => exact ih first
  | wait s again go ih => exact ⟨first.1, fun s' => ⟨(first.2 s').1, ih s' (first.2 s').2⟩⟩

namespace Code.Within

variable {f : α → Code ι σ ε ω β}

theorem bind (first : x.Within G) (next : ∀ a, (f a).Within G) :
    Code.Within G (x >>= f) := fun p s => (first p s).bind fun a s => next a p s

theorem seq (first : x.Within G) (next : ∀ {a}, (f a).Within G) :
    Code.Within G (x >>= f) := first.bind fun _ => next

theorem pure {a : α} : Code.Within G (Pure.pure a : Code ι σ ε ω α) := fun _ s => refl_of G s

theorem note {w : ω} : Code.Within G (Code.note w : Code ι σ ε ω PUnit) := fun _ s => refl_of G s

theorem forLoop {body : Nat → Code ι σ ε ω PUnit} {n : Nat} (each : ∀ i, i < n → (body i).Within G) :
    (Code.forLoop body n).Within G := by
  induction n with
  | zero =>
    rw [Code.forLoop_zero]
    exact pure
  | succ n ih =>
    rw [Code.forLoop_succ]
    exact bind (ih fun i lt => each i (Nat.lt_succ_of_lt lt)) fun _ => each n (Nat.lt_succ_self n)

end Code.Within

end Within

/-! ## Alone -/

structure World (ι σ ω : Type) where
  runs : ι → σ → Bool
  meanwhile : σ → σ
  watch : ω → Bool

inductive Cut (ε ω : Type)
  | stops (e : ε)
  | waits
  | notes (w : ω)
  deriving DecidableEq

def Turn.alone (W : World ι σ ω) (p : ι) : Turn σ ε ω α → Except (Cut ε ω) (α × σ)
  | .done a s => .ok (a, s)
  | .stop e _ => .error (.stops e)
  | .note w rest => if W.watch w = true then .error (.notes w) else rest.alone W p
  | .wait s again go =>
    if W.runs p (W.meanwhile s) = true then
      match again (W.meanwhile s) with
      | some _ => .error .waits
      | none => (go (W.meanwhile s)).alone W p
    else .error .waits

def Code.alone (W : World ι σ ω) (p : ι) (x : Code ι σ ε ω α) (s : σ) : Except (Cut ε ω) (α × σ) := (x p s).alone W p

def Turn.Gives (W : World ι σ ω) (E : Cut ε ω → Prop) (p : ι) (Q : α → σ → Prop) (t : Turn σ ε ω α) : Prop :=
  match t.alone W p with
  | .ok r => Q r.1 r.2
  | .error e => E e

/-- Alone, from every state with `P`, the code of `p` returns with `Q`, or it ends otherwise with `E`. -/
def Code.Does (W : World ι σ ω) (E : Cut ε ω → Prop) (p : ι) (P : σ → Prop) (x : Code ι σ ε ω α)
    (Q : α → σ → Prop) : Prop :=
  ∀ s, P s → (x p s).Gives W E p Q

section Alone

variable {W : World ι σ ω} {p : ι} {x y : Code ι σ ε ω α} {Q Q' : α → σ → Prop} {E E' : Cut ε ω → Prop} {s : σ}

theorem Turn.alone_bind (t : Turn σ ε ω α) (f : α → σ → Turn σ ε ω β) :
    (t.bind f).alone W p = match t.alone W p with
      | .ok r => (f r.1 r.2).alone W p
      | .error e => .error e := by
  induction t with
  | done a s => rfl
  | stop e s => rfl
  | note w rest ih =>
    simp only [Turn.bind, Turn.alone]
    by_cases watched : W.watch w = true
    · simp only [if_pos watched]
    · simp only [if_neg watched]
      exact ih
  | wait s again go ih =>
    simp only [Turn.bind, Turn.alone]
    by_cases runs : W.runs p (W.meanwhile s) = true
    · simp only [if_pos runs]
      cases again (W.meanwhile s) with
      | some t => rfl
      | none => exact ih (W.meanwhile s)
    · simp only [if_neg runs]

variable {f : α → σ → Turn σ ε ω β} {h h' : History ι ω}

variable {t : Turn σ ε ω α}

theorem Turn.alone_bind_ok {r : α × σ} (first : t.alone W p = .ok r) :
    (t.bind f).alone W p = (f r.1 r.2).alone W p := by
  rw [Turn.alone_bind, first]

theorem Turn.alone_bind_error {e : Cut ε ω} (first : t.alone W p = .error e) :
    (t.bind f).alone W p = .error e := by
  rw [Turn.alone_bind, first]

namespace Turn.Gives

variable {t : Turn σ ε ω α}

theorem mono (gives : t.Gives W E p Q) (onOk : ∀ a s, Q a s → Q' a s) (onError : ∀ e, E e → E' e) :
    t.Gives W E' p Q' := by
  unfold Turn.Gives at *
  cases result : t.alone W p with
  | ok r =>
    rw [result] at gives
    exact onOk r.1 r.2 gives
  | error e =>
    rw [result] at gives
    exact onError e gives

theorem and (gives : t.Gives W E p Q) (gives' : t.Gives W E' p Q') :
    t.Gives W (fun e => E e ∧ E' e) p fun a s => Q a s ∧ Q' a s := by
  unfold Turn.Gives at *
  cases result : t.alone W p <;> rw [result] at gives gives' <;> exact ⟨gives, gives'⟩

theorem bind {f : α → σ → Turn σ ε ω β} {Q' : β → σ → Prop} (first : t.Gives W E p Q)
    (next : ∀ a s, Q a s → (f a s).Gives W E p Q') : (t.bind f).Gives W E p Q' := by
  unfold Turn.Gives at first ⊢
  rw [Turn.alone_bind]
  cases result : t.alone W p with
  | ok r =>
    rw [result] at first
    exact next r.1 r.2 first
  | error e =>
    rw [result] at first
    exact first

theorem note {w : ω} (cut : W.watch w = true → E (.notes w)) (next : W.watch w = false → t.Gives W E p Q) :
    (Turn.note w t).Gives W E p Q := by
  unfold Turn.Gives Turn.alone
  cases watched : W.watch w with
  | true => exact cut watched
  | false => exact next watched

theorem of_ok {r : α × σ} (gives : t.Gives W E p Q) (returned : t.alone W p = .ok r) : Q r.1 r.2 := by
  unfold Turn.Gives at gives
  rw [returned] at gives
  exact gives

theorem returns (gives : t.Gives W (fun _ => False) p Q) : ∃ a s, t.alone W p = .ok (a, s) ∧ Q a s := by
  unfold Turn.Gives at gives
  cases result : t.alone W p with
  | ok r =>
    rw [result] at gives
    exact ⟨r.1, r.2, rfl, gives⟩
  | error e =>
    rw [result] at gives
    exact gives.elim

theorem fails (gives : t.Gives W E p fun _ _ => False) : ∃ e, t.alone W p = .error e ∧ E e := by
  unfold Turn.Gives at gives
  cases result : t.alone W p with
  | ok r =>
    rw [result] at gives
    exact gives.elim
  | error e =>
    rw [result] at gives
    exact ⟨e, rfl, gives⟩

end Turn.Gives

theorem Turn.Within.gives {G : σ → σ → Prop} [IsPreorder σ G] (meanwhile : ∀ s, G s (W.meanwhile s))
    (within : t.Within G s) : t.Gives W (fun _ => True) p fun _ => G s := by
  unfold Turn.Gives
  induction t generalizing s with
  | done a s' => exact within
  | stop e s' => trivial
  | note w rest ih =>
    simp only [Turn.alone]
    by_cases watched : W.watch w = true
    · simp only [if_pos watched]
    · simp only [if_neg watched]
      exact ih within
  | wait s' again go ih =>
    have here := trans_of G within.1 (meanwhile s')
    have resumed := within.2 (W.meanwhile s')
    simp only [Turn.alone]
    by_cases runs : W.runs p (W.meanwhile s') = true
    · simp only [if_pos runs]
      cases again (W.meanwhile s') with
      | some t => trivial
      | none => exact ih (W.meanwhile s') (resumed.2.after here)
    · simp only [if_neg runs]

def Own (p : ι) (h h' : History ι ω) : Prop := ∃ notes, h' = notes ++ h ∧ ∀ n ∈ notes, n.1 = p

theorem Own.refl (h : History ι ω) : Own p h h := ⟨[], rfl, by simp⟩

theorem Own.cons {w : ω} (own : Own p ((p, w) :: h) h') : Own p h h' := by
  obtain ⟨notes, rfl, each⟩ := own
  refine ⟨notes ++ [(p, w)], by simp, ?_⟩
  intro n member
  cases List.mem_append.mp member with
  | inl before => exact each n before
  | inr last => rw [List.mem_singleton.mp last]

theorem Own.later {q : ι} (own : Own p h h') (other : q ≠ p) : Later q h h' := by
  obtain ⟨notes, rfl, each⟩ := own
  exact ⟨notes, rfl, fun n member same => other (same.symm.trans (each n member))⟩

theorem Turn.Keeps.gives {R : Rules ι σ ε ω} {Q : α → History ι ω → σ → Prop}
    (runs : ∀ s, W.runs p s = true → R.runs p s) (meanwhile : ∀ h s, R.inv h s → R.inv h (W.meanwhile s))
    (keeps : t.Keeps R p Q h) :
    t.Gives W (fun _ => True) p fun a s => ∃ h', Own p h h' ∧ Q a h' s := by
  unfold Turn.Gives
  induction t generalizing h with
  | done a s => exact ⟨h, Own.refl h, keeps⟩
  | stop e s => trivial
  | note w rest ih =>
    simp only [Turn.alone]
    by_cases watched : W.watch w = true
    · simp only [if_pos watched]
    · simp only [if_neg watched]
      have after := ih keeps
      cases result : rest.alone W p with
      | ok r =>
        rw [result] at after
        obtain ⟨h', own, post⟩ := after
        exact ⟨h', own.cons, post⟩
      | error e => trivial
  | wait s again go ih =>
    simp only [Turn.alone]
    by_cases goes : W.runs p (W.meanwhile s) = true
    · simp only [if_pos goes]
      have resumed := keeps.2 h (W.meanwhile s) (Later.refl p h) (meanwhile h s keeps.1) (runs _ goes)
      cases ended : again (W.meanwhile s) with
      | some t => trivial
      | none => exact ih (W.meanwhile s) (resumed.2 ended)
    · simp only [if_neg goes]

namespace Code.Does

variable {P P' : σ → Prop}

theorem anything (x : Code ι σ ε ω α) : x.Does W (fun _ => True) p P fun _ _ => True := by
  intro s _
  unfold Turn.Gives
  cases (x p s).alone W p <;> trivial

variable {f : α → Code ι σ ε ω β} {a : α} {c : Prop}

theorem bind {Q' : β → σ → Prop} (first : x.Does W E p P Q) (next : ∀ a, (f a).Does W E p (Q a) Q') :
    Code.Does W E p P (x >>= f) Q' :=
  fun s pre => (first s pre).bind next

theorem seq {Q' : β → σ → Prop} (first : x.Does W E p P Q) (next : ∀ {a}, (f a).Does W E p (Q a) Q') :
    Code.Does W E p P (x >>= f) Q' := first.bind fun _ => next

theorem never {Q' : β → σ → Prop} (first : x.Does W E p P fun _ _ => False) :
    Code.Does W E p P (x >>= f) Q' := first.bind fun _ _ returned => returned.elim

theorem pure (post : ∀ s, P s → Q a s) : Code.Does W E p P (Pure.pure a : Code ι σ ε ω α) Q := post

theorem same : Code.Does W E p P (Pure.pure a : Code ι σ ε ω α) fun _ => P := fun _ here => here

theorem conseq (does : x.Does W E p P Q) (pre : ∀ s, P' s → P s) (post : ∀ a s, Q a s → Q' a s) :
    x.Does W E p P' Q' :=
  fun s given => (does s (pre s given)).mono post fun _ stopped => stopped

theorem weaken (does : x.Does W E p P Q) (post : ∀ a s, Q a s → Q' a s) : x.Does W E p P Q' :=
  does.conseq (fun _ given => given) post

theorem strengthen (does : x.Does W E p P Q) (pre : ∀ s, P' s → P s) : x.Does W E p P' Q :=
  does.conseq pre fun _ _ post => post

theorem ite [Decidable c] (onTrue : c → x.Does W E p P Q) (onFalse : ¬ c → y.Does W E p P Q) :
    Code.Does W E p P (if c then x else y) Q := by
  by_cases holds : c
  · rw [if_pos holds]
    exact onTrue holds
  · rw [if_neg holds]
    exact onFalse holds

theorem both [Decidable c] (onTrue : x.Does W E p P Q) (onFalse : y.Does W E p P Q) :
    Code.Does W E p P (if c then x else y) Q := ite (fun _ => onTrue) fun _ => onFalse

theorem get {f : σ → Code ι σ ε ω α} (next : ∀ t, (f t).Does W E p P Q) : Code.Does W E p P (Code.get >>= f) Q :=
  fun s pre => next s s pre

theorem read {f : σ → Code ι σ ε ω α} (next : ∀ t, P t → (f t).Does W E p (fun s => s = t) Q) :
    Code.Does W E p P (Code.get >>= f) Q :=
  fun s pre => next s pre s rfl

theorem learn {C : σ → Prop} {f : σ → Code ι σ ε ω α} (fact : ∀ s, P s → C s)
    (next : ∀ t, C t → (f t).Does W E p P Q) : Code.Does W E p P (Code.get >>= f) Q :=
  fun s pre => next s (fact s pre) s pre

theorem self {f : ι → Code ι σ ε ω α} (next : (f p).Does W E p P Q) : Code.Does W E p P (Code.self >>= f) Q := next

theorem modify {f : σ → σ} {Q : PUnit → σ → Prop} (kept : ∀ s, P s → Q ⟨⟩ (f s)) :
    (Code.modify f : Code ι σ ε ω PUnit).Does W E p P Q := kept

theorem stop {e : ε} (ends : ∀ s, P s → E (.stops e)) : (Code.stop e : Code ι σ ε ω α).Does W E p P Q := ends

theorem noted {w : ω} {f : PUnit → Code ι σ ε ω α} (cut : W.watch w = true → E (.notes w))
    (next : W.watch w = false → (f ⟨⟩).Does W E p P Q) : Code.Does W E p P (Code.note w >>= f) Q :=
  fun s pre => Turn.Gives.note cut fun unwatched => next unwatched s pre

variable {G : σ → σ → Prop}

theorem of_within [IsPreorder σ G] (within : x.Within G) (meanwhile : ∀ s, G s (W.meanwhile s))
    (kept : ∀ s t, P s → G s t → P t) : x.Does W (fun _ => True) p P fun _ => P := by
  intro s pre
  exact ((within p s).gives meanwhile).mono (fun _ t bound => kept s t pre bound) fun _ stopped => stopped

theorem also [IsPreorder σ G] {F : σ → Prop} (does : x.Does W E p P Q) (within : x.Within G)
    (meanwhile : ∀ s, G s (W.meanwhile s)) (stable : ∀ s t, F s → G s t → F t) :
    x.Does W E p (fun s => P s ∧ F s) fun a s => Q a s ∧ F s := by
  rintro s ⟨pre, frame⟩
  refine ((does s pre).and ((within p s).gives meanwhile)).mono ?_ fun _ stopped => stopped.1
  intro a t both
  exact ⟨both.1, stable s t frame both.2⟩

end Code.Does

end Alone

end Certikos.Lib
