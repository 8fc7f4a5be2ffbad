import Mathlib.Data.List.Nodup
import Mathlib.Logic.Function.Basic

/-!
# Redo logs

A store `A → B` reserves one address for a header and further ones for slots. The header block records the home
addresses whose new contents the slots hold.
-/

namespace Certikos.Lib
open Function

structure RedoLog (A B : Type*) where
  header : A
  slot : Nat → A
  capacity : Nat
  entries : B → List A
  Home : A → Prop
  header_not_home : ¬ Home header
  slot_not_home : ∀ i, i < capacity → ¬ Home (slot i)
  slot_ne_header : ∀ i, i < capacity → slot i ≠ header
  slot_injective : ∀ i j, i < capacity → j < capacity → slot i = slot j → i = j

namespace RedoLog
variable {A B : Type*}

structure Fits (L : RedoLog A B) (ps : List A) : Prop where
  nodup : ps.Nodup
  home : ∀ a ∈ ps, L.Home a
  room : ps.length ≤ L.capacity

def WellFormed (L : RedoLog A B) (d : A → B) : Prop := L.Fits (L.entries (d L.header))

variable {L : RedoLog A B} {ps : List A} {d : A → B} {a p : A} {b : B}

theorem fits_nil : L.Fits [] := ⟨List.nodup_nil, by simp, Nat.zero_le _⟩

theorem Fits.snoc (fits : L.Fits ps) (fresh : p ∉ ps) (home : L.Home p) (room : ps.length < L.capacity) :
    L.Fits (ps ++ [p]) where
  nodup := List.nodup_append.mpr ⟨fits.nodup, List.nodup_singleton p, by
    intro q member r last same
    rw [List.mem_singleton] at last
    exact fresh (last ▸ same ▸ member)⟩
  home := by
    intro q member
    rcases List.mem_append.mp member with old | last
    · exact fits.home q old
    · rwa [List.mem_singleton.mp last]
  room := by
    rw [List.length_append, List.length_singleton]
    exact room

theorem Home.ne_header (home : L.Home a) : a ≠ L.header :=
  fun same => L.header_not_home (same ▸ home)

variable {i : Nat} {d₀ : A → B}

theorem Home.ne_slot (home : L.Home a) (lt : i < L.capacity) : a ≠ L.slot i :=
  fun same => L.slot_not_home i lt (same ▸ home)

variable [DecidableEq A]

def redo (L : RedoLog A B) (ps : List A) (d : A → B) (a : A) : B :=
  if a ∈ ps then d (L.slot (ps.idxOf a)) else d a

def view (L : RedoLog A B) (d : A → B) : A → B := L.redo (L.entries (d L.header)) d

theorem Fits.idxOf_lt (fits : L.Fits ps) (member : a ∈ ps) : ps.idxOf a < L.capacity :=
  Nat.lt_of_lt_of_le (List.idxOf_lt_length_of_mem member) fits.room

@[simp] theorem redo_nil : L.redo [] d = d := by
  funext a
  simp [redo]

theorem view_of_empty (empty : L.entries (d L.header) = []) : L.view d = d := by
  rw [view, empty, redo_nil]

theorem redo_congr {e : A → B} (fits : L.Fits ps) (slots : ∀ i, i < L.capacity → d (L.slot i) = e (L.slot i))
    (same : d a = e a) : L.redo ps d a = L.redo ps e a := by
  unfold redo
  by_cases member : a ∈ ps
  · rw [if_pos member, if_pos member]
    exact slots _ (fits.idxOf_lt member)
  · rw [if_neg member, if_neg member]
    exact same

theorem redo_absorb (fits : L.Fits ps) (member : p ∈ ps) (home : L.Home a) :
    L.redo ps (update d (L.slot (ps.idxOf p)) b) a = update (L.redo ps d) p b a := by
  have bound := fits.idxOf_lt member
  by_cases here : a = p
  · subst here
    simp [redo, member]
  · rw [update_of_ne here]
    unfold redo
    by_cases logged : a ∈ ps
    · rw [if_pos logged, if_pos logged, update_of_ne]
      intro same
      have index := L.slot_injective _ _ (fits.idxOf_lt logged) bound same
      exact here ((List.idxOf_inj logged).mp index)
    · rw [if_neg logged, if_neg logged, update_of_ne (home.ne_slot bound)]

theorem redo_snoc (fits : L.Fits ps) (fresh : p ∉ ps) (home : L.Home a) (room : ps.length < L.capacity) :
    L.redo (ps ++ [p]) (update d (L.slot ps.length) b) a = update (L.redo ps d) p b a := by
  by_cases here : a = p
  · subst here
    simp [redo, List.idxOf_append_of_notMem fresh]
  · rw [update_of_ne here]
    unfold redo
    by_cases logged : a ∈ ps
    · rw [if_pos (List.mem_append_left _ logged), if_pos logged, List.idxOf_append_of_mem logged,
        update_of_ne]
      intro same
      have index := L.slot_injective _ _ (fits.idxOf_lt logged) room same
      have short := List.idxOf_lt_length_of_mem logged
      omega
    · rw [if_neg (by simp [logged, here]), if_neg logged, update_of_ne (home.ne_slot room)]

theorem view_commit (fits : L.Fits (L.entries b)) (home : L.Home a) :
    L.view (update d L.header b) a = L.redo (L.entries b) d a := by
  rw [view, update_self]
  refine redo_congr fits ?_ (update_of_ne home.ne_header _ _)
  intro i lt
  exact update_of_ne (L.slot_ne_header i lt) _ _

theorem redo_install (fits : L.Fits ps) (lt : i < ps.length) :
    L.redo ps (update d ps[i] (d (L.slot i))) = L.redo ps d := by
  funext a
  unfold redo
  have home := fits.home _ (List.getElem_mem lt)
  by_cases logged : a ∈ ps
  · rw [if_pos logged, if_pos logged, update_of_ne (home.ne_slot (fits.idxOf_lt logged)).symm]
  · rw [if_neg logged, if_neg logged, update_of_ne]
    intro same
    exact logged (same ▸ List.getElem_mem lt)

structure Installing (L : RedoLog A B) (ps : List A) (d₀ : A → B) (i : Nat) (d : A → B) : Prop where
  recorded : L.entries (d L.header) = ps
  redone : L.redo ps d = L.redo ps d₀
  home : ∀ j (lt : j < ps.length), j < i → d ps[j] = d (L.slot j)

theorem Installing.start (recorded : L.entries (d L.header) = ps) : L.Installing ps d 0 d :=
  ⟨recorded, rfl, fun _ _ none => absurd none (Nat.not_lt_zero _)⟩

theorem Installing.view (started : L.entries (d₀ L.header) = ps) (inst : L.Installing ps d₀ i d) :
    L.view d = L.view d₀ := by
  rw [RedoLog.view, RedoLog.view, inst.recorded, started, inst.redone]

theorem Installing.step (inst : L.Installing ps d₀ i d) (fits : L.Fits ps) (lt : i < ps.length) :
    L.Installing ps d₀ (i + 1) (update d ps[i] (d (L.slot i))) where
  recorded := by
    rw [update_of_ne (fits.home _ (List.getElem_mem lt)).ne_header.symm]
    exact inst.recorded
  redone := (redo_install fits lt).trans inst.redone
  home := by
    intro j bound before
    have slot : ∀ k, k < ps.length → ps[i] ≠ L.slot k :=
      fun k short => (fits.home _ (List.getElem_mem lt)).ne_slot (Nat.lt_of_lt_of_le short fits.room)
    rw [update_of_ne (slot j bound).symm]
    by_cases last : j = i
    · subst last
      rw [update_self]
    · rw [update_of_ne]
      · exact inst.home j bound (by omega)
      · intro same
        exact last ((fits.nodup.getElem_inj_iff).mp same)

theorem Installing.erase (started : L.entries (d₀ L.header) = ps) (inst : L.Installing ps d₀ ps.length d)
    (home : L.Home a) : update d L.header b a = L.view d₀ a := by
  rw [update_of_ne home.ne_header, RedoLog.view, started, ← inst.redone, redo]
  by_cases logged : a ∈ ps
  · have lt := List.idxOf_lt_length_of_mem logged
    rw [if_pos logged, ← inst.home _ lt lt, List.getElem_idxOf lt]
  · rw [if_neg logged]

end RedoLog

end Certikos.Lib
