import Mathlib.Algebra.GroupWithZero.Nat
import Mathlib.Order.Lattice
import Mathlib.Logic.Function.Basic

/-!
# Updates of a finite map

A write binds a key to a value, or removes its binding. What a list of writes
makes of a map is decided, key by key, by the last write of the key; a key that is
not written keeps what it had.
-/

namespace Updates

variable {K V : Type}

/-- A key, and what it is bound to from now on. -/
abbrev Write (K V : Type) := K × Option V

variable [DecidableEq K]

/-- The map after one write. -/
def apply (m : K → Option V) (w : Write K V) : K → Option V := Function.update m w.1 w.2

/-- The map after some writes, the first one first. -/
def applyAll (m : K → Option V) (ws : List (Write K V)) : K → Option V := ws.foldl apply m

/-- What the last write of a key binds it to, if there is one. -/
def last (k : K) (ws : List (Write K V)) : Option (Option V) :=
  ws.foldl (fun old w => if w.1 = k then some w.2 else old) none

@[simp] theorem applyAll_nil (m : K → Option V) : applyAll m [] = m := rfl

@[simp] theorem applyAll_cons (m : K → Option V) (w : Write K V) (ws : List (Write K V)) :
    applyAll m (w :: ws) = applyAll (apply m w) ws := rfl

theorem applyAll_append (m : K → Option V) (ws vs : List (Write K V)) :
    applyAll m (ws ++ vs) = applyAll (applyAll m ws) vs := List.foldl_append

theorem last_append (k : K) (ws vs : List (Write K V)) :
    last k (ws ++ vs) = (last k vs).or (last k ws) := by
  suffices h : ∀ (vs : List (Write K V)) (old : Option (Option V)),
      vs.foldl (fun old w => if w.1 = k then some w.2 else old) old = (last k vs).or old by
    rw [last, List.foldl_append]
    exact h vs _
  intro vs
  induction vs with
  | nil => intro old; rfl
  | cons v vs ih =>
    intro old
    simp only [last, List.foldl_cons]
    rw [ih, ih (if v.1 = k then some v.2 else none)]
    cases last k vs with
    | some x => rfl
    | none =>
      by_cases hv : v.1 = k
      · simp [hv]
      · simp [hv]

theorem last_cons (k : K) (w : Write K V) (ws : List (Write K V)) :
    last k (w :: ws) = (last k ws).or (if w.1 = k then some w.2 else none) :=
  last_append k [w] ws

variable {ws : List (Write K V)} {k : K}

theorem last_eq_none_iff : last k ws = none ↔ ∀ w ∈ ws, w.1 ≠ k := by
  induction ws with
  | nil => simp [last]
  | cons w ws ih =>
    rw [last_cons, Option.or_eq_none_iff, ih]
    by_cases hw : w.1 = k
    · simp [hw]
    · simp [hw]

/-- **The last write decides.** -/
theorem applyAll_eq_last (m : K → Option V) (ws : List (Write K V)) (k : K) :
    applyAll m ws k = (last k ws).getD (m k) := by
  induction ws generalizing m with
  | nil => rfl
  | cons w ws ih =>
    rw [applyAll_cons, ih, last_cons]
    cases last k ws with
    | some x => rfl
    | none =>
      by_cases hw : w.1 = k
      · simp [apply, hw]
      · simp [apply, hw, Function.update_of_ne (Ne.symm hw)]

theorem applyAll_of_not_written {m : K → Option V} (h : ∀ w ∈ ws, w.1 ≠ k) :
    applyAll m ws k = m k := by
  rw [applyAll_eq_last, last_eq_none_iff.mpr h]
  rfl

/-- The same writes on two maps: at a key that is not written, it is the maps that count. -/
theorem applyAll_congr_iff {m m' : K → Option V} :
    applyAll m ws k = applyAll m' ws k ↔ ((∀ w ∈ ws, w.1 ≠ k) → m k = m' k) := by
  rw [applyAll_eq_last, applyAll_eq_last]
  cases hl : last k ws with
  | some x =>
    refine ⟨fun _ hk => ?_, fun _ => rfl⟩
    rw [last_eq_none_iff.mpr hk] at hl
    exact absurd hl (by simp)
  | none =>
    have hk := last_eq_none_iff.mp hl
    exact ⟨fun he _ => he, fun he => he hk⟩

/-- **Doing all of it again repairs any prefix of it.** -/
theorem applyAll_take (m : K → Option V) (ws : List (Write K V)) (n : Nat) :
    applyAll (applyAll m (ws.take n)) ws = applyAll m ws := by
  funext k
  refine applyAll_congr_iff.mpr fun hk => ?_
  exact applyAll_of_not_written fun w hw => hk w (List.mem_of_mem_take hw)

end Updates
