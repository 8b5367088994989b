import Mathlib.Tactic.Basic
import Mathlib.Logic.Basic

/-!
# Programs with state and failure

A program takes a state and either returns a value or stops with a failure. The
state it had reached survives in both cases: a failed call does not undo what it
had already done.

Two reasoning tools are developed here. `wp` says what must hold of the start
state for a run to end in a given postcondition, with a second postcondition for
runs that fail; there is one rule for each way of building a program. `Upto`
compares two programs that do the same thing except that the first may give up
earlier, with a failure from a given class. It is what removes a fuel bound (the
class is "ran out of fuel") and what removes a monitor (the class is "stopped by
the monitor").
-/

theorem Except.bind_of_ok {ε α β : Type} {x : Except ε α} {f : α → Except ε β} {a : α}
    (h : x = .ok a) : (x >>= f) = f a := by
  subst h; rfl

theorem Except.of_bind_eq_ok {ε α β : Type} {x : Except ε α} {f : α → Except ε β} {b : β}
    (h : (x >>= f) = .ok b) : ∃ a, x = .ok a ∧ f a = .ok b := by
  cases x with
  | error e => exact nomatch h
  | ok a => exact ⟨a, rfl, h⟩

/-- A program over state `σ` returning `α`, or failing with `ε`. -/
def Prog (ε σ α : Type) : Type := σ → Except ε α × σ

namespace Prog

variable {ε σ τ α β γ : Type}

/-- Return a value, leave the state alone. -/
protected def pure (a : α) : Prog ε σ α := fun s => (.ok a, s)

/-- Run `x`; if it returns, go on with `f` in the state it reached. -/
protected def bind (x : Prog ε σ α) (f : α → Prog ε σ β) : Prog ε σ β := fun s =>
  match x s with
  | (.ok a, s') => f a s'
  | (.error e, s') => (.error e, s')

instance : Monad (Prog ε σ) where
  pure := Prog.pure
  bind := Prog.bind

/-- Stop with a failure. -/
def fail (e : ε) : Prog ε σ α := fun s => (.error e, s)

/-- The current state. -/
def get : Prog ε σ σ := fun s => (.ok s, s)

/-- Change the state. -/
def modify (f : σ → σ) : Prog ε σ Unit := fun s => (.ok (), f s)

/-- A computation that does not touch the state. -/
def lift (x : Except ε α) : Prog ε σ α := fun s => (x, s)

/-- Run a program on a part of the state. -/
def zoom (proj : τ → σ) (put : σ → τ → τ) (x : Prog ε σ α) : Prog ε τ α := fun t =>
  let r := x (proj t)
  (r.1, put r.2 t)

theorem bind_def (x : Prog ε σ α) (f : α → Prog ε σ β) : (x >>= f) = Prog.bind x f := rfl

theorem pure_def (a : α) : (pure a : Prog ε σ α) = Prog.pure a := rfl

variable {f : α → Prog ε σ β} {a : α} {e : ε}

theorem bind_of_ok {x : Prog ε σ α} {s s' : σ} (h : x s = (.ok a, s')) : (x >>= f) s = f a s' := by
  show Prog.bind x f s = _
  unfold Prog.bind
  rw [h]

theorem bind_of_error {x : Prog ε σ α} {s s' : σ} (h : x s = (.error e, s')) :
    (x >>= f) s = (.error e, s') := by
  show Prog.bind x f s = _
  unfold Prog.bind
  rw [h]

theorem bind_assoc (x : Prog ε σ α) (f : α → Prog ε σ β) (g : β → Prog ε σ γ) :
    (x >>= f >>= g) = (x >>= fun a => f a >>= g) := by
  funext s
  match hx : x s with
  | (.ok a, s') =>
    rw [bind_of_ok (x := x) hx]
    match hf : f a s' with
    | (.ok b, s'') => rw [bind_of_ok hf, bind_of_ok ((bind_of_ok hx).trans hf)]
    | (.error e, s'') => rw [bind_of_error hf, bind_of_error ((bind_of_ok hx).trans hf)]
  | (.error e, s') => rw [bind_of_error (x := x) hx, bind_of_error (bind_of_error hx)]

/-! ## Weakest preconditions -/

/-- Run from `s`, `x` either returns into `Q` or fails into `E`. -/
def wp (x : Prog ε σ α) (s : σ) (Q : α → σ → Prop) (E : ε → σ → Prop) : Prop :=
  match x s with
  | (.ok a, s') => Q a s'
  | (.error e, s') => E e s'

variable {x : Prog ε σ α} {s s' : σ} {Q Q' : α → σ → Prop} {E E' : ε → σ → Prop}

theorem wp_of_ok (h : x s = (.ok a, s')) (hq : Q a s') : x.wp s Q E := by
  unfold wp; rw [h]; exact hq

theorem wp_of_error (h : x s = (.error e, s')) (he : E e s') : x.wp s Q E := by
  unfold wp; rw [h]; exact he

theorem wp_ok (h : x.wp s Q E) (hx : x s = (.ok a, s')) : Q a s' := by
  unfold wp at h; rw [hx] at h; exact h

theorem wp_error (h : x.wp s Q E) (hx : x s = (.error e, s')) : E e s' := by
  unfold wp at h; rw [hx] at h; exact h

/-- The two ways a run that satisfies a `wp` can end. -/
theorem wp_cases (h : x.wp s Q E) :
    (∃ a s', x s = (.ok a, s') ∧ Q a s') ∨ (∃ e s', x s = (.error e, s') ∧ E e s') := by
  unfold wp at h
  match hx : x s with
  | (.ok a, s') => rw [hx] at h; exact Or.inl ⟨a, s', rfl, h⟩
  | (.error e, s') => rw [hx] at h; exact Or.inr ⟨e, s', rfl, h⟩

theorem wp_mono (h : x.wp s Q E) (hQ : ∀ a s', Q a s' → Q' a s')
    (hE : ∀ e s', E e s' → E' e s') : x.wp s Q' E' := by
  rcases wp_cases h with ⟨a, s', hx, hq⟩ | ⟨e, s', hx, he⟩
  · exact wp_of_ok hx (hQ a s' hq)
  · exact wp_of_error hx (hE e s' he)

/-- Two postconditions of the same run can be joined. -/
theorem wp_and (h : x.wp s Q E) (h' : x.wp s Q' E') :
    x.wp s (fun a s' => Q a s' ∧ Q' a s') (fun e s' => E e s' ∧ E' e s') := by
  rcases wp_cases h with ⟨a, s', hx, hq⟩ | ⟨e, s', hx, he⟩
  · exact wp_of_ok hx ⟨hq, wp_ok h' hx⟩
  · exact wp_of_error hx ⟨he, wp_error h' hx⟩

theorem wp_pure (h : Q a s) : (pure a : Prog ε σ α).wp s Q E := h

theorem wp_get {Q : σ → σ → Prop} (h : Q s s) : (get : Prog ε σ σ).wp s Q E := h

theorem wp_modify {f : σ → σ} {Q : Unit → σ → Prop} (h : Q () (f s)) :
    (modify f : Prog ε σ Unit).wp s Q E := h

theorem wp_bind {R : β → σ → Prop} (h : x.wp s (fun a s' => (f a).wp s' R E) E) :
    (x >>= f).wp s R E := by
  rcases wp_cases h with ⟨a, s', hx, hq⟩ | ⟨e, s', hx, he⟩
  · unfold wp at hq ⊢; rw [bind_of_ok hx]; exact hq
  · exact wp_of_error (bind_of_error hx) he

theorem wp_seq {R : β → σ → Prop} (h : x.wp s Q E) (hf : ∀ a s', Q a s' → (f a).wp s' R E')
    (hE : ∀ e s', E e s' → E' e s') : (x >>= f).wp s R E' :=
  wp_bind (wp_mono h hf hE)

theorem wp_lift_ok {y : Except ε α} (hy : y = .ok a) (h : Q a s) :
    (lift y : Prog ε σ α).wp s Q E := by
  subst hy; exact h

theorem wp_lift_error {y : Except ε α} (hy : y = .error e) (h : E e s) :
    (lift y : Prog ε σ α).wp s Q E := by
  subst hy; exact h

/-- Running on a part of the state: the rest of it is carried along. -/
theorem wp_zoom {proj : τ → σ} {put : σ → τ → τ} {t : τ} {R : α → τ → Prop} {F : ε → τ → Prop}
    (h : x.wp (proj t) (fun a s' => R a (put s' t)) (fun e s' => F e (put s' t))) :
    (zoom proj put x).wp t R F := by
  rcases wp_cases h with ⟨a, s', hx, hq⟩ | ⟨e, s', hx, he⟩
  · refine wp_of_ok ?_ hq
    unfold zoom; rw [hx]
  · refine wp_of_error ?_ he
    unfold zoom; rw [hx]

/-! ## Simulation up to giving up -/

/-- From related states, `x` and `y` end alike and in related states, or `x` fails with a
failure of the class `C`. -/
def Sim (R : σ → τ → Prop) (C : ε → Prop) (x : Prog ε σ α) (y : Prog ε τ α) : Prop :=
  ∀ s t, R s t → (∃ e, C e ∧ (x s).1 = .error e) ∨ ((x s).1 = (y t).1 ∧ R (x s).2 (y t).2)

variable {R : σ → τ → Prop} {C : ε → Prop}

/-- A program that does not look at its state: `pure`, `fail` and `lift`. -/
theorem Sim.const (r : Except ε α) :
    Sim R C (fun s => (r, s) : Prog ε σ α) (fun t => (r, t) : Prog ε τ α) :=
  fun _ _ h => Or.inr ⟨rfl, h⟩

/-- A program that only ever gives up is simulated by anything. -/
theorem Sim.of_fail (he : C e) (y : Prog ε τ α) : Sim R C (fail e : Prog ε σ α) y :=
  fun _ _ _ => Or.inl ⟨e, he, rfl⟩

theorem Sim.bind {x : Prog ε σ α} {y : Prog ε τ α} {g : α → Prog ε τ β} (h : Sim R C x y)
    (hf : ∀ a, Sim R C (f a) (g a)) : Sim R C (x >>= f) (y >>= g) := by
  intro s t hR
  match hx : x s with
  | (.ok a, s') =>
    rcases h s t hR with ⟨e, _, he⟩ | ⟨he, hR'⟩
    · rw [hx] at he; exact absurd he (by simp)
    · rw [hx] at he hR'
      have hy : y t = (.ok a, (y t).2) := Prod.ext he.symm rfl
      rw [bind_of_ok hx, bind_of_ok hy]
      exact hf a s' _ hR'
  | (.error e, s') =>
    rw [bind_of_error hx]
    rcases h s t hR with ⟨e', hc, he⟩ | ⟨he, hR'⟩
    · rw [hx] at he; injection he with he; subst he
      exact Or.inl ⟨e, hc, rfl⟩
    · rw [hx] at he hR'
      have hy : y t = (.error e, (y t).2) := Prod.ext he.symm rfl
      rw [bind_of_error hy]
      exact Or.inr ⟨rfl, hR'⟩

theorem Sim.ite {c : Prop} [Decidable c] {x x' : Prog ε σ α} {y y' : Prog ε τ α} (h : Sim R C x y)
    (h' : Sim R C x' y') : Sim R C (if c then x else x') (if c then y else y') := by
  by_cases hc : c
  · rwa [if_pos hc, if_pos hc]
  · rwa [if_neg hc, if_neg hc]

/-- `x` behaves as `y`, or fails with a failure of the class `C`. -/
abbrev Upto (C : ε → Prop) (x y : Prog ε σ α) : Prop := Sim Eq C x y

theorem Sim.refl (x : Prog ε σ α) : Sim Eq C x x := by
  intro s t h
  subst h
  exact Or.inr ⟨rfl, rfl⟩

/-- A run of the left program that did not give up is a run of the right one. -/
theorem Sim.eq_of_not {x y : Prog ε σ α} (h : Upto C x y) {s : σ}
    (hn : ∀ e, C e → (x s).1 ≠ .error e) : x s = y s := by
  rcases h s s rfl with ⟨e, hc, he⟩ | ⟨h₁, h₂⟩
  · exact absurd he (hn e hc)
  · exact Prod.ext h₁ h₂

/-- What the right program returns into, the left one does, if it returns. -/
theorem wp_of_upto {x y : Prog ε σ α} {Q : α → σ → Prop} {E : ε → σ → Prop} {s : σ} (h : Upto C x y)
    (hy : y.wp s Q E) : x.wp s Q (fun _ _ => True) := by
  generalize hrun : x s = r
  obtain ⟨o, s'⟩ := r
  cases o with
  | error e => exact wp_of_error hrun trivial
  | ok a =>
    have hsame : x s = y s := h.eq_of_not (fun e _ he => by rw [hrun] at he; exact nomatch he)
    exact wp_of_ok hrun (wp_ok hy (hsame.symm.trans hrun))

/-! ## Programs with fuel -/

/-- Induction on the smaller one of two amounts of fuel. -/
theorem fuel_induction {motive : (n m : Nat) → n ≤ m → Prop} (zero : ∀ m, motive 0 m m.zero_le)
    (succ : ∀ n m (h : n ≤ m), motive n m h → motive (n + 1) (m + 1) (Nat.succ_le_succ h)) {n m : Nat}
    (h : n ≤ m) : motive n m h := by
  induction n generalizing m with
  | zero => exact zero m
  | succ n ih =>
    cases m with
    | zero => exact absurd h (Nat.not_succ_le_zero n)
    | succ m => exact succ n m (Nat.le_of_succ_le_succ h) (ih _)

/-- With enough fuel, the program ends this way. -/
def Ends (x : Nat → Prog ε σ α) (s : σ) (r : Except ε α × σ) : Prop :=
  ∃ n, ∀ m, n ≤ m → x m s = r

theorem Ends.unique {x : Nat → Prog ε σ α} {r r' : Except ε α × σ} (h : Ends x s r)
    (h' : Ends x s r') : r = r' := by
  obtain ⟨n, hn⟩ := h
  obtain ⟨n', hn'⟩ := h'
  exact (hn _ (Nat.le_max_left n n')).symm.trans (hn' _ (Nat.le_max_right n n'))

/-- One program after another: the second one starts where the first one ended. -/
theorem Ends.bind {x : Nat → Prog ε σ α} {f : Nat → α → Prog ε σ β} {r : Except ε β × σ}
    (hx : Ends x s (.ok a, s')) (hf : Ends (fun n => f n a) s' r) :
    Ends (fun n => x n >>= f n) s r := by
  obtain ⟨n, hn⟩ := hx
  obtain ⟨k, hk⟩ := hf
  refine ⟨max n k, fun m hm => ?_⟩
  have hfirst := hn m (Nat.le_trans (Nat.le_max_left n k) hm)
  exact (bind_of_ok hfirst).trans (hk m (Nat.le_trans (Nat.le_max_right n k) hm))

/-- Something done afterwards that cannot fail and changes nothing. -/
theorem Ends.of_bind_pure {x : Nat → Prog ε σ α} {b : β} {r : Except ε β × σ}
    (h : Ends (fun n => x n >>= fun _ => pure b) s r) :
    ∃ n, ∀ m, n ≤ m → (x m s).2 = r.2 ∧ ((x m s).1.map fun _ => b) = r.1 := by
  obtain ⟨n, hn⟩ := h
  refine ⟨n, fun m hm => ?_⟩
  have hrun : (x m >>= fun _ => pure b) s = r := hn m hm
  match hx : x m s with
  | (.ok a, s') =>
    rw [bind_of_ok hx] at hrun
    rw [← hrun]
    exact ⟨rfl, rfl⟩
  | (.error e, s') =>
    rw [bind_of_error hx] at hrun
    rw [← hrun]
    exact ⟨rfl, rfl⟩

/-- A program that agrees with more and more fuel ends as any one run of it does that did not
give up. -/
theorem Ends.of_run {x y : Nat → Prog ε σ α} (hxy : ∀ {n m}, n ≤ m → Upto C (x n) (y m)) {n : Nat}
    (h : ∀ e, C e → (x n s).1 ≠ .error e) : Ends y s (x n s) :=
  ⟨n, fun _ hm => ((hxy hm).eq_of_not h).symm⟩

theorem Ends.of_ok {x y : Nat → Prog ε σ α} (hxy : ∀ {n m}, n ≤ m → Upto C (x n) (y m)) {n : Nat}
    (h : x n s = (.ok a, s')) : Ends y s (.ok a, s') := by
  rw [← h]
  exact Ends.of_run hxy (fun e _ he => by rw [h] at he; exact absurd he (by simp))

/-! ## Failures that do not happen -/

/-- No run fails with `e`. -/
def Avoids (e : ε) (x : Prog ε σ α) : Prop := ∀ s, (x s).1 ≠ .error e

section

variable {e : ε}

theorem avoids_pure (a : α) : Avoids e (pure a : Prog ε σ α) := fun _ he => nomatch he

theorem avoids_fail {e' : ε} (hne : e' ≠ e) : Avoids e (fail e' : Prog ε σ α) :=
  fun _ he => hne (Except.error.inj he)

theorem avoids_get : Avoids e (get : Prog ε σ σ) := fun _ he => nomatch he

theorem avoids_lift {y : Except ε α} (hy : y ≠ .error e) : Avoids e (lift y : Prog ε σ α) := fun _ => hy

theorem Avoids.bind {x : Prog ε σ α} {f : α → Prog ε σ β} (hx : Avoids e x) (hf : ∀ a, Avoids e (f a)) :
    Avoids e (x >>= f) := by
  intro s
  generalize hrun : x s = r
  obtain ⟨v, s'⟩ := r
  cases v with
  | ok a =>
    rw [bind_of_ok hrun]
    exact hf a s'
  | error e' =>
    rw [bind_of_error hrun]
    intro he
    have hne := hx s
    rw [hrun, Except.error.inj he] at hne
    exact hne rfl

theorem Avoids.ite {c : Prop} [Decidable c] {x y : Prog ε σ α} (hx : Avoids e x) (hy : Avoids e y) :
    Avoids e (if c then x else y) := by
  split
  · exact hx
  · exact hy

theorem Avoids.zoom {proj : τ → σ} {put : σ → τ → τ} {x : Prog ε σ α} (hx : Avoids e x) :
    Avoids e (zoom proj put x) := fun t => hx (proj t)

/-- A run that can only fail in a way that it avoids returns. -/
theorem Avoids.returns {x : Prog ε σ α} {Q : α → σ → Prop} {E : ε → σ → Prop} (hx : Avoids e x)
    (hwp : x.wp s Q E) (hE : ∀ e' s', E e' s' → e' = e) : ∃ a s', x s = (.ok a, s') ∧ Q a s' := by
  rcases wp_cases hwp with hok | ⟨e', s', hrun, he⟩
  · exact hok
  · have hne := hx s
    rw [hrun, hE e' s' he] at hne
    exact absurd rfl hne

end

end Prog
