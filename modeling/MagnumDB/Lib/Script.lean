import MagnumDB.Lib.Prog

/-!
# Programs that call a service

A program that works on the state of a service through calls only. Such a program
does not have the state: it is a tree, with a call at each node and one branch for
every answer. What it does is given by running it with a handler for the calls.

This is what lets one and the same program run on two services and be compared. If
the handlers agree on related states, so does every program (`Script.run_sim`),
whatever it is. In the same way, what no call of a program breaks holds at every
moment of a run (`Script.Obeys.run`).

`Client` adds a state of its own to a program, and failures. Run with a handler it is
a `Prog`, so the rules for weakest preconditions apply to it.
-/

/-- A tree of calls `c : ι` with answers in `ρ c`, and a result at each leaf. -/
inductive Script (ι : Type) (ρ : ι → Type) (α : Type) : Type where
  | done (a : α)
  | call (c : ι) (next : ρ c → Script ι ρ α)

namespace Script

variable {ι : Type} {ρ : ι → Type} {α β τ υ : Type}

/-- Go on with another program at each leaf. -/
def bind (f : α → Script ι ρ β) : Script ι ρ α → Script ι ρ β
  | .done a => f a
  | .call c next => .call c fun r => bind f (next r)

/-- What the program does to a service. -/
def run (h : (c : ι) → τ → ρ c × τ) : Script ι ρ α → τ → α × τ
  | .done a, t => (a, t)
  | .call c next, t => run h (next (h c t).1) (h c t).2

theorem run_bind (h : (c : ι) → τ → ρ c × τ) (f : α → Script ι ρ β) (x : Script ι ρ α) (t : τ) :
    (x.bind f).run h t = (f (x.run h t).1).run h (x.run h t).2 := by
  induction x generalizing t with
  | done a => rfl
  | call c next ih => exact ih (h c t).1 (h c t).2

theorem bind_bind {γ : Type} (x : Script ι ρ α) (f : α → Script ι ρ β) (g : β → Script ι ρ γ) :
    (x.bind f).bind g = x.bind fun a => (f a).bind g := by
  induction x with
  | done a => rfl
  | call c next ih => exact congrArg (Script.call c) (funext ih)

/-! ## What a program relies on and keeps to

A contract: the calls are of a kind `P`, as long as the answers are of the kind `A`. -/

/-- The program keeps to the contract, and its result is one of `Q`. -/
inductive Obeys (P : ι → Prop) (A : (c : ι) → ρ c → Prop) (Q : α → Prop) : Script ι ρ α → Prop where
  | done {a : α} : Q a → Obeys P A Q (.done a)
  | call {c : ι} {next : ρ c → Script ι ρ α} : P c → (∀ r, A c r → Obeys P A Q (next r)) →
      Obeys P A Q (.call c next)

variable {P : ι → Prop} {A : (c : ι) → ρ c → Prop} {Q : α → Prop} {Q' : β → Prop}

variable {x : Script ι ρ α} {h : (c : ι) → τ → ρ c × τ}

theorem Obeys.bind {f : α → Script ι ρ β} (hx : Obeys P A Q x)
    (hf : ∀ a, Q a → Obeys P A Q' (f a)) :
    Obeys P A Q' (x.bind f) := by
  induction hx with
  | done ha => exact hf _ ha
  | call hc _ ih => exact .call hc ih

theorem Obeys.mono {Q' : α → Prop} (hx : Obeys P A Q x) (hQ : ∀ a, Q a → Q' a) :
    Obeys P A Q' x := by
  induction hx with
  | done ha => exact .done (hQ _ ha)
  | call hc _ ih => exact .call hc ih

theorem Obeys.calls {P' : ι → Prop} (hx : Obeys P A Q x) (hP : ∀ c, P c → P' c) :
    Obeys P' A Q x := by
  induction hx with
  | done ha => exact .done ha
  | call hc _ ih => exact .call (hP _ hc) ih

/-- With more that can be relied on. -/
theorem Obeys.answers {A' : (c : ι) → ρ c → Prop} (hx : Obeys P A Q x)
    (hA : ∀ c r, A' c r → A c r) :
    Obeys P A' Q x := by
  induction hx with
  | done ha => exact .done ha
  | call hc _ ih => exact .call hc fun r hr => ih r (hA _ r hr)

theorem Obeys.and {P' : ι → Prop} {Q' : α → Prop} (hx : Obeys P A Q x) (hx' : Obeys P' A Q' x) :
    Obeys (fun c => P c ∧ P' c) A (fun a => Q a ∧ Q' a) x := by
  induction hx with
  | done ha =>
    cases hx' with
    | done ha' => exact .done ⟨ha, ha'⟩
  | call hc _ ih =>
    cases hx' with
    | call hc' hnext' => exact .call ⟨hc, hc'⟩ fun r hr => ih r hr (hnext' r hr)

/-- The states of the service after each of the calls. -/
def trace (h : (c : ι) → τ → ρ c × τ) : Script ι ρ α → τ → List τ
  | .done _, _ => []
  | .call c next, t => (h c t).2 :: trace h (next (h c t).1) (h c t).2

variable {t : τ}

/-- With a service that keeps to its side, what the calls do not break is true at every moment. -/
theorem Obeys.run {I : τ → Prop} (hx : Obeys P A Q x)
    (hI : ∀ c t, P c → I t → A c (h c t).1 ∧ I (h c t).2) (ht : I t) :
    Q (x.run h t).1 ∧ I (x.run h t).2 ∧ ∀ u ∈ x.trace h t, I u := by
  induction hx generalizing t with
  | done ha => exact ⟨ha, ht, fun _ hu => absurd hu List.not_mem_nil⟩
  | @call c next hc _ ih =>
    obtain ⟨hanswer, hstep⟩ := hI c t hc ht
    obtain ⟨hresult, hend, hrest⟩ := ih (h c t).1 hanswer hstep
    refine ⟨hresult, hend, fun u hu => ?_⟩
    rcases List.mem_cons.mp hu with rfl | hu
    · exact hstep
    · exact hrest u hu

/-! ## Two services -/

/-- Each call is made in a state in which it may be made. -/
def Safe (ok : ι → τ → Prop) (h : (c : ι) → τ → ρ c × τ) : Script ι ρ α → τ → Prop
  | .done _, _ => True
  | .call c next, t => ok c t ∧ Safe ok h (next (h c t).1) (h c t).2

theorem Safe.mono {ok ok' : ι → τ → Prop} (hok : ∀ c t, ok c t → ok' c t) :
    ∀ {x : Script ι ρ α} {t : τ}, x.Safe ok h t → x.Safe ok' h t := by
  intro x
  induction x with
  | done a => exact fun _ => trivial
  | call c next ih => exact fun hx => ⟨hok c _ hx.1, ih _ hx.2⟩

/-- A program that keeps to a contract makes only calls that may be made. -/
theorem Obeys.safe {I : τ → Prop} (hx : Obeys P A Q x)
    (hI : ∀ c t, P c → I t → A c (h c t).1 ∧ I (h c t).2) (ht : I t) :
    x.Safe (fun c _ => P c) h t := by
  induction hx generalizing t with
  | done _ => trivial
  | @call c next hc _ ih =>
    obtain ⟨hanswer, hstep⟩ := hI c t hc ht
    exact ⟨hc, ih (h c t).1 hanswer hstep⟩

/-- **Simulation.** If calls that may be made are answered alike and lead to related states, a
program does the same to both services. -/
theorem run_sim {ok : ι → τ → Prop} {R : τ → υ → Prop} {k : (c : ι) → υ → ρ c × υ}
    (hcall : ∀ c t u, R t u → ok c t → (h c t).1 = (k c u).1 ∧ R (h c t).2 (k c u).2)
    (x : Script ι ρ α) {u : υ} (hR : R t u) (hsafe : x.Safe ok h t) :
    (x.run h t).1 = (x.run k u).1 ∧ R (x.run h t).2 (x.run k u).2 := by
  induction x generalizing t u with
  | done a => exact ⟨rfl, hR⟩
  | call c next ih =>
    obtain ⟨hanswer, hrel⟩ := hcall c t u hR hsafe.1
    have hnext := ih (h c t).1 hrel hsafe.2
    rw [run, run, ← hanswer]
    exact hnext

end Script

/-- A program with a state of its own, which survives a failure. -/
def Client (ε σ ι : Type) (ρ : ι → Type) (α : Type) : Type := σ → Script ι ρ (Except ε α × σ)

namespace Client

variable {ε σ ι : Type} {ρ : ι → Type} {α β τ : Type}

protected def pure (a : α) : Client ε σ ι ρ α := fun s => .done (.ok a, s)

protected def bind (x : Client ε σ ι ρ α) (f : α → Client ε σ ι ρ β) : Client ε σ ι ρ β := fun s =>
  (x s).bind fun r =>
    match r with
    | (.ok a, s') => f a s'
    | (.error e, s') => .done (.error e, s')

instance instMonad : Monad (Client ε σ ι ρ) where
  pure := Client.pure
  bind := Client.bind

theorem bind_assoc {γ : Type} (x : Client ε σ ι ρ α) (f : α → Client ε σ ι ρ β)
    (g : β → Client ε σ ι ρ γ) : x >>= f >>= g = x >>= fun a => f a >>= g := by
  funext s
  show ((x s).bind _).bind _ = (x s).bind _
  rw [Script.bind_bind]
  refine congrArg (fun k => (x s).bind k) (funext fun r => ?_)
  obtain ⟨_ | a, s'⟩ := r
  · rfl
  · rfl

def fail (e : ε) : Client ε σ ι ρ α := fun s => .done (.error e, s)

/-- The state of the program. -/
def get : Client ε σ ι ρ σ := fun s => .done (.ok s, s)

def modify (f : σ → σ) : Client ε σ ι ρ Unit := fun s => .done (.ok (), f s)

def lift (x : Except ε α) : Client ε σ ι ρ α := fun s => .done (x, s)

/-- Make a call, and return what `f` makes of the answer. -/
def ask (c : ι) (f : ρ c → Except ε α) : Client ε σ ι ρ α := fun s =>
  .call c fun r => .done (f r, s)

/-- Go on after a failure, with the result as a value. -/
def attempt (x : Client ε σ ι ρ α) : Client ε σ ι ρ (Except ε α) := fun s =>
  (x s).bind fun r => .done (.ok r.1, r.2)

/-- Do something for each element; a failure ends the loop. -/
def forEach (f : α → Client ε σ ι ρ Unit) : List α → Client ε σ ι ρ Unit
  | [] => pure ()
  | a :: as => f a >>= fun _ => forEach f as

/-- Run with a handler for the calls. -/
def run (h : (c : ι) → τ → ρ c × τ) (x : Client ε σ ι ρ α) : Prog ε (σ × τ) α := fun st =>
  let r := (x st.1).run h st.2
  (r.1.1, (r.1.2, r.2))

variable (h : (c : ι) → τ → ρ c × τ)

theorem run_bind (x : Client ε σ ι ρ α) (f : α → Client ε σ ι ρ β) :
    (x >>= f).run h = x.run h >>= fun a => (f a).run h := by
  funext st
  obtain ⟨s, t⟩ := st
  show (let r := ((Client.bind x f) s).run h t; (r.1.1, (r.1.2, r.2))) = _
  unfold Client.bind
  rw [Script.run_bind]
  generalize hr : (x s).run h t = r
  obtain ⟨⟨v, s'⟩, t'⟩ := r
  cases v with
  | ok a =>
    have hx : x.run h (s, t) = (.ok a, (s', t')) := by unfold run; rw [hr]
    rw [Prog.bind_of_ok hx]
    rfl
  | error e =>
    have hx : x.run h (s, t) = (.error e, (s', t')) := by unfold run; rw [hr]
    rw [Prog.bind_of_error hx]
    rfl

theorem run_attempt (x : Client ε σ ι ρ α) (st : σ × τ) :
    x.attempt.run h st = (.ok (x.run h st).1, (x.run h st).2) := by
  obtain ⟨s, t⟩ := st
  unfold attempt run
  rw [Script.run_bind]
  rfl

/-! ## Contracts of clients -/

/-- From each state of its own in `I`, the program keeps to the contract and is in `I` at the end;
what it returns is in `Q`. -/
def Obeys (P : ι → Prop) (A : (c : ι) → ρ c → Prop) (I : σ → Prop) (x : Client ε σ ι ρ α)
    (Q : α → Prop) : Prop :=
  ∀ s, I s → (x s).Obeys P A fun r => I r.2 ∧ ∀ a, r.1 = .ok a → Q a

variable {P : ι → Prop} {A : (c : ι) → ρ c → Prop} {I : σ → Prop} {Q : α → Prop} {Q' : β → Prop}

theorem Obeys.pure {a : α} (ha : Q a) : Obeys P A I (pure a : Client ε σ ι ρ α) Q :=
  fun _ hs => .done ⟨hs, fun _ he => Except.ok.inj he ▸ ha⟩

theorem Obeys.fail (e : ε) : Obeys P A I (fail e : Client ε σ ι ρ α) Q :=
  fun _ hs => .done ⟨hs, nofun⟩

theorem Obeys.lift {x : Except ε α} (hx : ∀ a, x = .ok a → Q a) :
    Obeys P A I (lift x : Client ε σ ι ρ α) Q :=
  fun _ hs => .done ⟨hs, hx⟩

theorem Obeys.get : Obeys P A I (get : Client ε σ ι ρ σ) I :=
  fun _ hs => .done ⟨hs, fun _ he => Except.ok.inj he ▸ hs⟩

theorem Obeys.modify {f : σ → σ} (hf : ∀ s, I s → I (f s)) :
    Obeys P A I (modify f : Client ε σ ι ρ Unit) fun _ => True :=
  fun s hs => .done ⟨hf s hs, fun _ _ => trivial⟩

theorem Obeys.ask {c : ι} {f : ρ c → Except ε α} (hc : P c) (hf : ∀ r, A c r → ∀ a, f r = .ok a → Q a) :
    Obeys P A I (ask c f : Client ε σ ι ρ α) Q :=
  fun _ hs => .call hc fun r hr => .done ⟨hs, hf r hr⟩

theorem Obeys.bind {x : Client ε σ ι ρ α} {f : α → Client ε σ ι ρ β} (hx : Obeys P A I x Q)
    (hf : ∀ a, Q a → Obeys P A I (f a) Q') : Obeys P A I (x >>= f) Q' := by
  intro s hs
  refine (hx s hs).bind fun r hr => ?_
  obtain ⟨v, s'⟩ := r
  cases v with
  | ok a => exact hf a (hr.2 a rfl) s' hr.1
  | error e => exact .done ⟨hr.1, nofun⟩

theorem Obeys.forEach {f : α → Client ε σ ι ρ Unit} {as : List α}
    (hf : ∀ a ∈ as, Obeys P A I (f a) fun _ => True) : Obeys P A I (forEach f as) fun _ => True := by
  induction as with
  | nil => exact .pure trivial
  | cons a as ih =>
    exact (hf a List.mem_cons_self).bind fun _ _ =>
      ih fun b hb => hf b (List.mem_cons_of_mem a hb)

theorem Obeys.mono {Q' : α → Prop} {x : Client ε σ ι ρ α} (hx : Obeys P A I x Q)
    (hQ : ∀ a, Q a → Q' a) : Obeys P A I x Q' :=
  fun s hs => (hx s hs).mono fun _ hr => ⟨hr.1, fun a he => hQ a (hr.2 a he)⟩

theorem Obeys.and {P' : ι → Prop} {I' : σ → Prop} {Q' : α → Prop} {x : Client ε σ ι ρ α}
    (hx : Obeys P A I x Q) (hx' : Obeys P' A I' x Q') :
    Obeys (fun c => P c ∧ P' c) A (fun s => I s ∧ I' s) x fun a => Q a ∧ Q' a :=
  fun s hs => ((hx s hs.1).and (hx' s hs.2)).mono fun _ hr =>
    ⟨⟨hr.1.1, hr.2.1⟩, fun a he => ⟨hr.1.2 a he, hr.2.2 a he⟩⟩

theorem Obeys.answers {A' : (c : ι) → ρ c → Prop} {x : Client ε σ ι ρ α} (hx : Obeys P A I x Q)
    (hA : ∀ c r, A' c r → A c r) : Obeys P A' I x Q :=
  fun s hs => (hx s hs).answers hA

/-- A program that goes on after a failure always does. -/
theorem attempt_bind_obeys {x : Client ε σ ι ρ α} {f : Except ε α → Client ε σ ι ρ β} {s : σ}
    {K : σ → Prop} {R : Except ε β × σ → Prop} (hx : (x s).Obeys P A fun r => K r.2)
    (hf : ∀ v s', K s' → (f v s').Obeys P A R) : ((x.attempt >>= f) s).Obeys P A R := by
  have hgoes : (x.attempt s).Obeys P A fun r => K r.2 ∧ ∃ v, r.1 = .ok v :=
    hx.bind fun _ hr => .done ⟨hr, _, rfl⟩
  refine hgoes.bind fun r hr => ?_
  obtain ⟨_, s'⟩ := r
  obtain ⟨hK, v, rfl⟩ := hr
  exact hf v s' hK

/-! ## Weakest preconditions -/

variable {h} {st : σ × τ} {E : ε → σ × τ → Prop}

end Client
