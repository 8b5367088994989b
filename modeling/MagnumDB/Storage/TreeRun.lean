import MagnumDB.Storage.TreeCalls

/-!
# Runs of the tree

A run is a list of calls made one after the other on a tree over the buffer pool,
each with as much fuel as it needs. `SafeRun` says that every call of a run finds
the tree in a state in which it works. Both can be decided on concrete runs, by
`evalRun` and `checkRun`, once a fuel is found that is enough.
-/

namespace MagnumDB

open Prog

/-- The calls of the tree. -/
inductive TreeOp where
  | insert (key value : Bytes)
  | delete (key : Bytes)
  | search (key : Bytes)

namespace TreeOp

/-- The call on a page store. Only a search returns something. -/
def exec {σ : Type} (S : PageStore σ) (op : TreeOp) (fuel : Nat) :
    Prog Fail (BTree σ) (Option Bytes) :=
  match op with
  | .insert key value => BTree.insert S fuel key value >>= fun _ => pure none
  | .delete key => BTree.delete S fuel key >>= fun _ => pure none
  | .search key => BTree.search S fuel key

/-- The state of the tree is one in which the call works. -/
def Ok (strict : Bool) : TreeOp → BTree BufferPool → Prop
  | .insert key value, t => key.length ≤ maxKeySize →
      isOverflowHandle value = false ∧ BTree.InsertOk strict key value t
  | .delete key, t => BTree.DeleteOk strict key t
  | .search key, t => Calm (fun n => BTree.search (guardedPool strict) n key) t

/-- The same, decided with the given fuel. -/
def check (strict : Bool) (fuel : Nat) (op : TreeOp) (t : BTree BufferPool) : Bool :=
  let pages := t.bufferPool.pager.numPages.toNat
  let runs := ((op.exec (guardedPool strict) fuel) t).1.isOk
  match op with
  | .insert key value => decide (maxKeySize < key.length) ||
      (!isOverflowHandle value && insertFits t.bufferPool.view pages t.rootPageId key value && runs)
  | .delete key => deleteKeeps t.bufferPool.view pages t.rootPageId key && runs
  | .search _ => runs

theorem exec_agrees {σ : Type} {S S' : PageStore σ} (hS : S.Agrees S') (op : TreeOp) {n m : Nat}
    (h : n ≤ m) : Upto GaveUp (op.exec S n) (op.exec S' m) := by
  cases op with
  | insert key value => exact .bind (BTree.insert_agrees hS h key value) (fun _ => .refl _)
  | delete key => exact .bind (BTree.delete_agrees hS h key) (fun _ => .refl _)
  | search key => exact BTree.search_agrees hS h key

end TreeOp

/-- The calls are made one after the other, with these results. -/
inductive Runs : List TreeOp → BTree BufferPool → List (Except Fail (Option Bytes)) →
    BTree BufferPool → Prop where
  | nil (t : BTree BufferPool) : Runs [] t [] t
  | cons {op : TreeOp} {ops : List TreeOp} {t t₁ t₂ : BTree BufferPool}
      {r : Except Fail (Option Bytes)} {rs : List (Except Fail (Option Bytes))} :
      Ends (op.exec BufferPool.store) t (r, t₁) → Runs ops t₁ rs t₂ → Runs (op :: ops) t (r :: rs) t₂

/-- Every call finds the tree in a state in which it works. -/
def SafeRun (strict : Bool) : List TreeOp → BTree BufferPool → Prop
  | [], _ => True
  | op :: ops, t => op.Ok strict t ∧
      ∀ r t', Ends (op.exec BufferPool.store) t (r, t') → SafeRun strict ops t'

variable {α : Type}

theorem ends_bind_pure {σ β : Type} {x : Nat → Prog Fail σ α} {s s' : σ} {a : α} (b : β)
    (h : Ends x s (.ok a, s')) : Ends (fun n => x n >>= fun _ => pure b) s (.ok b, s') := by
  obtain ⟨n, hn⟩ := h
  exact ⟨n, fun m hm => bind_of_ok (hn m hm)⟩

theorem ends_bind_error {σ β : Type} {x : Nat → Prog Fail σ α} {s s' : σ} {e : Fail}
    (f : α → Prog Fail σ β) (h : Ends x s (.error e, s')) :
    Ends (fun n => x n >>= f) s (.error e, s') := by
  obtain ⟨n, hn⟩ := h
  exact ⟨n, fun m hm => bind_of_error (hn m hm)⟩

/-! ## Deciding concrete runs -/

/-- Make the calls, each with the given fuel. -/
def evalRun (fuel : Nat) : List TreeOp → BTree BufferPool →
    List (Except Fail (Option Bytes)) × BTree BufferPool
  | [], t => ([], t)
  | op :: ops, t =>
    let r := op.exec BufferPool.store fuel t
    let rest := evalRun fuel ops r.2
    (r.1 :: rest.1, rest.2)

/-- The call came to an end. -/
def finished {α : Type} : Except Fail α → Bool
  | .error .outOfFuel => false
  | .error .stopped => false
  | _ => true

variable {t : BTree BufferPool} {fuel : Nat}

theorem ends_of_finished {x : Nat → Prog Fail (BTree BufferPool) α}
    (hx : ∀ {n m}, n ≤ m → Upto GaveUp (x n) (x m)) (h : finished (x fuel t).1) :
    Ends x t (x fuel t) := by
  refine Ends.of_run hx (fun e he hr => ?_)
  rw [hr] at h
  rcases he with rfl | rfl <;> exact absurd h (by simp [finished])

theorem ends_of_ok {x : Nat → Prog Fail (BTree BufferPool) α}
    (hx : ∀ {n m}, n ≤ m → Upto GaveUp (x n) (x m)) {a : α} (h : (x fuel t).1 = .ok a) :
    ∃ t', Ends x t (.ok a, t') :=
  ⟨_, Ends.of_ok hx (Prod.ext h rfl)⟩

theorem runs_of_eval : ∀ {ops : List TreeOp} {t : BTree BufferPool},
    (evalRun fuel ops t).1.all finished →
    Runs ops t (evalRun fuel ops t).1 (evalRun fuel ops t).2
  | [], t, _ => .nil t
  | op :: ops, t, h => by
    rw [evalRun, List.all_cons, Bool.and_eq_true] at h
    exact .cons (ends_of_finished (op.exec_agrees (.refl _)) h.1) (runs_of_eval h.2)

/-- Check every call with the given fuel, and that none is refused. -/
def checkRun (strict : Bool) (fuel : Nat) : List TreeOp → BTree BufferPool → Bool
  | [], _ => true
  | op :: ops, t =>
    let r := op.exec BufferPool.store fuel t
    op.check strict fuel t && finished r.1 && checkRun strict fuel ops r.2

theorem finished_of_isOk {x : Except Fail α} (h : x.isOk) : finished x := by
  cases x with
  | ok a => rfl
  | error e => exact absurd h (by simp [Except.isOk, Except.toBool])

theorem runs_of_eval_ok {ops : List TreeOp}
    {r : List (Except Fail (Option Bytes)) × BTree BufferPool} (hr : evalRun fuel ops t = r)
    (hok : r.1.all Except.isOk) : Runs ops t r.1 r.2 ∧ ∀ x ∈ r.1, x.isOk := by
  subst hr
  have hall := List.all_eq_true.mp hok
  exact ⟨runs_of_eval (List.all_eq_true.mpr (fun x hx => finished_of_isOk (hall x hx))), hall⟩

theorem isOk_iff {x : Except Fail α} : x.isOk ↔ ∃ a, x = .ok a := by
  cases x with
  | ok a => exact ⟨fun _ => ⟨a, rfl⟩, fun _ => rfl⟩
  | error e => exact ⟨fun h => absurd h (by simp [Except.isOk, Except.toBool]),
      fun ⟨a, h⟩ => absurd h (by simp)⟩

theorem eq_ok_of_toOption {x : Except Fail α} {a : α} (h : x.toOption = some a) : x = .ok a := by
  cases x with
  | ok b => exact congrArg Except.ok (Option.some.inj h)
  | error e => exact nomatch h

theorem ok_of_bind_pure {β : Type} {x : Prog Fail (BTree BufferPool) α} {b : β} {r : β}
    (h : ((x >>= fun _ => pure b) t).1 = .ok r) : ∃ a, (x t).1 = .ok a := by
  match hx : x t with
  | (.ok a, t') => exact ⟨a, rfl⟩
  | (.error e, t') => rw [bind_of_error hx] at h; exact absurd h (by simp)

theorem TreeOp.ok_of_check {strict : Bool} {op : TreeOp} (h : op.check strict fuel t) :
    op.Ok strict t := by
  cases op with
  | insert key value =>
    intro hkey
    simp only [check, Bool.or_eq_true, decide_eq_true_eq, Nat.not_lt.mpr hkey, false_or,
      Bool.and_eq_true, Bool.not_eq_true', isOk_iff] at h
    obtain ⟨⟨hv, hfits⟩, r, hr⟩ := h
    obtain ⟨a, ha⟩ := ok_of_bind_pure hr
    exact ⟨hv, hfits, calm_of_ok (fun hnm => BTree.insert_agrees (.refl _) hnm key value) ha⟩
  | delete key =>
    simp only [check, Bool.and_eq_true, isOk_iff] at h
    obtain ⟨hkeep, r, hr⟩ := h
    obtain ⟨a, ha⟩ := ok_of_bind_pure hr
    exact ⟨hkeep, calm_of_ok (fun hnm => BTree.delete_agrees (.refl _) hnm key) ha⟩
  | search key =>
    simp only [check, isOk_iff] at h
    obtain ⟨r, hr⟩ := h
    exact calm_of_ok (fun hnm => BTree.search_agrees (.refl _) hnm key) hr

theorem safeRun_of_check {strict : Bool} : ∀ {ops : List TreeOp}
    {t : BTree BufferPool}, checkRun strict fuel ops t → SafeRun strict ops t
  | [], _, _ => trivial
  | op :: ops, t, h => by
    rw [checkRun, Bool.and_eq_true, Bool.and_eq_true] at h
    obtain ⟨⟨hop, hfin⟩, hrest⟩ := h
    refine ⟨TreeOp.ok_of_check hop, fun r t' hends => ?_⟩
    have hsame := hends.unique (ends_of_finished (op.exec_agrees (.refl _)) hfin)
    have hst : t' = (op.exec BufferPool.store fuel t).2 := congrArg Prod.snd hsame
    rw [hst]
    exact safeRun_of_check hrest

end MagnumDB
