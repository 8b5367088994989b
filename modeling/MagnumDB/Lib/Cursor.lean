import MagnumDB.Lib.Prog

/-!
# Cursors

A cursor is a program that is called again and again: each call gives the next element,
or nothing once there is none left. What a cursor yields from a state is a list; a loop
over a cursor is a fold over that list.
-/

namespace Cursor

open Prog

variable {ε σ τ α β : Type}

/-- From the state, the calls give these elements one after another, and nothing from then on. -/
def Yields (next : Nat → Prog ε σ (Option α)) : List α → σ → Prop
  | [], s => ∃ s', Ends next s (.ok none, s') ∧ Ends next s' (.ok none, s')
  | a :: as, s => ∃ s', Ends next s (.ok (some a), s') ∧ Yields next as s'

/-- Some calls one after another. -/
def reads (next : Prog ε σ (Option α)) : Nat → Prog ε σ (List (Option α))
  | 0 => pure []
  | n + 1 => do
    let r ← next
    let rs ← reads next n
    pure (r :: rs)

/-- What some calls give that read a list from its start. -/
def answers (rows : List α) (n : Nat) : List (Option α) := (List.range n).map fun i => rows[i]?

/-- `while let Some(a) = next() { .. }` over a local variable. The body says whether to leave the
loop. -/
def whileSome (stuck : ε) (next : Nat → Prog ε σ (Option α)) (body : α → β → Bool × β) :
    Nat → β → Prog ε σ β
  | 0, _ => Prog.fail stuck
  | fuel + 1, b => do
    match ← next fuel with
    | none => pure b
    | some a =>
      if (body a b).1 then pure (body a b).2 else whileSome stuck next body fuel (body a b).2

/-- The loop over a list: the local variable, and what was not read. -/
def foldUntil (body : α → β → Bool × β) : List α → β → β × List α
  | [], b => (b, [])
  | a :: as, b => if (body a b).1 then ((body a b).2, as) else foldUntil body as (body a b).2

/-- A body that never leaves the loop reads everything. -/
theorem foldUntil_of_false {body : α → β → Bool × β} (hbody : ∀ a b, (body a b).1 = false)
    (rows : List α) (b : β) :
    foldUntil body rows b = (rows.foldl (fun b a => (body a b).2) b, []) := by
  induction rows generalizing b with
  | nil => rfl
  | cons a as ih =>
    unfold foldUntil
    rw [hbody, if_neg Bool.false_ne_true, ih, List.foldl_cons]

theorem answers_cons (a : α) (rows : List α) (n : Nat) :
    answers (a :: rows) (n + 1) = some a :: answers rows n := by
  unfold answers
  rw [List.range_succ_eq_map, List.map_cons, List.map_map]
  rfl

theorem answers_nil (n : Nat) : answers ([] : List α) (n + 1) = none :: answers [] n := by
  unfold answers
  rw [List.range_succ_eq_map, List.map_cons, List.map_map]
  rfl

variable {next : Nat → Prog ε σ (Option α)} {s s' : σ} {rows : List α}

theorem ends_pure (a : α) (s : σ) : Ends (fun _ => (pure a : Prog ε σ α)) s (.ok a, s) :=
  ⟨0, fun _ _ => rfl⟩

theorem ends_get (s : σ) : Ends (fun _ => (get : Prog ε σ σ)) s (.ok s, s) :=
  ⟨0, fun _ _ => rfl⟩

theorem ends_modify (f : σ → σ) (s : σ) :
    Ends (fun _ => (Prog.modify f : Prog ε σ Unit)) s (.ok (), f s) :=
  ⟨0, fun _ _ => rfl⟩

theorem ends_zoom {proj : τ → σ} {put : σ → τ → τ} {x : Nat → Prog ε σ α} {t : τ}
    {r : Except ε α × σ} (hx : Ends x (proj t) r) :
    Ends (fun n => zoom proj put (x n)) t (r.1, put r.2 t) := by
  obtain ⟨n, hn⟩ := hx
  refine ⟨n, fun m hm => ?_⟩
  show ((x m (proj t)).1, put (x m (proj t)).2 t) = _
  rw [hn m hm]

/-- A cursor that only goes on to another state first yields what it yields from there. -/
theorem Yields.of_step (hstep : ∀ r, Ends next s' r → Ends next s r) (hy : Yields next rows s') :
    Yields next rows s := by
  cases rows with
  | nil =>
    obtain ⟨s'', hs'', hstable⟩ := hy
    exact ⟨s'', hstep _ hs'', hstable⟩
  | cons a as =>
    obtain ⟨s'', hs'', hrest⟩ := hy
    exact ⟨s'', hstep _ hs'', hrest⟩

/-- A call ends, whatever is left. -/
theorem Yields.ends (hy : Yields next rows s) : ∃ o s', Ends next s (.ok o, s') := by
  cases rows with
  | nil =>
    obtain ⟨s', hs, -⟩ := hy
    exact ⟨none, s', hs⟩
  | cons a as =>
    obtain ⟨s', hs, -⟩ := hy
    exact ⟨some a, s', hs⟩

/-- Calls read the list from its start, and the cursor then yields what is left of it. -/
theorem Yields.reads (hy : Yields next rows s) (n : Nat) :
    ∃ s', Ends (fun fuel => Cursor.reads (next fuel) n) s (.ok (answers rows n), s') ∧
      Yields next (rows.drop n) s' := by
  induction n generalizing rows s with
  | zero => exact ⟨s, ends_pure [] s, hy⟩
  | succ n ih =>
    cases rows with
    | nil =>
      obtain ⟨s', hs, hs'⟩ := hy
      have hempty : Yields next [] s' := ⟨s', hs', hs'⟩
      obtain ⟨t, ht, hrest⟩ := ih hempty
      rw [answers_nil]
      exact ⟨t, hs.bind (ht.bind (ends_pure _ _)), by simpa using hrest⟩
    | cons a as =>
      obtain ⟨s', hs, hyas⟩ := hy
      obtain ⟨t, ht, hrest⟩ := ih hyas
      rw [answers_cons]
      exact ⟨t, hs.bind (ht.bind (ends_pure _ _)), hrest⟩

section Loop

variable {stuck : ε} {body : α → β → Bool × β} {b : β} {a : α} {r : Except ε β × σ}

/-- A loop ends as its rounds do, which have less fuel. -/
private theorem ends_succ {x : Nat → Prog ε σ β} (h : Ends (fun fuel => x (fuel + 1)) s r) :
    Ends x s r := by
  obtain ⟨n, hn⟩ := h
  refine ⟨n + 1, fun m hm => ?_⟩
  obtain ⟨k, rfl⟩ : ∃ k, m = k + 1 := ⟨m - 1, by omega⟩
  exact hn k (by omega)

theorem whileSome_none (hs : Ends next s (.ok none, s')) :
    Ends (fun fuel => whileSome stuck next body fuel b) s (.ok b, s') :=
  ends_succ (Ends.bind hs (ends_pure b s'))

theorem whileSome_break {c : β} (hs : Ends next s (.ok (some a), s')) (hbody : body a b = (true, c)) :
    Ends (fun fuel => whileSome stuck next body fuel b) s (.ok c, s') := by
  refine ends_succ (Ends.bind hs ?_)
  simp only [hbody, if_true]
  exact ends_pure _ s'

theorem whileSome_continue {c : β} (hs : Ends next s (.ok (some a), s'))
    (hbody : body a b = (false, c))
    (hrest : Ends (fun fuel => whileSome stuck next body fuel c) s' r) :
    Ends (fun fuel => whileSome stuck next body fuel b) s r := by
  refine ends_succ (Ends.bind hs ?_)
  simp only [hbody, Bool.false_eq_true, if_false]
  exact hrest

/-- **The rule for loops over a cursor.** The loop computes the fold over the list, and the cursor
then yields what the loop did not read. -/
theorem Yields.whileSome (stuck : ε) (body : α → β → Bool × β) (b : β) (hy : Yields next rows s) :
    ∃ s', Ends (fun fuel => Cursor.whileSome stuck next body fuel b) s
        (.ok (foldUntil body rows b).1, s') ∧
      Yields next (foldUntil body rows b).2 s' := by
  induction rows generalizing s b with
  | nil =>
    obtain ⟨s', hs, hs'⟩ := hy
    exact ⟨s', whileSome_none hs, s', hs', hs'⟩
  | cons a as ih =>
    obtain ⟨s', hs, hyas⟩ := hy
    unfold foldUntil
    cases hbody : (body a b).1 with
    | true =>
      rw [if_pos rfl]
      exact ⟨s', whileSome_break hs (Prod.ext hbody rfl), hyas⟩
    | false =>
      rw [if_neg Bool.false_ne_true]
      obtain ⟨t, ht, hrest⟩ := ih (body a b).2 hyas
      exact ⟨t, whileSome_continue hs (Prod.ext hbody rfl) ht, hrest⟩

end Loop

end Cursor
