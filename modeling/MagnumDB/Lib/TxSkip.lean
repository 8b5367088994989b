import MagnumDB.Lib.TxLog

/-!
# Reading a transaction log from a position on

A reader that starts at a position leaves out the operations before it but still
follows the markers (`skipTo`). What it makes permanent can be traced back to the
log: which operations they are (`mem_replay_skipTo`), and that nothing else changes
(`replay_skipTo`).
-/

namespace TxLog

open List

variable {T E F : Type}

/-! ## Skipping operations -/

/-- The events at positions `n, n + 1, ...`, without the operations below `c`. -/
def skipTo (c : Nat) : Nat → List (Event T E) → List (Event T E)
  | _, [] => []
  | n, e :: es => if n < c ∧ e.isMarker = false then skipTo c (n + 1) es else e :: skipTo c (n + 1) es

theorem skipTo_append (c n : Nat) (a b : List (Event T E)) :
    skipTo c n (a ++ b) = skipTo c n a ++ skipTo c (n + a.length) b := by
  induction a generalizing n with
  | nil => rfl
  | cons e a ih =>
    have hn : n + 1 + a.length = n + (e :: a).length := by simp only [length_cons]; omega
    simp only [cons_append, skipTo, ih, hn]
    split <;> rfl

theorem skipTo_shift (c n : Nat) (es : List (Event T E)) : skipTo c n es = skipTo (c - n) 0 es := by
  suffices h : ∀ m, skipTo c (n + m) es = skipTo (c - n) m es from h 0
  induction es with
  | nil => exact fun _ => rfl
  | cons e es ih =>
    intro m
    have hiff : n + m < c ↔ m < c - n := by omega
    simp only [skipTo, hiff, Nat.add_assoc, ih]

variable {c : Nat} {e : Event T E} {x : E}

/-- Past the position nothing is left out. -/
theorem skipTo_of_le {n : Nat} (h : c ≤ n) (es : List (Event T E)) : skipTo c n es = es := by
  induction es generalizing n with
  | nil => rfl
  | cons e es ih =>
    have hn : ¬ (n < c ∧ e.isMarker = false) := by omega
    rw [skipTo, if_neg hn, ih (by omega)]

variable {es : List (Event T E)}

theorem skipTo_markers {n : Nat} (h : n + es.length ≤ c) :
    ∀ e ∈ skipTo c n es, e.isMarker := by
  induction es generalizing n with
  | nil => exact fun e he => absurd he not_mem_nil
  | cons e es ih =>
    simp only [length_cons] at h
    have hes := ih (n := n + 1) (by omega)
    intro x hx
    rw [skipTo] at hx
    split at hx
    · exact hes x hx
    · rename_i hmark
      rcases mem_cons.mp hx with rfl | hx
      · cases hm : x.isMarker with
        | true => rfl
        | false => exact absurd ⟨by omega, hm⟩ hmark
      · exact hes x hx

/-! ## Numbered operations

Number the operations by their positions, and skipping up to a position is leaving
out the smaller numbers.
-/

/-- The same event, with another operation. -/
def Event.map (f : E → F) : Event T E → Event T F
  | .op t e => .op t (f e)
  | .begin t => .begin t
  | .commit t => .commit t
  | .rollback t => .rollback t

/-- The event is a marker, or its operation is one to keep. -/
def Event.keeps (p : E → Bool) : Event T E → Bool
  | .op _ e => p e
  | .begin _ | .commit _ | .rollback _ => true

@[simp] theorem keeps_op (p : E → Bool) (t : T) (x : E) : (Event.op t x).keeps p = p x := rfl

theorem keeps_of_marker (p : E → Bool) (h : e.isMarker) : e.keeps p := by
  cases e with
  | op t x => exact absurd h (by simp [Event.isMarker])
  | begin t | commit t | rollback t => rfl

/-- Number the operations by their positions, from `n` on. -/
def numberFrom : Nat → List (Event T E) → List (Event T (Nat × E))
  | _, [] => []
  | n, e :: es => e.map (fun x => (n, x)) :: numberFrom (n + 1) es

theorem numberFrom_map_snd (n : Nat) (es : List (Event T E)) :
    (numberFrom n es).map (Event.map Prod.snd) = es := by
  induction es generalizing n with
  | nil => rfl
  | cons e es ih =>
    rw [numberFrom, map_cons, ih]
    cases e <;> rfl

/-- Skipping leaves out the operations with small numbers. -/
theorem skipTo_eq_filter (c n : Nat) (es : List (Event T E)) :
    skipTo c n es = ((numberFrom (n + 1) es).filter (Event.keeps fun x => decide (c < x.1))).map
      (Event.map Prod.snd) := by
  induction es generalizing n with
  | nil => rfl
  | cons e es ih =>
    rw [skipTo, numberFrom, ih]
    cases e with
    | op t x =>
      by_cases hn : n < c
      · have hc : ¬ c < n + 1 := by omega
        simp [Event.isMarker, Event.map, Event.keeps, hn, hc]
      · have hc : c < n + 1 := by omega
        simp [Event.isMarker, Event.map, Event.keeps, hn, hc]
    | begin t | commit t | rollback t =>
      rw [filter_cons, keeps_of_marker _ rfl]
      simp [Event.isMarker, Event.map]

variable [DecidableEq T] {auto : T}

theorem pending_map (f : E → F) (es : List (Event T E)) (tx : T) :
    pending (es.map (Event.map f)) tx = (pending es tx).map f := by
  induction es using List.reverseRecOn with
  | nil => rfl
  | append_singleton es e ih =>
    rw [map_append, map_singleton, pending_snoc, pending_snoc, ih]
    cases e with
    | op t x => by_cases ht : t = tx <;> simp [Event.map, Event.buffer, ht]
    | begin t | commit t | rollback t =>
      by_cases ht : t = tx <;> simp [Event.map, Event.buffer, ht]

theorem replayFrom_map (f : E → F) (past es : List (Event T E)) :
    replayFrom auto (past.map (Event.map f)) (es.map (Event.map f))
      = (replayFrom auto past es).map f := by
  induction es generalizing past with
  | nil => rfl
  | cons e es ih =>
    have ih := ih (past ++ [e])
    rw [map_append, map_singleton] at ih
    have he : emits auto (past.map (Event.map f)) (e.map f) = (emits auto past e).map f := by
      cases e with
      | op t x => by_cases ht : t = auto <;> simp [Event.map, emits, ht]
      | commit t => by_cases ht : t = auto <;> simp [Event.map, emits, ht, pending_map]
      | begin t | rollback t => rfl
    rw [map_cons, replayFrom, replayFrom, ih, he, map_append]

theorem pending_filter (p : E → Bool) (es : List (Event T E)) (tx : T) :
    pending (es.filter (Event.keeps p)) tx = (pending es tx).filter p := by
  induction es using List.reverseRecOn with
  | nil => rfl
  | append_singleton es e ih =>
    rw [filter_append, pending_snoc]
    cases e with
    | op t x =>
      cases hp : p x with
      | true =>
        rw [filter_singleton, keeps_op, hp, cond_true, pending_snoc, ih]
        by_cases ht : t = tx <;> simp [Event.buffer, ht, hp]
      | false =>
        rw [filter_singleton, keeps_op, hp, cond_false, append_nil, ih]
        by_cases ht : t = tx <;> simp [Event.buffer, ht, hp]
    | begin t | commit t | rollback t =>
      rw [filter_singleton, keeps_of_marker p rfl, cond_true, pending_snoc, ih]
      by_cases ht : t = tx <;> simp [Event.buffer, ht]

theorem replayFrom_filter (p : E → Bool) (past es : List (Event T E)) :
    replayFrom auto (past.filter (Event.keeps p)) (es.filter (Event.keeps p))
      = (replayFrom auto past es).filter p := by
  induction es generalizing past with
  | nil => rfl
  | cons e es ih =>
    have ih := ih (past ++ [e])
    rw [filter_append, filter_singleton] at ih
    rw [replayFrom, filter_append, ← ih, filter_cons]
    cases e with
    | op t x =>
      rw [keeps_op]
      cases hp : p x with
      | true => by_cases ht : t = auto <;> simp [hp, replayFrom, emits, ht]
      | false => by_cases ht : t = auto <;> simp [hp, emits, ht]
    | begin t | rollback t =>
      rw [keeps_of_marker p rfl]
      simp [replayFrom, emits]
    | commit t =>
      rw [keeps_of_marker p rfl]
      by_cases ht : t = auto <;> simp [replayFrom, emits, ht, pending_filter]

/-- **Replay from a position on** is the part of the replay that has larger numbers. -/
theorem replay_skipTo (c : Nat) (es : List (Event T E)) :
    replay auto (skipTo c 0 es)
      = ((replay auto (numberFrom 1 es)).filter fun x => decide (c < x.1)).map Prod.snd := by
  rw [skipTo_eq_filter]
  refine (replayFrom_map Prod.snd [] _).trans (congrArg (List.map Prod.snd) ?_)
  exact replayFrom_filter (fun x : Nat × E => decide (c < x.1)) [] _

/-! ## Which operations are made permanent -/

theorem pending_of_markers (h : ∀ e ∈ es, e.isMarker) (tx : T) : pending es tx = [] := by
  induction es using List.reverseRecOn with
  | nil => rfl
  | append_singleton es e ih =>
    have he := h e (mem_append_right _ (mem_singleton_self e))
    rw [pending_snoc, ih fun x hx => h x (mem_append_left _ hx)]
    cases e with
    | op t x => exact absurd he (by simp [Event.isMarker])
    | begin t | commit t | rollback t => simp [Event.buffer]

/-- The next marker of the transaction is a commit. -/
def Commits (tx : T) : List (Event T E) → Prop
  | [] => False
  | .op _ _ :: es => Commits tx es
  | .commit t :: es => t = tx ∨ Commits tx es
  | .begin t :: es | .rollback t :: es => t ≠ tx ∧ Commits tx es

omit [DecidableEq T] in
theorem exists_op_cons {P : T → List (Event T E) → Prop} {n : Nat} :
    (∃ before tx after, e :: es = before ++ .op tx x :: after ∧ c ≤ n + before.length ∧ P tx after) ↔
      (∃ tx, e = .op tx x ∧ c ≤ n ∧ P tx es) ∨
      ∃ before tx after, es = before ++ .op tx x :: after ∧ c ≤ n + 1 + before.length ∧ P tx after := by
  constructor
  · intro h
    obtain ⟨before, tx, after, heq, hc, hP⟩ := h
    cases before with
    | nil =>
      obtain ⟨rfl, rfl⟩ := List.cons.inj heq
      exact Or.inl ⟨tx, rfl, hc, hP⟩
    | cons b before =>
      obtain ⟨rfl, rfl⟩ := List.cons.inj heq
      refine Or.inr ⟨before, tx, after, rfl, ?_, hP⟩
      simp only [length_cons] at hc
      omega
  · intro h
    rcases h with ⟨tx, rfl, hc, hP⟩ | ⟨before, tx, after, rfl, hc, hP⟩
    · exact ⟨[], tx, es, rfl, hc, hP⟩
    · refine ⟨e :: before, tx, after, rfl, ?_, hP⟩
      simp only [length_cons]
      omega

theorem mem_pending_op {past : List (Event T E)} {t tx : T} {y : E} :
    x ∈ pending (past ++ [.op t y]) tx ↔ x ∈ pending past tx ∨ (t = tx ∧ x = y) := by
  rw [pending_snoc, Event.buffer]
  by_cases ht : t = tx
  · simp [ht]
  · simp [ht]

theorem mem_pending_marker {past : List (Event T E)} {tx : T} (he : e.isMarker) :
    x ∈ pending (past ++ [e]) tx ↔ e.tx ≠ tx ∧ x ∈ pending past tx := by
  rw [pending_snoc]
  cases e with
  | op t y => exact absurd he (by simp [Event.isMarker])
  | begin t | commit t | rollback t =>
    by_cases ht : t = tx
    · simp [Event.buffer, Event.tx, ht]
    · simp [Event.buffer, Event.tx, ht]

/-- An operation that is replayed stands at or after the position, and counts at once or is
committed; or it was waiting before and is committed. -/
theorem mem_replayFrom_skipTo :
    ∀ {n : Nat} {past : List (Event T E)}, x ∈ replayFrom auto past (skipTo c n es) ↔
      (∃ before tx after, es = before ++ .op tx x :: after ∧ c ≤ n + before.length ∧
        (tx = auto ∨ Commits tx after)) ∨
      ∃ tx, tx ≠ auto ∧ x ∈ pending past tx ∧ Commits tx es := by
  induction es with
  | nil => intro n past; simp [skipTo, replayFrom, Commits]
  | cons e es ih =>
    intro n past
    rw [exists_op_cons]
    cases e with
    | op t y =>
      by_cases hn : n < c
      · -- an operation before the position is not there at all
        rw [skipTo, if_pos ⟨hn, rfl⟩, ih]
        have hc : ¬ c ≤ n := by omega
        simp only [hc, Commits, false_and, and_false, exists_false, false_or]
      · have hc : c ≤ n := by omega
        rw [skipTo, if_neg (fun h => hn h.1), replayFrom, mem_append, ih]
        simp only [mem_pending_op, emits, Commits, hc, true_and, Event.op.injEq]
        grind
    | begin t =>
      rw [skipTo, if_neg (by simp [Event.isMarker]), replayFrom, mem_append, ih]
      simp only [mem_pending_marker (e := .begin t) rfl, emits, Commits, Event.tx]
      grind
    | rollback t =>
      rw [skipTo, if_neg (by simp [Event.isMarker]), replayFrom, mem_append, ih]
      simp only [mem_pending_marker (e := .rollback t) rfl, emits, Commits, Event.tx]
      grind
    | commit t =>
      rw [skipTo, if_neg (by simp [Event.isMarker]), replayFrom, mem_append, ih]
      simp only [mem_pending_marker (e := .commit t) rfl, emits, Commits, Event.tx]
      grind

/-- **What a log makes permanent**, from a position on: the operations that count at once, and those
whose transaction commits before it has another marker. -/
theorem mem_replay_skipTo :
    x ∈ replay auto (skipTo c 0 es) ↔ ∃ before tx after, es = before ++ .op tx x :: after ∧
      c ≤ before.length ∧ (tx = auto ∨ Commits tx after) := by
  rw [replay, mem_replayFrom_skipTo]
  simp

end TxLog
