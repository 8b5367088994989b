import Mathlib.Algebra.GroupWithZero.Nat
import Mathlib.Order.Lattice
import Mathlib.Data.List.Basic
import Mathlib.Data.List.Induction

/-!
# What a transaction log means

A log is a list of events: operations of a transaction, and the begin, commit and
rollback markers. `replay` says which operations it makes permanent and in which
order, without the bookkeeping a reader keeps. An operation of the transaction
`auto` counts at once. An operation of any other transaction waits, and counts
when the transaction commits, unless a marker of the transaction came in between.
-/

namespace TxLog

open List

/-- One record of a log. -/
inductive Event (T E : Type) where
  | op (tx : T) (e : E)
  | begin (tx : T)
  | commit (tx : T)
  | rollback (tx : T)
  deriving DecidableEq

variable {T E : Type}

/-- The transaction an event belongs to. -/
def Event.tx : Event T E → T
  | .op t _ | .begin t | .commit t | .rollback t => t

/-- The event opens or ends a transaction. -/
def Event.isMarker : Event T E → Bool
  | .op _ _ => false
  | .begin _ | .commit _ | .rollback _ => true

variable [DecidableEq T]

/-! ## The operations that wait for a commit -/

/-- What waits for `tx` after one more event. -/
def Event.buffer (tx : T) (buf : List E) : Event T E → List E
  | .op t e => if t = tx then buf ++ [e] else buf
  | .begin t | .commit t | .rollback t => if t = tx then [] else buf

/-- The operations of `tx` since its last marker. -/
def pending (past : List (Event T E)) (tx : T) : List E := past.foldl (Event.buffer tx) []

/-- `tx` has a marker among the events. -/
def Marked (tx : T) (es : List (Event T E)) : Prop := ∃ e ∈ es, e.isMarker ∧ e.tx = tx

@[simp] theorem pending_nil (tx : T) : pending ([] : List (Event T E)) tx = [] := rfl

theorem pending_snoc (past : List (Event T E)) (e : Event T E) (tx : T) :
    pending (past ++ [e]) tx = e.buffer tx (pending past tx) := by
  rw [pending, foldl_append]
  rfl

/-- A marker of `tx` cuts off what came before it. -/
theorem pending_append_of_marked {past es : List (Event T E)} {tx : T} (h : Marked tx es) :
    pending (past ++ es) tx = pending es tx := by
  induction es using List.reverseRecOn with
  | nil =>
    obtain ⟨e, he, _⟩ := h
    exact absurd he not_mem_nil
  | append_singleton es e ih =>
    rw [← append_assoc, pending_snoc, pending_snoc]
    obtain ⟨m, hm, hmark, htx⟩ := h
    rcases mem_append.mp hm with hm | hm
    · rw [ih ⟨m, hm, hmark, htx⟩]
    · obtain rfl := mem_singleton.mp hm
      cases m with
      | op t x => exact absurd hmark (by simp [Event.isMarker])
      | begin t | commit t | rollback t =>
        simp only [Event.tx] at htx
        simp [Event.buffer, htx]

/-- Without one, what waited before still waits. -/
theorem pending_append_of_not_marked {past es : List (Event T E)} {tx : T} (h : ¬ Marked tx es) :
    pending (past ++ es) tx = pending past tx ++ pending es tx := by
  induction es using List.reverseRecOn with
  | nil => simp
  | append_singleton es e ih =>
    rw [← append_assoc, pending_snoc, pending_snoc]
    have hes : ¬ Marked tx es := by
      intro hm
      obtain ⟨m, hm, hp⟩ := hm
      exact h ⟨m, mem_append_left _ hm, hp⟩
    rw [ih hes]
    cases e with
    | op t x =>
      by_cases ht : t = tx
      · simp [Event.buffer, ht]
      · simp [Event.buffer, ht]
    | begin t | commit t | rollback t =>
      -- a marker of another transaction: `tx` has none in `es ++ [e]`
      have ht : t ≠ tx := by
        intro ht
        exact h ⟨_, mem_append_right _ (mem_singleton_self _), rfl, ht⟩
      simp [Event.buffer, ht]

/-! ## Replay -/

variable (auto : T)

/-- What an event makes permanent, given the events before it. -/
def emits (past : List (Event T E)) : Event T E → List E
  | .op t e => if t = auto then [e] else []
  | .commit t => if t = auto then [] else pending past t
  | .begin _ | .rollback _ => []

/-- What the events make permanent, given the events before them. -/
def replayFrom (past : List (Event T E)) : List (Event T E) → List E
  | [] => []
  | e :: es => emits auto past e ++ replayFrom (past ++ [e]) es

/-- The operations a log makes permanent, in order. -/
def replay (es : List (Event T E)) : List E := replayFrom auto [] es

variable {auto}

theorem replayFrom_append (past a b : List (Event T E)) :
    replayFrom auto past (a ++ b) = replayFrom auto past a ++ replayFrom auto (past ++ a) b := by
  induction a generalizing past with
  | nil => simp [replayFrom]
  | cons e a ih => simp [replayFrom, ih]

/-- A longer log makes everything permanent that a shorter one does. -/
theorem replay_append (a b : List (Event T E)) :
    replay auto (a ++ b) = replay auto a ++ replayFrom auto a b := by
  rw [replay, replayFrom_append, nil_append]
  rfl

/-- Some commit of `es` completes a transaction that `past` has left open. -/
def Carries (auto : T) (past es : List (Event T E)) : Prop :=
  ∃ before tx after, es = before ++ .commit tx :: after ∧ tx ≠ auto ∧ ¬ Marked tx before ∧
    pending past tx ≠ []

/-- What an event emits after `past ++ mid`, against after `mid` alone. -/
theorem emits_append (auto : T) (past mid : List (Event T E)) (e : Event T E) :
    emits auto (past ++ mid) e = emits auto mid e ∨
      ∃ tx, e = .commit tx ∧ tx ≠ auto ∧ ¬ Marked tx mid ∧
        emits auto (past ++ mid) e = pending past tx ++ emits auto mid e := by
  cases e with
  | op t x => exact Or.inl rfl
  | begin t => exact Or.inl rfl
  | rollback t => exact Or.inl rfl
  | commit t =>
    by_cases ht : t = auto
    · left
      simp [emits, ht]
    · by_cases hm : Marked t mid
      · left
        simp only [emits, ht, if_false]
        exact pending_append_of_marked hm
      · right
        refine ⟨t, rfl, ht, hm, ?_⟩
        simp only [emits, ht, if_false]
        exact pending_append_of_not_marked hm

theorem emits_length_le (auto : T) (past mid : List (Event T E)) (e : Event T E) :
    (emits auto mid e).length ≤ (emits auto (past ++ mid) e).length := by
  rcases emits_append auto past mid e with h | ⟨tx, _, _, _, h⟩
  · rw [h]
  · rw [h, length_append]
    omega

theorem replayFrom_length_le (auto : T) (past mid es : List (Event T E)) :
    (replayFrom auto mid es).length ≤ (replayFrom auto (past ++ mid) es).length := by
  induction es generalizing mid with
  | nil => simp [replayFrom]
  | cons e es ih =>
    have he := emits_length_le auto past mid e
    have hes := ih (mid ++ [e])
    simp only [replayFrom, length_append, append_assoc] at *
    omega

/-- The commits that follow `mid` complete nothing that `past` has left open. -/
theorem replayFrom_eq_iff (auto : T) (past mid es : List (Event T E)) :
    replayFrom auto (past ++ mid) es = replayFrom auto mid es ↔
      ∀ before tx after, es = before ++ .commit tx :: after → tx ≠ auto →
        ¬ Marked tx (mid ++ before) → pending past tx = [] := by
  induction es generalizing mid with
  | nil =>
    refine ⟨fun _ before tx after h => ?_, fun _ => rfl⟩
    exact absurd h (by simp)
  | cons e es ih =>
    simp only [replayFrom, append_assoc]
    constructor
    · intro heq before tx after hes hauto hm
      -- both parts are at least as long on the left, so both are equal
      have hlen := congrArg List.length heq
      simp only [length_append] at hlen
      have he := emits_length_le auto past mid e
      have hrest := replayFrom_length_le auto past (mid ++ [e]) es
      obtain ⟨heq₁, heq₂⟩ := append_inj heq (by omega)
      cases before with
      | nil =>
        obtain ⟨rfl, rfl⟩ := List.cons.inj hes
        rw [append_nil] at hm
        have hsplit : pending (past ++ mid) tx = pending past tx ++ pending mid tx :=
          pending_append_of_not_marked hm
        simp only [emits, hauto, if_false] at heq₁
        rw [hsplit] at heq₁
        exact append_left_eq_self.mp heq₁
      | cons b before =>
        obtain ⟨rfl, rfl⟩ := List.cons.inj hes
        refine (ih (mid ++ [e])).mp heq₂ before tx after rfl hauto ?_
        rw [append_assoc]
        exact hm
    · intro h
      have hrest : replayFrom auto (past ++ (mid ++ [e])) es
          = replayFrom auto (mid ++ [e]) es := by
        refine (ih (mid ++ [e])).mpr fun before tx after hes hauto hm => ?_
        refine h (e :: before) tx after (by rw [hes]; rfl) hauto ?_
        rw [append_assoc] at hm
        exact hm
      rw [hrest]
      congr 1
      rcases emits_append auto past mid e with he | ⟨tx, rfl, hauto, hm, he⟩
      · exact he
      · rw [he, h [] tx es rfl hauto (by rw [append_nil]; exact hm), nil_append]

/-- A log read after another one says the same as on its own exactly when it
completes nothing the first one has left open. -/
theorem replayFrom_eq_replay (past es : List (Event T E)) :
    replayFrom auto past es = replay auto es ↔ ¬ Carries auto past es := by
  have h := replayFrom_eq_iff auto past [] es
  rw [append_nil] at h
  refine h.trans ⟨fun hall hc => ?_, fun hc before tx after hes hauto hm => ?_⟩
  · obtain ⟨before, tx, after, hes, hauto, hm, hp⟩ := hc
    exact hp (hall before tx after hes hauto hm)
  · by_contra hp
    exact hc ⟨before, tx, after, hes, hauto, hm, hp⟩

end TxLog
