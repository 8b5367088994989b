import MagnumDB.Lib.Cells
import MagnumDB.Storage.TreeInsert

/-!
# A call to the tree, one page call at a time

Run on a tape of page calls with their answers, the code of the tree shows how far
these answers carry it: it comes to an end, or it asks for another page call. So a
call that is in progress is a tape, and its next page call can be computed, which is
what it takes to interleave calls.

The tape can stand for a part of a memory that is shared with others. If its events
could have happened there, one after the other, the tape is a lawful store, and what
is known about the tree over lawful stores holds for the call.
-/

namespace MagnumDB

open Prog

/-- What a page call returns. -/
inductive Answer where
  | page (page : Page)
  | id (id : PageId)
  | done

/-- A page call and its answer. -/
abbrev PageEvent := PageCall × Answer

namespace PageCall

/-- The same call. -/
def same : PageCall → PageCall → Bool
  | .fetch p, .fetch q => p == q
  | .write p x, .write q y => p == q && x.data == y.data
  | .alloc, .alloc => true
  | .free p, .free q => p == q
  | _, _ => false

theorem eq_of_same {c d : PageCall} (h : c.same d) : c = d := by
  cases c with
  | fetch p =>
    cases d with
    | fetch q => rw [beq_iff_eq.mp h]
    | write | alloc | free => exact absurd h (by simp [same])
  | write p x =>
    cases d with
    | write q y =>
      obtain ⟨hp, hx⟩ := Bool.and_eq_true_iff.mp h
      rw [beq_iff_eq.mp hp, Page.ext_data (beq_iff_eq.mp hx)]
    | fetch | alloc | free => exact absurd h (by simp [same])
  | alloc =>
    cases d with
    | alloc => rfl
    | fetch | write | free => exact absurd h (by simp [same])
  | free p =>
    cases d with
    | free q => rw [beq_iff_eq.mp h]
    | fetch | write | alloc => exact absurd h (by simp [same])

def isFetch : PageCall → Bool
  | .fetch _ => true
  | _ => false

end PageCall

/-! ## The tape -/

/-- Page calls that were answered, those that are still to come, and the call that was asked for
when there were no more. -/
structure Tape where
  past : List PageEvent
  left : List PageEvent
  pending : Option PageCall

namespace Tape

/-- The answer to a page call. -/
def answer (c : PageCall) : Prog Fail Tape Answer := fun t =>
  match t.left with
  | [] => (.error .stopped, { t with pending := some c })
  | e :: rest =>
    if e.1.same c then (.ok e.2, { t with past := t.past ++ [e], left := rest })
    else (.error .stopped, t)

/-- The tape as a page store. -/
def store : PageStore Tape where
  fetchPage id := do
    match ← answer (.fetch id) with
    | .page x => pure x
    | _ => Prog.fail .stopped
  writePage id page := do
    let _ ← answer (.write id page)
  allocatePage := do
    match ← answer .alloc with
    | .id id => pure id
    | _ => Prog.fail .stopped
  freePage id := do
    let _ ← answer (.free id)

/-- How a call is answered. -/
theorem answer_cases (c : PageCall) (t : Tape) :
    (∃ a rest, t.left = (c, a) :: rest ∧
      answer c t = (.ok a, { t with past := t.past ++ [(c, a)], left := rest })) ∨
    (t.left = [] ∧ answer c t = (.error .stopped, { t with pending := some c })) ∨
    (answer c t = (.error .stopped, t)) := by
  unfold answer
  cases hl : t.left with
  | nil => exact Or.inr (Or.inl ⟨rfl, rfl⟩)
  | cons e rest =>
    by_cases he : e.1.same c
    · obtain rfl := PageCall.eq_of_same he
      exact Or.inl ⟨e.2, rest, rfl, if_pos he⟩
    · exact Or.inr (Or.inr (if_neg he))

end Tape

/-! ## Pages as cells -/

namespace PageEvent

/-- The page an event is about. -/
def cell : PageEvent → PageId
  | (.fetch p, _) => p
  | (.write p _, _) => p
  | (.free p, _) => p
  | (.alloc, .id p) => p
  | (.alloc, _) => 0

/-- The event can happen if its page is this, where `none` is a page that is not in use. Of page 0
only the root counts, since its free-list head changes behind the calls. -/
def ok (x : Option Page) : PageEvent → Prop
  | (.fetch p, .page y) => if p = 0 then x.map Page.rootField = some y.rootField else x = some y
  | (.write _ _, .done) => x.isSome
  | (.alloc, .id p) => p ≠ 0 ∧ p ≠ u32Max ∧ x = none
  | (.free p, .done) => p ≠ 0 ∧ x.isSome
  | _ => False

/-- What it leaves in its page. -/
def act (x : Option Page) : PageEvent → Option Page
  | (.fetch _, _) => x
  | (.write _ y, _) => some y
  | (.alloc, _) => some Page.default
  | (.free _, _) => none

end PageEvent

/-- The pages as cells, with the page calls as events. -/
def pageCells : Cells PageId (Option Page) PageEvent where
  cell := PageEvent.cell
  ok := PageEvent.ok
  act := PageEvent.act
  read e := e.1.isFetch
  act_read := by
    intro e a h
    obtain ⟨c, b⟩ := e
    cases c with
    | fetch p => rfl
    | write | alloc | free => exact absurd h (by simp [PageCall.isFetch])

/-- The pages in use are these, and page 0. -/
structure Occupied (m : PageId → Option Page) (U : Set PageId) : Prop where
  pages : ∀ p, p ∈ U ↔ p ≠ 0 ∧ (m p).isSome
  zero : (m 0).isSome
  last : m u32Max = none

/-- The root that page 0 names. -/
def rootIn (m : PageId → Option Page) : PageId := ((m 0).getD Page.default).rootField

section Occupied

variable {m : PageId → Option Page} {U : Set PageId} {p : PageId} {x : Page}

theorem Occupied.valid (h : Occupied m U) (hp : p ∈ U) : p ≠ 0 ∧ p ≠ u32Max := by
  obtain ⟨h0, hsome⟩ := (h.pages p).mp hp
  refine ⟨h0, fun he => ?_⟩
  rw [he, h.last] at hsome
  exact absurd hsome (by simp)

/-- Putting a page where it can be. -/
theorem Occupied.put (h : Occupied m U) (hp : p ≠ u32Max) :
    Occupied (Function.update m p (some x)) (U ∪ {q | q = p ∧ p ≠ 0}) := by
  refine ⟨fun q => ?_, ?_, ?_⟩
  · by_cases hq : q = p
    · subst hq
      simpa [h.pages q] using fun h0 _ => h0
    · simp [hq, h.pages q]
  · by_cases h0 : (0 : PageId) = p
    · simp [← h0]
    · simp [h0, h.zero]
  · rw [Function.update_of_ne (Ne.symm hp)]
    exact h.last

theorem Occupied.write (h : Occupied m U) (hp : (m p).isSome) :
    Occupied (Function.update m p (some x)) U := by
  have hne : p ≠ u32Max := by
    intro he
    rw [he, h.last] at hp
    exact absurd hp (by simp)
  have hset : U ∪ {q | q = p ∧ p ≠ 0} = U := by
    refine Set.union_eq_self_of_subset_right ?_
    intro q hq
    obtain ⟨rfl, h0⟩ := hq
    exact (h.pages q).mpr ⟨h0, hp⟩
  exact hset ▸ h.put hne

theorem Occupied.alloc (h : Occupied m U) (h0 : p ≠ 0) (hp : p ≠ u32Max) :
    Occupied (Function.update m p (some x)) (U ∪ {p}) := by
  have hset : {q | q = p ∧ p ≠ 0} = {p} := by
    ext q
    simp [h0]
  exact hset ▸ h.put hp

theorem Occupied.free (h : Occupied m U) (h0 : p ≠ 0) :
    Occupied (Function.update m p none) (U \ {p}) := by
  refine ⟨fun q => ?_, ?_, ?_⟩
  · by_cases hq : q = p
    · simp [hq]
    · simp [hq, h.pages q]
  · rw [Function.update_of_ne (Ne.symm h0)]
    exact h.zero
  · by_cases hl : u32Max = p
    · simp [hl]
    · rw [Function.update_of_ne hl]
      exact h.last

theorem rootIn_update (hp : p ≠ 0) (o : Option Page) : rootIn (Function.update m p o) = rootIn m := by
  unfold rootIn
  rw [Function.update_of_ne (Ne.symm hp)]

end Occupied

/-! ## The tape is lawful -/

namespace Tape

variable {m : PageId → Option Page} {tr : List PageEvent} {t : Tape} {U : Set PageId} {p : PageId}

/-- The pages after the calls that were answered. -/
def mem (m : PageId → Option Page) (t : Tape) : PageId → Option Page := pageCells.run m t.past

/-- The tape is this one, its events can happen, and so far these pages are in use. -/
structure Inv (m : PageId → Option Page) (tr : List PageEvent) (t : Tape) (U : Set PageId) :
    Prop where
  whole : t.past ++ t.left = tr
  ok : pageCells.OkRun m tr
  occupied : Occupied (t.mem m) U

/-- An answer comes from an event that can happen. -/
theorem Inv.answer (h : Inv m tr t U) (c : PageCall) : (answer c).wp t
    (fun a t' => pageCells.Ok (t.mem m) (c, a) ∧ t'.mem m = pageCells.apply (t.mem m) (c, a) ∧
      t'.past ++ t'.left = tr) Stopped := by
  rcases answer_cases c t with ⟨a, rest, hleft, hrun⟩ | ⟨_, hrun⟩ | hrun
  · have hok := h.ok
    rw [← h.whole, hleft, Cells.okRun_append] at hok
    refine wp_of_ok hrun ⟨hok.2.1, Cells.run_concat, ?_⟩
    rw [← h.whole, hleft, List.append_assoc]
    rfl
  · exact wp_of_error hrun rfl
  · exact wp_of_error hrun rfl

/-- Reading a page in use. -/
theorem Inv.fetch (h : Inv m tr t U) (p : PageId) : (store.fetchPage p).wp t
    (fun x t' => (if p = 0 then (t.mem m p).map Page.rootField = some x.rootField
        else t.mem m p = some x) ∧ t'.mem m = t.mem m ∧ Inv m tr t' U) Stopped := by
  refine wp_bind (wp_mono (h.answer (.fetch p)) (fun a t' q => ?_) (fun _ _ he => he))
  obtain ⟨hok, hmem, hwhole⟩ := q
  have hsame : t'.mem m = t.mem m := hmem.trans (Cells.apply_read rfl)
  cases a with
  | page x => exact wp_pure ⟨hok, hsame, hwhole, h.ok, hsame ▸ h.occupied⟩
  | id | done => exact (hok : False).elim

theorem Inv.write (h : Inv m tr t U) (p : PageId) (x : Page) : (store.writePage p x).wp t
    (fun _ t' => t'.mem m = Function.update (t.mem m) p (some x) ∧ Inv m tr t' U) Stopped := by
  refine wp_bind (wp_mono (h.answer (.write p x)) (fun a t' q => ?_) (fun _ _ he => he))
  obtain ⟨hok, hmem, hwhole⟩ := q
  cases a with
  | done =>
    have hmem' : t'.mem m = Function.update (t.mem m) p (some x) := hmem
    exact wp_pure ⟨hmem', hwhole, h.ok, hmem' ▸ h.occupied.write hok⟩
  | page | id => exact (hok : False).elim

theorem Inv.alloc (h : Inv m tr t U) : store.allocatePage.wp t
    (fun p t' => p ∉ U ∧ p ≠ 0 ∧ t'.mem m = Function.update (t.mem m) p (some Page.default) ∧
      Inv m tr t' (U ∪ {p})) Stopped := by
  refine wp_bind (wp_mono (h.answer .alloc) (fun a t' q => ?_) (fun _ _ he => he))
  obtain ⟨hok, hmem, hwhole⟩ := q
  cases a with
  | id p =>
    obtain ⟨h0, hlast, hnone⟩ := hok
    have hmem' : t'.mem m = Function.update (t.mem m) p (some Page.default) := hmem
    refine wp_pure ⟨fun hp => ?_, h0, hmem', hwhole, h.ok, hmem' ▸ h.occupied.alloc h0 hlast⟩
    have hsome := ((h.occupied.pages p).mp hp).2
    rw [show t.mem m p = none from hnone] at hsome
    exact absurd hsome (by simp)
  | page | done => exact (hok : False).elim

theorem Inv.free (h : Inv m tr t U) (p : PageId) : (store.freePage p).wp t
    (fun _ t' => p ≠ 0 ∧ t'.mem m = Function.update (t.mem m) p none ∧ Inv m tr t' (U \ {p}))
    Stopped := by
  refine wp_bind (wp_mono (h.answer (.free p)) (fun a t' q => ?_) (fun _ _ he => he))
  obtain ⟨hok, hmem, hwhole⟩ := q
  cases a with
  | done =>
    have hmem' : t'.mem m = Function.update (t.mem m) p none := hmem
    exact wp_pure ⟨hok.1, hmem', hwhole, h.ok, hmem' ▸ h.occupied.free hok.1⟩
  | page | id => exact (hok : False).elim

/-- What a page of the memory reads as. -/
def view (m : PageId → Option Page) (t : Tape) (p : PageId) : Page := (t.mem m p).getD Page.default

theorem root_of_fetch {x : Page} (hx : (t.mem m 0).map Page.rootField = some x.rootField) :
    x.rootField = rootIn (t.mem m) := by
  obtain ⟨y, hy, hroot⟩ := Option.map_eq_some_iff.mp hx
  unfold rootIn
  rw [hy]
  exact hroot.symm

theorem view_of_update {t t' : Tape} {o : Option Page} {q : PageId}
    (h : t'.mem m = Function.update (t.mem m) p o) (hq : q ≠ p) : t'.view m q = t.view m q := by
  unfold view
  rw [h, Function.update_of_ne hq]

/-- **A tape whose events can happen is a lawful store.** -/
def laws (m : PageId → Option Page) (tr : List PageEvent) : store.Laws where
  Inv := Inv m tr
  view := view m
  root t := rootIn (t.mem m)
  valid h hp := h.occupied.valid hp
  fetch := by
    intro t U p h hp
    refine wp_mono (h.fetch p) (fun x t' q => ?_) (fun _ _ he => he)
    obtain ⟨hx, hmem, hinv⟩ := q
    rw [if_neg (h.occupied.valid hp).1] at hx
    refine ⟨?_, hinv, fun q _ => ?_, by rw [hmem]⟩
    · unfold view
      rw [hx]
      rfl
    · unfold view
      rw [hmem]
  write := by
    intro t U p page h hp
    refine wp_mono (h.write p page) (fun _ t' q => ?_) (fun _ _ he => he)
    obtain ⟨hmem, hinv⟩ := q
    refine ⟨hinv, ?_, fun q _ hq => view_of_update hmem hq, ?_⟩
    · unfold view
      rw [hmem, Function.update_self]
      rfl
    · rw [hmem, rootIn_update (h.occupied.valid hp).1]
  alloc := by
    intro t U h
    refine wp_mono h.alloc (fun p t' q => ?_) (fun _ _ he => he)
    obtain ⟨hfresh, h0, hmem, hinv⟩ := q
    refine ⟨hfresh, hinv, fun q hq => view_of_update hmem fun he => hfresh (he ▸ hq), ?_⟩
    rw [hmem, rootIn_update h0]
  free := by
    intro t U p h hp
    refine wp_mono (h.free p) (fun _ t' q => ?_) (fun _ _ he => he)
    obtain ⟨h0, hmem, hinv⟩ := q
    refine ⟨hinv, fun q _ hq => view_of_update hmem hq, ?_⟩
    rw [hmem, rootIn_update h0]
  fetchMeta := by
    intro t U h
    refine wp_mono (h.fetch 0) (fun x t' q => ?_) (fun _ _ he => he)
    obtain ⟨hx, hmem, hinv⟩ := q
    rw [if_pos rfl] at hx
    refine ⟨root_of_fetch hx, hinv, fun q _ => ?_, by rw [hmem]⟩
    unfold view
    rw [hmem]
  persist := by
    intro t U id h hid
    refine wp_bind (wp_mono (h.fetch 0) (fun x t₁ q => ?_) (fun _ _ he => he))
    obtain ⟨_, hmem₁, hinv₁⟩ := q
    refine wp_mono (hinv₁.write 0 (x.setRoot id)) (fun _ t₂ q => ?_) (fun _ _ he => he)
    obtain ⟨hmem₂, hinv₂⟩ := q
    refine ⟨hinv₂, fun q hq => ?_, ?_⟩
    · rw [view_of_update hmem₂ (h.occupied.valid hq).1]
      unfold view
      rw [hmem₁]
    · rw [hmem₂]
      unfold rootIn
      rw [Function.update_self]
      exact Page.rootField_setRoot x id

end Tape

end MagnumDB
