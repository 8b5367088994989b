import MagnumDB.Storage.Tape
import MagnumDB.Storage.TreeMap

/-!
# Two insertions at a time

The tree takes no lock, so the page calls of two insertions interleave. `Race` is a
state of two insertions on one tree: each has made some page calls, and the next one
follows from these. `root_page_id` is read together with the first fetch, and set
together with the page call before.

In a run in which no call of the first insertion comes too late, which is what `Calm`
says, the pages are as if the insertions had been made one after the other.
-/

namespace MagnumDB

open BPlus SortedAssoc Prog

/-- A page call on the pool. -/
def BufferPool.call (s : BufferPool) : PageCall → Answer × BufferPool
  | .fetch p => (.page (s.fetchPage p).1, (s.fetchPage p).2)
  | .write p x => (.done, s.writePage p x)
  | .alloc => (.id s.allocatePage.1, s.allocatePage.2)
  | .free p => (.done, s.freePage p)

/-- The page is not free. -/
def BufferPool.taken (s : BufferPool) (p : PageId) : Bool :=
  p != 0 && decide (p < s.pager.numPages) && !s.pager.freeList.contains p

/-! ## The model -/

/-- An insertion in progress: its page calls so far, and the root it started from once it has
read it. -/
structure Insertion where
  key : Bytes
  value : Bytes
  events : List PageEvent
  root : Option PageId

namespace Insertion

variable (fuel : Nat) (i : Insertion)

/-- How far the insertion comes with its page calls, starting from a root. -/
def resume (root : PageId) : Except Fail Unit × BTree Tape :=
  BTree.insert Tape.store fuel i.key i.value ⟨⟨[], i.events, none⟩, root⟩

/-- The page call it makes next. -/
def next (root : PageId) : Option PageCall :=
  match i.resume fuel (i.root.getD root) with
  | (.error .stopped, t) => t.bufferPool.pending
  | _ => none

/-- The root as the insertion knows it. -/
def reached : Option PageId := i.root.map fun root => (i.resume fuel root).2.rootPageId

/-- The root it has set. -/
def moved : Option PageId := if i.reached fuel = i.root then none else i.reached fuel

/-- The insertion has returned `Ok`. -/
def returned : Bool :=
  match i.root with
  | none => false
  | some root =>
    match i.resume fuel root with
    | (.ok (), t) => t.bufferPool.left.isEmpty
    | _ => false

/-- The insertion after another page call. The first fetch comes with reading the root. -/
def add (root : PageId) (e : PageEvent) : Insertion :=
  { i with
    events := i.events ++ [e]
    root := if e.1.isFetch then some (i.root.getD root) else i.root }

end Insertion

/-- Two insertions on one tree, and the pages that are not free. -/
structure Race where
  tree : BTree BufferPool
  call : Bool → Insertion
  taken : PageId → Bool

namespace Race

variable (fuel : Nat)

/-- Two insertions that have not done anything yet. -/
def begin (t : BTree BufferPool) (key value : Bool → Bytes) : Race where
  tree := t
  call z := ⟨key z, value z, [], none⟩
  taken := t.bufferPool.taken

/-- The page call that one of them makes next. -/
def next (r : Race) (z : Bool) : Option PageCall := (r.call z).next fuel r.tree.rootPageId

/-- The event of a page call. -/
def event (r : Race) (c : PageCall) : PageEvent := (c, (r.tree.bufferPool.call c).1)

/-- That insertion after its page call. -/
def stepped (r : Race) (z : Bool) (c : PageCall) : Insertion :=
  (r.call z).add r.tree.rootPageId (r.event c)

/-- `root_page_id` after the page call. -/
def rootAfter (r : Race) (z : Bool) (c : PageCall) : PageId :=
  let before := ((r.call z).reached fuel).getD r.tree.rootPageId
  let after := ((r.stepped z c).reached fuel).getD r.tree.rootPageId
  if after = before then r.tree.rootPageId else after

/-- The pages that are not free after the page call. -/
def takenAfter (r : Race) (c : PageCall) : PageId → Bool :=
  match r.event c with
  | (.alloc, .id p) => Function.update r.taken p true
  | (.free p, _) => Function.update r.taken p false
  | _ => r.taken

/-- One of them makes a page call. -/
def step (r : Race) (z : Bool) (c : PageCall) : Race where
  tree := ⟨(r.tree.bufferPool.call c).2, r.rootAfter fuel z c⟩
  call := Function.update r.call z (r.stepped z c)
  taken := r.takenAfter c

/-- The states that the insertions lead to, in any order, if every page call meets a condition. -/
inductive Run (C : Race → Bool → PageCall → Prop) (r₀ : Race) : Race → Prop where
  | start : Run C r₀ r₀
  | step {r : Race} {z : Bool} {c : PageCall} : Run C r₀ r → r.next fuel z = some c → C r z c →
      Run C r₀ (r.step fuel z c)

/-- The page is in use. What is written to page 0 keeps the magic bytes. -/
def InUse (taken : PageId → Bool) : PageCall → Prop
  | .fetch p => p = 0 ∨ taken p
  | .write p x => p = 0 ∧ x.hasMagic ∨ taken p
  | .alloc => True
  | .free p => taken p

/-- **The page call is harmless.** It is one the pool can make, on a page in use; and if it is one of
the first insertion, then the second one has not yet used the same page or root, except that both
may have read it. -/
def Calm (first : Bool) (r : Race) (z : Bool) (c : PageCall) : Prop :=
  poolGuard false c r.tree.bufferPool ∧ InUse r.taken c ∧
    (z = first →
      (∀ e ∈ (r.call (!z)).events, ¬ pageCells.Conflict (r.event c) e) ∧
      (c.isFetch → (r.call z).root = none → (r.call (!z)).moved fuel = none) ∧
      ((r.stepped z c).moved fuel ≠ (r.call z).moved fuel → (r.call (!z)).root = none))

end Race

/-! ## The pool and the pages -/

/-- The pool has these pages. -/
structure BufferPool.Shows (s : BufferPool) (m : PageId → Option Page) (U : Set PageId) : Prop where
  occupied : Occupied m U
  inv : BufferPool.Inv false s U
  view : ∀ p ∈ U, m p = some (s.view p)
  root : s.root = rootIn m

namespace BufferPool.Shows

variable {s : BufferPool} {m : PageId → Option Page} {U : Set PageId} {p : PageId}

theorem some_of_mem (h : Shows s m U) (hp : p = 0 ∨ p ∈ U) : (m p).isSome := by
  rcases hp with rfl | hp
  · exact h.occupied.zero
  · exact ((h.occupied.pages p).mp hp).2

theorem fetch (h : Shows s m U) (hp : p = 0 ∨ p ∈ U) (hg : poolGuard false (.fetch p) s) :
    pageCells.Ok m (.fetch p, .page (s.fetchPage p).1) ∧ Shows (s.fetchPage p).2 m U := by
  have hrun : (guardedPool false).fetchPage p s = (.ok (s.fetchPage p).1, (s.fetchPage p).2) :=
    if_pos hg
  obtain ⟨hpage, hinv, hview, hroot⟩ := wp_ok (h.inv.fetch hp) hrun
  refine ⟨?_, h.occupied, hinv, fun q hq => ?_, hroot.trans h.root⟩
  · show if p = 0 then (m p).map Page.rootField = some (s.fetchPage p).1.rootField
      else m p = some (s.fetchPage p).1
    split
    · rename_i h0
      subst h0
      obtain ⟨x, hx⟩ := Option.isSome_iff_exists.mp h.occupied.zero
      have hroot' : s.root = x.rootField := by
        rw [h.root]
        unfold rootIn
        rw [hx]
        rfl
      rw [hx, hpage, Option.map_some, ← hroot']
      rfl
    · rename_i h0
      rw [hpage]
      exact h.view p (hp.resolve_left h0)
  · rw [hview q (h.occupied.valid hq).1]
    exact h.view q hq

theorem write {x : Page} (h : Shows s m U) (hp : p = 0 ∧ x.hasMagic ∨ p ∈ U)
    (hg : poolGuard false (.write p x) s) :
    pageCells.Ok m (.write p x, .done) ∧
      Shows (s.writePage p x) (Function.update m p (some x)) U := by
  have hrun : (guardedPool false).writePage p x s = (.ok (), s.writePage p x) := if_pos hg
  have hp' : p = 0 ∨ p ∈ U := hp.imp_left And.left
  have hmagic : p = 0 → x.hasMagic := by
    intro h0
    rcases hp with hp | hp
    · exact hp.2
    · exact absurd h0 (h.occupied.valid hp).1
  obtain ⟨hinv, hself, hview, hroot⟩ := wp_ok (h.inv.write hp' hmagic) hrun
  refine ⟨h.some_of_mem hp', h.occupied.write (h.some_of_mem hp'), hinv, fun q hq => ?_, ?_⟩
  · have hq0 := (h.occupied.valid hq).1
    by_cases he : q = p
    · subst he
      rw [Function.update_self, hself hq0]
    · rw [Function.update_of_ne he, hview q hq0 he]
      exact h.view q hq
  · rw [hroot]
    split
    · rename_i h0
      subst h0
      unfold rootIn
      rw [Function.update_self]
      rfl
    · rename_i h0
      rw [rootIn_update h0, h.root]

theorem alloc (h : Shows s m U) (hg : poolGuard false .alloc s) :
    pageCells.Ok m (.alloc, .id s.allocatePage.1) ∧ Shows s.allocatePage.2
      (Function.update m s.allocatePage.1 (some Page.default)) (U ∪ {s.allocatePage.1}) := by
  have hrun : (guardedPool false).allocatePage s = (.ok s.allocatePage.1, s.allocatePage.2) :=
    if_pos hg
  obtain ⟨hfresh, hinv, hview, hroot⟩ := wp_ok h.inv.alloc hrun
  obtain ⟨h0, hlast⟩ := (BufferPool.laws false).valid hinv (Or.inr rfl)
  have hnone : m s.allocatePage.1 = none := by
    by_contra hne
    exact hfresh ((h.occupied.pages _).mpr ⟨h0, Option.isSome_iff_ne_none.mpr hne⟩)
  refine ⟨⟨h0, hlast, hnone⟩, h.occupied.alloc h0 hlast, hinv, fun q hq => ?_, ?_⟩
  · by_cases he : q = s.allocatePage.1
    · -- the new page is not cached, and it was cleared in the file
      have hlook : s.allocatePage.2.look s.allocatePage.1 = none :=
        h.inv.1.look_unused h0 hfresh
      rw [he, Function.update_self, view_of_none hlook]
      exact congrArg some (Pager.allocatePage_cleared s.pager).symm
    · have hqU : q ∈ U := hq.resolve_right he
      rw [Function.update_of_ne he, hview q hqU]
      exact h.view q hqU
  · rw [hroot, rootIn_update h0, h.root]

theorem free (h : Shows s m U) (hp : p ∈ U) :
    pageCells.Ok m (.free p, .done) ∧ Shows (s.freePage p) (Function.update m p none) (U \ {p}) := by
  have hrun : (guardedPool false).freePage p s = (.ok (), s.freePage p) := rfl
  obtain ⟨hinv, hview, hroot⟩ := wp_ok (h.inv.free hp) hrun
  have h0 := (h.occupied.valid hp).1
  refine ⟨⟨h0, h.some_of_mem (Or.inr hp)⟩, h.occupied.free h0, hinv, fun q hq => ?_, ?_⟩
  · rw [Function.update_of_ne hq.2, hview q hq.1 hq.2]
    exact h.view q hq.1
  · rw [hroot, rootIn_update h0, h.root]

end BufferPool.Shows

namespace Race

variable {fuel : Nat} {first z : Bool} {r : Race} {c : PageCall}

/-- **A page call of either insertion** does to the pages what its event does. -/
theorem shows_step (fuel : Nat) (z : Bool) {m : PageId → Option Page} {U : Set PageId}
    (h : r.tree.bufferPool.Shows m U) (htaken : ∀ p, r.taken p → p ∈ U)
    (hguard : poolGuard false c r.tree.bufferPool) (huse : InUse r.taken c) :
    pageCells.Ok m (r.event c) ∧
      ∃ U', (r.step fuel z c).tree.bufferPool.Shows (pageCells.apply m (r.event c)) U' ∧
        ∀ p, r.takenAfter c p → p ∈ U' := by
  cases c with
  | fetch p =>
    obtain ⟨hok, hshows⟩ := h.fetch (huse.imp_right (htaken p)) hguard
    refine ⟨hok, U, ?_, htaken⟩
    rw [Cells.apply_read rfl]
    exact hshows
  | write p x =>
    obtain ⟨hok, hshows⟩ := h.write (huse.imp_right (htaken p)) hguard
    exact ⟨hok, U, hshows, htaken⟩
  | alloc =>
    obtain ⟨hok, hshows⟩ := h.alloc hguard
    refine ⟨hok, _, hshows, fun q hq => ?_⟩
    by_cases he : q = r.tree.bufferPool.allocatePage.1
    · exact Or.inr he
    · have hq' : Function.update r.taken r.tree.bufferPool.allocatePage.1 true q := hq
      rw [Function.update_of_ne he] at hq'
      exact Or.inl (htaken q hq')
  | free p =>
    obtain ⟨hok, hshows⟩ := h.free (htaken p huse)
    refine ⟨hok, _, hshows, fun q hq => ?_⟩
    have hq' : Function.update r.taken p false q := hq
    by_cases he : q = p
    · rw [he, Function.update_self] at hq'
      exact absurd hq' (by simp)
    · rw [Function.update_of_ne he] at hq'
      exact ⟨htaken q hq', he⟩

/-- The pages are as if the first insertion had made its page calls before the second one. -/
structure PagesInOrder (m : PageId → Option Page) (first : Bool) (r : Race) : Prop where
  okFirst : pageCells.OkRun m (r.call first).events
  okSecond : pageCells.OkRun (pageCells.run m (r.call first).events) (r.call (!first)).events
  pool : ∃ U, r.tree.bufferPool.Shows
    (pageCells.run (pageCells.run m (r.call first).events) (r.call (!first)).events) U ∧
      ∀ p, r.taken p → p ∈ U

theorem step_call_self (fuel : Nat) (r : Race) (z : Bool) (c : PageCall) :
    (r.step fuel z c).call z = r.stepped z c := Function.update_self ..

theorem step_call_other (fuel : Nat) (r : Race) (c : PageCall) {w : Bool} (h : w ≠ z) :
    (r.step fuel z c).call w = r.call w := Function.update_of_ne h ..

theorem stepped_events : (r.stepped z c).events = (r.call z).events ++ [r.event c] := rfl

theorem PagesInOrder.step {m : PageId → Option Page} (h : r.PagesInOrder m first)
    (hcalm : r.Calm fuel first z c) : (r.step fuel z c).PagesInOrder m first := by
  obtain ⟨hguard, huse, hfirst⟩ := hcalm
  obtain ⟨U, hshows, htaken⟩ := h.pool
  obtain ⟨hok, U', hshows', htaken'⟩ := shows_step fuel z hshows htaken hguard huse
  by_cases hz : z = first
  · -- the new event goes before those of the second insertion, which it does not conflict with
    subst hz
    obtain ⟨hok₁, hsecond, hrun⟩ := Cells.front h.okSecond hok (hfirst rfl).1
    have hself := congrArg Insertion.events (step_call_self fuel r z c)
    rw [stepped_events] at hself
    have hother := step_call_other fuel r c (Bool.not_ne_self z)
    refine ⟨?_, ?_, U', ?_, htaken'⟩
    · rw [hself, Cells.okRun_concat]
      exact ⟨h.okFirst, hok₁⟩
    · rw [hself, hother, Cells.run_concat]
      exact hsecond
    · rw [hself, hother, Cells.run_concat, hrun]
      exact hshows'
  · -- the new event is the last one
    obtain rfl : z = !first := Bool.eq_not_of_ne hz
    have hself := congrArg Insertion.events (step_call_self fuel r (!first) c)
    rw [stepped_events] at hself
    have hother := step_call_other fuel r c (Ne.symm hz)
    refine ⟨?_, ?_, U', ?_, htaken'⟩
    · rw [hother]
      exact h.okFirst
    · rw [hself, hother, Cells.okRun_concat]
      exact ⟨h.okSecond, hok⟩
    · rw [hself, hother, Cells.run_concat]
      exact hshows'

/-! ## The root -/

theorem reached_eq {i : Insertion} {b : PageId} (h : i.root = some b) :
    i.reached fuel = some ((i.moved fuel).getD b) := by
  unfold Insertion.moved
  split
  · rename_i he
    exact he.trans h
  · have hsome : i.reached fuel = some (i.resume fuel b).2.rootPageId := by
      unfold Insertion.reached
      rw [h]
      rfl
    rw [hsome]
    rfl

theorem reached_none {i : Insertion} (h : i.root = none) :
    i.reached fuel = none ∧ i.moved fuel = none := by
  have hnone : i.reached fuel = none := by
    unfold Insertion.reached
    rw [h]
    rfl
  refine ⟨hnone, ?_⟩
  unfold Insertion.moved
  rw [hnone, h]
  exact if_pos rfl

/-- An insertion that finds the root as it knows it leaves it as it knows it. -/
theorem rootAfter_eq {b : PageId} (hstart : ∀ s, (r.call z).root = some s → s = b)
    (hbase : r.tree.rootPageId = ((r.call z).moved fuel).getD b) :
    (∀ s, (r.stepped z c).root = some s → s = b) ∧
      r.rootAfter fuel z c = ((r.stepped z c).moved fuel).getD b := by
  have hbefore : ((r.call z).reached fuel).getD r.tree.rootPageId = r.tree.rootPageId := by
    cases hroot : (r.call z).root with
    | none =>
      rw [(reached_none hroot).1]
      rfl
    | some s =>
      rw [reached_eq (hstart s hroot ▸ hroot), hbase]
      rfl
  have hroot' : (r.call z).root.getD r.tree.rootPageId = b := by
    cases hroot : (r.call z).root with
    | none =>
      rw [(reached_none hroot).2] at hbase
      exact hbase
    | some s => exact hstart s hroot
  have hstart' : ∀ s, (r.stepped z c).root = some s → s = b := by
    intro s hs
    have hs' : (if c.isFetch then some ((r.call z).root.getD r.tree.rootPageId) else (r.call z).root)
        = some s := hs
    split at hs'
    · rw [← Option.some.inj hs', hroot']
    · exact hstart s hs'
  refine ⟨hstart', ?_⟩
  unfold rootAfter
  dsimp only
  rw [hbefore]
  cases hs : (r.stepped z c).root with
  | none =>
    -- it has not read the root yet
    have hnone : (r.call z).root = none := by
      have hs' : (if c.isFetch then some ((r.call z).root.getD r.tree.rootPageId)
          else (r.call z).root) = none := hs
      split at hs'
      · exact absurd hs' (by simp)
      · exact hs'
    rw [(reached_none hs).1, (reached_none hs).2, Option.getD_none, if_pos rfl, hbase,
      (reached_none hnone).2]
  | some s =>
    rw [reached_eq (hstart' s hs ▸ hs), Option.getD_some]
    split
    · rename_i he
      exact he.symm
    · rfl

/-- An insertion that does not set the root leaves it alone. -/
theorem rootAfter_of_unmoved (hroot : (r.stepped z c).root = (r.call z).root)
    (hmoved : (r.stepped z c).moved fuel = (r.call z).moved fuel) :
    r.rootAfter fuel z c = r.tree.rootPageId := by
  have hreached : (r.stepped z c).reached fuel = (r.call z).reached fuel := by
    cases hs : (r.call z).root with
    | none => rw [(reached_none hs).1, (reached_none (hroot.trans hs)).1]
    | some s => rw [reached_eq hs, reached_eq (hroot.trans hs), hmoved]
  unfold rootAfter
  rw [hreached]
  exact if_pos rfl

/-- The root is as if the first insertion had come before the second one. -/
structure RootInOrder (fuel : Nat) (root₀ : PageId) (first : Bool) (r : Race) : Prop where
  startFirst : ∀ s, (r.call first).root = some s → s = root₀
  startSecond : ∀ s, (r.call (!first)).root = some s → s = ((r.call first).moved fuel).getD root₀
  current : r.tree.rootPageId
    = ((r.call (!first)).moved fuel).getD (((r.call first).moved fuel).getD root₀)

theorem RootInOrder.step {root₀ : PageId} (h : r.RootInOrder fuel root₀ first)
    (hcalm : r.Calm fuel first z c) : (r.step fuel z c).RootInOrder fuel root₀ first := by
  obtain ⟨-, -, hfirst⟩ := hcalm
  by_cases hz : z = first
  · subst hz
    obtain ⟨-, hread, hmove⟩ := hfirst rfl
    have hself := step_call_self fuel r z c
    have hother := step_call_other fuel r c (Bool.not_ne_self z)
    -- once the second insertion has read the root, the first one does not set it
    have hsecond : ∀ s, (r.call (!z)).root = some s →
        (r.stepped z c).moved fuel = (r.call z).moved fuel := by
      intro s hs
      by_contra hne
      rw [hmove hne] at hs
      exact absurd hs (by simp)
    by_cases hm : (r.call (!z)).moved fuel = none
    · have hbase : r.tree.rootPageId = ((r.call z).moved fuel).getD root₀ := by
        rw [h.current, hm]
        rfl
      obtain ⟨hstart, hafter⟩ := rootAfter_eq (c := c) h.startFirst hbase
      refine ⟨?_, fun s hs => ?_, ?_⟩
      · rw [hself]
        exact hstart
      · rw [hother] at hs
        rw [hself, hsecond s hs]
        exact h.startSecond s hs
      · rw [hself, hother, hm]
        exact hafter
    · -- the second insertion has set it: the first one has read it before
      obtain ⟨s, hs⟩ : ∃ s, (r.call (!z)).root = some s := by
        cases hs : (r.call (!z)).root with
        | none => exact absurd (reached_none hs).2 hm
        | some s => exact ⟨s, rfl⟩
      have hroot : (r.stepped z c).root = (r.call z).root := by
        show (if c.isFetch then some ((r.call z).root.getD r.tree.rootPageId) else (r.call z).root) = _
        split
        · rename_i hf
          cases hn : (r.call z).root with
          | none => exact absurd (hread hf hn) hm
          | some s => rfl
        · rfl
      refine ⟨?_, ?_, ?_⟩
      · rw [hself, hroot]
        exact h.startFirst
      · rw [hself, hother, hsecond s hs]
        exact h.startSecond
      · rw [hself, hother, hsecond s hs]
        exact (rootAfter_of_unmoved hroot (hsecond s hs)).trans h.current
  · obtain rfl : z = !first := Bool.eq_not_of_ne hz
    have hself := step_call_self fuel r (!first) c
    have hother := step_call_other fuel r c (Ne.symm hz)
    obtain ⟨hstart, hafter⟩ := rootAfter_eq (c := c) h.startSecond h.current
    refine ⟨?_, ?_, ?_⟩
    · rw [hother]
      exact h.startFirst
    · rw [hself, hother]
      exact hstart
    · rw [hself, hother]
      exact hafter

end Race

end MagnumDB
