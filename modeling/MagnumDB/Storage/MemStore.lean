import MagnumDB.Storage.TreeNew

/-!
# The ideal page store

Pages in memory, numbered in the order in which they were allocated and never
reused. It is the simplest store that satisfies the laws the tree relies on, and
the tree can be run on it as it can on the buffer pool.
-/

namespace MagnumDB

open Prog

/-- Pages in memory. -/
structure MemStore where
  page : PageId → Page
  /-- The next page to hand out. -/
  next : PageId

namespace MemStore

/-- A store with nothing but the metadata page. -/
def init : MemStore := ⟨fun _ => Page.initialMeta, 1⟩

/-- The calls. Allocation stops when the page numbers are used up. -/
def store : PageStore MemStore where
  fetchPage id := fun s => (.ok (s.page id), s)
  writePage id page := modify (fun s => { s with page := Function.update s.page id page })
  allocatePage := fun s =>
    if s.next = u32Max then (.error .stopped, s) else (.ok s.next, { s with next := s.next + 1 })
  freePage _ := pure ()

theorem toNat_succ {n : PageId} (h : n ≠ u32Max) : (n + 1).toNat = n.toNat + 1 := by
  have hlt := n.toNat_lt
  have hne : n.toNat ≠ 4294967295 := fun he => h (UInt32.toNat_inj.mp he)
  rw [UInt32.toNat_add]
  have h1 : (1 : UInt32).toNat = 1 := rfl
  omega

/-- The pages in use have been handed out. -/
def Inv (s : MemStore) (U : Set PageId) : Prop :=
  0 < s.next.toNat ∧ ∀ p ∈ U, 0 < p.toNat ∧ p.toNat < s.next.toNat

theorem Inv.mono {s : MemStore} {U V : Set PageId} (h : s.Inv U) (hsub : V ⊆ U) : s.Inv V :=
  ⟨h.1, fun p hp => h.2 p (hsub hp)⟩

theorem Inv.ne_zero {s : MemStore} {U : Set PageId} {p : PageId} (h : s.Inv U) (hp : p ∈ U) :
    p ≠ 0 := by
  rintro rfl
  exact absurd (h.2 0 hp).1 (by decide)

/-- The ideal store satisfies the laws. -/
def laws : store.Laws where
  Inv := Inv
  view := page
  root s := (s.page 0).rootField
  valid := by
    intro s U p h hp
    refine ⟨h.ne_zero hp, ?_⟩
    rintro rfl
    have hlt := (h.2 _ hp).2
    have hmax := s.next.toNat_lt
    have hval : u32Max.toNat = 4294967295 := rfl
    omega
  fetch := fun h _ => ⟨rfl, h, fun _ _ => rfl, rfl⟩
  write := by
    intro s U p page h hp
    refine ⟨h, Function.update_self .., fun q _ hq => Function.update_of_ne hq .., ?_⟩
    show (Function.update s.page p page 0).rootField = _
    rw [Function.update_of_ne (h.ne_zero hp).symm]
  alloc := by
    intro s U h
    by_cases hfull : s.next = u32Max
    · exact wp_of_error (if_pos hfull) rfl
    · have hsucc := toNat_succ hfull
      have hfresh : s.next ∉ U := fun hu => absurd (h.2 _ hu).2 (Nat.lt_irrefl _)
      refine wp_of_ok (if_neg hfull) ⟨hfresh, ⟨by rw [hsucc]; omega, ?_⟩, fun _ _ => rfl, rfl⟩
      intro p hp
      rw [hsucc]
      rcases hp with hp | hp
      · have := h.2 p hp
        omega
      · have := h.1
        rw [hp]
        omega
  free := fun h _ => ⟨h.mono (fun _ hp => hp.1), fun _ _ _ => rfl, rfl⟩
  fetchMeta := fun h => ⟨rfl, h, fun _ _ => rfl, rfl⟩
  persist := by
    intro s U id h _
    refine ⟨h, fun q hq => Function.update_of_ne (h.ne_zero hq) .., ?_⟩
    show (Function.update s.page 0 ((s.page 0).setRoot id) 0).rootField = id
    rw [Function.update_self, Page.rootField_setRoot]

/-- The tree `BTree::new` makes on an empty ideal store. -/
def freshTree : BTree MemStore := ⟨(BTree.newRoot store init).2, 1⟩

theorem newRoot_init : BTree.newRoot store init = (.ok 1, freshTree.bufferPool) :=
  Prod.ext (by decide +kernel) rfl

theorem freshTree_holds : BTree.HoldsTree laws freshTree ∅ (BPlus.PlusTree.leaf 1 [] : PTree 0) := by
  have hinv : laws.Inv init ∅ := ⟨by decide, fun p hp => hp.elim⟩
  have hwp := BTree.wp_newRoot_empty (Q := fun id s' => BTree.HoldsTree laws ⟨s', id⟩ ∅
    (BPlus.PlusTree.leaf id [] : PTree 0)) (E := fun _ _ => True) hinv (fun _ => trivial)
    (Or.inl Page.initialMeta_root) (fun _ _ h => h)
  have h := wp_ok hwp newRoot_init
  exact h

end MemStore

end MagnumDB
