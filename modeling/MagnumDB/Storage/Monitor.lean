import MagnumDB.Storage.BTree

/-!
# Monitors and fuel

A monitor around a page store looks at every call before it is made and stops the
program if the call is one it does not allow. It changes nothing else, so a
program that is not stopped ran exactly as it would have without the monitor.

The same argument removes the fuel bound: more fuel never changes the outcome of
a run that did not run out of it. Both are instances of a simulation between two
stores that the tree cannot tell apart, `Simulates`, and there is one lemma for
each function of the tree.
-/

namespace MagnumDB

/-- A call to a page store. -/
inductive PageCall where
  | fetch (id : PageId)
  | write (id : PageId) (page : Page)
  | alloc
  | free (id : PageId)

/-- The store that stops before any call the guard does not allow. -/
def PageStore.monitored {σ : Type} (S : PageStore σ) (guard : PageCall → σ → Bool) :
    PageStore σ where
  fetchPage id := fun s => if guard (.fetch id) s then S.fetchPage id s else (.error .stopped, s)
  writePage id page := fun s =>
    if guard (.write id page) s then S.writePage id page s else (.error .stopped, s)
  allocatePage := fun s => if guard .alloc s then S.allocatePage s else (.error .stopped, s)
  freePage id := fun s => if guard (.free id) s then S.freePage id s else (.error .stopped, s)

/-- The failures that say nothing about the program itself: it was stopped from outside. -/
def GaveUp (e : Fail) : Prop := e = .outOfFuel ∨ e = .stopped

/-- From related states, every call to `S` ends as the call to `S'` does, or gives up. -/
structure PageStore.Simulates {σ τ : Type} (R : σ → τ → Prop) (S : PageStore σ) (S' : PageStore τ) :
    Prop where
  fetch : ∀ id, Prog.Sim R GaveUp (S.fetchPage id) (S'.fetchPage id)
  write : ∀ id page, Prog.Sim R GaveUp (S.writePage id page) (S'.writePage id page)
  alloc : Prog.Sim R GaveUp S.allocatePage S'.allocatePage
  free : ∀ id, Prog.Sim R GaveUp (S.freePage id) (S'.freePage id)

/-- Every call to `S` does what the call to `S'` does, or gives up. -/
abbrev PageStore.Agrees {σ : Type} (S S' : PageStore σ) : Prop := PageStore.Simulates Eq S S'

variable {σ : Type}

theorem PageStore.Agrees.refl (S : PageStore σ) : S.Agrees S :=
  ⟨fun _ => .refl _, fun _ _ => .refl _, .refl _, fun _ => .refl _⟩

theorem upto_guarded {α : Type} (x : Prog Fail σ α) (g : σ → Bool) :
    Prog.Upto GaveUp (fun s => if g s then x s else (.error .stopped, s)) x := by
  intro s t h
  subst h
  by_cases hg : g s = true
  · have hrun : (if g s then x s else (.error .stopped, s)) = x s := if_pos hg
    exact Or.inr ⟨congrArg Prod.fst hrun, congrArg Prod.snd hrun⟩
  · exact Or.inl ⟨.stopped, Or.inr rfl, by simp [hg]⟩

theorem PageStore.monitored_agrees (S : PageStore σ) (guard : PageCall → σ → Bool) :
    (S.monitored guard).Agrees S :=
  ⟨fun _ => upto_guarded _ _, fun _ _ => upto_guarded _ _, upto_guarded _ _,
    fun _ => upto_guarded _ _⟩

/-! ## The tree under a monitor, or with less fuel -/

namespace BTree

variable {σ τ : Type} {R : σ → τ → Prop} {S : PageStore σ} {S' : PageStore τ}

open Prog

/-- Trees with the same root over related stores. -/
def Over (R : σ → τ → Prop) (t : BTree σ) (t' : BTree τ) : Prop :=
  t.rootPageId = t'.rootPageId ∧ R t.bufferPool t'.bufferPool

variable {α : Type}

/-- The tree over one store does what it does over the other, or gives up. -/
abbrev Follows (R : σ → τ → Prop) (x : Prog Fail (BTree σ) α) (y : Prog Fail (BTree τ) α) : Prop :=
  Sim (Over R) GaveUp x y

theorem sim_outOfFuel (y : Prog Fail (BTree τ) α) :
    Follows R (Prog.fail Fail.outOfFuel) y :=
  Sim.of_fail (show GaveUp Fail.outOfFuel from Or.inl rfl) y

theorem sim_onPool {x : Prog Fail σ α} {y : Prog Fail τ α} (h : Sim R GaveUp x y) :
    Follows R (onPool x) (onPool y) := by
  intro t t' hR
  rcases h _ _ hR.2 with hc | ⟨hr, hs⟩
  · exact Or.inl hc
  · exact Or.inr ⟨hr, hR.1, hs⟩

theorem sim_get {f : BTree σ → Prog Fail (BTree σ) α} {g : BTree τ → Prog Fail (BTree τ) α}
    (h : ∀ t t', t.rootPageId = t'.rootPageId → Follows R (f t) (g t')) :
    Follows R (Prog.get >>= f) (Prog.get >>= g) := by
  intro t t' hR
  rw [Prog.bind_of_ok (show Prog.get t = (.ok t, t) from rfl),
    Prog.bind_of_ok (show Prog.get t' = (.ok t', t') from rfl)]
  exact h t t' hR.1 t t' hR

theorem sim_setRoot (id : PageId) :
    Follows R (Prog.modify fun t : BTree σ => { t with rootPageId := id })
      (Prog.modify fun t : BTree τ => { t with rootPageId := id }) :=
  fun _ _ hR => Or.inr ⟨rfl, rfl, hR.2⟩

section
variable (hS : S.Simulates R S')
include hS

theorem readNode_sim (id : PageId) : Follows R (readNode S id) (readNode S' id) :=
  .bind (sim_onPool (hS.fetch id)) (fun _ => .const _)

theorem writeNode_sim (id : PageId) (n : Node) :
    Follows R (writeNode S id n) (writeNode S' id n) :=
  .bind (.const _) (fun _ => sim_onPool (hS.write id _))

theorem newRoot_sim : Sim R GaveUp (newRoot S) (newRoot S') := by
  refine .bind (hS.fetch 0) (fun page => ?_)
  dsimp only
  split
  · exact .bind hS.alloc (fun id => .bind (.const _) (fun _ => .bind (hS.write _ _) (fun _ =>
      .bind (hS.fetch 0) (fun _ => .bind (hS.write 0 _) (fun _ => .const _)))))
  · exact .const _

theorem persistRootPageId_sim (id : PageId) :
    Follows R (persistRootPageId S id) (persistRootPageId S' id) :=
  .bind (sim_onPool (hS.fetch 0)) (fun _ => sim_onPool (hS.write 0 _))

theorem writeChunks_sim : ∀ (cs : List Bytes),
    Follows R (writeChunks S cs) (writeChunks S' cs)
  | [] => .const _
  | _ :: rest =>
    .bind (writeChunks_sim rest) (fun _ => .bind (sim_onPool hS.alloc) (fun _ =>
      .bind (.const _) (fun _ => .bind (sim_onPool (hS.write _ _)) (fun _ => .const _))))

theorem writeOverflowValue_sim (value : Bytes) :
    Follows R (writeOverflowValue S value) (writeOverflowValue S' value) :=
  .bind (writeChunks_sim hS _) (fun _ => .const _)

variable {n m : Nat}

theorem resolveChain_sim (len : Nat) (h : n ≤ m) (id : PageId) (acc : Bytes) :
    Follows R (resolveChain S len n id acc) (resolveChain S' len m id acc) := by
  induction h using fuel_induction generalizing id acc with
  | zero m =>
    unfold resolveChain
    exact .ite (.const _) (sim_outOfFuel _)
  | succ n m h ih =>
    refine .ite (.const _) ?_
    exact .bind (sim_onPool (hS.fetch id)) (fun _ => .bind (.const _) (fun _ =>
      ih _ _))

theorem readValueResolveOverflow_sim (h : n ≤ m) (bs : Bytes) :
    Follows R (readValueResolveOverflow S n bs) (readValueResolveOverflow S' m bs) := by
  exact .ite (resolveChain_sim hS _ h _ _) (.const _)

theorem freeChain_sim (h : n ≤ m) (id : PageId) :
    Follows R (freeChain S n id) (freeChain S' m id) := by
  induction h using fuel_induction generalizing id with
  | zero m =>
    unfold freeChain
    exact .ite (.const _) (sim_outOfFuel _)
  | succ n m h ih =>
    refine .ite (.const _) ?_
    exact .bind (sim_onPool (hS.fetch id)) (fun _ => .bind (sim_onPool (hS.free id)) (fun _ =>
      ih _))

theorem freeOverflowChain_sim (h : n ≤ m) (bs : Bytes) :
    Follows R (freeOverflowChain S n bs) (freeOverflowChain S' m bs) := by
  exact .ite (freeChain_sim hS h _) (.const _)

theorem findLeafForInsert_sim (key : Bytes) (h : n ≤ m) (id : PageId) (x : Node) :
    Follows R (findLeafForInsert S key n id x) (findLeafForInsert S' key m id x) := by
  induction h using fuel_induction generalizing id x with
  | zero m =>
    cases x with
    | leaf l => unfold findLeafForInsert; exact .const _
    | internal i => unfold findLeafForInsert; exact sim_outOfFuel _
  | succ n m h ih =>
    cases x with
    | leaf l => unfold findLeafForInsert; exact .const _
    | internal i =>
      unfold findLeafForInsert
      cases i.children[childIndex i.keys key]? with
      | none => exact .const _
      | some c => exact .bind (readNode_sim hS c) (fun _ => ih _ _)

theorem findLeaf_sim (h : n ≤ m) (key : Bytes) :
    Follows R (findLeaf S n key) (findLeaf S' m key) := by
  refine sim_get (fun t t' hr => ?_)
  rw [hr]
  exact .bind (readNode_sim hS _) (fun _ => findLeafForInsert_sim hS key h _ _)

theorem findLeftmostLeaf_sim (h : n ≤ m) (id : PageId) :
    Follows R (findLeftmostLeaf S n id) (findLeftmostLeaf S' m id) := by
  induction h using fuel_induction generalizing id with
  | zero m => unfold findLeftmostLeaf; exact sim_outOfFuel _
  | succ n m h ih =>
    refine .bind (readNode_sim hS id) (fun x => ?_)
    cases x with
    | leaf l => exact .const _
    | internal i =>
      cases hc : i.children with
      | nil => simp only [hc]; exact .const _
      | cons c cs => simp only [hc]; exact ih c

theorem reparent_sim (id : PageId) : ∀ (cs : List PageId),
    Follows R (reparent S id cs) (reparent S' id cs)
  | [] => .const _
  | c :: cs =>
    .bind (readNode_sim hS c) (fun _ => .bind (writeNode_sim hS c _) (fun _ =>
      reparent_sim id cs))

theorem growRoot_sim (key : Bytes) (l : PageId) (x : Node) (r : PageId) :
    Follows R (growRoot S key l x r) (growRoot S' key l x r) :=
  .bind (sim_onPool hS.alloc) (fun _ => .bind (writeNode_sim hS _ _) (fun _ =>
    .bind (writeNode_sim hS _ _) (fun _ => .bind (readNode_sim hS _) (fun _ =>
      .bind (writeNode_sim hS _ _) (fun _ => .bind (sim_setRoot _) (fun _ =>
        persistRootPageId_sim hS _))))))

theorem splitInternalAndInsert_sim {climb : PageId → Bytes → PageId → Prog Fail (BTree σ) Unit}
    {climb' : PageId → Bytes → PageId → Prog Fail (BTree τ) Unit}
    (hc : ∀ p k r, Follows R (climb p k r) (climb' p k r)) (id : PageId) (i : InternalNode) :
    Follows R (splitInternalAndInsert S climb id i) (splitInternalAndInsert S' climb' id i) := by
  unfold splitInternalAndInsert
  dsimp only
  cases i.keys[i.keys.length / 2]? with
  | none => exact .const _
  | some pushUpKey =>
    refine .ite (.const _) ?_
    refine .bind (sim_onPool hS.alloc) (fun _ => .bind (writeNode_sim hS _ _) (fun _ =>
      .bind (writeNode_sim hS _ _) (fun _ => .bind (reparent_sim hS _ _) (fun _ => ?_))))
    cases i.parentPageId with
    | some p => exact hc _ _ _
    | none => exact growRoot_sim hS _ _ _ _

theorem insertIntoInternal_sim (h : n ≤ m) (p : PageId) (key : Bytes) (r : PageId) :
    Follows R (insertIntoInternal S n p key r) (insertIntoInternal S' m p key r) := by
  induction h using fuel_induction generalizing p key r with
  | zero m => unfold insertIntoInternal; exact sim_outOfFuel _
  | succ n m h ih =>
    refine .bind (readNode_sim hS p) (fun x => ?_)
    cases x with
    | leaf l => exact .const _
    | internal i =>
      refine .ite (.const _) ?_
      exact .ite (splitInternalAndInsert_sim hS ih _ _) (writeNode_sim hS _ _)

theorem splitLeafAndInsert_sim (h : n ≤ m) (id : PageId) (l : LeafNode) :
    Follows R (splitLeafAndInsert S n id l) (splitLeafAndInsert S' m id l) := by
  unfold splitLeafAndInsert
  dsimp only
  cases l.records.drop (l.records.length / 2) with
  | nil => exact .const _
  | cons r rs =>
    refine .bind (sim_onPool hS.alloc) (fun _ => .bind (writeNode_sim hS _ _) (fun _ =>
      .bind (writeNode_sim hS _ _) (fun _ => ?_)))
    cases l.parentPageId with
    | some p => exact insertIntoInternal_sim hS h _ _ _
    | none => exact growRoot_sim hS _ _ _ _

theorem storedForm_sim (value : Bytes) :
    Follows R (storedForm S value) (storedForm S' value) := by
  exact .ite (writeOverflowValue_sim hS value) (.const _)

theorem freeReplaced_sim (h : n ≤ m) (rs : List (Bytes × Bytes)) (pos : Nat) (key : Bytes) :
    Follows R (freeReplaced S n rs pos key) (freeReplaced S' m rs pos key) := by
  unfold freeReplaced
  cases rs[pos]? with
  | none => exact .const _
  | some x =>
    exact .ite (freeOverflowChain_sim hS h _) (.const _)

theorem writeOrSplitLeaf_sim (h : n ≤ m) (id : PageId) (l : LeafNode) :
    Follows R (writeOrSplitLeaf S n id l) (writeOrSplitLeaf S' m id l) := by
  exact .ite (splitLeafAndInsert_sim hS h _ _) (writeNode_sim hS _ _)

theorem insert_sim (h : n ≤ m) (key value : Bytes) :
    Follows R (insert S n key value) (insert S' m key value) := by
  refine .ite (.const _) ?_
  exact .bind (storedForm_sim hS value) (fun _ => .bind (findLeaf_sim hS h key) (fun _ =>
    .bind (freeReplaced_sim hS h _ _ _) (fun _ => writeOrSplitLeaf_sim hS h _ _)))

theorem search_sim (h : n ≤ m) (key : Bytes) :
    Follows R (search S n key) (search S' m key) := by
  refine .bind (findLeaf_sim hS h key) (fun r => ?_)
  dsimp only
  cases binarySearch (r.2.records.map Prod.fst) key with
  | error e => exact .const _
  | ok pos =>
    dsimp only
    cases r.2.records[pos]? with
    | none => exact .const _
    | some x => exact .bind (readValueResolveOverflow_sim hS h _) (fun _ => .const _)

theorem scanRecords_sim (h : n ≤ m) (pre : Bytes) :
    ∀ (rs : List (Bytes × Bytes)), Follows R (scanRecords S n pre rs) (scanRecords S' m pre rs)
  | [] => .const _
  | r :: rs => by
    refine .ite (.bind (readValueResolveOverflow_sim hS h _) fun _ =>
      .bind (scanRecords_sim h pre rs) fun _ => .const _) ?_
    exact .ite (.const _) (scanRecords_sim h pre rs)

theorem scanLeaves_sim (pre : Bytes) (h : n ≤ m) (l : LeafNode) :
    Follows R (scanLeaves S pre n l) (scanLeaves S' pre m l) := by
  induction h using fuel_induction generalizing l with
  | zero m => unfold scanLeaves; exact sim_outOfFuel _
  | succ n m h ih =>
    refine .bind (scanRecords_sim hS (Nat.succ_le_succ h) pre _) (fun r => ?_)
    refine .ite (.const _) ?_
    cases l.nextLeaf with
    | none => exact .const _
    | some next =>
      refine .bind (readNode_sim hS next) (fun x => ?_)
      cases x with
      | internal i => exact .const _
      | leaf l' => exact .bind (ih l') (fun _ => .const _)

theorem scanPrefix_sim (h : n ≤ m) (pre : Bytes) :
    Follows R (scanPrefix S n pre) (scanPrefix S' m pre) :=
  .bind (findLeaf_sim hS h pre) (fun _ => scanLeaves_sim hS pre h _)

theorem unlinkWalk_sim (id : PageId) (l : LeafNode) (h : n ≤ m) (p : PageId) :
    Follows R (unlinkWalk S id l n p) (unlinkWalk S' id l m p) := by
  induction h using fuel_induction generalizing p with
  | zero m => unfold unlinkWalk; exact sim_outOfFuel _
  | succ n m h ih =>
    refine .bind (readNode_sim hS p) (fun x => ?_)
    cases x with
    | internal i => exact .const _
    | leaf prev =>
      refine .ite (.bind (writeNode_sim hS _ _) fun _ => .bind (sim_onPool (hS.free id)) fun _ => .const _) ?_
      cases prev.nextLeaf with
      | none => exact .const _
      | some next => exact ih next

theorem unlinkEmptyLeaf_sim (h : n ≤ m) (id : PageId) (l : LeafNode) :
    Follows R (unlinkEmptyLeaf S n id l) (unlinkEmptyLeaf S' m id l) := by
  refine sim_get (fun t t' hr => ?_)
  rw [hr]
  refine .bind (findLeftmostLeaf_sim hS h _) (fun p => ?_)
  refine .ite (writeNode_sim hS _ _) ?_
  refine .bind (unlinkWalk_sim hS id l h p) (fun found => ?_)
  cases found with
  | true => exact .const _
  | false => exact writeNode_sim hS _ _

theorem writeOrUnlinkLeaf_sim (h : n ≤ m) (root id : PageId) (l : LeafNode) :
    Follows R (writeOrUnlinkLeaf S n root id l) (writeOrUnlinkLeaf S' m root id l) := by
  unfold writeOrUnlinkLeaf
  split
  · exact unlinkEmptyLeaf_sim hS h _ _
  · exact writeNode_sim hS _ _

theorem delete_sim (h : n ≤ m) (key : Bytes) :
    Follows R (delete S n key) (delete S' m key) := by
  refine sim_get (fun t t' hr => ?_)
  rw [hr]
  refine .bind (findLeaf_sim hS h key) (fun r => ?_)
  dsimp only
  cases binarySearch (r.2.records.map Prod.fst) key with
  | error e => exact .const _
  | ok pos =>
    dsimp only
    cases r.2.records[pos]? with
    | none => exact .const _
    | some x =>
      exact .bind (freeOverflowChain_sim hS h _) (fun _ =>
        writeOrUnlinkLeaf_sim hS h _ _ _)

end

/-! ## On one store

With the same states on both sides, simulation is agreement.
-/

theorem upto_of_over {x y : Prog Fail (BTree σ) α} (h : Follows Eq x y) :
    Upto GaveUp x y := by
  intro t t' ht
  subst ht
  rcases h t t ⟨rfl, rfl⟩ with hc | ⟨hr, hroot, hpool⟩
  · exact Or.inl hc
  · refine Or.inr ⟨hr, ?_⟩
    cases hx : (x t).2 with
    | mk pool root =>
      cases hy : (y t).2 with
      | mk pool' root' =>
        rw [hx, hy] at hroot hpool
        rw [show root = root' from hroot, show pool = pool' from hpool]

section
variable {S S' : PageStore σ} (hS : S.Agrees S') {n m : Nat} (h : n ≤ m)
include hS h

theorem insert_agrees (key value : Bytes) :
    Upto GaveUp (insert S n key value) (insert S' m key value) :=
  upto_of_over (insert_sim hS h key value)

theorem delete_agrees (key : Bytes) : Upto GaveUp (delete S n key) (delete S' m key) :=
  upto_of_over (delete_sim hS h key)

theorem search_agrees (key : Bytes) : Upto GaveUp (search S n key) (search S' m key) :=
  upto_of_over (search_sim hS h key)

theorem scanPrefix_agrees (pre : Bytes) :
    Upto GaveUp (scanPrefix S n pre) (scanPrefix S' m pre) :=
  upto_of_over (scanPrefix_sim hS h pre)

end

end BTree

end MagnumDB
