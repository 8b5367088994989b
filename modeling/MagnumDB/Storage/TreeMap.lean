import MagnumDB.Storage.TreeRun
import MagnumDB.Storage.Image

/-!
# The bindings of a tree

What a call does to the bindings of a tree, as a finite map, and what a run does.
-/

namespace MagnumDB

open BPlus SortedAssoc Prog

namespace TreeOp

/-- What the call does to a finite map. -/
def apply (m : Bytes → Option Bytes) : TreeOp → Bytes → Option Bytes
  | .insert key value => Function.update m key (some value)
  | .delete key => Function.update m key none
  | .search _ => m

/-- The key is within the limit of the tree, and the length of the value is one that can be
stored. -/
def Sized : TreeOp → Prop
  | .insert key value => key.length ≤ maxKeySize ∧ value.length < 2 ^ 32
  | _ => True

end TreeOp

/-- The finite map that a run from the empty map leads to. -/
def finalMap (ops : List TreeOp) : Bytes → Option Bytes := ops.foldl TreeOp.apply (fun _ => none)

/-- The tree holds exactly the bindings of a finite map, and every one of them reads back. There
may be pages in use that do not belong to the tree. -/
def HoldsMap (t : BTree BufferPool) (m : Bytes → Option Bytes) : Prop :=
  ∃ (K : Set PageId) (d : Nat) (c : PTree d), BTree.HoldsTree (BufferPool.laws false) t K c ∧
    BTree.Readable c ∧ ∀ k, (lookup k c.records).map Slot.value = m k

theorem BTree.Readable.genuine {d : Nat} {c : PTree d} (h : BTree.Readable c) : BTree.Genuine c :=
  fun x hx => (h x hx).genuine

variable {m : Bytes → Option Bytes}

theorem bindings_upsert {d h : Nat} {c : PTree d} {c' : PTree h} {key value : Bytes} {s : Slot}
    (hm : ∀ k, (lookup k c.records).map Slot.value = m k) (hslot : BTree.SlotFor value s)
    (hrec : c'.records = upsert key s c.records) (k : Bytes) :
    (lookup k c'.records).map Slot.value = Function.update m key (some value) k := by
  rw [hrec]
  by_cases hk : k = key
  · rw [hk, lookup_upsert_self, Function.update_self, Option.map_some, hslot.value_eq]
  · rw [lookup_upsert_ne hk, Function.update_of_ne hk, hm k]

theorem bindings_erase {d h : Nat} {c : PTree d} {c' : PTree h} {key : Bytes}
    (hm : ∀ k, (lookup k c.records).map Slot.value = m k) (hrec : c'.records = erase key c.records)
    (k : Bytes) : (lookup k c'.records).map Slot.value = Function.update m key none k := by
  rw [hrec]
  by_cases hk : k = key
  · rw [hk, lookup_erase_self, Function.update_self, Option.map_none]
  · rw [lookup_erase_ne hk, Function.update_of_ne hk, hm k]

variable {t : BTree BufferPool}

/-- **One call.** In a state in which it works, the call returns and does to the bindings what it
does to a map. -/
theorem HoldsMap.step {op : TreeOp} (h : HoldsMap t m) (hsize : op.Sized) (hok : op.Ok false t) :
    ∃ r t', Ends (op.exec BufferPool.store) t (.ok r, t') ∧ HoldsMap t' (op.apply m) := by
  obtain ⟨K, d, c, ht, hread, hm⟩ := h
  cases op with
  | insert key value =>
    obtain ⟨hv, hins⟩ := hok hsize.1
    obtain ⟨t', h, c', s, hends, ht', hslot, hrec⟩ :=
      BTree.insert_ends ht hread.genuine hsize.1 hins
    exact ⟨none, t', ends_bind_pure none hends, K, h, c', ht',
      BTree.records_upsert hrec hread (hslot.readable hv hsize.2), bindings_upsert hm hslot hrec⟩
  | delete key =>
    obtain ⟨t', c', hends, ht', hrec⟩ := BTree.delete_ends ht hread.genuine hok
    exact ⟨none, t', ends_bind_pure none hends, K, d, c', ht', BTree.records_erase hrec hread,
      bindings_erase hm hrec⟩
  | search key =>
    obtain ⟨t', hends, ht'⟩ := BTree.search_ends ht hread hok
    exact ⟨_, t', hends, K, d, c, ht', hread, hm⟩

/-- **A run.** By induction on the calls: each returns, and the map is carried along. -/
theorem HoldsMap.run {ops : List TreeOp} : ∀ {t : BTree BufferPool} {m : Bytes → Option Bytes},
    HoldsMap t m → (∀ op ∈ ops, op.Sized) → SafeRun false ops t →
    ∃ rs t', Runs ops t rs t' ∧ (∀ r ∈ rs, r.isOk) ∧ HoldsMap t' (ops.foldl TreeOp.apply m) := by
  induction ops with
  | nil => intro t m h _ _; exact ⟨[], t, .nil t, by simp, h⟩
  | cons op ops ih =>
    intro t m h hsize hsafe
    obtain ⟨hok, hrest⟩ := hsafe
    obtain ⟨r, t₁, hends, h₁⟩ := h.step (hsize op (List.mem_cons_self ..)) hok
    obtain ⟨rs, t', hruns, hrs, h'⟩ := ih h₁ (fun x hx => hsize x (List.mem_cons_of_mem _ hx))
      (hrest _ _ hends)
    refine ⟨.ok r :: rs, t', .cons hends hruns, fun x hx => ?_, h'⟩
    rcases List.mem_cons.mp hx with rfl | hx
    · rfl
    · exact hrs x hx

/-- The same for a run that was checked with the given fuel. -/
theorem HoldsMap.eval {fuel : Nat} {ops : List TreeOp} : ∀ {t : BTree BufferPool}
    {m : Bytes → Option Bytes}, HoldsMap t m → (∀ op ∈ ops, op.Sized) →
    checkRun false fuel ops t →
    HoldsMap (evalRun fuel ops t).2 (ops.foldl TreeOp.apply m) := by
  induction ops with
  | nil => exact fun h _ _ => h
  | cons op ops ih =>
    intro t m h hsize hcheck
    rw [checkRun, Bool.and_eq_true, Bool.and_eq_true] at hcheck
    obtain ⟨⟨hop, hfin⟩, hrest⟩ := hcheck
    obtain ⟨r, t₁, hends, h₁⟩ :=
      h.step (hsize op (List.mem_cons_self ..)) (TreeOp.ok_of_check hop)
    have hsame := hends.unique (ends_of_finished (op.exec_agrees (.refl _)) hfin)
    obtain rfl : t₁ = (op.exec BufferPool.store fuel t).2 := congrArg Prod.snd hsame
    exact ih h₁ (fun x hx => hsize x (List.mem_cons_of_mem _ hx)) hrest

/-- A pool in order fetches the pages in use as they are. -/
theorem BufferPool.core_fetches {U : Set PageId} {v : PageId → Page} {root : PageId}
    (hreach : ∀ k p, Reaches v root k p → p ∈ U) :
    BTree.Fetches BufferPool.store (fun s => s.Core U ∧ ∀ q ∈ U, s.view q = v q) v root := by
  intro k p s hp hs
  obtain ⟨hcore, hview⟩ := hs
  have hpU := hreach k p hp
  obtain ⟨hpage, hframe, hself, _⟩ := hcore.fetch (Or.inr hpU)
  refine ⟨(s.fetchPage p).2, ?_, hframe.core, fun q hq => ?_⟩
  · show (Except.ok (s.fetchPage p).1, (s.fetchPage p).2) = _
    rw [hpage, hview p hpU]
  · have hq0 := (hcore.used q hq).1
    by_cases hqp : q = p
    · rw [hqp, hself (hqp ▸ hq0)]
      exact hview p hpU
    · rw [hframe.view q hq0 hqp]
      exact hview q hq

/-- **Reading needs no care.** A search in a tree that holds a map returns what the map has,
whatever the pool evicts on the way. -/
theorem HoldsMap.search (h : HoldsMap t m) (key : Bytes) :
    ∃ t', Ends (fun n => BTree.search BufferPool.store n key) t (.ok (m key), t') := by
  obtain ⟨K, d, c, ⟨v, hat, hrep, hK⟩, hread, hm⟩ := h
  have hcore := hat.inv.1
  have hv : ∀ p ∈ pagesOf c, t.bufferPool.view p = v p := fun p hp => hat.view p (Or.inl hp)
  have hrep' : Represents t.bufferPool.view c := hrep.congr hv
  have hreach : ∀ k p, Reaches t.bufferPool.view c.id k p → p ∈ {p | p ∈ pagesOf c} ∪ K :=
    fun k p hp => Or.inl (hp.mem_pages hrep' fun x hx => (hread x hx).genuine)
  have hvalid : ∀ p ∈ pagesOf c, p ≠ 0 ∧ p ≠ u32Max := fun p hp =>
    ⟨(hcore.used p (Or.inl hp)).1, ne_u32Max_of_lt (hcore.used p (Or.inl hp)).2⟩
  obtain ⟨r, s', hrun, himage, _, _⟩ := BTree.reads_search (BufferPool.core_fetches hreach)
    (pagesOf c).length key t.bufferPool ⟨hcore, fun _ _ => rfl⟩
  have hr : r = .ok (m key) := by
    rw [← hm key, ← BTree.search_image hrep' hread hvalid hat.stored (Nat.le_refl _) key, himage]
  have ht : t = ⟨t.bufferPool, c.id⟩ := by
    rw [← hat.rootId]
  rw [hr, ← ht] at hrun
  exact ⟨_, Ends.of_ok (fun hnm => BTree.search_agrees (.refl _) hnm key) hrun⟩

theorem fresh_holdsMap {capacity interval : Nat} (h : BTree.fresh capacity interval = .ok t) :
    HoldsMap t (fun _ => none) := by
  obtain ⟨t', id, hfresh, -, ht⟩ := BTree.fresh_holds false capacity interval
  rw [h] at hfresh
  injection hfresh with hfresh
  subst hfresh
  have hnil : (PlusTree.leaf id [] : PTree 0).records = [] := rfl
  refine ⟨∅, 0, _, ht, fun x hx => ?_, fun k => ?_⟩
  · rw [hnil] at hx
    exact absurd hx List.not_mem_nil
  · rw [hnil]
    rfl

end MagnumDB
