import MagnumDB.Proof.PrefixScan

/-!
# The sizes of the halves

A node that has grown too large is cut in the middle of its list of records, not of
its bytes. The half without the new record was part of a node that fitted, so it
fits. The other one fits if and only if the first one takes off at least as many
bytes as the node is too large by.
-/

namespace MagnumDB

open BPlus SortedAssoc Prog
open List hiding lookup

/-! ## Cutting a list of weights -/

section Weights

variable {α : Type} (w : α → Nat) (x : α) {l₁ : List α} (l₂ : List α) {i : Nat}

theorem sum_cut (l : List α) (i : Nat) :
    ((l.take i).map w).sum + ((l.drop i).map w).sum = (l.map w).sum := by
  rw [← sum_append, ← map_append, take_append_drop]

theorem sum_take_before (h : i ≤ l₁.length) :
    (((l₁ ++ x :: l₂).take i).map w).sum ≤ (l₁.map w).sum := by
  rw [take_append_of_le_length h]
  exact (sum_cut w l₁ i) ▸ Nat.le_add_right ..

theorem sum_drop_after (h : l₁.length < i) :
    (((l₁ ++ x :: l₂).drop i).map w).sum ≤ (l₂.map w).sum := by
  obtain ⟨j, rfl⟩ : ∃ j, i = l₁.length + (j + 1) := ⟨i - l₁.length - 1, by omega⟩
  rw [drop_append, drop_eq_nil_of_le (Nat.le_add_right ..), Nat.add_sub_cancel_left,
    nil_append, drop_succ_cons]
  exact (sum_cut w l₂ j) ▸ Nat.le_add_left ..

end Weights

/-! ## Leaves -/

/-- Bytes that records take in a leaf. -/
def leafBytes (recs : List (Bytes × Nat)) : Nat := (recs.map fun r => 4 + r.1.length + 4 + r.2).sum

/-- The half without the record at `pos` takes off what the leaf is too large by. -/
def leafBalanced (recs : List (Bytes × Nat)) (pos : Nat) : Bool :=
  let mid := recs.length / 2
  decide (leafSize recs ≤ pageSize + leafBytes (if pos < mid then recs.drop mid else recs.take mid))

/-- The halves of a leaf, given the record that is new and what it may have replaced. -/
theorem leafHalves_iff {l₁ o l₂ : List (Bytes × Nat)} {x : Bytes × Nat}
    (hold : leafSize (l₁ ++ (o ++ l₂)) ≤ pageSize) :
    (leafSize ((l₁ ++ x :: l₂).take ((l₁ ++ x :: l₂).length / 2)) ≤ pageSize ∧
      leafSize ((l₁ ++ x :: l₂).drop ((l₁ ++ x :: l₂).length / 2)) ≤ pageSize) ↔
      leafBalanced (l₁ ++ x :: l₂) l₁.length := by
  have hcut := sum_cut (fun r : Bytes × Nat => 4 + r.1.length + 4 + r.2) (l₁ ++ x :: l₂)
    ((l₁ ++ x :: l₂).length / 2)
  have hsum : leafBytes l₁ + leafBytes l₂ ≤ leafBytes (l₁ ++ (o ++ l₂)) := by
    unfold leafBytes
    simp only [map_append, sum_append]
    omega
  unfold leafBalanced
  rw [decide_eq_true_iff]
  unfold leafSize leafBytes at *
  by_cases hpos : l₁.length < (l₁ ++ x :: l₂).length / 2
  · have hright := sum_drop_after (fun r : Bytes × Nat => 4 + r.1.length + 4 + r.2) x l₂ hpos
    rw [if_pos hpos]
    omega
  · have hleft := sum_take_before (fun r : Bytes × Nat => 4 + r.1.length + 4 + r.2) x l₂ (Nat.le_of_not_lt hpos)
    rw [if_neg hpos]
    omega

/-! ## Internal nodes -/

/-- Bytes that separators take in an internal node, each with a child. -/
def keyBytes (keys : List Bytes) : Nat := (keys.map fun k => 4 + keySize k).sum

theorem innerSize_bytes (keys : List Bytes) : innerSize keys = internalHeaderSize + 4 + keyBytes keys := by
  have hsum : keyBytes keys = keys.length * 4 + (keys.map keySize).sum := by
    unfold keyBytes
    induction keys with
    | nil => rfl
    | cons k keys ih =>
      simp only [map_cons, sum_cons, length_cons, ih]
      omega
  unfold innerSize
  omega

/-- The new separator moves up, or the half without it and the one that moves up take off what the
node is too large by. -/
def innerBalanced (keys : List Bytes) (pos : Nat) : Bool :=
  let mid := keys.length / 2
  decide (pos = mid) || decide (innerSize keys ≤ pageSize +
    keyBytes (if pos < mid then keys.drop mid else keys.take (mid + 1)))

variable {k : Bytes}

theorem innerHalves_iff {l₁ l₂ : List Bytes} (hold : innerSize (l₁ ++ l₂) ≤ pageSize) :
    (innerSize ((l₁ ++ k :: l₂).take ((l₁ ++ k :: l₂).length / 2)) ≤ pageSize ∧
      innerSize ((l₁ ++ k :: l₂).drop ((l₁ ++ k :: l₂).length / 2 + 1)) ≤ pageSize) ↔
      innerBalanced (l₁ ++ k :: l₂) l₁.length := by
  have hcut := sum_cut (fun k => 4 + keySize k) (l₁ ++ k :: l₂)
  have hsum : keyBytes (l₁ ++ l₂) = keyBytes l₁ + keyBytes l₂ := by
    unfold keyBytes
    rw [map_append, sum_append]
  unfold innerBalanced
  rw [Bool.or_eq_true, decide_eq_true_iff, decide_eq_true_iff]
  simp only [innerSize_bytes] at *
  unfold keyBytes at *
  generalize hmid : (l₁ ++ k :: l₂).length / 2 = mid
  have hcut₀ := hcut mid
  have hcut₁ := hcut (mid + 1)
  rcases Nat.lt_trichotomy l₁.length mid with hpos | hpos | hpos
  · have hright := sum_drop_after (fun k => 4 + keySize k) k l₂
      (show l₁.length < mid + 1 by omega)
    rw [if_pos hpos]
    omega
  · -- the new separator itself moves up: both halves are old
    have hleft := sum_take_before (fun k => 4 + keySize k) k l₂ (Nat.le_of_eq hpos.symm)
    have hright := sum_drop_after (fun k => 4 + keySize k) k l₂
      (show l₁.length < mid + 1 by omega)
    rw [if_neg (by omega)]
    omega
  · have hleft := sum_take_before (fun k => 4 + keySize k) k l₂ (Nat.le_of_lt hpos)
    rw [if_neg (Nat.lt_asymm hpos)]
    omega

/-! ## The way up -/

/-- Whether every node that is split on the way up is balanced. -/
def splitsBalanced : List (List Bytes) → Bytes → Bool
  | [], _ => true
  | keys :: up, k =>
    let pos := searchPos keys k
    let keys := keys.insertIdx pos k
    decide (innerSize keys ≤ pageSize) ||
      (innerBalanced keys pos && splitsBalanced up (keys.getD (keys.length / 2) []))

theorem searchPos_le (keys : List Bytes) (key : Bytes) : searchPos keys key ≤ keys.length := by
  have hle : keys.findIdx (fun k => decide (¬ k < key)) ≤ keys.length := findIdx_le_length
  unfold searchPos binarySearch
  dsimp only
  split
  · rename_i pos heq
    split at heq
    · cases heq
      exact hle
    · cases heq
  · rename_i pos heq
    split at heq
    · cases heq
    · cases heq
      exact hle

theorem insertIdx_cut {α : Type} {l : List α} {i : Nat} (x : α) (hi : i ≤ l.length) :
    l.insertIdx i x = l.take i ++ x :: l.drop i := by
  have h := BTree.insertIdx_length x (l.drop i) (l.take i)
  rwa [take_append_drop, length_take, Nat.min_eq_left hi] at h

/-- A separator of a node that fits is short enough for a root of its own. -/
theorem innerSize_single {keys : List Bytes} (hk : k ∈ keys) (hfit : innerSize keys ≤ pageSize) :
    innerSize [k] ≤ pageSize := by
  have hle : 4 + keySize k ≤ keyBytes keys := by
    obtain ⟨l₁, l₂, rfl⟩ := append_of_mem hk
    unfold keyBytes
    simp only [map_append, map_cons, sum_append, sum_cons]
    omega
  have hone : keyBytes [k] = 4 + keySize k := by simp [keyBytes]
  rw [innerSize_bytes] at hfit ⊢
  omega

/-- Below nodes that fit, the halves fit if and only if the splits are balanced. -/
theorem splitsFit_eq : ∀ {path : List (List Bytes)} {k : Bytes},
    (∀ keys ∈ path, innerSize keys ≤ pageSize) → innerSize [k] ≤ pageSize →
    splitsFit path k = splitsBalanced path k
  | [], k, _, hk => decide_eq_true hk
  | keys :: up, k, hpath, hk => by
    have hfit := hpath keys mem_cons_self
    have hins := insertIdx_cut k (searchPos_le keys k)
    unfold splitsFit splitsBalanced
    dsimp only
    by_cases hroom : innerSize (keys.insertIdx (searchPos keys k) k) ≤ pageSize
    · rw [decide_eq_true hroom, Bool.true_or, Bool.true_or]
    · rw [decide_eq_false hroom, Bool.false_or, Bool.false_or]
      have hlen : (keys.take (searchPos keys k)).length = searchPos keys k := by
        rw [length_take, Nat.min_eq_left (searchPos_le keys k)]
      have hcut : innerSize (keys.take (searchPos keys k) ++ keys.drop (searchPos keys k)) ≤ pageSize := by
        rw [take_append_drop]
        exact hfit
      have hhalves := innerHalves_iff (k := k) hcut
      rw [← hins, hlen] at hhalves
      have hmid : innerSize [(keys.insertIdx (searchPos keys k) k).getD
          ((keys.insertIdx (searchPos keys k) k).length / 2) []] ≤ pageSize := by
        rw [getD_eq_getElem?_getD]
        cases hm : (keys.insertIdx (searchPos keys k) k)[
            (keys.insertIdx (searchPos keys k) k).length / 2]? with
        | none => decide
        | some m =>
          rcases eq_or_mem_of_mem_insertIdx (mem_of_getElem? hm) with rfl | hmem
          · exact hk
          · exact innerSize_single hmem hfit
      rw [splitsFit_eq (fun ks hks => hpath ks (mem_cons_of_mem _ hks)) hmid]
      congr 1
      rw [Bool.eq_iff_iff, Bool.and_eq_true, decide_eq_true_iff, decide_eq_true_iff]
      exact hhalves

/-! ## Insertion -/

/-- Whether the split of the leaf, if there is one, and those above it are balanced. -/
def leafSplitsBalanced (path : List (List Bytes)) (recs : List (Bytes × Nat)) (pos : Nat) : Bool :=
  decide (leafSize recs ≤ pageSize) || (leafBalanced recs pos &&
    splitsBalanced path ((recs.drop (recs.length / 2)).headD ([], 0)).1)

/-- The same, read off the pages before an insertion. -/
def insertBalanced (v : PageId → Page) (fuel : Nat) (root : PageId) (key value : Bytes) : Bool :=
  match pathTo v key fuel root [] with
  | some (path, _, leaf) =>
    leafSplitsBalanced path
      (upsert key (storedLen value) (leaf.records.map fun r => (r.1, r.2.length)))
      (searchPos (leaf.records.map Prod.fst) key)
  | none => false

theorem path_fits {v : PageId → Page} : ∀ {d h : Nat} (ctx : PCtx d h) {id : PageId}
    {first : Option PageId}, ctx.Shaped → (∀ e ∈ ctx.cells id first, CellAt v e) →
    ∀ keys ∈ ctx.path, innerSize keys ≤ pageSize
  | _, _, .top, _, _, _, _, keys, hk => absurd hk not_mem_nil
  | d, h, .frame i ks₁ cs₁ ks₂ cs₂ up, id, first, hs, hcells, keys, hk => by
    obtain ⟨h₁, h₂, _, _, hup⟩ := hs
    rcases mem_cons.mp hk with rfl | hk
    · obtain ⟨-, hfit⟩ := hcells _ mem_cons_self
      refine (innerSize_eq ?_).symm.trans_le hfit
      simp only [length_append, length_map, length_cons]
      omega
    · rw [Ctx.cells] at hcells
      have hcells' : ∀ e ∈ up.cells i (firstOf cs₁ first), CellAt v e := fun e he =>
        hcells e (mem_cons_of_mem _ (mem_append_right _ (mem_append_right _ he)))
      exact path_fits up hup hcells' keys hk

theorem innerSize_of_short (hk : k.length ≤ maxKeySize) : innerSize [k] ≤ pageSize := by
  have hone : keyBytes [k] = 4 + (4 + k.length) := by simp [keyBytes, keySize]
  have hmax : maxKeySize = 1024 := rfl
  have hpage : pageSize = 4096 := rfl
  have hheader : internalHeaderSize = 7 := rfl
  rw [innerSize_bytes]
  omega

theorem leafFits_eq {path : List (List Bytes)} {l₁ o l₂ : List (Bytes × Nat)} {x : Bytes × Nat}
    (hold : leafSize (l₁ ++ (o ++ l₂)) ≤ pageSize) (hpath : ∀ keys ∈ path, innerSize keys ≤ pageSize)
    (hkeys : ∀ r ∈ l₁ ++ x :: l₂, r.1.length ≤ maxKeySize) :
    leafFits path (l₁ ++ x :: l₂) = leafSplitsBalanced path (l₁ ++ x :: l₂) l₁.length := by
  have hhalves := leafHalves_iff (x := x) hold
  have hfirst : (((l₁ ++ x :: l₂).drop ((l₁ ++ x :: l₂).length / 2)).headD ([], 0)).1.length
      ≤ maxKeySize := by
    cases hd : (l₁ ++ x :: l₂).drop ((l₁ ++ x :: l₂).length / 2) with
    | nil => decide
    | cons y ys => exact hkeys y (mem_of_mem_drop (hd ▸ mem_cons_self))
  unfold leafFits leafSplitsBalanced
  dsimp only
  rw [splitsFit_eq hpath (innerSize_of_short hfirst)]
  congr 2
  rw [Bool.eq_iff_iff, Bool.and_eq_true, decide_eq_true_iff, decide_eq_true_iff]
  exact hhalves

theorem upsert_sizes {key : Bytes} {o : Option Slot} {l₁ l₂ : List (Bytes × Slot)} (n : Nat)
    (h₁ : AllBelow key l₁) (h₂ : AllAbove key l₂) :
    upsert key n (storedSizes (l₁ ++ (BTree.recordOf key o ++ l₂)))
      = storedSizes l₁ ++ (key, n) :: storedSizes l₂ := by
  have h₁' : AllBelow key (storedSizes l₁) := by
    intro r hr
    obtain ⟨x, hx, rfl⟩ := mem_map.mp hr
    exact h₁ x hx
  have h₂' : AllAbove key (storedSizes l₂) := by
    intro r hr
    obtain ⟨x, hx, rfl⟩ := mem_map.mp hr
    exact h₂ x hx
  unfold storedSizes at *
  rw [map_append, map_append]
  cases o with
  | none => exact upsert_absent h₁' h₂'
  | some s => exact upsert_found h₁'

/-- On pages that hold a tree, an insertion writes only nodes that fit if and only if all splits
are balanced. -/
theorem insertFits_eq {v : PageId → Page} {d : Nat} {c : PTree d} {key value : Bytes} {fuel : Nat}
    {ctx : PCtx 0 d} {id : PageId} {recs : List (Bytes × Slot)} (hr : Represents v c)
    (hs : ctx.Shaped) (hplug : ctx.plug (PlusTree.leaf id recs) = c) (hloc : ctx.Located key)
    (hfuel : d < fuel) (hkey : key.length ≤ maxKeySize)
    (hkeys : ∀ x ∈ c.records, x.1.length ≤ maxKeySize) :
    insertFits v fuel c.id key value = insertBalanced v fuel c.id key value := by
  have hf : Focus v ctx (PlusTree.leaf id recs) := Represents.focus (hplug ▸ hr) hs trivial
  obtain ⟨l₁, o, l₂, rfl, h₁, h₂, -⟩ := BTree.split_leaf (BTree.leaf_sorted hf) key
  have hold : leafSize (storedSizes l₁ ++ (storedSizes (BTree.recordOf key o) ++ storedSizes l₂))
      ≤ pageSize := by
    obtain ⟨-, hfit⟩ := hf.cells _ mem_cons_self
    have hsize := (leafSize_eq ctx.parent ctx.after (l₁ ++ (BTree.recordOf key o ++ l₂))).symm.trans_le
      hfit
    unfold storedSizes at hsize ⊢
    rwa [map_append, map_append] at hsize
  have hall : ∀ r ∈ storedSizes l₁ ++ (key, storedLen value) :: storedSizes l₂,
      r.1.length ≤ maxKeySize := by
    have hrec : ∀ x ∈ l₁ ++ (BTree.recordOf key o ++ l₂), x.1.length ≤ maxKeySize := by
      intro x hx
      refine hkeys x ?_
      have hrecs : (PlusTree.leaf id (l₁ ++ (BTree.recordOf key o ++ l₂))).records
          = l₁ ++ (BTree.recordOf key o ++ l₂) := recordsOf_rcds _
      rw [← hplug, Ctx.plug_records ctx _ hs, hrecs]
      exact mem_append_right _ (mem_append_left _ hx)
    intro r hr
    rcases mem_append.mp hr with hr | hr
    · obtain ⟨x, hx, rfl⟩ := mem_map.mp hr
      exact hrec x (mem_append_left _ hx)
    · rcases mem_cons.mp hr with rfl | hr
      · exact hkey
      · obtain ⟨x, hx, rfl⟩ := mem_map.mp hr
        exact hrec x (mem_append_right _ (mem_append_right _ hx))
  have hpos : (storedSizes l₁).length = l₁.length := length_map ..
  have hsizes : (storedRecords (l₁ ++ (BTree.recordOf key o ++ l₂))).map (fun r => (r.1, r.2.length))
      = storedSizes (l₁ ++ (BTree.recordOf key o ++ l₂)) := by
    unfold storedRecords storedSizes
    rw [map_map]
    rfl
  rw [insertFits_leaf hr hs hplug hloc hfuel]
  unfold insertBalanced
  rw [pathTo_leaf hr hs hplug hloc hfuel]
  dsimp only
  rw [hsizes, BTree.leaf_searchPos h₁ h₂, upsert_sizes _ h₁ h₂, ← hpos]
  exact leafFits_eq hold (path_fits ctx hs hf.ctxCells) hall

/-! ## Splits and insertions -/

/-- The leaf that `insert` writes back or splits. -/
def LeafNode.put (l : LeafNode) (key stored : Bytes) : LeafNode :=
  { l with records := upsertAt l.records (searchPos (l.records.map Prod.fst) key) key stored }

/-- The halves that `split_leaf_and_insert` writes, but for the pointers. -/
def LeafNode.leftHalf (l : LeafNode) : LeafNode :=
  { l with records := l.records.take (l.records.length / 2) }

def LeafNode.rightHalf (l : LeafNode) : LeafNode :=
  { l with records := l.records.drop (l.records.length / 2) }

def LeafNode.sizes (l : LeafNode) : List (Bytes × Nat) := l.records.map fun r => (r.1, r.2.length)

theorem LeafNode.size_eq (l : LeafNode) : (Node.leaf l).encodedSize = leafSize l.sizes := by
  unfold leafSize LeafNode.sizes
  rw [map_map]
  rfl

/-- A record is put between those before and those after it, in place of at most one. -/
theorem LeafNode.put_cut (l : LeafNode) (key stored : Bytes) : ∃ l₁ o l₂,
    l.sizes = l₁ ++ (o ++ l₂) ∧ (l.put key stored).sizes = l₁ ++ (key, stored.length) :: l₂ ∧
      l₁.length = searchPos (l.records.map Prod.fst) key := by
  have hle : searchPos (l.records.map Prod.fst) key ≤ l.records.length :=
    (searchPos_le _ _).trans_eq (List.length_map ..)
  generalize hpos : searchPos (l.records.map Prod.fst) key = pos at hle
  have hlen : (l.sizes.take pos).length = pos := by
    rw [List.length_take, LeafNode.sizes, List.length_map, Nat.min_eq_left hle]
  have hins : (l.records.insertIdx pos (key, stored)).map (fun r => (r.1, r.2.length))
      = l.sizes.take pos ++ (key, stored.length) :: l.sizes.drop pos := by
    rw [insertIdx_cut _ hle, List.map_append, List.map_cons, List.map_take, List.map_drop]
    rfl
  have hput : (l.put key stored).sizes
      = (upsertAt l.records pos key stored).map fun r => (r.1, r.2.length) := by
    rw [← hpos]
    rfl
  rw [hput]
  unfold upsertAt
  split
  · rename_i r hr
    split
    · -- the key is there: its record is replaced
      rename_i hkey
      have hlt : pos < l.records.length := (List.getElem?_eq_some_iff.mp hr).1
      have hlt' : pos < l.sizes.length := hlt.trans_eq (List.length_map ..).symm
      refine ⟨l.sizes.take pos, [l.sizes[pos]], l.sizes.drop (pos + 1), ?_, ?_, hlen⟩
      · rw [List.singleton_append, ← List.drop_eq_getElem_cons, List.take_append_drop]
      · rw [List.set_eq_take_append_cons_drop, if_pos hlt, List.map_append, List.map_cons,
          List.map_take, List.map_drop, hkey]
        rfl
    · exact ⟨_, [], _, (List.take_append_drop ..).symm, hins, hlen⟩
  · exact ⟨_, [], _, (List.take_append_drop ..).symm, hins, hlen⟩

namespace BTree

/-- An insertion ends, and it returns `Ok` if and only if the splits are balanced. -/
theorem insert_ends_iff {strict : Bool} {t : BTree BufferPool} {K : Set PageId} {d : Nat}
    {c : PTree d} {key value : Bytes} (ht : HoldsTree (BufferPool.laws strict) t K c)
    (hkeys : ∀ x ∈ c.records, x.1.length ≤ maxKeySize) (hkey : key.length ≤ maxKeySize)
    (hold : ∀ s ∈ lookup key c.records, s.Genuine)
    (hcalm : Calm (fun n => insert (guardedPool strict) n key value) t) :
    ∃ r t', Ends (fun n => insert BufferPool.store n key value) t (r, t') ∧
      (r = .ok () ↔ insertBalanced t.bufferPool.view t.bufferPool.pager.numPages.toNat t.rootPageId
        key value) := by
  obtain ⟨hrep, hroot, hd⟩ := ht.pool
  obtain ⟨n, hn⟩ := hcalm
  generalize hb : insertBalanced t.bufferPool.view t.bufferPool.pager.numPages.toNat t.rootPageId
    key value = b
  -- with every split balanced it can only return, with one that is not it can only fail
  have hfits : ∀ (ctx : PCtx 0 d) id recs, ctx.Shaped → ctx.plug (PlusTree.leaf id recs) = c →
      ctx.Located key →
      leafFits ctx.path (upsert key (storedLen value) (storedSizes recs)) = b := by
    intro ctx id recs hs hplug hloc
    rw [← insertFits_leaf hrep hs hplug hloc hd, insertFits_eq hrep hs hplug hloc hd hkey hkeys,
      ← hroot, hb]
  have hwp := wp_insert (E := fun e _ => e = .stopped ∨ (b = false ∧ ∃ e', e = .err e'))
    (Q := fun _ _ => b) ht (fun _ => Or.inl rfl) hkey hold
    (Nat.le_max_left (pagesOf c).length n)
    (fun ctx id recs hs hplug hloc hno _ _ =>
      Or.inr ⟨(hfits ctx id recs hs hplug hloc).symm.trans hno, _, rfl⟩)
    (fun ctx id recs hs hplug hloc hyes _ _ _ _ _ _ _ =>
      (hfits ctx id recs hs hplug hloc).symm.trans hyes)
  have hrun := fun h => Ends.of_run (s := t) (n := max (pagesOf c).length n)
    (fun hnm => insert_agrees (guarded_agrees strict) hnm key value) h
  rcases wp_cases hwp with ⟨⟨⟩, t', heq, hyes⟩ | ⟨e, t', heq, hstop | ⟨hno, e', rfl⟩⟩
  · refine ⟨.ok (), t', heq ▸ hrun fun e _ he => ?_, fun _ => hyes, fun _ => rfl⟩
    rw [heq] at he
    cases he
  · subst hstop
    exact absurd (congrArg Prod.fst heq) (hn _ (Nat.le_max_right (pagesOf c).length n))
  · refine ⟨.error (.err e'), t', heq ▸ hrun fun e hgave he => ?_, ?_, ?_⟩
    · rw [heq] at he
      cases he
      exact absurd hgave (by simp [GaveUp])
    · exact fun he => by cases he
    · exact fun hyes => absurd (hno.symm.trans hyes) (by decide)

/-- **When splits give nodes that fit.** A leaf that fits and gets a record is cut into halves that
fit if and only if the cut is balanced, and so is an internal node that gets a separator. An
insertion returns `Ok` if and only if all cuts on its way up are balanced. -/
theorem split_fits_iff {strict : Bool} {t : BTree BufferPool} {K : Set PageId} {d : Nat}
    {c : PTree d} {key value : Bytes} (ht : HoldsTree (BufferPool.laws strict) t K c)
    (hkeys : ∀ x ∈ c.records, x.1.length ≤ maxKeySize) (hkey : key.length ≤ maxKeySize)
    (hold : ∀ s ∈ lookup key c.records, s.Genuine)
    (hcalm : Calm (fun n => insert (guardedPool strict) n key value) t) :
    (∀ (l : LeafNode) (k stored : Bytes), (Node.leaf l).encodedSize ≤ pageSize →
      ((Node.leaf (l.put k stored).leftHalf).encodedSize ≤ pageSize ∧
        (Node.leaf (l.put k stored).rightHalf).encodedSize ≤ pageSize ↔
        leafBalanced (l.put k stored).sizes (searchPos (l.records.map Prod.fst) k))) ∧
    (∀ (i : InternalNode) (k : Bytes) (right : PageId), i.children.length = i.keys.length + 1 →
      (Node.internal i).encodedSize ≤ pageSize →
      ((Node.internal (splitLeft (addChild i k right))).encodedSize ≤ pageSize ∧
        (Node.internal (splitRight (addChild i k right))).encodedSize ≤ pageSize ↔
        innerBalanced (addChild i k right).keys (searchPos i.keys k))) ∧
    ∃ r t', Ends (fun n => insert BufferPool.store n key value) t (r, t') ∧
      (r = .ok () ↔ insertBalanced t.bufferPool.view t.bufferPool.pager.numPages.toNat t.rootPageId
        key value) := by
  refine ⟨fun l k stored hfit => ?_, fun i k right hlen hfit => ?_,
    insert_ends_iff ht hkeys hkey hold hcalm⟩
  · obtain ⟨l₁, o, l₂, hsizes, hput, hpos⟩ := l.put_cut k stored
    have hl : (l.put k stored).leftHalf.sizes
        = (l.put k stored).sizes.take ((l.put k stored).sizes.length / 2) := by
      simp [LeafNode.sizes, LeafNode.leftHalf, map_take]
    have hr : (l.put k stored).rightHalf.sizes
        = (l.put k stored).sizes.drop ((l.put k stored).sizes.length / 2) := by
      simp [LeafNode.sizes, LeafNode.rightHalf, map_drop]
    rw [LeafNode.size_eq, hsizes] at hfit
    rw [LeafNode.size_eq, LeafNode.size_eq, hl, hr, hput, ← hpos]
    exact leafHalves_iff hfit
  · have hle := searchPos_le i.keys k
    have hkeys' : (addChild i k right).keys
        = i.keys.take (searchPos i.keys k) ++ k :: i.keys.drop (searchPos i.keys k) :=
      insertIdx_cut k hle
    have hkids : (addChild i k right).children.length = (addChild i k right).keys.length + 1 := by
      unfold addChild
      rw [length_insertIdx_of_le_length (by omega), length_insertIdx_of_le_length hle, hlen]
    have hl : (splitLeft (addChild i k right)).children.length
        = (splitLeft (addChild i k right)).keys.length + 1 := by
      unfold splitLeft
      simp only [length_take, hkids]
      omega
    have hr : (splitRight (addChild i k right)).children.length
        = (splitRight (addChild i k right)).keys.length + 1 := by
      have hpos : 0 < (addChild i k right).keys.length := by
        rw [hkeys', length_append]
        exact Nat.add_pos_right _ (Nat.succ_pos _)
      unfold splitRight
      simp only [length_drop, hkids]
      omega
    have hpos : (i.keys.take (searchPos i.keys k)).length = searchPos i.keys k := by
      rw [length_take, Nat.min_eq_left hle]
    rw [innerSize_eq hlen, ← take_append_drop (searchPos i.keys k) i.keys] at hfit
    rw [innerSize_eq hl, innerSize_eq hr]
    have hiff := innerHalves_iff (k := k) hfit
    rw [hpos, ← hkeys'] at hiff
    exact hiff

/-- A leaf with a record of 2109 bytes is cut well when one of 2009 bytes is put before it, and the
first insertion into a new tree has nothing to cut. -/
theorem split_fits_fresh : ∃ (t t' : BTree BufferPool) (r : Except Fail Unit) (l : LeafNode),
    pageSize < (Node.leaf (l.put [1] (List.replicate 2000 7))).encodedSize ∧
      (Node.leaf (l.put [1] (List.replicate 2000 7)).rightHalf).encodedSize ≤ pageSize ∧
      Ends (fun n => insert BufferPool.store n [1] [7]) t (r, t') ∧ r = .ok () := by
  obtain ⟨t₀, t₁, id, -, ht₀, hrun⟩ := fresh_run_byte
  have hcalm : Calm (fun n => insert (guardedPool true) n [1] [7]) t₀ :=
    calm_of_ok (fun hnm => insert_agrees (.refl _) hnm [1] [7]) (congrArg Prod.fst hrun)
  obtain ⟨hleaf, -, r, t', hends, -⟩ := split_fits_iff ht₀ (fun x hx => absurd hx not_mem_nil)
    (by decide) nofun hcalm
  have hok := Ends.of_ok (fun hnm => insert_agrees (guarded_agrees true) hnm [1] [7]) hrun
  refine ⟨t₀, t', r, ⟨none, none, [(List.replicate 101 2, List.replicate 2000 7)]⟩, ?_, ?_, hends,
    congrArg Prod.fst (hends.unique hok)⟩
  · decide +kernel
  · exact ((hleaf _ _ _ (by decide +kernel)).mpr (by decide +kernel)).2

/-- A key of 100 bytes. -/
def largeKey (b : UInt8) : Bytes := List.replicate 100 b

/-- The longest value that is stored inline. -/
def largeValue : Bytes := List.replicate maxInlineValSize 7

set_option maxRecDepth 100000 in
/-- **A key of 100 bytes is refused.** After a short record and one of 2108 bytes, another one of
2108 bytes goes into one half with the second, which then takes 4227 bytes. -/
theorem insert_oversized : (fresh 1024 1000).toOption.any (fun t₀ =>
    let r₁ := insert BufferPool.store 5 [1] [1] t₀
    let r₂ := insert BufferPool.store 5 (largeKey 2) largeValue r₁.2
    let r₃ := insert BufferPool.store 5 (largeKey 3) largeValue r₂.2
    r₁.1.isOk && r₂.1.isOk && decide (r₃.1 = .error (.err (.nodeTooLarge 4227 pageSize)))) := by
  decide +kernel

end BTree

end MagnumDB
