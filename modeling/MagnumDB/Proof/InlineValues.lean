import MagnumDB.Proof.PrefixScan

/-!
# Short values

A short value goes into the record of its key as it is. Whether it is later taken for what it is depends
on its bytes alone: a value of twelve bytes that begins with the magic of a handle is followed to the page
it happens to name, by a search as by the two places that free the chain of an old value. Every
other value is returned as it was stored, and neither overwriting nor deleting it frees a page
(`BTree.inline_kept_iff`).

That a call frees no page is stated without a trace of calls: its outcome does not depend on what
`free_page` does.
-/

namespace MagnumDB

open BPlus SortedAssoc Prog ByteString

/-! ## Calls that free no page -/

/-- The store with another way of freeing a page. -/
def PageStore.withFree {σ : Type} (S : PageStore σ) (f : PageId → Prog Fail σ Unit) : PageStore σ :=
  { S with freePage := f }

/-- The outcome does not depend on what freeing a page does. -/
def FreesNone {σ α : Type} (x : PageStore σ → Prog Fail (BTree σ) α) (S : PageStore σ) (t : BTree σ) :
    Prop :=
  ∀ f, x (S.withFree f) t = x S t

/-- Programs that go on alike wherever the first part ends, end alike. -/
theorem bind_eq_of_wp {ε σ α β : Type} {x : Prog ε σ α} {s : σ} {f g : α → Prog ε σ β} {E : ε → σ → Prop}
    (h : x.wp s (fun a s' => f a s' = g a s') E) : (x >>= f) s = (x >>= g) s := by
  rcases wp_cases h with ⟨a, s', hrun, heq⟩ | ⟨e, s', hrun, -⟩
  · rw [bind_of_ok hrun, bind_of_ok hrun]
    exact heq
  · rw [bind_of_error hrun, bind_of_error hrun]

namespace BTree

section Congr

variable {σ : Type} {S S' : PageStore σ}

theorem findLeafForInsert_congr (hfetch : S.fetchPage = S'.fetchPage) (key : Bytes) (fuel : Nat) :
    ∀ (p : PageId) (n : Node), findLeafForInsert S key fuel p n = findLeafForInsert S' key fuel p n := by
  induction fuel with
  | zero =>
    intro p n
    cases n with
    | leaf l => rfl
    | internal i => rfl
  | succ fuel ih =>
    intro p n
    cases n with
    | leaf l => rfl
    | internal i =>
      rw [findLeafForInsert, findLeafForInsert]
      simp only [readNode, hfetch, ih]

theorem findLeaf_congr (hfetch : S.fetchPage = S'.fetchPage) (fuel : Nat) (key : Bytes) :
    findLeaf S fuel key = findLeaf S' fuel key := by
  unfold findLeaf
  simp only [readNode, hfetch, findLeafForInsert_congr hfetch]

theorem findLeftmostLeaf_congr (hfetch : S.fetchPage = S'.fetchPage) (fuel : Nat) :
    ∀ p : PageId, findLeftmostLeaf S fuel p = findLeftmostLeaf S' fuel p := by
  induction fuel with
  | zero => exact fun p => rfl
  | succ fuel ih =>
    intro p
    rw [findLeftmostLeaf, findLeftmostLeaf]
    simp only [readNode, hfetch, ih]

end Congr

section WithFree

variable {σ : Type} (S : PageStore σ) (f : PageId → Prog Fail σ Unit)

theorem writeChunks_withFree : ∀ cs : List Bytes, writeChunks (S.withFree f) cs = writeChunks S cs
  | [] => rfl
  | c :: cs => by
    rw [writeChunks, writeChunks, writeChunks_withFree cs]
    rfl

theorem storedForm_withFree (value : Bytes) : storedForm (S.withFree f) value = storedForm S value := by
  unfold storedForm writeOverflowValue
  rw [writeChunks_withFree]

theorem reparent_withFree (p : PageId) : ∀ ps : List PageId, reparent (S.withFree f) p ps = reparent S p ps
  | [] => rfl
  | c :: ps => by
    rw [reparent, reparent, reparent_withFree p ps]
    rfl

theorem insertIntoInternal_withFree (fuel : Nat) : ∀ (p : PageId) (key : Bytes) (q : PageId),
    insertIntoInternal (S.withFree f) fuel p key q = insertIntoInternal S fuel p key q := by
  induction fuel with
  | zero => exact fun p key q => rfl
  | succ fuel ih =>
    intro p key q
    have hclimb : insertIntoInternal (S.withFree f) fuel = insertIntoInternal S fuel := by
      funext p key q
      exact ih p key q
    rw [insertIntoInternal, insertIntoInternal, hclimb]
    unfold splitInternalAndInsert
    simp only [reparent_withFree]
    rfl

theorem writeOrSplitLeaf_withFree (fuel : Nat) (p : PageId) (l : LeafNode) :
    writeOrSplitLeaf (S.withFree f) fuel p l = writeOrSplitLeaf S fuel p l := by
  unfold writeOrSplitLeaf splitLeafAndInsert
  simp only [insertIntoInternal_withFree]
  rfl

variable {S f}

/-- When a leaf is taken out of the chain, its own page is all that is freed. -/
theorem unlinkWalk_withFree {leafId : PageId} (hleaf : f leafId = S.freePage leafId) (l : LeafNode)
    (fuel : Nat) : ∀ p : PageId,
    unlinkWalk (S.withFree f) leafId l fuel p = unlinkWalk S leafId l fuel p := by
  induction fuel with
  | zero => exact fun p => rfl
  | succ fuel ih =>
    intro p
    rw [unlinkWalk, unlinkWalk]
    simp only [ih]
    simp only [PageStore.withFree, hleaf]
    rfl

theorem writeOrUnlinkLeaf_withFree {leafId : PageId} (hleaf : f leafId = S.freePage leafId) (fuel : Nat)
    (rootId : PageId) (l : LeafNode) :
    writeOrUnlinkLeaf (S.withFree f) fuel rootId leafId l = writeOrUnlinkLeaf S fuel rootId leafId l := by
  unfold writeOrUnlinkLeaf unlinkEmptyLeaf
  have hfetch : (S.withFree f).fetchPage = S.fetchPage := rfl
  simp only [unlinkWalk_withFree hleaf, findLeftmostLeaf_congr hfetch]
  rfl

end WithFree

/-! ## The record of a short value -/

/-- The leaf has the value in the record of the key. -/
def HasInline (key value : Bytes) (l : LeafNode) : Prop :=
  ∃ l₁ l₂, l.records = storedRecords (l₁ ++ (key, Slot.inline value) :: l₂) ∧ AllBelow key l₁ ∧
    AllAbove key l₂

variable {value : Bytes}

theorem HasInline.found {key : Bytes} {l : LeafNode} (h : HasInline key value l) :
    ∃ pos, binarySearch (l.records.map Prod.fst) key = .ok pos ∧ l.records[pos]? = some (key, value) := by
  obtain ⟨l₁, l₂, hrecs, h₁, -⟩ := h
  rw [hrecs]
  exact ⟨l₁.length, leaf_binarySearch_found h₁, leaf_getElem_found l₁ l₂ key (.inline value)⟩

theorem HasInline.freeReplaced_eq {σ : Type} (S : PageStore σ) {key : Bytes} {l : LeafNode}
    (h : HasInline key value l) (fuel : Nat) :
    freeReplaced S fuel l.records (searchPos (l.records.map Prod.fst) key) key
      = freeOverflowChain S fuel value := by
  obtain ⟨pos, hpos, hget⟩ := h.found
  unfold freeReplaced searchPos
  rw [hpos]
  dsimp only
  rw [hget]
  exact if_pos rfl

theorem freeOverflowChain_inline {σ : Type} (S : PageStore σ) (hv : isOverflowHandle value = false)
    (fuel : Nat) : freeOverflowChain S fuel value = pure () := by
  unfold freeOverflowChain
  rw [hv]
  rfl

section Record

variable {σ : Type} {S : PageStore σ} {L : S.Laws} {t : BTree σ} {U : Set PageId} {v : PageId → Page}
  {d : Nat} {c : PTree d} {key value : Bytes}

variable {n : Nat}

theorem wp_findLeaf_inline {E : Fail → BTree σ → Prop} (hat : At L t U v c.id)
    (hE : ∀ t', E .stopped t') (hr : Represents v c) (hU : ∀ p ∈ pagesOf c, p ∈ U)
    (hlook : lookup key c.records = some (.inline value)) (hn : d ≤ n) :
    (findLeaf S n key).wp t (fun leaf _ => HasInline key value leaf.2) E := by
  refine wp_findLeaf hat hE hr hU hn ?_
  intro ctx id recs t' hplug hf hloc hat'
  obtain ⟨l₁, o, l₂, rfl, h₁, h₂, ho⟩ := split_leaf (leaf_sorted hf) key
  have hkey : some (Slot.inline value) = o := by
    rw [← hlook, ← hplug, lookup_leaf hf.ctxShaped hloc, ho]
  subst hkey
  exact ⟨l₁, l₂, rfl, h₁, h₂⟩

theorem wp_findLeaf_inline_any (hat : At L t U v c.id) (hr : Represents v c)
    (hU : ∀ p ∈ pagesOf c, p ∈ U) (hlook : lookup key c.records = some (.inline value)) (n : Nat) :
    (findLeaf S n key).wp t (fun leaf _ => HasInline key value leaf.2) (fun _ _ => True) :=
  wp_of_upto (upto_of_over (findLeaf_sim (PageStore.Agrees.refl S) (Nat.le_max_left n d) key))
    (wp_findLeaf_inline (E := Stopped) hat (fun _ => rfl) hr hU hlook (Nat.le_max_right n d))

/-- Overwriting a value that is no handle frees nothing, if the descent finds it. -/
theorem insert_freesNone (hv : isOverflowHandle value = false) {value' : Bytes}
    (hfind : (storedForm S value').wp t (fun _ t' =>
      (findLeaf S n key).wp t' (fun leaf _ => HasInline key value leaf.2) (fun _ _ => True))
      (fun _ _ => True)) : FreesNone (fun S => insert S n key value') S t := by
  intro f
  show insert (S.withFree f) n key value' t = insert S n key value' t
  unfold insert
  by_cases hkey : key.length > maxKeySize
  · rw [if_pos hkey, if_pos hkey]
  · have hfetch : (S.withFree f).fetchPage = S.fetchPage := rfl
    rw [if_neg hkey, if_neg hkey, storedForm_withFree, findLeaf_congr hfetch]
    refine bind_eq_of_wp (wp_mono hfind ?_ (fun _ _ h => h))
    intro stored t' hleaf
    refine bind_eq_of_wp (wp_mono hleaf ?_ (fun _ _ h => h))
    rintro ⟨leafId, l⟩ t'' hhas
    dsimp only
    rw [hhas.freeReplaced_eq (S.withFree f), hhas.freeReplaced_eq S, freeOverflowChain_inline _ hv,
      freeOverflowChain_inline _ hv, writeOrSplitLeaf_withFree]

theorem delete_frees_leaf (hv : isOverflowHandle value = false)
    (hfind : (findLeaf S n key).wp t (fun leaf _ => HasInline key value leaf.2) (fun _ _ => True))
    {f : PageId → Prog Fail σ Unit}
    (hf : ∀ leafId l, (findLeaf S n key t).1 = .ok (leafId, l) → f leafId = S.freePage leafId) :
    delete (S.withFree f) n key t = delete S n key t := by
  have hfetch : (S.withFree f).fetchPage = S.fetchPage := rfl
  unfold delete
  rw [findLeaf_congr hfetch]
  show (findLeaf S n key >>= _) t = (findLeaf S n key >>= _) t
  rcases wp_cases hfind with ⟨⟨leafId, l⟩, t', hrun, hhas⟩ | ⟨e, t', hrun, -⟩
  · rw [bind_of_ok hrun, bind_of_ok hrun]
    have hleaf := hf leafId l (congrArg Prod.fst hrun)
    obtain ⟨pos, hpos, hget⟩ := hhas.found
    dsimp only
    rw [hpos]
    dsimp only
    rw [hget]
    dsimp only
    rw [freeOverflowChain_inline _ hv, freeOverflowChain_inline _ hv, writeOrUnlinkLeaf_withFree hleaf]
  · rw [bind_of_error hrun, bind_of_error hrun]

end Record

/-! ## On the pool -/

section Pool

variable {strict : Bool} {t : BTree BufferPool} {K : Set PageId} {d : Nat} {c : PTree d} {key value : Bytes}

/-- After the insertion of a short value the record of its key has it. -/
theorem insert_inline {t₁ : BTree BufferPool} {fuel : Nat} (ht : HoldsTree (BufferPool.laws strict) t K c)
    (hold : ∀ s ∈ lookup key c.records, s.Genuine) (hlen : value.length ≤ maxInlineValSize)
    (hrun : insert (guardedPool strict) fuel key value t = (.ok (), t₁)) :
    ∃ (h : Nat) (c' : PTree h), HoldsTree (BufferPool.laws strict) t₁ K c' ∧
      lookup key c'.records = some (.inline value) := by
  obtain ⟨h, c', s, ht₁, hslot, hrecs⟩ := wp_ok
    (wp_insert_any ht (key_le_of_insert_ok hrun) hold (Nat.le_max_right fuel _))
    (insert_more_fuel hrun (Nat.le_max_left _ _))
  rcases hslot with ⟨-, rfl⟩ | ⟨hlong, -⟩
  · refine ⟨h, c', ht₁, ?_⟩
    rw [hrecs]
    exact lookup_upsert_self key _ _
  · omega

variable (ht : HoldsTree BufferPool.closedLaws t K c) (hlook : lookup key c.records = some (.inline value))

include ht hlook

theorem wp_findLeaf_pool (n : Nat) :
    (findLeaf BufferPool.store n key).wp t (fun leaf _ => HasInline key value leaf.2) (fun _ _ => True) := by
  obtain ⟨v, hat, hrep, -⟩ := ht
  have hfetch : closedPool.fetchPage = BufferPool.store.fetchPage := rfl
  rw [← findLeaf_congr hfetch]
  exact wp_findLeaf_inline_any hat hrep (fun p hp => Or.inl hp) hlook n

theorem findLeaf_pool {n : Nat} (hn : d ≤ n) : ∃ leafId l t',
    findLeaf BufferPool.store n key t = (.ok (leafId, l), t') ∧ HasInline key value l := by
  obtain ⟨v, hat, hrep, -⟩ := ht
  have hfetch : closedPool.fetchPage = BufferPool.store.fetchPage := rfl
  rw [← findLeaf_congr hfetch]
  obtain ⟨⟨leafId, l⟩, t', hrun, hhas⟩ := (avoids_findLeaf closedPool_responds n key).returns
    (wp_findLeaf_inline (E := Stopped) hat (fun _ => rfl) hrep (fun p hp => Or.inl hp) hlook hn)
    (fun _ _ he => he)
  exact ⟨leafId, l, t', hrun, hhas⟩

theorem search_inline (hv : isOverflowHandle value = false) :
    ∃ t₂, Ends (fun n => search BufferPool.store n key) t (.ok (some value), t₂) := by
  obtain ⟨t₂, hends⟩ := search_closed ht key (fun s hs => by
    obtain rfl := Option.some.inj (hlook.symm.trans hs)
    exact hv)
  rw [hlook] at hends
  exact ⟨t₂, hends⟩

theorem search_empty_chain (hv : isOverflowHandle value) (hnone : handlePage value = u32Max) :
    ∃ t₂, Ends (fun n => search BufferPool.store n key) t (.ok (some []), t₂) := by
  obtain ⟨leafId, l, t₂, hrun, hhas⟩ := findLeaf_pool ht hlook (Nat.le_refl d)
  obtain ⟨pos, hpos, hget⟩ := hhas.found
  refine ⟨t₂, Ends.of_ok (fun hnm => search_agrees (.refl BufferPool.store) hnm key) (n := d) ?_⟩
  unfold search
  rw [bind_of_ok hrun]
  dsimp only
  rw [hpos]
  dsimp only
  rw [hget]
  dsimp only
  have hread : readValueResolveOverflow BufferPool.store d value = pure [] := by
    unfold readValueResolveOverflow resolveChain
    rw [if_pos hv]
    exact if_pos hnone
  rw [hread]
  rfl

theorem insert_frees_page (hkey : key.length ≤ maxKeySize) (hv : isOverflowHandle value)
    (hsome : handlePage value ≠ u32Max) (e : Fail) :
    (insert (BufferPool.store.withFree fun _ => fail e) (d + 1) key [] t).1 = .error e := by
  obtain ⟨leafId, l, t', hrun, hhas⟩ := findLeaf_pool ht hlook (Nat.le_succ d)
  have hfetch : (BufferPool.store.withFree fun _ => fail e).fetchPage = BufferPool.store.fetchPage := rfl
  have hfree : ∃ t'', freeOverflowChain (BufferPool.store.withFree fun _ => fail e) (d + 1) value t'
      = (.error e, t'') := by
    unfold freeOverflowChain freeChain
    rw [if_pos hv]
    refine ⟨_, (congrFun (if_neg hsome) t').trans rfl⟩
  obtain ⟨t'', hfree⟩ := hfree
  unfold insert
  rw [if_neg (Nat.not_lt.mpr hkey), findLeaf_congr hfetch]
  show ((findLeaf BufferPool.store (d + 1) key >>= _) t).1 = _
  rw [bind_of_ok hrun]
  dsimp only
  rw [hhas.freeReplaced_eq, bind_of_error hfree]

end Pool

/-- **A short value is kept as it is exactly if it does not look like a handle.** After its insertion a
search returns it, overwriting it frees no page, and deleting it frees none but the leaf of the key
when that is emptied. -/
theorem inline_kept_iff {strict : Bool} {t t₁ : BTree BufferPool} {K : Set PageId} {d : Nat} {c : PTree d}
    {key value : Bytes} {fuel : Nat} (ht : HoldsTree (BufferPool.laws strict) t K c)
    (hold : ∀ s ∈ lookup key c.records, s.Genuine) (hlen : value.length ≤ maxInlineValSize)
    (hrun : insert (guardedPool strict) fuel key value t = (.ok (), t₁)) :
    ((∃ t₂, Ends (fun n => search BufferPool.store n key) t₁ (.ok (some value), t₂)) ∧
      (∀ n value', value'.length ≤ maxInlineValSize →
        FreesNone (fun S => insert S n key value') BufferPool.store t₁) ∧
      (∀ n value', FreesNone (fun S => insert S n key value') (guardedPool strict) t₁) ∧
      ∀ n f, (∀ leafId l, (findLeaf BufferPool.store n key t₁).1 = .ok (leafId, l) →
          f leafId = BufferPool.store.freePage leafId) →
        delete (BufferPool.store.withFree f) n key t₁ = delete BufferPool.store n key t₁) ↔
      isOverflowHandle value = false := by
  obtain ⟨h, c', ht₁, hlook⟩ := insert_inline ht hold hlen hrun
  constructor
  · rintro ⟨⟨t₂, hfound⟩, hover, -⟩
    by_contra hv
    rw [Bool.not_eq_false] at hv
    by_cases hpage : handlePage value = u32Max
    · -- the search returns no bytes, and a handle has twelve
      obtain ⟨t₃, hempty⟩ := search_empty_chain ht₁.closed hlook hv hpage
      have hsame := Option.some.inj (Except.ok.inj (congrArg Prod.fst (hfound.unique hempty)))
      rw [hsame] at hv
      exact absurd hv (by decide)
    · -- the page is freed, so two ways of failing there can be told apart
      have hkey := key_le_of_insert_ok hrun
      have hpanic := insert_frees_page ht₁.closed hlook hkey hv hpage .panic
      have hstop := insert_frees_page ht₁.closed hlook hkey hv hpage .stopped
      have hsame := fun e => congrArg Prod.fst (hover (h + 1) [] (Nat.zero_le _) fun _ => fail e)
      exact absurd (hpanic.symm.trans ((hsame .panic).trans ((hsame .stopped).symm.trans hstop)))
        (by decide)
  · intro hv
    refine ⟨search_inline ht₁.closed hlook hv, ?_, ?_, ?_⟩
    · intro n value' hshort
      refine insert_freesNone hv ?_
      unfold storedForm
      rw [if_neg (Nat.not_lt.mpr hshort)]
      exact wp_pure (wp_findLeaf_pool ht₁.closed hlook n)
    · intro n value'
      obtain ⟨v, hat, hrep, -⟩ := ht₁
      refine insert_freesNone hv (wp_storedForm hat (fun _ => trivial) ?_)
      intro s v' t' _ _ _ _ hsame hat' _ _
      exact wp_findLeaf_inline_any hat' (hrep.congr fun p hp => hsame p (Or.inl hp))
        (fun p hp => Or.inl (Or.inl hp)) hlook n
    · intro n f hf
      exact delete_frees_leaf hv (wp_findLeaf_pool ht₁.closed hlook n) hf

/-- One byte, stored in a new tree. -/
theorem inline_kept_fresh : ∃ t₀ t₁ : BTree BufferPool, fresh 1024 1000 = .ok t₀ ∧
    insert (guardedPool true) 5 [1] [7] t₀ = (.ok (), t₁) ∧
    (((∃ t₂, Ends (fun n => search BufferPool.store n [1]) t₁ (.ok (some [7]), t₂)) ∧
      (∀ n value', value'.length ≤ maxInlineValSize →
        FreesNone (fun S => insert S n [1] value') BufferPool.store t₁) ∧
      (∀ n value', FreesNone (fun S => insert S n [1] value') (guardedPool true) t₁) ∧
      ∀ n f, (∀ leafId l, (findLeaf BufferPool.store n [1] t₁).1 = .ok (leafId, l) →
          f leafId = BufferPool.store.freePage leafId) →
        delete (BufferPool.store.withFree f) n [1] t₁ = delete BufferPool.store n [1] t₁) ↔
      isOverflowHandle [7] = false) := by
  obtain ⟨t₀, t₁, id, hfresh, ht₀, hrun⟩ := fresh_run_byte
  exact ⟨t₀, t₁, hfresh, hrun, inline_kept_iff ht₀ nofun (by decide) hrun⟩

/-- Twelve bytes that begin like a handle are stored and not found again. -/
theorem inline_forged : ∃ t₀ t₁ t₂ : BTree BufferPool, fresh 1024 1000 = .ok t₀ ∧
    forgedHandle.length ≤ maxInlineValSize ∧
    insert (guardedPool true) 5 [1] forgedHandle t₀ = (.ok (), t₁) ∧
    Ends (fun n => search BufferPool.store n [1]) t₁ (.ok (some []), t₂) ∧ forgedHandle ≠ [] := by
  obtain ⟨t₀, t₁, id, hfresh, ht₀, hrun⟩ := fresh_run_forged
  have hlen : forgedHandle.length ≤ maxInlineValSize := by decide
  obtain ⟨h, c, ht₁, hlook⟩ := insert_inline ht₀ nofun hlen hrun
  obtain ⟨t₂, hends⟩ := search_empty_chain ht₁.closed hlook (by decide) (by decide)
  exact ⟨t₀, t₁, t₂, hfresh, hlen, hrun, hends, by decide⟩

end BTree

end MagnumDB
