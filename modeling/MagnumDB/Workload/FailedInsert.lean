import MagnumDB.Proof.SplitSizes

/-!
# Insertions that fail

An insertion writes several nodes, and any of them may be too large for its page.
If the first one is, the left half of the leaf, then nothing has been written yet
and the tree is as it was; pages that were allocated are lost. If a later one is,
records of the leaf have been written elsewhere and cannot be found any more.

Before the leaf is written, the chain of the old value is freed. So the tree is
only as it was if the old value had none.
-/

namespace MagnumDB

open BPlus SortedAssoc Prog

/-- Whether the left half of the leaf is too large that an insertion splits. -/
def leftRefused (v : PageId → Page) (fuel : Nat) (root : PageId) (key value : Bytes) : Bool :=
  match pathTo v key fuel root [] with
  | some (_, _, leaf) =>
    let recs := upsert key (storedLen value) (leaf.records.map fun r => (r.1, r.2.length))
    decide (pageSize < leafSize (recs.take (recs.length / 2)))
  | none => false

namespace BTree

section

variable {σ : Type} {S : PageStore σ} {L : S.Laws} {t : BTree σ} {v : PageId → Page}
  {E : Fail → BTree σ → Prop} {d : Nat} {K : Set PageId} {c : PTree d} {key value : Bytes}

theorem wp_writeNode_refused {p : PageId} {n : Node} {Q : Unit → BTree σ → Prop}
    (hbig : ¬ n.encodedSize ≤ pageSize) (hE : E (.err (.nodeTooLarge n.encodedSize pageSize)) t) :
    (writeNode S p n).wp t Q E :=
  wp_bind (wp_lift_error (Node.toPage_of_not_fits hbig) hE)

/-- The left half is refused: a page has been allocated, and that is all. -/
theorem wp_put_refused {ctx : PCtx 0 d} {id : PageId} {l₁ l₂ : List (Bytes × Slot)}
    {o : Option Slot} {s : Slot} {fuel : Nat} (hp : Putting L K c key value ctx id l₁ o l₂ s v t)
    (ho : pagesOfOption o = []) (hE : ∀ t', E .stopped t')
    (hbig : ∀ K' n t', HoldsTree L t' K' c → E (.err (.nodeTooLarge n pageSize)) t')
    (hleft : pageSize < leafSize ((storedSizes (l₁ ++ (key, s) :: l₂)).take
      ((storedSizes (l₁ ++ (key, s) :: l₂)).length / 2))) :
    (writeOrSplitLeaf S fuel id ⟨ctx.parent, ctx.after, storedRecords (l₁ ++ (key, s) :: l₂)⟩).wp t
      (fun _ _ => False) E := by
  generalize hrecs : l₁ ++ (key, s) :: l₂ = recs at hleft ⊢
  have hpos : 0 < recs.length := by
    rw [← hrecs, List.length_append]
    exact Nat.add_pos_right _ (Nat.succ_pos _)
  have hlen : (storedSizes recs).length = recs.length := List.length_map ..
  have hlen' : (storedRecords recs).length = recs.length := List.length_map ..
  have hlarge : pageSize < leafSize (storedSizes recs) := by
    have hcut := sum_cut (fun r : Bytes × Nat => 4 + r.1.length + 4 + r.2) (storedSizes recs)
      ((storedSizes recs).length / 2)
    unfold leafSize at hleft ⊢
    omega
  unfold writeOrSplitLeaf splitLeafAndInsert
  rw [leafSize_eq, if_pos hlarge]
  dsimp only
  rw [hlen']
  cases hdrop : (storedRecords recs).drop (recs.length / 2) with
  | nil =>
    have hzero := congrArg List.length hdrop
    rw [List.length_drop, hlen', List.length_nil] at hzero
    omega
  | cons y ys =>
    refine wp_bind (wp_allocatePage hp.pages hE ?_)
    intro q t₁ page hq hqmax hat
    have hin : ∀ p ∈ pagesOf c, p ∈ (({p | p ∈ pagesOf c} ∪ K) ∪ {p | p ∈ s.pages}) \
        {p | p ∈ pagesOfOption o} := fun p hpc => ⟨Or.inl (Or.inl hpc), by simp [ho]⟩
    have hsize : ¬ (Node.leaf ⟨ctx.parent, some q, (storedRecords recs).take (recs.length / 2)⟩).encodedSize
        ≤ pageSize := by
      have htake : (storedRecords recs).take (recs.length / 2)
          = storedRecords (recs.take (recs.length / 2)) := (List.map_take ..).symm
      have hsizes : (storedSizes recs).take (recs.length / 2)
          = storedSizes (recs.take (recs.length / 2)) := (List.map_take ..).symm
      rw [hlen, hsizes] at hleft
      rw [htake, leafSize_eq]
      exact Nat.not_le.mpr hleft
    refine wp_bind (wp_writeNode_refused hsize (hbig ((K ∪ {p | p ∈ s.pages}) ∪ {q}) _ t₁
      ⟨_, hat.congr_pages ?_, hp.holds.congr fun p hpc => ?_, fun p hpc hk => ?_⟩))
    · ext p
      simp only [ho, List.not_mem_nil, Set.mem_union, Set.mem_sdiff, Set.mem_ofPred_eq,
        not_false_eq_true, and_true, Set.mem_singleton_iff, or_assoc]
    · have hne : p ≠ q := fun he => hq (he ▸ hin p hpc)
      exact Function.update_of_ne hne ..
    · rcases hk with (hk | hk) | hk
      · exact hp.apart p hpc hk
      · exact (hp.fresh p hk).1 hpc
      · exact hq (hk ▸ hin p hpc)

end

variable {strict : Bool} {t t' : BTree BufferPool} {K : Set PageId} {d : Nat} {c : PTree d}
  {key value : Bytes}

/-- After an insertion that was refused at the left half, the tree is where it was. -/
theorem HoldsTree.of_refused {e : Error} (ht : HoldsTree (BufferPool.laws strict) t K c)
    (hgen : Genuine c) (hkey : key.length ≤ maxKeySize)
    (hold : ∀ s ∈ lookup key c.records, s.pages = [])
    (hleft : leftRefused t.bufferPool.view t.bufferPool.pager.numPages.toNat t.rootPageId key value
     )
    (hcalm : Calm (fun n => insert (guardedPool strict) n key value) t)
    (hrun : Ends (fun n => insert BufferPool.store n key value) t (.error (.err e), t')) :
    ∃ K', HoldsTree (BufferPool.laws strict) t' K' c := by
  obtain ⟨hrep, hroot, hd⟩ := ht.pool
  obtain ⟨n, hn⟩ := hcalm
  have hwp : (insert (guardedPool strict) (max (pagesOf c).length n) key value).wp t
      (fun _ _ => False) (fun e t' => e = .stopped ∨
        (∃ n, e = .err (.nodeTooLarge n pageSize)) ∧ ∃ K', HoldsTree (BufferPool.laws strict) t' K' c) := by
    refine wp_insert_put ht (fun _ => Or.inl rfl) hkey (fun s hs => hgen _ (mem_of_lookup hs))
      (Nat.le_max_left _ _) (fun ctx id l₁ o l₂ s v t₁ hp => ?_)
    have ho : pagesOfOption o = [] := by
      cases o with
      | none => rfl
      | some s₀ => simpa [pagesOfOption] using hold s₀ hp.old
    refine wp_put_refused hp ho (fun _ => Or.inl rfl)
      (fun K' n t' ht' => Or.inr ⟨⟨n, rfl⟩, K', ht'⟩) ?_
    -- what was read off the pages is the leaf of the key
    have hsizes : (storedRecords (l₁ ++ (recordOf key o ++ l₂))).map (fun r => (r.1, r.2.length))
        = storedSizes (l₁ ++ (recordOf key o ++ l₂)) := by
      unfold storedRecords storedSizes
      rw [List.map_map]
      rfl
    unfold leftRefused at hleft
    rw [hroot, pathTo_leaf hrep hp.focus.ctxShaped hp.plug hp.located hd] at hleft
    dsimp only at hleft
    rw [hsizes, ← hp.sizes, decide_eq_true_iff] at hleft
    exact hleft
  rcases wp_cases hwp with ⟨_, _, _, hfalse⟩ | ⟨e', t₁, heq, hstop | ⟨⟨m, rfl⟩, K', ht'⟩⟩
  · exact hfalse.elim
  · subst hstop
    exact absurd (congrArg Prod.fst heq) (hn _ (Nat.le_max_right _ _))
  · have hends := Ends.of_run (s := t) (n := max (pagesOf c).length n)
      (fun hnm => insert_agrees (guarded_agrees strict) hnm key value) (fun e hgave he => by
        rw [heq] at he
        cases he
        exact absurd hgave (by simp [GaveUp]))
    rw [heq] at hends
    obtain rfl : t' = t₁ := congrArg Prod.snd (hrun.unique hends)
    exact ⟨K', ht'⟩

/-- **A failed insertion that changes nothing.** If the key is too long, or the left half of the
leaf is too large and the key was not bound to an overflow value, every search and the scan return
the same before and after. -/
theorem insert_failed_unchanged {e : Error} (ht : HoldsTree (BufferPool.laws strict) t K c)
    (hread : Readable c) (hcalm : Calm (fun n => insert (guardedPool strict) n key value) t)
    (hcond : maxKeySize < key.length ∨ leftRefused t.bufferPool.view
      t.bufferPool.pager.numPages.toNat t.rootPageId key value ∧
      ∀ s ∈ lookup key c.records, s.pages = [])
    (hrun : Ends (fun n => insert BufferPool.store n key value) t (.error (.err e), t')) :
    (∀ k, ∃ r t₁ t₂, Ends (fun n => search BufferPool.store n k) t (.ok r, t₁) ∧
      Ends (fun n => search BufferPool.store n k) t' (.ok r, t₂)) ∧
    ∃ rs t₁ t₂, Ends (fun n => scan BufferPool.store n) t (.ok rs, t₁) ∧
      Ends (fun n => scan BufferPool.store n) t' (.ok rs, t₂) := by
  obtain ⟨K', ht'⟩ : ∃ K', HoldsTree (BufferPool.laws strict) t' K' c := by
    by_cases hkey : key.length ≤ maxKeySize
    · obtain ⟨hleft, hold⟩ := hcond.resolve_left (Nat.not_lt.mpr hkey)
      exact ht.of_refused hread.genuine hkey hold hleft hcalm hrun
    · obtain rfl : t' = t := congrArg Prod.snd (hrun.unique (insert_refused (Nat.lt_of_not_le hkey)))
      exact ⟨K, ht⟩
  refine ⟨fun k => ?_, ?_⟩
  · obtain ⟨t₁, h₁⟩ := search_closed ht.closed k fun s hs => hread _ (mem_of_lookup hs)
    obtain ⟨t₂, h₂⟩ := search_closed ht'.closed k fun s hs => hread _ (mem_of_lookup hs)
    exact ⟨_, t₁, t₂, h₁, h₂⟩
  · obtain ⟨t₁, h₁, -⟩ := scanPrefix_closed ht.closed (hread.under [])
    obtain ⟨t₂, h₂, -⟩ := scanPrefix_closed ht'.closed (hread.under [])
    exact ⟨_, t₁, t₂, h₁, h₂⟩

/-- One run that failed under the monitor shows how the insertion ends. -/
theorem ends_of_failed {fuel : Nat} {e : Error}
    (h : (insert (guardedPool strict) fuel key value t).1 = .error (.err e)) :
    Calm (fun n => insert (guardedPool strict) n key value) t ∧
      ∃ t', Ends (fun n => insert BufferPool.store n key value) t (.error (.err e), t') := by
  have hgave : ∀ e', GaveUp e' → (insert (guardedPool strict) fuel key value t).1 ≠ .error e' := by
    intro e' hgave he
    rw [h] at he
    cases he
    exact absurd hgave (by simp [GaveUp])
  have hrun := Ends.of_run (fun hnm => insert_agrees (guarded_agrees strict) hnm key value) hgave
  obtain ⟨n, hn⟩ := Ends.of_run (fun hnm => insert_agrees (.refl (guardedPool strict)) hnm key value)
    hgave
  refine ⟨⟨n, fun m hm he => ?_⟩, _, (Prod.ext h rfl : insert _ fuel key value t = (_, _)) ▸ hrun⟩
  rw [hn m hm, h] at he
  cases he

/-- A leaf with a large record before two short ones. -/
def largeFirstRun : List TreeOp :=
  [.insert (largeKey 2) largeValue, .insert [3] [1], .insert [4] [1]]

/-- The left half of the leaf is too large for another large record before them. -/
def refusesLeft (t : BTree BufferPool) : Bool :=
  leftRefused t.bufferPool.view t.bufferPool.pager.numPages.toNat t.rootPageId (largeKey 1) largeValue &&
    decide ((insert (guardedPool false) 5 (largeKey 1) largeValue t).1
      = .error (.err (.nodeTooLarge 4227 pageSize)))

set_option maxRecDepth 100000 in
/-- A large record before these: the left half gets both large ones, and is refused. -/
theorem insert_failed_left : ∃ (t t' : BTree BufferPool) (e : Error),
    Ends (fun n => insert BufferPool.store n (largeKey 1) largeValue) t (.error (.err e), t') ∧
      ∃ rs t₁ t₂, Ends (fun n => scan BufferPool.store n) t (.ok rs, t₁) ∧
        Ends (fun n => scan BufferPool.store n) t' (.ok rs, t₂) := by
  obtain ⟨t, ⟨K, d, c, ht, hread, hm⟩, hrefuses⟩ : ∃ t, HoldsMap t (finalMap largeFirstRun) ∧
      refusesLeft t := by
    obtain ⟨t₀, _, hfresh, _⟩ := fresh_holds false 1024 1000
    have hcheck : (fresh 1024 1000).toOption.all (fun t => checkRun false 5 largeFirstRun t &&
        refusesLeft (evalRun 5 largeFirstRun t).2) := by
      decide +kernel
    rw [hfresh] at hcheck
    obtain ⟨hrun, hrefuses⟩ := Bool.and_eq_true_iff.mp
      (show (checkRun false 5 largeFirstRun t₀ && refusesLeft _) from hcheck)
    exact ⟨_, (fresh_holdsMap hfresh).eval (by simp [largeFirstRun, TreeOp.Sized, maxKeySize, largeKey,
      largeValue, maxInlineValSize]) hrun, hrefuses⟩
  obtain ⟨hleft, herr⟩ := Bool.and_eq_true_iff.mp hrefuses
  obtain ⟨hcalm, t', hrun⟩ := ends_of_failed (of_decide_eq_true herr)
  have hnew : lookup (largeKey 1) c.records = none :=
    Option.map_eq_none_iff.mp ((hm (largeKey 1)).trans (by decide +kernel))
  obtain ⟨-, hscan⟩ := insert_failed_unchanged ht hread hcalm
    (Or.inr ⟨hleft, fun s hs => by rw [hnew] at hs; cases hs⟩) hrun
  exact ⟨t, t', _, hrun, hscan⟩

set_option maxRecDepth 100000 in
/-- **A failed insertion loses a record.** A short record and a large one are in the tree. The
insertion of another large one writes the left half, with the short record only, and fails at the
right half: the large record that was there is not found any more. -/
theorem insert_failed_lost : (fresh 1024 1000).toOption.any (fun t₀ =>
    let r₁ := insert BufferPool.store 5 [1] [1] t₀
    let r₂ := insert BufferPool.store 5 (largeKey 2) largeValue r₁.2
    let r₃ := insert BufferPool.store 5 (largeKey 3) largeValue r₂.2
    r₁.1.isOk && r₂.1.isOk && decide (r₃.1 = .error (.err (.nodeTooLarge 4227 pageSize))) &&
      (search BufferPool.store 5 (largeKey 2) r₂.2).1.toOption == some (some largeValue) &&
      (search BufferPool.store 5 (largeKey 2) r₃.2).1.toOption == some none) := by
  decide +kernel

end BTree

end MagnumDB
