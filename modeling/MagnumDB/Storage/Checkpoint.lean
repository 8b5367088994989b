import MagnumDB.Storage.TreeMap

/-!
# The checkpoint LSN stays

Between two closes nothing changes the checkpoint LSN: page 0 is rewritten for the
root and for the free list, each time with the LSN that it had. Both copies of
page 0 have it, the one in the file and the one in the pool.
-/

namespace MagnumDB

open Prog

namespace BufferPool

variable {s s' : BufferPool} {U : Set PageId} {id : PageId} {c : UInt64}

/-- Wherever page 0 is, it has this checkpoint LSN. -/
def LsnIs (c : UInt64) (s : BufferPool) : Prop :=
  (s.disk 0).lsnField = c ∧ ∀ pd, s.look 0 = some pd → pd.1.lsnField = c

theorem LsnIs.settles (h : LsnIs c s) (hs : Settles s s') : LsnIs c s' := by
  refine ⟨?_, fun pd hq => ?_⟩
  · cases hs.page 0 with
    | same _ h₂ => rw [h₂]; exact h.1
    | written page h₁ h₂ _ => rw [h₂]; exact h.2 _ h₁
    | dropped page _ _ h₂ => rw [h₂]; exact h.1
  · obtain ⟨page, dirty⟩ := pd
    rcases hs.of_some hq with ⟨hl, _⟩ | ⟨hl, _⟩
    · exact h.2 _ hl
    · exact h.2 (page, true) hl

theorem LsnIs.puts {page : Page} {dirty : Bool} (h : LsnIs c s) (hp : Puts s s' id page dirty)
    (hpage : id = 0 → page.lsnField = c) : LsnIs c s' := by
  refine ⟨?_, fun pd hq => ?_⟩
  · show (s'.pager.file.page 0).lsnField = c
    rw [hp.pager]
    exact h.1
  · rw [hp.look 0] at hq
    split at hq
    · rename_i he
      rw [← Option.some.inj hq]
      exact hpage he
    · exact h.2 pd hq

theorem LsnIs.opened (pg : Pager) (capacity interval : Nat) :
    LsnIs (pg.file.page 0).lsnField (opened pg capacity interval) :=
  ⟨rfl, fun pd hq => absurd ((opened_look pg capacity interval 0).symm.trans hq) (by simp)⟩

theorem LsnIs.view (h : LsnIs c s) : (s.view 0).lsnField = c := by
  cases hl : s.look 0 with
  | some pd => rw [view_of_some hl]; exact h.2 pd hl
  | none => rw [view_of_none hl]; exact h.1

theorem LsnIs.fetch (h : LsnIs c s) (hcore : Core s U) (id : PageId) :
    LsnIs c (s.fetchPage id).2 := by
  cases hl : s.look id with
  | some pd => exact h.settles (fetchPage_hit hcore.wf hl).2
  | none =>
    obtain ⟨_, s₁, hset, _, _, hput⟩ := fetchPage_miss hcore.wf hl
    refine (h.settles hset).puts hput fun he => ?_
    rw [he, readPage_inside hcore.pos]
    exact h.1

theorem LsnIs.write {page : Page} (h : LsnIs c s) (hcore : Core s U)
    (hpage : id = 0 → page.lsnField = c) : LsnIs c (s.writePage id page) := by
  obtain ⟨s₁, s₂, hset₁, _, hput, hset₂⟩ := writePage_spec hcore.wf id page
  exact ((h.settles hset₁).puts hput hpage).settles hset₂

variable {pg : Pager}

theorem LsnIs.repage (h : LsnIs c s) (hlsn : (pg.file.page 0).lsnField = (s.disk 0).lsnField) :
    LsnIs c { s with pager := pg } :=
  ⟨hlsn.trans h.1, h.2⟩

theorem allocatePage_lsn (hpos : 0 < pg.numPages) :
    (pg.allocatePage.2.file.page 0).lsnField = (pg.file.page 0).lsnField := by
  have hread : pg.readPage 0 = pg.file.page 0 := readPage_inside hpos
  have hn0 : (0 : PageId) ≠ pg.numPages := fun he =>
    absurd (he ▸ hpos : pg.numPages < pg.numPages) (UInt32.lt_irrefl _)
  unfold Pager.allocatePage
  dsimp only
  rw [hread]
  split
  · rename_i hpop
    rw [writePage_page, if_neg (Ne.symm hpop.2.2), writePage_page, if_pos rfl, Page.lsnField_setFree]
  · rw [writePage_page, if_neg hn0]

theorem freePage_lsn (hpos : 0 < pg.numPages) (p : PageId) :
    ((pg.freePage p).file.page 0).lsnField = (pg.file.page 0).lsnField := by
  have hread : pg.readPage 0 = pg.file.page 0 := readPage_inside hpos
  unfold Pager.freePage
  split
  · rfl
  · rw [writePage_page, if_pos rfl, Page.lsnField_setFree, hread]

/-- No call of the pool changes the checkpoint LSN. -/
theorem lsnIs_kept (strict : Bool) (c : UInt64) : (laws strict).Kept (LsnIs c) where
  fetch := by
    intro s U p hinv _ h
    by_cases hg : poolGuard strict (.fetch p) s = true
    · exact wp_of_ok (if_pos hg) (h.fetch hinv.1 p)
    · exact wp_of_error (if_neg hg) rfl
  write := by
    intro s U p page hinv hp h
    by_cases hg : poolGuard strict (.write p page) s = true
    · exact wp_of_ok (if_pos hg) (h.write hinv.1 fun he => absurd he (hinv.1.used p hp).1)
    · exact wp_of_error (if_neg hg) rfl
  alloc := by
    intro s U hinv h
    by_cases hg : poolGuard strict .alloc s = true
    · exact wp_of_ok (if_pos hg) (h.repage (allocatePage_lsn hinv.1.pos))
    · exact wp_of_error (if_neg hg) rfl
  free := by
    intro s U p hinv hp h
    have hrun : (guardedPool strict).freePage p s = (.ok (), s.freePage p) := rfl
    refine wp_of_ok hrun ⟨(freePage_lsn hinv.1.pos p).trans h.1, fun pd hq => ?_⟩
    have hlook := Lru.find_pop s.cache p 0
    rw [if_neg (hinv.1.used p hp).1] at hlook
    exact h.2 pd (hlook.symm.trans hq)
  persist := by
    intro s U id hinv _ h
    have hread := (laws strict).fetchMeta hinv
    by_cases hg : poolGuard strict (.fetch 0) s = true
    · -- the copy that is read has the LSN, so the one that is written has it too
      have hfetch : (guardedPool strict).fetchPage 0 s
          = (.ok (s.fetchPage 0).1, (s.fetchPage 0).2) := if_pos hg
      have hinv' : Inv strict (s.fetchPage 0).2 U := (wp_ok hread hfetch).2.1
      have hpage : (s.fetchPage 0).1 = s.view 0 := (hinv.1.fetch (Or.inl rfl)).1
      refine wp_bind (wp_of_ok hfetch ?_)
      by_cases hg' : poolGuard strict (.write 0 ((s.fetchPage 0).1.setRoot id)) (s.fetchPage 0).2 = true
      · refine wp_of_ok (if_pos hg') ((h.fetch hinv.1 0).write hinv'.1 fun _ => ?_)
        rw [Page.lsnField_setRoot, hpage]
        exact h.view
      · exact wp_of_error (if_neg hg') rfl
    · exact wp_bind (wp_of_error (if_neg hg) rfl)

end BufferPool

/-! ## Along a run -/

/-- A property that no call of the pool breaks holds of a new tree. -/
theorem BTree.fresh_keeps {P : BufferPool → Prop} (hP : (BufferPool.laws false).Kept P)
    {capacity interval : Nat} (h0 : P (BufferPool.opened Pager.fresh capacity interval))
    {t : BTree BufferPool} (hfresh : BTree.fresh capacity interval = .ok t) : P t.bufferPool := by
  have hL : ((BufferPool.laws false).withInv hP).Inv
      (BufferPool.opened Pager.fresh capacity interval) ∅ :=
    ⟨BTree.opened_fresh_inv false capacity interval, h0⟩
  obtain ⟨t', id, hfresh', _, _, hat, _, _⟩ := BTree.fresh_laws hL fun _ => rfl
  obtain rfl : t' = t := Except.ok.inj (hfresh'.symm.trans hfresh)
  exact hat.inv.2

/-- What no call of the pool breaks, no call of the index breaks. -/
theorem HoldsMap.keeps {t : BTree BufferPool} {m : Bytes → Option Bytes} {op : TreeOp}
    {P : BufferPool → Prop} (hP : (BufferPool.laws false).Kept P) (h : HoldsMap t m)
    (hok : op.Ok false t) {r : Except Fail (Option Bytes)} {t' : BTree BufferPool}
    (hends : Ends (op.exec BufferPool.store) t (r, t')) (ht : P t.bufferPool) : P t'.bufferPool := by
  obtain ⟨K, d, c, hc, hread, _⟩ := h
  cases op with
  | insert key value =>
    by_cases hkey : key.length ≤ maxKeySize
    · obtain ⟨t₁, _, _, _, hins, _⟩ := BTree.insert_ends hc hread.genuine hkey (hok hkey).2
      obtain ⟨_, rfl⟩ := Prod.mk.inj (hends.unique (ends_bind_pure none hins))
      exact BTree.insert_keeps hP hc hread.genuine hkey (hok hkey).2 hins ht
    · have hins : Ends (fun n => BTree.insert BufferPool.store n key value) t _ :=
        BTree.insert_refused (Nat.not_le.mp hkey)
      obtain ⟨_, rfl⟩ := Prod.mk.inj (hends.unique (ends_bind_error _ hins))
      exact ht
  | delete key =>
    obtain ⟨t₁, _, hdel, _⟩ := BTree.delete_ends hc hread.genuine hok
    obtain ⟨_, rfl⟩ := Prod.mk.inj (hends.unique (ends_bind_pure none hdel))
    exact BTree.delete_keeps hP hc hread.genuine hok hdel ht
  | search key => exact BTree.search_keeps hP hc hread hok hends ht

end MagnumDB
