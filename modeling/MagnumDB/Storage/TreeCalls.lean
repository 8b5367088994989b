import MagnumDB.Storage.FreshTree
import MagnumDB.Storage.TreePath

/-!
# The calls of the tree on the buffer pool

The specifications of the tree hold over the pool under its monitor. A call that
the monitor does not stop runs on the pool itself in the same way, so what is
shown here is about the pool as the source has it: with enough fuel the call
returns, and the tree has changed as it should. The conditions are read off the
state before the call: `insertFits`, `deleteKeeps`, and `Calm`, which says that
the monitor has nothing to object to.
-/

namespace MagnumDB

open BPlus SortedAssoc Prog

/-- With enough fuel, the monitor does not stop the call. -/
def Calm {σ α : Type} (x : Nat → Prog Fail σ α) (s : σ) : Prop :=
  ∃ n, ∀ m, n ≤ m → (x m s).1 ≠ .error .stopped

/-- A call that can only be stopped, and is not, ends in its postcondition; and so does the call
without the monitor. -/
theorem ends_of_wp {σ α : Type} {x y : Nat → Prog Fail σ α} {s : σ} {Q : α → σ → Prop} (fuel : Nat)
    (hxy : ∀ {n m}, n ≤ m → Upto GaveUp (x n) (y m)) (hcalm : Calm x s)
    (hwp : ∀ n, fuel ≤ n → (x n).wp s Q Stopped) : ∃ a s', Ends y s (.ok a, s') ∧ Q a s' := by
  obtain ⟨n, hn⟩ := hcalm
  rcases wp_cases (hwp _ (Nat.le_max_left fuel n)) with ⟨a, s', hrun, hQ⟩ | ⟨e, s', hrun, he⟩
  · exact ⟨a, s', Ends.of_ok hxy hrun, hQ⟩
  · refine absurd ?_ (hn _ (Nat.le_max_right fuel n))
    rw [hrun, he]

/-- One run that the monitor did not stop shows that none is stopped. -/
theorem calm_of_ok {σ α : Type} {x : Nat → Prog Fail σ α} {s : σ}
    (hx : ∀ {n m}, n ≤ m → Upto GaveUp (x n) (x m)) {n : Nat} {a : α} (h : (x n s).1 = .ok a) :
    Calm x s := by
  obtain ⟨k, hk⟩ := Ends.of_ok hx (show x n s = (.ok a, (x n s).2) from Prod.ext h rfl)
  refine ⟨k, fun m hm he => ?_⟩
  rw [hk m hm] at he
  exact absurd he (by simp)

namespace BTree

/-- No record of the tree only looks like a handle. -/
def Genuine {d : Nat} (c : PTree d) : Prop := ∀ x ∈ c.records, x.2.Genuine

/-- The state in which an insertion works. -/
def InsertOk (strict : Bool) (key value : Bytes) (t : BTree BufferPool) : Prop :=
  insertFits t.bufferPool.view t.bufferPool.pager.numPages.toNat t.rootPageId key value ∧
    Calm (fun n => insert (guardedPool strict) n key value) t

/-- The state in which a deletion works. -/
def DeleteOk (strict : Bool) (key : Bytes) (t : BTree BufferPool) : Prop :=
  deleteKeeps t.bufferPool.view t.bufferPool.pager.numPages.toNat t.rootPageId key ∧
    Calm (fun n => delete (guardedPool strict) n key) t

variable {strict : Bool} {t : BTree BufferPool} {K : Set PageId} {d : Nat} {c : PTree d}

theorem guarded_agrees (strict : Bool) : (guardedPool strict).Agrees BufferPool.store :=
  BufferPool.store.monitored_agrees (poolGuard strict)

/-- The pages as the pool shows them hold the tree, and there are more of them than levels. -/
theorem HoldsTree.pool (ht : HoldsTree (BufferPool.laws strict) t K c) :
    Represents t.bufferPool.view c ∧ t.rootPageId = c.id ∧
      d < t.bufferPool.pager.numPages.toNat := by
  obtain ⟨v, hat, hrep, _⟩ := ht
  have hin : ∀ p ∈ pagesOf c, p < t.bufferPool.pager.numPages := fun p hp =>
    (hat.inv.1.used p (Or.inl hp)).2
  refine ⟨hrep.congr (fun p hp => hat.view p (Or.inl hp)), hat.rootId, ?_⟩
  exact Nat.lt_of_lt_of_le (height_lt hrep.shaped) (nodup_length_le hrep.nodup hin)

section Specs

variable {L : (guardedPool strict).Laws} (ht : HoldsTree L t K c)
include ht

variable {key : Bytes} {n : Nat}

theorem insert_wp {value : Bytes} (hrep : Represents t.bufferPool.view c)
    (hd : d < t.bufferPool.pager.numPages.toNat) (hgen : Genuine c) (hkey : key.length ≤ maxKeySize)
    (hfits : insertFits t.bufferPool.view t.bufferPool.pager.numPages.toNat t.rootPageId key value
     ) (hn : (pagesOf c).length ≤ n) :
    (insert (guardedPool strict) n key value).wp t
      (fun _ t' => ∃ (h : Nat) (c' : PTree h) (s : Slot), HoldsTree L t' K c' ∧ SlotFor value s ∧
        c'.records = upsert key s c.records) Stopped := by
  have hroot : t.rootPageId = c.id := by
    obtain ⟨_, hat, _⟩ := ht
    exact hat.rootId
  refine wp_insert ht (fun _ => rfl) hkey (fun s hs => hgen _ (mem_of_lookup hs)) hn ?_
    (fun _ _ _ _ _ _ _ h c' s t' h₁ h₂ h₃ => ⟨h, c', s, h₁, h₂, h₃⟩)
  intro ctx id recs hs hplug hloc hbig
  rw [← insertFits_leaf hrep hs hplug hloc hd, ← hroot, hfits] at hbig
  exact absurd hbig (by simp)

theorem delete_wp (hrep : Represents t.bufferPool.view c)
    (hd : d < t.bufferPool.pager.numPages.toNat) (hgen : Genuine c)
    (hkeep : deleteKeeps t.bufferPool.view t.bufferPool.pager.numPages.toNat t.rootPageId key)
    (hn : (pagesOf c).length ≤ n) :
    (delete (guardedPool strict) n key).wp t
      (fun _ t' => ∃ c' : PTree d, HoldsTree L t' K c' ∧ c'.records = erase key c.records)
      Stopped := by
  have hroot : t.rootPageId = c.id := by
    obtain ⟨_, hat, _⟩ := ht
    exact hat.rootId
  refine wp_delete ht (fun _ => rfl) (fun s hs => hgen _ (mem_of_lookup hs)) hn ?_
    (fun c' t' h₁ h₂ => ⟨c', h₁, h₂⟩)
  intro ctx id s hs hplug hloc
  exact deleteKeeps_leaf hrep hs hplug hloc hd (hroot ▸ hkeep)

theorem search_wp (hread : Readable c) (hn : (pagesOf c).length ≤ n) :
    (search (guardedPool strict) n key).wp t
      (fun r t' => r = (lookup key c.records).map Slot.value ∧ HoldsTree L t' K c) Stopped := by
  obtain ⟨v, hat, hrep, hK⟩ := ht
  exact wp_search hat (fun _ => rfl) hrep (fun s hs => hread _ (mem_of_lookup hs))
    (fun p hp => Or.inl hp) hn
    (fun t' hat' => ⟨rfl, v, hat', hrep, hK⟩)

end Specs

variable {key value : Bytes} {s : Slot}

theorem insert_ends (ht : HoldsTree (BufferPool.laws strict) t K c) (hgen : Genuine c)
    (hkey : key.length ≤ maxKeySize) (hok : InsertOk strict key value t) :
    ∃ (t' : BTree BufferPool) (h : Nat) (c' : PTree h) (s : Slot),
      Ends (fun n => insert BufferPool.store n key value) t (.ok (), t') ∧
      HoldsTree (BufferPool.laws strict) t' K c' ∧ SlotFor value s ∧
      c'.records = upsert key s c.records := by
  obtain ⟨hrep, _, hd⟩ := ht.pool
  obtain ⟨hfits, hcalm⟩ := hok
  obtain ⟨⟨⟩, t', hends, h, c', s, hpost⟩ := ends_of_wp _
    (fun hnm => insert_agrees (guarded_agrees strict) hnm key value) hcalm
    (fun _ hn => insert_wp ht hrep hd hgen hkey hfits hn)
  exact ⟨t', h, c', s, hends, hpost⟩

/-- A key above the limit is refused, and nothing changes. -/
theorem insert_refused {S : PageStore BufferPool} (hkey : maxKeySize < key.length) :
    Ends (fun n => insert S n key value) t
      (.error (.err (.keyTooLarge key.length maxKeySize)), t) := by
  refine ⟨0, fun n _ => ?_⟩
  show insert S n key value t = _
  unfold insert
  rw [if_pos hkey]
  rfl

theorem delete_ends (ht : HoldsTree (BufferPool.laws strict) t K c) (hgen : Genuine c)
    (hok : DeleteOk strict key t) :
    ∃ (t' : BTree BufferPool) (c' : PTree d),
      Ends (fun n => delete BufferPool.store n key) t (.ok (), t') ∧
      HoldsTree (BufferPool.laws strict) t' K c' ∧ c'.records = erase key c.records := by
  obtain ⟨hrep, _, hd⟩ := ht.pool
  obtain ⟨hkeep, hcalm⟩ := hok
  obtain ⟨⟨⟩, t', hends, c', hpost⟩ := ends_of_wp _
    (fun hnm => delete_agrees (guarded_agrees strict) hnm key) hcalm
    (fun _ hn => delete_wp ht hrep hd hgen hkeep hn)
  exact ⟨t', c', hends, hpost⟩

/-- A search finds the value bound to the key and leaves the tree as it is. -/
theorem search_ends (ht : HoldsTree (BufferPool.laws strict) t K c) (hread : Readable c)
    (hcalm : Calm (fun n => search (guardedPool strict) n key) t) :
    ∃ t', Ends (fun n => search BufferPool.store n key) t
        (.ok ((lookup key c.records).map Slot.value), t') ∧
      HoldsTree (BufferPool.laws strict) t' K c := by
  obtain ⟨r, t', hends, rfl, hpost⟩ := ends_of_wp _
    (fun hnm => search_agrees (guarded_agrees strict) hnm key) hcalm
    (fun _ hn => search_wp ht hread hn)
  exact ⟨t', hends, hpost⟩

/-- A scan returns what it picks from the bindings, in the order of the keys. -/
theorem scanPrefix_ends {pre : Bytes} (ht : HoldsTree (BufferPool.laws strict) t K c)
    (hread : Readable c) (hcalm : Calm (fun n => scanPrefix (guardedPool strict) n pre) t) :
    ∃ t', Ends (fun n => scanPrefix BufferPool.store n pre) t
        (.ok ((scanTake pre c.records).1.map binding), t') ∧
      HoldsTree (BufferPool.laws strict) t' K c := by
  obtain ⟨v, hat, hrep, hK⟩ := ht
  have hwp : ∀ n, 2 * (pagesOf c).length + 1 ≤ n → (scanPrefix (guardedPool strict) n pre).wp t
      (fun r t' => r = (scanTake pre c.records).1.map binding ∧
        HoldsTree (BufferPool.laws strict) t' K c) Stopped := by
    intro n hn
    exact wp_scanPrefix hat (fun _ => rfl) hrep (hread.under pre) (fun p hp => Or.inl hp) (by omega)
      (fun t' hat' => ⟨rfl, v, hat', hrep, hK⟩)
  obtain ⟨r, t', hends, rfl, hpost⟩ := ends_of_wp _
    (fun hnm => scanPrefix_agrees (guarded_agrees strict) hnm pre) hcalm hwp
  exact ⟨t', hends, hpost⟩

/-- A scan without a prefix returns every binding. -/
theorem scan_ends (ht : HoldsTree (BufferPool.laws strict) t K c) (hread : Readable c)
    (hcalm : Calm (fun n => scan (guardedPool strict) n) t) :
    ∃ t', Ends (fun n => scan BufferPool.store n) t (.ok (c.records.map binding), t') ∧
      HoldsTree (BufferPool.laws strict) t' K c := by
  have hcalm' : Calm (fun n => scanPrefix (guardedPool strict) n []) t := hcalm
  obtain ⟨t', hends, hpost⟩ := scanPrefix_ends ht hread hcalm'
  rw [scanTake_nil] at hends
  exact ⟨t', hends, hpost⟩

/-! ## What else a call keeps -/

section Keeps

variable {P : BufferPool → Prop} (hP : (BufferPool.laws strict).Kept P)
  (ht : HoldsTree (BufferPool.laws strict) t K c)
include ht

theorem HoldsTree.withInv (h : P t.bufferPool) :
    HoldsTree ((BufferPool.laws strict).withInv hP) t K c := by
  obtain ⟨v, hat, hrep, hK⟩ := ht
  exact ⟨v, ⟨⟨hat.inv, h⟩, hat.view, hat.rootId, hat.stored⟩, hrep, hK⟩

include hP

variable {key : Bytes}

theorem insert_keeps {value : Bytes} {r : Except Fail Unit × BTree BufferPool} (hgen : Genuine c)
    (hkey : key.length ≤ maxKeySize) (hok : InsertOk strict key value t)
    (hends : Ends (fun n => insert BufferPool.store n key value) t r) (h : P t.bufferPool) :
    P r.2.bufferPool := by
  obtain ⟨hrep, _, hd⟩ := ht.pool
  obtain ⟨hfits, hcalm⟩ := hok
  obtain ⟨⟨⟩, t', hends', _, _, _, ⟨_, hat, _, _⟩, _, _⟩ := ends_of_wp _
    (fun hnm => insert_agrees (guarded_agrees strict) hnm key value) hcalm
    (fun _ hn => insert_wp (ht.withInv hP h) hrep hd hgen hkey hfits hn)
  rw [hends.unique hends']
  exact hat.inv.2

theorem delete_keeps {r : Except Fail Unit × BTree BufferPool} (hgen : Genuine c)
    (hok : DeleteOk strict key t) (hends : Ends (fun n => delete BufferPool.store n key) t r)
    (h : P t.bufferPool) : P r.2.bufferPool := by
  obtain ⟨hrep, _, hd⟩ := ht.pool
  obtain ⟨hkeep, hcalm⟩ := hok
  obtain ⟨⟨⟩, t', hends', _, ⟨_, hat, _, _⟩, _⟩ := ends_of_wp _
    (fun hnm => delete_agrees (guarded_agrees strict) hnm key) hcalm
    (fun _ hn => delete_wp (ht.withInv hP h) hrep hd hgen hkeep hn)
  rw [hends.unique hends']
  exact hat.inv.2

theorem search_keeps {r : Except Fail (Option Bytes) × BTree BufferPool} (hread : Readable c)
    (hcalm : Calm (fun n => search (guardedPool strict) n key) t)
    (hends : Ends (fun n => search BufferPool.store n key) t r) (h : P t.bufferPool) :
    P r.2.bufferPool := by
  obtain ⟨_, t', hends', _, ⟨_, hat, _, _⟩⟩ := ends_of_wp _
    (fun hnm => search_agrees (guarded_agrees strict) hnm key) hcalm
    (fun _ hn => search_wp (ht.withInv hP h) hread hn)
  rw [hends.unique hends']
  exact hat.inv.2

end Keeps

/-! ## The contents -/

theorem HoldsTree.sorted (ht : HoldsTree (BufferPool.laws strict) t K c) : Sorted c.records := by
  obtain ⟨_, _, hrep, _⟩ := ht
  exact sorted_recordsOf hrep.ordered

theorem SlotFor.genuine (h : SlotFor value s) (hv : isOverflowHandle value = false) :
    s.Genuine := by
  rcases h with ⟨_, rfl⟩ | ⟨_, chain, rfl⟩
  · exact hv
  · trivial

theorem SlotFor.readable (h : SlotFor value s) (hv : isOverflowHandle value = false)
    (hlen : value.length < 2 ^ 32) : s.Readable := by
  rcases h with ⟨_, rfl⟩ | ⟨_, chain, rfl⟩
  · exact hv
  · exact hlen

/-- What holds of the old records and of the new one holds of all after an insertion. -/
theorem records_upsert {P : Bytes × Slot → Prop} {h : Nat} {c' : PTree h}
    (hrec : c'.records = upsert key s c.records) (hold : ∀ x ∈ c.records, P x) (hnew : P (key, s)) :
    ∀ x ∈ c'.records, P x := by
  intro x hx
  rw [hrec] at hx
  rcases mem_upsert hx with rfl | ⟨hx, _⟩
  · exact hnew
  · exact hold x hx

theorem records_erase {P : Bytes × Slot → Prop} {h : Nat} {c' : PTree h}
    (hrec : c'.records = erase key c.records) (hold : ∀ x ∈ c.records, P x) :
    ∀ x ∈ c'.records, P x := by
  intro x hx
  rw [hrec] at hx
  exact hold x (List.mem_of_mem_filter hx)

end BTree

end MagnumDB
