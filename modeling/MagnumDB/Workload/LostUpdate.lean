import MagnumDB.Storage.Race

/-!
# Two insertions that overlap

If two insertions overlap and the page calls of the first one do not come too late
for the second one, the tree ends up with both of their bindings. The argument goes
through the pages alone: by `PagesInOrder` and `RootInOrder` they are what the two
insertions make of them one after the other, and each insertion, run on the tape of
its own page calls, keeps the tree.

Nothing in the code makes the page calls come in such an order. Two insertions that
read the same leaf before either has written it leave only one of the two keys.
-/

namespace MagnumDB

open BPlus SortedAssoc Prog BTree

/-! ## A tree in the pages -/

/-- The pages hold a tree with these bindings. -/
def BindsIn (m : PageId → Option Page) (root : PageId) (b : Bytes → Option Bytes) : Prop :=
  ∃ (K : Set PageId) (d : Nat) (c : PTree d), Occupied m ({p | p ∈ pagesOf c} ∪ K) ∧
    Represents (fun p => (m p).getD Page.default) c ∧ (∀ p ∈ pagesOf c, p ∉ K) ∧
    rootIn m = c.id ∧ root = c.id ∧ Readable c ∧ ∀ k, (lookup k c.records).map Slot.value = b k

variable {b : Bytes → Option Bytes} {m : PageId → Option Page} {root : PageId} {fuel : Nat}

/-- **An insertion on its own tape.** If it returns at the end of its page calls, they have changed
one binding. -/
theorem BindsIn.insert {key value : Bytes} {tr : List PageEvent} {t : BTree Tape}
    (h : BindsIn m root b) (hok : pageCells.OkRun m tr) (hplain : isOverflowHandle value = false)
    (hlen : value.length < 2 ^ 32)
    (hrun : BTree.insert Tape.store fuel key value ⟨⟨[], tr, none⟩, root⟩ = (.ok (), t))
    (hleft : t.bufferPool.left = []) :
    BindsIn (pageCells.run m tr) t.rootPageId (Function.update b key (some value)) := by
  obtain ⟨K, d, c, hocc, hrep, hK, hstored, hroot, hread, hb⟩ := h
  have ht : HoldsTree (Tape.laws m tr) ⟨⟨[], tr, none⟩, root⟩ K c :=
    ⟨_, ⟨⟨rfl, hok, hocc⟩, fun _ _ => rfl, hroot, hstored⟩, hrep, hK⟩
  obtain ⟨h, c', s, ⟨v, hat, hrep', hK'⟩, hslot, hrec⟩ := wp_ok
    (wp_insert_any ht (key_le_of_insert_ok hrun)
      (fun s hs => (hread _ (mem_of_lookup hs)).genuine) (Nat.le_max_right fuel _))
    (insert_more_fuel hrun (Nat.le_max_left ..))
  -- the whole tape was read
  have hmem : t.bufferPool.mem m = pageCells.run m tr := by
    have hwhole := hat.inv.whole
    rw [hleft, List.append_nil] at hwhole
    unfold Tape.mem
    rw [hwhole]
  refine ⟨K, h, c', hmem ▸ hat.inv.occupied, ?_, hK', ?_, hat.rootId,
    records_upsert hrec hread (hslot.readable hplain hlen), bindings_upsert hb hslot hrec⟩
  · rw [← hmem]
    exact hrep'.congr fun p hp => hat.view p (Or.inl hp)
  · rw [← hmem]
    exact hat.stored

/-- The pages of a tree on the pool. Everything that is not free can be taken to be in use. -/
theorem HoldsMap.pages {t : BTree BufferPool} (h : HoldsMap t b) :
    ∃ m U, t.bufferPool.Shows m U ∧ (∀ p, t.bufferPool.taken p → p ∈ U) ∧
      BindsIn m t.rootPageId b := by
  classical
  obtain ⟨K, d, c, ⟨v, hat, hrep, hK⟩, hread, hb⟩ := h
  obtain ⟨hcore, F, hfree⟩ := hat.inv
  have htaken : ∀ p, t.bufferPool.taken p →
      p ≠ 0 ∧ p < t.bufferPool.pager.numPages ∧ p ∉ F := by
    intro p hp
    unfold BufferPool.taken at hp
    rw [hfree.freeList_eq] at hp
    simpa [and_assoc] using hp
  let K' : Set PageId := {p | (p ∈ K ∨ t.bufferPool.taken p) ∧ p ∉ pagesOf c}
  let U : Set PageId := {p | p ∈ pagesOf c} ∪ K'
  have hU : ∀ p, p ∈ U → p ∈ {p | p ∈ pagesOf c} ∪ K ∨ t.bufferPool.taken p := by
    intro p hp
    rcases hp with hp | hp
    · exact Or.inl (Or.inl hp)
    · exact hp.1.imp_left Or.inr
  have hsub : ∀ p, p ∈ {p | p ∈ pagesOf c} ∪ K ∨ t.bufferPool.taken p → p ∈ U := by
    intro p hp
    by_cases hc : p ∈ pagesOf c
    · exact Or.inl hc
    · exact Or.inr ⟨hp.imp_left fun hp => hp.resolve_left hc, hc⟩
  have hused : ∀ p ∈ U, p ≠ 0 ∧ p < t.bufferPool.pager.numPages := by
    intro p hp
    rcases hU p hp with hp | hp
    · exact hcore.used p hp
    · exact ⟨(htaken p hp).1, (htaken p hp).2.1⟩
  have hinv : BufferPool.Inv false t.bufferPool U := by
    refine ⟨{ hcore with
      cached := fun q pd hq => (hcore.cached q pd hq).imp_right fun hq => hsub q (Or.inl hq)
      used := hused }, F, { hfree with unused := fun p hp hpU => ?_, all := fun hs => ?_ }⟩
    · rcases hU p hpU with hp' | hp'
      · exact hfree.unused p hp hp'
      · exact (htaken p hp').2.2 hp
    · exact absurd hs (by simp)
  let m : PageId → Option Page := fun p =>
    if p = 0 ∨ p ∈ U then some (t.bufferPool.view p) else none
  have hmU : ∀ p ∈ U, m p = some (t.bufferPool.view p) := fun p hp => if_pos (Or.inr hp)
  have hm0 : m 0 = some (t.bufferPool.view 0) := if_pos (Or.inl rfl)
  have hocc : Occupied m U := by
    refine ⟨fun p => ⟨fun hp => ⟨(hused p hp).1, by rw [hmU p hp]; rfl⟩, fun hp => ?_⟩, ?_, ?_⟩
    · by_contra hn
      have hnone : m p = none := if_neg (not_or.mpr ⟨hp.1, hn⟩)
      rw [hnone] at hp
      exact absurd hp.2 (by simp)
    · rw [hm0]
      rfl
    · exact if_neg (not_or.mpr ⟨by decide, fun hp => ne_u32Max_of_lt (hused _ hp).2 rfl⟩)
  have hroot : t.bufferPool.root = rootIn m := by
    unfold rootIn
    rw [hm0]
    rfl
  refine ⟨m, U, ⟨hocc, hinv, hmU, hroot⟩, fun p hp => hsub p (Or.inr hp), K', d, c, hocc, ?_,
    fun p hp hp' => hp'.2 hp, hroot.symm.trans hat.stored, hat.rootId, hread, hb⟩
  refine hrep.congr fun p hp => ?_
  rw [hmU p (Or.inl hp)]
  exact hat.view p (Or.inl hp)

/-- A tree in the pages is one on the pool that has these pages. -/
theorem BindsIn.holdsMap {U : Set PageId} {s : BufferPool} (h : BindsIn m root b)
    (hs : s.Shows m U) :
    HoldsMap ⟨s, root⟩ b := by
  obtain ⟨K, d, c, hocc, hrep, hK, hstored, hroot, hread, hb⟩ := h
  have hU : U = {p | p ∈ pagesOf c} ∪ K := by
    ext p
    rw [hs.occupied.pages, hocc.pages]
  subst hU
  refine ⟨K, d, c, ⟨_, ⟨hs.inv, fun p hp => ?_, hroot, hs.root.trans hstored⟩, hrep, hK⟩, hread, hb⟩
  rw [hs.view p hp]
  rfl

/-! ## The run -/

namespace Race

variable {fuel : Nat} {first : Bool} {r r₀ : Race}

/-- What a calm run keeps. -/
theorem Run.inOrder {m : PageId → Option Page} {root₀ : PageId}
    (hpages : r₀.PagesInOrder m first) (hroot : r₀.RootInOrder fuel root₀ first)
    (h : Run fuel (Calm fuel first) r₀ r) :
    r.PagesInOrder m first ∧ r.RootInOrder fuel root₀ first := by
  induction h with
  | start => exact ⟨hpages, hroot⟩
  | step _ _ hcalm ih => exact ⟨ih.1.step hcalm, ih.2.step hcalm⟩

/-- The insertions keep their arguments. -/
theorem Run.args {C : Race → Bool → PageCall → Prop} (h : Run fuel C r₀ r) (z : Bool) :
    (r.call z).key = (r₀.call z).key ∧ (r.call z).value = (r₀.call z).value := by
  induction h with
  | start => exact ⟨rfl, rfl⟩
  | @step r w c _ _ _ ih =>
    by_cases hw : z = w
    · subst hw
      rw [step_call_self]
      exact ih
    · rw [step_call_other fuel r c hw]
      exact ih

theorem begin_inOrder {t : BTree BufferPool} {m : PageId → Option Page} {U : Set PageId}
    (fuel : Nat) (first : Bool) (key value : Bool → Bytes) (hshows : t.bufferPool.Shows m U)
    (htaken : ∀ p, t.bufferPool.taken p → p ∈ U) :
    (begin t key value).PagesInOrder m first ∧
      (begin t key value).RootInOrder fuel t.rootPageId first := by
  refine ⟨⟨trivial, trivial, U, hshows, htaken⟩, fun s hs => ?_, fun s hs => ?_, ?_⟩
  · exact absurd hs (by simp [begin])
  · exact absurd hs (by simp [begin])
  · rw [(reached_none rfl).2, (reached_none rfl).2]
    rfl

end Race

/-- An insertion that has returned. -/
theorem Insertion.of_returned {i : Insertion} (h : i.returned fuel) :
    ∃ root t, i.root = some root ∧ i.resume fuel root = (.ok (), t) ∧ t.bufferPool.left = [] := by
  unfold Insertion.returned at h
  split at h
  · exact absurd h (by simp)
  · rename_i root hroot
    split at h
    · rename_i t ht
      exact ⟨root, t, hroot, ht, List.isEmpty_iff.mp h⟩
    · exact absurd h (by simp)

/-- An insertion that has returned changed one binding of the tree it started with. -/
theorem BindsIn.returned {i : Insertion} (h : BindsIn m root b) (hok : pageCells.OkRun m i.events)
    (hplain : isOverflowHandle i.value = false) (hlen : i.value.length < 2 ^ 32)
    (hstart : ∀ s, i.root = some s → s = root) (hret : i.returned fuel) :
    BindsIn (pageCells.run m i.events) ((i.moved fuel).getD root)
      (Function.update b i.key (some i.value)) := by
  obtain ⟨s, t, hs, hrun, hleft⟩ := Insertion.of_returned hret
  obtain rfl := hstart s hs
  have hmoved : (i.moved fuel).getD s = t.rootPageId := by
    have hreached : i.reached fuel = some t.rootPageId := by
      unfold Insertion.reached
      rw [hs, Option.map_some, hrun]
    exact Option.some.inj ((Race.reached_eq hs).symm.trans hreached)
  rw [hmoved]
  exact h.insert hok hplain hlen hrun hleft

/-- **Both insertions are kept.** In every run of two insertions of different keys in which every
page call is harmless, whichever of the two comes first, once both have returned a search finds
both values, and every other key as before. -/
theorem concurrent_inserts_kept {fuel : Nat} {first : Bool} {t : BTree BufferPool}
    {b : Bytes → Option Bytes} {key value : Bool → Bytes} {r : Race} (ht : HoldsMap t b)
    (hkeys : key true ≠ key false) (hplain : ∀ z, isOverflowHandle (value z) = false)
    (hlen : ∀ z, (value z).length < 2 ^ 32)
    (hrun : Race.Run fuel (Race.Calm fuel first) (Race.begin t key value) r)
    (hret : ∀ z, (r.call z).returned fuel) :
    (∀ z, ∃ t', Ends (fun n => BTree.search BufferPool.store n (key z)) r.tree
      (.ok (some (value z)), t')) ∧
    ∀ k, (∀ z, k ≠ key z) →
      ∃ t', Ends (fun n => BTree.search BufferPool.store n k) r.tree (.ok (b k), t') := by
  obtain ⟨m, U, hshows, htaken, hbinds⟩ := ht.pages
  obtain ⟨hpages₀, hroot₀⟩ := Race.begin_inOrder fuel first key value hshows htaken
  obtain ⟨hpages, hroot⟩ := hrun.inOrder hpages₀ hroot₀
  have hkey : ∀ z, (r.call z).key = key z := fun z => (hrun.args z).1
  have hvalue : ∀ z, (r.call z).value = value z := fun z => (hrun.args z).2
  -- the first insertion on the pages as they were, the second one on what it left
  have hfirst := hbinds.returned hpages.okFirst (hvalue first ▸ hplain first)
    (hvalue first ▸ hlen first) hroot.startFirst (hret first)
  have hsecond := hfirst.returned hpages.okSecond (hvalue (!first) ▸ hplain (!first))
    (hvalue (!first) ▸ hlen (!first)) hroot.startSecond (hret (!first))
  rw [← hroot.current, hkey, hkey, hvalue, hvalue] at hsecond
  obtain ⟨U', hshows', _⟩ := hpages.pool
  have hholds : HoldsMap r.tree _ := hsecond.holdsMap hshows'
  have hne : key first ≠ key (!first) := by
    cases first with
    | true => exact hkeys
    | false => exact hkeys.symm
  refine ⟨fun z => ?_, fun k hk => ?_⟩
  · obtain ⟨t', hends⟩ := hholds.search (key z)
    by_cases hz : z = first
    · subst hz
      rw [Function.update_of_ne hne, Function.update_self] at hends
      exact ⟨t', hends⟩
    · obtain rfl : z = !first := Bool.eq_not_of_ne hz
      rw [Function.update_self] at hends
      exact ⟨t', hends⟩
  · obtain ⟨t', hends⟩ := hholds.search k
    rw [Function.update_of_ne (hk _), Function.update_of_ne (hk _)] at hends
    exact ⟨t', hends⟩

/-! ## Deciding concrete runs -/

instance Race.decidableInUse (taken : PageId → Bool) : (c : PageCall) → Decidable (Race.InUse taken c)
  | .fetch p => inferInstanceAs (Decidable (p = 0 ∨ taken p))
  | .write p x => inferInstanceAs (Decidable (p = 0 ∧ x.hasMagic ∨ taken p))
  | .alloc => inferInstanceAs (Decidable True)
  | .free p => inferInstanceAs (Decidable (taken p))

instance pageConflictDecidable (e f : PageEvent) : Decidable (pageCells.Conflict e f) :=
  inferInstanceAs (Decidable (e.cell = f.cell ∧ ¬ (e.1.isFetch ∧ f.1.isFetch)))

instance Race.decidableCalm (fuel : Nat) (first : Bool) (r : Race) (z : Bool) (c : PageCall) :
    Decidable (Race.Calm fuel first r z c) :=
  inferInstanceAs (Decidable (_ ∧ _ ∧ (_ → _ ∧ _ ∧ _)))

/-- Let the insertions make their page calls in the given order, as long as every one meets a
condition. -/
def Race.play (fuel : Nat) (C : Race → Bool → PageCall → Bool) : List Bool → Race → Option Race
  | [], r => some r
  | z :: zs, r =>
    match r.next fuel z with
    | some c => if C r z c then Race.play fuel C zs (r.step fuel z c) else none
    | none => none

theorem Race.run_of_play {C : Race → Bool → PageCall → Prop} {D : Race → Bool → PageCall → Bool}
    (hD : ∀ r z c, D r z c → C r z c) {zs : List Bool} :
    ∀ {r₀ r r' : Race}, Race.Run fuel C r₀ r → Race.play fuel D zs r = some r' →
      Race.Run fuel C r₀ r' := by
  induction zs with
  | nil =>
    intro r₀ r r' hrun hplay
    obtain rfl := Option.some.inj hplay
    exact hrun
  | cons z zs ih =>
    intro r₀ r r' hrun hplay
    unfold Race.play at hplay
    split at hplay
    · rename_i c hc
      split at hplay
      · rename_i hok
        exact ih (hrun.step hc (hD r z c hok)) hplay
      · exact absurd hplay (by simp)
    · exact absurd hplay (by simp)

/-- Two leaves under a root. -/
def twoLeaves : List TreeOp :=
  [.insert [10] (List.replicate 2000 7), .insert [20] (List.replicate 2000 7),
    .insert [30] (List.replicate 2000 7)]

/-- One key belongs to the left leaf, and the other one splits the right leaf. -/
def leafKeys (z : Bool) : Bytes := if z then [11] else [21]

def leafValues (z : Bool) : Bytes := if z then [1] else List.replicate 2000 2

set_option maxRecDepth 100000 in
/-- The second insertion splits its leaf, and changes the root node that the first one has already
passed. -/
theorem concurrent_inserts_split : ∃ t r t₁ t₂ t₃, HoldsMap t (finalMap twoLeaves) ∧
    Race.Run 5 (Race.Calm 5 true) (Race.begin t leafKeys leafValues) r ∧
    (∀ z, (r.call z).returned 5 = true) ∧
    Ends (fun n => BTree.search BufferPool.store n [11]) r.tree (.ok (some [1]), t₁) ∧
    Ends (fun n => BTree.search BufferPool.store n [21]) r.tree
      (.ok (some (List.replicate 2000 2)), t₂) ∧
    Ends (fun n => BTree.search BufferPool.store n [30]) r.tree
      (.ok (some (List.replicate 2000 7)), t₃) := by
  obtain ⟨t₀, _, hfresh, _⟩ := BTree.fresh_holds false 16 0
  have heval : (match BTree.fresh 16 0 with
    | .ok t => checkRun false 5 twoLeaves t &&
        (Race.play 5 (fun r z c => decide (Race.Calm 5 true r z c))
          [true, false, false, false, false, false, false, false, true, true]
          (Race.begin (evalRun 5 twoLeaves t).2 leafKeys leafValues)).any fun r =>
            (r.call true).returned 5 && (r.call false).returned 5
    | .error _ => false) = true := by decide +kernel
  rw [hfresh] at heval
  obtain ⟨hcheck, hplay⟩ := Bool.and_eq_true_iff.mp heval
  have ht : HoldsMap (evalRun 5 twoLeaves t₀).2 (finalMap twoLeaves) :=
    (fresh_holdsMap hfresh).eval (by simp [twoLeaves, TreeOp.Sized, maxKeySize]) hcheck
  generalize (evalRun 5 twoLeaves t₀).2 = t at ht hplay
  obtain ⟨r, hr, hret⟩ := (Option.any_eq_true _ _).mp hplay
  obtain ⟨htrue, hfalse⟩ := Bool.and_eq_true_iff.mp hret
  have hrun := Race.run_of_play (fun r z c h => of_decide_eq_true h) .start hr
  have hboth : ∀ z, (r.call z).returned 5 = true := fun z => by cases z with
    | true => exact htrue
    | false => exact hfalse
  obtain ⟨hfound, hold⟩ := concurrent_inserts_kept ht (by decide)
    (fun z => by cases z <;> decide +kernel) (fun z => by cases z <;> simp [leafValues]) hrun hboth
  obtain ⟨t₁, h₁⟩ := hfound true
  obtain ⟨t₂, h₂⟩ := hfound false
  obtain ⟨t₃, h₃⟩ := hold [30] (fun z => by cases z <;> decide)
  exact ⟨t, r, t₁, t₂, t₃, ht, hrun, hboth, h₁, h₂, h₃⟩

/-- The two keys, and the values. -/
def twoKeys (z : Bool) : Bytes := if z then [1] else [2]

def twoValues (z : Bool) : Bytes := if z then [7] else [8]

/-- Both insertions have returned, and a search for the first key finds nothing. -/
def firstMissing (r : Race) : Bool :=
  (r.call true).returned 5 && (r.call false).returned 5 &&
    (BTree.search BufferPool.store 5 (twoKeys true) r.tree).1.toOption.any Option.isNone

/-- **An insertion is lost.** Both insertions read the leaf before either has written it. Both
return `Ok`, and the first key is not there. -/
theorem overlapping_insert_lost : ∃ t r t', BTree.fresh 16 0 = .ok t ∧
    Race.Run 5 (fun _ _ _ => True) (Race.begin t twoKeys twoValues) r ∧
    (∀ z, (r.call z).returned 5) ∧
    Ends (fun n => BTree.search BufferPool.store n (twoKeys true)) r.tree (.ok none, t') := by
  obtain ⟨t, _, hfresh, _⟩ := BTree.fresh_holds false 16 0
  have hplay : (BTree.fresh 16 0).toOption.any (fun t =>
      (Race.play 5 (fun _ _ _ => true) [true, false, true, false]
        (Race.begin t twoKeys twoValues)).any firstMissing) := by decide +kernel
  rw [hfresh] at hplay
  have hplayed : (Race.play 5 (fun _ _ _ => true) [true, false, true, false]
      (Race.begin t twoKeys twoValues)).any firstMissing := hplay
  obtain ⟨r, hr, hend⟩ := (Option.any_eq_true _ _).mp hplayed
  obtain ⟨hret, hsearch⟩ := Bool.and_eq_true_iff.mp hend
  obtain ⟨htrue, hfalse⟩ := Bool.and_eq_true_iff.mp hret
  have hnone : (BTree.search BufferPool.store 5 (twoKeys true) r.tree).1 = .ok none := by
    cases hresult : (BTree.search BufferPool.store 5 (twoKeys true) r.tree).1 with
    | error e =>
      rw [hresult] at hsearch
      exact Bool.noConfusion hsearch
    | ok found =>
      rw [hresult] at hsearch
      rw [Option.isNone_iff_eq_none.mp hsearch]
  obtain ⟨t', hends⟩ := ends_of_ok (fun hnm => BTree.search_agrees (.refl _) hnm _) hnone
  refine ⟨t, r, t', hfresh, Race.run_of_play (fun _ _ _ _ => trivial) .start hr, fun z => ?_, hends⟩
  cases z with
  | true => exact htrue
  | false => exact hfalse

end MagnumDB
