import MagnumDB.Storage.Monitor
import MagnumDB.Storage.NodeProof
import Mathlib.Data.Set.Insert
import Mathlib.Logic.Function.Basic

/-!
# What the tree relies on

`PageStore.Laws` is the contract between the tree and the store under it: a page
reads back as it was last written, and an allocated page is not one in use. Every
law lets the call be stopped by a monitor instead. The set of pages in use is a
ghost argument of the invariant.

`BTree.At` is the state of a tree over a lawful store as the proofs see it: the
pages in use, what they hold, and the root. There is one rule for each call, and
reading and writing nodes on top of them.
-/

namespace MagnumDB

open Prog

/-- The failure of a call that a monitor stopped. -/
def Stopped {σ : Type} : Fail → σ → Prop := fun e _ => e = .stopped

/-- A store in which pages keep what was written to them. -/
structure PageStore.Laws {σ : Type} (S : PageStore σ) where
  /-- The store is in order, and the pages in use are those of the set. -/
  Inv : σ → Set PageId → Prop
  /-- What a page reads as. -/
  view : σ → PageId → Page
  /-- The root that page 0 names. -/
  root : σ → PageId
  /-- Neither the metadata page nor the encoding of "no page" is ever in use. -/
  valid : ∀ {s U p}, Inv s U → p ∈ U → p ≠ 0 ∧ p ≠ u32Max
  fetch : ∀ {s U p}, Inv s U → p ∈ U → (S.fetchPage p).wp s
    (fun page s' => page = view s p ∧ Inv s' U ∧ (∀ q ∈ U, view s' q = view s q) ∧
      root s' = root s) Stopped
  write : ∀ {s U p page}, Inv s U → p ∈ U → (S.writePage p page).wp s
    (fun _ s' => Inv s' U ∧ view s' p = page ∧ (∀ q ∈ U, q ≠ p → view s' q = view s q) ∧
      root s' = root s) Stopped
  alloc : ∀ {s U}, Inv s U → S.allocatePage.wp s
    (fun id s' => id ∉ U ∧ Inv s' (U ∪ {id}) ∧ (∀ q ∈ U, view s' q = view s q) ∧
      root s' = root s) Stopped
  free : ∀ {s U p}, Inv s U → p ∈ U → (S.freePage p).wp s
    (fun _ s' => Inv s' (U \ {p}) ∧ (∀ q ∈ U, q ≠ p → view s' q = view s q) ∧
      root s' = root s) Stopped
  /-- Reading the metadata page. -/
  fetchMeta : ∀ {s U}, Inv s U → (S.fetchPage 0).wp s
    (fun page s' => page.rootField = root s ∧ Inv s' U ∧ (∀ q ∈ U, view s' q = view s q) ∧
      root s' = root s) Stopped
  /-- The read and the write of `persist_root_page_id`, taken together. -/
  persist : ∀ {s U id}, Inv s U → id ∈ U →
    (S.fetchPage 0 >>= fun page => S.writePage 0 (page.setRoot id)).wp s
      (fun _ s' => Inv s' U ∧ (∀ q ∈ U, view s' q = view s q) ∧ root s' = id) Stopped

/-- A property of the state that no call breaks, as long as the store is in order. -/
structure PageStore.Laws.Kept {σ : Type} {S : PageStore σ} (L : S.Laws) (P : σ → Prop) : Prop where
  fetch : ∀ {s U p}, L.Inv s U → p = 0 ∨ p ∈ U → P s →
    (S.fetchPage p).wp s (fun _ s' => P s') Stopped
  write : ∀ {s U p page}, L.Inv s U → p ∈ U → P s →
    (S.writePage p page).wp s (fun _ s' => P s') Stopped
  alloc : ∀ {s U}, L.Inv s U → P s → S.allocatePage.wp s (fun _ s' => P s') Stopped
  free : ∀ {s U p}, L.Inv s U → p ∈ U → P s → (S.freePage p).wp s (fun _ s' => P s') Stopped
  persist : ∀ {s U id}, L.Inv s U → id ∈ U → P s →
    (S.fetchPage 0 >>= fun page => S.writePage 0 (page.setRoot id)).wp s (fun _ s' => P s') Stopped

/-- The same store, with such a property as part of its invariant. -/
def PageStore.Laws.withInv {σ : Type} {S : PageStore σ} (L : S.Laws) {P : σ → Prop}
    (hP : L.Kept P) : S.Laws where
  Inv s U := L.Inv s U ∧ P s
  view := L.view
  root := L.root
  valid h hp := L.valid h.1 hp
  fetch h hp := wp_mono (wp_and (L.fetch h.1 hp) (hP.fetch h.1 (Or.inr hp) h.2))
    (fun _ _ q => ⟨q.1.1, ⟨q.1.2.1, q.2⟩, q.1.2.2⟩) (fun _ _ e => e.1)
  write h hp := wp_mono (wp_and (L.write h.1 hp) (hP.write h.1 hp h.2))
    (fun _ _ q => ⟨⟨q.1.1, q.2⟩, q.1.2⟩) (fun _ _ e => e.1)
  alloc h := wp_mono (wp_and (L.alloc h.1) (hP.alloc h.1 h.2))
    (fun _ _ q => ⟨q.1.1, ⟨q.1.2.1, q.2⟩, q.1.2.2⟩) (fun _ _ e => e.1)
  free h hp := wp_mono (wp_and (L.free h.1 hp) (hP.free h.1 hp h.2))
    (fun _ _ q => ⟨⟨q.1.1, q.2⟩, q.1.2⟩) (fun _ _ e => e.1)
  fetchMeta h := wp_mono (wp_and (L.fetchMeta h.1) (hP.fetch h.1 (Or.inl rfl) h.2))
    (fun _ _ q => ⟨q.1.1, ⟨q.1.2.1, q.2⟩, q.1.2.2⟩) (fun _ _ e => e.1)
  persist h hid := wp_mono (wp_and (L.persist h.1 hid) (hP.persist h.1 hid h.2))
    (fun _ _ q => ⟨⟨q.1.1, q.2⟩, q.1.2⟩) (fun _ _ e => e.1)

namespace BTree

variable {σ : Type} {S : PageStore σ}

/-- The tree's pages are `U`, they hold `v`, and its root is `r`, in memory and in page 0. -/
structure At (L : S.Laws) (t : BTree σ) (U : Set PageId) (v : PageId → Page) (r : PageId) :
    Prop where
  inv : L.Inv t.bufferPool U
  view : ∀ q ∈ U, L.view t.bufferPool q = v q
  rootId : t.rootPageId = r
  stored : L.root t.bufferPool = r

variable {L : S.Laws} {t : BTree σ} {U : Set PageId} {v : PageId → Page} {r p : PageId}
  {α : Type} {E : Fail → BTree σ → Prop}

theorem At.congr_pages {U' : Set PageId} (h : At L t U v r) (he : U = U') : At L t U' v r := he ▸ h

section Calls

variable (h : At L t U v r) (hE : ∀ t', E .stopped t')
include h hE

theorem wp_fetchPage {Q : Page → BTree σ → Prop} (hp : p ∈ U)
    (hQ : ∀ t', At L t' U v r → Q (v p) t') : (onPool (S.fetchPage p)).wp t Q E := by
  refine wp_zoom (wp_mono (L.fetch h.inv hp) ?_ ?_)
  · rintro page s' ⟨hpage, hinv, hview, hroot⟩
    rw [hpage, h.view p hp]
    exact hQ _ ⟨hinv, fun q hq => (hview q hq).trans (h.view q hq), h.rootId,
      hroot.trans h.stored⟩
  · intro e s' he
    rw [he]; exact hE _

variable {Q : Unit → BTree σ → Prop}

theorem wp_writePage {page : Page} (hp : p ∈ U)
    (hQ : ∀ t', At L t' U (Function.update v p page) r → Q () t') :
    (onPool (S.writePage p page)).wp t Q E := by
  refine wp_zoom (wp_mono (L.write h.inv hp) ?_ ?_)
  · rintro ⟨⟩ s' ⟨hinv, hself, hview, hroot⟩
    refine hQ _ ⟨hinv, fun q hq => ?_, h.rootId, hroot.trans h.stored⟩
    by_cases hqp : q = p
    · rw [hqp, Function.update_self]; exact hself
    · rw [Function.update_of_ne hqp]; exact (hview q hq hqp).trans (h.view q hq)
  · intro e s' he
    rw [he]; exact hE _

theorem wp_allocatePage {Q : PageId → BTree σ → Prop}
    (hQ : ∀ id t' page, id ∉ U → id ≠ u32Max →
      At L t' (U ∪ {id}) (Function.update v id page) r → Q id t') :
    (onPool S.allocatePage).wp t Q E := by
  refine wp_zoom (wp_mono (L.alloc h.inv) ?_ ?_)
  · rintro id s' ⟨hfresh, hinv, hview, hroot⟩
    have hne := L.valid hinv (Or.inr rfl : id ∈ U ∪ {id})
    refine hQ id _ (L.view s' id) hfresh hne.2 ⟨hinv, fun q hq => ?_, h.rootId, hroot.trans h.stored⟩
    rcases hq with hq | hq
    · have hqid : q ≠ id := fun he => hfresh (he ▸ hq)
      rw [Function.update_of_ne hqid]; exact (hview q hq).trans (h.view q hq)
    · rw [hq, Function.update_self]
  · intro e s' he
    rw [he]; exact hE _

theorem wp_freePage (hp : p ∈ U) (hQ : ∀ t', At L t' (U \ {p}) v r → Q () t') :
    (onPool (S.freePage p)).wp t Q E := by
  refine wp_zoom (wp_mono (L.free h.inv hp) ?_ ?_)
  · rintro ⟨⟩ s' ⟨hinv, hview, hroot⟩
    exact hQ _ ⟨hinv, fun q hq => (hview q hq.1 hq.2).trans (h.view q hq.1), h.rootId,
      hroot.trans h.stored⟩
  · intro e s' he
    rw [he]; exact hE _

/-- Moving the root: the field in memory and page 0. -/
theorem wp_moveRoot (hp : p ∈ U) (hQ : ∀ t', At L t' U v p → Q () t') :
    (do Prog.modify (fun t => { t with rootPageId := p }); persistRootPageId S p :
      Prog Fail (BTree σ) Unit).wp t Q E := by
  refine wp_bind (wp_modify ?_)
  have hz : persistRootPageId S p
      = onPool (S.fetchPage 0 >>= fun page => S.writePage 0 (page.setRoot p)) := by
    funext t'
    show Prog.bind _ _ t' = _
    unfold Prog.bind onPool Prog.zoom
    rw [bind_def]
    unfold Prog.bind
    match S.fetchPage 0 t'.bufferPool with
    | (.ok page, s') => rfl
    | (.error e, s') => rfl
  rw [hz]
  refine wp_zoom (wp_mono (L.persist h.inv hp) ?_ ?_)
  · rintro ⟨⟩ s' ⟨hinv, hview, hroot⟩
    exact hQ _ ⟨hinv, fun q hq => (hview q hq).trans (h.view q hq), rfl, hroot⟩
  · intro e s' he
    rw [he]; exact hE _

/-! ### Nodes -/

theorem wp_readNode {Q : Node → BTree σ → Prop} {n : Node} (hp : p ∈ U)
    (hn : Node.fromPage (v p) = .ok n) (hQ : ∀ t', At L t' U v r → Q n t') :
    (readNode S p).wp t Q E := by
  refine wp_bind (wp_fetchPage h hE hp (fun t' h' => ?_))
  exact wp_lift_ok hn (hQ t' h')

/-- Writing a node that fits makes the page hold it; one that does not fit is an error. -/
theorem wp_writeNode {n : Node} (hp : p ∈ U) (hv : n.Valid)
    (hbig : ∀ t', ¬ n.encodedSize ≤ pageSize →
      E (.err (.nodeTooLarge n.encodedSize pageSize)) t')
    (hQ : ∀ page t', n.encodedSize ≤ pageSize → Node.fromPage page = .ok n →
      At L t' U (Function.update v p page) r → Q () t') : (writeNode S p n).wp t Q E := by
  refine wp_bind ?_
  by_cases hfit : n.encodedSize ≤ pageSize
  · obtain ⟨page, hpage, _⟩ := Node.toPage_of_fits hfit
    refine wp_lift_ok hpage (wp_writePage h hE hp (fun t' h' => ?_))
    exact hQ page t' hfit (Node.fromPage_toPage hv hpage) h'
  · exact wp_lift_error (Node.toPage_of_not_fits hfit) (hbig t hfit)

end Calls

end BTree

end MagnumDB
