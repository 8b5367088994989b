import MagnumDB.Storage.Laws

/-!
# Overflow chains

A value too long for a record lies in a chain of overflow pages, each with a chunk
of the value and the number of the next page. `Slot` is a record's value together
with where it lies; `Slot.Holds` says that the pages really hold it. The three
loops over chains are specified here: writing one, reading one back, freeing one.
-/

namespace MagnumDB

open ByteString Prog List

/-- A value in a record, or in a chain of pages of its own. -/
inductive Slot where
  | inline (value : Bytes)
  | overflow (value : Bytes) (chain : List PageId)

/-- The pages of a chain hold the pieces, each page naming the next. -/
def ChainHolds (v : PageId → Page) : List PageId → List Bytes → Prop
  | [], [] => True
  | p :: ps, c :: cs => BTree.overflowPage (ps.headD u32Max) c = .ok (v p) ∧ ChainHolds v ps cs
  | _, _ => False

namespace Slot

def value : Slot → Bytes
  | .inline value => value
  | .overflow value _ => value

/-- What stands in the record. -/
def stored : Slot → Bytes
  | .inline value => value
  | .overflow value chain => BTree.overflowHandle value.length (chain.headD 0)

/-- The pages that belong to the record. -/
def pages : Slot → List PageId
  | .inline _ => []
  | .overflow _ chain => chain

/-- The pages of the record hold its value. -/
def Holds (v : PageId → Page) : Slot → Prop
  | .inline _ => True
  | .overflow value chain => value ≠ [] ∧ ChainHolds v chain (chunks BTree.chunkSize value)

/-- The record reads back as its value: an inline value must not look like a handle, and the
length of a chained one must fit the handle. -/
def Readable : Slot → Prop
  | .inline value => isOverflowHandle value = false
  | .overflow value _ => value.length < 2 ^ 32

/-- A handle in the record really is one. This is what freeing needs. -/
def Genuine : Slot → Prop
  | .inline value => isOverflowHandle value = false
  | .overflow _ _ => True

theorem Readable.genuine {s : Slot} (h : s.Readable) : s.Genuine := by
  cases s with
  | inline value => exact h
  | overflow value chain => trivial

end Slot

theorem ChainHolds.congr {v v' : PageId → Page} : ∀ {ps : List PageId} {cs : List Bytes},
    ChainHolds v ps cs → (∀ p ∈ ps, v' p = v p) → ChainHolds v' ps cs
  | [], [], _, _ => trivial
  | [], _ :: _, h, _ => h.elim
  | _ :: _, [], h, _ => h.elim
  | p :: ps, c :: cs, h, hv => by
    obtain ⟨hp, hps⟩ := h
    refine ⟨?_, hps.congr (fun q hq => hv q (mem_cons_of_mem _ hq))⟩
    rw [hv p (mem_cons_self ..)]
    exact hp

theorem Slot.Holds.congr {v v' : PageId → Page} {s : Slot} (h : s.Holds v)
    (hv : ∀ p ∈ s.pages, v' p = v p) : s.Holds v' := by
  cases s with
  | inline value => trivial
  | overflow value chain => exact ⟨h.1, ChainHolds.congr h.2 hv⟩

/-! ## The handle -/

theorem isOverflowHandle_handle (len : Nat) (id : PageId) :
    isOverflowHandle (BTree.overflowHandle len id) := by
  have hlen : (BTree.overflowHandle len id).length = 12 := by
    simp [BTree.overflowHandle, overflowMagic]
  have hmagic : slice ([] ++ BTree.overflowHandle len id) 0 4 = overflowMagic := slice_mid rfl rfl
  rw [nil_append] at hmagic
  unfold isOverflowHandle
  rw [hlen, hmagic]
  rfl

theorem handle_length {len : Nat} (h : len < 2 ^ 32) (id : PageId) :
    leNat (slice (BTree.overflowHandle len id) 4 8) = len := by
  have hs : slice (BTree.overflowHandle len id) 4 8 = leBytes 4 len :=
    slice_mid (by rfl) (by rw [leBytes_length]; rfl)
  rw [hs, leNat_leBytes_of_lt (by simpa using h)]

theorem handle_first (len : Nat) (id : PageId) :
    u32FromLeBytes (slice (BTree.overflowHandle len id) 8 12) = id := by
  have hs : slice (BTree.overflowHandle len id) 8 12 = u32ToLeBytes id := by
    have he : BTree.overflowHandle len id
        = (overflowMagic ++ leBytes 4 len) ++ (u32ToLeBytes id ++ []) := by
      rw [append_nil, append_assoc]; rfl
    rw [he]
    exact slice_mid (by rw [length_append, leBytes_length]; rfl)
      (by rw [length_append, leBytes_length, u32ToLeBytes_length]; rfl)
  rw [hs, u32FromLeBytes_toLeBytes]

/-! ## One overflow page -/

theorem overflowPage_of_le (next : PageId) {chunk : Bytes} (h : chunk.length ≤ BTree.chunkSize) :
    ∃ page, BTree.overflowPage next chunk = .ok page := by
  have hfit : 4 + chunk.length ≤ pageSize := by
    simp only [BTree.chunkSize, pageSize] at h ⊢; omega
  exact ⟨_, dif_pos hfit⟩

theorem overflowPage_spec {next : PageId} {chunk : Bytes} {page : Page}
    (h : BTree.overflowPage next chunk = .ok page) :
    page.next = next ∧ page.slice 4 (4 + chunk.length) = .ok chunk := by
  unfold BTree.overflowPage Page.copyFromSlice at h
  split at h
  · rename_i hfit
    injection h with h
    subst h
    constructor
    · unfold Page.next Page.u32At
      rw [Page.copied_slice_before _ _ (Nat.le_refl 4)]
      exact Page.next_setNext _ next
    · unfold Page.slice
      rw [if_pos ⟨Nat.le_add_right .., hfit⟩, Page.copied_slice_self _ _ rfl]
  · exact absurd h (by simp)

namespace BTree

variable {σ : Type} {S : PageStore σ} {L : S.Laws} {t : BTree σ} {U : Set PageId}
  {v : PageId → Page} {r : PageId} {E : Fail → BTree σ → Prop}

/-! ## The three loops -/

/-- `write_overflow_value` puts the chunks on pages that were not in use. -/
theorem wp_writeChunks : ∀ {cs : List Bytes} {t : BTree σ} {Q : Option PageId → BTree σ → Prop},
    At L t U v r → (∀ t', E .stopped t') → (∀ c ∈ cs, c.length ≤ chunkSize) →
    (∀ chain v' t', chain.Nodup → (∀ p ∈ chain, p ∉ U) → ChainHolds v' chain cs →
      (∀ q ∈ U, v' q = v q) → At L t' (U ∪ {p | p ∈ chain}) v' r → Q chain.head? t') →
    (writeChunks S cs).wp t Q E
  | [], t, Q, h, _, _, hQ => by
    refine hQ [] v t nodup_nil (by simp) trivial (fun _ _ => rfl) (h.congr_pages ?_)
    simp
  | c :: cs, t, Q, h, hE, hc, hQ => by
    -- the source walks the chunks backwards: the tail is on pages before the head is
    refine wp_bind (wp_writeChunks h hE (fun x hx => hc x (mem_cons_of_mem _ hx)) ?_)
    intro chain v' t' hnd hfresh hholds hsame hat
    refine wp_bind (wp_allocatePage hat hE ?_)
    intro id t₁ page₀ hid hmax hat₁
    obtain ⟨page, hpage⟩ := overflowPage_of_le (chain.head?.getD u32Max)
      (hc c (mem_cons_self ..))
    refine wp_bind (wp_lift_ok hpage (wp_bind (wp_writePage hat₁ hE (Or.inr rfl) ?_)))
    intro t₂ hat₂
    have hidU : id ∉ U := fun hu => hid (Or.inl hu)
    have hidc : id ∉ chain := fun hc' => hid (Or.inr hc')
    rw [Function.update_idem] at hat₂
    refine wp_pure (hQ (id :: chain) (Function.update v' id page) t₂ ?_ ?_ ?_ ?_ ?_)
    · exact nodup_cons.mpr ⟨hidc, hnd⟩
    · intro p hp
      rcases mem_cons.mp hp with hp | hp
      · rw [hp]; exact hidU
      · exact hfresh p hp
    · refine ⟨?_, hholds.congr (fun p hp => Function.update_of_ne ?_ ..)⟩
      · rw [Function.update_self, headD_eq_head?_getD]; exact hpage
      · exact fun he => hidc (he ▸ hp)
    · intro q hq
      have hne : q ≠ id := fun he => hidU (he ▸ hq)
      rw [Function.update_of_ne hne]
      exact hsame q hq
    · refine hat₂.congr_pages ?_
      ext p
      simp only [Set.mem_union, Set.mem_ofPred_eq, Set.mem_singleton_iff, mem_cons]
      tauto

/-- Reading a chain returns what was put on it, provided the length asked for is right. -/
theorem wp_resolveChain {len : Nat} : ∀ {cs : List Bytes} {chain : List PageId} {fuel : Nat}
    {acc : Bytes} {t : BTree σ} {Q : Bytes → BTree σ → Prop},
    At L t U v r → (∀ t', E .stopped t') → ChainHolds v chain cs → Cut chunkSize cs →
    (∀ p ∈ chain, p ∈ U) → acc.length + cs.flatten.length = len → chain.length ≤ fuel →
    (∀ t', At L t' U v r → Q (acc ++ cs.flatten) t') →
    (resolveChain S len fuel (chain.headD u32Max) acc).wp t Q E
  | [], [], fuel, acc, t, Q, h, _, _, _, _, _, _, hQ => by
    unfold resolveChain
    rw [headD_nil, if_pos rfl]
    rw [flatten_nil, append_nil] at hQ
    exact wp_pure (hQ t h)
  | [], _ :: _, _, _, _, _, _, _, hc, _, _, _, _, _ => hc.elim
  | _ :: _, [], _, _, _, _, _, _, hc, _, _, _, _, _ => hc.elim
  | c :: cs, p :: ps, 0, _, _, _, _, _, _, _, _, _, hf, _ => absurd hf (by simp)
  | c :: cs, p :: ps, fuel + 1, acc, t, Q, h, hE, hc, hcut, hU, hlen, hf, hQ => by
    obtain ⟨hpage, hrest⟩ := hc
    obtain ⟨hnext, hslice⟩ := overflowPage_spec hpage
    have hpU : p ∈ U := hU p (mem_cons_self ..)
    have hne : p ≠ u32Max := (L.valid h.inv hpU).2
    rw [flatten_cons, length_append] at hlen
    -- a full piece is read up to the page end, the last one up to the value's end
    have htake : min (len - acc.length) chunkSize = c.length := by
      cases hcut with
      | last hpos hle => simp at hlen; omega
      | cons heq _ _ => omega
    have hcut' : Cut chunkSize cs := by
      cases hcut with
      | last _ _ => exact .nil
      | cons _ hcs _ => exact hcs
    unfold resolveChain
    rw [headD_cons, if_neg hne]
    refine wp_bind (wp_fetchPage h hE hpU (fun t' h' => ?_))
    rw [htake]
    refine wp_bind (wp_lift_ok hslice ?_)
    rw [hnext]
    refine wp_resolveChain h' hE hrest hcut' (fun q hq => hU q (mem_cons_of_mem _ hq))
      (by rw [length_append]; omega) (by simpa using hf) (fun t₂ h₂ => ?_)
    rw [append_assoc, ← flatten_cons]
    exact hQ t₂ h₂

/-- Freeing a chain takes its pages out of use and leaves the others alone. -/
theorem wp_freeChain : ∀ {cs : List Bytes} {chain : List PageId} {fuel : Nat} {U : Set PageId}
    {t : BTree σ} {Q : Unit → BTree σ → Prop},
    At L t U v r → (∀ t', E .stopped t') → ChainHolds v chain cs → chain.Nodup →
    (∀ p ∈ chain, p ∈ U) → chain.length ≤ fuel →
    (∀ t', At L t' (U \ {p | p ∈ chain}) v r → Q () t') →
    (freeChain S fuel (chain.headD u32Max)).wp t Q E
  | [], [], fuel, U, t, Q, h, _, _, _, _, _, hQ => by
    unfold freeChain
    rw [headD_nil, if_pos rfl]
    exact wp_pure (hQ t (h.congr_pages (by ext; simp)))
  | [], _ :: _, _, _, _, _, _, _, hc, _, _, _, _ => hc.elim
  | _ :: _, [], _, _, _, _, _, _, hc, _, _, _, _ => hc.elim
  | c :: cs, p :: ps, 0, _, _, _, _, _, _, _, _, hf, _ => absurd hf (by simp)
  | c :: cs, p :: ps, fuel + 1, U, t, Q, h, hE, hc, hnd, hU, hf, hQ => by
    obtain ⟨hpage, hrest⟩ := hc
    obtain ⟨hnext, _⟩ := overflowPage_spec hpage
    obtain ⟨hpps, hnd'⟩ := nodup_cons.mp hnd
    have hpU : p ∈ U := hU p (mem_cons_self ..)
    have hne : p ≠ u32Max := (L.valid h.inv hpU).2
    unfold freeChain
    rw [headD_cons, if_neg hne]
    refine wp_bind (wp_fetchPage h hE hpU (fun t₁ h₁ => ?_))
    refine wp_bind (wp_freePage h₁ hE hpU (fun t₂ h₂ => ?_))
    rw [hnext]
    refine wp_freeChain h₂ hE hrest hnd' (fun q hq => ⟨hU q (mem_cons_of_mem _ hq), ?_⟩)
      (by simpa using hf) (fun t₃ h₃ => hQ t₃ (h₃.congr_pages ?_))
    · exact fun he => hpps (he ▸ hq)
    · ext q
      simp only [Set.mem_sdiff, Set.mem_ofPred_eq, Set.mem_singleton_iff, mem_cons]
      tauto

/-! ## Values -/

theorem chunkSize_pos : 0 < chunkSize := by decide

theorem chainHolds_headD {chain : List PageId} {value : Bytes} (hne : value ≠ [])
    (hc : ChainHolds v chain (chunks chunkSize value)) (a b : PageId) :
    chain.headD a = chain.headD b := by
  cases chain with
  | cons p ps => rfl
  | nil =>
    -- a chain without pages would hold no bytes
    cases hcs : chunks chunkSize value with
    | nil =>
      have hf := chunks_flatten chunkSize_pos value
      rw [hcs] at hf
      exact absurd hf.symm hne
    | cons c cs => rw [hcs] at hc; exact hc.elim

theorem wp_readValue {s : Slot} {fuel : Nat} {Q : Bytes → BTree σ → Prop} (h : At L t U v r)
    (hE : ∀ t', E .stopped t') (hs : s.Holds v) (hr : s.Readable) (hU : ∀ p ∈ s.pages, p ∈ U)
    (hf : s.pages.length ≤ fuel) (hQ : ∀ t', At L t' U v r → Q s.value t') :
    (readValueResolveOverflow S fuel s.stored).wp t Q E := by
  unfold readValueResolveOverflow
  cases s with
  | inline value =>
    have hno : isOverflowHandle (Slot.inline value).stored = false := hr
    rw [if_neg (by simp [hno])]
    exact wp_pure (hQ t h)
  | overflow value chain =>
    obtain ⟨hne, hc⟩ := hs
    have hflat := chunks_flatten chunkSize_pos value
    rw [Slot.stored, if_pos (isOverflowHandle_handle ..), handle_length hr, handle_first,
      chainHolds_headD hne hc 0 u32Max]
    refine wp_resolveChain h hE hc (chunks_cut chunkSize_pos value) hU ?_ hf (fun t' h' => ?_)
    · rw [hflat]; exact Nat.zero_add _
    · rw [hflat, nil_append]; exact hQ t' h'

/-- Freeing the chain of a record: nothing to do for an inline value. -/
theorem wp_freeOverflowChain {s : Slot} {fuel : Nat} {Q : Unit → BTree σ → Prop} (h : At L t U v r)
    (hE : ∀ t', E .stopped t') (hs : s.Holds v) (hg : s.Genuine) (hnd : s.pages.Nodup)
    (hU : ∀ p ∈ s.pages, p ∈ U) (hf : s.pages.length ≤ fuel)
    (hQ : ∀ t', At L t' (U \ {p | p ∈ s.pages}) v r → Q () t') :
    (freeOverflowChain S fuel s.stored).wp t Q E := by
  unfold freeOverflowChain
  cases s with
  | inline value =>
    have hno : isOverflowHandle (Slot.inline value).stored = false := hg
    rw [if_neg (by simp [hno])]
    exact wp_pure (hQ t (h.congr_pages (by ext; simp [Slot.pages])))
  | overflow value chain =>
    obtain ⟨hne, hc⟩ := hs
    rw [Slot.stored, if_pos (isOverflowHandle_handle ..), handle_first,
      chainHolds_headD hne hc 0 u32Max]
    exact wp_freeChain h hE hc hnd hU hf hQ

/-- The stored form of a value: a slot whose pages, if any, were not in use before. -/
theorem wp_storedForm {value : Bytes} {Q : Bytes → BTree σ → Prop} (h : At L t U v r)
    (hE : ∀ t', E .stopped t')
    (hQ : ∀ (s : Slot) v' t', s.value = value → s.Holds v' → s.pages.Nodup →
      (∀ p ∈ s.pages, p ∉ U) → (∀ q ∈ U, v' q = v q) → At L t' (U ∪ {p | p ∈ s.pages}) v' r →
      (value.length ≤ maxInlineValSize → s = .inline value) →
      (maxInlineValSize < value.length → ∃ chain, s = .overflow value chain) →
      Q s.stored t') :
    (storedForm S value).wp t Q E := by
  unfold storedForm
  by_cases hv : value.length > maxInlineValSize
  · rw [if_pos hv]
    have hne : value ≠ [] := by
      intro hnil
      rw [hnil] at hv
      exact absurd hv (by simp)
    refine wp_bind (wp_writeChunks h hE (chunks_cut chunkSize_pos value).length_le ?_)
    intro chain v' t' hnd hfresh hholds hsame hat
    refine wp_pure ?_
    have := hQ (.overflow value chain) v' t' rfl ⟨hne, hholds⟩ hnd hfresh hsame hat
      (fun hle => absurd hv (Nat.not_lt.mpr hle)) (fun _ => ⟨chain, rfl⟩)
    rw [Slot.stored, headD_eq_head?_getD] at this
    exact this
  · rw [if_neg hv]
    refine wp_pure (hQ (.inline value) v t rfl trivial nodup_nil (by simp [Slot.pages])
      (fun _ _ => rfl) (h.congr_pages (by simp [Slot.pages])) (fun _ => rfl)
      (fun hlt => absurd hlt hv))

end BTree

end MagnumDB
