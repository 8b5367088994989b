import Mathlib.Algebra.GroupWithZero.Nat
import Mathlib.Order.Lattice
import Mathlib.Data.List.Basic
import Mathlib.Order.Basic
import Mathlib.Order.Defs.LinearOrder

/-!
# Sorted association lists

Finite maps as lists of bindings in strictly increasing key order: reading,
binding and unbinding a key, how these act on a concatenation whose parts lie on
the two sides of the key, and what they mean as operations on a map.
-/

namespace SortedAssoc

open List

variable {K V W : Type} [LinearOrder K]

/-- Strictly increasing in key. -/
def Sorted (l : List (K × V)) : Prop := l.Pairwise (fun a b => a.1 < b.1)

/-- What the list binds `k` to. -/
def lookup (k : K) : List (K × V) → Option V
  | [] => none
  | r :: l => if r.1 = k then some r.2 else lookup k l

/-- Bind `k` to `v`, in key order. -/
def upsert (k : K) (v : V) : List (K × V) → List (K × V)
  | [] => [(k, v)]
  | r :: l =>
    if k < r.1 then (k, v) :: r :: l
    else if r.1 = k then (k, v) :: l
    else r :: upsert k v l

/-- Unbind `k`. -/
def erase (k : K) (l : List (K × V)) : List (K × V) := l.filter (fun r => decide (r.1 ≠ k))

/-! ## Keys on one side -/

/-- Every key of the list is below `k`. -/
def AllBelow (k : K) (l : List (K × V)) : Prop := ∀ r ∈ l, r.1 < k

/-- Every key of the list is above `k`. -/
def AllAbove (k : K) (l : List (K × V)) : Prop := ∀ r ∈ l, k < r.1

variable {k : K} {l : List (K × V)} {v : V}

theorem lookup_eq_none (h : ∀ r ∈ l, r.1 ≠ k) : lookup k l = none := by
  induction l with
  | nil => rfl
  | cons r l ih =>
    rw [lookup, if_neg (h r (mem_cons_self ..))]
    exact ih (fun r hr => h r (mem_cons_of_mem _ hr))

theorem mem_of_lookup (h : lookup k l = some v) : (k, v) ∈ l := by
  induction l with
  | nil => exact absurd h (by simp [lookup])
  | cons r l ih =>
    rw [lookup] at h
    split at h
    · rename_i hr
      injection h with h
      subst h; subst hr
      exact mem_cons_self ..
    · exact mem_cons_of_mem _ (ih h)

theorem lookup_append (k : K) (l₁ l₂ : List (K × V)) :
    lookup k (l₁ ++ l₂) = (lookup k l₁).or (lookup k l₂) := by
  induction l₁ with
  | nil => simp [lookup]
  | cons r l ih =>
    rw [cons_append, lookup, lookup]
    by_cases h : r.1 = k
    · simp [h]
    · rw [if_neg h, if_neg h]; exact ih

variable {m : List (K × V)}

/-- A key between the two outer parts is looked up in the middle one. -/
theorem lookup_mid {r : List (K × V)} (hl : AllBelow k l) (hr : AllAbove k r) :
    lookup k (l ++ (m ++ r)) = lookup k m := by
  rw [lookup_append, lookup_append, lookup_eq_none (fun x hx => ne_of_lt (hl x hx)),
    lookup_eq_none (fun x hx => ne_of_gt (hr x hx))]
  simp

theorem upsert_append_left (hl : AllBelow k l) : upsert k v (l ++ m) = l ++ upsert k v m := by
  induction l with
  | nil => rfl
  | cons r l ih =>
    have hr : r.1 < k := hl r (mem_cons_self ..)
    rw [cons_append, upsert, if_neg (not_lt_of_gt hr), if_neg (ne_of_lt hr),
      ih (fun x hx => hl x (mem_cons_of_mem _ hx)), cons_append]

theorem upsert_append_right {r : List (K × V)} (hr : AllAbove k r) :
    upsert k v (m ++ r) = upsert k v m ++ r := by
  induction m with
  | nil =>
    cases r with
    | nil => rfl
    | cons x r =>
      show upsert k v (x :: r) = (k, v) :: x :: r
      rw [upsert, if_pos (hr x (mem_cons_self ..))]
  | cons x m ih =>
    rw [cons_append, upsert, upsert, ih]
    split
    · rfl
    · split <;> rfl

theorem upsert_mid {r : List (K × V)} (hl : AllBelow k l) (hr : AllAbove k r) :
    upsert k v (l ++ (m ++ r)) = l ++ (upsert k v m ++ r) := by
  rw [upsert_append_left hl, upsert_append_right hr]

theorem erase_append (k : K) (l m : List (K × V)) : erase k (l ++ m) = erase k l ++ erase k m :=
  filter_append ..

theorem erase_eq_self (h : ∀ r ∈ l, r.1 ≠ k) : erase k l = l := by
  unfold erase
  rw [filter_eq_self]
  intro r hr
  simpa using h r hr

theorem erase_mid {r : List (K × V)} (hl : AllBelow k l) (hr : AllAbove k r) :
    erase k (l ++ (m ++ r)) = l ++ (erase k m ++ r) := by
  rw [erase_append, erase_append, erase_eq_self (fun x hx => ne_of_lt (hl x hx)),
    erase_eq_self (fun x hx => ne_of_gt (hr x hx))]

/-! ## As operations on a map -/

theorem lookup_upsert_self (k : K) (v : V) (l : List (K × V)) : lookup k (upsert k v l) = some v := by
  induction l with
  | nil => simp [upsert, lookup]
  | cons r l ih =>
    rw [upsert]
    split
    · simp [lookup]
    · split
      · simp [lookup]
      · rename_i hne
        rw [lookup, if_neg hne]; exact ih

theorem lookup_upsert_ne {k' : K} (h : k' ≠ k) (v : V) (l : List (K × V)) :
    lookup k' (upsert k v l) = lookup k' l := by
  induction l with
  | nil => simp [upsert, lookup, Ne.symm h]
  | cons r l ih =>
    rw [upsert]
    split
    · rw [lookup, if_neg (Ne.symm h)]
    · split
      · rename_i hr
        rw [lookup, if_neg (Ne.symm h), lookup, if_neg (fun he => h (he.symm.trans hr))]
      · rw [lookup, lookup, ih]

theorem lookup_erase_self (k : K) (l : List (K × V)) : lookup k (erase k l) = none := by
  refine lookup_eq_none (fun r hr => ?_)
  have := (mem_filter.mp hr).2
  simpa using this

theorem lookup_erase_ne {k' : K} (h : k' ≠ k) (l : List (K × V)) :
    lookup k' (erase k l) = lookup k' l := by
  induction l with
  | nil => rfl
  | cons r l ih =>
    unfold erase at ih ⊢
    by_cases hr : r.1 = k
    · have hr' : r.1 ≠ k' := fun he => h (he.symm.trans hr)
      rw [filter_cons_of_neg (by simp [hr]), ih, lookup, if_neg hr']
    · rw [filter_cons_of_pos (by simp [hr]), lookup, lookup, ih]

theorem mem_upsert {r : K × V} (h : r ∈ upsert k v l) :
    r = (k, v) ∨ (r ∈ l ∧ (Sorted l → r.1 ≠ k)) := by
  induction l with
  | nil => exact Or.inl (mem_singleton.mp h)
  | cons x l ih =>
    rw [upsert] at h
    split at h
    · rename_i hlt
      rcases mem_cons.mp h with h | h
      · exact Or.inl h
      · refine Or.inr ⟨h, fun hs => ?_⟩
        rcases mem_cons.mp h with h | h
        · rw [h]; exact ne_of_gt hlt
        · exact ne_of_gt (lt_trans hlt ((pairwise_cons.mp hs).1 r h))
    · split at h
      · rename_i hx
        rcases mem_cons.mp h with h | h
        · exact Or.inl h
        · exact Or.inr ⟨mem_cons_of_mem _ h, fun hs =>
            ne_of_gt (hx ▸ (pairwise_cons.mp hs).1 r h)⟩
      · rename_i hx
        rcases mem_cons.mp h with h | h
        · exact Or.inr ⟨h ▸ mem_cons_self .., fun _ => h ▸ hx⟩
        · rcases ih h with h | ⟨h, hn⟩
          · exact Or.inl h
          · exact Or.inr ⟨mem_cons_of_mem _ h, fun hs => hn (pairwise_cons.mp hs).2⟩

theorem sorted_upsert (h : Sorted l) : Sorted (upsert k v l) := by
  induction l with
  | nil => exact pairwise_singleton ..
  | cons x l ih =>
    have hx := pairwise_cons.mp h
    rw [upsert]
    split
    · rename_i hlt
      refine pairwise_cons.mpr ⟨fun r hr => ?_, h⟩
      rcases mem_cons.mp hr with hr | hr
      · rw [hr]; exact hlt
      · exact lt_trans hlt (hx.1 r hr)
    · rename_i hnlt
      split
      · rename_i he
        exact pairwise_cons.mpr ⟨fun r hr => he ▸ hx.1 r hr, hx.2⟩
      · rename_i hne
        refine pairwise_cons.mpr ⟨fun r hr => ?_, ih hx.2⟩
        rcases mem_upsert hr with hr | ⟨hr, _⟩
        · rw [hr]; exact lt_of_le_of_ne (not_lt.mp hnlt) hne
        · exact hx.1 r hr

theorem sorted_erase (h : Sorted l) : Sorted (erase k l) :=
  List.Pairwise.sublist filter_sublist h

/-! ## Finding a key -/

/-- A sorted list around a key: either the key is there, or there is the place for it. -/
theorem split_key (h : Sorted l) (k : K) :
    (∃ l₁ v l₂, l = l₁ ++ (k, v) :: l₂ ∧ AllBelow k l₁ ∧ AllAbove k l₂) ∨
      (∃ l₁ l₂, l = l₁ ++ l₂ ∧ AllBelow k l₁ ∧ AllAbove k l₂) := by
  induction l with
  | nil => exact Or.inr ⟨[], [], rfl, fun _ hr => absurd hr (by simp), fun _ hr => absurd hr (by simp)⟩
  | cons x l ih =>
    obtain ⟨hx, hl⟩ := pairwise_cons.mp h
    have hnil : AllBelow k ([] : List (K × V)) := fun _ hr => absurd hr (by simp)
    rcases lt_trichotomy x.1 k with hlt | heq | hgt
    · have hcons : ∀ {m : List (K × V)}, AllBelow k m → AllBelow k (x :: m) := by
        intro m hm r hr
        rcases mem_cons.mp hr with hr | hr
        · rw [hr]; exact hlt
        · exact hm r hr
      rcases ih hl with ⟨l₁, v, l₂, he, h₁, h₂⟩ | ⟨l₁, l₂, he, h₁, h₂⟩
      · exact Or.inl ⟨x :: l₁, v, l₂, by rw [he, cons_append], hcons h₁, h₂⟩
      · exact Or.inr ⟨x :: l₁, l₂, by rw [he, cons_append], hcons h₁, h₂⟩
    · refine Or.inl ⟨[], x.2, l, ?_, hnil, fun r hr => ?_⟩
      · rw [← heq]; rfl
      · rw [← heq]; exact hx r hr
    · refine Or.inr ⟨[], x :: l, rfl, hnil, fun r hr => ?_⟩
      rcases mem_cons.mp hr with hr | hr
      · rw [hr]; exact hgt
      · exact lt_trans hgt (hx r hr)

theorem lookup_found {l₁ l₂ : List (K × V)} (h : AllBelow k l₁) :
    lookup k (l₁ ++ (k, v) :: l₂) = some v := by
  rw [lookup_append, lookup_eq_none (fun x hx => ne_of_lt (h x hx)), lookup, if_pos rfl]
  rfl

theorem lookup_absent {l₁ l₂ : List (K × V)} (h₁ : AllBelow k l₁) (h₂ : AllAbove k l₂) :
    lookup k (l₁ ++ l₂) = none := by
  rw [lookup_append, lookup_eq_none (fun x hx => ne_of_lt (h₁ x hx)),
    lookup_eq_none (fun x hx => ne_of_gt (h₂ x hx))]
  rfl

theorem upsert_found {w : V} {l₁ l₂ : List (K × V)} (h : AllBelow k l₁) :
    upsert k w (l₁ ++ (k, v) :: l₂) = l₁ ++ (k, w) :: l₂ := by
  rw [upsert_append_left h, upsert, if_neg (lt_irrefl k), if_pos rfl]

theorem upsert_absent {w : V} {l₁ l₂ : List (K × V)} (h₁ : AllBelow k l₁) (h₂ : AllAbove k l₂) :
    upsert k w (l₁ ++ l₂) = l₁ ++ (k, w) :: l₂ := by
  have h := upsert_append_right h₂ (v := w) (m := [])
  rw [nil_append] at h
  rw [upsert_append_left h₁, h]
  rfl

theorem erase_found {l₁ l₂ : List (K × V)} (h₁ : AllBelow k l₁) (h₂ : AllAbove k l₂) :
    erase k (l₁ ++ (k, v) :: l₂) = l₁ ++ l₂ := by
  have h := erase_mid h₁ h₂ (m := [(k, v)])
  rw [singleton_append] at h
  rw [h]
  simp [erase]

theorem erase_absent {l₁ l₂ : List (K × V)} (h₁ : AllBelow k l₁) (h₂ : AllAbove k l₂) :
    erase k (l₁ ++ l₂) = l₁ ++ l₂ := by
  rw [erase_append, erase_eq_self (fun x hx => ne_of_lt (h₁ x hx)),
    erase_eq_self (fun x hx => ne_of_gt (h₂ x hx))]

/-! ## Changing the values -/

theorem lookup_map (f : V → W) (k : K) (l : List (K × V)) :
    lookup k (l.map (fun r => (r.1, f r.2))) = (lookup k l).map f := by
  induction l with
  | nil => rfl
  | cons r l ih =>
    rw [map_cons, lookup, lookup]
    by_cases h : r.1 = k
    · simp [h]
    · rw [if_neg h, if_neg h]; exact ih

theorem upsert_map (f : V → W) (k : K) (v : V) (l : List (K × V)) :
    (upsert k v l).map (fun r => (r.1, f r.2)) = upsert k (f v) (l.map (fun r => (r.1, f r.2))) := by
  induction l with
  | nil => rfl
  | cons r l ih =>
    rw [upsert, map_cons, upsert]
    split
    · rfl
    · split
      · rfl
      · rw [map_cons, ih]

theorem sorted_map (f : V → W) (h : Sorted l) : Sorted (l.map (fun r => (r.1, f r.2))) :=
  pairwise_map.mpr h

theorem lookup_of_mem (h : Sorted l) (hm : (k, v) ∈ l) : lookup k l = some v := by
  rcases split_key h k with ⟨l₁, w, l₂, rfl, h₁, h₂⟩ | ⟨l₁, l₂, rfl, h₁, h₂⟩
  · rw [lookup_found h₁]
    rcases mem_append.mp hm with hm | hm
    · exact absurd (h₁ _ hm) (lt_irrefl k)
    · rcases mem_cons.mp hm with hm | hm
      · rw [(Prod.mk.inj hm).2]
      · exact absurd (h₂ _ hm) (lt_irrefl k)
  · rcases mem_append.mp hm with hm | hm
    · exact absurd (h₁ _ hm) (lt_irrefl k)
    · exact absurd (h₂ _ hm) (lt_irrefl k)

/-- Two sorted lists that bind the same keys to the same values are equal. -/
theorem sorted_ext (hl : Sorted l) (hm : Sorted m) (h : ∀ k, lookup k l = lookup k m) : l = m := by
  induction l generalizing m with
  | nil =>
    cases m with
    | nil => rfl
    | cons r m => have := h r.1; simp [lookup] at this
  | cons x l ih =>
    cases m with
    | nil => have := h x.1; simp [lookup] at this
    | cons y m =>
      have hx := pairwise_cons.mp hl
      have hy := pairwise_cons.mp hm
      -- the two heads are the least keys bound on each side
      have hkey : x.1 = y.1 := by
        have h1 := h x.1
        have h2 := h y.1
        simp only [lookup, if_true] at h1 h2
        by_contra hne
        rw [if_neg (Ne.symm hne)] at h1
        rw [if_neg hne] at h2
        have hlt1 := hy.1 _ (mem_of_lookup h1.symm)
        have hlt2 := hx.1 _ (mem_of_lookup h2)
        exact absurd hlt1 (not_lt_of_gt hlt2)
      have hval : x.2 = y.2 := by
        have h1 := h x.1
        simp only [lookup, if_true, hkey] at h1
        exact Option.some.inj h1
      have hhead : x = y := Prod.ext hkey hval
      subst hhead
      refine congrArg (x :: ·) (ih hx.2 hy.2 (fun k => ?_))
      by_cases hk : x.1 = k
      · subst hk
        rw [lookup_eq_none (fun r hr => ne_of_gt (hx.1 r hr)),
          lookup_eq_none (fun r hr => ne_of_gt (hy.1 r hr))]
      · have := h k
        simpa only [lookup, if_neg hk] using this

end SortedAssoc
