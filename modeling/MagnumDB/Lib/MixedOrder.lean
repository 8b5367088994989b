import Mathlib.Data.List.Basic
import Mathlib.Order.Compare
import Mathlib.Order.Lattice

/-!
# Comparing by key where there is one

Elements of a linear order, some of which have a key in another one: two elements with keys are
compared by key, all others as they are. That is transitive only where no element without a key
stands between two others against the order of their keys.
-/

/-- What a sort asks of a comparison, on the elements it compares. -/
structure TotalPreorderOn {α : Type} (cmp : α → α → Ordering) (l : List α) : Prop where
  swap : ∀ a ∈ l, ∀ b ∈ l, cmp b a = (cmp a b).swap
  trans : ∀ a ∈ l, ∀ b ∈ l, ∀ c ∈ l, cmp a b ≠ .gt → cmp b c ≠ .gt → cmp a c ≠ .gt

/-- What a sort owes for it. -/
def SortContract {α : Type} (sort : (α → α → Ordering) → List α → List α) : Prop :=
  ∀ cmp l, TotalPreorderOn cmp l →
    (sort cmp l).Perm l ∧ (sort cmp l).Pairwise fun a b => cmp a b ≠ .gt

namespace MixedOrder

variable {α β : Type} [LinearOrder α] [LinearOrder β] (key : α → Option β)

/-- By key if both have one. -/
def mixedCompare (a b : α) : Ordering :=
  match key a, key b with
  | some m, some n => compare m n
  | _, _ => compare a b

/-- Elements with keys that have one without between them are in the order of the keys. -/
def Unmixed (l : List α) : Prop :=
  ∀ x ∈ l, ∀ t ∈ l, ∀ y ∈ l, key t = none → x < t → t < y → ∀ m ∈ key x, ∀ n ∈ key y, m < n

variable {key} {a b c : α} {m n : β} {l : List α}

theorem mixedCompare_keys (ha : key a = some m) (hb : key b = some n) :
    mixedCompare key a b = compare m n := by
  rw [mixedCompare, ha, hb]

theorem mixedCompare_plain (hab : key a = none ∨ key b = none) :
    mixedCompare key a b = compare a b := by
  unfold mixedCompare
  split
  · rename_i ha hb
    simp [ha, hb] at hab
  · rfl

theorem mixedCompare_swap (a b : α) : mixedCompare key b a = (mixedCompare key a b).swap := by
  by_cases hab : key a = none ∨ key b = none
  · rw [mixedCompare_plain hab, mixedCompare_plain hab.symm, Std.OrientedOrd.eq_swap]
  · obtain ⟨⟨m, ha⟩, n, hb⟩ := (not_or.mp hab).imp Option.ne_none_iff_exists'.mp
      Option.ne_none_iff_exists'.mp
    rw [mixedCompare_keys ha hb, mixedCompare_keys hb ha, Std.OrientedOrd.eq_swap]

theorem le_keys (ha : key a = some m) (hb : key b = some n) :
    mixedCompare key a b ≠ .gt ↔ m ≤ n := by
  rw [mixedCompare_keys ha hb, compare_le_iff_le]

theorem le_plain (hab : key a = none ∨ key b = none) : mixedCompare key a b ≠ .gt ↔ a ≤ b := by
  rw [mixedCompare_plain hab, compare_le_iff_le]

omit [LinearOrder β] in
/-- An element with a key that is at most one without is below it. -/
theorem lt_plain (ha : key a = some m) (hb : key b = none) (hab : a ≤ b) : a < b :=
  hab.lt_of_ne fun h => by simp [h, hb] at ha

omit [LinearOrder β] in
theorem plain_lt (ha : key a = none) (hb : key b = some m) (hab : a ≤ b) : a < b :=
  hab.lt_of_ne fun h => by simp [h, hb] at ha

/-- Where the elements are unmixed, three of them compare as they should. -/
theorem Unmixed.trans (hl : Unmixed key l) (ha : a ∈ l) (hb : b ∈ l) (hc : c ∈ l)
    (hab : mixedCompare key a b ≠ .gt) (hbc : mixedCompare key b c ≠ .gt) :
    mixedCompare key a c ≠ .gt := by
  cases ka : key a with
  | none =>
    rw [le_plain (.inl ka)] at hab ⊢
    cases kb : key b with
    | none => exact hab.trans ((le_plain (.inl kb)).mp hbc)
    | some n =>
      cases kc : key c with
      | none => exact hab.trans ((le_plain (.inr kc)).mp hbc)
      | some k =>
        by_contra hca
        have hkn := hl c hc a ha b hb ka (lt_of_not_ge hca) (plain_lt ka kb hab) k kc n kb
        exact hkn.not_ge ((le_keys kb kc).mp hbc)
  | some m =>
    cases kb : key b with
    | none =>
      rw [le_plain (.inr kb)] at hab
      rw [le_plain (.inl kb)] at hbc
      cases kc : key c with
      | none => exact (le_plain (.inr kc)).mpr (hab.trans hbc)
      | some k =>
        have hmk := hl a ha b hb c hc kb (lt_plain ka kb hab) (plain_lt kb kc hbc) m ka k kc
        exact (le_keys ka kc).mpr hmk.le
    | some n =>
      have hmn := (le_keys ka kb).mp hab
      cases kc : key c with
      | none =>
        rw [le_plain (.inr kc)] at hbc ⊢
        by_contra hca
        have hnm := hl b hb c hc a ha kc (lt_plain kb kc hbc) (lt_of_not_ge hca) n kb m ka
        exact hnm.not_ge hmn
      | some k => exact (le_keys ka kc).mpr (hmn.trans ((le_keys kb kc).mp hbc))

/-- The comparison is a total preorder on the elements of a list exactly if they are unmixed. -/
theorem totalPreorderOn_iff : TotalPreorderOn (mixedCompare key) l ↔ Unmixed key l := by
  refine ⟨fun h x hx t ht y hy kt hxt hty m km n kn => ?_, fun h =>
    ⟨fun a _ b _ => mixedCompare_swap a b, fun a ha b hb c hc => h.trans ha hb hc⟩⟩
  -- otherwise `y` is at most `x` by key, `x` at most `t`, but `t` is below `y`
  by_contra hnm
  have hyt := h.trans y hy x hx t ht ((le_keys kn km).mpr (le_of_not_gt hnm))
    ((le_plain (.inr kt)).mpr hxt.le)
  exact ((le_plain (.inr kt)).mp hyt).not_gt hty

end MixedOrder
