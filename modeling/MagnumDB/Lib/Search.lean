import MagnumDB.Lib.TextLemmas

/-!
# Searching and cutting texts

`Text.find` gives the first place where a text occurs (`find_eq_some_iff`). A text that is put
together from parts with a separator between them is searched part by part: an occurrence
without the separator is inside a part (`find_append_sep`), one with it lies across two
(`find_across_sep`).
-/

namespace Text

open List

variable {needle s t : List UInt8} {sep : UInt8} {i : Nat}

/-! ## The first occurrence -/

theorem find_eq_some_iff :
    find needle s = some i ↔
      i ≤ s.length ∧ needle <+: s.drop i ∧ ∀ j < i, ¬ needle <+: s.drop j := by
  induction s generalizing i with
  | nil =>
    rw [find]
    cases needle with
    | nil =>
      simp only [isEmpty_nil, if_true, Option.some.injEq, length_nil]
      constructor
      · rintro rfl
        exact ⟨le_rfl, nil_prefix, fun j hj => absurd hj (Nat.not_lt_zero j)⟩
      · rintro ⟨hi, -, -⟩
        exact (Nat.le_zero.mp hi).symm
    | cons b needle =>
      rw [if_neg (by simp)]
      constructor
      · exact nofun
      · rintro ⟨-, hpre, -⟩
        rw [drop_nil] at hpre
        exact nomatch prefix_nil.mp hpre
  | cons b s ih =>
    rw [find]
    by_cases hpre : needle <+: b :: s
    · rw [if_pos ( isPrefixOf_iff_prefix.mpr hpre), Option.some.injEq]
      constructor
      · rintro rfl
        exact ⟨Nat.zero_le _, hpre, fun j hj => absurd hj (Nat.not_lt_zero j)⟩
      · rintro ⟨-, -, hfirst⟩
        by_contra hne
        exact hfirst 0 (by omega) hpre
    · rw [if_neg (fun h => hpre ( isPrefixOf_iff_prefix.mp h)), Option.map_eq_some_iff]
      constructor
      · rintro ⟨k, hk, rfl⟩
        obtain ⟨hle, hat, hfirst⟩ := ih.mp hk
        refine ⟨Nat.succ_le_succ hle, hat, fun j hj => ?_⟩
        cases j with
        | zero => exact hpre
        | succ j => exact hfirst j (by omega)
      · rintro ⟨hle, hat, hfirst⟩
        cases i with
        | zero => exact absurd hat hpre
        | succ k =>
          exact ⟨k, ih.mpr ⟨Nat.le_of_succ_le_succ hle, hat, fun j hj =>
            hfirst (j + 1) (Nat.succ_lt_succ hj)⟩, rfl⟩

theorem find_eq_none_iff : find needle s = none ↔ ¬ needle <:+: s := by
  induction s with
  | nil =>
    rw [find, infix_nil]
    cases needle with
    | nil => simp
    | cons b needle => simp
  | cons b s ih =>
    rw [find, infix_cons_iff, not_or, ← ih]
    by_cases hpre : needle <+: b :: s
    · rw [if_pos ( isPrefixOf_iff_prefix.mpr hpre)]
      exact ⟨nofun, fun h => absurd hpre h.1⟩
    · rw [if_neg (fun h => hpre ( isPrefixOf_iff_prefix.mp h)), Option.map_eq_none_iff]
      exact ⟨fun h => ⟨hpre, h⟩, fun h => h.2⟩

theorem contains_iff : contains needle s ↔ needle <:+: s := by
  unfold contains
  rw [← not_iff_not, Bool.not_eq_true, Option.isSome_eq_false_iff, Option.isNone_iff_eq_none,
    find_eq_none_iff]

theorem contains_eq_false_iff : contains needle s = false ↔ find needle s = none := by
  unfold contains
  rw [Option.isSome_eq_false_iff, Option.isNone_iff_eq_none]

theorem find_add_length_le (h : find needle s = some i) : i + needle.length ≤ s.length := by
  obtain ⟨hle, hat, -⟩ := find_eq_some_iff.mp h
  have hlen := hat.length_le
  rw [length_drop] at hlen
  omega

/-- What is found in a text is found there when more follows. -/
theorem find_append_of_some (h : find needle s = some i) (t : List UInt8) :
    find needle (s ++ t) = some i := by
  have hroom := find_add_length_le h
  obtain ⟨hle, hat, hfirst⟩ := find_eq_some_iff.mp h
  refine find_eq_some_iff.mpr ⟨?_, ?_, fun j hj hpre => hfirst j hj ?_⟩
  · rw [length_append]
    omega
  · rw [drop_append_of_le_length hle]
    exact hat.trans (prefix_append _ _)
  · -- an earlier occurrence would end inside the text, too
    rw [drop_append_of_le_length (by omega)] at hpre
    refine prefix_of_prefix_length_le hpre (prefix_append _ _) ?_
    rw [length_drop]
    omega

/-- No occurrence starts where its first byte is not. -/
theorem find_append_of_not_mem {b : UInt8} (hb : b ∉ s) (t : List UInt8) :
    find (b :: needle) (s ++ t) = (find (b :: needle) t).map (· + s.length) := by
  induction s with
  | nil => simp
  | cons a s ih =>
    obtain ⟨hne, hb⟩ := not_or.mp (fun h => hb (mem_cons.mpr h))
    have hpre : (b :: needle).isPrefixOf (a :: (s ++ t)) = false := by
      rw [List.isPrefixOf, beq_eq_false_iff_ne.mpr hne]
      rfl
    rw [cons_append, find, hpre, if_neg Bool.false_ne_true, ih hb, Option.map_map,
      length_cons]
    congr 1

/-- What a text without the separator begins does not matter beyond a separator. -/
theorem isPrefixOf_append_sep (hsep : sep ∉ needle) (s t : List UInt8) :
    needle.isPrefixOf (s ++ sep :: t) = needle.isPrefixOf s := by
  rw [Bool.eq_iff_iff, isPrefixOf_iff_prefix, isPrefixOf_iff_prefix]
  constructor
  · intro h
    refine prefix_of_prefix_length_le h (prefix_append _ _) ?_
    by_contra hlong
    have hlt : s.length < needle.length := by omega
    obtain ⟨rest, hrest⟩ := h
    have hget : needle[s.length]? = some sep := by
      rw [← @List.getElem?_append_left _ needle rest _ hlt, hrest,
        getElem?_append_right le_rfl]
      simp
    exact hsep (mem_of_getElem? hget)
  · exact fun h => h.trans (prefix_append _ _)

/-- An occurrence without the separator is before a separator or after it. -/
theorem find_append_sep (hsep : sep ∉ needle) (hne : needle ≠ []) (s t : List UInt8) :
    find needle (s ++ sep :: t) =
      (find needle s).or ((find needle t).map (· + (s.length + 1))) := by
  induction s with
  | nil =>
    have hpre : needle.isPrefixOf (sep :: t) = false := by
      obtain ⟨b, rest, rfl⟩ := exists_cons_of_ne_nil hne
      exact isPrefixOf_append_sep hsep [] t
    have hempty : find needle [] = none := by
      rw [find, if_neg (by simpa using hne)]
    rw [hempty, Option.none_or, nil_append, find, hpre, if_neg Bool.false_ne_true]
    rfl
  | cons a s ih =>
    -- before the separator there is an occurrence here exactly if there is one without the rest
    have hpre := isPrefixOf_append_sep hsep (a :: s) t
    have hcons : a :: s ++ sep :: t = a :: (s ++ sep :: t) := rfl
    rw [hcons, find, ← hcons, hpre, find, ih]
    split
    · rfl
    · rw [length_cons]
      cases find needle s with
      | some k => rfl
      | none => simp only [Option.none_or, Option.map_map, Option.map_none]; rfl

/-- Texts are the same up to their first separator and after it. -/
theorem append_sep_inj {x a u b : List UInt8} (hx : sep ∉ x) (ha : sep ∉ a)
    (h : x ++ sep :: u = a ++ sep :: b) : x = a ∧ u = b := by
  induction x generalizing a with
  | nil =>
    cases a with
    | nil => exact ⟨rfl, tail_eq_of_cons_eq h⟩
    | cons d a => exact absurd (mem_cons.mpr (.inl (head_eq_of_cons_eq h))) ha
  | cons c x ih =>
    cases a with
    | nil => exact absurd (mem_cons.mpr (.inl (head_eq_of_cons_eq h).symm)) hx
    | cons d a =>
      obtain ⟨rfl, htail⟩ := cons_eq_cons.mp h
      obtain ⟨rfl, hu⟩ := ih (fun hm => hx (mem_cons_of_mem _ hm))
        (fun hm => ha (mem_cons_of_mem _ hm)) htail
      exact ⟨rfl, hu⟩

/-- An occurrence with the separator lies across the first separator, or is after it. -/
theorem find_across_sep {x y a : List UInt8} (hx : sep ∉ x) (ha : sep ∉ a) (b : List UInt8) :
    find (x ++ sep :: y) (a ++ sep :: b) =
      if x.isSuffixOf a && y.isPrefixOf b then some (a.length - x.length)
      else (find (x ++ sep :: y) b).map (· + (a.length + 1)) := by
  induction a with
  | nil =>
    rw [nil_append, find]
    cases x with
    | nil =>
      rw [nil_append, List.isPrefixOf, beq_self_eq_true, Bool.true_and]
      rfl
    | cons c x =>
      have hc : c ≠ sep := fun he => hx (he ▸ mem_cons_self)
      have hpre : (c :: x ++ sep :: y).isPrefixOf (sep :: b) = false := by
        rw [cons_append, List.isPrefixOf, beq_eq_false_iff_ne.mpr hc]
        rfl
      have hsuf : (c :: x).isSuffixOf [] = false := by
        rw [Bool.eq_false_iff, Ne, isSuffixOf_iff_suffix, suffix_nil]
        exact cons_ne_nil c x
      rw [hpre, hsuf, if_neg Bool.false_ne_true, Bool.false_and, if_neg Bool.false_ne_true]
      rfl
  | cons d a ih =>
    obtain ⟨hd, ha⟩ := not_or.mp (fun h => ha (mem_cons.mpr h))
    -- the separators of the two must fall together, so what is before them is the same
    have hpre : (x ++ sep :: y).isPrefixOf (d :: a ++ sep :: b) ↔
        x = d :: a ∧ y.isPrefixOf b := by
      rw [ isPrefixOf_iff_prefix, isPrefixOf_iff_prefix]
      constructor
      · rintro ⟨rest, hrest⟩
        rw [append_assoc, cons_append] at hrest
        have hda : sep ∉ d :: a := by
          rw [mem_cons, not_or]
          exact ⟨hd, ha⟩
        obtain ⟨hxa, hyb⟩ := append_sep_inj hx hda hrest
        exact ⟨hxa, rest, hyb⟩
      · rintro ⟨rfl, rest, rfl⟩
        exact ⟨rest, by simp⟩
    have hsuf : x.isSuffixOf (d :: a) ↔ x = d :: a ∨ x.isSuffixOf a := by
      rw [isSuffixOf_iff_suffix, isSuffixOf_iff_suffix, suffix_cons_iff]
    rw [cons_append, find, ← cons_append, ih ha]
    by_cases hnow : x = d :: a ∧ y.isPrefixOf b
    · have hall : (x.isSuffixOf (d :: a) && y.isPrefixOf b) :=
        Bool.and_eq_true_iff.mpr ⟨hsuf.mpr (.inl hnow.1), hnow.2⟩
      rw [if_pos (hpre.mpr hnow), if_pos hall, hnow.1, Nat.sub_self]
    · rw [if_neg (fun h => hnow (hpre.mp h))]
      by_cases hlater : (x.isSuffixOf a && y.isPrefixOf b)
      · obtain ⟨hxa, hyb⟩ := Bool.and_eq_true_iff.mp hlater
        have hlen := (isSuffixOf_iff_suffix.mp hxa).length_le
        rw [if_pos hlater, if_pos (Bool.and_eq_true_iff.mpr ⟨hsuf.mpr (.inr hxa), hyb⟩),
          Option.map_some, length_cons, Nat.sub_add_comm hlen]
      · have hnot : ¬ (x.isSuffixOf (d :: a) && y.isPrefixOf b) := by
          intro h
          obtain ⟨hxa, hyb⟩ := Bool.and_eq_true_iff.mp h
          rcases hsuf.mp hxa with heq | hxa
          · exact hnow ⟨heq, hyb⟩
          · exact hlater (Bool.and_eq_true_iff.mpr ⟨hxa, hyb⟩)
        rw [if_neg hlater, if_neg hnot, Option.map_map, length_cons]
        rfl

/-! ## Cutting -/

/-- A text that does not go on with a character that began before it. -/
def startsChar : List UInt8 → Bool
  | [] => true
  | b :: _ => b < 0x80 || 0xC0 ≤ b

theorem isCharBoundary_append (s t : List UInt8) : isCharBoundary (s ++ t) s.length = startsChar t := by
  unfold isCharBoundary
  rw [getElem?_append_right le_rfl, Nat.sub_self]
  cases t with
  | nil => simp [startsChar]
  | cons b t => rfl

theorem slice?_append {a b c : List UInt8} (hb : startsChar (b ++ c))
    (hc : startsChar c) : slice? (a ++ (b ++ c)) a.length (a.length + b.length) = some b := by
  have hend : isCharBoundary (a ++ (b ++ c)) (a.length + b.length) := by
    rw [← append_assoc, ← length_append, isCharBoundary_append, hc]
  unfold slice?
  rw [isCharBoundary_append, hb, hend, decide_eq_true (Nat.le_add_right _ _),
    if_pos (show (true && true && true) from rfl), Nat.add_sub_cancel_left, drop_left,
    take_left]

end Text
