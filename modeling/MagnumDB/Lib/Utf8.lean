import Mathlib.Data.List.TakeWhile
import MagnumDB.Lib.Search

/-!
# Texts as sequences of characters

`Text.isUtf8` decodes a text. Here the texts that it accepts are the sequences of characters
(`isUtf8_iff`), so they can be put together, and changed character by character.
-/

namespace Text

open List

variable {c s t : List UInt8}

/-- The bytes of one character. -/
def IsChar (c : List UInt8) : Prop := c ≠ [] ∧ firstChar c = (c.length, true)

/-- Bytes that may follow the first one of a character. -/
def GoodTail (a : UInt8) (rest : List UInt8) : Prop :=
  ∀ b ∈ rest.head?, isSecond a b ∧ ∀ x ∈ rest.tail, isContinuation x

variable {n : Nat} {a : UInt8} {rest : List UInt8}

theorem length_takeWhile_take_iff :
    ((s.take n).takeWhile isContinuation).length = n ↔
      n ≤ s.length ∧ ∀ x ∈ s.take n, isContinuation x := by
  constructor
  · intro hn
    have htake : (s.take n).takeWhile isContinuation = s.take n :=
      ( takeWhile_prefix _).eq_of_length_le (by rw [hn, length_take]; omega)
    rw [htake, length_take] at hn
    exact ⟨by omega, takeWhile_eq_self_iff.mp htake⟩
  · rintro ⟨hn, hall⟩
    rw [takeWhile_eq_self_iff.mpr hall, length_take, Nat.min_eq_left hn]

/-- A whole character: as many bytes as its first one says, and all of them good. -/
theorem firstChar_eq_iff {w : Nat} :
    firstChar (a :: rest) = (w, true) ↔
      w = charWidth a ∧ 0 < w ∧ w ≤ rest.length + 1 ∧ GoodTail a (rest.take (w - 1)) := by
  unfold firstChar
  dsimp only
  by_cases h0 : charWidth a = 0
  · rw [if_pos h0, h0]
    exact ⟨nofun, fun h => by omega⟩
  rw [if_neg h0]
  by_cases h1 : charWidth a = 1
  · rw [if_pos h1, h1]
    refine ⟨fun h => ?_, fun h => by rw [h.1]⟩
    obtain ⟨rfl, -⟩ := Prod.mk.inj h
    exact ⟨rfl, Nat.one_pos, by omega, nofun⟩
  rw [if_neg h1]
  cases rest with
  | nil => exact ⟨nofun, fun h => by rw [length_nil] at h; omega⟩
  | cons b more =>
    dsimp only
    -- the tail consists of the second byte and of what is counted
    have htail (hw : w = charWidth a) : GoodTail a ((b :: more).take (w - 1)) ↔
        isSecond a b ∧ ∀ x ∈ more.take (w - 2), isContinuation x := by
      obtain ⟨n, rfl⟩ : ∃ n, w = n + 2 := ⟨w - 2, by omega⟩
      exact ⟨fun h => h b rfl, fun h _ he => Option.some.inj he ▸ h⟩
    by_cases hb : isSecond a b
    · rw [hb, Bool.not_true, if_neg Bool.false_ne_true, Prod.mk.injEq, beq_iff_eq, length_cons]
      constructor
      · rintro ⟨hw, hgood⟩
        obtain rfl : w = charWidth a := by omega
        obtain ⟨hle, hall⟩ := length_takeWhile_take_iff.mp hgood
        exact ⟨rfl, by omega, by omega, (htail rfl).mpr ⟨hb, hall⟩⟩
      · rintro ⟨rfl, -, hle, hgood⟩
        have hlen := length_takeWhile_take_iff.mpr ⟨by omega, ((htail rfl).mp hgood).2⟩
        exact ⟨by omega, hlen⟩
    · rw [Bool.not_eq_true] at hb
      rw [hb]
      exact ⟨nofun, fun h => nomatch hb.symm.trans ((htail h.1).mp h.2.2.2).1⟩

theorem isChar_cons_iff : IsChar (a :: rest) ↔ charWidth a = rest.length + 1 ∧ GoodTail a rest := by
  rw [IsChar, firstChar_eq_iff, length_cons, Nat.add_sub_cancel, take_length]
  exact ⟨fun h => ⟨h.2.1.symm, h.2.2.2.2⟩,
    fun h => ⟨cons_ne_nil _ _, h.1.symm, Nat.succ_pos _, le_rfl, h.2⟩⟩

theorem isChar_ascii {b : UInt8} (hb : b < 0x80) : IsChar [b] :=
  isChar_cons_iff.mpr ⟨if_pos hb, nofun⟩

/-- What a character is does not depend on what follows. -/
theorem firstChar_append (hc : IsChar c) (s : List UInt8) : firstChar (c ++ s) = (c.length, true) := by
  obtain ⟨a, rest, rfl⟩ := exists_cons_of_ne_nil hc.1
  obtain ⟨hw, hgood⟩ := isChar_cons_iff.mp hc
  rw [cons_append]
  refine firstChar_eq_iff.mpr ⟨hw.symm, Nat.succ_pos _, ?_, ?_⟩
  · rw [length_append, length_cons]
    omega
  · rwa [length_cons, Nat.add_sub_cancel, take_left]

theorem firstChar_take {w : Nat} (hs : s ≠ []) (h : firstChar s = (w, true)) :
    IsChar (s.take w) ∧ w ≤ s.length := by
  obtain ⟨a, rest, rfl⟩ := exists_cons_of_ne_nil hs
  obtain ⟨hw, hpos, hle, hgood⟩ := firstChar_eq_iff.mp h
  obtain ⟨n, rfl⟩ := Nat.exists_eq_succ_of_ne_zero hpos.ne'
  refine ⟨isChar_cons_iff.mpr ⟨?_, hgood⟩, hle⟩
  rw [← hw, length_take]
  omega

theorem isContinuation_of_isSecond {b : UInt8} (h : isSecond a b) :
    isContinuation b := by
  have hstep {lo hi : UInt8} (hlo : 0x80 ≤ lo) (hhi : hi ≤ 0xBF)
      (h : (decide (lo ≤ b) && decide (b ≤ hi))) : isContinuation b := by
    simp only [Bool.and_eq_true, decide_eq_true_eq] at h
    exact Bool.and_eq_true_iff.mpr ⟨decide_eq_true (UInt8.le_trans hlo h.1),
      decide_eq_true (UInt8.le_trans h.2 hhi)⟩
  revert h
  fun_cases isSecond a b with
  | case1 => exact hstep (by decide) (by decide)
  | case2 => exact hstep (by decide) (by decide)
  | case3 => exact hstep (by decide) (by decide)
  | case4 => exact hstep (by decide) (by decide)
  | case5 => exact id

theorem GoodTail.forall_mem (h : GoodTail a rest) : ∀ x ∈ rest, isContinuation x := by
  cases rest with
  | nil => exact nofun
  | cons b rest =>
    exact forall_mem_cons.mpr ((h b rfl).imp_left isContinuation_of_isSecond)

/-- A character is an ASCII byte, or bytes none of which is one. -/
theorem isChar_cases (hc : IsChar c) : (∃ b, b < 0x80 ∧ c = [b]) ∨ ∀ b ∈ c, 0x80 ≤ b := by
  obtain ⟨a, rest, rfl⟩ := exists_cons_of_ne_nil hc.1
  obtain ⟨hw, hgood⟩ := isChar_cons_iff.mp hc
  by_cases ha : a < 0x80
  · rw [charWidth, if_pos ha] at hw
    obtain rfl : rest = [] := length_eq_zero_iff.mp (by omega)
    exact .inl ⟨a, ha, rfl⟩
  · exact .inr (forall_mem_cons.mpr ⟨UInt8.not_lt.mp ha, fun x hx =>
      of_decide_eq_true (Bool.and_eq_true_iff.mp (hgood.forall_mem x hx)).1⟩)

theorem length_le_of_isChar (hc : IsChar c) : 0 < c.length := length_pos_iff.mpr hc.1

theorem decode_flatten {cs : List (List UInt8)} (hcs : ∀ c ∈ cs, IsChar c)
    (hn : cs.flatten.length ≤ n) : (decode n cs.flatten).2 := by
  induction cs generalizing n with
  | nil =>
    cases n with
    | zero => rfl
    | succ n => rfl
  | cons c cs ih =>
    obtain ⟨hc, hrest⟩ := forall_mem_cons.mp hcs
    have hpos := length_le_of_isChar hc
    rw [flatten_cons, length_append] at hn
    cases n with
    | zero => omega
    | succ n =>
      rw [flatten_cons, decode, if_neg (by simp [hc.1]), firstChar_append hc]
      dsimp only
      rw [drop_left, Bool.true_and]
      exact ih hrest (by omega)

theorem flatten_of_decode (hn : s.length ≤ n) (h : (decode n s).2) :
    ∃ cs : List (List UInt8), (∀ c ∈ cs, IsChar c) ∧ s = cs.flatten := by
  induction n generalizing s with
  | zero => exact ⟨[], by simp, length_eq_zero_iff.mp (Nat.le_zero.mp hn)⟩
  | succ n ih =>
    by_cases hs : s = []
    · exact ⟨[], by simp, hs⟩
    · rw [decode, if_neg (by simpa using hs)] at h
      generalize hf : firstChar s = f at h
      obtain ⟨w, whole⟩ := f
      dsimp only at h
      obtain ⟨rfl, hok⟩ := Bool.and_eq_true_iff.mp h
      obtain ⟨hc, hle⟩ := firstChar_take hs hf
      have hpos := length_le_of_isChar hc
      rw [length_take] at hpos
      obtain ⟨cs, hcs, hrest⟩ := ih (by rw [length_drop]; omega) hok
      refine ⟨s.take w :: cs, forall_mem_cons.mpr ⟨hc, hcs⟩, ?_⟩
      rw [flatten_cons, ← hrest, take_append_drop]

/-- A text is a sequence of characters. -/
theorem isUtf8_iff :
    isUtf8 s ↔ ∃ cs : List (List UInt8), (∀ c ∈ cs, IsChar c) ∧ s = cs.flatten := by
  constructor
  · exact flatten_of_decode le_rfl
  · rintro ⟨cs, hcs, rfl⟩
    exact decode_flatten hcs le_rfl

theorem fromUtf8Lossy_of_isUtf8 (h : isUtf8 s) : fromUtf8Lossy s = s := by
  have hall : ∀ {n : Nat} {s : List UInt8}, s.length ≤ n → (decode n s).2 →
      (decode n s).1 = s := by
    intro n
    induction n with
    | zero => exact fun hn _ => (length_eq_zero_iff.mp (Nat.le_zero.mp hn)).symm
    | succ n ih =>
      intro s hn h
      by_cases hs : s = []
      · subst hs
        rfl
      · rw [decode, if_neg (by simpa using hs)] at h ⊢
        generalize hf : firstChar s = f at h
        obtain ⟨w, whole⟩ := f
        dsimp only at h ⊢
        obtain ⟨rfl, hok⟩ := Bool.and_eq_true_iff.mp h
        have hpos := length_le_of_isChar (firstChar_take hs hf).1
        rw [length_take] at hpos
        rw [if_pos rfl, ih (by rw [length_drop]; omega) hok, take_append_drop]
  exact hall le_rfl h

theorem isUtf8_append (hs : isUtf8 s) (ht : isUtf8 t) : isUtf8 (s ++ t) := by
  obtain ⟨cs, hcs, rfl⟩ := isUtf8_iff.mp hs
  obtain ⟨ds, hds, rfl⟩ := isUtf8_iff.mp ht
  refine isUtf8_iff.mpr ⟨cs ++ ds, fun c hc => ?_, flatten_append.symm⟩
  rcases mem_append.mp hc with hc | hc
  · exact hcs c hc
  · exact hds c hc

theorem isUtf8_flatten {parts : List (List UInt8)} (h : ∀ p ∈ parts, isUtf8 p) :
    isUtf8 parts.flatten := by
  induction parts with
  | nil => rfl
  | cons p parts ih =>
    obtain ⟨hp, hrest⟩ := forall_mem_cons.mp h
    exact isUtf8_append hp (ih hrest)

theorem isUtf8_join {glue : List UInt8} (hglue : isUtf8 glue) {parts : List (List UInt8)}
    (h : ∀ p ∈ parts, isUtf8 p) : isUtf8 (join glue parts) := by
  induction parts with
  | nil => rfl
  | cons p parts ih =>
    obtain ⟨hp, hrest⟩ := forall_mem_cons.mp h
    cases parts with
    | nil => rwa [join_singleton]
    | cons q parts =>
      rw [join_cons_cons]
      exact isUtf8_append hp (isUtf8_append hglue (ih hrest))

theorem isUtf8_ascii (hs : ∀ b ∈ s, b < 0x80) : isUtf8 s := by
  refine isUtf8_iff.mpr ⟨s.map fun b => [b], fun c hc => ?_, ?_⟩
  · obtain ⟨b, hb, rfl⟩ := mem_map.mp hc
    exact isChar_ascii (hs b hb)
  · rw [← flatMap_def]
    exact (flatMap_singleton' s).symm

end Text
