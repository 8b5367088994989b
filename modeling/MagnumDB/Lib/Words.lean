import MagnumDB.Lib.Search

/-!
# Texts of words

Words with a blank between them; `offset` says where a word begins. A keyword without a blank is
found inside the first word that has it (`find_spaced`); one with a blank is found where a word
ends and the next one begins as it says (`find_pair`).
-/

namespace Text

open List

variable {kw x y : List UInt8} {ws xs ys : List (List UInt8)}

/-- Words with a blank between them. -/
def spaced (ws : List (List UInt8)) : List UInt8 := join [32] ws

theorem spaced_singleton (w : List UInt8) : spaced [w] = w := join_singleton [32] w

theorem spaced_cons (w : List UInt8) (hne : ws ≠ []) : spaced (w :: ws) = w ++ 32 :: spaced ws := by
  obtain ⟨v, rest, rfl⟩ := exists_cons_of_ne_nil hne
  exact join_cons_cons [32] w v rest

theorem spaced_append (hx : xs ≠ []) (hy : ys ≠ []) :
    spaced (xs ++ ys) = spaced xs ++ 32 :: spaced ys := by
  induction xs with
  | nil => exact absurd rfl hx
  | cons w xs ih =>
    by_cases hxs : xs = []
    · subst hxs
      rw [singleton_append, spaced_cons w hy, spaced_singleton]
    · rw [cons_append, spaced_cons w (by simp [hxs]), ih hxs, spaced_cons w hxs,
        append_assoc]
      rfl

/-- Words are changed one by one by a function of bytes that keeps the blank. -/
theorem map_spaced {f : UInt8 → UInt8} (hf : f 32 = 32) (ws : List (List UInt8)) :
    (spaced ws).map f = spaced (ws.map (List.map f)) := by
  induction ws with
  | nil => rfl
  | cons w ws ih =>
    by_cases hws : ws = []
    · subst hws
      rw [spaced_singleton, map_singleton, spaced_singleton]
    · rw [spaced_cons w hws, map_cons, spaced_cons _ (by simpa using hws), map_append,
        map_cons, hf, ih]

theorem mem_spaced {b : UInt8} (hb : b ∈ spaced ws) : b = 32 ∨ ∃ w ∈ ws, b ∈ w :=
  (mem_of_mem_join hb).imp_left mem_singleton.mp

/-- Where the word behind these words begins. -/
def offset (ws : List (List UInt8)) : Nat := (ws.map fun w => w.length + 1).sum

@[simp] theorem offset_nil : offset [] = 0 := rfl

@[simp] theorem offset_cons (w : List UInt8) (ws : List (List UInt8)) :
    offset (w :: ws) = w.length + 1 + offset ws := by
  simp [offset]

@[simp] theorem offset_append (xs ys : List (List UInt8)) : offset (xs ++ ys) = offset xs + offset ys := by
  simp [offset]

theorem length_spaced (hne : ws ≠ []) : (spaced ws).length + 1 = offset ws := by
  induction ws with
  | nil => exact absurd rfl hne
  | cons w ws ih =>
    by_cases hws : ws = []
    · subst hws
      rw [spaced_singleton]
      rfl
    · have hlen := ih hws
      rw [spaced_cons w hws, length_append, length_cons, offset_cons]
      omega

/-- A text can be cut before a word, or before the blank in front of it. -/
theorem spaced_cut_front (hy : ys ≠ []) {i : Nat} (hi : i = offset xs ∨ i + 1 = offset xs) :
    ∃ a pre, spaced (xs ++ ys) = a ++ (pre ++ spaced ys) ∧ a.length = i ∧ (pre = [] ∨ pre = [32]) := by
  by_cases hx : xs = []
  · subst hx
    rcases hi with rfl | hi
    · exact ⟨[], [], rfl, rfl, .inl rfl⟩
    · exact absurd hi (Nat.succ_ne_zero i)
  · have hlen := length_spaced hx
    rw [spaced_append hx hy]
    rcases hi with rfl | hi
    · refine ⟨spaced xs ++ [32], [], by simp, ?_, .inl rfl⟩
      rw [length_append, ← hlen]
      rfl
    · exact ⟨spaced xs, [32], rfl, by omega, .inr rfl⟩

/-! ## Keywords -/

/-- Where a keyword is found in words: inside the first one that has it. -/
def findIn (kw : List UInt8) : List (List UInt8) → Option Nat
  | [] => none
  | w :: ws => (find kw w).or ((findIn kw ws).map (· + (w.length + 1)))

theorem find_spaced (hkw : 32 ∉ kw) (hne : kw ≠ []) (ws : List (List UInt8)) :
    find kw (spaced ws) = findIn kw ws := by
  induction ws with
  | nil => exact find_eq_none_iff.mpr fun h => hne (infix_nil.mp h)
  | cons w ws ih =>
    by_cases hws : ws = []
    · subst hws
      rw [spaced_singleton, findIn, findIn, Option.map_none, Option.or_none]
    · rw [spaced_cons w hws, find_append_sep hkw hne, ih, findIn]

theorem findIn_append (kw : List UInt8) (xs ys : List (List UInt8)) :
    findIn kw (xs ++ ys) = (findIn kw xs).or ((findIn kw ys).map (· + offset xs)) := by
  induction xs with
  | nil => simp [findIn]
  | cons w xs ih =>
    have hshift : (fun i => i + (w.length + 1)) ∘ (fun i => i + offset xs) = fun i => i + offset (w :: xs) := by
      funext i
      show i + offset xs + (w.length + 1) = i + offset (w :: xs)
      rw [offset_cons]
      omega
    rw [cons_append, findIn, findIn, ih, Option.or_assoc, Option.map_or, Option.map_map, hshift]

/-- Where a word ends with `x` and the next one begins with `y`. -/
def findPair (x y : List UInt8) : List (List UInt8) → Option Nat
  | a :: b :: ws =>
    if x.isSuffixOf a && y.isPrefixOf b then some (a.length - x.length)
    else (findPair x y (b :: ws)).map (· + (a.length + 1))
  | _ => none

theorem find_pair (hx : 32 ∉ x) (hy : 32 ∉ y) (hws : ∀ w ∈ ws, 32 ∉ w) :
    find (x ++ 32 :: y) (spaced ws) = findPair x y ws := by
  have hblank (s : List UInt8) (hs : 32 ∉ s) : find (x ++ 32 :: y) s = none :=
    find_eq_none_iff.mpr fun h => hs (h.subset (by simp))
  induction ws with
  | nil => exact hblank [] (by simp)
  | cons a ws ih =>
    obtain ⟨ha, hrest⟩ := forall_mem_cons.mp hws
    cases ws with
    | nil =>
      rw [spaced_singleton]
      exact hblank a ha
    | cons b ws =>
      have hpre : y.isPrefixOf (spaced (b :: ws)) = y.isPrefixOf b := by
        cases ws with
        | nil => rw [spaced_singleton]
        | cons c ws => rw [spaced_cons b (cons_ne_nil c ws), isPrefixOf_append_sep hy]
      rw [spaced_cons a (cons_ne_nil b ws), find_across_sep hx ha, ih hrest, hpre, findPair]

theorem findPair_skip {a b : List UInt8} (hab : x.isSuffixOf a = false ∨ y.isPrefixOf b = false) :
    findPair x y (a :: b :: ws) = (findPair x y (b :: ws)).map (· + (a.length + 1)) := by
  rw [findPair, if_neg]
  rcases hab with hab | hab
  · rw [hab, Bool.false_and]
    exact Bool.false_ne_true
  · rw [hab, Bool.and_false]
    exact Bool.false_ne_true

/-- A keyword of two words, of which none is in the first words. -/
theorem findPair_append (hxs : findPair x y xs = none)
    (hys : ∀ b ∈ ys.head?, y.isPrefixOf b = false) :
    findPair x y (xs ++ ys) = (findPair x y ys).map (· + offset xs) := by
  induction xs with
  | nil => simp
  | cons a xs ih =>
    cases xs with
    | nil =>
      cases ys with
      | nil => rfl
      | cons b ys => exact findPair_skip (.inr (hys b rfl))
    | cons b xs =>
      by_cases hab : (x.isSuffixOf a && y.isPrefixOf b)
      · rw [findPair, if_pos hab] at hxs
        exact nomatch hxs
      · rw [findPair, if_neg hab, Option.map_eq_none_iff] at hxs
        have hrest := ih hxs
        rw [cons_append] at hrest
        rw [cons_append, cons_append, findPair, if_neg hab, hrest, Option.map_map]
        congr 1
        funext i
        show i + offset (b :: xs) + (a.length + 1) = i + offset (a :: b :: xs)
        rw [offset_cons a]
        omega

theorem contains_word_eq_false (hkw : 32 ∉ kw) (hws : ∀ w ∈ ws, 32 ∉ w) (hmem : kw ∉ ws) :
    contains (32 :: (kw ++ [32])) (spaced ws) = false := by
  have hblank (s : List UInt8) (hs : 32 ∉ s) : find (32 :: (kw ++ [32])) s = none :=
    find_eq_none_iff.mpr fun h => hs (h.subset (by simp))
  rw [contains_eq_false_iff]
  induction ws with
  | nil => exact hblank [] (by simp)
  | cons a ws ih =>
    obtain ⟨ha, hrest⟩ := forall_mem_cons.mp hws
    obtain ⟨-, hmem⟩ := not_or.mp (fun h => hmem (mem_cons.mpr h))
    cases ws with
    | nil =>
      rw [spaced_singleton]
      exact hblank a ha
    | cons b ws =>
      have hpre : (kw ++ [32]).isPrefixOf (spaced (b :: ws)) = false := by
        rw [Bool.eq_false_iff, Ne, isPrefixOf_iff_prefix]
        rintro ⟨rest, hrest'⟩
        rw [append_assoc, singleton_append] at hrest'
        cases ws with
        | nil =>
          rw [spaced_singleton] at hrest'
          exact hrest b mem_cons_self (hrest' ▸ by simp)
        | cons c ws =>
          rw [spaced_cons b (cons_ne_nil c ws)] at hrest'
          obtain ⟨rfl, -⟩ := append_sep_inj hkw (hrest b mem_cons_self) hrest'
          exact hmem mem_cons_self
      have hacross := @find_across_sep 32 [] (kw ++ [32]) a (by simp) ha (spaced (b :: ws))
      rw [nil_append, hpre, Bool.and_false, if_neg Bool.false_ne_true] at hacross
      rw [spaced_cons a (cons_ne_nil b ws), hacross, ih hrest hmem]
      rfl

/-! ## Words of visible characters -/

/-- A word of visible ASCII characters. -/
def isWord (w : List UInt8) : Bool := !w.isEmpty && w.all isPlain

variable {w : List UInt8}

theorem isWord_iff : isWord w ↔ w ≠ [] ∧ ∀ b ∈ w, isPlain b := by
  unfold isWord
  simp

theorem blank_not_mem (hw : isWord w) : 32 ∉ w :=
  fun hm => nomatch ((isWord_iff.mp hw).2 32 hm).symm

theorem head?_spaced (hw : w ≠ []) (ws : List (List UInt8)) :
    (spaced (w :: ws)).head? = w.head? := by
  obtain ⟨b, rest, rfl⟩ := exists_cons_of_ne_nil hw
  cases ws with
  | nil => rw [spaced_singleton]
  | cons v ws =>
    rw [spaced_cons _ (cons_ne_nil v ws)]
    rfl

theorem getLast?_spaced (hw : w ≠ []) (ws : List (List UInt8)) :
    (spaced (ws ++ [w])).getLast? = w.getLast? := by
  obtain ⟨b, hb⟩ := getLast?_isSome.mpr hw |> Option.isSome_iff_exists.mp
  by_cases hws : ws = []
  · subst hws
    rw [nil_append, spaced_singleton]
  · rw [spaced_append hws (cons_ne_nil w []), spaced_singleton, getLast?_append,
      getLast?_cons, hb]
    rfl

theorem trim_spaced (hne : ws ≠ []) (hws : ∀ w ∈ ws, isWord w) : trim (spaced ws) = spaced ws := by
  have hfirst : ∃ a, isPlain a ∧ (spaced ws).head? = some a := by
    obtain ⟨w, rest, rfl⟩ := exists_cons_of_ne_nil hne
    obtain ⟨hw, hplain⟩ := isWord_iff.mp (hws w mem_cons_self)
    obtain ⟨b, tail, rfl⟩ := exists_cons_of_ne_nil hw
    exact ⟨b, hplain b mem_cons_self, head?_spaced hw rest⟩
  have hlast : ∃ b, isPlain b ∧ (spaced ws).getLast? = some b := by
    obtain ⟨front, w, rfl⟩ := (eq_nil_or_concat' ws).resolve_left hne
    obtain ⟨hw, hplain⟩ := isWord_iff.mp (hws w (by simp))
    obtain ⟨b, hb⟩ := getLast?_isSome.mpr hw |> Option.isSome_iff_exists.mp
    exact ⟨b, hplain b (mem_of_getLast? hb), (getLast?_spaced hw front).trans hb⟩
  obtain ⟨a, ha, hhead⟩ := hfirst
  obtain ⟨b, hb, hlast⟩ := hlast
  exact trim_of_plain ha hb hhead hlast

theorem trim_word (hw : isWord w) : trim w = w := by
  have htrim := @trim_spaced [w] (by simp) (by simpa using hw)
  rwa [spaced_singleton] at htrim

theorem ascii_of_isPlain {b : UInt8} (hb : isPlain b) : b < 0x80 :=
  of_decide_eq_true (Bool.and_eq_true_iff.mp hb).2

theorem startsChar_word (hw : isWord w) (rest : List UInt8) :
    startsChar (w ++ rest) := by
  obtain ⟨hne, hplain⟩ := isWord_iff.mp hw
  obtain ⟨b, tail, rfl⟩ := exists_cons_of_ne_nil hne
  rw [cons_append, startsChar, decide_eq_true (ascii_of_isPlain (hplain b mem_cons_self)),
    Bool.true_or]

theorem startsChar_spaced (hws : ∀ w ∈ ws, isWord w) (hne : ws ≠ []) (rest : List UInt8) :
    startsChar (spaced ws ++ rest) := by
  obtain ⟨w, more, rfl⟩ := exists_cons_of_ne_nil hne
  have hw := hws w mem_cons_self
  cases more with
  | nil =>
    rw [spaced_singleton]
    exact startsChar_word hw rest
  | cons v more =>
    rw [spaced_cons _ (cons_ne_nil v more), append_assoc]
    exact startsChar_word hw _

theorem wordLength_append (hw : ∀ b ∈ w, isPlain b) (rest : List UInt8)
    (hrest : wordLength rest = 0) : wordLength (w ++ rest) = w.length := by
  induction w with
  | nil => exact hrest
  | cons b w ih =>
    obtain ⟨hb, hw⟩ := forall_mem_cons.mp hw
    rw [cons_append, wordLength, if_pos (spaceWidth_plain hb _), ih hw, length_cons]

theorem words_nil (n : Nat) : words n [] = [] := by
  cases n with
  | zero => rfl
  | succ n => rfl

theorem words_blank (n : Nat) (s : List UInt8) : words n (32 :: s) = words n s := by
  cases n with
  | zero => rfl
  | succ n => rw [words, words, trimStart_blank]

/-- Words are taken apart again. -/
theorem words_spaced (hws : ∀ w ∈ ws, isWord w) {n : Nat} (hn : ws.length ≤ n) :
    words n (spaced ws) = ws := by
  induction ws generalizing n with
  | nil => exact words_nil n
  | cons w ws ih =>
    obtain ⟨hw, hrest⟩ := forall_mem_cons.mp hws
    obtain ⟨hne, hplain⟩ := isWord_iff.mp hw
    cases n with
    | zero => exact absurd hn (by simp)
    | succ n =>
      have hstep (rest : List UInt8) (hlen : wordLength rest = 0) :
          words (n + 1) (w ++ rest) = w :: words n rest := by
        have hstart : trimStart (w ++ rest) = w ++ rest := by
          obtain ⟨b, tail, rfl⟩ := exists_cons_of_ne_nil hne
          exact trimStart_of_spaceWidth (spaceWidth_plain (hplain b mem_cons_self) _)
        rw [words, hstart, if_neg (by simp [hne]), wordLength_append hplain rest hlen, take_left,
          drop_left]
      by_cases hnil : ws = []
      · subst hnil
        have hone := hstep [] rfl
        rw [append_nil] at hone
        rw [spaced_singleton, hone, words_nil]
      · have hblank : wordLength (32 :: spaced ws) = 0 := by
          rw [wordLength, spaceWidth_blank, if_neg Nat.one_ne_zero]
        rw [spaced_cons w hnil, hstep _ hblank, words_blank, ih hrest (Nat.le_of_succ_le_succ hn)]

theorem length_le_spaced (hws : ∀ w ∈ ws, isWord w) : ws.length ≤ (spaced ws).length := by
  induction ws with
  | nil => exact Nat.zero_le _
  | cons w ws ih =>
    obtain ⟨hw, hrest⟩ := forall_mem_cons.mp hws
    have hpos : 0 < w.length := length_pos_iff.mpr (isWord_iff.mp hw).1
    by_cases hnil : ws = []
    · subst hnil
      rw [spaced_singleton]
      exact hpos
    · have hle := ih hrest
      rw [spaced_cons w hnil, length_append, length_cons, length_cons]
      omega

theorem splitWhitespace_spaced (hws : ∀ w ∈ ws, isWord w) : splitWhitespace (spaced ws) = ws :=
  words_spaced hws (length_le_spaced hws)

/-! ## Decimal numbers -/

theorem bounds_of_isDigit {c : Char} (hc : c.isDigit) : 48 ≤ c.toNat ∧ c.toNat ≤ 57 := by
  unfold Char.isDigit at hc
  rw [Bool.and_eq_true, decide_eq_true_iff, decide_eq_true_iff] at hc
  exact ⟨UInt32.le_iff_toNat_le.mp hc.1, UInt32.le_iff_toNat_le.mp hc.2⟩

theorem decimal_eq_map (n : Nat) :
    decimal n = (Nat.toDigits 10 n).map fun c => UInt8.ofNat c.toNat := by
  have hbytes (cs : List Char) (hcs : ∀ c ∈ cs, c.isDigit) :
      cs.flatMap String.utf8EncodeChar = cs.map fun c => UInt8.ofNat c.toNat := by
    induction cs with
    | nil => rfl
    | cons c cs ih =>
      obtain ⟨hc, hrest⟩ := forall_mem_cons.mp hcs
      obtain ⟨-, hhi⟩ := bounds_of_isDigit hc
      have hone : String.utf8EncodeChar c = [UInt8.ofNat c.toNat] := by
        unfold String.utf8EncodeChar
        rw [if_pos (show c.val.toNat ≤ 0x7f from hhi.trans (by decide))]
        rfl
      rw [flatMap_cons, hone, ih hrest]
      rfl
  unfold decimal Nat.repr
  rw [ofString_ofList]
  exact hbytes _ fun c hc => Nat.isDigit_of_mem_toDigits (by omega) (by omega) hc

theorem parseDigits_decimal (n : Nat) : parseDigits (decimal n) = some n := by
  have hall : (decimal n).all (fun b => 48 ≤ b && b ≤ 57) := by
    rw [all_eq_true]
    intro b hb
    obtain ⟨hlo, hhi⟩ := digit_of_mem_decimal hb
    exact Bool.and_eq_true_iff.mpr ⟨decide_eq_true hlo, decide_eq_true hhi⟩
  have hne : (decimal n).isEmpty = false := by
    rw [decimal_eq_map, isEmpty_map, isEmpty_eq_false_iff]
    exact Nat.toDigits_ne_nil
  have hfold : (decimal n).foldl (fun n b => 10 * n + (b - 48).toNat) 0 = n := by
    rw [decimal_eq_map, foldl_map]
    conv_rhs => rw [← @Nat.ofDigitChars_ten_toDigits n, Nat.ofDigitChars_eq_foldl]
    refine foldl_ext _ _ _ fun m c hc => ?_
    obtain ⟨hlo, hhi⟩ := bounds_of_isDigit (Nat.isDigit_of_mem_toDigits (by omega) (by omega) hc)
    have hbyte : (UInt8.ofNat c.toNat).toNat = c.toNat := UInt8.toNat_ofNat_of_lt' (by show _ < 256; omega)
    have hsub : (UInt8.ofNat c.toNat - 48).toNat = c.toNat - 48 := by
      rw [UInt8.toNat_sub_of_le _ _ (by rw [UInt8.le_iff_toNat_le, hbyte]; exact hlo), hbyte]
      rfl
    rw [hsub]
    rfl
  unfold parseDigits
  rw [hall, hne, hfold]
  rfl

/-! ## The first word -/

end Text
