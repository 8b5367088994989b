import MagnumDB.Lib.Text
import Mathlib.Tactic.Common

/-!
# Cutting text up and putting it together

What splitting gives for texts that were put together from parts, and when white space
at the ends can be told from the text.
-/

namespace Text

open List

variable {sep : UInt8} {s : List UInt8}

/-! ## Splitting -/

theorem splitOn_eq (sep : UInt8) (s : List UInt8) : splitOn sep s = List.splitOn sep s := by
  induction s with
  | nil => rfl
  | cons b rest ih =>
    rw [splitOn, splitOn_cons_eq_if_modifyHead, ← ih]
    by_cases hb : b = sep
    · rw [if_pos hb, if_pos (by rw [hb]; exact BEq.rfl)]
    · rw [if_neg hb, if_neg (by simpa using hb)]
      cases hs : splitOn sep rest with
      | nil => exact absurd (ih ▸ hs) (splitOn_ne_nil sep rest)
      | cons part parts => rfl

theorem splitOn_ne_nil (sep : UInt8) (s : List UInt8) : splitOn sep s ≠ [] := by
  rw [splitOn_eq]
  exact List.splitOn_ne_nil sep s

theorem splitOn_of_not_mem (h : sep ∉ s) : splitOn sep s = [s] := by
  rw [splitOn_eq]
  exact splitOn_eq_singleton h

theorem splitOn_append_cons (sep : UInt8) (s t : List UInt8) :
    splitOn sep (s ++ sep :: t) = splitOn sep s ++ splitOn sep t := by
  rw [splitOn_eq, splitOn_eq, splitOn_eq]
  exact splitOn_append_cons_self s t

variable {parts : List (List UInt8)} {b : UInt8}

/-- Parts without the separator are read back. -/
theorem splitOn_join (hne : parts ≠ []) (h : ∀ p ∈ parts, sep ∉ p) :
    splitOn sep (join [sep] parts) = parts := by
  rw [splitOn_eq]
  exact splitOn_intercalate sep h hne

theorem length_splitOn (sep : UInt8) (s : List UInt8) :
    (splitOn sep s).length = s.count sep + 1 := by
  induction s with
  | nil => rfl
  | cons b rest ih =>
    rw [splitOn]
    by_cases hb : b = sep
    · rw [if_pos hb, hb, count_cons_self, length_cons, ih]
    · rw [if_neg hb, count_cons_of_ne hb, ← ih]
      cases hs : splitOn sep rest with
      | nil => exact absurd hs (splitOn_ne_nil sep rest)
      | cons part parts => rfl

/-! ## Joining -/

theorem join_cons_cons (glue p q : List UInt8) (parts : List (List UInt8)) :
    join glue (p :: q :: parts) = p ++ (glue ++ join glue (q :: parts)) := by
  unfold join
  rw [intercalate_cons_cons, append_assoc]

theorem join_singleton (glue p : List UInt8) : join glue [p] = p := by
  exact intercalate_singleton

theorem mem_of_mem_join {glue : List UInt8} (hb : b ∈ join glue parts) :
    b ∈ glue ∨ ∃ p ∈ parts, b ∈ p := by
  induction parts with
  | nil => exact nomatch hb
  | cons p parts ih =>
    cases parts with
    | nil =>
      rw [join_singleton] at hb
      exact .inr ⟨p, mem_cons_self, hb⟩
    | cons q parts =>
      rw [join_cons_cons, mem_append, mem_append] at hb
      rcases hb with hb | hb | hb
      · exact .inr ⟨p, mem_cons_self, hb⟩
      · exact .inl hb
      · rcases ih hb with hb | ⟨r, hr, hb⟩
        · exact .inl hb
        · exact .inr ⟨r, mem_cons_of_mem _ hr, hb⟩

theorem count_join_add (b : UInt8) (glue : List UInt8) (hne : parts ≠ []) :
    (join glue parts).count b + glue.count b
      = (parts.map fun p => p.count b + glue.count b).sum := by
  induction parts with
  | nil => exact absurd rfl hne
  | cons p parts ih =>
    cases parts with
    | nil => rw [join_singleton, map_cons, map_nil, sum_cons, sum_nil, Nat.add_zero]
    | cons q parts =>
      rw [join_cons_cons, count_append, count_append, map_cons, sum_cons,
        ← ih (cons_ne_nil q parts)]
      omega

theorem count_join {glue : List UInt8} (hb : b ∉ glue) (parts : List (List UInt8)) :
    (join glue parts).count b = (parts.map (List.count b)).sum := by
  cases parts with
  | nil => rfl
  | cons p parts =>
    have hadd := count_join_add b glue (cons_ne_nil p parts)
    rw [count_eq_zero_of_not_mem hb] at hadd
    exact hadd

/-- Parts between blanks: the blanks of the glue belong to the parts. -/
theorem join_pad (sep : UInt8) (hne : parts ≠ []) :
    32 :: (join [32, sep, 32] parts ++ [32]) = join [sep] (parts.map fun p => 32 :: (p ++ [32])) := by
  induction parts with
  | nil => exact absurd rfl hne
  | cons p parts ih =>
    cases parts with
    | nil => rw [join_singleton, map_cons, map_nil, join_singleton]
    | cons q parts =>
      have hrest := ih (cons_ne_nil q parts)
      rw [map_cons] at hrest
      rw [join_cons_cons, map_cons, map_cons, join_cons_cons, ← hrest]
      simp

theorem join_comma_blank (sep : UInt8) (p : List UInt8) (ps : List (List UInt8)) :
    join [sep, 32] (p :: ps) = join [sep] (p :: ps.map (32 :: ·)) := by
  induction ps generalizing p with
  | nil => rfl
  | cons q ps ih =>
    rw [join_cons_cons, map_cons, join_cons_cons, ih]
    cases ps with
    | nil => rfl
    | cons r ps => rw [map_cons, join_cons_cons, join_cons_cons]; rfl

/-! ## Lines -/

/-- Lines that were written one by one, and a last one without an end. -/
theorem lines_flatMap {ls : List (List UInt8)} {last : List UInt8}
    (hls : ∀ l ∈ ls, 10 ∉ l ∧ l.getLast? ≠ some 13) (hlast : 10 ∉ last) (hne : last ≠ []) :
    lines (ls.flatMap (· ++ [10]) ++ last) = ls ++ [last] := by
  have hsplit : splitOn 10 (ls.flatMap (· ++ [10]) ++ last) = ls ++ [last] := by
    clear hne
    induction ls with
    | nil => exact splitOn_of_not_mem hlast
    | cons l ls ih =>
      have htail := ih fun l' hl' => hls l' (mem_cons_of_mem _ hl')
      rw [flatMap_cons, append_assoc, append_assoc, singleton_append,
        splitOn_append_cons, splitOn_of_not_mem (hls l mem_cons_self).1, htail]
      rfl
  have hcr : ls.map (fun line => if line.getLast? = some 13 then line.dropLast else line) = ls := by
    refine (map_congr_left fun l hl => ?_).trans (map_id ls)
    exact if_neg (hls l hl).2
  unfold lines
  simp only [hsplit, dropLast_concat, getLast?_concat, hcr]
  rw [if_neg (by simpa using hne)]

/-- A text whose last line has no end has one line more than it has ends of lines. -/
theorem length_lines_append {last : List UInt8} (s : List UInt8) (hlast : 10 ∉ last) (hne : last ≠ []) :
    (lines (s ++ last)).length = s.count 10 + 1 := by
  have hlen : (splitOn 10 (s ++ last)).length = s.count 10 + 1 := by
    rw [length_splitOn, count_append, count_eq_zero_of_not_mem hlast]
  -- the last part ends with the last line, so it is not empty
  have hpart : ∃ front, (splitOn 10 (s ++ last)).getLast? = some (front ++ last) := by
    clear hlen
    induction s with
    | nil => exact ⟨[], by rw [nil_append, splitOn_of_not_mem hlast]; rfl⟩
    | cons b s ih =>
      obtain ⟨front, hfront⟩ := ih
      rw [cons_append, splitOn]
      split
      · refine ⟨front, ?_⟩
        rw [getLast?_cons, hfront]
        rfl
      · cases hs : splitOn 10 (s ++ last) with
        | nil => exact absurd hs (splitOn_ne_nil 10 _)
        | cons part parts =>
          rw [hs] at hfront
          cases parts with
          | nil =>
            refine ⟨b :: front, ?_⟩
            rw [getLast?_singleton, Option.some.injEq] at hfront
            rw [hfront]
            rfl
          | cons q qs =>
            refine ⟨front, ?_⟩
            rw [getLast?_cons_cons] at hfront
            rw [getLast?_cons_cons, hfront]
  obtain ⟨front, hfront⟩ := hpart
  unfold lines
  simp only [hfront]
  rw [if_neg (by simp [hne]), length_append, length_map, length_dropLast, hlen]
  rfl

/-! ## White space -/

theorem spaceWidth_blank (s : List UInt8) : spaceWidth (32 :: s) = 1 := by
  cases s with
  | nil => rfl
  | cons b s => simp [spaceWidth]

theorem spaceWidthBack_blank (s : List UInt8) : spaceWidthBack (32 :: s) = 1 := by
  cases s with
  | nil => rfl
  | cons b s => simp [spaceWidthBack]

theorem trimStart_blank (s : List UInt8) : trimStart (32 :: s) = trimStart s := by
  unfold trimStart
  rw [length_cons, dropSpaces, spaceWidth_blank, if_neg Nat.one_ne_zero]
  rfl

theorem trimEnd_blank (s : List UInt8) : trimEnd (s ++ [32]) = trimEnd s := by
  unfold trimEnd
  rw [length_append, reverse_append]
  show (dropSpaces spaceWidthBack (s.length + 1) (32 :: s.reverse)).reverse = _
  rw [dropSpaces, spaceWidthBack_blank, if_neg Nat.one_ne_zero]
  rfl

theorem spaceWidth_le_length (s : List UInt8) : spaceWidth s ≤ s.length := by
  unfold spaceWidth
  split
  · exact Nat.zero_le _
  · split <;> simp
  · rename_i a b rest
    split
    · simp
    · split
      · simp
      · split
        · rename_i hwide
          cases rest with
          | nil => simp at hwide
          | cons c rest => simp
        · simp

theorem spaceWidth_append_blank (hs : s ≠ []) : spaceWidth (s ++ [32]) = spaceWidth s := by
  rcases s with _ | ⟨a, _ | ⟨b, _ | ⟨c, rest⟩⟩⟩
  · exact absurd rfl hs
  · simp [spaceWidth]
  · have hwide : isWideSpace a b 32 = false := by simp [isWideSpace]
    simp [spaceWidth, hwide]
  · rfl

variable {width : List UInt8 → Nat}

/-- More steps than there are bytes are as good as that many. -/
theorem dropSpaces_of_le {n m : Nat} (hnil : width [] = 0) (hn : s.length ≤ n) (hm : s.length ≤ m) :
    dropSpaces width n s = dropSpaces width m s := by
  induction n generalizing s m with
  | zero =>
    obtain rfl : s = [] := length_eq_zero_iff.mp (Nat.le_zero.mp hn)
    cases m with
    | zero => rfl
    | succ m => rw [dropSpaces, dropSpaces, if_pos hnil]
  | succ n ih =>
    cases m with
    | zero =>
      obtain rfl : s = [] := length_eq_zero_iff.mp (Nat.le_zero.mp hm)
      rw [dropSpaces, dropSpaces, if_pos hnil]
    | succ m =>
      rw [dropSpaces, dropSpaces]
      by_cases hw : width s = 0
      · rw [if_pos hw, if_pos hw]
      · rw [if_neg hw, if_neg hw]
        have hdrop : (s.drop (width s)).length + 1 ≤ s.length ∨ s = [] := by
          cases s with
          | nil => exact Or.inr rfl
          | cons b s => left; rw [length_drop, length_cons]; omega
        rcases hdrop with hlt | rfl
        · exact ih (by omega) (by omega)
        · exact absurd hnil hw

theorem trimStart_of_spaceWidth (h : spaceWidth s = 0) : trimStart s = s := by
  unfold trimStart
  cases hs : s.length with
  | zero => rfl
  | succ n => rw [dropSpaces, if_pos h]

theorem trimStart_drop (h : spaceWidth s ≠ 0) : trimStart s = trimStart (s.drop (spaceWidth s)) := by
  unfold trimStart
  cases hs : s.length with
  | zero =>
    obtain rfl : s = [] := length_eq_zero_iff.mp hs
    exact absurd rfl h
  | succ n =>
    rw [dropSpaces, if_neg h]
    refine dropSpaces_of_le rfl ?_ (Nat.le_refl _)
    rw [length_drop]
    omega

/-- Blanks at the start are taken off a text with a blank behind it as they are without it, unless
there is nothing else. -/
theorem trimStart_append_blank (s : List UInt8) :
    trimStart (s ++ [32]) = if trimStart s = [] then [] else trimStart s ++ [32] := by
  induction hn : s.length using Nat.strong_induction_on generalizing s with
  | _ n ih =>
    subst hn
    by_cases hs : s = []
    · subst hs
      rfl
    · by_cases hw : spaceWidth s = 0
      · rw [trimStart_of_spaceWidth hw, if_neg hs]
        exact trimStart_of_spaceWidth ((spaceWidth_append_blank hs).trans hw)
      · have hle := spaceWidth_le_length s
        rw [trimStart_drop hw, trimStart_drop (by rwa [spaceWidth_append_blank hs]),
          spaceWidth_append_blank hs, drop_append_of_le_length hle]
        refine ih _ ?_ _ rfl
        rw [length_drop]
        have : 0 < s.length := length_pos_of_ne_nil hs
        omega

/-- Blanks around a text do not count. -/
theorem trim_pad (s : List UInt8) : trim (32 :: (s ++ [32])) = trim s := by
  unfold trim
  rw [trimStart_blank, trimStart_append_blank]
  split
  · rename_i hs
    rw [hs]
  · rw [trimEnd_blank]

theorem trim_blank_cons (s : List UInt8) : trim (32 :: s) = trim s := by
  unfold trim
  rw [trimStart_blank]

theorem trim_blanks (a b : Nat) (s : List UInt8) :
    trim (List.replicate a 32 ++ (s ++ List.replicate b 32)) = trim s := by
  induction a with
  | zero =>
    rw [replicate_zero, nil_append]
    induction b with
    | zero => rw [replicate_zero, append_nil]
    | succ b ih => rw [replicate_succ', ← append_assoc, ← trim_blank_cons, trim_pad, ih]
  | succ a ih => rw [replicate_succ, cons_append, trim_blank_cons, ih]

/-- What holds for all 256 bytes. -/
theorem forall_byte {p : UInt8 → Prop} (hp : ∀ n < 256, p (UInt8.ofNat n)) (b : UInt8) : p b := by
  have hb := hp b.toNat b.toNat_lt
  rwa [UInt8.ofNat_toNat] at hb

/-- A visible ASCII character: no part of a white space. -/
def isPlain (b : UInt8) : Bool := 33 ≤ b && b < 0x80

/-- A white space character. -/
def isSpace : List UInt8 → Bool
  | [a] => (9 ≤ a && a ≤ 13) || a == 32
  | [a, b] => a == 0xC2 && (b == 0x85 || b == 0xA0)
  | [a, b, c] => isWideSpace a b c
  | _ => false

theorem isSpace_take (s : List UInt8) : spaceWidth s = 0 ∨ isSpace (s.take (spaceWidth s)) := by
  fun_cases spaceWidth s with
  | case1 => exact .inl rfl
  | case2 a h => exact .inr h
  | case3 => exact .inl rfl
  | case4 a b rest h => exact .inr h
  | case5 a b rest _ h => exact .inr h
  | case6 a b rest _ _ h =>
    cases rest with
    | nil => exact nomatch h
    | cons c rest => exact .inr h
  | case7 => exact .inl rfl

theorem isSpace_takeBack (s : List UInt8) :
    spaceWidthBack s = 0 ∨ isSpace (s.take (spaceWidthBack s)).reverse := by
  fun_cases spaceWidthBack s with
  | case1 => exact .inl rfl
  | case2 a h => exact .inr h
  | case3 => exact .inl rfl
  | case4 b a rest h => exact .inr h
  | case5 b a rest _ h => exact .inr h
  | case6 b a rest _ _ h =>
    cases rest with
    | nil => exact nomatch h
    | cons c rest => exact .inr h
  | case7 => exact .inl rfl

theorem not_isPlain_of_isWideSpace {a c : UInt8} (h : isWideSpace a b c) :
    isPlain a = false ∧ isPlain b = false ∧ isPlain c = false := by
  have hhigh (d : UInt8) (hd : 0x80 ≤ d) : isPlain d = false := by
    unfold isPlain
    rw [Bool.and_eq_false_iff]
    exact .inr (decide_eq_false (UInt8.not_lt.mpr hd))
  unfold isWideSpace at h
  simp only [Bool.or_eq_true, Bool.and_eq_true, beq_iff_eq, decide_eq_true_eq] at h
  rcases h with ((⟨⟨rfl, rfl⟩, rfl⟩ | ⟨⟨rfl, rfl⟩, hc⟩) | ⟨⟨rfl, rfl⟩, rfl⟩) | ⟨⟨rfl, rfl⟩, rfl⟩
  · exact ⟨rfl, rfl, rfl⟩
  · refine ⟨rfl, rfl, ?_⟩
    rcases hc with ((⟨hc, -⟩ | rfl) | rfl) | rfl
    · exact hhigh c hc
    · rfl
    · rfl
    · rfl
  · exact ⟨rfl, rfl, rfl⟩
  · exact ⟨rfl, rfl, rfl⟩

theorem not_isPlain_of_isSpace {c : List UInt8} (hc : isSpace c) :
    ∀ x ∈ c, isPlain x = false := by
  have hone : ∀ a : UInt8, isSpace [a] → isPlain a = false := by grind [isSpace, isPlain]
  have htwo : ∀ b : UInt8, (b == 0x85 || b == 0xA0) → isPlain b = false := by
    grind [isPlain]
  revert hc
  fun_cases isSpace c with
  | case1 a => exact fun h => forall_mem_singleton.mpr (hone a h)
  | case2 a b =>
    intro h
    obtain ⟨ha, hb⟩ := Bool.and_eq_true_iff.mp h
    rw [beq_iff_eq.mp ha]
    exact forall_mem_cons.mpr ⟨rfl, forall_mem_singleton.mpr (htwo b hb)⟩
  | case3 a b c =>
    intro h
    obtain ⟨ha, hb, hc⟩ := not_isPlain_of_isWideSpace h
    simp [ha, hb, hc]
  | case4 => exact nofun

theorem not_isPlain_of_mem_take (s : List UInt8) : ∀ x ∈ s.take (spaceWidth s), isPlain x = false := by
  rcases isSpace_take s with h | h
  · rw [h]
    exact nofun
  · exact not_isPlain_of_isSpace h

theorem not_isPlain_of_mem_takeBack (s : List UInt8) :
    ∀ x ∈ s.take (spaceWidthBack s), isPlain x = false := by
  rcases isSpace_takeBack s with h | h
  · rw [h]
    exact nofun
  · exact fun x hx => not_isPlain_of_isSpace h x (mem_reverse.mpr hx)

theorem width_plain (hwidth : ∀ s : List UInt8, ∀ x ∈ s.take (width s), isPlain x = false)
    (hb : isPlain b) (s : List UInt8) : width (b :: s) = 0 := by
  by_contra h
  obtain ⟨n, hn⟩ := Nat.exists_eq_succ_of_ne_zero h
  have hnot := hwidth (b :: s) b (by rw [hn]; exact mem_cons_self)
  exact nomatch hb.symm.trans hnot

theorem spaceWidth_plain (hb : isPlain b) (s : List UInt8) : spaceWidth (b :: s) = 0 :=
  width_plain not_isPlain_of_mem_take hb s

theorem trimEnd_of_spaceWidthBack (h : spaceWidthBack s.reverse = 0) : trimEnd s = s := by
  unfold trimEnd
  cases hs : s.length with
  | zero => rw [dropSpaces, reverse_reverse]
  | succ n => rw [dropSpaces, if_pos h, reverse_reverse]

/-- A text with visible characters at both ends has nothing to trim. -/
theorem trim_of_plain {a b : UInt8} (ha : isPlain a) (hb : isPlain b)
    (hhead : s.head? = some a) (hlast : s.getLast? = some b) : trim s = s := by
  obtain ⟨rest, rfl⟩ := head?_eq_some_iff.mp hhead
  unfold trim
  rw [trimStart_of_spaceWidth (spaceWidth_plain ha rest)]
  refine trimEnd_of_spaceWidthBack ?_
  obtain ⟨front, hfront⟩ := getLast?_eq_some_iff.mp hlast
  rw [hfront, reverse_append]
  exact width_plain not_isPlain_of_mem_takeBack hb _

theorem sublist_dropSpaces (width : List UInt8 → Nat) (n : Nat) (s : List UInt8) :
    (dropSpaces width n s).Sublist s := by
  induction n generalizing s with
  | zero => exact List.Sublist.refl s
  | succ n ih =>
    rw [dropSpaces]
    split
    · exact List.Sublist.refl s
    · exact (ih _).trans (drop_sublist _ s)

theorem sublist_trim (s : List UInt8) : (trim s).Sublist s := by
  have hstart : (trimStart s).Sublist s := sublist_dropSpaces _ _ s
  have hend : (trimEnd (trimStart s)).Sublist (trimStart s) := by
    unfold trimEnd
    rw [← reverse_sublist, reverse_reverse]
    exact sublist_dropSpaces _ _ _
  exact hend.trans hstart

theorem count_dropSpaces (hwidth : ∀ s : List UInt8, b ∉ s.take (width s)) (n : Nat)
    (s : List UInt8) : (dropSpaces width n s).count b = s.count b := by
  induction n generalizing s with
  | zero => rfl
  | succ n ih =>
    rw [dropSpaces]
    split
    · rfl
    · rw [ih]
      conv_rhs => rw [← take_append_drop (width s) s, count_append,
        count_eq_zero_of_not_mem (hwidth s), Nat.zero_add]

theorem count_trim (hb : isPlain b) (s : List UInt8) : (trim s).count b = s.count b := by
  have hstart : (trimStart s).count b = s.count b :=
    count_dropSpaces (fun s hm => nomatch hb.symm.trans (not_isPlain_of_mem_take s b hm)) _ s
  have hend : (trimEnd (trimStart s)).count b = (trimStart s).count b := by
    unfold trimEnd
    rw [count_reverse, count_dropSpaces
      (fun s hm => nomatch hb.symm.trans (not_isPlain_of_mem_takeBack s b hm)), count_reverse]
  exact hend.trans hstart

/-! ## Decimal numbers -/

theorem ofString_ofList (cs : List Char) :
    ofString (String.ofList cs) = cs.flatMap String.utf8EncodeChar := by
  simp [ofString, String.toUTF8, List.utf8Encode]

theorem digit_of_mem_decimal {n : Nat} (hb : b ∈ decimal n) : 48 ≤ b ∧ b ≤ 57 := by
  unfold decimal Nat.repr at hb
  rw [ofString_ofList] at hb
  obtain ⟨c, hc, hb⟩ := mem_flatMap.mp hb
  have hdigit := Nat.isDigit_of_mem_toDigits (by omega) (by omega) hc
  unfold Char.isDigit at hdigit
  rw [Bool.and_eq_true, decide_eq_true_iff, decide_eq_true_iff] at hdigit
  have hlo : 48 ≤ c.val.toNat := UInt32.le_iff_toNat_le.mp hdigit.1
  have hhi : c.val.toNat ≤ 57 := UInt32.le_iff_toNat_le.mp hdigit.2
  unfold String.utf8EncodeChar at hb
  rw [if_pos (by omega), mem_singleton] at hb
  subst hb
  rw [UInt8.le_iff_toNat_le, UInt8.le_iff_toNat_le, UInt8.toNat_ofNat_of_lt' (by show _ < 256; omega)]
  exact ⟨hlo, hhi⟩

end Text
