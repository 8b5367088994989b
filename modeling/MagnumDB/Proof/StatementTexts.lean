import MagnumDB.Sql.Rendering

/-!
# Reading the texts of UPDATE, DELETE, INSERT and CREATE INDEX

Each text is read back exactly if no name has a keyword inside that is searched for before the
clause it begins. One lemma says where a keyword is found in the text, and from there the
slices are those of the words, or a name comes out too short.
-/

namespace MagnumDB

open Text
open List hiding contains splitOn

/-! ## Bytes of names and numbers -/

theorem isPlain_of_isNameByte (b : UInt8) : isNameByte b → isPlain b := by
  revert b
  exact forall_byte (by decide +kernel)

theorem isPlain_of_isNumberByte (b : UInt8) : isNumberByte b → isPlain b := by
  revert b
  exact forall_byte (by decide +kernel)

theorem isNameByte_asciiUpper (b : UInt8) : isNameByte b → isNameByte (asciiUpper b) := by
  revert b
  exact forall_byte (by decide +kernel)

theorem asciiUpper_of_isNumberByte (b : UInt8) : isNumberByte b → asciiUpper b = b := by
  revert b
  exact forall_byte (by decide +kernel)

variable {s t c d v w : Bytes} {kw : String}

theorem isName_iff :
    isName s ↔ (∃ b rest, s = b :: rest ∧ isLetter b) ∧ (∀ b ∈ s, isNameByte b) ∧
      upper s ∉ keywords := by
  unfold isName
  rw [Bool.and_eq_true, Bool.and_eq_true, all_eq_true, Bool.not_eq_true', and_assoc]
  refine and_congr ?_ (and_congr_right fun _ => by simp)
  cases s with
  | nil => simp
  | cons b rest => simp

theorem isNumber_iff : isNumber s ↔ s ≠ [] ∧ ∀ b ∈ s, isNumberByte b := by
  unfold isNumber
  simp

variable {b : UInt8}

/-- A byte that names do not have is not in a name, nor in a name in upper case. -/
theorem not_mem_of_isName (hs : isName s) (hb : isNameByte b = false) :
    b ∉ s ∧ b ∉ upper s := by
  obtain ⟨-, hall, -⟩ := isName_iff.mp hs
  refine ⟨fun hm => (nomatch hb.symm.trans (hall b hm)), fun hm => ?_⟩
  obtain ⟨c, hc, rfl⟩ := mem_map.mp hm
  exact nomatch hb.symm.trans (isNameByte_asciiUpper c (hall c hc))

theorem not_mem_of_isNumber (hs : isNumber s) (hb : isNumberByte b = false) : b ∉ s :=
  fun hm => nomatch hb.symm.trans ((isNumber_iff.mp hs).2 b hm)

theorem upper_of_isNumber (hs : isNumber s) : upper s = s := by
  conv_rhs => rw [← map_id s]
  exact map_congr_left fun b hb => asciiUpper_of_isNumberByte b ((isNumber_iff.mp hs).2 b hb)

theorem isNumber_decimal (n : Nat) : isNumber (decimal n) := by
  refine isNumber_iff.mpr ⟨fun hnil => ?_, fun b hb => ?_⟩
  · have hparse := parseDigits_decimal n
    rw [hnil] at hparse
    exact nomatch hparse
  · obtain ⟨hlo, hhi⟩ := digit_of_mem_decimal hb
    have hdigit : isDigitByte b :=
      Bool.and_eq_true_iff.mpr ⟨decide_eq_true hlo, decide_eq_true hhi⟩
    unfold isNumberByte
    rw [hdigit]
    rfl

theorem find_of_isNumber (hs : isNumber s) (hb : isNumberByte b = false) (rest : Bytes) :
    find (b :: rest) s = none :=
  find_eq_none_iff.mpr fun h => not_mem_of_isNumber hs hb (h.subset mem_cons_self)

/-! ## Words of texts -/

/-- A word of a text that can stand anywhere in it. -/
def OrdinaryWord (s : Bytes) : Prop :=
  isWord s ∧ 59 ∉ s ∧ upper s ≠ "UNION" ∧ upper s ≠ "JOIN"

instance OrdinaryWord.decidable (s : Bytes) : Decidable (OrdinaryWord s) :=
  inferInstanceAs (Decidable (_ ∧ _))

theorem ordinary_name (hs : isName s) : OrdinaryWord s := by
  obtain ⟨⟨b, rest, rfl, -⟩, hall, hkw⟩ := isName_iff.mp hs
  refine ⟨isWord_iff.mpr ⟨cons_ne_nil _ _, fun b hb => isPlain_of_isNameByte b (hall b hb)⟩,
    (not_mem_of_isName hs rfl).1, fun he => hkw ?_, fun he => hkw ?_⟩
  · rw [he]
    decide
  · rw [he]
    decide

theorem ordinary_number (hs : isNumber s) : OrdinaryWord s := by
  obtain ⟨hne, hall⟩ := isNumber_iff.mp hs
  refine ⟨isWord_iff.mpr ⟨hne, fun b hb => isPlain_of_isNumberByte b (hall b hb)⟩,
    not_mem_of_isNumber hs rfl, fun he => ?_, fun he => ?_⟩
  · rw [upper_of_isNumber hs] at he
    exact not_mem_of_isNumber hs (b := 85) rfl (he ▸ by decide)
  · rw [upper_of_isNumber hs] at he
    exact not_mem_of_isNumber hs (b := 74) rfl (he ▸ by decide)

theorem ordinary_condWords {cond : Option (Bytes × Bytes)}
    (hcond : (cond.all fun p => isName p.1 && isNumber p.2)) :
    ∀ s ∈ condWords cond, OrdinaryWord s := by
  cases cond with
  | none => exact nofun
  | some p =>
    obtain ⟨hd, hw⟩ := Bool.and_eq_true_iff.mp hcond
    refine forall_mem_cons.mpr ⟨by decide, forall_mem_cons.mpr
      ⟨ordinary_name hd, forall_mem_cons.mpr ⟨by decide,
        forall_mem_singleton.mpr (ordinary_number hw)⟩⟩⟩

theorem ordinary_orderWords {order : Option (Bytes × Bool)}
    (horder : (order.all fun p => isName p.1)) : ∀ s ∈ orderWords order, OrdinaryWord s := by
  cases order with
  | none => exact nofun
  | some p =>
    obtain ⟨c, isDesc⟩ := p
    have hdesc : ∀ s ∈ (if isDesc then [ofString "DESC"] else []), OrdinaryWord s := by
      cases isDesc with
      | false => exact nofun
      | true => exact forall_mem_singleton.mpr (by decide)
    exact forall_mem_append.mpr ⟨forall_mem_cons.mpr ⟨by decide,
      forall_mem_cons.mpr ⟨by decide,
        forall_mem_singleton.mpr (ordinary_name horder)⟩⟩, hdesc⟩

theorem ordinary_limitWords (limit : Option (Nat × Option Nat)) :
    ∀ s ∈ limitWords limit, OrdinaryWord s := by
  rcases limit with _ | ⟨n, _ | m⟩
  · exact nofun
  · exact forall_mem_cons.mpr ⟨by decide,
      forall_mem_singleton.mpr (ordinary_number (isNumber_decimal n))⟩
  · exact forall_mem_cons.mpr ⟨by decide, forall_mem_cons.mpr
      ⟨ordinary_number (isNumber_decimal n), forall_mem_cons.mpr ⟨by decide,
        forall_mem_singleton.mpr (ordinary_number (isNumber_decimal m))⟩⟩⟩

theorem ordinary_punctuated {a b : Bytes} (hs : OrdinaryWord s)
    (hall : (a ++ b).all (fun x => isPlain x && x != 59))
    (hne : (a ++ b).any (fun x => !isLetter (asciiUpper x))) : OrdinaryWord (a ++ (s ++ b)) := by
  obtain ⟨hword, hsemi, -⟩ := hs
  obtain ⟨hnil, hplain⟩ := isWord_iff.mp hword
  have ha (x : UInt8) (hx : x ∈ a ++ b) : isPlain x ∧ x ≠ 59 := by
    simpa using all_eq_true.mp hall x hx
  have hkw (kw : Bytes) (hkw : kw.all isLetter) : upper (a ++ (s ++ b)) ≠ kw := by
    obtain ⟨x, hx, hnot⟩ := any_eq_true.mp hne
    intro he
    have hmem : asciiUpper x ∈ kw := by
      rw [← he]
      refine mem_map_of_mem ?_
      rcases mem_append.mp hx with hx | hx
      · exact mem_append_left _ hx
      · exact mem_append_right _ (mem_append_right _ hx)
    rw [all_eq_true.mp hkw _ hmem] at hnot
    exact nomatch hnot
  refine ⟨isWord_iff.mpr ⟨by simp [hnil], fun x hx => ?_⟩, fun hx => ?_, hkw _ rfl, hkw _ rfl⟩
  · rcases mem_append.mp hx with hx | hx
    · exact (ha x (mem_append_left _ hx)).1
    · rcases mem_append.mp hx with hx | hx
      · exact hplain x hx
      · exact (ha x (mem_append_right _ hx)).1
  · rcases mem_append.mp hx with hx | hx
    · exact (ha 59 (mem_append_left _ hx)).2 rfl
    · rcases mem_append.mp hx with hx | hx
      · exact hsemi hx
      · exact (ha 59 (mem_append_right _ hx)).2 rfl

namespace Rendering

theorem ordinary_words {r : Rendering} (hr : r.wellFormed) : ∀ s ∈ r.words, OrdinaryWord s := by
  cases r with
  | update t c v cond =>
    simp only [wellFormed, Bool.and_eq_true] at hr
    obtain ⟨⟨⟨ht, hc⟩, hv⟩, hcond⟩ := hr
    refine forall_mem_append.mpr ⟨?_, ordinary_condWords hcond⟩
    simp only [forall_mem_cons, not_mem_nil, false_implies, implies_true, and_true]
    exact ⟨by decide, ordinary_name ht, by decide, ordinary_name hc,
      by decide, ordinary_number hv⟩
  | delete t cond =>
    simp only [wellFormed, Bool.and_eq_true] at hr
    refine forall_mem_append.mpr ⟨?_, ordinary_condWords hr.2⟩
    simp only [forall_mem_cons, not_mem_nil, false_implies, implies_true, and_true]
    exact ⟨by decide, by decide, ordinary_name hr.1⟩
  | insert t v w =>
    simp only [wellFormed, Bool.and_eq_true] at hr
    obtain ⟨⟨ht, hv⟩, hw⟩ := hr
    simp only [words, forall_mem_cons, not_mem_nil, false_implies, implies_true, and_true]
    refine ⟨by decide, by decide, ordinary_name ht, by decide, ?_, ?_⟩
    · exact ordinary_punctuated (a := [40]) (b := [44]) (ordinary_number hv) rfl rfl
    · exact ordinary_punctuated (a := []) (b := [41]) (ordinary_number hw) rfl rfl
  | createIndex c t d =>
    simp only [wellFormed, Bool.and_eq_true] at hr
    obtain ⟨⟨hc, ht⟩, hd⟩ := hr
    simp only [words, forall_mem_cons, not_mem_nil, false_implies, implies_true, and_true]
    refine ⟨by decide, by decide, ordinary_name hc, by decide,
      ordinary_name ht, ?_⟩
    exact ordinary_punctuated (a := [40]) (b := [41]) (ordinary_name hd) rfl rfl
  | select t cond order limit =>
    simp only [wellFormed, Bool.and_eq_true] at hr
    obtain ⟨⟨ht, hcond⟩, horder⟩ := hr
    refine forall_mem_append.mpr ⟨forall_mem_append.mpr ⟨forall_mem_append.mpr
      ⟨?_, ordinary_condWords hcond⟩, ordinary_orderWords horder⟩, ordinary_limitWords limit⟩
    simp only [forall_mem_cons, not_mem_nil, false_implies, implies_true, and_true]
    exact ⟨by decide, by decide, by decide, ordinary_name ht⟩

end Rendering

/-! ## Parts of texts -/

section

variable {h : Host} {ws : List Bytes}

theorem length_upper (s : Bytes) : (upper s).length = s.length := length_map _

theorem isWord_upper (hs : isWord s) : isWord (upper s) := by
  have hplain : ∀ b : UInt8, isPlain b → isPlain (asciiUpper b) :=
    forall_byte (by decide +kernel)
  obtain ⟨hne, hall⟩ := isWord_iff.mp hs
  refine isWord_iff.mpr ⟨by simpa [upper] using hne, fun b hb => ?_⟩
  obtain ⟨c, hc, rfl⟩ := mem_map.mp hb
  exact hplain c (hall c hc)

theorem toUppercase_spaced (hu : h.Upper) (hws : ∀ s ∈ ws, isWord s) :
    h.toUppercase (spaced ws) = spaced (ws.map upper) := by
  rw [hu.ascii, map_spaced rfl]
  · rfl
  · intro b hb
    rcases mem_spaced hb with rfl | ⟨s, hs, hb⟩
    · decide
    · exact ascii_of_isPlain ((isWord_iff.mp (hws s hs)).2 b hb)

theorem toUppercase_number (hu : h.Upper) (hs : isNumber s) : h.toUppercase s = s := by
  have hupper := @toUppercase_spaced h [s] hu (by simpa using (ordinary_number hs).1)
  rwa [map_singleton, spaced_singleton, spaced_singleton, upper_of_isNumber hs] at hupper

theorem blank_not_mem_upper (hws : ∀ s ∈ ws, isWord s) : ∀ s ∈ ws.map upper, 32 ∉ s := by
  intro s hs
  obtain ⟨s', hs', rfl⟩ := mem_map.mp hs
  exact blank_not_mem (isWord_upper (hws s' hs'))

/-- A keyword without a blank is looked for word by word. -/
theorem findText_spaced (hu : h.Upper) (hws : ∀ s ∈ ws, isWord s)
    (hkw : 32 ∉ ofString kw ∧ ofString kw ≠ []) :
    Parser.findText kw (h.toUppercase (spaced ws)) = findIn (ofString kw) (ws.map upper) := by
  rw [toUppercase_spaced hu hws]
  exact find_spaced hkw.1 hkw.2 _

theorem offset_upper (ws : List Bytes) : offset (ws.map upper) = offset ws := by
  unfold offset
  rw [map_map]
  exact congrArg List.sum (map_congr_left fun w _ => by simp [length_upper])

theorem findIn_behind {k : Bytes} {l : List Bytes} (hxs : findIn k l = none) (w : Bytes) :
    findIn k (l ++ [w]) = (find k w).map (· + offset l) := by
  rw [findIn_append, hxs, Option.none_or, findIn, findIn, Option.map_none, Option.or_none]

theorem findText_append (hu : h.Upper) {xs ys : List Bytes} (hws : ∀ s ∈ xs ++ ys, isWord s)
    (hkw : 32 ∉ ofString kw ∧ ofString kw ≠ []) :
    Parser.findText kw (h.toUppercase (spaced (xs ++ ys))) = (findIn (ofString kw) (xs.map upper)).or
      ((findIn (ofString kw) (ys.map upper)).map (· + offset xs)) := by
  rw [findText_spaced hu hws hkw, map_append, findIn_append, offset_upper]

theorem contains_eq_false_of_words (hu : h.Upper) (hws : ∀ s ∈ ws, isWord s) {k : Bytes}
    (hkw : 32 ∉ k) (hmem : ∀ s ∈ ws, upper s ≠ k) :
    contains (32 :: (k ++ [32])) (h.toUppercase (spaced ws)) = false := by
  rw [toUppercase_spaced hu hws]
  refine contains_word_eq_false hkw (blank_not_mem_upper hws) fun hin => ?_
  obtain ⟨s, hs, he⟩ := mem_map.mp hin
  exact hmem s hs he

theorem find_upper_lt {kw : Bytes} {i : Nat} (hkw : kw ≠ []) (hfind : find kw (upper s) = some i) :
    i < s.length := by
  have hle := find_add_length_le hfind
  have hpos := length_pos_iff.mpr hkw
  rw [length_upper] at hle
  omega

end

namespace Parser

variable {h : Host} {xs ys zs : List Bytes} {i j : Nat}

/-- A slice of a text of words. It begins at a word or at the blank before it, and ends behind a word
or at the next one. -/
theorem cutTrim_words (hws : ∀ w ∈ xs ++ (ys ++ zs), isWord w) (hy : ys ≠ [])
    (hi : i = offset xs ∨ i + 1 = offset xs)
    (hj : j + 1 = offset (xs ++ ys) ∨ zs ≠ [] ∧ j = offset (xs ++ ys)) :
    cutTrim (spaced (xs ++ (ys ++ zs))) i j = .ok (spaced ys) := by
  have hys : ∀ w ∈ ys, isWord w := fun w hw => hws w (by simp [hw])
  have htrim := trim_spaced hy hys
  have hlen := length_spaced hy
  rw [offset_append] at hj
  -- what is behind the slice, and the blank before it that belongs to the slice
  obtain ⟨post, c, hback, hc, hpost, hend⟩ : ∃ post c, spaced (ys ++ zs) = spaced ys ++ (post ++ c) ∧
      startsChar c ∧ (post = [] ∨ post = [32]) ∧
      j = offset xs + (spaced ys).length + post.length := by
    by_cases hz : zs = []
    · subst hz
      refine ⟨[], [], by simp, rfl, .inl rfl, ?_⟩
      rcases hj with hj | ⟨hz, -⟩
      · rw [length_nil]
        omega
      · exact absurd rfl hz
    · rw [spaced_append hy hz]
      rcases hj with hj | ⟨-, hj⟩
      · exact ⟨[], 32 :: spaced zs, rfl, rfl, .inl rfl, by rw [length_nil]; omega⟩
      · have hstart := startsChar_spaced (fun w hw => hws w (by simp [hw])) hz []
        rw [append_nil] at hstart
        exact ⟨[32], spaced zs, rfl, hstart, .inr rfl, by rw [length_singleton]; omega⟩
  obtain ⟨a, pre, hfront, ha, hpre⟩ := @spaced_cut_front xs (ys ++ zs) (by simp [hy]) i hi
  have hword := startsChar_spaced hys hy (post ++ c)
  have hsum : i + pre.length = offset xs := by
    have htext := congrArg List.length hfront
    have hall := @length_spaced (xs ++ (ys ++ zs)) (by simp [hy])
    have htail := @length_spaced (ys ++ zs) (by simp [hy])
    rw [offset_append] at hall
    rw [length_append, length_append] at htext
    omega
  have hshape : spaced (xs ++ (ys ++ zs)) = a ++ ((pre ++ (spaced ys ++ post)) ++ c) := by
    rw [hfront, hback]
    simp only [append_assoc]
  rw [hshape, cutTrim_append (a := a) (b := pre ++ (spaced ys ++ post)) (c := c) ?_ hc ha.symm ?_]
  · rcases hpre with rfl | rfl
    · rcases hpost with rfl | rfl
      · rw [append_nil, nil_append, htrim]
      · rw [nil_append, ← trim_blank_cons, trim_pad, htrim]
    · rcases hpost with rfl | rfl
      · rw [append_nil, singleton_append, trim_blank_cons, htrim]
      · rw [singleton_append, trim_pad, htrim]
  · rcases hpre with rfl | rfl
    · rw [nil_append, append_assoc]
      exact hword
    · rfl
  · rw [length_append, length_append]
    omega

theorem cutTrimFrom_words (hws : ∀ w ∈ xs ++ ys, isWord w) (hy : ys ≠ [])
    (hi : i = offset xs ∨ i + 1 = offset xs) : cutTrimFrom (spaced (xs ++ ys)) i = .ok (spaced ys) := by
  have hcut := @cutTrim_words xs ys [] i (spaced (xs ++ ys)).length (by rwa [append_nil]) hy hi
    (.inl (length_spaced (by simp [hy])))
  rwa [append_nil] at hcut

/-- A slice from the blank before a word on is not longer than what is left for it. -/
theorem length_of_cutTrim {r : Bytes} (hx : xs ≠ []) (hy : ys ≠ []) (hi : i + 1 = offset xs)
    (hcut : cutTrim (spaced (xs ++ ys)) i j = .ok r) : r.length ≤ j - offset xs := by
  have hlen := length_spaced hx
  obtain ⟨-, rfl⟩ := of_cutTrim hcut
  rw [spaced_append hx hy, show i = (spaced xs).length by omega, drop_left]
  cases hk : j - (spaced xs).length with
  | zero => exact (sublist_trim _).length_le.trans (Nat.zero_le _)
  | succ k =>
    rw [take_succ_cons, trim_blank_cons]
    refine (sublist_trim _).length_le.trans ?_
    rw [length_take]
    omega

theorem unquote_of_not_mem (hs : 39 ∉ s) : unquote s = s := by
  have hdrop (l : Bytes) (hl : 39 ∉ l) : l.dropWhile (· == 39) = l := by
    cases l with
    | nil => rfl
    | cons b l =>
      refine dropWhile_cons_of_neg ?_
      rw [beq_iff_eq]
      rintro rfl
      exact hl mem_cons_self
  unfold unquote trimMatches
  rw [hdrop s hs, hdrop _ (by simpa using hs), reverse_reverse]

theorem isWord_equality (hc : isName c) (hv : isNumber v) :
    ∀ s ∈ [c, "=", v], isWord s := by
  simp only [forall_mem_cons, not_mem_nil, false_implies, implies_true, and_true]
  exact ⟨(ordinary_name hc).1, rfl, (ordinary_number hv).1⟩

theorem parseAssignment_eq (hc : isName c) (hv : isNumber v) :
    parseAssignment (spaced [c, "=", v]) = .ok (c, v) := by
  have hws := isWord_equality hc hv
  have hfind : findText "=" (spaced [c, "=", v]) = some (c.length + 1) := by
    have hname : find "=" c = none :=
      find_eq_none_iff.mpr fun hin => (not_mem_of_isName hc (b := 61) rfl).1 (hin.subset (by decide))
    have hsign : find "=" "=" = some 0 := by decide
    refine (find_spaced (by decide) (by decide) _).trans ?_
    rw [findIn, findIn, hname, hsign]
    simp
  have hcol : cutTrim (spaced [c, "=", v]) 0 (c.length + 1) = .ok c := by
    have hcut := @cutTrim_words [] [c] ["=", v] 0 (c.length + 1) hws (by simp) (.inl rfl)
      (.inr ⟨by simp, by simp⟩)
    rwa [spaced_singleton] at hcut
  have hval : cutTrimFrom (spaced [c, "=", v]) (c.length + 1 + 1) = .ok v := by
    have hcut := @cutTrimFrom_words [c, "="] [v] (c.length + 1 + 1) hws (by simp)
      (.inr (by simp; rfl))
    rwa [spaced_singleton] at hcut
  unfold parseAssignment
  rw [hfind]
  refine (Except.bind_of_ok hcol).trans ((Except.bind_of_ok hval).trans ?_)
  rw [unquote_of_not_mem (not_mem_of_isNumber hv rfl)]
  rfl

theorem length_of_parseAssignment {expr col val : Bytes} (h : parseAssignment expr = .ok (col, val)) :
    col.length ≤ expr.length := by
  obtain ⟨i, -, h⟩ := Except.of_bind_eq_ok h
  obtain ⟨col', hcol, h⟩ := Except.of_bind_eq_ok h
  obtain ⟨val', -, h⟩ := Except.of_bind_eq_ok h
  obtain ⟨rfl, -⟩ := Prod.mk.inj (Except.ok.inj h)
  obtain ⟨-, rfl⟩ := of_cutTrim hcol
  refine (sublist_trim _).length_le.trans ?_
  rw [length_take, drop_zero]
  exact Nat.min_le_right _ _

theorem parseWhereEquality_eq (hu : h.Upper) (hd : isName d) (hw : isNumber w) :
    parseWhereEquality h (spaced [d, "=", w]) = .ok (d, w) := by
  have hin : contains " IN " (h.toUppercase (spaced [d, "=", w])) = false := by
    refine contains_eq_false_of_words hu (isWord_equality hd hw) (k := "IN") (by decide) ?_
    simp only [forall_mem_cons, not_mem_nil, false_implies, implies_true, and_true]
    refine ⟨fun he => (isName_iff.mp hd).2.2 (he ▸ by decide), by decide, fun he => ?_⟩
    rw [upper_of_isNumber hw] at he
    exact not_mem_of_isNumber hw (b := 73) rfl (he ▸ by decide)
  unfold parseWhereEquality
  rw [show findText " IN " _ = none from contains_eq_false_iff.mp hin]
  exact parseAssignment_eq hd hw

end Parser

namespace Rendering

open MagnumDB.Parser

variable {h : Host} {r : Rendering}

theorem words_ne_nil (r : Rendering) : r.words ≠ [] := by
  cases r with
  | update t c v cond => exact cons_ne_nil _ _
  | delete t cond => exact cons_ne_nil _ _
  | insert t v w => exact cons_ne_nil _ _
  | createIndex c t d => exact cons_ne_nil _ _
  | select t cond order limit => exact cons_ne_nil _ _

theorem isWord_words (hr : r.wellFormed) : ∀ s ∈ r.words, isWord s :=
  fun s hs => (ordinary_words hr s hs).1

theorem bare_text (hr : r.wellFormed) : bare r.text = r.text := by
  have hsemi : 59 ∉ r.text := by
    intro hb
    rcases mem_spaced hb with hb | ⟨s, hs, hb⟩
    · exact absurd hb (by decide)
    · exact (ordinary_words hr s hs).2.1 hb
  have htrim : trim r.text = r.text := trim_spaced r.words_ne_nil (isWord_words hr)
  unfold bare trimEndMatches
  rw [htrim]
  cases hrev : r.text.reverse with
  | nil =>
    rw [reverse_eq_nil_iff.mp hrev]
    rfl
  | cons b rest =>
    have hb : b ≠ 59 := by
      rintro rfl
      exact hsemi (mem_reverse.mp (hrev ▸ mem_cons_self))
    rw [dropWhile_cons_of_neg (by simpa using hb), ← hrev, reverse_reverse]

theorem parse_text (hu : h.Upper) (hr : r.wellFormed) :
    parse h r.text = parseByKeyword h (parseWithin h r.text.length) r.text (spaced (r.words.map upper)) := by
  have hupper : h.toUppercase r.text = spaced (r.words.map upper) := toUppercase_spaced hu (isWord_words hr)
  have hwith : startsWith "WITH " (h.toUppercase r.text) = false := by
    rw [hupper]
    cases r with
    | update t c v cond => rfl
    | delete t cond => rfl
    | insert t v w => rfl
    | createIndex c t d => rfl
    | select t cond order limit => rfl
  have hunion : contains " UNION " (h.toUppercase r.text) = false :=
    contains_eq_false_of_words hu (isWord_words hr) (k := "UNION") (by decide)
      fun s hs => (ordinary_words hr s hs).2.2.1
  unfold parse
  rw [parseWithin_bare (by rwa [bare_text hr]) (by rwa [bare_text hr]), bare_text hr, hupper]

theorem lacks_iff {kw : String} {s : Bytes} : lacks kw s ↔ find (ofString kw) (upper s) = none := by
  unfold lacks
  rw [Bool.not_eq_true', contains_eq_false_iff]

theorem find_condWords (cond : Option (Bytes × Bytes)) :
    findIn "WHERE" ((condWords cond).map upper) = cond.map fun _ => 0 := by
  cases cond with
  | none => rfl
  | some p => rfl

theorem cutTrimFrom_cond {d w : Bytes} (hcond : (isName d && isNumber w)) {xs : List Bytes}
    (hxs : ∀ s ∈ xs, isWord s) {i : Nat} (hi : i = offset xs + 5) :
    cutTrimFrom (spaced (xs ++ condWords (some (d, w)))) i = .ok (spaced [d, "=", w]) := by
  obtain ⟨hd, hw⟩ := Bool.and_eq_true_iff.mp hcond
  have hcut := @cutTrimFrom_words (xs ++ [ofString "WHERE"]) [d, "=", w] i
    (forall_mem_append.mpr ⟨forall_mem_append.mpr ⟨hxs, by decide⟩, isWord_equality hd hw⟩)
    (by simp) (.inr (by rw [hi, offset_append]; rfl))
  rwa [append_assoc] at hcut

/-! ## DELETE -/

variable {cond : Option (Bytes × Bytes)}

/-- DELETE is read back exactly if WHERE is not inside the table name. -/
theorem parse_delete_iff (hu : h.Upper) {t : Bytes} (hr : (delete t cond).wellFormed) :
    parse h (delete t cond).text = .ok (.delete t cond) ↔ lacks "WHERE" t := by
  have hcond := (Bool.and_eq_true_iff.mp hr).2
  have hws := isWord_words hr
  have hfind : findText "WHERE" (h.toUppercase (delete t cond).text) =
      ((find "WHERE" (upper t)).map (· + 12)).or
        (cond.map fun _ => offset ["DELETE", "FROM", t]) := by
    have hname : findIn "WHERE" ["DELETE", "FROM", upper t] =
        (find "WHERE" (upper t)).map (· + 12) :=
      findIn_behind (l := ["DELETE", "FROM"]) (by decide) _
    refine (findText_append hu hws (by decide)).trans ?_
    rw [find_condWords, Option.map_map]
    simp only [Function.comp_def, Nat.zero_add]
    exact congrArg (Option.or · _) hname
  have hdispatch : parse h (delete t cond).text = parseDelete h (delete t cond).text :=
    (parse_text hu hr).trans rfl
  rw [hdispatch, lacks_iff]
  unfold parseDelete
  rw [hfind]
  cases hin : find "WHERE" (upper t) with
  | some i =>
    -- the name is cut off where the keyword begins
    refine iff_of_false (fun heq => ?_) (by simp)
    obtain ⟨tname, hname, heq⟩ := Except.of_bind_eq_ok heq
    obtain ⟨_, -, heq⟩ := Except.of_bind_eq_ok heq
    obtain ⟨_, -, heq⟩ := Except.of_bind_eq_ok heq
    rw [(Statement.delete.inj (Except.ok.inj heq)).1] at hname
    have hshort : t.length ≤ i + 12 - 12 := @length_of_cutTrim ["DELETE", "FROM"]
      (t :: condWords cond) 11 _ t (by simp) (by simp) rfl hname
    have hlt := find_upper_lt (by decide) hin
    omega
  | none =>
    refine iff_of_true ?_ rfl
    cases cond with
    | none =>
      have hname := @cutTrimFrom_words ["DELETE", "FROM"] [t] 11 hws (by simp) (.inr rfl)
      exact (Except.bind_of_ok hname).trans (by rw [spaced_singleton]; rfl)
    | some p =>
      obtain ⟨hd, hw⟩ := Bool.and_eq_true_iff.mp hcond
      have hname := @cutTrim_words ["DELETE", "FROM"] [t] (condWords (some p)) 11
        _ hws (by simp) (.inr rfl) (.inr ⟨by simp [condWords], rfl⟩)
      have hclause := @cutTrimFrom_cond p.1 p.2 hcond ["DELETE", "FROM", t]
        (fun s hs => hws s (mem_append_left _ hs)) _ rfl
      refine (Except.bind_of_ok hname).trans ((Except.bind_of_ok hclause).trans ?_)
      rw [Except.bind_of_ok (parseWhereEquality_eq hu hd hw), spaced_singleton]
      rfl

/-! ## UPDATE -/

theorem of_parseUpdate {sql t c v : Bytes} {i : Nat}
    (hset : findText "SET" (h.toUppercase sql) = some i)
    (hupdate : parseUpdate h sql = .ok (.update t c v cond)) :
    cutTrim sql 6 i = .ok t ∧ ∀ k, findText "WHERE" (h.toUppercase sql) = some k →
      ∃ sexpr, cutTrim sql (i + 3) k = .ok sexpr ∧ parseAssignment sexpr = .ok (c, v) := by
  unfold parseUpdate at hupdate
  dsimp only at hupdate
  rw [hset] at hupdate
  obtain ⟨_, hi, hupdate⟩ := Except.of_bind_eq_ok hupdate
  obtain rfl := Except.ok.inj hi
  obtain ⟨tname, hname, hupdate⟩ := Except.of_bind_eq_ok hupdate
  cases hwhere : findText "WHERE" (h.toUppercase sql) with
  | none =>
    rw [hwhere] at hupdate
    obtain ⟨sexpr, -, hupdate⟩ := Except.of_bind_eq_ok hupdate
    obtain ⟨_, -, hupdate⟩ := Except.of_bind_eq_ok hupdate
    obtain ⟨_, -, hupdate⟩ := Except.of_bind_eq_ok hupdate
    rw [(Statement.update.inj (Except.ok.inj hupdate)).1] at hname
    exact ⟨hname, nofun⟩
  | some k =>
    rw [hwhere] at hupdate
    obtain ⟨sexpr, hsexpr, hupdate⟩ := Except.of_bind_eq_ok hupdate
    obtain ⟨_, -, hupdate⟩ := Except.of_bind_eq_ok hupdate
    obtain ⟨_, -, hupdate⟩ := Except.of_bind_eq_ok hupdate
    obtain ⟨⟨_, _⟩, hpair, hupdate⟩ := Except.of_bind_eq_ok hupdate
    obtain ⟨rfl, rfl⟩ := Prod.mk.inj (Except.ok.inj hpair)
    obtain ⟨⟨col, val⟩, hassign, hupdate⟩ := Except.of_bind_eq_ok hupdate
    obtain ⟨htn, rfl, rfl, -⟩ := Statement.update.inj (Except.ok.inj hupdate)
    rw [htn] at hname
    refine ⟨hname, fun k' hk => ?_⟩
    obtain rfl := Option.some.inj hk
    exact ⟨sexpr, hsexpr, hassign⟩

/-- SET is found where it is, or inside the name of the table. -/
theorem find_set (hu : h.Upper) {t c v : Bytes}
    (hws : ∀ s ∈ (update t c v cond).words, isWord s) :
    findText "SET" (h.toUppercase (update t c v cond).text) =
      ((find "SET" (upper t)).map (· + 7)).or (some (offset ["UPDATE", t])) := by
  have hname : findIn "SET" ["UPDATE", upper t] =
      (find "SET" (upper t)).map (· + 7) :=
    findIn_behind (l := ["UPDATE"]) (by decide) _
  refine (@findText_append "SET" h hu ["UPDATE", t]
    ("SET" :: ([c, "=", v] ++ condWords cond)) hws (by decide)).trans ?_
  show (findIn _ ["UPDATE", upper t]).or (some (0 + _)) = _
  rw [hname, Nat.zero_add]

/-- WHERE is found where it is, or inside the name of the table or of the column. -/
theorem find_where (hu : h.Upper) {t c v : Bytes} (hv : isNumber v)
    (hws : ∀ s ∈ (update t c v cond).words, isWord s) :
    findText "WHERE" (h.toUppercase (update t c v cond).text) =
      ((find "WHERE" (upper t)).map (· + 7)).or
        (((find "WHERE" (upper c)).map (· + offset ["UPDATE", t, "SET"])).or
          (cond.map fun _ => offset ["UPDATE", t, "SET", c, "=", v])) := by
  have hname : findIn "WHERE" ["UPDATE", upper t, "SET"] =
      (find "WHERE" (upper t)).map (· + 7) := by
    have hset : findIn "WHERE" ["SET"] = none := by decide
    have happend := findIn_append "WHERE" ["UPDATE", upper t] ["SET"]
    rw [hset, Option.map_none, Option.or_none] at happend
    exact happend.trans (findIn_behind (l := ["UPDATE"]) (by decide) _)
  have hcol : findIn "WHERE" [upper c, "=", upper v] =
      find "WHERE" (upper c) := by
    have hnum : find "WHERE" v = none := find_of_isNumber hv (b := 87) rfl _
    have heq : find "WHERE" "=" = none := by decide
    simp only [findIn, upper_of_isNumber hv, hnum, heq, Option.map_none, Option.or_none]
  have hshape : [ofString "UPDATE", t, "SET", c, "=", v].map upper =
      [ofString "UPDATE", t, "SET"].map upper ++ [upper c, "=", upper v] := rfl
  refine (findText_append hu hws (by decide)).trans ?_
  rw [find_condWords, Option.map_map, hshape, findIn_append, hcol, offset_upper, Option.or_assoc]
  simp only [Function.comp_def, Nat.zero_add]
  exact congrArg (Option.or · _) hname

/-- UPDATE is read back exactly if SET and WHERE are not inside the table name, nor WHERE inside the
name of the column. -/
theorem parse_update_iff (hu : h.Upper) {t c v : Bytes}
    (hr : (update t c v cond).wellFormed) :
    parse h (update t c v cond).text = .ok (.update t c v cond) ↔
      (lacks "SET" t && lacks "WHERE" t && lacks "WHERE" c) := by
  have hws := isWord_words hr
  simp only [wellFormed, Bool.and_eq_true] at hr
  obtain ⟨⟨⟨ht, hc⟩, hv⟩, hcond⟩ := id hr
  have hset := find_set hu hws
  have hwhere := find_where hu hv hws
  have hdispatch : parse h (update t c v cond).text = parseUpdate h (update t c v cond).text :=
    (parse_text hu (by simpa [wellFormed] using hr)).trans rfl
  rw [hdispatch, Bool.and_eq_true, Bool.and_eq_true, lacks_iff, lacks_iff, lacks_iff]
  constructor
  · intro heq
    cases hs : find "SET" (upper t) with
    | some i =>
      rw [hs] at hset
      have hshort : t.length ≤ i + 7 - 7 := @length_of_cutTrim ["UPDATE"] _ 6 _ t (by simp)
        (cons_ne_nil t _) rfl (of_parseUpdate hset heq).1
      have hlt := find_upper_lt (by decide) hs
      omega
    | none =>
      rw [hs] at hset
      obtain ⟨-, hparts⟩ := of_parseUpdate hset heq
      have hat : offset ["UPDATE", t] = t.length + 8 := by
        show 7 + (t.length + 1) = _
        omega
      have hat' : offset ["UPDATE", t, "SET"] = t.length + 12 := by
        show 7 + (t.length + 1 + 4) = _
        omega
      have hwt : find "WHERE" (upper t) = none := by
        cases hwt : find "WHERE" (upper t) with
        | none => rfl
        | some i =>
          -- the slice from SET to WHERE goes backwards
          rw [hwt] at hwhere
          obtain ⟨sexpr, hcut, -⟩ := hparts _ hwhere
          have hle : offset ["UPDATE", t] + 3 ≤ i + 7 := (of_cutTrim hcut).1
          have hlt := find_upper_lt (by decide) hwt
          omega
      refine ⟨⟨rfl, hwt⟩, ?_⟩
      cases hwc : find "WHERE" (upper c) with
      | none => rfl
      | some i =>
        rw [hwt, hwc] at hwhere
        obtain ⟨sexpr, hcut, hassign⟩ := hparts _ hwhere
        have hshort : sexpr.length ≤ i + offset ["UPDATE", t, "SET"] - _ :=
          @length_of_cutTrim ["UPDATE", t, "SET"] ([c, "=", v] ++ condWords cond)
            _ _ sexpr (by simp) (by simp) (by omega) hcut
        have hcol := length_of_parseAssignment hassign
        have hlt := find_upper_lt (by decide) hwc
        omega
  · rintro ⟨⟨hs, hwt⟩, hwc⟩
    rw [hs, Option.map_none, Option.none_or] at hset
    rw [hwt, hwc, Option.map_none, Option.map_none, Option.none_or, Option.none_or] at hwhere
    have hname := @cutTrim_words ["UPDATE"] [t]
      ("SET" :: ([c, "=", v] ++ condWords cond)) 6 _ hws (by simp) (.inr rfl)
      (.inr ⟨by simp, rfl⟩)
    rw [spaced_singleton] at hname
    have hassign := parseAssignment_eq hc hv
    unfold parseUpdate
    dsimp only
    rw [hset, hwhere]
    refine (Except.bind_of_ok hname).trans ?_
    cases cond with
    | none =>
      have hexpr := @cutTrimFrom_words ["UPDATE", t, "SET"] [c, "=", v]
        (offset ["UPDATE", t] + 3) hws (by simp) (.inr rfl)
      rw [Option.map_none]
      exact (Except.bind_of_ok hexpr).trans ((Except.bind_of_ok hassign).trans rfl)
    | some p =>
      obtain ⟨hd, hw⟩ := Bool.and_eq_true_iff.mp hcond
      have hexpr := @cutTrim_words ["UPDATE", t, "SET"] [c, "=", v]
        (condWords (some p)) (offset ["UPDATE", t] + 3) _ hws (by simp) (.inr rfl)
        (.inr ⟨by simp [condWords], rfl⟩)
      have hclause := @cutTrimFrom_cond p.1 p.2 hcond ["UPDATE", t, "SET", c, "=", v]
        (fun s hs => hws s (mem_append_left _ hs)) _ rfl
      rw [Option.map_some]
      refine (Except.bind_of_ok hexpr).trans ((Except.bind_of_ok hclause).trans ?_)
      rw [Except.bind_of_ok (parseWhereEquality_eq hu hd hw)]
      exact (Except.bind_of_ok hassign).trans rfl

/-! ## INSERT -/

theorem parseTuples_pair {v w : Bytes} (hv : isNumber v) (hw : isNumber w) :
    parseTuples false [] (spaced [40 :: (v ++ [44]), w ++ [41]]) = .ok [[v, w]] := by
  have hshape : spaced [40 :: (v ++ [44]), w ++ [41]] = 40 :: ((v ++ 44 :: 32 :: w) ++ 41 :: []) := by
    rw [spaced_cons _ (by simp), spaced_singleton]
    simp
  have hparens : noParens (v ++ 44 :: 32 :: w) := by
    refine noParens_iff.mpr ⟨fun hm => ?_, fun hm => ?_⟩
    · simp only [mem_append, mem_cons] at hm
      rcases hm with hm | hm | hm | hm
      · exact not_mem_of_isNumber hv rfl hm
      · exact absurd hm (by decide)
      · exact absurd hm (by decide)
      · exact not_mem_of_isNumber hw rfl hm
    · simp only [mem_append, mem_cons] at hm
      rcases hm with hm | hm | hm | hm
      · exact not_mem_of_isNumber hv rfl hm
      · exact absurd hm (by decide)
      · exact absurd hm (by decide)
      · exact not_mem_of_isNumber hw rfl hm
  have hsplit : splitValuesRespectingQuotes (v ++ 44 :: 32 :: w) = .ok [v, w] := by
    have hlast : splitValues false [] (32 :: w) = .ok [w] := by
      have hplain := @splitValues_plain (32 :: w)
        (by simpa using not_mem_of_isNumber hw (b := 39) rfl)
        (by simpa using not_mem_of_isNumber hw (b := 44) rfl) [] []
      rw [append_nil, append_nil] at hplain
      rw [hplain, splitValues, if_neg Bool.false_ne_true, reverse_reverse, trim_blank_cons,
        trim_word (ordinary_number hw).1]
    unfold splitValuesRespectingQuotes
    rw [splitValues_plain (not_mem_of_isNumber hv rfl) (not_mem_of_isNumber hv rfl), splitValues,
      if_neg (by decide), if_pos rfl, hlast, append_nil, reverse_reverse,
      trim_word (ordinary_number hv).1]
    rfl
  rw [hshape, parseTuples, if_pos rfl, parseTuples_inside hparens, reverse_nil, nil_append,
    hsplit]
  rfl

/-- INSERT is read back exactly if VALUES is not inside the table name. -/
theorem parse_insert_iff (hu : h.Upper) {t v w : Bytes} (hr : (insert t v w).wellFormed) :
    parse h (insert t v w).text = .ok (.insert t [[v, w]]) ↔ lacks "VALUES" t := by
  have hws := isWord_words hr
  have hdispatch : parse h (insert t v w).text = parseInsert h (insert t v w).text :=
    (parse_text hu hr).trans rfl
  simp only [wellFormed, Bool.and_eq_true] at hr
  obtain ⟨⟨-, hv⟩, hw⟩ := hr
  have hfind : findText "VALUES" (h.toUppercase (insert t v w).text) =
      ((find "VALUES" (upper t)).map (· + 12)).or
        (some (offset ["INSERT", "INTO", t])) := by
    have hname : findIn "VALUES" ["INSERT", "INTO", upper t] =
        (find "VALUES" (upper t)).map (· + 12) :=
      findIn_behind (l := ["INSERT", "INTO"]) (by decide) _
    refine (@findText_append "VALUES" h hu ["INSERT", "INTO", t]
      ["VALUES", 40 :: (v ++ [44]), w ++ [41]] hws (by decide)).trans ?_
    show (findIn _ ["INSERT", "INTO", upper t]).or (some (0 + _)) = _
    rw [hname, Nat.zero_add]
  rw [hdispatch, lacks_iff]
  cases hin : find "VALUES" (upper t) with
  | some i =>
    rw [hin] at hfind
    refine iff_of_false (fun heq => ?_) (by simp)
    have hshort : t.length ≤ i + 12 - 12 := @length_of_cutTrim ["INSERT", "INTO"] _ 11 _ t
      (by simp) (cons_ne_nil t _) rfl (name_of_parseInsert heq hfind)
    have hlt := find_upper_lt (by decide) hin
    omega
  | none =>
    rw [hin, Option.map_none, Option.none_or] at hfind
    refine iff_of_true ?_ rfl
    have hname := @cutTrim_words ["INSERT", "INTO"] [t]
      ["VALUES", 40 :: (v ++ [44]), w ++ [41]] 11 _ hws (by simp) (.inr rfl) (.inr ⟨by simp, rfl⟩)
    have hvalues := @cutTrimFrom_words ["INSERT", "INTO", t, "VALUES"]
      [40 :: (v ++ [44]), w ++ [41]] (offset ["INSERT", "INTO", t] + 6) hws (by simp)
      (.inr rfl)
    rw [spaced_singleton] at hname
    unfold parseInsert
    rw [hfind]
    refine (Except.bind_of_ok hname).trans ((Except.bind_of_ok hvalues).trans ?_)
    exact (Except.bind_of_ok (parseTuples_pair hv hw)).trans rfl

/-! ## CREATE INDEX -/

theorem validateIdentifier_name {s : Bytes} (hs : isName s) : validateIdentifier s = .ok () := by
  obtain ⟨⟨b, rest, rfl, hb⟩, -, -⟩ := isName_iff.mp hs
  have hpre : reservedPrefix.isPrefixOf (b :: rest) = false := by
    have hne : (95 : UInt8) ≠ b := by
      rintro rfl
      exact nomatch hb
    show ((95 : UInt8) == b && _) = false
    rw [beq_eq_false_iff_ne.mpr hne, Bool.false_and]
  unfold validateIdentifier
  dsimp only
  rw [trim_word (ordinary_name hs).1, hpre]
  rfl

theorem parse_createIndex (hu : h.Upper) {c t d : Bytes} (hr : (createIndex c t d).wellFormed) :
    parse h (createIndex c t d).text = .ok (.createIndex c t [d]) := by
  have hws := isWord_words hr
  have hdispatch : parse h (createIndex c t d).text = parseCreateIndex h (createIndex c t d).text :=
    (parse_text hu hr).trans rfl
  simp only [wellFormed, Bool.and_eq_true] at hr
  obtain ⟨⟨hc, ht⟩, hd⟩ := hr
  have htw := (ordinary_name ht).1
  have hdw := (ordinary_name hd).1
  have hon : findText " ON " (h.toUppercase (createIndex c t d).text) = some (c.length + 13) := by
    -- the name of the index is not ON, so the first ON is the keyword
    have hname (rest : Bytes) : (ofString "ON ").isPrefixOf (upper c ++ 32 :: rest) = false := by
      rw [Bool.eq_false_iff, Ne, isPrefixOf_iff_prefix]
      rintro ⟨rest, hrest⟩
      obtain ⟨hON, -⟩ := append_sep_inj (x := "ON") (by decide)
        (not_mem_of_isName hc (b := 32) rfl).2 hrest
      exact (isName_iff.mp hc).2.2 (hON ▸ by decide)
    refine (congrArg (findText " ON ") (toUppercase_spaced hu hws)).trans ?_
    show find ([] ++ 32 :: "ON ") (spaced ["CREATE", "INDEX", upper c,
      "ON", upper t, upper (40 :: (d ++ [41]))]) = _
    rw [spaced_cons _ (by simp), spaced_cons _ (by simp), spaced_cons (upper c) (by simp),
      spaced_cons _ (by simp), find_across_sep (by simp) (by decide), find_across_sep (by simp) (by decide),
      hname, find_across_sep (by simp) (not_mem_of_isName hc rfl).2, length_upper]
    rfl
  have hindex := @cutTrim_words ["CREATE", "INDEX"] [c]
    ["ON", t, 40 :: (d ++ [41])] 12 (c.length + 13) hws (by simp) (.inr rfl)
    (.inl (by show _ = 7 + (6 + (c.length + 1)); omega))
  have hrest := @cutTrimFrom_words ["CREATE", "INDEX", c, "ON"]
    [t, 40 :: (d ++ [41])] (c.length + 13 + 4) hws (by simp)
    (.inl (by show _ = 7 + (6 + (c.length + 1 + 3)); omega))
  rw [spaced_singleton] at hindex
  rw [spaced_cons t (by simp), spaced_singleton] at hrest
  have hopen : findText "(" (t ++ 32 :: 40 :: (d ++ [41])) = some (t.length + 1) := by
    have hskip := @find_append_of_not_mem [] (t ++ [32]) 40
      (by simpa using (not_mem_of_isName ht (b := 40) rfl).1) (40 :: (d ++ [41]))
    rw [append_assoc] at hskip
    refine hskip.trans ?_
    have hhead : find [40] (40 :: (d ++ [41])) = some 0 := by rw [find, if_pos (by simp)]
    rw [hhead, length_append]
    simp
  have hclose : rfind 41 (t ++ 32 :: 40 :: (d ++ [41])) = some (t.length + 2 + d.length) := by
    unfold rfind
    have hrev : (t ++ 32 :: 40 :: (d ++ [41])).reverse = 41 :: (t ++ 32 :: 40 :: d).reverse := by simp
    rw [hrev]
    show some ((t ++ 32 :: 40 :: (d ++ [41])).length - 1 - 0) = _
    simp
    omega
  have htable : cutTrim (t ++ 32 :: 40 :: (d ++ [41])) 0 (t.length + 1) = .ok t := by
    have hcut := @cutTrim_append [] (t ++ [32]) (40 :: (d ++ [41]))
      (by rw [append_assoc]; exact startsChar_word htw _) rfl 0 (t.length + 1) rfl (by simp)
    rw [← trim_blank_cons, trim_pad, trim_word htw, nil_append, append_assoc] at hcut
    exact hcut
  have hcols : cutTrim (t ++ 32 :: 40 :: (d ++ [41])) (t.length + 1 + 1) (t.length + 2 + d.length)
      = .ok d := by
    have hcut := @cutTrim_append (t ++ [32, 40]) d [41] (startsChar_word hdw _) rfl (t.length + 1 + 1)
      (t.length + 2 + d.length) (by simp) (by simp)
    rw [trim_word hdw, append_assoc] at hcut
    exact hcut
  have hsplit : (splitOn 44 d).map trim = [d] := by
    rw [splitOn_of_not_mem (not_mem_of_isName hd rfl).1, map_singleton, trim_word hdw]
  rw [hdispatch]
  unfold parseCreateIndex
  rw [hon]
  refine (Except.bind_of_ok hindex).trans ((Except.bind_of_ok hrest).trans ?_)
  rw [hopen, hclose]
  refine (Except.bind_of_ok htable).trans ((Except.bind_of_ok hcols).trans ?_)
  rw [Except.bind_of_ok (validateIdentifier_name ht), hsplit]
  exact (Except.bind_of_ok (Except.bind_of_ok (validateIdentifier_name hd))).trans rfl

end Rendering

end MagnumDB
