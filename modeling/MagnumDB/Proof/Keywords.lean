import MagnumDB.Proof.ParserTotal
import MagnumDB.Proof.StatementTexts

/-!
# Keywords inside names

SELECT has the most clauses, and all of them are found by searching: LIMIT inside the name of
the table, of the column of the condition or of the order cuts the text off there, and so does
WHERE inside the name of the table. With that, the texts of all simple statements are read back
exactly if no name has such a keyword inside.
-/

namespace MagnumDB

open Text List

namespace Parser

variable {h : Host}

/-! ## What a SELECT was read from -/

theorem length_of_cutTrim_zero {s r : Bytes} {i : Nat} (hcut : cutTrim s 0 i = .ok r) : r.length ≤ i := by
  obtain ⟨-, rfl⟩ := of_cutTrim hcut
  refine (sublist_trim _).length_le.trans ?_
  rw [length_take]
  omega

theorem of_cutTrimFrom {s r : Bytes} {i : Nat} (hcut : cutTrimFrom s i = .ok r) :
    i ≤ s.length ∧ r.length ≤ s.length - i := by
  obtain ⟨hle, rfl⟩ := of_cutTrim (show cutTrim s i s.length = .ok r from hcut)
  refine ⟨hle, (sublist_trim _).length_le.trans ?_⟩
  rw [length_take, length_drop]
  omega

theorem of_parseOrderByAndLimit {rest main : Bytes} {order : Option (Bytes × Bool)}
    {limit : Option (Nat × Nat)} (hparse : parseOrderByAndLimit h rest = .ok (main, order, limit)) :
    (∀ i, clausesAt h rest = some i → cutTrim rest 0 i = .ok main) ∧
      parseOrderBy rest (findText "ORDER BY" (h.toUppercase rest))
        (findText "LIMIT" (h.toUppercase rest)) = .ok order := by
  rw [parseOrderByAndLimit_eq] at hparse
  obtain ⟨main', hmain, hparse⟩ := Except.of_bind_eq_ok hparse
  obtain ⟨order', horder, hparse⟩ := Except.of_bind_eq_ok hparse
  obtain ⟨limit', -, hparse⟩ := Except.of_bind_eq_ok hparse
  obtain ⟨rfl, hrest⟩ := Prod.mk.inj (Except.ok.inj hparse)
  obtain ⟨rfl, -⟩ := Prod.mk.inj hrest
  refine ⟨fun i hi => ?_, horder⟩
  rw [hi] at hmain
  exact hmain

theorem length_of_parseWhereEquality {cond col val : Bytes}
    (hparse : parseWhereEquality h cond = .ok (col, val)) : col.length ≤ cond.length := by
  unfold parseWhereEquality at hparse
  cases hin : findText " IN " (h.toUppercase cond) with
  | none =>
    rw [hin] at hparse
    exact length_of_parseAssignment hparse
  | some i =>
    rw [hin] at hparse
    obtain ⟨col', hcol, hparse⟩ := Except.of_bind_eq_ok hparse
    obtain ⟨val', hval, hparse⟩ := Except.of_bind_eq_ok hparse
    obtain ⟨rfl, -⟩ := Prod.mk.inj (Except.ok.inj hparse)
    have hle := (of_cutTrimFrom hval).1
    exact (length_of_cutTrim_zero hcol).trans hle

/-- The names of a SELECT are parts of what is before the order and the limit. -/
theorem of_parseSelectPlain {parse : Bytes → Parse Statement} {rest t : Bytes}
    {cond : Option (Bytes × Bytes)} {order : Option (Bytes × Bool)} {limit : Option (Nat × Nat)}
    (hparse : parseSelectPlain h parse rest = .ok (.select t cond order limit)) :
    ∃ main, parseOrderByAndLimit h rest = .ok (main, order, limit) ∧
      (findText "WHERE" (h.toUppercase main) = none → t = main ∧ cond = none) ∧
      ∀ i, findText "WHERE" (h.toUppercase main) = some i → cutTrim main 0 i = .ok t ∧
        ∃ d w, cond = some (d, w) ∧ i + 5 + d.length ≤ main.length := by
  obtain ⟨⟨main, order', limit'⟩, hmain, hparse⟩ := Except.of_bind_eq_ok hparse
  dsimp only at hparse
  cases hwhere : findText "WHERE" (h.toUppercase main) with
  | none =>
    rw [hwhere] at hparse
    obtain ⟨rfl, rfl, rfl, rfl⟩ := Statement.select.inj (Except.ok.inj hparse)
    exact ⟨main, hmain, fun _ => ⟨rfl, rfl⟩, fun i hi => absurd (hwhere.symm.trans hi) (by simp)⟩
  | some i =>
    rw [hwhere] at hparse
    obtain ⟨tname, hname, hparse⟩ := Except.of_bind_eq_ok hparse
    obtain ⟨clause, hclause, hparse⟩ := Except.of_bind_eq_ok hparse
    split at hparse
    · -- a range
      obtain ⟨_, -, hparse⟩ := Except.of_bind_eq_ok hparse
      obtain ⟨_, -, hparse⟩ := Except.of_bind_eq_ok hparse
      exact nomatch Except.ok.inj hparse
    · obtain ⟨⟨d, w⟩, hwc, hparse⟩ := Except.of_bind_eq_ok hparse
      dsimp only at hparse
      split at hparse
      · -- a subquery
        obtain ⟨_, -, hparse⟩ := Except.of_bind_eq_ok hparse
        obtain ⟨_, -, hparse⟩ := Except.of_bind_eq_ok hparse
        exact nomatch Except.ok.inj hparse
      · obtain ⟨rfl, rfl, rfl, rfl⟩ := Statement.select.inj (Except.ok.inj hparse)
        refine ⟨main, hmain, fun hnone => absurd (hwhere.symm.trans hnone) (by simp), fun j hj => ?_⟩
        obtain rfl := Option.some.inj (hwhere.symm.trans hj)
        refine ⟨hname, d, w, rfl, ?_⟩
        obtain ⟨hle, hlen⟩ := of_cutTrimFrom hclause
        have hd := length_of_parseWhereEquality hwc
        omega

end Parser

namespace Rendering

open MagnumDB.Parser

variable {h : Host} {t : Bytes} {cond : Option (Bytes × Bytes)} {order : Option (Bytes × Bool)}
  {limit : Option (Nat × Option Nat)}

/-! ## The words of SELECT -/

/-- The table and the condition. -/
def mainWords (t : Bytes) (cond : Option (Bytes × Bytes)) : List Bytes := t :: condWords cond

/-- The words behind FROM. -/
def restWords (t : Bytes) (cond : Option (Bytes × Bytes)) (order : Option (Bytes × Bool))
    (limit : Option (Nat × Option Nat)) : List Bytes :=
  mainWords t cond ++ (orderWords order ++ limitWords limit)

theorem mainWords_ne_nil : mainWords t cond ≠ [] := cons_ne_nil _ _

theorem text_select : (select t cond order limit).text =
    spaced ([ofString "SELECT", "*", ofString "FROM"] ++ restWords t cond order limit) := by
  have hwords : (select t cond order limit).words =
      [ofString "SELECT", "*", "FROM"] ++ restWords t cond order limit := by
    show _ ++ _ ++ _ ++ _ = _
    unfold restWords mainWords
    simp
  unfold text
  rw [hwords]

/-- The words are those of names and numbers. -/
structure Clauses (t : Bytes) (cond : Option (Bytes × Bytes)) (order : Option (Bytes × Bool)) : Prop where
  name : isName t
  cond : (cond.all fun p => isName p.1 && isNumber p.2)
  order : (order.all fun p => isName p.1)

namespace Clauses

theorem of_wellFormed (hr : (select t cond order limit).wellFormed) : Clauses t cond order := by
  simp only [wellFormed, Bool.and_eq_true] at hr
  exact ⟨hr.1.1, hr.1.2, hr.2⟩

theorem ordinary (hc : Clauses t cond order) : ∀ s ∈ restWords t cond order limit, OrdinaryWord s :=
  forall_mem_append.mpr
    ⟨forall_mem_cons.mpr ⟨ordinary_name hc.name, ordinary_condWords hc.cond⟩,
      forall_mem_append.mpr ⟨ordinary_orderWords hc.order, ordinary_limitWords limit⟩⟩

theorem rest (hc : Clauses t cond order) (limit : Option (Nat × Option Nat)) :
    ∀ s ∈ restWords t cond order limit, isWord s :=
  fun s hs => (hc.ordinary s hs).1

theorem main (hc : Clauses t cond order) : ∀ s ∈ mainWords t cond, isWord s :=
  fun s hs => hc.rest none s (mem_append_left _ hs)

end Clauses

/-! ## Where the clauses are -/

/-- LIMIT is found inside the name of the table or of the column of the condition. -/
theorem find_limit_main (hc : Clauses t cond order) :
    findIn "LIMIT" ((mainWords t cond).map upper) =
      (find "LIMIT" (upper t)).or (cond.bind fun p =>
        (find "LIMIT" (upper p.1)).map (· + (t.length + 7))) := by
  cases cond with
  | none =>
    show findIn _ [upper t] = _
    simp only [findIn, Option.map_none, Option.bind_none]
  | some p =>
    obtain ⟨d, w⟩ := p
    obtain ⟨-, hw⟩ := Bool.and_eq_true_iff.mp hc.cond
    have hnum : find "LIMIT" w = none := find_of_isNumber hw (b := 76) rfl _
    have hkw : find "LIMIT" "WHERE" = none := by decide
    have heq : find "LIMIT" "=" = none := by decide
    show findIn _ [upper t, "WHERE", upper d, "=", upper w] = _
    simp only [findIn, upper_of_isNumber hw, hnum, hkw, heq, length_upper, Option.map_none, Option.or_none,
      Option.none_or, Option.map_map, Option.bind_some]
    congr 2
    funext i
    show i + (5 + 1) + (t.length + 1) = i + (t.length + 7)
    omega

theorem find_limit_order : findIn "LIMIT" ((orderWords order).map upper) =
    order.bind fun p => (find "LIMIT" (upper p.1)).map (· + 9) := by
  rcases order with _ | ⟨c, isDesc⟩
  · rfl
  · have hname := findIn_behind (k := "LIMIT") (l := ["ORDER", "BY"]) (by decide)
      (upper c)
    cases isDesc with
    | false => exact hname
    | true =>
      have hdesc : findIn "LIMIT" [ofString "DESC"] = none := by decide
      refine (findIn_append _ ([ofString "ORDER", "BY"] ++ [upper c]) ["DESC"]).trans ?_
      rw [hname, hdesc, Option.map_none, Option.or_none]
      rfl

theorem find_limit_limit :
    findIn "LIMIT" ((limitWords limit).map upper) = limit.map fun _ => 0 := by
  rcases limit with _ | ⟨n, _ | m⟩
  · rfl
  · rfl
  · rfl

/-- LIMIT is found inside a name before it is found where it is. -/
theorem find_limit (hu : h.Upper) (hc : Clauses t cond order) :
    findText "LIMIT" (h.toUppercase (spaced (restWords t cond order limit))) =
      (findIn "LIMIT" ((mainWords t cond).map upper)).or
        ((order.bind fun p => (find "LIMIT" (upper p.1)).map (· + (9 + offset (mainWords t cond)))).or
          (limit.map fun _ => offset (mainWords t cond ++ orderWords order))) := by
  refine (findText_append hu (hc.rest limit) (by decide)).trans ?_
  rw [map_append, findIn_append, find_limit_order, find_limit_limit, offset_upper, Option.map_or,
    Option.map_map, Option.map_map]
  congr 2
  · rcases order with _ | ⟨c, isDesc⟩
    · rfl
    · rw [Option.bind_some, Option.bind_some, Option.map_map]
      congr 1
      funext i
      exact Nat.add_assoc _ _ _
  · congr 1
    funext l
    show 0 + offset (orderWords order) + offset (mainWords t cond) = _
    rw [offset_append]
    omega

/-- ORDER BY and GROUP BY are not in the table and the condition. -/
theorem findPair_main {x : Bytes} (hx : x = "ORDER" ∨ x = "GROUP") :
    findPair x "BY" ((mainWords t cond).map upper) = none := by
  rcases cond with _ | ⟨d, w⟩
  · rfl
  · have hends : x.isSuffixOf "WHERE" = false ∧ x.isSuffixOf "=" = false := by
      rcases hx with rfl | rfl
      · decide
      · decide
    show findPair x "BY" [upper t, "WHERE", upper d, "=", upper w] = none
    rw [findPair_skip (.inr (by decide)), findPair_skip (.inl hends.1), findPair_skip (.inr (by decide)),
      findPair_skip (.inl hends.2)]
    rfl

theorem findPair_limit {x : Bytes} (hx : x = "ORDER" ∨ x = "GROUP") :
    findPair x "BY" ((limitWords limit).map upper) = none := by
  have hends : x.isSuffixOf "LIMIT" = false ∧ x.isSuffixOf "OFFSET" = false := by
    rcases hx with rfl | rfl
    · decide
    · decide
  rcases limit with _ | ⟨n, _ | m⟩
  · rfl
  · exact (findPair_skip (.inl hends.1)).trans rfl
  · show findPair x "BY" ["LIMIT", upper (decimal n), "OFFSET",
      upper (decimal m)] = none
    rw [findPair_skip (.inl hends.1), findPair_skip (.inr (by decide)), findPair_skip (.inl hends.2)]
    rfl

theorem head_limit : ∀ s ∈ ((limitWords limit).map upper).head?, (ofString "BY").isPrefixOf s = false := by
  rcases limit with _ | ⟨n, _ | m⟩
  · exact nofun
  · rintro s ⟨⟩
    decide
  · rintro s ⟨⟩
    decide

theorem head_tail : ∀ s ∈ ((orderWords order ++ limitWords limit).map upper).head?,
    (ofString "BY").isPrefixOf s = false := by
  rcases order with _ | ⟨c, isDesc⟩
  · exact head_limit
  · rintro s ⟨⟩
    decide

theorem find_by (hu : h.Upper) (hc : Clauses t cond order) {x : Bytes}
    (hx : x = ofString "ORDER" ∨ x = "GROUP") :
    find (x ++ 32 :: "BY") (h.toUppercase (spaced (restWords t cond order limit))) =
      (findPair x "BY" ((orderWords order ++ limitWords limit).map upper)).map
        (· + offset (mainWords t cond)) := by
  have hblank : 32 ∉ x := by
    rcases hx with rfl | rfl
    · decide
    · decide
  rw [toUppercase_spaced hu (hc.rest limit), find_pair hblank (by decide) (blank_not_mem_upper (hc.rest limit)), restWords,
    map_append, findPair_append (findPair_main hx) head_tail, offset_upper]

theorem find_order (hu : h.Upper) (hc : Clauses t cond order) :
    findText "ORDER BY" (h.toUppercase (spaced (restWords t cond order limit)))
      = order.map fun _ => offset (mainWords t cond) := by
  refine (find_by hu hc (.inl rfl)).trans ?_
  rcases order with _ | ⟨c, isDesc⟩
  · rw [show orderWords none ++ limitWords limit = limitWords limit from rfl, findPair_limit (.inl rfl)]
    rfl
  · show Option.map _ (findPair "ORDER" "BY"
      ("ORDER" :: "BY" :: _)) = _
    rw [findPair, if_pos (by decide)]
    simp

theorem find_group (hu : h.Upper) (hc : Clauses t cond order) :
    findText "GROUP BY" (h.toUppercase (spaced (restWords t cond order limit))) = none := by
  have horder : findPair "GROUP" "BY" ((orderWords order).map upper) = none := by
    rcases order with _ | ⟨c, _ | _⟩
    · rfl
    · show findPair _ _ ["ORDER", "BY", upper c] = none
      rw [findPair_skip (.inl (by decide)), findPair_skip (.inl (by decide))]
      rfl
    · show findPair _ _ ["ORDER", "BY", upper c, "DESC"] = none
      rw [findPair_skip (.inl (by decide)), findPair_skip (.inl (by decide)), findPair_skip (.inr (by decide))]
      rfl
  refine (find_by hu hc (.inr rfl)).trans ?_
  rw [map_append, findPair_append horder head_limit, findPair_limit (.inr rfl)]
  rfl

/-! ## The parser on SELECT -/

theorem parse_select_eq (hu : h.Upper) (hr : (select t cond order limit).wellFormed) :
    parse h (select t cond order limit).text
      = parseSelectPlain h (parseWithin h (select t cond order limit).text.length)
        (spaced (restWords t cond order limit)) := by
  have hc := Clauses.of_wellFormed hr
  have hrest : restWords t cond order limit ≠ [] := cons_ne_nil _ _
  have hws : ∀ s ∈ [ofString "SELECT", "*", "FROM"] ++ restWords t cond order limit,
      isWord s := forall_mem_append.mpr ⟨by decide, hc.rest limit⟩
  have hfrom : need (findText "FROM" (h.toUppercase (select t cond order limit).text)) .missingFrom = .ok 9 := by
    rw [text_select, findText_append hu hws (by decide)]
    rfl
  have htarget : cutTrim (select t cond order limit).text 6 9 = .ok "*" := by
    rw [text_select]
    exact @cutTrim_words ["SELECT"] [ofString "*"] ("FROM" :: restWords t cond order limit)
      6 9 hws (by simp) (.inr rfl) (.inr ⟨by simp, rfl⟩)
  have hbehind : cutTrimFrom (select t cond order limit).text (9 + 4)
      = .ok (spaced (restWords t cond order limit)) := by
    rw [text_select]
    exact cutTrimFrom_words hws hrest (.inr rfl)
  have hjoin : contains (ofString " JOIN ") (h.toUppercase (spaced (restWords t cond order limit))) = false :=
    contains_eq_false_of_words hu (hc.rest limit) (k := "JOIN") (by decide)
      fun s hs => (hc.ordinary s hs).2.2.2
  have hstar : h.toUppercase "*" = "*" := (hu.keyword rfl).1
  have hdispatch : parse h (select t cond order limit).text
      = parseSelect h (parseWithin h (select t cond order limit).text.length)
        (select t cond order limit).text := (parse_text hu hr).trans rfl
  rw [hdispatch]
  unfold parseSelect
  rw [Except.bind_of_ok hfrom, Except.bind_of_ok htarget, Except.bind_of_ok hbehind]
  dsimp only
  rw [hjoin, if_neg Bool.false_ne_true, find_group hu hc]
  rw [hstar, if_neg (by decide), if_neg (by decide)]

/-! ## Names that do not hide LIMIT -/

/-- No name of the text has LIMIT inside. -/
structure Unlimited (t : Bytes) (cond : Option (Bytes × Bytes)) (order : Option (Bytes × Bool)) :
    Prop where
  name : find "LIMIT" (upper t) = none
  cond : ∀ p ∈ cond, find "LIMIT" (upper p.1) = none
  order : ∀ p ∈ order, find "LIMIT" (upper p.1) = none

theorem bind_find_eq_none {α : Type} {o : Option (Bytes × α)} {kw : Bytes} {f : Nat → Nat}
    (ho : ∀ p ∈ o, find kw (upper p.1) = none) : (o.bind fun p => (find kw (upper p.1)).map f) = none := by
  cases o with
  | none => rfl
  | some p =>
    rw [Option.bind_some, ho p rfl]
    rfl

theorem Unlimited.find_limit (hl : Unlimited t cond order) (hu : h.Upper) (hc : Clauses t cond order) :
    findText "LIMIT" (h.toUppercase (spaced (restWords t cond order limit))) =
      limit.map fun _ => offset (mainWords t cond ++ orderWords order) := by
  rw [Rendering.find_limit hu hc, find_limit_main hc, hl.name, bind_find_eq_none hl.cond,
    bind_find_eq_none hl.order]
  rfl

theorem parseUnsigned_decimal (n : Nat) :
    parseUnsigned 64 (decimal n) = if n < 2 ^ 64 then some n else none := by
  have hdigits := parseDigits_decimal n
  have hplus : (43 : UInt8) ∉ decimal n := fun hm => absurd (digit_of_mem_decimal hm).1 (by decide)
  unfold parseUnsigned
  split
  · rename_i digits heq
    exact absurd (heq ▸ mem_cons_self) hplus
  · rw [hdigits]
    rfl

/-- What LIMIT and OFFSET give: numbers that are too large are no limit, or no offset. -/
def readLimit (limit : Option (Nat × Option Nat)) : Option (Nat × Nat) :=
  limit.bind fun l => if l.1 < 2 ^ 64
    then some (l.1, (l.2.bind fun m => if m < 2 ^ 64 then some m else none).getD 0) else none

theorem parseLimit_eq (hu : h.Upper) {xs : List Bytes} (hxs : ∀ s ∈ xs, isWord s) (n : Nat)
    (off : Option Nat) :
    parseLimit h (spaced (xs ++ limitWords (some (n, off)))) (some (offset xs))
      = .ok (readLimit (some (n, off))) := by
  have hn := (ordinary_number (isNumber_decimal n)).1
  have hcut {ys : List Bytes} (hys : ∀ s ∈ ys, isWord s) (hne : ys ≠ []) :
      cutTrimFrom (spaced (xs ++ ofString "LIMIT" :: ys)) (offset xs + 5) = .ok (spaced ys) := by
    have hfrom := @cutTrimFrom_words (xs ++ [ofString "LIMIT"]) ys (offset xs + 5)
      (forall_mem_append.mpr ⟨forall_mem_append.mpr ⟨hxs, by decide⟩, hys⟩) hne
      (.inr (by rw [offset_append]; rfl))
    rwa [append_assoc] at hfrom
  cases off with
  | none =>
    have hstr := @hcut [decimal n] (by simpa using hn) (by simp)
    have hoff : findText "OFFSET" (decimal n) = none := find_of_isNumber (isNumber_decimal n) (b := 79) rfl _
    rw [spaced_singleton] at hstr
    refine (Except.bind_of_ok hstr).trans ?_
    rw [toUppercase_number hu (isNumber_decimal n), hoff]
    show Except.ok ((parseUnsigned 64 (decimal n)).map _) = _
    rw [parseUnsigned_decimal]
    unfold readLimit
    rw [Option.bind_some]
    split
    · rfl
    · rfl
  | some m =>
    have hwords : ∀ s ∈ [decimal n, "OFFSET", decimal m], isWord s := by
      simp only [forall_mem_cons, not_mem_nil, false_implies, implies_true, and_true]
      exact ⟨hn, by decide, (ordinary_number (isNumber_decimal m)).1⟩
    have hfind : findText "OFFSET" (h.toUppercase (spaced [decimal n, "OFFSET", decimal m]))
        = some (offset [decimal n]) := by
      have hnum : find (ofString "OFFSET") (decimal n) = none :=
        find_of_isNumber (isNumber_decimal n) (b := 79) rfl _
      refine (@findText_append "OFFSET" h hu [decimal n] ["OFFSET", decimal m] hwords
        (by decide)).trans ?_
      rw [map_singleton, upper_of_isNumber (isNumber_decimal n), findIn, hnum]
      show some (0 + offset [decimal n]) = _
      rw [Nat.zero_add]
    have hlimit := @cutTrim_words [] [decimal n] ["OFFSET", decimal m] 0 (offset [decimal n]) hwords
      (by simp) (.inl rfl) (.inr ⟨by simp, rfl⟩)
    have hoffset := @cutTrimFrom_words [decimal n, "OFFSET"] [decimal m] (offset [decimal n] + 6)
      hwords (by simp) (.inr rfl)
    rw [spaced_singleton] at hlimit hoffset
    refine (Except.bind_of_ok (hcut hwords (by simp))).trans ?_
    rw [hfind]
    refine (Except.bind_of_ok hlimit).trans ((Except.bind_of_ok hoffset).trans ?_)
    show Except.ok ((parseUnsigned 64 (decimal n)).map fun limit =>
      (limit, ((parseUnsigned 64 (decimal m)).getD 0))) = _
    rw [parseUnsigned_decimal, parseUnsigned_decimal]
    unfold readLimit
    rw [Option.bind_some, Option.bind_some]
    by_cases hlt : n < 2 ^ 64
    · rw [if_pos hlt, if_pos hlt]
      rfl
    · rw [if_neg hlt, if_neg hlt]
      rfl

/-- The words after ORDER BY. -/
def orderTail (p : Bytes × Bool) : List Bytes := p.1 :: if p.2 then ["DESC"] else []

theorem orderWords_some (p : Bytes × Bool) :
    orderWords (some p) = [ofString "ORDER", "BY"] ++ orderTail p := rfl

theorem limitWords_ne_nil (l : Nat × Option Nat) : limitWords (some l) ≠ [] := by
  rcases l with ⟨n, _ | m⟩
  · exact cons_ne_nil _ _
  · exact cons_ne_nil _ _

theorem parseOrderBy_eq {p : Bytes × Bool} {xs : List Bytes}
    (hws : ∀ s ∈ xs ++ (orderWords (some p) ++ limitWords limit), isWord s) :
    parseOrderBy (spaced (xs ++ (orderWords (some p) ++ limitWords limit))) (some (offset xs))
      (limit.map fun _ => offset (xs ++ orderWords (some p))) = .ok (some p) := by
  have htail : ∀ s ∈ orderTail p, isWord s := by
    intro s hs
    refine hws s (mem_append_right _ (mem_append_left _ ?_))
    rw [orderWords_some]
    exact mem_append_right _ hs
  have hend (j : Nat) (hj : j + 1 = offset (xs ++ orderWords (some p)) ∨
      limitWords limit ≠ [] ∧ j = offset (xs ++ orderWords (some p))) :
      cutTrim (spaced (xs ++ (orderWords (some p) ++ limitWords limit))) (offset xs + 8) j
        = .ok (spaced (orderTail p)) := by
    have hcut := @cutTrim_words (xs ++ [ofString "ORDER", "BY"]) (orderTail p) (limitWords limit)
      (offset xs + 8) j (by rwa [orderWords_some, append_assoc, ← append_assoc] at hws)
      (cons_ne_nil _ _) (.inr (by rw [offset_append]; rfl))
      (by rwa [orderWords_some, ← append_assoc] at hj)
    rwa [append_assoc, ← append_assoc _ (orderTail p), ← orderWords_some] at hcut
  have hstr : cutTrim (spaced (xs ++ (orderWords (some p) ++ limitWords limit))) (offset xs + 8)
      (((limit.map fun _ => offset (xs ++ orderWords (some p))).filter
        fun l => decide (offset xs < l)).getD
          (spaced (xs ++ (orderWords (some p) ++ limitWords limit))).length) = .ok (spaced (orderTail p)) := by
    cases limit with
    | none =>
      refine hend _ (.inl ?_)
      rw [show limitWords none = [] from rfl, append_nil]
      exact length_spaced (by simp [orderWords])
    | some l =>
      have hlonger : offset xs < offset (xs ++ orderWords (some p)) := by
        rw [offset_append, orderWords_some, cons_append, offset_cons]
        omega
      rw [Option.map_some, Option.filter_some, if_pos (decide_eq_true hlonger), Option.getD_some]
      exact hend _ (.inr ⟨limitWords_ne_nil l, rfl⟩)
  unfold parseOrderBy
  dsimp only
  rw [Except.bind_of_ok hstr, splitWhitespace_spaced htail]
  obtain ⟨c, isDesc⟩ := p
  cases isDesc with
  | false => rfl
  | true =>
    rfl

theorem Unlimited.parseOrderByAndLimit_eq (hl : Unlimited t cond order) (hu : h.Upper)
    (hc : Clauses t cond order) :
    parseOrderByAndLimit h (spaced (restWords t cond order limit))
      = .ok (spaced (mainWords t cond), order, readLimit limit) := by
  have hws := hc.rest limit
  have hassoc : restWords t cond order limit = (mainWords t cond ++ orderWords order) ++ limitWords limit :=
    (append_assoc _ _ _).symm
  have horder : parseOrderBy (spaced (restWords t cond order limit))
      (order.map fun _ => offset (mainWords t cond))
      (limit.map fun _ => offset (mainWords t cond ++ orderWords order)) = .ok order := by
    cases order with
    | none => rfl
    | some p => exact parseOrderBy_eq hws
  have hlimit : parseLimit h (spaced (restWords t cond order limit))
      (limit.map fun _ => offset (mainWords t cond ++ orderWords order)) = .ok (readLimit limit) := by
    rw [hassoc] at hws ⊢
    cases limit with
    | none => rfl
    | some l => exact parseLimit_eq hu (fun s hs => hws s (mem_append_left _ hs)) l.1 l.2
  -- the clauses begin behind the condition, if there are any
  have hmain : (clausesAt h (spaced (restWords t cond order limit))).elim
      (pure (spaced (restWords t cond order limit))) (cutTrim (spaced (restWords t cond order limit)) 0)
        = .ok (spaced (mainWords t cond)) := by
    have hcut (hne : orderWords order ++ limitWords limit ≠ []) :=
      @cutTrim_words [] (mainWords t cond) (orderWords order ++ limitWords limit) 0 (offset (mainWords t cond))
        hws mainWords_ne_nil (.inl rfl) (.inr ⟨hne, rfl⟩)
    unfold clausesAt
    rw [find_order hu hc, hl.find_limit hu hc]
    rcases order with _ | p
    · rcases limit with _ | l
      · show Except.ok (spaced (mainWords t cond ++ [])) = _
        rw [append_nil]
      · refine Eq.trans ?_ (hcut (limitWords_ne_nil l))
        show cutTrim _ 0 (offset (mainWords t cond ++ [])) = _
        rw [append_nil]
        rfl
    · refine Eq.trans ?_ (hcut (cons_ne_nil _ _))
      rcases limit with _ | l
      · rfl
      · show cutTrim _ 0 (min (offset (mainWords t cond)) (offset (mainWords t cond ++ orderWords (some p)))) = _
        rw [offset_append, Nat.min_eq_left (Nat.le_add_right _ _)]
        rfl
  rw [Parser.parseOrderByAndLimit_eq, Except.bind_of_ok hmain, find_order hu hc, hl.find_limit hu hc,
    Except.bind_of_ok horder, Except.bind_of_ok hlimit]
  rfl

theorem find_where_main (hu : h.Upper) (hc : Clauses t cond order) :
    findText "WHERE" (h.toUppercase (spaced (mainWords t cond)))
      = (find "WHERE" (upper t)).or (cond.map fun _ => t.length + 1) := by
  rw [findText_spaced hu hc.main (by decide), mainWords, map_cons, findIn, find_condWords, length_upper,
    Option.map_map]
  simp only [Function.comp_def, Nat.zero_add]

theorem findOp_equality {d w : Bytes} (hd : isName d) (hw : isNumber w) :
    findOp [">=", "<=", ">", "<"] (spaced [d, "=", w]) = none := by
  have hnot (b : UInt8) (hnoName : isNameByte b = false) (hnoNumber : isNumberByte b = false)
      (hother : b ≠ 61 ∧ b ≠ 32) (more : Bytes) : find (b :: more) (spaced [d, "=", w]) = none := by
    refine find_eq_none_iff.mpr fun hin => ?_
    rcases mem_spaced (hin.subset mem_cons_self) with hb | ⟨s, hs, hb⟩
    · exact hother.2 hb
    · simp only [mem_cons, not_mem_nil, or_false] at hs
      rcases hs with rfl | rfl | rfl
      · exact (not_mem_of_isName hd hnoName).1 hb
      · exact hother.1 (mem_singleton.mp hb)
      · exact not_mem_of_isNumber hw hnoNumber hb
  have hgt (more : Bytes) := hnot 62 rfl rfl (by decide) more
  have hlt (more : Bytes) := hnot 60 rfl rfl (by decide) more
  unfold findOp
  simp only [List.findSome?]
  rw [show findText ">=" _ = none from hgt [61], show findText "<=" _ = none from hlt [61],
    show findText ">" _ = none from hgt [], show findText "<" _ = none from hlt []]
  rfl

theorem Unlimited.parseSelectPlain_eq (hl : Unlimited t cond order) (hu : h.Upper)
    (hc : Clauses t cond order) (hwhere : find "WHERE" (upper t) = none)
    (parse : Bytes → Parse Statement) :
    parseSelectPlain h parse (spaced (restWords t cond order limit))
      = .ok (.select t cond order (readLimit limit)) := by
  unfold parseSelectPlain
  rw [Except.bind_of_ok (hl.parseOrderByAndLimit_eq hu hc)]
  dsimp only
  rw [find_where_main hu hc, hwhere, Option.none_or]
  rcases cond with _ | ⟨d, w⟩
  · show Except.ok (Statement.select (spaced [t]) none order (readLimit limit)) = _
    rw [spaced_singleton]
  · obtain ⟨hd, hw⟩ := Bool.and_eq_true_iff.mp hc.cond
    have hname := @cutTrim_words [] [t] (condWords (some (d, w))) 0 (t.length + 1) hc.main (by simp) (.inl rfl)
      (.inr ⟨by simp [condWords], by simp⟩)
    have hclause := @cutTrimFrom_cond d w hc.cond [t] (fun s hs => hc.main s (mem_append_left _ hs))
      (t.length + 1 + 5) (by simp)
    have hnotIn : startsWith "IN (SELECT" (h.toUppercase w) = false := by
      rw [toUppercase_number hu hw, Bool.eq_false_iff]
      intro hpre
      have hin := ( isPrefixOf_iff_prefix.mp hpre).subset (mem_cons_self (a := 73))
      exact not_mem_of_isNumber hw rfl hin
    rw [spaced_singleton] at hname
    refine (Except.bind_of_ok hname).trans ((Except.bind_of_ok hclause).trans ?_)
    rw [findOp_equality hd hw]
    refine (Except.bind_of_ok (parseWhereEquality_eq hu hd hw)).trans ?_
    rw [hnotIn, Bool.false_and, if_neg Bool.false_ne_true]
    rfl

/-! ## Names that hide LIMIT -/

theorem length_head_words {n : Nat} {s w : Bytes} (hw : (Text.words n s).head? = some w) :
    w.length ≤ s.length := by
  cases n with
  | zero => simp [Text.words] at hw
  | succ n =>
    rw [Text.words] at hw
    split at hw
    · simp at hw
    · obtain rfl := Option.some.inj hw
      rw [length_take]
      have hle : (trimStart s).length ≤ s.length := (sublist_dropSpaces _ _ s).length_le
      omega

/-- The text is cut off where LIMIT is found, or before. -/
theorem length_le_limit {rest main : Bytes} {order' : Option (Bytes × Bool)} {limit' : Option (Nat × Nat)}
    {i : Nat} (hparse : parseOrderByAndLimit h rest = .ok (main, order', limit'))
    (hlimit : findText "LIMIT" (h.toUppercase rest) = some i) : main.length ≤ i := by
  obtain ⟨hfirst, -⟩ := of_parseOrderByAndLimit hparse
  unfold clausesAt at hfirst
  rw [hlimit] at hfirst
  cases horder : findText "ORDER BY" (h.toUppercase rest) with
  | none =>
    rw [horder] at hfirst
    exact length_of_cutTrim_zero (hfirst i rfl)
  | some o =>
    rw [horder] at hfirst
    exact (length_of_cutTrim_zero (hfirst (min o i) rfl)).trans (Nat.min_le_right _ _)

theorem length_le_order {p : Bytes × Bool} {xs ys : List Bytes} (hy : ys ≠ []) {i : Nat}
    (hparse : parseOrderBy (spaced (xs ++ ([ofString "ORDER", "BY"] ++ ys))) (some (offset xs))
      (some (i + (9 + offset xs))) = .ok (some p)) : p.1.length ≤ i := by
  unfold parseOrderBy at hparse
  dsimp only at hparse
  obtain ⟨str, hstr, hparse⟩ := Except.of_bind_eq_ok hparse
  rw [Option.filter_some, if_pos (decide_eq_true (by omega)), Option.getD_some, ← append_assoc] at hstr
  have hend : offset (xs ++ [ofString "ORDER", "BY"]) = offset xs + 9 := offset_append _ _
  have hlen := length_of_cutTrim (by simp) hy (by omega) hstr
  obtain ⟨col, hcol, rfl⟩ := Option.map_eq_some_iff.mp (Except.ok.inj hparse)
  have hle := length_head_words hcol
  show col.length ≤ i
  omega

/-- A SELECT that is read back has no LIMIT inside its names. -/
theorem unlimited_of_parse (hu : h.Upper) (hc : Clauses t cond order) {parse : Bytes → Parse Statement}
    {limit' : Option (Nat × Nat)}
    (hparse : parseSelectPlain h parse (spaced (restWords t cond order limit))
      = .ok (.select t cond order limit')) : Unlimited t cond order := by
  obtain ⟨main, hmain, hnone, hsome⟩ := of_parseSelectPlain hparse
  have hfind := @find_limit h t cond order limit hu hc
  rw [find_limit_main hc] at hfind
  -- the names together are not longer than what is left of the text
  have hlength : t.length ≤ main.length ∧ ∀ p ∈ cond, t.length + 5 + p.1.length ≤ main.length := by
    cases hwhere : findText "WHERE" (h.toUppercase main) with
    | none =>
      obtain ⟨rfl, rfl⟩ := hnone hwhere
      exact ⟨le_rfl, nofun⟩
    | some i =>
      obtain ⟨hname, d, w, rfl, hle⟩ := hsome i hwhere
      have hlen := length_of_cutTrim_zero hname
      refine ⟨by omega, fun p hp => ?_⟩
      obtain rfl := Option.some.inj hp
      show t.length + 5 + d.length ≤ main.length
      omega
  have hname : find "LIMIT" (upper t) = none := by
    cases hin : find (ofString "LIMIT") (upper t) with
    | none => rfl
    | some i =>
      rw [hin] at hfind
      have hle := length_le_limit hmain hfind
      have hlt := find_upper_lt (by decide) hin
      omega
  have hcond : ∀ p ∈ cond, find "LIMIT" (upper p.1) = none := by
    intro p hp
    obtain rfl := Option.mem_def.mp hp
    cases hin : find "LIMIT" (upper p.1) with
    | none => rfl
    | some i =>
      rw [hname, Option.bind_some, hin] at hfind
      have hle : main.length ≤ i + (t.length + 7) := length_le_limit hmain hfind
      have hlen : i + 5 ≤ (upper p.1).length := find_add_length_le hin
      have hshort := hlength.2 p rfl
      rw [length_upper] at hlen
      omega
  refine ⟨hname, hcond, fun p hp => ?_⟩
  obtain rfl := Option.mem_def.mp hp
  cases hin : find "LIMIT" (upper p.1) with
  | none => rfl
  | some i =>
    rw [hname, bind_find_eq_none hcond, Option.bind_some, hin] at hfind
    have horder := (of_parseOrderByAndLimit hmain).2
    rw [find_order hu hc, hfind] at horder
    have hshort := @length_le_order p _ (orderTail p ++ limitWords limit) (cons_ne_nil _ _) _ horder
    have hlt := find_upper_lt (by decide) hin
    omega

theorem readLimit_eq_iff :
    readLimit limit = limit.map (fun l => (l.1, l.2.getD 0)) ↔
      (limit.all fun l => decide (l.1 < 2 ^ 64) && l.2.all fun m => decide (m < 2 ^ 64)) := by
  rcases limit with _ | ⟨n, off⟩
  · exact ⟨fun _ => rfl, fun _ => rfl⟩
  · unfold readLimit
    rw [Option.bind_some, Option.map_some]
    show _ ↔ (decide (n < 2 ^ 64) && off.all fun m => decide (m < 2 ^ 64))
    rw [Bool.and_eq_true, decide_eq_true_eq]
    by_cases hn : n < 2 ^ 64
    · rw [if_pos hn, Option.some.injEq, Prod.mk.injEq]
      rcases off with _ | m
      · exact ⟨fun _ => ⟨hn, rfl⟩, fun _ => ⟨rfl, rfl⟩⟩
      · show (n = n ∧ (if m < 2 ^ 64 then some m else none).getD 0 = m) ↔ _ ∧ decide (m < 2 ^ 64)
        rw [decide_eq_true_eq]
        by_cases hm : m < 2 ^ 64
        · rw [if_pos hm]
          exact ⟨fun _ => ⟨hn, hm⟩, fun _ => ⟨rfl, rfl⟩⟩
        · rw [if_neg hm]
          refine ⟨fun he => ?_, fun he => absurd he.2 hm⟩
          have hzero : 0 = m := he.2
          omega
    · rw [if_neg hn]
      exact ⟨nofun, fun he => absurd he.1 hn⟩

/-- SELECT is read back exactly if WHERE and LIMIT are not inside the table name, LIMIT not inside
the other names, and the numbers are not too large. -/
theorem parse_select_iff (hu : h.Upper) (hr : (select t cond order limit).wellFormed) :
    parse h (select t cond order limit).text = .ok (select t cond order limit).statement ↔
      (select t cond order limit).apart := by
  have hc := Clauses.of_wellFormed hr
  rw [parse_select_eq hu hr]
  have hapart : (select t cond order limit).apart ↔
      find "WHERE" (upper t) = none ∧ Unlimited t cond order ∧
        readLimit limit = limit.map (fun l => (l.1, l.2.getD 0)) := by
    rw [readLimit_eq_iff]
    simp only [apart, Bool.and_eq_true, lacks_iff, Option.all_eq_true]
    constructor
    · rintro ⟨⟨⟨⟨hwhere, hname⟩, hcond⟩, horder⟩, hnumbers⟩
      exact ⟨hwhere, ⟨hname, hcond, horder⟩, hnumbers⟩
    · rintro ⟨hwhere, hl, hnumbers⟩
      exact ⟨⟨⟨⟨hwhere, hl.name⟩, hl.cond⟩, hl.order⟩, hnumbers⟩
  rw [hapart]
  constructor
  · intro hparse
    have hl := unlimited_of_parse hu hc hparse
    obtain ⟨main, hmain, -, hsome⟩ := of_parseSelectPlain hparse
    obtain ⟨rfl, hrest⟩ := Prod.mk.inj (Except.ok.inj ((hl.parseOrderByAndLimit_eq hu hc).symm.trans hmain))
    refine ⟨?_, hl, (Prod.mk.inj hrest).2⟩
    cases hin : find "WHERE" (upper t) with
    | none => rfl
    | some i =>
      have hfind := find_where_main hu hc
      rw [hin] at hfind
      have hshort := length_of_cutTrim_zero (hsome i hfind).1
      have hlt := find_upper_lt (by decide) hin
      omega
  · rintro ⟨hwhere, hl, hnumbers⟩
    rw [hl.parseSelectPlain_eq hu hc hwhere, hnumbers]
    rfl

end Rendering

/-- **Keywords inside names.** The text of an UPDATE, DELETE, INSERT, CREATE INDEX or SELECT of names
and numbers, with any of its optional clauses, is parsed to the statement exactly if no name has a
keyword inside that the parser takes for a clause, and LIMIT and OFFSET are below `2 ^ 64`. -/
theorem rendered_read_back_iff (h : Host) (hu : h.Upper) (r : Rendering) (hr : r.wellFormed) :
    Parser.parse h r.text = .ok r.statement ↔ r.apart := by
  cases r with
  | update t c v cond => exact Rendering.parse_update_iff hu hr
  | delete t cond => exact Rendering.parse_delete_iff hu hr
  | insert t v w => exact Rendering.parse_insert_iff hu hr
  | createIndex c t d => exact iff_of_true (Rendering.parse_createIndex hu hr) rfl
  | select t cond order limit => exact Rendering.parse_select_iff hu hr

theorem rendered_read_back_players :
    Parser.parse asciiHost "SELECT * FROM players WHERE team = 7 ORDER BY score DESC LIMIT 10 OFFSET 20"
      = .ok (.select "players" (some ("team", "7"))
        (some ("score", true)) (some (10, 20))) :=
  (rendered_read_back_iff asciiHost asciiHost_upper (.select "players"
    (some ("team", "7")) (some ("score", true)) (some (10, some 20)))
    (by decide +kernel)).mpr (by decide +kernel)

/-- The name of the table has SET inside. -/
theorem assets_not_read_back :
    Parser.parse asciiHost "UPDATE assets SET price = 5"
      = .ok (.update "as" "s SET price" "5" none) := by
  decide +kernel

end MagnumDB
