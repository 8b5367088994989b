import MagnumDB.Sql.ParserText

/-!
# String literals in INSERT

A string that is written as a literal is read back by `split_values_respecting_quotes`, but
three other passes look at the text first and know nothing of quotation marks: the search
for UNION, the search for VALUES and the loop that takes tuples apart at parentheses. And
every value is trimmed, whether it was in quotation marks or not.
-/

namespace MagnumDB

open Text List

/-! ## The text of a statement -/

/-- A string as a literal: quotation marks are doubled. -/
def quoteBody (s : Bytes) : Bytes := s.flatMap fun b => if b = 39 then [39, 39] else [b]

def literal (s : Bytes) : Bytes := 39 :: (quoteBody s ++ [39])

def tupleBody (vals : List Bytes) : Bytes := join [44, 32] (vals.map literal)

def tupleText (vals : List Bytes) : Bytes := 40 :: (tupleBody vals ++ [41])

def tuplesText (tuples : List (List Bytes)) : Bytes := join [44, 32] (tuples.map tupleText)

def insertText (t : Bytes) (tuples : List (List Bytes)) : Bytes :=
  "INSERT INTO " ++ (t ++ (" VALUES " ++ tuplesText tuples))

/-! ## Values -/

namespace Parser

/-- Inside quotation marks everything is taken as it is. -/
theorem splitValues_quoteBody (s cur rest : Bytes) (hrest : rest.head? ≠ some 39) :
    splitValues true cur (quoteBody s ++ 39 :: rest) = splitValues false (s.reverse ++ cur) rest := by
  induction s generalizing cur with
  | nil =>
    show splitValues true cur (39 :: rest) = splitValues false cur rest
    cases rest with
    | nil =>
      conv_lhs => rw [splitValues, if_pos rfl]
    | cons b rest =>
      rw [splitValues, if_pos rfl, if_neg fun hb => hrest (congrArg some hb)]
  | cons b s ih =>
    rw [reverse_cons, append_assoc]
    by_cases hb : b = 39
    · subst hb
      show splitValues true cur (39 :: 39 :: (quoteBody s ++ 39 :: rest)) = _
      rw [splitValues, if_pos rfl, if_pos rfl]
      exact ih (39 :: cur)
    · have htext : quoteBody (b :: s) ++ 39 :: rest = b :: (quoteBody s ++ 39 :: rest) := by
        unfold quoteBody
        rw [flatMap_cons, if_neg hb]
        rfl
      rw [htext]
      -- there is always a next character, so the case of the last one does not come up
      obtain ⟨c, more, hc⟩ : ∃ c more, quoteBody s ++ 39 :: rest = c :: more := by
        cases quoteBody s with
        | nil => exact ⟨39, rest, rfl⟩
        | cons c more => exact ⟨c, more ++ 39 :: rest, rfl⟩
      rw [hc, splitValues, if_neg hb, ← hc]
      exact ih (b :: cur)

theorem splitValues_literal (s cur rest : Bytes) (hrest : rest.head? ≠ some 39) :
    splitValues false cur (literal s ++ rest) = splitValues false (s.reverse ++ cur) rest := by
  have htext : literal s ++ rest = 39 :: (quoteBody s ++ 39 :: rest) := by
    unfold literal
    rw [cons_append, append_assoc]
    rfl
  rw [htext, splitValues, if_pos rfl]
  exact splitValues_quoteBody s cur rest hrest

/-- A string as a literal with blanks before and behind it. -/
def fieldText (f : Nat × Bytes × Nat) : Bytes :=
  List.replicate f.1 32 ++ (literal f.2.1 ++ List.replicate f.2.2 32)

def fieldsText (fields : List (Nat × Bytes × Nat)) : Bytes := join [44] (fields.map fieldText)

variable {rest s : Bytes} {vals : List Bytes} {j : Nat}

theorem splitValues_field (f : Nat × Bytes × Nat) (hrest : rest.head? ≠ some 39) :
    splitValues false [] (fieldText f ++ rest) = splitValues false
      (List.replicate f.1 32 ++ (f.2.1 ++ List.replicate f.2.2 32)).reverse rest := by
  have hplain (n : Nat) (cur rest : Bytes) := @splitValues_plain (List.replicate n 32)
    (by simp) (by simp) cur rest
  have hnext : (List.replicate f.2.2 32 ++ rest).head? ≠ some 39 := by
    cases hn : f.2.2 with
    | zero => exact hrest
    | succ n => simp [replicate_succ]
  unfold fieldText
  rw [append_assoc, append_assoc, hplain, splitValues_literal _ _ _ hnext, hplain]
  simp

/-- The values are taken apart at the commas, and trimmed. -/
theorem splitValues_fields (f : Nat × Bytes × Nat) (fields : List (Nat × Bytes × Nat)) :
    splitValuesRespectingQuotes (fieldsText (f :: fields))
      = .ok ((f :: fields).map fun f => trim f.2.1) := by
  unfold splitValuesRespectingQuotes fieldsText
  induction fields generalizing f with
  | nil =>
    rw [map_singleton, join_singleton, ← append_nil (fieldText f),
      splitValues_field f (by simp), splitValues, if_neg Bool.false_ne_true, reverse_reverse,
      trim_blanks]
    rfl
  | cons g fields ih =>
    rw [map_cons, map_cons, join_cons_cons, splitValues_field f (by simp),
      singleton_append, splitValues, if_neg (by decide), if_pos rfl, ← map_cons, ih,
      reverse_reverse, trim_blanks]
    rfl

theorem tupleBody_cons (v : Bytes) (vals : List Bytes) :
    tupleBody (v :: vals) = fieldsText ((0, v, 0) :: vals.map fun w => (1, w, 0)) := by
  unfold tupleBody fieldsText
  rw [map_cons, join_comma_blank, map_cons, map_map, map_map]
  simp [fieldText, Function.comp_def, replicate_succ]

/-- The values of a tuple are read as they are, but for white space around them; an empty tuple is
read as one of an empty value. -/
def readTuple (vals : List Bytes) : List Bytes := if vals = [] then [[]] else vals.map trim

theorem splitValues_tuple (vals : List Bytes) :
    splitValuesRespectingQuotes (tupleBody vals) = .ok (readTuple vals) := by
  cases vals with
  | nil => rfl
  | cons v vals =>
    have hread := splitValues_fields (0, v, 0) (vals.map fun w => (1, w, 0))
    rw [← tupleBody_cons, map_cons, map_map] at hread
    exact hread

/-- Only a quotation mark that is open at the end is refused. -/
theorem splitValues_fails_iff (inQuotes : Bool) (current s : Bytes) :
    (∃ e, splitValues inQuotes current s = .error e) ↔ (s.count 39 + inQuotes.toNat) % 2 = 1 := by
  fun_induction splitValues inQuotes current s with
  | case1 => simp [fail]
  | case2 q cur hq => simp [hq]
  | case3 cur ih => simp [ih]
  | case4 cur ch hch ih => simp [ih, hch]
  | case5 cur rest ih => rw [ih, count_cons_self, count_cons_self]; omega
  | case6 cur next rest hnext ih => rw [ih, count_cons_self]; simp; omega
  | case7 cur ch next rest hch ih => rw [ih, count_cons_of_ne hch]
  | case8 cur rest ih => rw [ih, count_cons_self]; rfl
  | case9 cur rest hne ih =>
    rw [count_cons_of_ne hne, ← ih]
    cases splitValues false [] rest <;> simp [bind, Except.bind, pure, Except.pure]
  | case10 cur ch rest hquote hcomma ih => rw [ih, count_cons_of_ne hquote]

/-- **Splitting undoes quoting.** Strings without white space around them, written as literals with
commas between them and any blanks around each, are read back; and a text is refused exactly if it has
an odd number of quotation marks, so that the last of them opens a literal that is not closed. -/
theorem splitValues_undoes_quoting :
    (∀ fields : List (Nat × Bytes × Nat), fields ≠ [] → (∀ f ∈ fields, trim f.2.1 = f.2.1) →
      splitValuesRespectingQuotes (fieldsText fields) = .ok (fields.map fun f => f.2.1)) ∧
    ∀ input, (∃ e, splitValuesRespectingQuotes input = .error e) ↔ input.count 39 % 2 = 1 := by
  refine ⟨fun fields hne htrim => ?_, splitValues_fails_iff false []⟩
  cases fields with
  | nil => exact absurd rfl hne
  | cons f fields => rw [splitValues_fields, map_congr_left htrim]

theorem splitValues_undoes_quoting_two :
    splitValuesRespectingQuotes " 'it''s' ,''" = .ok ["it's", []] :=
  splitValues_undoes_quoting.1 [(1, "it's", 1), (0, [], 0)] (cons_ne_nil _ _) (by decide)

/-! ## Tuples -/

theorem mem_of_push {cur s' : Bytes} {ch : UInt8} (hch : ch ∈ s) (hs : ∀ b ∈ s', b ∈ s)
    (hvals : ∀ v ∈ vals, ∀ b ∈ v, b ∈ ch :: cur ∨ b ∈ s') :
    ∀ v ∈ vals, ∀ b ∈ v, b ∈ cur ∨ b ∈ s := by
  intro v hv b hb
  rcases hvals v hv b hb with hb | hb
  · rcases mem_cons.mp hb with rfl | hb
    · exact .inr hch
    · exact .inl hb
  · exact .inr (hs b hb)

theorem mem_of_splitValues {q : Bool} {cur : Bytes} (h : splitValues q cur s = .ok vals) :
    ∀ v ∈ vals, ∀ b ∈ v, b ∈ cur ∨ b ∈ s := by
  have hskip {c : UInt8} {s : Bytes} (b : UInt8) (hb : b ∈ s) : b ∈ c :: s := mem_cons_of_mem c hb
  fun_induction splitValues q cur s generalizing vals with
  | case1 => exact nomatch h
  | case2 q cur hq =>
    obtain rfl := Except.ok.inj h
    exact forall_mem_singleton.mpr fun b hb =>
      .inl (mem_reverse.mp ((sublist_trim _).subset hb))
  | case3 cur ih => exact fun v hv b hb => (ih h v hv b hb).imp_right nofun
  | case4 cur ch hch ih => exact mem_of_push mem_cons_self (fun b hb => absurd hb not_mem_nil) (ih h)
  | case5 cur rest ih => exact mem_of_push mem_cons_self (fun b hb => hskip b (hskip b hb)) (ih h)
  | case6 cur next rest hnext ih => exact fun v hv b hb => (ih h v hv b hb).imp_right (hskip b)
  | case7 cur ch next rest hch ih => exact mem_of_push mem_cons_self hskip (ih h)
  | case8 cur rest ih => exact fun v hv b hb => (ih h v hv b hb).imp_right (hskip b)
  | case9 cur rest hne ih =>
    obtain ⟨values, hvalues, hpure⟩ := Except.of_bind_eq_ok h
    obtain rfl := Except.ok.inj hpure
    refine forall_mem_cons.mpr ⟨fun b hb =>
      .inl (mem_reverse.mp ((sublist_trim _).subset hb)), fun v hv b hb => ?_⟩
    exact .inr (hskip b ((ih hvalues v hv b hb).resolve_left not_mem_nil))
  | case10 cur ch rest hquote hcomma ih => exact mem_of_push mem_cons_self hskip (ih h)

/-- No value that is read has a parenthesis. -/
theorem noParens_of_parseTuples {inParens : Bool} {cur : Bytes} {tuples : List (List Bytes)}
    (h : parseTuples inParens cur s = .ok tuples) (hcur : noParens cur) :
    ∀ vals ∈ tuples, ∀ v ∈ vals, noParens v := by
  fun_induction parseTuples inParens cur s generalizing tuples with
  | case1 =>
    obtain rfl := Except.ok.inj h
    exact nofun
  | case2 inParens cur rest ih => exact ih h rfl
  | case3 inParens cur c rest hopen hclose ih =>
    obtain ⟨vals, hvals, h⟩ := Except.of_bind_eq_ok h
    obtain ⟨more, hmore, hpure⟩ := Except.of_bind_eq_ok h
    obtain rfl := Except.ok.inj hpure
    refine forall_mem_cons.mpr ⟨fun v hv => ?_, ih hmore hcur⟩
    have hmem (b : UInt8) (hb : b ∈ v) : b ∈ cur := by
      rcases mem_of_splitValues hvals v hv b hb with hb | hb
      · exact nomatch hb
      · exact mem_reverse.mp hb
    obtain ⟨h40, h41⟩ := noParens_iff.mp hcur
    exact noParens_iff.mpr ⟨fun hb => h40 (hmem 40 hb), fun hb => h41 (hmem 41 hb)⟩
  | case4 cur c rest hopen hclose ih =>
    refine ih h (noParens_iff.mpr ?_)
    obtain ⟨h40, h41⟩ := noParens_iff.mp hcur
    rw [mem_cons, mem_cons, not_or, not_or]
    exact ⟨⟨Ne.symm hopen, h40⟩, fun he => hclose (by simp [he]), h41⟩
  | case5 inParens cur c rest hopen hclose hout ih => exact ih h hcur

theorem mem_quoteBody {b : UInt8} (hb : b ≠ 39) : b ∈ quoteBody s ↔ b ∈ s := by
  unfold quoteBody
  rw [mem_flatMap]
  constructor
  · rintro ⟨c, hc, hbc⟩
    split at hbc
    · simp at hbc
      exact absurd hbc hb
    · exact mem_singleton.mp hbc ▸ hc
  · intro hmem
    exact ⟨b, hmem, by rw [if_neg hb]; exact mem_singleton_self b⟩

theorem noParens_tupleBody (hvals : ∀ v ∈ vals, noParens v) :
    noParens (tupleBody vals) := by
  have hmem (b : UInt8) (hquote : b ≠ 39) (hglue : b ∉ ([44, 32] : Bytes))
      (hb : ∀ v ∈ vals, b ∉ v) : b ∉ tupleBody vals := by
    intro hin
    obtain ⟨p, hp, hbp⟩ := (mem_of_mem_join hin).resolve_left hglue
    obtain ⟨v, hv, rfl⟩ := mem_map.mp hp
    unfold literal at hbp
    rw [mem_cons, mem_append, mem_singleton, mem_quoteBody hquote] at hbp
    rcases hbp with h | h | h
    · exact hquote h
    · exact hb v hv h
    · exact hquote h
  exact noParens_iff.mpr
    ⟨hmem 40 (by decide) (by decide) fun v hv => (noParens_iff.mp (hvals v hv)).1,
      hmem 41 (by decide) (by decide) fun v hv => (noParens_iff.mp (hvals v hv)).2⟩

/-- Tuples without parentheses in them are read one by one. -/
theorem parseTuples_tuplesText {tuples : List (List Bytes)}
    (hparens : ∀ vals ∈ tuples, ∀ v ∈ vals, noParens v) (cur : Bytes) :
    parseTuples false cur (tuplesText tuples) = .ok (tuples.map readTuple) := by
  induction tuples generalizing cur with
  | nil => rfl
  | cons vals tuples ih =>
    obtain ⟨hvals, hrest⟩ := forall_mem_cons.mp hparens
    have hone (rest : Bytes) : parseTuples false cur (tupleText vals ++ rest)
        = (parseTuples false ((tupleBody vals).reverse ++ []) rest >>= fun more =>
          pure (readTuple vals :: more)) := by
      unfold tupleText
      rw [cons_append, append_assoc, parseTuples, if_pos rfl]
      show parseTuples true [] (tupleBody vals ++ 41 :: rest) = _
      rw [parseTuples_inside (noParens_tupleBody hvals), reverse_nil, nil_append,
        splitValues_tuple]
      rfl
    cases tuples with
    | nil =>
      have htext : tuplesText [vals] = tupleText vals ++ [] := by
        unfold tuplesText
        rw [map_singleton, join_singleton, append_nil]
      rw [htext, hone]
      rfl
    | cons vals' tuples =>
      have htext : tuplesText (vals :: vals' :: tuples)
          = tupleText vals ++ ([44, 32] ++ tuplesText (vals' :: tuples)) := by
        unfold tuplesText
        rw [map_cons, map_cons, join_cons_cons]
      rw [htext, hone, parseTuples_outside (by decide), ih hrest]
      rfl

theorem map_eq_self_iff {α : Type} {f : α → α} {l : List α} : l.map f = l ↔ ∀ a ∈ l, f a = a := by
  conv_lhs => rhs; rw [← map_id l]
  exact map_inj_left

theorem map_readTuple_eq_iff {tuples : List (List Bytes)} :
    tuples.map readTuple = tuples ↔ ∀ vals ∈ tuples, vals ≠ [] ∧ ∀ v ∈ vals, trim v = v := by
  have hone (vals : List Bytes) : readTuple vals = vals ↔ vals ≠ [] ∧ ∀ v ∈ vals, trim v = v := by
    unfold readTuple
    by_cases hvals : vals = []
    · subst hvals
      simp
    · rw [if_neg hvals, map_eq_self_iff]
      exact ⟨fun h => ⟨hvals, h⟩, fun h => h.2⟩
  rw [map_eq_self_iff]
  exact forall₂_congr fun vals _ => hone vals

/-! ## The text as a whole -/

variable {h : Host} {t : Bytes} {tuples : List (List Bytes)}

/-- An INSERT is read by `parse_insert` unless there is a UNION. -/
theorem parse_insertInto (hu : h.Upper) {sql : Bytes} (hrest : isUtf8 rest)
    (hbare : bare sql = "INSERT INTO" ++ rest) :
    (contains " UNION " (h.toUppercase ("INSERT INTO" ++ rest)) = false →
      parse h sql = parseInsert h ("INSERT INTO" ++ rest)) ∧
    (contains " UNION " (h.toUppercase ("INSERT INTO" ++ rest)) →
      ∀ t tuples, parse h sql ≠ .ok (.insert t tuples)) := by
  have hupper := @Host.Upper.keyword_append h hu "INSERT INTO" rest (by decide) hrest
  have hwith : startsWith "WITH " (h.toUppercase (bare sql)) = false := by
    rw [hbare, hupper]
    rfl
  rw [← hbare]
  constructor
  · intro hunion
    unfold parse
    rw [parseWithin_bare hwith hunion]
    rw [hbare, hupper]
    rfl
  · intro hunion t tuples heq
    obtain ⟨left, right, all, hstmt⟩ := parseWithin_union hwith hunion _ heq
    exact nomatch hstmt

theorem parseInsert_ne_nil (sql t : Bytes) : parseInsert h sql ≠ .ok (.insert t []) := by
  intro heq
  obtain ⟨_, -, heq⟩ := Except.of_bind_eq_ok heq
  obtain ⟨_, -, heq⟩ := Except.of_bind_eq_ok heq
  obtain ⟨_, -, heq⟩ := Except.of_bind_eq_ok heq
  obtain ⟨l, -, heq⟩ := Except.of_bind_eq_ok heq
  split at heq
  · exact nomatch heq
  · rename_i hne
    obtain ⟨-, rfl⟩ := Statement.insert.inj (Except.ok.inj heq)
    exact hne rfl

theorem isUtf8_quoteBody (hs : isUtf8 s) : isUtf8 (quoteBody s) := by
  obtain ⟨cs, hcs, rfl⟩ := isUtf8_iff.mp hs
  have hchars : quoteBody cs.flatten = (cs.map quoteBody).flatten := by
    clear hcs hs
    induction cs with
    | nil => rfl
    | cons c cs ih =>
      rw [flatten_cons, map_cons, flatten_cons, ← ih]
      exact flatMap_append
  rw [hchars]
  refine isUtf8_flatten fun p hp => ?_
  obtain ⟨c, hc, rfl⟩ := mem_map.mp hp
  rcases isChar_cases (hcs c hc) with ⟨b, hb, rfl⟩ | hhigh
  · refine isUtf8_ascii fun x hx => ?_
    unfold quoteBody at hx
    rw [flatMap_singleton] at hx
    split at hx
    · obtain rfl : x = 39 := by simpa using hx
      decide
    · exact mem_singleton.mp hx ▸ hb
  · -- a quotation mark is never a part of a longer character
    have hsame : quoteBody c = c := by
      conv_rhs => rw [← flatMap_singleton' c]
      refine flatMap_congr fun b hb => if_neg ?_
      rintro rfl
      exact absurd (hhigh 39 hb) (by decide)
    rw [hsame]
    exact isUtf8_iff.mpr ⟨[c], fun d hd => mem_singleton.mp hd ▸ hcs c hc, by simp⟩

theorem isUtf8_tuplesText (htuples : ∀ vals ∈ tuples, ∀ v ∈ vals, isUtf8 v) :
    isUtf8 (tuplesText tuples) := by
  refine isUtf8_join rfl fun p hp => ?_
  obtain ⟨vals, hvals, rfl⟩ := mem_map.mp hp
  have hbody : isUtf8 (tupleBody vals) := by
    refine isUtf8_join rfl fun q hq => ?_
    obtain ⟨v, hv, rfl⟩ := mem_map.mp hq
    have hquote : isUtf8 [39] := rfl
    exact @isUtf8_append [39] _ hquote (isUtf8_append (isUtf8_quoteBody (htuples vals hvals v hv)) hquote)
  have hopen : isUtf8 [40] := rfl
  have hclose : isUtf8 [41] := rfl
  exact @isUtf8_append [40] _ hopen (isUtf8_append hbody hclose)

theorem getLast?_tuplesText (hne : tuples ≠ []) : (tuplesText tuples).getLast? = some 41 := by
  induction tuples with
  | nil => exact absurd rfl hne
  | cons vals tuples ih =>
    have hone : (tupleText vals).getLast? = some 41 := by
      unfold tupleText
      rw [← cons_append, getLast?_append]
      rfl
    cases tuples with
    | nil =>
      unfold tuplesText
      rw [map_singleton, join_singleton, hone]
    | cons vals' tuples =>
      have hrest := ih (cons_ne_nil _ _)
      unfold tuplesText at hrest ⊢
      rw [map_cons, map_cons, join_cons_cons, getLast?_append, getLast?_append]
      rw [map_cons] at hrest
      rw [hrest]
      rfl

theorem tuplesText_eq_cons (hne : tuples ≠ []) : ∃ more, tuplesText tuples = 40 :: more := by
  obtain ⟨vals, rest, rfl⟩ := exists_cons_of_ne_nil hne
  unfold tuplesText
  cases rest with
  | nil =>
    rw [map_singleton, join_singleton]
    exact ⟨_, rfl⟩
  | cons vals' rest =>
    rw [map_cons, map_cons, join_cons_cons]
    exact ⟨_, rfl⟩

/-! ## The table name -/

/-- Where the keyword VALUES is found after the table name, in upper case. -/
def valuesAt (h : Host) (t : Bytes) : Option Nat :=
  findText "VALUES" (h.toUppercase (t ++ " VALUES"))

theorem toUppercase_name (hu : h.Upper) (ht : isUtf8 t) (hrest : isUtf8 rest) :
    h.toUppercase (t ++ (" VALUES" ++ rest))
      = h.toUppercase t ++ (" VALUES" ++ h.toUppercase rest) := by
  have hkw := @Host.Upper.keyword_append h hu " VALUES" rest (by decide) hrest
  have hutf : isUtf8 " VALUES" := rfl
  rw [hu.append t _ ht (isUtf8_append hutf hrest), hkw]

theorem valuesAt_eq_some (hu : h.Upper) (ht : isUtf8 t) : ∃ j, valuesAt h t = some j := by
  have htext := @toUppercase_name [] h t hu ht rfl
  have hempty : h.toUppercase [] = [] := hu.ascii [] nofun
  rw [hempty, append_nil] at htext
  unfold valuesAt
  rw [htext]
  have hsep := @find_append_sep "VALUES" 32 (by decide) (by decide) (h.toUppercase t)
    "VALUES"
  have hkw : find "VALUES" "VALUES" = some 0 := by decide
  rw [hkw] at hsep
  show ∃ j, find "VALUES" (h.toUppercase t ++ 32 :: "VALUES") = some j
  rw [hsep]
  cases find "VALUES" (h.toUppercase t) with
  | some j => exact ⟨j, rfl⟩
  | none => exact ⟨_, rfl⟩

/-- What follows does not matter for where the keyword is. -/
theorem findText_values (hu : h.Upper) (ht : isUtf8 t) (hrest : isUtf8 rest)
    (hj : valuesAt h t = some j) :
    findText "VALUES" (h.toUppercase ("INSERT INTO " ++ (t ++ (" VALUES" ++ rest))))
      = some (j + 12) := by
  have hutf : isUtf8 (t ++ (" VALUES" ++ rest)) :=
    isUtf8_append ht (isUtf8_append (show isUtf8 " VALUES" from rfl) hrest)
  have hshort := @toUppercase_name [] h t hu ht rfl
  have hempty : h.toUppercase [] = [] := hu.ascii [] nofun
  rw [hempty, append_nil] at hshort
  unfold valuesAt at hj
  rw [hshort] at hj
  rw [hu.keyword_append (by decide) hutf, toUppercase_name hu ht hrest]
  have hfind := find_append_of_some hj (h.toUppercase rest)
  rw [append_assoc] at hfind
  have hskip := @find_append_of_not_mem "ALUES" "INSERT INTO " 86 (by decide)
    (h.toUppercase t ++ (" VALUES" ++ h.toUppercase rest))
  show find (86 :: "ALUES") _ = _
  rw [hskip, show find (86 :: "ALUES") _ = some j from hfind]
  rfl

/-- If the keyword is found where it is, or one byte before, the name and the tuples are read. -/
theorem parseInsert_at (hu : h.Upper) (ht : isUtf8 t)
    (htuples : ∀ vals ∈ tuples, ∀ v ∈ vals, isUtf8 v) (hne : tuples ≠ [])
    (hj : valuesAt h t = some j) (hat : j = t.length ∨ j = t.length + 1) :
    parseInsert h (insertText t tuples) =
      (parseTuples false [] (tuplesText tuples) >>= fun l =>
        if l.isEmpty then fail .noTuple else pure (.insert (trim t) l)) := by
  have hrest : isUtf8 (32 :: tuplesText tuples) :=
    @isUtf8_append [32] _ rfl (isUtf8_tuplesText htuples)
  have hlast := getLast?_tuplesText hne
  obtain ⟨more, hhead⟩ := tuplesText_eq_cons hne
  have hfind := findText_values hu ht hrest hj
  have htext : insertText t tuples
      = "INSERT INTO " ++ (t ++ (" VALUES" ++ 32 :: tuplesText tuples)) := rfl
  -- the name is cut off with a blank before it, and perhaps one behind it
  obtain ⟨valuesPart, hname, hvalues, htuplesText⟩ : ∃ valuesPart,
      cutTrim (insertText t tuples) 11 (j + 12) = .ok (trim t) ∧
        cutTrimFrom (insertText t tuples) (j + 12 + 6) = .ok valuesPart ∧
        parseTuples false [] valuesPart = parseTuples false [] (tuplesText tuples) := by
    rcases hat with rfl | rfl
    · refine ⟨83 :: 32 :: tuplesText tuples, ?_, ?_, ?_⟩
      · rw [← trim_blank_cons t]
        exact @cutTrim_append "INSERT INTO" (32 :: t)
          (" VALUES" ++ 32 :: tuplesText tuples) rfl rfl _ _ rfl
          (by rw [length_cons]; show _ = 11 + _; omega)
      · have hsplit : insertText t tuples
            = ("INSERT INTO " ++ (t ++ " VALUE")) ++ 83 :: 32 :: tuplesText tuples := by
          rw [append_assoc, append_assoc]
          rfl
        rw [hsplit, cutTrimFrom_append rfl (by
          rw [length_append, length_append]
          show _ = 12 + (_ + 6)
          omega)]
        refine congrArg Except.ok (@trim_of_plain _ 83 41 rfl rfl rfl ?_)
        rw [getLast?_cons_cons, getLast?_cons, hlast]
        rfl
      · exact parseTuples_outside (s := [83, 32]) (by decide) _
    · refine ⟨tuplesText tuples, ?_, ?_, rfl⟩
      · rw [← trim_pad t]
        have hsplit : insertText t tuples
            = ofString "INSERT INTO" ++ ((32 :: (t ++ [32])) ++ (ofString "VALUES " ++ tuplesText tuples)) := by
          rw [cons_append, append_assoc]
          rfl
        rw [hsplit]
        exact cutTrim_append rfl rfl rfl
          (by rw [length_cons, length_append]; show _ = 11 + (_ + 1 + 1); omega)
      · have hsplit : insertText t tuples
            = ("INSERT INTO " ++ (t ++ " VALUES")) ++ 32 :: tuplesText tuples := by
          rw [append_assoc, append_assoc]
          rfl
        rw [hsplit, cutTrimFrom_append rfl (by
          rw [length_append, length_append]
          show _ = 12 + (_ + 7)
          omega), trim_blank_cons]
        exact congrArg Except.ok (@trim_of_plain _ 40 41 rfl rfl (by rw [hhead]; rfl) hlast)
  unfold parseInsert
  rw [htext, hfind, ← htext]
  show (cutTrim (insertText t tuples) 11 (j + 12) >>= _) = _
  rw [hname]
  rw [hvalues]
  show (parseTuples false [] valuesPart >>= _) = _
  rw [htuplesText]

/-- Only there is the name the one that was written. -/
theorem at_of_cutTrim
   
    (hname : cutTrim ("INSERT INTO " ++ (t ++ (" V" ++ rest))) 11 (j + 12) = .ok t) :
    j = t.length ∨ j = t.length + 1 := by
  obtain ⟨-, hcut⟩ := of_cutTrim hname
  have hdrop : ("INSERT INTO " ++ (t ++ (" V" ++ rest))).drop 11
      = 32 :: (t ++ (ofString " V" ++ rest)) := rfl
  rw [hdrop, show j + 12 - 11 = j + 1 by omega, take_succ_cons, trim_blank_cons] at hcut
  by_contra hat
  rcases Nat.lt_or_ge j t.length with hlt | hge
  · -- too short
    have hlen := (sublist_trim ((t ++ (" V" ++ rest)).take j)).length_le
    rw [← hcut, length_take] at hlen
    omega
  · -- the keyword begins inside
    have hcount := count_trim (b := 86) rfl ((t ++ (" V" ++ rest)).take j)
    obtain ⟨k, rfl⟩ : ∃ k, j = t.length + (k + 2) := ⟨j - t.length - 2, by omega⟩
    rw [← hcut, take_length_add_append, count_append] at hcount
    have hv : 0 < ((" V" ++ rest).take (k + 2)).count 86 := by
      refine count_pos_iff.mpr ?_
      show (86 : UInt8) ∈ (32 :: 86 :: rest).take (k + 2)
      rw [take_succ_cons, take_succ_cons]
      simp
    omega

end Parser

open MagnumDB.Parser

/-- The statement is read as it was written: the name does not hide the keyword VALUES, there is
no UNION in the text, and no string has parentheses or white space around it. -/
def readsBack (h : Host) (t : Bytes) (tuples : List (List Bytes)) : Bool :=
  (valuesAt h t == some t.length || valuesAt h t == some (t.length + 1)) && trim t == t &&
    !contains " UNION " (h.toUppercase (insertText t tuples)) &&
    !tuples.isEmpty && tuples.all fun vals =>
      !vals.isEmpty && vals.all fun v => noParens v && trim v == v

variable {h : Host} {t : Bytes} {tuples : List (List Bytes)}

theorem readsBack_iff :
    readsBack h t tuples ↔
      (∃ j, valuesAt h t = some j ∧ (j = t.length ∨ j = t.length + 1)) ∧ trim t = t ∧
        contains " UNION " (h.toUppercase (insertText t tuples)) = false ∧ tuples ≠ [] ∧
        (∀ vals ∈ tuples, ∀ v ∈ vals, noParens v) ∧ tuples.map readTuple = tuples := by
  unfold readsBack
  rw [map_readTuple_eq_iff]
  simp only [Bool.and_eq_true, Bool.or_eq_true, Bool.not_eq_true', beq_iff_eq, all_eq_true,
    isEmpty_eq_false_iff]
  constructor
  · rintro ⟨⟨⟨⟨hat, htrim⟩, hunion⟩, hne⟩, hall⟩
    refine ⟨?_, htrim, hunion, hne, fun vals hv v hm => ((hall vals hv).2 v hm).1,
      fun vals hv => ⟨(hall vals hv).1, fun v hm => ((hall vals hv).2 v hm).2⟩⟩
    rcases hat with hat | hat
    · exact ⟨_, hat, .inl rfl⟩
    · exact ⟨_, hat, .inr rfl⟩
  · rintro ⟨⟨j, hj, hat⟩, htrim, hunion, hne, hparens, hread⟩
    refine ⟨⟨⟨⟨?_, htrim⟩, hunion⟩, hne⟩, fun vals hv =>
      ⟨(hread vals hv).1, fun v hm => ⟨hparens vals hv v hm, (hread vals hv).2 v hm⟩⟩⟩
    rcases hat with rfl | rfl
    · exact .inl hj
    · exact .inr hj

theorem bare_insertText (hne : tuples ≠ []) : bare (insertText t tuples) = insertText t tuples := by
  refine @bare_of_plain _ 73 41 rfl rfl (by decide) rfl ?_
  unfold insertText
  rw [getLast?_append, getLast?_append, getLast?_append, getLast?_tuplesText hne]
  rfl

theorem isUtf8_insertText (ht : isUtf8 t)
    (htuples : ∀ vals ∈ tuples, ∀ v ∈ vals, isUtf8 v) :
    isUtf8 (32 :: (t ++ (" VALUES " ++ tuplesText tuples))) :=
  @isUtf8_append [32] _ rfl (isUtf8_append ht
    (isUtf8_append (show isUtf8 " VALUES " from rfl) (isUtf8_tuplesText htuples)))

/-- **String literals.** Strings in tuples are written as literals into an INSERT. The parser
gives back the statement exactly if the table name leaves VALUES where it is, nowhere in the
text is a UNION, there are tuples with values in them, and no string has a parenthesis or
white space at its ends. -/
theorem insert_read_back_iff (h : Host) (hu : h.Upper) (t : Bytes) (ht : isUtf8 t)
    (tuples : List (List Bytes)) (htuples : ∀ vals ∈ tuples, ∀ v ∈ vals, isUtf8 v) :
    parse h (insertText t tuples) = .ok (.insert t tuples) ↔ readsBack h t tuples := by
  rw [readsBack_iff]
  by_cases hne : tuples = []
  · subst hne
    constructor
    · intro heq
      -- the blank after VALUES is trimmed, and the rest is an INSERT without tuples
      have hbare : bare (insertText t []) = "INSERT INTO" ++ (32 :: (t ++ ofString " VALUES")) := by
        have htext : insertText t [] = (ofString "INSERT INTO " ++ (t ++ ofString " VALUES")) ++ [32] := by
          rw [append_assoc, append_assoc]
          rfl
        rw [htext, bare_append_blank]
        refine @bare_of_plain _ 73 83 rfl rfl (by decide) rfl ?_
        rw [getLast?_append, getLast?_append]
        rfl
      have hutf : isUtf8 (32 :: (t ++ " VALUES")) :=
        @isUtf8_append [32] _ rfl (isUtf8_append ht rfl)
      obtain ⟨hplain, hunion⟩ := parse_insertInto hu hutf hbare
      cases hc : contains " UNION "
          (h.toUppercase ("INSERT INTO" ++ (32 :: (t ++ ofString " VALUES")))) with
      | true => exact absurd heq (hunion hc t [])
      | false => exact absurd ((hplain hc).symm.trans heq) (parseInsert_ne_nil _ t)
    · exact fun hall => absurd rfl hall.2.2.2.1
  · obtain ⟨hplain, hunion⟩ := parse_insertInto hu (isUtf8_insertText ht htuples) (bare_insertText hne)
    obtain ⟨j, hj⟩ := valuesAt_eq_some hu ht
    constructor
    · intro heq
      have hc : contains " UNION " (h.toUppercase (insertText t tuples)) = false := by
        cases hc : contains " UNION " (h.toUppercase (insertText t tuples)) with
        | true => exact absurd heq (hunion hc t tuples)
        | false => rfl
      have hinsert : parseInsert h (insertText t tuples) = .ok (.insert t tuples) :=
        (hplain hc).symm.trans heq
      have hat : j = t.length ∨ j = t.length + 1 :=
        at_of_cutTrim (name_of_parseInsert hinsert (findText_values hu ht
          (@isUtf8_append [32] _ rfl (isUtf8_tuplesText htuples)) hj))
      rw [parseInsert_at hu ht htuples hne hj hat] at hinsert
      obtain ⟨l, hl, hstmt⟩ := Except.of_bind_eq_ok hinsert
      split at hstmt
      · exact nomatch hstmt
      · obtain ⟨htrim, rfl⟩ := Statement.insert.inj (Except.ok.inj hstmt)
        have hparens := noParens_of_parseTuples hl rfl
        have hread := (parseTuples_tuplesText hparens []).symm.trans hl
        exact ⟨⟨j, hj, hat⟩, htrim, hc, hne, hparens, Except.ok.inj hread⟩
    · rintro ⟨⟨j', hj', hat⟩, htrim, hc, -, hparens, hread⟩
      refine (hplain hc).trans ?_
      show parseInsert h (insertText t tuples) = _
      rw [parseInsert_at hu ht htuples hne hj' hat, parseTuples_tuplesText hparens, hread, htrim]
      show (if tuples.isEmpty then _ else _) = _
      rw [if_neg (by simpa using hne)]
      rfl

theorem insert_read_back_quotes :
    let tuples := [[ofString "it's, fine;", "VALUES"], ["", "''"]]
    parse asciiHost (insertText "notes" tuples) = .ok (.insert "notes" tuples) :=
  (insert_read_back_iff asciiHost asciiHost_upper _ (by decide) _ (by decide)).mpr (by decide +kernel)

/-- A parenthesis inside a string ends the tuple. -/
theorem smiley_not_read_back :
    parse asciiHost (insertText "notes" [["1", "thanks :)"]]) =
      .error (.error .unterminated) := by
  decide +kernel

end MagnumDB
