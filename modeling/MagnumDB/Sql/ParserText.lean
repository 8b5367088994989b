import MagnumDB.Lib.Utf8
import MagnumDB.Sql.AsciiHost
import MagnumDB.Sql.ParserNames

/-!
# Texts that are made for the parser

How `Parser::parse` comes to the part that reads a statement: the text as it is after
trimming, in upper case, and by which keyword it begins.
-/

namespace MagnumDB

open Text List

/-- What is asked of upper case: it is taken character by character, and by the ASCII table where
the characters are ASCII. -/
structure Host.Upper (h : Host) : Prop where
  append : ∀ s t, isUtf8 s → isUtf8 t →
    h.toUppercase (s ++ t) = h.toUppercase s ++ h.toUppercase t
  ascii : ∀ s, (∀ b ∈ s, b < 0x80) → h.toUppercase s = s.map asciiUpper

theorem asciiHost_upper : asciiHost.Upper where
  append _ _ _ _ := map_append
  ascii _ _ := rfl

variable {h : Host}

/-- A text that is ASCII and in upper case already. -/
def isKeyword (s : Bytes) : Bool := s.all (· < 0x80) && s.map asciiUpper == s

theorem Host.Upper.keyword (hu : h.Upper) {kw : Bytes} (hkw : isKeyword kw) :
    h.toUppercase kw = kw ∧ isUtf8 kw := by
  obtain ⟨hall, hsame⟩ := Bool.and_eq_true_iff.mp hkw
  have hascii : ∀ b ∈ kw, b < 0x80 := fun b hb => of_decide_eq_true (all_eq_true.mp hall b hb)
  exact ⟨(hu.ascii kw hascii).trans (beq_iff_eq.mp hsame), isUtf8_ascii hascii⟩

theorem Host.Upper.keyword_append (hu : h.Upper) {kw s : Bytes} (hkw : isKeyword kw)
    (hs : isUtf8 s) : h.toUppercase (kw ++ s) = kw ++ h.toUppercase s := by
  obtain ⟨hsame, hutf⟩ := hu.keyword hkw
  rw [hu.append kw s hutf hs, hsame]

namespace Parser

/-! ## Slices of texts that are put together -/

theorem cut_append {a b c : Bytes} (hb : startsChar (b ++ c)) (hc : startsChar c)
    {i j : Nat} (hi : i = a.length) (hj : j = a.length + b.length) :
    cut (a ++ (b ++ c)) i j = .ok b := by
  unfold cut
  rw [hi, hj, slice?_append hb hc]
  rfl

theorem cutTrim_append {a b c : Bytes} (hb : startsChar (b ++ c)) (hc : startsChar c)
    {i j : Nat} (hi : i = a.length) (hj : j = a.length + b.length) :
    cutTrim (a ++ (b ++ c)) i j = .ok (trim b) := by
  unfold cutTrim
  rw [cut_append hb hc hi hj]
  rfl

theorem cutTrimFrom_append {a b : Bytes} (hb : startsChar b) {i : Nat} (hi : i = a.length) :
    cutTrimFrom (a ++ b) i = .ok (trim b) := by
  have hcut := @cut_append a b [] (by rwa [append_nil]) rfl i (a ++ b).length hi
    length_append
  rw [append_nil] at hcut
  unfold cutTrimFrom cutFrom
  rw [hcut]
  rfl

theorem of_cut {s r : Bytes} {a b : Nat} (hcut : cut s a b = .ok r) :
    a ≤ b ∧ r = (s.drop a).take (b - a) := by
  unfold cut slice? at hcut
  split at hcut
  · rename_i hok
    simp only [Bool.and_eq_true, decide_eq_true_eq] at hok
    exact ⟨hok.1.1, (Except.ok.inj hcut).symm⟩
  · exact nomatch hcut

theorem of_cutTrim {s r : Bytes} {a b : Nat} (hcut : cutTrim s a b = .ok r) :
    a ≤ b ∧ r = trim ((s.drop a).take (b - a)) := by
  unfold cutTrim at hcut
  cases hc : cut s a b with
  | error e =>
    rw [hc] at hcut
    exact nomatch hcut
  | ok x =>
    rw [hc] at hcut
    obtain ⟨hle, rfl⟩ := of_cut hc
    exact ⟨hle, (Except.ok.inj hcut).symm⟩

/-! ## Tuples -/

/-- A text without parentheses. -/
def noParens (s : Bytes) : Bool := !s.contains 40 && !s.contains 41

theorem noParens_iff {s : Bytes} : noParens s ↔ 40 ∉ s ∧ 41 ∉ s := by
  unfold noParens
  simp

/-- Values without quotation marks are what is between the commas. -/
theorem splitValues_plain {s : Bytes} (hquote : 39 ∉ s) (hcomma : 44 ∉ s) (cur rest : Bytes) :
    splitValues false cur (s ++ rest) = splitValues false (s.reverse ++ cur) rest := by
  induction s generalizing cur with
  | nil => rfl
  | cons b s ih =>
    rw [mem_cons, not_or] at hquote hcomma
    rw [cons_append, splitValues, if_neg (Ne.symm hquote.1), if_neg (Ne.symm hcomma.1),
      ih hquote.2 hcomma.2, reverse_cons, append_assoc]
    rfl

theorem parseTuples_outside {cur s : Bytes} (hs : 40 ∉ s) (rest : Bytes) :
    parseTuples false cur (s ++ rest) = parseTuples false cur rest := by
  induction s with
  | nil => rfl
  | cons c s ih =>
    obtain ⟨hc, hs⟩ := not_or.mp (fun h => hs (mem_cons.mpr h))
    rw [cons_append, parseTuples, if_neg (Ne.symm hc), if_neg (by simp),
      if_neg Bool.false_ne_true, ih hs]

/-- Inside parentheses the text is collected up to the closing one. -/
theorem parseTuples_inside {cur s : Bytes} (hs : noParens s) (rest : Bytes) :
    parseTuples true cur (s ++ 41 :: rest) =
      (splitValuesRespectingQuotes (cur.reverse ++ s) >>= fun vals =>
        parseTuples false (s.reverse ++ cur) rest >>= fun more => pure (vals :: more)) := by
  induction s generalizing cur with
  | nil =>
    rw [nil_append, parseTuples, if_neg (by decide), if_pos rfl, append_nil]
    rfl
  | cons c s ih =>
    obtain ⟨h40, h41⟩ := noParens_iff.mp hs
    rw [mem_cons, not_or] at h40 h41
    rw [cons_append, parseTuples, if_neg (Ne.symm h40.1), if_neg (by simpa using Ne.symm h41.1),
      if_pos rfl, ih (noParens_iff.mpr ⟨h40.2, h41.2⟩), reverse_cons, reverse_cons,
      append_assoc, append_assoc]
    rfl

/-- The table name of an INSERT is what is before the keyword. -/
theorem name_of_parseInsert {sql t : Bytes} {l : List (List Bytes)} {i : Nat}
    (hinsert : parseInsert h sql = .ok (.insert t l))
    (hfind : findText "VALUES" (h.toUppercase sql) = some i) : cutTrim sql 11 i = .ok t := by
  unfold parseInsert at hinsert
  rw [hfind] at hinsert
  obtain ⟨_, hi, hinsert⟩ := Except.of_bind_eq_ok hinsert
  obtain rfl := Except.ok.inj hi
  obtain ⟨name, hname, hinsert⟩ := Except.of_bind_eq_ok hinsert
  obtain ⟨_, -, hinsert⟩ := Except.of_bind_eq_ok hinsert
  obtain ⟨l', -, hinsert⟩ := Except.of_bind_eq_ok hinsert
  split at hinsert
  · exact nomatch hinsert
  · obtain ⟨rfl, -⟩ := Statement.insert.inj (Except.ok.inj hinsert)
    exact hname

/-! ## The beginning -/

/-- The text without white space around it and without a semicolon behind it. -/
def bare (sql : Bytes) : Bytes := trimEndMatches (· == 59) (trim sql)

theorem bare_of_plain {sql : Bytes} {a b : UInt8} (ha : isPlain a) (hb : isPlain b)
    (hsemi : b ≠ 59) (hhead : sql.head? = some a) (hlast : sql.getLast? = some b) :
    bare sql = sql := by
  unfold bare trimEndMatches
  rw [trim_of_plain ha hb hhead hlast]
  obtain ⟨front, hfront⟩ := getLast?_eq_some_iff.mp hlast
  rw [hfront, reverse_append]
  show (List.dropWhile _ (b :: front.reverse)).reverse = _
  rw [dropWhile_cons_of_neg (by simpa using hsemi), reverse_cons, reverse_reverse]

theorem bare_append_blank (sql : Bytes) : bare (sql ++ [32]) = bare sql := by
  unfold bare
  rw [← trim_blank_cons, trim_pad]

variable {sql : Bytes} {n : Nat}

theorem parseWithin_bare (hwith : startsWith "WITH " (h.toUppercase (bare sql)) = false)
    (hunion : contains " UNION " (h.toUppercase (bare sql)) = false) :
    parseWithin h (n + 1) sql
      = parseByKeyword h (parseWithin h n) (bare sql) (h.toUppercase (bare sql)) := by
  have hfind : findText " UNION " (h.toUppercase (bare sql)) = none := contains_eq_false_iff.mp hunion
  rw [parseWithin]
  rw [show trimEndMatches (· == 59) (trim sql) = bare sql from rfl, hwith,
    if_neg Bool.false_ne_true, hfind]

/-- The word UNION makes a statement of two parts of it. -/
theorem parseWithin_union (hwith : startsWith "WITH " (h.toUppercase (bare sql)) = false)
    (hunion : contains " UNION " (h.toUppercase (bare sql))) :
    Accepts (parseWithin h (n + 1) sql) fun stmt => ∃ left right all, stmt = .union left right all := by
  obtain ⟨i, hfind⟩ := Option.isSome_iff_exists.mp hunion
  have hfind' : findText " UNION " (h.toUppercase (bare sql)) = some i := hfind
  rw [parseWithin]
  rw [show trimEndMatches (· == 59) (trim sql) = bare sql from rfl, hwith,
    if_neg Bool.false_ne_true, hfind']
  refine .step fun _ => .step fun _ => ?_
  refine .ite (fun _ => ?_) fun _ => ?_
  · exact .step fun _ => .step fun left => .step fun right => .pure ⟨left, right, _, rfl⟩
  · exact .step fun _ => .step fun left => .step fun right => .pure ⟨left, right, _, rfl⟩

end Parser

end MagnumDB
