import MagnumDB.Lib.Utf8Parts
import MagnumDB.Sql.ParserText
import MagnumDB.Sql.Readable

/-!
# When the parser returns

`Parser::parse` gives a statement or an error exactly on the texts that can be cut up
(`Sql/Readable.lean`); on all others a slice is out of range, and the program panics.
-/

namespace MagnumDB

open Text
open List hiding splitOn contains

/-- What is asked of upper case here: it gives a text. -/
def Host.UpperUtf8 (h : Host) : Prop := ∀ s, isUtf8 s → isUtf8 (h.toUppercase s)

namespace Parser

variable {h : Host} {α β : Type}

/-! ## Returning -/

/-- A statement or an error comes back. -/
def Returns (p : Parse α) : Prop := p ≠ .error .panic ∧ p ≠ .error .outOfFuel

theorem returns_ok (a : α) : Returns (.ok a) := ⟨nofun, nofun⟩

theorem returns_pure (a : α) : Returns (pure a : Parse α) := returns_ok a

theorem returns_fail (e : ParseError) : Returns (fail e : Parse α) :=
  ⟨nofun, nofun⟩

theorem not_returns_panic : ¬ Returns (.error .panic : Parse α) := fun hr => hr.1 rfl

theorem returns_bind {x : Parse α} {f : α → Parse β} :
    Returns (x >>= f) ↔ Returns x ∧ ∀ a, x = .ok a → Returns (f a) := by
  cases x with
  | ok a =>
    constructor
    · intro hr
      refine ⟨returns_ok a, fun b hb => ?_⟩
      obtain rfl := Except.ok.inj hb
      exact hr
    · exact fun hr => hr.2 a rfl
  | error e =>
    have hkeep : Returns (Except.error e >>= f) ↔ Returns (.error e : Parse α) := by
      unfold Returns
      rw [show (Except.error e >>= f) = .error e from rfl]
      simp
    rw [hkeep]
    exact ⟨fun hr => ⟨hr, nofun⟩, fun hr => hr.1⟩

theorem returns_ite {c : Prop} [Decidable c] {x y : Parse α} {r r' : Bool}
    (hx : c → (Returns x ↔ r)) (hy : ¬ c → (Returns y ↔ r')) :
    Returns (if c then x else y) ↔ (if c then r else r') := by
  by_cases hc : c
  · rw [if_pos hc, if_pos hc]
    exact hx hc
  · rw [if_neg hc, if_neg hc]
    exact hy hc

theorem returns_of_ite {c : Prop} [Decidable c] {x y : Parse α} (hx : Returns x) (hy : Returns y) :
    Returns (if c then x else y) := by
  by_cases hc : c
  · rwa [if_pos hc]
  · rwa [if_neg hc]

theorem returns_of_need {o : Option α} {e : ParseError} {f : α → Parse β}
    (hf : ∀ a, o = some a → Returns (f a)) : Returns (need o e >>= f) := by
  cases o with
  | none => exact returns_fail e
  | some a => exact hf a rfl

theorem returns_need {o : Option α} {e : ParseError} {f : α → Parse β} {p : α → Bool}
    (hf : ∀ a, o = some a → (Returns (f a) ↔ p a)) :
    Returns (need o e >>= f) ↔ o.all p := by
  cases o with
  | none => exact iff_of_true (returns_fail e) rfl
  | some a => exact hf a rfl

theorem returns_unwrap {o : Option α} {f : α → Parse β} {p : α → Bool}
    (hf : ∀ a, o = some a → (Returns (f a) ↔ p a)) :
    Returns (unwrap o >>= f) ↔ o.any p := by
  cases o with
  | none => exact iff_of_false not_returns_panic Bool.false_ne_true
  | some a => exact hf a rfl

theorem returns_unwrap_bind {o : Option α} {f : α → Parse β} {a : α} (ho : o = some a) :
    Returns (unwrap o >>= f) ↔ Returns (f a) := by
  rw [ho]
  exact Iff.rfl

/-- There is no error to give. -/
def NoError (p : Parse α) : Prop := ∀ e, p ≠ .error (.error e)

theorem noError_ok (a : α) : NoError (.ok a) := fun _ he => nomatch he

theorem noError_bind {x : Parse α} {f : α → Parse β} (hx : NoError x) (hf : ∀ a, NoError (f a)) :
    NoError (x >>= f) := by
  cases x with
  | ok a => exact hf a
  | error e =>
    intro e' he
    obtain rfl := Except.error.inj (show Except.error e = _ from he)
    exact hx e' rfl

theorem noError_cutTrim (s : Bytes) (a b : Nat) : NoError (cutTrim s a b) := by
  unfold cutTrim cut
  cases slice? s a b with
  | none => exact nofun
  | some r => exact noError_ok _

theorem returns_bind_noError {x : Parse α} {f : α → Parse β} {P : Prop} (hx : NoError x)
    (hf : ∀ a, Returns (f a) ↔ P) : Returns (x >>= f) ↔ Returns x ∧ P := by
  rw [returns_bind]
  refine and_congr_right fun hr => ?_
  cases x with
  | ok a =>
    constructor
    · exact fun hall => (hf a).mp (hall a rfl)
    · exact fun hp b _ => (hf b).mpr hp
  | error e =>
    cases e with
    | error e => exact absurd rfl (hx e)
    | panic => exact absurd rfl hr.1
    | outOfFuel => exact absurd rfl hr.2

theorem cut_eq {s : Bytes} {a b : Nat} (hle : a ≤ b) (ha : isCharBoundary s a)
    (hb : isCharBoundary s b) : cut s a b = .ok ((s.drop a).take (b - a)) := by
  unfold cut slice?
  rw [decide_eq_true hle, ha, hb]
  rfl

theorem cut_panics {s : Bytes} {a b : Nat}
    (hnot : ¬ (a ≤ b ∧ isCharBoundary s a ∧ isCharBoundary s b)) :
    cut s a b = .error .panic := by
  unfold cut slice?
  rw [if_neg]
  · rfl
  · intro hall
    simp only [Bool.and_eq_true, decide_eq_true_eq] at hall
    exact hnot ⟨hall.1.1, hall.1.2, hall.2⟩

theorem returns_cut_bind {s : Bytes} {a b : Nat} {f : Bytes → Parse β} :
    Returns (cut s a b >>= f) ↔
      (a ≤ b ∧ isCharBoundary s a ∧ isCharBoundary s b) ∧
        Returns (f ((s.drop a).take (b - a))) := by
  by_cases hok : a ≤ b ∧ isCharBoundary s a ∧ isCharBoundary s b
  · rw [cut_eq hok.1 hok.2.1 hok.2.2]
    exact (and_iff_right hok).symm
  · rw [cut_panics hok]
    exact iff_of_false not_returns_panic fun hall => hok hall.1

theorem trim_bind (x : Parse Bytes) (f : Bytes → Parse β) :
    (x.map trim >>= f) = x >>= fun r => f (trim r) := by
  cases x <;> rfl

theorem returns_cutTrim_bind {s : Bytes} {a b : Nat} {f : Bytes → Parse β} :
    Returns (cutTrim s a b >>= f) ↔
      (a ≤ b ∧ isCharBoundary s a ∧ isCharBoundary s b) ∧ Returns (f (between s a b)) := by
  rw [cutTrim, trim_bind]
  exact returns_cut_bind

theorem returns_cutTrim_zero_bind {s : Bytes} (hs : isUtf8 s) {b : Nat} {f : Bytes → Parse β} :
    Returns (cutTrim s 0 b >>= f) ↔ isCharBoundary s b ∧ Returns (f (between s 0 b)) := by
  rw [returns_cutTrim_bind]
  exact and_congr_left fun _ =>
    ⟨fun hall => hall.2.2, fun hb => ⟨Nat.zero_le b, isCharBoundary_zero hs, hb⟩⟩

theorem returns_cutFrom_bind {s : Bytes} {a : Nat} {f : Bytes → Parse β} :
    Returns (cutFrom s a >>= f) ↔ isCharBoundary s a ∧ Returns (f (s.drop a)) := by
  unfold cutFrom
  rw [returns_cut_bind, ← length_drop, take_length]
  constructor
  · exact fun hall => ⟨hall.1.2.1, hall.2⟩
  · exact fun hall => ⟨⟨(isCharBoundary_iff.mp hall.1).1, hall.1, isCharBoundary_length s⟩, hall.2⟩

theorem returns_cutTrimFrom_bind {s : Bytes} {a : Nat} {f : Bytes → Parse β} :
    Returns (cutTrimFrom s a >>= f) ↔ isCharBoundary s a ∧ Returns (f (behind s a)) := by
  rw [cutTrimFrom, trim_bind]
  exact returns_cutFrom_bind

theorem aligned_nil (s : Bytes) : aligned s [] := rfl

theorem aligned_cons {s : Bytes} {i : Nat} {places : List Nat} :
    aligned s (i :: places) ↔ isCharBoundary s i ∧ aligned s places :=
  Bool.and_eq_true_iff

theorem cuts_iff {s : Bytes} {a b : Nat} :
    (a ≤ b ∧ isCharBoundary s a ∧ isCharBoundary s b) ↔
      (decide (a ≤ b) && aligned s [a, b]) := by
  rw [Bool.and_eq_true, decide_eq_true_eq, aligned_cons, aligned_cons, and_iff_left (aligned_nil s)]

theorem isUtf8_between {s : Bytes} {a b : Nat} (hs : isUtf8 s) (ha : isCharBoundary s a)
    (hb : isCharBoundary s b) : isUtf8 (between s a b) :=
  isUtf8_trim (isUtf8_middle hs ha hb)

theorem isUtf8_behind {s : Bytes} {a : Nat} (hs : isUtf8 s) (ha : isCharBoundary s a) :
    isUtf8 (behind s a) :=
  isUtf8_trim (isUtf8_cut hs ha).2

section Parts

variable {s : Bytes} {a b : Nat} {f : Bytes → Bytes → Parse β} {r : Bool}

/-- A part of a text and what is behind it: the places must be between characters, and then both
parts are texts. -/
theorem returns_parts (hs : isUtf8 s) {k : Nat} (hle : k ≤ a)
    (hf : isUtf8 (between s k a) → isUtf8 (behind s b) →
      (Returns (f (between s k a) (behind s b)) ↔ r)) :
    Returns (cutTrim s k a >>= fun x => cutTrimFrom s b >>= f x) ↔ (aligned s [k, a, b] && r) := by
  rw [returns_cutTrim_bind, returns_cutTrimFrom_bind, Bool.and_eq_true, aligned_cons, aligned_cons,
    aligned_cons, and_iff_left (aligned_nil s), and_iff_right hle, and_assoc, and_assoc, and_assoc]
  exact and_congr_right fun hk => and_congr_right fun ha => and_congr_right fun hb =>
    hf (isUtf8_between hs hk ha) (isUtf8_behind hs hb)

theorem returns_split (hs : isUtf8 s)
    (hf : isUtf8 (between s 0 a) → isUtf8 (behind s b) →
      (Returns (f (between s 0 a) (behind s b)) ↔ r)) :
    Returns (cutTrim s 0 a >>= fun x => cutTrimFrom s b >>= f x) ↔ (aligned s [a, b] && r) := by
  have hzero : aligned s [0, a, b] = aligned s [a, b] := by
    rw [aligned, all_cons, isCharBoundary_zero hs, Bool.true_and]
    rfl
  rw [returns_parts hs (Nat.zero_le a) hf, hzero]

end Parts

/-! ## Places of keywords -/

/-- No occurrence of the second text begins inside the first one. -/
def noOverlap (kw needle : Bytes) : Bool :=
  (List.range kw.length).all fun j =>
    !(kw.drop j).isPrefixOf needle && !needle.isPrefixOf (kw.drop j)

theorem beyond_of_noOverlap {kw needle u : Bytes} {o i : Nat} (hapart : noOverlap kw needle)
    (hkw : kw <+: u.drop o) (hneedle : needle <+: u.drop i) (hle : o ≤ i) : o + kw.length ≤ i := by
  by_contra hlt
  have hj : i - o < kw.length := by omega
  have hat : kw.drop (i - o) <+: u.drop i := by
    obtain ⟨t, ht⟩ := hkw
    rw [← Nat.add_sub_cancel' hle, ← drop_drop, ← ht, Nat.add_sub_cancel_left,
      drop_append_of_le_length hj.le]
    exact prefix_append _ _
  have hno := all_eq_true.mp hapart (i - o) (mem_range.mpr hj)
  simp only [Bool.and_eq_true, Bool.not_eq_true', ← Bool.not_eq_true, isPrefixOf_iff_prefix] at hno
  rcases prefix_or_prefix_of_prefix hat hneedle with hpre | hpre
  · exact hno.1 hpre
  · exact hno.2 hpre

/-- What is not inside the keyword at the beginning is found behind it. -/
theorem le_of_startsWith {kw needle : String} {u : Bytes} {i : Nat} (hstart : startsWith kw u)
    (hapart : noOverlap (ofString kw) (ofString needle)) (hfind : findText needle u = some i) :
    (ofString kw).length ≤ i := by
  have hle := beyond_of_noOverlap hapart (u := u) (o := 0) ( isPrefixOf_iff_prefix.mp hstart)
    (find_eq_some_iff.mp hfind).2.1 (Nat.zero_le i)
  omega

/-- A text can be cut where ASCII letters are found in it. -/
theorem boundaries_of_findText {s : Bytes} {kw : String} {i : Nat} (hs : isUtf8 s)
    (hkw : (!(ofString kw).isEmpty && (ofString kw).all (· < 0x80)))
    (hfind : findText kw s = some i) :
    isCharBoundary s i ∧ isCharBoundary s (i + (ofString kw).length) := by
  obtain ⟨hne, hall⟩ := Bool.and_eq_true_iff.mp hkw
  refine isCharBoundary_of_find hs ?_ ?_ hfind
  · intro hnil
    rw [hnil] at hne
    exact nomatch hne
  · intro x hx
    exact of_decide_eq_true (all_eq_true.mp hall x hx)

theorem boundaries_of_findOp {s : Bytes} {ops : List String} {op : Bytes} {i : Nat} (hs : isUtf8 s)
    (hops : (ops.all fun op => !(ofString op).isEmpty && (ofString op).all (· < 0x80)))
    (hfind : findOp ops s = some (op, i)) :
    isCharBoundary s i ∧ isCharBoundary s (i + op.length) := by
  obtain ⟨text, hmem, hsome⟩ := exists_of_findSome?_eq_some hfind
  obtain ⟨j, hj, heq⟩ := Option.map_eq_some_iff.mp hsome
  obtain ⟨rfl, rfl⟩ := Prod.mk.inj heq
  exact boundaries_of_findText hs (all_eq_true.mp hops text hmem) hj

/-! ## Clauses -/

theorem returns_parseAssignment {expr : Bytes} (hs : isUtf8 expr) :
    Returns (parseAssignment expr) := by
  refine returns_of_need fun i hi => ?_
  obtain ⟨hat, hafter⟩ := boundaries_of_findText hs (by decide) hi
  rw [returns_cutTrim_zero_bind hs, returns_cutTrimFrom_bind]
  exact ⟨hat, hafter, returns_ok _⟩

theorem returns_parseWhereEquality {cond : Bytes} (hs : isUtf8 cond) :
    Returns (parseWhereEquality h cond) ↔ readsWhere h cond := by
  unfold parseWhereEquality readsWhere
  cases hfind : findText " IN " (h.toUppercase cond) with
  | none => exact iff_of_true (returns_parseAssignment hs) rfl
  | some i =>
    rw [returns_cutTrim_zero_bind hs, returns_cutTrimFrom_bind, Option.all_some, aligned_cons,
      and_iff_left (aligned_nil _)]
    exact ⟨fun hall => hall.1, fun hi => ⟨hi, hi, returns_ok _⟩⟩

theorem returns_bind_pure {x : Parse α} {g : α → β} : Returns (x >>= fun a => pure (g a)) ↔ Returns x := by
  rw [returns_bind]
  exact and_iff_left fun a _ => returns_ok _

theorem returns_parseTableAndWhere {rest : Bytes} (hs : isUtf8 rest) :
    Returns (parseTableAndWhere h rest) ↔ readsTable h rest := by
  unfold parseTableAndWhere readsTable
  cases findText "WHERE" (h.toUppercase rest) with
  | none => exact iff_of_true (returns_ok _) rfl
  | some w =>
    exact returns_split hs fun _ hcond => returns_bind_pure.trans (returns_parseWhereEquality hcond)

theorem parseOrderByAndLimit_eq (rest : Bytes) :
    parseOrderByAndLimit h rest =
      ((clausesAt h rest).elim (pure rest) (cutTrim rest 0) >>= fun main =>
        parseOrderBy rest (findText "ORDER BY" (h.toUppercase rest)) (findText "LIMIT" (h.toUppercase rest))
          >>= fun order => parseLimit h rest (findText "LIMIT" (h.toUppercase rest)) >>= fun limit =>
            pure (main, order, limit)) := by
  unfold parseOrderByAndLimit clausesAt
  dsimp only
  cases firstOf (findText "ORDER BY" (h.toUppercase rest)) (findText "LIMIT" (h.toUppercase rest)) with
  | none => rfl
  | some i => rfl

/-- ORDER BY and LIMIT do not overlap. -/
theorem order_before_limit {u : Bytes} {o l : Nat} (ho : findText "ORDER BY" u = some o)
    (hl : findText "LIMIT" u = some l) (hlt : o < l) : o + 8 ≤ l :=
  beyond_of_noOverlap (show noOverlap "ORDER BY" "LIMIT" by decide)
    (find_eq_some_iff.mp ho).2.1 (find_eq_some_iff.mp hl).2.1 hlt.le

theorem forall_mem_some {a : α} {P : α → Prop} : (∀ b ∈ some a, P b) ↔ P a := by simp

theorem returns_orderBy {rest : Bytes} {o l : Option Nat} (hol : ∀ i ∈ o, ∀ k ∈ l, i < k → i + 8 ≤ k) :
    Returns (parseOrderBy rest o l) ↔ ∀ i ∈ o, isCharBoundary rest (i + 8) ∧
      ∀ k ∈ l, i < k → isCharBoundary rest k := by
  cases o with
  | none => exact iff_of_true (returns_ok _) nofun
  | some i =>
    unfold parseOrderBy
    rw [forall_mem_some, returns_cutTrim_bind, and_iff_left (returns_pure _)]
    -- without a LIMIT behind it, the order goes on to the end
    have hopen (hall : isCharBoundary rest (i + 8)) : i + 8 ≤ rest.length ∧
        isCharBoundary rest (i + 8) ∧ isCharBoundary rest rest.length :=
      ⟨(isCharBoundary_iff.mp hall).1, hall, isCharBoundary_length rest⟩
    cases l with
    | none =>
      exact ⟨fun hall => ⟨hall.2.1, nofun⟩, fun hall => hopen hall.1⟩
    | some k =>
      rw [forall_mem_some]
      by_cases hlt : i < k
      · rw [Option.filter_some, if_pos (decide_eq_true hlt), Option.getD_some]
        exact ⟨fun hall => ⟨hall.2.1, fun _ => hall.2.2⟩,
          fun hall => ⟨hol i rfl k rfl hlt, hall.1, hall.2 hlt⟩⟩
      · rw [Option.filter_some, if_neg (by simpa using hlt), Option.getD_none]
        exact ⟨fun hall => ⟨hall.2.1, fun hlt' => absurd hlt' hlt⟩, fun hall => hopen hall.1⟩

theorem returns_limit {rest : Bytes} (hs : isUtf8 rest) {l : Option Nat} :
    Returns (parseLimit h rest l) ↔ ∀ k ∈ l, isCharBoundary rest (k + 5) ∧
      readsOffset h (behind rest (k + 5)) := by
  cases l with
  | none => exact iff_of_true (returns_ok _) nofun
  | some k =>
    unfold parseLimit
    rw [forall_mem_some, returns_cutTrimFrom_bind]
    refine and_congr_right fun hk => ?_
    have hutf := isUtf8_behind hs hk
    unfold readsOffset
    cases findText "OFFSET" (h.toUppercase (behind rest (k + 5))) with
    | none => exact iff_of_true (returns_ok _) rfl
    | some off =>
      rw [Option.all_some, ← Bool.and_true (aligned _ _)]
      exact returns_split hutf fun _ _ => iff_of_true (returns_ok _) rfl

theorem noError_orderBy (rest : Bytes) (o l : Option Nat) : NoError (parseOrderBy rest o l) := by
  cases o with
  | none => exact noError_ok _
  | some i => exact noError_bind (noError_cutTrim _ _ _) fun _ => noError_ok _

theorem noError_limit (rest : Bytes) (l : Option Nat) : NoError (parseLimit h rest l) := by
  cases l with
  | none => exact noError_ok _
  | some k =>
    refine noError_bind (noError_cutTrim _ _ _) fun limitStr => ?_
    cases findText "OFFSET" (h.toUppercase limitStr) with
    | none => exact noError_ok _
    | some off =>
      exact noError_bind (noError_cutTrim _ _ _) fun _ =>
        noError_bind (noError_cutTrim _ _ _) fun _ => noError_ok _

theorem readsOrderAndLimit_iff {rest : Bytes} :
    readsOrderAndLimit h rest ↔
      (∀ i ∈ clausesAt h rest, isCharBoundary rest i) ∧
      (∀ o ∈ findText "ORDER BY" (h.toUppercase rest), isCharBoundary rest (o + 8)) ∧
      ∀ l ∈ findText "LIMIT" (h.toUppercase rest), isCharBoundary rest l ∧
        isCharBoundary rest (l + 5) ∧ readsOffset h (behind rest (l + 5)) := by
  simp only [readsOrderAndLimit, Bool.and_eq_true, Option.all_eq_true, aligned_cons, aligned_nil,
    and_true, and_assoc, Option.mem_def]

theorem mem_clausesAt {rest : Bytes} {i : Nat} (hi : clausesAt h rest = some i) {l : Nat}
    (hl : findText "LIMIT" (h.toUppercase rest) = some l) :
    i = l ∨ ∃ o, findText "ORDER BY" (h.toUppercase rest) = some o ∧ i = o ∧ o < l := by
  unfold clausesAt at hi
  rw [hl] at hi
  cases ho : findText "ORDER BY" (h.toUppercase rest) with
  | none =>
    rw [ho] at hi
    exact .inl (Option.some.inj hi).symm
  | some o =>
    rw [ho] at hi
    have hmin : min o l = i := Option.some.inj hi
    by_cases hlt : o < l
    · exact .inr ⟨o, rfl, by omega, hlt⟩
    · exact .inl (by omega)

theorem clausesAt_eq_none {rest : Bytes} (hnone : clausesAt h rest = none) :
    findText "ORDER BY" (h.toUppercase rest) = none ∧ findText "LIMIT" (h.toUppercase rest) = none := by
  unfold clausesAt at hnone
  generalize findText "ORDER BY" (h.toUppercase rest) = o at *
  generalize findText "LIMIT" (h.toUppercase rest) = l at *
  cases o with
  | none => exact ⟨rfl, hnone⟩
  | some o =>
    cases l with
    | none => exact nomatch hnone
    | some l => exact nomatch hnone

theorem returns_parseOrderByAndLimit {rest : Bytes} (hs : isUtf8 rest)
    {f : Bytes × Option (Bytes × Bool) × Option (Nat × Nat) → Parse β} {r : Bool}
    (hf : isUtf8 ((clausesAt h rest).elim rest (between rest 0)) → ∀ order limit,
      (Returns (f ((clausesAt h rest).elim rest (between rest 0), order, limit)) ↔ r)) :
    Returns (parseOrderByAndLimit h rest >>= f) ↔ (readsOrderAndLimit h rest && r) := by
  have hol : ∀ i ∈ findText "ORDER BY" (h.toUppercase rest), ∀ k ∈ findText "LIMIT" (h.toUppercase rest),
      i < k → i + 8 ≤ k := fun i hi k hk => order_before_limit hi hk
  have htail (hmain : isUtf8 ((clausesAt h rest).elim rest (between rest 0))) :
      Returns (parseOrderBy rest (findText "ORDER BY" (h.toUppercase rest))
        (findText "LIMIT" (h.toUppercase rest)) >>= fun order =>
          parseLimit h rest (findText "LIMIT" (h.toUppercase rest)) >>= fun limit =>
            f ((clausesAt h rest).elim rest (between rest 0), order, limit)) ↔ _ :=
    returns_bind_noError (noError_orderBy _ _ _) fun order =>
      returns_bind_noError (noError_limit _ _) fun limit => hf hmain order limit
  rw [parseOrderByAndLimit_eq]
  simp only [bind_assoc, pure_bind]
  rw [Bool.and_eq_true, readsOrderAndLimit_iff]
  rw [returns_orderBy hol, returns_limit hs] at htail
  cases hat : clausesAt h rest with
  | none =>
    obtain ⟨ho, hl⟩ := clausesAt_eq_none hat
    rw [hat] at htail
    refine (htail hs).trans ?_
    rw [ho, hl]
    simp
  | some i =>
    rw [hat] at htail
    show Returns (cutTrim rest 0 i >>= _) ↔ _
    rw [returns_cutTrim_zero_bind hs, forall_mem_some, and_assoc]
    refine and_congr_right fun hi => (htail (isUtf8_between hs (isCharBoundary_zero hs) hi)).trans ?_
    rw [and_assoc]
    constructor
    · rintro ⟨horder, hlimit, hmain⟩
      refine ⟨fun o ho => (horder o ho).1, fun l hl => ⟨?_, hlimit l hl⟩, hmain⟩
      -- LIMIT is the first of the two, or the end of the other
      rcases mem_clausesAt hat hl with rfl | ⟨o, ho, -, hlt⟩
      · exact hi
      · exact (horder o ho).2 l hl hlt
    · rintro ⟨horder, hlimit, hmain⟩
      exact ⟨fun o ho => ⟨horder o ho, fun l hl _ => (hlimit l hl).1⟩, fun l hl => (hlimit l hl).2, hmain⟩

/-! ## Queries inside queries -/

variable {parse : Bytes → Parse Statement} {readable : Bytes → Bool}

/-- The parser returns on the texts up to a length that can be cut up. -/
def ReturnsBelow (parse : Bytes → Parse Statement) (readable : Bytes → Bool) (n : Nat) : Prop :=
  ∀ s, isUtf8 s → s.length < n → (Returns (parse s) ↔ readable s)

theorem ReturnsBelow.mono {n m : Nat} (hp : ReturnsBelow parse readable n) (hle : m ≤ n) :
    ReturnsBelow parse readable m :=
  fun s hs hlt => hp s hs (hlt.trans_le hle)

theorem length_between_le (s : Bytes) (a b : Nat) : (between s a b).length ≤ b - a ∧
    (between s a b).length ≤ s.length := by
  have hle := (sublist_trim ((s.drop a).take (b - a))).length_le
  rw [length_take, length_drop] at hle
  unfold between
  omega

theorem length_behind_le (s : Bytes) (a : Nat) : (behind s a).length ≤ s.length - a := by
  have hle := (sublist_trim (s.drop a)).length_le
  rwa [length_drop] at hle

/-! ## SELECT -/

/-- The end of `parse_select`, with the order and the limit read already. -/
def selectFrom (h : Host) (parse : Bytes → Parse Statement) (main : Bytes) (order : Option (Bytes × Bool))
    (limit : Option (Nat × Nat)) : Parse Statement :=
  match findText "WHERE" (h.toUppercase main) with
  | none => pure (.select main none order limit)
  | some w => do
    let tableName ← cutTrim main 0 w
    let cond ← cutTrimFrom main (w + 5)
    match findOp [">=", "<=", ">", "<"] cond with
    | some (op, opIdx) => do
      let col ← cutTrim cond 0 opIdx
      let val ← cutTrimFrom cond (opIdx + op.length)
      pure (.selectRange tableName col op (unquote val))
    | none => do
      let (col, val) ← parseWhereEquality h cond
      let upperVal := h.toUppercase val
      if startsWith "IN (SELECT" upperVal && upperVal.getLast? == some 41 then do
        let inner ← cutTrim val 4 (val.length - 1)
        let subquery ← parse inner
        pure (.selectInSubquery tableName col subquery)
      else pure (.select tableName (some (col, val)) order limit)

theorem isUtf8_of_cutTrim {s r : Bytes} {a b : Nat} (hs : isUtf8 s) (hcut : cutTrim s a b = .ok r) :
    isUtf8 r ∧ r.length ≤ s.length := by
  by_cases hok : a ≤ b ∧ isCharBoundary s a ∧ isCharBoundary s b
  · unfold cutTrim at hcut
    rw [cut_eq hok.1 hok.2.1 hok.2.2] at hcut
    obtain rfl : between s a b = r := Except.ok.inj hcut
    exact ⟨isUtf8_between hs hok.2.1 hok.2.2, (length_between_le s a b).2⟩
  · unfold cutTrim at hcut
    rw [cut_panics hok] at hcut
    exact nomatch hcut

theorem ascii_of_eq {b : UInt8} (hb : b < 0x80) (x : UInt8) (hx : (x == b)) : x < 0x80 :=
  beq_iff_eq.mp hx ▸ hb

theorem isUtf8_val {cond : Bytes} {r : Bytes × Bytes} (hs : isUtf8 cond)
    (hparse : parseWhereEquality h cond = .ok r) : isUtf8 r.2 ∧ r.2.length ≤ cond.length := by
  unfold parseWhereEquality at hparse
  cases hin : findText " IN " (h.toUppercase cond) with
  | some i =>
    rw [hin] at hparse
    obtain ⟨col, -, hparse⟩ := Except.of_bind_eq_ok hparse
    obtain ⟨val, hval, hparse⟩ := Except.of_bind_eq_ok hparse
    obtain rfl := Except.ok.inj hparse
    exact isUtf8_of_cutTrim hs hval
  | none =>
    rw [hin] at hparse
    obtain ⟨i, -, hparse⟩ := Except.of_bind_eq_ok hparse
    obtain ⟨col, -, hparse⟩ := Except.of_bind_eq_ok hparse
    obtain ⟨val, hval, hparse⟩ := Except.of_bind_eq_ok hparse
    obtain rfl := Except.ok.inj hparse
    obtain ⟨hutf, hlen⟩ := isUtf8_of_cutTrim hs hval
    refine ⟨isUtf8_trimMatches (ascii_of_eq (by decide)) hutf, le_trans ?_ hlen⟩
    unfold unquote trimMatches
    rw [length_reverse]
    refine (dropWhile_sublist _).length_le.trans ?_
    rw [length_reverse]
    exact (dropWhile_sublist _).length_le

theorem returns_subquery {val : Bytes} (hs : isUtf8 val)
    (hp : ReturnsBelow parse readable val.length) {f : Statement → Statement} {stmt : Statement} :
    Returns (if (startsWith "IN (SELECT" (h.toUppercase val) &&
        (h.toUppercase val).getLast? == some 41)
      then cutTrim val 4 (val.length - 1) >>= fun inner => parse inner >>= fun sub => pure (f sub)
      else pure stmt) ↔ readsSubquery h readable val := by
  unfold readsSubquery
  split
  · rw [returns_cutTrim_bind, returns_bind_pure, Bool.and_eq_true, ← cuts_iff]
    refine and_congr_right fun hok => ?_
    refine hp _ (isUtf8_between hs hok.2.1 hok.2.2) ?_
    have hlen := (length_between_le val 4 (val.length - 1)).1
    omega
  · exact iff_of_true (returns_pure _) rfl

theorem all_toOption {x : Parse α} {p : α → Bool} :
    x.toOption.all p ↔ ∀ a, x = .ok a → p a := by
  cases x with
  | ok a =>
    constructor
    · intro hp b hb
      obtain rfl := Except.ok.inj hb
      exact hp
    · exact fun hall => hall a rfl
  | error e => exact iff_of_true rfl nofun

theorem returns_selectFrom {main : Bytes} (hs : isUtf8 main)
    (hp : ReturnsBelow parse readable main.length) (order : Option (Bytes × Bool))
    (limit : Option (Nat × Nat)) :
    Returns (selectFrom h parse main order limit) ↔ readsCondition h readable main := by
  unfold selectFrom readsCondition
  cases findText "WHERE" (h.toUppercase main) with
  | none => exact iff_of_true (returns_pure _) rfl
  | some w =>
    refine returns_split hs fun _ hcond => ?_
    have hlen := length_behind_le main (w + 5)
    generalize behind main (w + 5) = cond at hcond hlen ⊢
    cases hop : findOp [">=", "<=", ">", "<"] cond with
    | some r =>
      obtain ⟨op, i⟩ := r
      obtain ⟨hat, hafter⟩ := boundaries_of_findOp hcond (by decide) hop
      refine iff_of_true ?_ rfl
      rw [returns_cutTrim_zero_bind hcond, returns_cutTrimFrom_bind]
      exact ⟨hat, hafter, returns_pure _⟩
    | none =>
      rw [Option.isSome_none, Bool.false_or, Bool.and_eq_true, all_toOption,
        ← returns_parseWhereEquality hcond]
      refine returns_bind.trans (and_congr_right fun _ => forall_congr' fun r => imp_congr_right fun hr => ?_)
      obtain ⟨hval, hle⟩ := isUtf8_val hcond hr
      exact returns_subquery hval (hp.mono (by omega))

theorem length_main_le (rest : Bytes) :
    ((clausesAt h rest).elim rest (between rest 0)).length ≤ rest.length := by
  cases clausesAt h rest with
  | none => exact le_rfl
  | some i => exact (length_between_le rest 0 i).2

theorem returns_parseSelectPlain {rest : Bytes} (hs : isUtf8 rest)
    (hp : ReturnsBelow parse readable rest.length) :
    Returns (parseSelectPlain h parse rest) ↔ readsPlain h readable rest :=
  returns_parseOrderByAndLimit hs fun hmain order limit =>
    returns_selectFrom hmain (hp.mono (length_main_le rest)) order limit

/-! ## The other queries -/

theorem returns_parseJoinCondition (cond : Bytes) : Returns (parseJoinCondition cond) := by
  unfold parseJoinCondition
  split
  · exact returns_ok _
  · exact returns_fail _

theorem returns_parseSelectJoin {rest : Bytes} (hs : isUtf8 rest)
    (hjoin : contains " JOIN " (h.toUppercase rest)) :
    Returns (parseSelectJoin h rest) ↔ readsJoin h rest := by
  unfold parseSelectJoin readsJoin
  dsimp only
  generalize hkw : (if contains "LEFT JOIN" (h.toUppercase rest) then "LEFT JOIN"
    else "JOIN") = kw
  -- the keyword is there
  have hthere : ∃ j, findText kw (h.toUppercase rest) = some j := by
    have hcontains : contains (ofString kw) (h.toUppercase rest) := by
      rw [← hkw]
      split
      · assumption
      · refine contains_iff.mpr (List.IsInfix.trans ?_ (contains_iff.mp hjoin))
        exact ⟨[32], [32], rfl⟩
    exact Option.isSome_iff_exists.mp hcontains
  obtain ⟨j, hj⟩ := hthere
  rw [returns_unwrap_bind hj, hj, Option.all_some, Bool.and_eq_true, aligned_cons,
    and_iff_left (aligned_nil _), returns_cutTrim_zero_bind hs]
  refine and_congr_right fun _ => returns_need fun on _ => ?_
  rw [returns_cutTrim_bind, returns_cutTrimFrom_bind, returns_bind_pure,
    and_iff_left (returns_parseJoinCondition _)]
  simp only [Bool.and_eq_true, decide_eq_true_eq, aligned_cons, aligned_nil, and_true, and_assoc]

/-- The end of the GROUP BY part, with the column and HAVING read already. -/
def groupFrom (h : Host) (target before : Bytes) (group : Bytes × Option (Bytes × Bytes)) :
    Parse Statement :=
  match (splitOn 44 target).map trim with
  | [_, aggTarget] => do
    let aggPart := h.toUppercase aggTarget
    let funcEnd ← need (findText "(" aggPart) .groupByAggregate
    let func ← cut aggPart 0 funcEnd
    let colEnd := (rfind 41 aggPart).getD aggPart.length
    let aggCol ← cutTrim aggTarget (funcEnd + 1) colEnd
    let (tableName, whereClause) ← parseTableAndWhere h before
    pure (.selectGroupAggregate group.1 func aggCol tableName whereClause group.2)
  | _ => fail .groupByTarget

theorem isUtf8_trimmed_part {sep : UInt8} (hsep : sep < 0x80) {s p : Bytes} (hs : isUtf8 s)
    (hp : p ∈ (splitOn sep s).map trim) : isUtf8 p := by
  obtain ⟨q, hq, rfl⟩ := mem_map.mp hp
  exact isUtf8_trim (isUtf8_splitOn hsep hs q hq)

theorem returns_groupFrom (hupper : h.UpperUtf8) {target before : Bytes} (ht : isUtf8 target)
    (hb : isUtf8 before) (group : Bytes × Option (Bytes × Bytes)) :
    Returns (groupFrom h target before group) ↔ readsGroupTarget h target before := by
  unfold groupFrom readsGroupTarget
  have hparts := fun p hp => @isUtf8_trimmed_part 44 (by decide) target p ht hp
  generalize (splitOn 44 target).map trim = parts at hparts ⊢
  rcases parts with _ | ⟨p, _ | ⟨agg, _ | ⟨q, parts⟩⟩⟩
  · exact iff_of_true (returns_fail _) rfl
  · exact iff_of_true (returns_fail _) rfl
  · have hagg : isUtf8 (h.toUppercase agg) := hupper agg (hparts agg (by simp))
    refine returns_need fun f hf => ?_
    obtain ⟨hat, -⟩ := boundaries_of_findText hagg (by decide) hf
    rw [returns_cut_bind, and_iff_right ⟨Nat.zero_le f, isCharBoundary_zero hagg, hat⟩, returns_cutTrim_bind,
      returns_bind_pure, returns_parseTableAndWhere hb]
    simp only [Bool.and_eq_true, decide_eq_true_eq, aligned_cons, aligned_nil, and_true]
    exact Iff.rfl
  · exact iff_of_true (returns_fail _) rfl

theorem returns_parseHavingCondition_bind {cond : Bytes} (hs : isUtf8 cond)
    {f : Bytes × Bytes → Parse β} {P : Prop} (hf : ∀ r, Returns (f r) ↔ P) :
    Returns (parseHavingCondition cond >>= f) ↔
      ((findOp [">=", "<=", ">", "<", "="] cond).isNone ∨ P) := by
  unfold parseHavingCondition
  cases hop : findOp [">=", "<=", ">", "<", "="] cond with
  | none => exact iff_of_true (returns_fail _) (.inl rfl)
  | some r =>
    obtain ⟨op, i⟩ := r
    have hafter := (boundaries_of_findOp hs (by decide) hop).2
    rw [bind_assoc, returns_cutTrimFrom_bind, pure_bind, hf]
    exact ⟨fun hall => .inr hall.2, fun hall => ⟨hafter, hall.resolve_left (by simp)⟩⟩

theorem returns_parseSelectGroup (hupper : h.UpperUtf8) {target rest : Bytes} (ht : isUtf8 target)
    (hs : isUtf8 rest) (gb : Nat) :
    Returns (parseSelectGroup h target rest gb) ↔ readsGroup h target rest gb := by
  unfold readsGroup
  rw [Bool.and_assoc]
  refine returns_split hs fun hbefore hafter => ?_
  generalize between rest 0 gb = before at hbefore ⊢
  generalize behind rest (gb + 8) = after at hafter ⊢
  have hgroup := returns_groupFrom hupper ht hbefore
  cases findText "HAVING" (h.toUppercase after) with
  | none =>
    rw [Option.all_none, Option.any_none, Bool.false_or, Bool.true_and]
    exact hgroup (after, none)
  | some k =>
    refine returns_split hafter fun _ hcond => ?_
    rw [Option.any_some, Bool.or_eq_true]
    exact returns_parseHavingCondition_bind (f := fun r => groupFrom h target before (between after 0 k, some r))
      hcond fun r => hgroup _

theorem returns_parseSelectWindow {upperTarget : Bytes} (hs : isUtf8 upperTarget) (rest : Bytes)
    (hstart : startsWith "ROW_NUMBER() OVER" upperTarget) :
    Returns (parseSelectWindow upperTarget rest) ↔ readsWindow upperTarget := by
  unfold parseSelectWindow readsWindow
  -- OVER is there
  obtain ⟨o, ho⟩ : ∃ o, findText "OVER" upperTarget = some o := by
    refine Option.isSome_iff_exists.mp (contains_iff.mpr (List.IsInfix.trans ?_
      ( isPrefixOf_iff_prefix.mp hstart).isInfix))
    exact ⟨"ROW_NUMBER() ", [], rfl⟩
  have hover := (boundaries_of_findText hs (by decide) ho).1
  rw [returns_unwrap_bind ho, returns_cutFrom_bind, and_iff_right hover, ho, Option.all_some]
  refine returns_unwrap fun p hp => ?_
  -- positions behind OVER are positions of the whole text
  have hdrop : isUtf8 (upperTarget.drop o) := (isUtf8_cut hs hover).2
  have hshift {i j : Nat} (hi : isCharBoundary (upperTarget.drop i) j) (hle : i ≤ upperTarget.length) :
      isCharBoundary upperTarget (j + i) := by
    obtain ⟨hlen, hst⟩ := isCharBoundary_iff.mp hi
    rw [length_drop] at hlen
    rw [drop_drop, Nat.add_comm] at hst
    exact isCharBoundary_iff.mpr ⟨by omega, hst⟩
  have hole : o ≤ upperTarget.length := (isCharBoundary_iff.mp hover).1
  obtain ⟨hpat, hpafter⟩ := boundaries_of_findText hdrop (by decide) hp
  have hparen := hshift hpat hole
  have hinside : isCharBoundary upperTarget (p + o + 1) := by
    have := hshift hpafter hole
    rwa [show p + o + 1 = p + (ofString "(").length + o by
      rw [show (ofString "(").length = 1 from rfl]; omega]
  rw [returns_cutFrom_bind, and_iff_right hparen]
  refine returns_unwrap fun e he => ?_
  have hbyte := getElem?_of_rfind he
  have hend := hshift (isCharBoundary_of_getElem? (isUtf8_cut hs hparen).2 (by decide) hbyte).1
    (isCharBoundary_iff.mp hparen).1
  -- the closing parenthesis is not where the opening one is
  have hpos : p + o + 1 ≤ e + (p + o) := by
    have hopen : upperTarget[p + o]? = some 40 := by
      have hpre := (find_eq_some_iff.mp hp).2.1
      obtain ⟨t, ht⟩ := hpre
      rw [drop_drop, Nat.add_comm] at ht
      have h0 : (upperTarget.drop (p + o))[0]? = some 40 := by
        rw [← ht]
        rfl
      rwa [getElem?_drop, Nat.add_zero] at h0
    rw [getElem?_drop] at hbyte
    cases e with
    | zero =>
      rw [Nat.add_zero, hopen] at hbyte
      exact absurd hbyte (by decide)
    | succ e => omega
  rw [returns_cutTrim_bind, and_iff_right ⟨hpos, hinside, hend⟩]
  have hclause := isUtf8_between hs hinside hend
  generalize between upperTarget (p + o + 1) (e + (p + o)) = clause at hclause ⊢
  unfold overInOrder
  cases hpart : findText "PARTITION BY " clause with
  | none =>
    cases hord : findText "ORDER BY " clause with
    | none => exact iff_of_true (returns_ok _) rfl
    | some i =>
      refine iff_of_true ?_ rfl
      dsimp only
      rw [pure_bind, returns_cutTrimFrom_bind]
      exact ⟨(boundaries_of_findText hclause (by decide) hord).2, returns_ok _⟩
  | some j =>
    have hjafter := (boundaries_of_findText hclause (by decide) hpart).2
    cases hord : findText "ORDER BY " clause with
    | none =>
      refine iff_of_true ?_ rfl
      rw [returns_cutTrimFrom_bind]
      exact ⟨hjafter, returns_ok _⟩
    | some i =>
      obtain ⟨hat, hafter⟩ := boundaries_of_findText hclause (by decide) hord
      rw [returns_cutTrim_bind, returns_cutTrimFrom_bind, Option.all_some, Option.all_some,
        decide_eq_true_eq]
      exact ⟨fun hall => hall.1.1, fun hle => ⟨⟨hle, hjafter, hat⟩, hafter, returns_ok _⟩⟩

/-- Between the first opening and the last closing parenthesis, or the end, there is a part if they
are in that order. -/
theorem cut_parens_iff {s : Bytes} (hs : isUtf8 s) {p : Nat} (hp : findText "(" s = some p) :
    (p + 1 ≤ (rfind 41 s).getD s.length ∧ isCharBoundary s (p + 1) ∧
      isCharBoundary s ((rfind 41 s).getD s.length)) ↔
        (rfind 41 s).all (fun e => decide (p < e)) := by
  have hafter := (boundaries_of_findText hs (by decide) hp).2
  cases he : rfind 41 s with
  | none =>
    exact iff_of_true ⟨(isCharBoundary_iff.mp hafter).1, hafter, isCharBoundary_length s⟩ rfl
  | some e =>
    have hend := (isCharBoundary_of_getElem? hs (by decide) (getElem?_of_rfind he)).1
    rw [Option.getD_some, Option.all_some, decide_eq_true_eq]
    exact ⟨fun hall => hall.1, fun hlt => ⟨hlt, hafter, hend⟩⟩

theorem returns_parseSelectAggregate {target rest : Bytes} (ht : isUtf8 target)
    (hs : isUtf8 rest) :
    Returns (parseSelectAggregate h target rest) ↔ readsAggregate h target rest := by
  unfold parseSelectAggregate readsAggregate parensInOrder
  cases hp : findText "(" target with
  | none => exact iff_of_false not_returns_panic Bool.false_ne_true
  | some p =>
    have hat := (boundaries_of_findText ht (by decide) hp).1
    rw [returns_unwrap_bind rfl, returns_cut_bind,
      and_iff_right ⟨Nat.zero_le p, isCharBoundary_zero ht, hat⟩]
    rw [returns_cutTrim_bind, cut_parens_iff ht hp, returns_bind_pure, returns_parseTableAndWhere hs, Option.all_some,
      Option.isSome_some, Bool.true_and, Bool.and_eq_true]

theorem returns_parseSelect (hupper : h.UpperUtf8) {sql : Bytes} (hs : isUtf8 sql)
    (hstart : startsWith "SELECT" (h.toUppercase sql))
    (hp : ReturnsBelow parse readable sql.length) :
    Returns (parseSelect h parse sql) ↔ readsSelect h readable sql := by
  refine returns_need fun f hf => ?_
  refine returns_parts hs (le_of_startsWith hstart (by decide) hf) fun htarget hrest => ?_
  have hlen := length_behind_le sql (f + 4)
  generalize between sql 6 f = target at htarget ⊢
  generalize behind sql (f + 4) = rest at hrest hlen ⊢
  refine returns_ite (returns_parseSelectJoin hrest) fun _ => ?_
  cases findText "GROUP BY" (h.toUppercase rest) with
  | some gb => exact returns_parseSelectGroup hupper htarget hrest gb
  | none =>
    refine returns_ite (returns_parseSelectWindow (hupper target htarget) rest) fun _ => ?_
    refine returns_ite (fun _ => returns_parseSelectAggregate htarget hrest) fun _ => ?_
    exact returns_parseSelectPlain hrest (hp.mono (by omega))

/-! ## The other statements -/

theorem returns_validateIdentifier (name : Bytes) : Returns (validateIdentifier name) := by
  unfold validateIdentifier
  dsimp only
  split
  · exact returns_fail _
  · split
    · exact returns_fail _
    · exact returns_ok _

theorem returns_validateIdentifiers (names : List Bytes) : Returns (validateIdentifiers names) := by
  induction names with
  | nil => exact returns_ok _
  | cons name names ih =>
    rw [validateIdentifiers, returns_bind]
    exact ⟨returns_validateIdentifier name, fun _ _ => ih⟩

theorem returns_validate_bind {name : Bytes} {f : Unit → Parse β} (hf : Returns (f ())) :
    Returns (validateIdentifier name >>= f) :=
  returns_bind.mpr ⟨returns_validateIdentifier name, fun _ _ => hf⟩

theorem returns_validates_bind {names : List Bytes} {f : Unit → Parse β} (hf : Returns (f ())) :
    Returns (validateIdentifiers names >>= f) :=
  returns_bind.mpr ⟨returns_validateIdentifiers names, fun _ _ => hf⟩

theorem returns_cutTrimFrom_pure {s : Bytes} {a : Nat} {g : Bytes → β} :
    Returns (cutTrimFrom s a >>= fun r => pure (g r)) ↔ aligned s [a] := by
  rw [returns_cutTrimFrom_bind, aligned_cons, and_iff_left (aligned_nil _), and_iff_left (returns_pure _)]

theorem returns_parseAlterTable (sql : Bytes) :
    Returns (parseAlterTable h sql) ↔ readsAlterTable h sql := by
  refine returns_ite (fun _ => iff_of_true (returns_fail _) rfl) fun _ => ?_
  rw [returns_cutTrimFrom_bind, Bool.and_eq_true, aligned_cons, and_iff_left (aligned_nil _)]
  refine and_congr_right fun _ => returns_ite (fun _ => returns_cutTrimFrom_pure) fun _ => ?_
  exact returns_ite (fun _ => returns_cutTrimFrom_pure) fun _ => iff_of_true (returns_fail _) rfl

theorem returns_parseCreateUser (sql : Bytes) : Returns (parseCreateUser h sql) :=
  returns_of_need fun _ _ => returns_validate_bind (returns_pure _)

theorem returns_parseCreateSchema (sql : Bytes) :
    Returns (parseCreateSchema sql) ↔ aligned sql [13] := by
  unfold parseCreateSchema
  rw [returns_cutTrimFrom_bind, aligned_cons, and_iff_left (aligned_nil _)]
  exact and_iff_left (returns_validate_bind (returns_pure _))

theorem returns_parseDropTable (sql : Bytes) :
    Returns (parseDropTable sql) ↔ aligned sql [10] := by
  unfold parseDropTable
  rw [returns_cutTrimFrom_bind, aligned_cons, and_iff_left (aligned_nil _)]
  exact and_iff_left (returns_validate_bind (returns_pure _))

theorem returns_parseCreateTable {sql : Bytes} (hs : isUtf8 sql) :
    Returns (parseCreateTable sql) ↔ readsCreateTable sql := by
  refine returns_need fun part hpart => ?_
  have hutf := isUtf8_splitN (by decide) 3 hs part (mem_of_getElem? hpart)
  refine returns_need fun p hp => ?_
  have hat := (boundaries_of_findText hutf (by decide) hp).1
  rw [returns_cutTrim_zero_bind hutf, and_iff_right hat]
  rw [returns_cut_bind, cut_parens_iff hutf hp]
  exact and_iff_left (returns_validate_bind (returns_validates_bind (returns_pure _)))

theorem returns_parseCreateIndex {sql : Bytes} (hs : isUtf8 sql)
    (hstart : startsWith "CREATE INDEX" (h.toUppercase sql)) :
    Returns (parseCreateIndex h sql) ↔ readsCreateIndex h sql := by
  refine returns_need fun on hon => ?_
  refine returns_parts hs (le_of_startsWith hstart (by decide) hon) fun _ hrest => ?_
  refine returns_need fun p hp => returns_need fun e he => ?_
  have hat := (boundaries_of_findText hrest (by decide) hp).1
  have hparens := cut_parens_iff hrest hp
  rw [he, Option.getD_some, Option.all_some] at hparens
  rw [returns_cutTrim_zero_bind hrest, and_iff_right hat, returns_cutTrim_bind, hparens]
  exact and_iff_left (returns_validate_bind (returns_validates_bind (returns_pure _)))

theorem returns_splitValues (inQuotes : Bool) (current s : Bytes) :
    Returns (splitValues inQuotes current s) := by
  fun_induction splitValues inQuotes current s <;>
    first
    | exact returns_fail _
    | exact returns_ok _
    | assumption
    | exact returns_bind_pure.mpr ‹_›

theorem returns_parseTuples (inParens : Bool) (current s : Bytes) :
    Returns (parseTuples inParens current s) := by
  induction s generalizing inParens current with
  | nil => exact returns_ok _
  | cons c s ih =>
    rw [parseTuples]
    split
    · exact ih _ _
    · split
      · rw [returns_bind]
        exact ⟨returns_splitValues _ _ _, fun vals _ => returns_bind_pure.mpr (ih _ _)⟩
      · split
        · exact ih _ _
        · exact ih _ _

theorem returns_parseInsert {sql : Bytes} (hs : isUtf8 sql)
    (hstart : startsWith "INSERT INTO" (h.toUppercase sql)) :
    Returns (parseInsert h sql) ↔ readsInsert h sql := by
  refine returns_need fun v hv => ?_
  rw [← Bool.and_true (aligned _ _)]
  refine returns_parts hs (le_of_startsWith hstart (by decide) hv) fun _ _ => iff_of_true ?_ rfl
  rw [returns_bind]
  exact ⟨returns_parseTuples _ _ _, fun l _ => returns_of_ite (returns_fail _) (returns_pure _)⟩

theorem returns_parseUpdate {sql : Bytes} (hs : isUtf8 sql)
    (hstart : startsWith "UPDATE" (h.toUppercase sql)) :
    Returns (parseUpdate h sql) ↔ readsUpdate h sql := by
  refine returns_need fun s hset => ?_
  have hle : 6 ≤ s := le_of_startsWith hstart (by decide) hset
  -- the assignment at the end never panics
  have hassign {expr : Bytes} (hexpr : isUtf8 expr) {f : Bytes × Bytes → Statement} :
      Returns (parseAssignment expr >>= fun r => pure (f r)) :=
    returns_bind_pure.mpr (returns_parseAssignment hexpr)
  cases hwhere : findText "WHERE" (h.toUppercase sql) with
  | none => exact returns_parts hs hle fun _ hexpr => iff_of_true (hassign hexpr) rfl
  | some w =>
    rw [returns_cutTrim_bind, and_iff_right hle, returns_cutTrim_bind, returns_cutTrimFrom_bind, Option.all_some]
    simp only [Bool.and_eq_true, decide_eq_true_eq, aligned_cons, aligned_nil, and_true, and_assoc]
    refine and_congr_right fun _ => and_congr_right fun _ => ?_
    constructor
    · rintro ⟨hlew, hs3, hw, hw5, hcond⟩
      exact ⟨hs3, hlew, hw, hw5,
        (returns_parseWhereEquality (isUtf8_behind hs hw5)).mp (returns_bind.mp hcond).1⟩
    · rintro ⟨hs3, hlew, hw, hw5, hcond⟩
      refine ⟨hlew, hs3, hw, hw5, returns_bind.mpr ⟨?_, fun r _ => hassign (isUtf8_between hs hs3 hw)⟩⟩
      exact (returns_parseWhereEquality (isUtf8_behind hs hw5)).mpr hcond

theorem returns_parseDelete {sql : Bytes} (hs : isUtf8 sql)
    (hstart : startsWith "DELETE FROM" (h.toUppercase sql)) :
    Returns (parseDelete h sql) ↔ readsDelete h sql := by
  unfold parseDelete readsDelete readsTable
  cases hwhere : findText "WHERE" (h.toUppercase sql) with
  | none =>
    rw [Option.all_none, Bool.and_true]
    exact returns_cutTrimFrom_pure
  | some w =>
    have hjoin : (aligned sql [11] && aligned sql [w, w + 5]) = aligned sql [11, w, w + 5] := by
      simp [aligned]
    rw [Option.all_some, ← Bool.and_assoc, hjoin]
    have hle : 11 ≤ w := le_of_startsWith hstart (by decide) hwhere
    exact returns_parts hs hle fun _ hcond =>
      returns_bind_pure.trans (returns_parseWhereEquality hcond)

/-! ## Statements of statements -/

theorem ascii_of_count {p q : Int} {c : UInt8}
    (hq : (if c = 40 then p + 1 else if c = 41 then p - 1 else p) = q) (hne : q ≠ p) : c < 0x80 := by
  by_cases h40 : c = 40
  · rw [h40]
    decide
  · by_cases h41 : c = 41
    · rw [h41]
      decide
    · rw [if_neg h40, if_neg h41] at hq
      exact absurd hq.symm hne

/-- A parenthesis that is closed later is closed by an ASCII byte. -/
theorem closingParen_inside {p : Int} (hp : p ≠ 0) {i k : Nat} {s : Bytes}
    (hk : closingParen p i s = k) :
    k = 0 ∨ ∃ j, k = i + j ∧ ∃ c : UInt8, c < 0x80 ∧ s[j]? = some c := by
  induction s generalizing p i with
  | nil => exact .inl hk.symm
  | cons c s ih =>
    rw [closingParen] at hk
    generalize hq : (if c = 40 then p + 1 else if c = 41 then p - 1 else p) = q at hk
    by_cases h0 : q = 0
    · rw [if_pos h0] at hk
      exact .inr ⟨0, hk.symm, c, ascii_of_count hq (h0 ▸ hp.symm), rfl⟩
    · rw [if_neg h0] at hk
      rcases ih h0 hk with hzero | ⟨j, hj, hget⟩
      · exact .inl hzero
      · exact .inr ⟨j + 1, by omega, hget⟩

theorem closingParen_spec {i k : Nat} {s : Bytes} (hk : closingParen 0 i s = k) (hlt : i < k) :
    (∃ c : UInt8, c < 0x80 ∧ s[0]? = some c) ∧ ∃ j, k = i + j ∧ ∃ c : UInt8, c < 0x80 ∧ s[j]? = some c := by
  cases s with
  | nil =>
    rw [← hk] at hlt
    exact absurd hlt (Nat.not_lt_zero i)
  | cons c s =>
    rw [closingParen] at hk
    generalize hq : (if c = 40 then (0 : Int) + 1 else if c = 41 then 0 - 1 else 0) = q at hk
    by_cases h0 : q = 0
    · rw [if_pos h0] at hk
      omega
    · rw [if_neg h0] at hk
      rcases closingParen_inside h0 hk with hzero | ⟨j, hj, hget⟩
      · omega
      · exact ⟨⟨c, ascii_of_count hq h0, rfl⟩, j + 1, by omega, hget⟩

/-- The second of two statements is parsed if the first one is accepted. -/
theorem returns_both {x y : Parse Statement} {r r' : Bool} (hx : Returns x ↔ r)
    (hy : Returns y ↔ r') {f : Statement → Statement → Statement} :
    Returns (x >>= fun a => y >>= fun b => pure (f a b)) ↔ r ∧ (!x.isOk || r') := by
  rw [returns_bind, hx]
  refine and_congr_right fun _ => ?_
  cases x with
  | ok a =>
    show _ ↔ (false || r')
    rw [Bool.false_or, ← hy]
    constructor
    · exact fun hall => returns_bind_pure.mp (hall a rfl)
    · exact fun hr b _ => returns_bind_pure.mpr hr
  | error e => exact iff_of_true nofun rfl

theorem returns_parseWith (hupper : h.UpperUtf8) {sql : Bytes} (hs : isUtf8 sql)
    (hp : ReturnsBelow parse readable sql.length) :
    Returns (parseWith parse sql (h.toUppercase sql)) ↔
      readsWith h readable (fun s => (parse s).isOk) sql := by
  refine returns_need fun a ha => ?_
  have hat := (boundaries_of_findText (hupper sql hs) (by decide) ha).1
  rw [returns_cutTrim_bind, returns_cutFrom_bind, and_iff_right hat, Bool.and_eq_true, cuts_iff]
  refine and_congr_right fun _ => returns_need fun p _ => ?_
  rw [returns_cutFrom_bind, returns_cutTrim_bind, returns_cutTrimFrom_bind, Bool.and_assoc, Bool.and_assoc,
    Bool.and_eq_true, Bool.and_eq_true, Bool.and_eq_true, aligned_cons, and_iff_left (aligned_nil _),
    decide_eq_true_eq]
  refine and_congr_right fun hopen => ?_
  generalize hclose : closingParen 0 (a + p) (sql.drop (a + p)) = close
  by_cases hlt : a + p < close
  · -- both parentheses are ASCII, so the text can be cut around them
    obtain ⟨⟨c, hc, hfirst⟩, j, rfl, d, hd, hlast⟩ := closingParen_spec hclose hlt
    rw [List.getElem?_drop] at hfirst hlast
    rw [Nat.add_zero] at hfirst
    have hinside := (isCharBoundary_of_getElem? hs hc hfirst).2
    obtain ⟨hend, hafter⟩ := isCharBoundary_of_getElem? hs hd hlast
    have hlen := (List.getElem?_eq_some_iff.mp hlast).1
    rw [and_iff_right (show a + p + 1 ≤ a + p + j ∧ _ from ⟨hlt, hinside, hend⟩), and_iff_right hafter,
      and_iff_right hlt]
    refine returns_both (hp _ (isUtf8_between hs hinside hend) ?_) (hp _ (isUtf8_behind hs hafter) ?_)
    · have hle := (length_between_le sql (a + p + 1) (a + p + j)).1
      omega
    · have hle := length_behind_le sql (a + p + j + 1)
      omega
  · exact iff_of_false (fun hall => hlt hall.1.1) (fun hall => hlt hall.1)

theorem returns_parseUnion {sql : Bytes} (hs : isUtf8 sql)
    (hp : ReturnsBelow parse readable sql.length) (u : Nat) :
    Returns (parseUnion h parse sql u) ↔
      readsUnion h readable (fun s => (parse s).isOk) sql u := by
  unfold parseUnion readsUnion unionRight
  rw [returns_cutTrim_zero_bind hs, returns_cutTrimFrom_bind]
  simp only [Bool.and_eq_true, aligned_cons, aligned_nil, and_true, and_assoc]
  refine and_congr_right fun hu => and_congr_right fun hu7 => ?_
  have hroom := (isCharBoundary_iff.mp hu7).1
  have hleft := hp _ (isUtf8_between hs (isCharBoundary_zero hs) hu) (by
    have hle := (length_between_le sql 0 u).1
    omega)
  have hutf := isUtf8_behind hs hu7
  have hlen := length_behind_le sql (u + 7)
  generalize behind sql (u + 7) = right at hutf hlen ⊢
  by_cases hall : startsWith "ALL " (h.toUppercase right)
  · rw [if_pos hall, if_pos hall, hall, Bool.not_true, Bool.false_or, returns_cutTrimFrom_bind, aligned_cons,
      and_iff_left (aligned_nil _)]
    refine and_congr_right fun h4 => ?_
    refine returns_both hleft (hp _ (isUtf8_behind hutf h4) ?_)
    have hle := length_behind_le right 4
    omega
  · have hfalse := Bool.not_eq_true _ ▸ hall
    rw [if_neg hall, if_neg hall, hfalse, Bool.not_false, Bool.true_or, and_iff_right rfl]
    exact returns_both hleft (hp _ hutf (by omega))

theorem returns_parseByKeyword (hupper : h.UpperUtf8) {sql : Bytes} (hs : isUtf8 sql)
    (hp : ReturnsBelow parse readable sql.length) :
    Returns (parseByKeyword h parse sql (h.toUppercase sql)) ↔
      readsByKeyword h readable sql (h.toUppercase sql) := by
  refine returns_ite (fun _ => iff_of_true (returns_parseCreateUser sql) rfl) fun _ => ?_
  refine returns_ite (fun _ => returns_parseCreateSchema sql) fun _ => ?_
  refine returns_ite (returns_parseCreateIndex hs) fun _ => ?_
  refine returns_ite (fun _ => returns_parseCreateTable hs) fun _ => ?_
  refine returns_ite (returns_parseInsert hs) fun _ => ?_
  refine returns_ite (fun hstart => returns_parseSelect hupper hs hstart hp) fun _ => ?_
  refine returns_ite (returns_parseUpdate hs) fun _ => ?_
  refine returns_ite (returns_parseDelete hs) fun _ => ?_
  refine returns_ite (fun _ => returns_parseAlterTable sql) fun _ => ?_
  refine returns_ite (fun _ => returns_parseDropTable sql) fun _ => ?_
  -- the last ones have no parts
  refine iff_of_true ?_ rfl
  refine returns_of_ite (returns_ok _) (returns_of_ite (returns_ok _) (returns_of_ite (returns_ok _) ?_))
  exact returns_of_ite (returns_ok _) (returns_of_ite (returns_ok _) (returns_fail _))

theorem length_statement_le (sql : Bytes) :
    (trimEndMatches (· == 59) (trim sql)).length ≤ sql.length := by
  unfold trimEndMatches
  rw [length_reverse]
  refine (dropWhile_sublist _).length_le.trans ?_
  rw [length_reverse]
  exact (sublist_trim sql).length_le

/-- With enough fuel, the parser returns exactly on the texts that can be cut up. The induction is on
the fuel: every query inside a text is shorter than the text. -/
theorem returns_parseWithin (hupper : h.UpperUtf8) (fuel : Nat) :
    ReturnsBelow (parseWithin h fuel) (readableWithin h fuel) fuel := by
  induction fuel with
  | zero => exact fun s _ hlt => absurd hlt (Nat.not_lt_zero _)
  | succ fuel ih =>
    intro sql hs hlt
    rw [parseWithin, readableWithin]
    have hlen := length_statement_le sql
    have hutf : isUtf8 (trimEndMatches (· == 59) (trim sql)) :=
      isUtf8_trimEndMatches (ascii_of_eq (by decide)) (isUtf8_trim hs)
    generalize trimEndMatches (· == 59) (trim sql) = sql' at hlen hutf ⊢
    have hp : ReturnsBelow (parseWithin h fuel) (readableWithin h fuel) sql'.length := ih.mono (by omega)
    split
    · exact returns_parseWith hupper hutf hp
    · cases hu : findText " UNION " (h.toUppercase sql') with
      | some u => exact returns_parseUnion hutf hp u
      | none => exact returns_parseByKeyword hupper hutf hp

end Parser

theorem asciiUpper_cases (b : UInt8) : asciiUpper b = b ∨ b < 0x80 ∧ asciiUpper b < 0x80 := by
  unfold asciiUpper
  split
  · rename_i hb
    simp only [Bool.and_eq_true, decide_eq_true_eq, UInt8.le_iff_toNat_le] at hb
    have hlo : (97 : UInt8).toNat = 97 := rfl
    have hhi : (122 : UInt8).toNat = 122 := rfl
    refine .inr ⟨UInt8.lt_iff_toNat_lt.mpr ?_, UInt8.lt_iff_toNat_lt.mpr ?_⟩
    · show b.toNat < 128
      omega
    · have hsub : (b - 32).toNat = b.toNat - 32 := UInt8.toNat_sub_of_le b 32 (by
        rw [UInt8.le_iff_toNat_le]
        show 32 ≤ b.toNat
        omega)
      rw [hsub]
      show b.toNat - 32 < 128
      omega
  · exact .inl rfl

theorem asciiHost_upperUtf8 : asciiHost.UpperUtf8 := by
  intro s hs
  obtain ⟨cs, hcs, rfl⟩ := isUtf8_iff.mp hs
  refine isUtf8_iff.mpr ⟨cs.map (·.map asciiUpper), fun c hc => ?_, ?_⟩
  · obtain ⟨d, hd, rfl⟩ := mem_map.mp hc
    rcases isChar_cases (hcs d hd) with ⟨b, hb, rfl⟩ | hhigh
    · refine isChar_ascii ?_
      rcases asciiUpper_cases b with hsame | hlow
      · rwa [hsame]
      · exact hlow.2
    · have hsame : d.map asciiUpper = d := by
        refine map_congr_left (g := id) (fun b hb => ?_) |>.trans (map_id d)
        rcases asciiUpper_cases b with hsame | hlow
        · exact hsame
        · exact absurd hlow.1 (UInt8.not_lt.mpr (hhigh b hb))
      rw [hsame]
      exact hcs d hd
  · exact map_flatten

/-- **The parser returns.** On a text, `Parser::parse` gives a statement or an error exactly if the
text can be cut up. -/
theorem parse_returns_iff (h : Host) (hupper : h.UpperUtf8) (sql : Bytes) (hs : isUtf8 sql) :
    Parser.Returns (Parser.parse h sql) ↔ Parser.readable h sql :=
  Parser.returns_parseWithin hupper (sql.length + 1) sql hs (Nat.lt_succ_self _)

theorem parse_returns_on_cafes :
    Parser.Returns (Parser.parse asciiHost
      "WITH big AS (SELECT * FROM cafés WHERE seats > 10) SELECT * FROM big WHERE city = 'Zürich'") :=
  (parse_returns_iff asciiHost asciiHost_upperUtf8 _ (by decide +kernel)).mpr (by decide +kernel)

theorem parse_panics_on_where_before_set :
    Parser.parse asciiHost "UPDATE t WHERE id = 1 SET v = 2" = .error .panic := by
  decide +kernel

end MagnumDB
