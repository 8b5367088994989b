import MagnumDB.Lib.Utf8

/-!
# Parts of texts

A text that is cut between characters falls into texts (`isUtf8_parts`). An ASCII byte is a
character of its own, so a text can be cut on both sides of it (`isCharBoundary_of_find`), and the
operations that look for ASCII bytes or white space give texts again.
-/

namespace Text

open List

variable {a b c s t : List UInt8}

/-! ## Where characters begin -/

variable {x : UInt8}

theorem startsChar_eq_false (hx : isContinuation x) (s : List UInt8) :
    startsChar (x :: s) = false := by
  have hstart : ∀ x : UInt8, isContinuation x → startsChar [x] = false := by
    grind [isContinuation, startsChar]
  exact hstart x hx

/-- A character begins with a byte that begins one, and goes on with bytes that do not. -/
theorem isChar_cons (hc : IsChar (x :: s)) :
    startsChar [x] ∧ ∀ y ∈ s, isContinuation y := by
  obtain ⟨hw, hgood⟩ := isChar_cons_iff.mp hc
  have hstart : ∀ x : UInt8, charWidth x ≠ 0 → startsChar [x] := by
    grind [charWidth, startsChar]
  exact ⟨hstart x (by omega), hgood.forall_mem⟩

/-- A text begins with a character. -/
theorem startsChar_of_isUtf8 (hs : isUtf8 s) : startsChar s := by
  obtain ⟨cs, hcs, rfl⟩ := isUtf8_iff.mp hs
  cases cs with
  | nil => rfl
  | cons c cs =>
    have hc := hcs c mem_cons_self
    obtain ⟨x, rest, rfl⟩ := exists_cons_of_ne_nil hc.1
    exact (isChar_cons hc).1

/-- **Cutting between characters.** -/
theorem isUtf8_parts (hs : isUtf8 (a ++ b)) (hb : startsChar b) :
    isUtf8 a ∧ isUtf8 b := by
  obtain ⟨cs, hcs, heq⟩ := isUtf8_iff.mp hs
  clear hs
  induction cs generalizing a with
  | nil =>
    obtain ⟨rfl, rfl⟩ := append_eq_nil_iff.mp heq
    exact ⟨rfl, rfl⟩
  | cons c cs ih =>
    obtain ⟨hc, hrest⟩ := forall_mem_cons.mp hcs
    rw [flatten_cons] at heq
    cases a with
    | nil =>
      refine ⟨rfl, isUtf8_iff.mpr ⟨c :: cs, hcs, ?_⟩⟩
      rw [flatten_cons]
      exact heq
    | cons x a =>
      rcases append_eq_append_iff.mp heq with ⟨d, rfl, hd⟩ | ⟨d, hd, htail⟩
      · -- the cut is inside the first character, or at its end
        cases d with
        | nil =>
          rw [append_nil] at hc
          refine ⟨isUtf8_iff.mpr ⟨[x :: a], by simpa using hc, by simp⟩, ?_⟩
          exact isUtf8_iff.mpr ⟨cs, hrest, hd⟩
        | cons y d =>
          have hcont : isContinuation y := (isChar_cons hc).2 y (by simp)
          rw [hd, cons_append, startsChar_eq_false hcont] at hb
          exact nomatch hb
      · obtain ⟨ha, hb⟩ := ih hrest htail.symm
        rw [hd]
        exact ⟨isUtf8_append (isUtf8_iff.mpr ⟨[c], by simpa using hc, by simp⟩) ha, hb⟩

theorem isCharBoundary_iff {i : Nat} :
    isCharBoundary s i ↔ i ≤ s.length ∧ startsChar (s.drop i) := by
  by_cases hi : i ≤ s.length
  · have happ := isCharBoundary_append (s.take i) (s.drop i)
    rw [take_append_drop, length_take, Nat.min_eq_left hi] at happ
    rw [happ]
    exact ⟨fun h => ⟨hi, h⟩, fun h => h.2⟩
  · have hnone : s[i]? = none := getElem?_eq_none (by omega)
    unfold isCharBoundary
    rw [hnone]
    refine ⟨fun h => absurd (beq_iff_eq.mp h) (by omega), fun h => absurd h.1 hi⟩

theorem isCharBoundary_length (s : List UInt8) : isCharBoundary s s.length := by
  rw [isCharBoundary_iff, drop_length]
  exact ⟨le_rfl, rfl⟩

theorem isCharBoundary_zero (hs : isUtf8 s) : isCharBoundary s 0 :=
  isCharBoundary_iff.mpr ⟨Nat.zero_le _, startsChar_of_isUtf8 hs⟩

theorem isUtf8_cut {i : Nat} (hs : isUtf8 s) (hi : isCharBoundary s i) :
    isUtf8 (s.take i) ∧ isUtf8 (s.drop i) := by
  refine isUtf8_parts ?_ (isCharBoundary_iff.mp hi).2
  rwa [take_append_drop]

/-- What is between two cuts is a text. -/
theorem isUtf8_middle {i j : Nat} (hs : isUtf8 s) (hi : isCharBoundary s i)
    (hj : isCharBoundary s j) : isUtf8 ((s.drop i).take (j - i)) := by
  by_cases hle : i ≤ j
  · refine (isUtf8_cut (isUtf8_cut hs hi).2 ?_).1
    obtain ⟨hlen, hstart⟩ := isCharBoundary_iff.mp hj
    rw [isCharBoundary_iff, length_drop, drop_drop, Nat.add_sub_cancel' hle]
    exact ⟨by omega, hstart⟩
  · rw [Nat.sub_eq_zero_of_le (by omega)]
    rfl

/-! ## ASCII bytes -/

theorem isUtf8_of_ascii_append (ha : ∀ x ∈ a, x < 0x80) (hs : isUtf8 (a ++ b)) :
    isUtf8 b := by
  induction a with
  | nil => exact hs
  | cons x a ih =>
    obtain ⟨hx, ha⟩ := forall_mem_cons.mp ha
    refine ih ha ?_
    obtain ⟨cs, hcs, heq⟩ := isUtf8_iff.mp hs
    cases cs with
    | nil => exact nomatch heq
    | cons c cs =>
      obtain ⟨hc, hrest⟩ := forall_mem_cons.mp hcs
      rw [flatten_cons, cons_append] at heq
      rcases isChar_cases hc with ⟨y, -, rfl⟩ | hhigh
      · exact isUtf8_iff.mpr ⟨cs, hrest, tail_eq_of_cons_eq heq⟩
      · obtain ⟨y, rest, rfl⟩ := exists_cons_of_ne_nil hc.1
        obtain rfl := head_eq_of_cons_eq heq
        exact absurd hx (UInt8.not_lt.mpr (hhigh x mem_cons_self))

theorem startsChar_ascii (hx : x < 0x80) (s : List UInt8) : startsChar (x :: s) := by
  rw [startsChar, decide_eq_true hx, Bool.true_or]

/-- ASCII bytes in the middle have a text before and after them. -/
theorem isUtf8_around (hx : x < 0x80) (hs : isUtf8 (a ++ x :: b)) :
    isUtf8 a ∧ isUtf8 b := by
  obtain ⟨ha, hxb⟩ := isUtf8_parts hs (startsChar_ascii hx b)
  refine ⟨ha, @isUtf8_of_ascii_append [x] b ?_ hxb⟩
  rintro y (_ | ⟨_, hy⟩)
  · exact hx
  · exact nomatch hy

/-- A text can be cut before and after a part that is ASCII. -/
theorem isCharBoundary_of_front {kw : List UInt8} {i : Nat} (hs : isUtf8 s) (hne : kw ≠ [])
    (hkw : ∀ x ∈ kw, x < 0x80) (hpre : kw <+: s.drop i) :
    isCharBoundary s i ∧ isCharBoundary s (i + kw.length) := by
  obtain ⟨rest, hrest⟩ := hpre
  obtain ⟨x, kw', rfl⟩ := exists_cons_of_ne_nil hne
  have hlen : i + (x :: kw').length + rest.length = s.length := by
    have h := congrArg List.length hrest
    rw [length_append, length_drop, length_cons] at h
    rw [length_cons]
    omega
  have hfirst : isCharBoundary s i := by
    rw [isCharBoundary_iff, ← hrest]
    exact ⟨by omega, startsChar_ascii (hkw x mem_cons_self) _⟩
  refine ⟨hfirst, ?_⟩
  rw [isCharBoundary_iff, ← drop_drop, ← hrest, drop_left]
  refine ⟨by omega, startsChar_of_isUtf8 (isUtf8_of_ascii_append hkw ?_)⟩
  rw [hrest]
  exact (isUtf8_cut hs hfirst).2

theorem isCharBoundary_of_find {kw : List UInt8} {i : Nat} (hs : isUtf8 s) (hne : kw ≠ [])
    (hkw : ∀ x ∈ kw, x < 0x80) (hfind : find kw s = some i) :
    isCharBoundary s i ∧ isCharBoundary s (i + kw.length) :=
  isCharBoundary_of_front hs hne hkw (find_eq_some_iff.mp hfind).2.1

theorem getElem?_of_rfind {i : Nat} (h : rfind x s = some i) : s[i]? = some x := by
  obtain ⟨j, hj, rfl⟩ := Option.map_eq_some_iff.mp h
  obtain ⟨hlt, hx, -⟩ := findIdx?_eq_some_iff_getElem.mp hj
  rw [length_reverse] at hlt
  rw [getElem?_eq_getElem (by omega), ← beq_iff_eq.mp hx, getElem_reverse]

theorem isCharBoundary_of_getElem? {i : Nat} (hs : isUtf8 s) (hx : x < 0x80)
    (hi : s[i]? = some x) : isCharBoundary s i ∧ isCharBoundary s (i + 1) := by
  obtain ⟨hlt, hget⟩ := List.getElem?_eq_some_iff.mp hi
  refine @isCharBoundary_of_front s [x] i hs (List.cons_ne_nil _ _) (by simpa using hx) ?_
  rw [List.drop_eq_getElem_cons hlt, hget]
  exact ⟨_, rfl⟩

/-! ## Operations that give texts -/

theorem isUtf8_dropWhile {p : UInt8 → Bool} (hp : ∀ x, p x → x < 0x80) (hs : isUtf8 s) :
    isUtf8 (s.dropWhile p) := by
  refine @isUtf8_of_ascii_append (s.takeWhile p) _ (fun x hx => hp x (mem_takeWhile_imp hx)) ?_
  rwa [takeWhile_append_dropWhile]

theorem isUtf8_trimEndMatches {p : UInt8 → Bool} (hp : ∀ x, p x → x < 0x80)
    (hs : isUtf8 s) : isUtf8 (trimEndMatches p s) := by
  have hsplit : (s.reverse.dropWhile p).reverse ++ (s.reverse.takeWhile p).reverse = s := by
    rw [← reverse_append, takeWhile_append_dropWhile, reverse_reverse]
  rw [← hsplit] at hs
  refine (isUtf8_parts hs ?_).1
  cases htail : (s.reverse.takeWhile p).reverse with
  | nil => rfl
  | cons x rest =>
    have hmem : x ∈ s.reverse.takeWhile p := by
      rw [← mem_reverse, htail]
      exact mem_cons_self
    exact startsChar_ascii (hp x (mem_takeWhile_imp hmem)) rest

theorem isUtf8_trimMatches {p : UInt8 → Bool} (hp : ∀ x, p x → x < 0x80)
    (hs : isUtf8 s) : isUtf8 (trimMatches p s) :=
  isUtf8_trimEndMatches hp (isUtf8_dropWhile hp hs)

theorem isWideSpace_bytes {y z : UInt8} (h : isWideSpace x y z) :
    charWidth x = 3 ∧ isSecond x y ∧ isContinuation z := by
  unfold isWideSpace at h
  simp only [Bool.or_eq_true, Bool.and_eq_true, beq_iff_eq, decide_eq_true_eq] at h
  rcases h with ((⟨⟨rfl, rfl⟩, rfl⟩ | ⟨⟨rfl, rfl⟩, hz⟩) | ⟨⟨rfl, rfl⟩, rfl⟩) | ⟨⟨rfl, rfl⟩, rfl⟩
  · decide
  · refine ⟨by decide, by decide, ?_⟩
    rcases hz with ((⟨hlo, hhi⟩ | rfl) | rfl) | rfl
    · exact Bool.and_eq_true_iff.mpr ⟨decide_eq_true hlo,
        decide_eq_true (UInt8.le_trans hhi (by decide))⟩
    · decide
    · decide
    · decide
  · decide
  · decide

/-- White space is a whole character. -/
theorem isChar_of_isSpace {c : List UInt8} (hc : isSpace c) : IsChar c := by
  have hone : ∀ x : UInt8, isSpace [x] → x < 0x80 := by grind [isSpace]
  revert hc
  fun_cases isSpace c with
  | case1 x => exact fun h => isChar_ascii (hone x h)
  | case2 x y =>
    intro h
    simp only [Bool.and_eq_true, Bool.or_eq_true, beq_iff_eq] at h
    rcases h with ⟨rfl, rfl | rfl⟩
    · exact ⟨by simp, rfl⟩
    · exact ⟨by simp, rfl⟩
  | case3 x y z =>
    intro h
    obtain ⟨hw, hy, hz⟩ := isWideSpace_bytes h
    refine isChar_cons_iff.mpr ⟨hw, fun _ he => ?_⟩
    obtain rfl := Option.some.inj he
    exact ⟨hy, forall_mem_singleton.mpr hz⟩
  | case4 => simp

theorem isUtf8_drop_spaceWidth (hs : isUtf8 s) : isUtf8 (s.drop (spaceWidth s)) := by
  rcases isSpace_take s with h | h
  · rwa [h]
  obtain ⟨cs, hcs, rfl⟩ := isUtf8_iff.mp hs
  cases cs with
  | nil => rfl
  | cons c cs =>
    obtain ⟨hc, hrest⟩ := forall_mem_cons.mp hcs
    -- the white space is the first of the characters
    have hfirst := firstChar_append (isChar_of_isSpace h) ((c :: cs).flatten.drop (spaceWidth (c :: cs).flatten))
    have hle := spaceWidth_le_length (c :: cs).flatten
    rw [take_append_drop, length_take, Nat.min_eq_left hle, flatten_cons,
      firstChar_append hc] at hfirst
    rw [flatten_cons, ← (Prod.mk.inj hfirst).1, drop_left]
    exact isUtf8_iff.mpr ⟨cs, hrest, rfl⟩

/-- White space at the end begins with a byte that begins a character. -/
theorem startsChar_take_spaceWidthBack (r : List UInt8) :
    startsChar (r.take (spaceWidthBack r)).reverse := by
  rcases isSpace_takeBack r with h | h
  · rw [h]
    rfl
  · exact startsChar_of_isUtf8 (isUtf8_iff.mpr ⟨[_], by simpa using isChar_of_isSpace h, by simp⟩)

theorem isUtf8_trimStart (hs : isUtf8 s) : isUtf8 (trimStart s) := by
  unfold trimStart
  generalize s.length = n
  induction n generalizing s with
  | zero => exact hs
  | succ n ih =>
    rw [dropSpaces]
    split
    · exact hs
    · exact ih (isUtf8_drop_spaceWidth hs)

theorem isUtf8_trimEnd (hs : isUtf8 s) : isUtf8 (trimEnd s) := by
  unfold trimEnd
  generalize hr : s.reverse = r
  generalize s.length = n
  obtain rfl : s = r.reverse := by rw [← hr, reverse_reverse]
  clear hr
  induction n generalizing r with
  | zero => exact hs
  | succ n ih =>
    rw [dropSpaces]
    split
    · exact hs
    · refine ih _ (isUtf8_parts (b := (r.take (spaceWidthBack r)).reverse) ?_
        (startsChar_take_spaceWidthBack r)).1
      rwa [← reverse_append, take_append_drop]

theorem isUtf8_trim (hs : isUtf8 s) : isUtf8 (trim s) :=
  isUtf8_trimEnd (isUtf8_trimStart hs)

theorem isUtf8_splitOn {sep : UInt8} (hsep : sep < 0x80) (hs : isUtf8 s) :
    ∀ p ∈ splitOn sep s, isUtf8 p := by
  induction hn : s.length using Nat.strong_induction_on generalizing s with
  | _ n ih =>
    by_cases hmem : sep ∈ s
    · obtain ⟨a, b, rfl, ha⟩ := eq_append_cons_of_mem hmem
      obtain ⟨hua, hub⟩ := isUtf8_around hsep hs
      rw [splitOn_append_cons, splitOn_of_not_mem ha]
      refine forall_mem_cons.mpr ⟨hua, ih b.length ?_ hub rfl⟩
      rw [← hn, length_append, length_cons]
      omega
    · rw [splitOn_of_not_mem hmem]
      exact forall_mem_cons.mpr ⟨hs, nofun⟩

theorem isUtf8_splitN {sep : UInt8} (hsep : sep < 0x80) (n : Nat) (hs : isUtf8 s) :
    ∀ p ∈ splitN sep n s, isUtf8 p := by
  induction n generalizing s with
  | zero => exact nofun
  | succ n ih =>
    cases n with
    | zero => exact forall_mem_cons.mpr ⟨hs, nofun⟩
    | succ n =>
      rw [splitN]
      cases hi : s.findIdx? (· == sep) with
      | none => exact forall_mem_cons.mpr ⟨hs, nofun⟩
      | some i =>
        obtain ⟨hlt, hx, -⟩ := findIdx?_eq_some_iff_getElem.mp hi
        have hget : s[i]? = some sep := by
          rw [getElem?_eq_getElem hlt, beq_iff_eq.mp hx]
        obtain ⟨hat, hafter⟩ := isCharBoundary_of_getElem? hs hsep hget
        exact forall_mem_cons.mpr ⟨(isUtf8_cut hs hat).1, ih (isUtf8_cut hs hafter).2⟩

end Text
