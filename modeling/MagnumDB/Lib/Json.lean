import MagnumDB.Lib.Text

/-!
# Records as JSON

Writers for texts, truth values, optional values, lists and records with a fixed order
of fields, each with a reader that takes what was written off the front of the input.
The output is that of a compact JSON encoder for texts without control characters.
-/

namespace Json

open Text List

/-- Takes a value off the front of the input. -/
abbrev Reader (α : Type) : Type := List UInt8 → Option (α × List UInt8)

/-- The reader takes off what the writer has written. -/
def Reads {α : Type} (r : Reader α) (w : α → List UInt8) : Prop :=
  ∀ a rest, r (w a ++ rest) = some (a, rest)

variable {α β : Type} {r : Reader α} {w : α → List UInt8}

/-! ## Fixed parts -/

/-- Take a fixed text off the front. -/
def literal (lit : List UInt8) (s : List UInt8) : Option (List UInt8) :=
  if lit.isPrefixOf s then some (s.drop lit.length) else none

@[simp] theorem literal_append (lit rest : List UInt8) : literal lit (lit ++ rest) = some rest := by
  unfold literal
  rw [if_pos ( isPrefixOf_iff_prefix.mpr (prefix_append lit rest)), drop_left]

/-! ## Texts -/

/-- Quotation marks and backslashes are preceded by a backslash. -/
def escape (b : UInt8) : List UInt8 := if b = 34 ∨ b = 92 then [92, b] else [b]

def writeText (s : List UInt8) : List UInt8 := 34 :: (s.flatMap escape ++ [34])

/-- The rest of a text, up to the quotation mark at its end. -/
def readChars : Reader (List UInt8)
  | [] => none
  | [b] => if b = 34 then some ([], []) else none
  | b :: c :: rest =>
    if b = 34 then some ([], c :: rest)
    else if b = 92 then (readChars rest).map fun r => (c :: r.1, r.2)
    else (readChars (c :: rest)).map fun r => (b :: r.1, r.2)

def readText : Reader (List UInt8)
  | [] => none
  | b :: rest => if b = 34 then readChars rest else none

theorem readChars_escape (s rest : List UInt8) :
    readChars (s.flatMap escape ++ 34 :: rest) = some (s, rest) := by
  induction s with
  | nil =>
    cases rest with
    | nil => rfl
    | cons c rest => rfl
  | cons b s ih =>
    rw [flatMap_cons, append_assoc]
    unfold escape at ih ⊢
    by_cases hb : b = 34 ∨ b = 92
    · rw [if_pos hb]
      show (readChars (s.flatMap _ ++ 34 :: rest)).map _ = _
      rw [ih]
      rfl
    · rw [if_neg hb]
      obtain ⟨hquote, hslash⟩ := not_or.mp hb
      -- something follows, at least the quotation mark at the end
      obtain ⟨c, l, hl⟩ : ∃ c l, s.flatMap (fun b => if b = 34 ∨ b = 92 then [92, b] else [b]) ++
          34 :: rest = c :: l := exists_cons_of_ne_nil (by simp)
      rw [hl] at ih ⊢
      show readChars (b :: c :: l) = _
      rw [readChars, if_neg hquote, if_neg hslash, ih]
      rfl

theorem reads_text : Reads readText writeText := by
  intro s rest
  show readChars (s.flatMap escape ++ [34] ++ rest) = _
  rw [append_assoc]
  exact readChars_escape s rest

/-! ## Truth values and optional values -/

def writeBool (b : Bool) : List UInt8 := if b then "true" else "false"

def readBool : Reader Bool := fun s =>
  match literal "true" s with
  | some rest => some (true, rest)
  | none => (literal "false" s).map fun rest => (false, rest)

theorem reads_bool : Reads readBool writeBool := by
  intro b rest
  cases b with
  | true =>
    unfold readBool writeBool
    rw [if_pos rfl, literal_append]
  | false =>
    have hno : literal "true" ("false" ++ rest) = none := rfl
    show readBool ("false" ++ rest) = _
    unfold readBool
    rw [hno, literal_append]
    rfl

def writeOption (w : α → List UInt8) : Option α → List UInt8
  | none => "null"
  | some a => w a

def readOption (r : Reader α) : Reader (Option α) := fun s =>
  match literal "null" s with
  | some rest => some (none, rest)
  | none => (r s).map fun x => (some x.1, x.2)

theorem reads_option (h : Reads r w)
    (hw : ∀ a rest, literal "null" (w a ++ rest) = none) :
    Reads (readOption r) (writeOption w) := by
  intro o rest
  cases o with
  | none =>
    show readOption r ("null" ++ rest) = _
    unfold readOption
    rw [literal_append]
  | some a =>
    show readOption r (w a ++ rest) = _
    unfold readOption
    rw [hw a rest, h a rest]
    rfl

theorem text_not_null (s rest : List UInt8) :
    literal "null" (writeText s ++ rest) = none := rfl

/-! ## Lists -/

def writeItems (w : α → List UInt8) : List α → List UInt8
  | [] => [93]
  | [a] => w a ++ [93]
  | a :: as => w a ++ 44 :: writeItems w as

def writeList (w : α → List UInt8) (as : List α) : List UInt8 := 91 :: writeItems w as

/-- Items up to the closing bracket, at most as many as given. -/
def readItems (r : Reader α) : Nat → Reader (List α)
  | 0, _ => none
  | n + 1, s =>
    match r s with
    | none => none
    | some (a, rest) =>
      match rest with
      | [] => none
      | b :: rest =>
        if b = 93 then some ([a], rest)
        else (readItems r n rest).map fun x => (a :: x.1, x.2)

def readList (r : Reader α) : Reader (List α) := fun s =>
  match literal [91, 93] s with
  | some rest => some ([], rest)
  | none => (literal [91] s).bind fun rest => readItems r rest.length rest

theorem readItems_write (h : Reads r w) {as : List α} {rest : List UInt8} (hne : as ≠ []) :
    ∀ {n : Nat}, as.length ≤ n → readItems r n (writeItems w as ++ rest) = some (as, rest) := by
  induction as with
  | nil => exact absurd rfl hne
  | cons a as ih =>
    intro n hn
    obtain ⟨n, rfl⟩ : ∃ k, n = k + 1 := ⟨n - 1, by simp at hn; omega⟩
    cases as with
    | nil =>
      show readItems r (n + 1) (w a ++ [93] ++ rest) = _
      rw [append_assoc, readItems, h a]
      rfl
    | cons a' as =>
      show readItems r (n + 1) (w a ++ 44 :: writeItems w (a' :: as) ++ rest) = _
      have htail := ih (by simp) (n := n) (by simpa using hn)
      rw [append_assoc, readItems, h a]
      show (readItems r n (writeItems w (a' :: as) ++ rest)).map _ = _
      rw [htail]
      rfl

theorem length_le_writeItems (w : α → List UInt8) : ∀ as : List α, as.length ≤ (writeItems w as).length
  | [] => by simp
  | [a] => by simp [writeItems]
  | a :: a' :: as => by
    have ih := length_le_writeItems w (a' :: as)
    simp only [writeItems, length_append, length_cons] at ih ⊢
    omega

theorem reads_list (h : Reads r w) (hw : ∀ a rest, literal [91, 93] (91 :: (w a ++ rest)) = none) :
    Reads (readList r) (writeList w) := by
  intro as rest
  show readList r (91 :: (writeItems w as ++ rest)) = _
  unfold readList
  cases as with
  | nil => rfl
  | cons a as =>
    -- what is written first is an item, not the closing bracket
    have hitem : ∃ more, writeItems w (a :: as) = w a ++ more := by
      cases as with
      | nil => exact ⟨_, rfl⟩
      | cons a' as => exact ⟨_, rfl⟩
    obtain ⟨more, hmore⟩ := hitem
    have hno : literal [91, 93] (91 :: (writeItems w (a :: as) ++ rest)) = none := by
      rw [hmore, append_assoc]
      exact hw a _
    have hopen : literal [91] (91 :: (writeItems w (a :: as) ++ rest))
        = some (writeItems w (a :: as) ++ rest) :=
      literal_append [91] _
    rw [hno, hopen]
    refine readItems_write h (by simp) ?_
    have hlen := length_le_writeItems w (a :: as)
    rw [length_append]
    omega

theorem text_not_closing (s rest : List UInt8) :
    literal [91, 93] (91 :: (writeText s ++ rest)) = none := rfl

/-! ## Records -/

/-- A field: a fixed text and then the value. -/
def readField (lit : List UInt8) (r : Reader α) : Reader α := fun s => (literal lit s).bind r

theorem readField_write (h : Reads r w) (lit : List UInt8) (a : α) (rest : List UInt8) :
    readField lit r (lit ++ (w a ++ rest)) = some (a, rest) := by
  unfold readField
  rw [literal_append]
  exact h a rest

end Json
