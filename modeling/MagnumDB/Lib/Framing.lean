import Mathlib.Algebra.GroupWithZero.Nat
import Mathlib.Order.Bounds.Basic
import Mathlib.Data.List.Basic

/-!
# Logs cut at an arbitrary place

A log file is the concatenation of encoded records, where the encoding of a
record may depend on its position. Cutting the file anywhere leaves the records
that fit before the cut, and then a strict prefix of the next one.
-/

namespace Framing

open List

variable {α R : Type} (enc : Nat → R → List α)

/-- The file that holds the records at positions `n, n + 1, ...`. -/
def encodeFrom : Nat → List R → List α
  | _, [] => []
  | n, r :: rs => enc n r ++ encodeFrom (n + 1) rs

theorem encodeFrom_append (n : Nat) (a b : List R) :
    encodeFrom enc n (a ++ b) = encodeFrom enc n a ++ encodeFrom enc (n + a.length) b := by
  induction a generalizing n with
  | nil => rfl
  | cons r a ih =>
    have hn : n + 1 + a.length = n + (r :: a).length := by simp only [length_cons]; omega
    simp only [cons_append, encodeFrom, ih, hn, append_assoc]

/-- `j` records are the most that fit in `k` positions of the file. -/
def Whole (n : Nat) (rs : List R) (k j : Nat) : Prop :=
  IsGreatest {i | i ≤ rs.length ∧ (encodeFrom enc n (rs.take i)).length ≤ k} j

/-- What a cut leaves of the record it falls into. -/
def Torn (n : Nat) (r : R) (torn : List α) : Prop := torn <+: enc n r ∧ torn ≠ enc n r

/-- **A cut leaves the records before it and a strict prefix of the next one.** -/
theorem take_encodeFrom (rs : List R) (n k : Nat) :
    ∃ j torn, Whole enc n rs k j ∧
      (encodeFrom enc n rs).take k = encodeFrom enc n (rs.take j) ++ torn ∧
      (torn = [] ∨ ∃ r ∈ rs, Torn enc (n + j) r torn) := by
  induction rs generalizing n k with
  | nil =>
    refine ⟨0, [], ⟨⟨Nat.le_refl _, Nat.zero_le _⟩, fun i hi => hi.1⟩, ?_, Or.inl rfl⟩
    simp [encodeFrom]
  | cons r rs ih =>
    by_cases hfit : (enc n r).length ≤ k
    · obtain ⟨j, torn, ⟨⟨hj, hjk⟩, hmax⟩, htake, htorn⟩ := ih (n + 1) (k - (enc n r).length)
      refine ⟨j + 1, torn, ⟨⟨by simpa using hj, ?_⟩, ?_⟩, ?_, ?_⟩
      · simp only [take_succ_cons, encodeFrom, length_append]
        omega
      · intro i hi
        obtain ⟨hi, hik⟩ := hi
        cases i with
        | zero => exact Nat.zero_le _
        | succ i =>
          simp only [take_succ_cons, encodeFrom, length_append] at hik
          have := hmax ⟨by simpa using hi, by omega⟩
          omega
      · simp only [encodeFrom, take_succ_cons, append_assoc]
        rw [take_append, take_of_length_le hfit, htake]
      · rcases htorn with h | ⟨r', hr', h⟩
        · exact Or.inl h
        · have hn : n + 1 + j = n + (j + 1) := by omega
          exact Or.inr ⟨r', mem_cons_of_mem _ hr', hn ▸ h⟩
    · -- the cut falls into the first record
      have hlt : k < (enc n r).length := Nat.lt_of_not_le hfit
      refine ⟨0, (enc n r).take k, ⟨⟨Nat.zero_le _, Nat.zero_le _⟩, ?_⟩, ?_, Or.inr ⟨r, ?_, ?_, ?_⟩⟩
      · intro i hi
        obtain ⟨_, hik⟩ := hi
        cases i with
        | zero => exact Nat.le_refl _
        | succ i =>
          simp only [take_succ_cons, encodeFrom, length_append] at hik
          omega
      · simp only [encodeFrom, take_zero, nil_append]
        rw [take_append_of_le_length (Nat.le_of_lt hlt)]
      · exact mem_cons_self
      · exact take_prefix k _
      · intro h
        have := congrArg List.length h
        rw [length_take, Nat.add_zero] at this
        omega

end Framing
