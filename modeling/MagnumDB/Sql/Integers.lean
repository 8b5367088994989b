import MagnumDB.Lib.Words
import MagnumDB.Sql.AsciiHost

/-!
# Integers among the numbers

The parts of `f64` that matter for cells with decimal integers: such a text is a number, and a
comparison with an integer of magnitude below `2 ^ 53` comes out as for integers, whatever the
other integer is rounded to.
-/

namespace MagnumDB

open Text

/-- A decimal integer: digits, with an optional sign. -/
def parseInteger (s : Bytes) : Option Int :=
  match s with
  | 45 :: digits => (parseDigits digits).map fun n => -(n : Int)
  | 43 :: digits => (parseDigits digits).map Int.ofNat
  | digits => (parseDigits digits).map Int.ofNat

/-- What is asked of `f64`. -/
structure Host.ExactIntegers (h : Host) : Prop where
  parses : ∀ s n, parseInteger s = some n → ∃ x, h.parseF64 s = some x
  compares : ∀ s t m n x y, parseInteger s = some m → parseInteger t = some n →
    m.natAbs < 2 ^ 53 ∨ n.natAbs < 2 ^ 53 → h.parseF64 s = some x → h.parseF64 t = some y →
    h.cmpF64 x y = some (compare m n) ∧ h.nearF64 x y = (compare m n).isEq

/-- A host whose numbers are the integers. -/
def integerHost : Host := { asciiHost with parseF64 := parseInteger }

theorem integerHost_exactIntegers : integerHost.ExactIntegers where
  parses _ n hn := ⟨n, hn⟩
  compares s t m n x y hs ht _ hx hy := by
    obtain rfl : m = x := Option.some.inj (hs.symm.trans hx)
    obtain rfl : n = y := Option.some.inj (ht.symm.trans hy)
    refine ⟨rfl, Bool.eq_iff_iff.mpr ?_⟩
    show (m == n) ↔ _
    rw [beq_iff_eq, Ordering.isEq_iff_eq_eq, compare_eq_iff_eq]

theorem parseInteger_decimal (n : Nat) : parseInteger (decimal n) = some (n : Int) := by
  unfold parseInteger
  split
  · rename_i digits hd
    have := digit_of_mem_decimal (n := n) (b := 45) (by rw [hd]; exact List.mem_cons_self)
    exact absurd this.1 (by decide)
  · rename_i digits hd
    have := digit_of_mem_decimal (n := n) (b := 43) (by rw [hd]; exact List.mem_cons_self)
    exact absurd this.1 (by decide)
  · rw [parseDigits_decimal]
    rfl

end MagnumDB
