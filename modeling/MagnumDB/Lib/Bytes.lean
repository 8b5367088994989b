import Mathlib.Algebra.GroupWithZero.Nat
import Mathlib.Order.Lattice
import Mathlib.Data.List.Basic
import Mathlib.Data.List.DropRight
import Mathlib.Order.Basic
import Mathlib.Order.Defs.LinearOrder
import Mathlib.Data.List.Lex

/-!
# Byte strings

Little-endian numbers, slices of a byte string and writes into one. Everything a
fixed-layout binary format needs, stated once: a number written and read back is
itself modulo the width, a slice of a concatenation that falls on a boundary is
the part between the boundaries, and a write is seen by exactly the slices that
meet it.
-/

namespace ByteString

open List

/-! ## Little-endian numbers -/

/-- The `w` low bytes of `n`, least significant first. -/
def leBytes : Nat → Nat → List UInt8
  | 0, _ => []
  | w + 1, n => UInt8.ofNat n :: leBytes w (n / 256)

/-- The number a little-endian byte string stands for. -/
def leNat : List UInt8 → Nat
  | [] => 0
  | b :: bs => b.toNat + 256 * leNat bs

@[simp] theorem leBytes_length (w n : Nat) : (leBytes w n).length = w := by
  induction w generalizing n with
  | zero => rfl
  | succ w ih => simp [leBytes, ih]

/-- Writing a number in `w` bytes keeps it modulo `256 ^ w`. -/
theorem leNat_leBytes (w n : Nat) : leNat (leBytes w n) = n % 256 ^ w := by
  induction w generalizing n with
  | zero => simp [leBytes, leNat, Nat.mod_one]
  | succ w ih =>
    have hb : (UInt8.ofNat n).toNat = n % 256 := by simp
    simp only [leBytes, leNat, ih, hb]
    rw [Nat.pow_succ, Nat.mul_comm (256 ^ w) 256, Nat.mod_mul]

/-- A number that fits its field is read back unchanged. -/
theorem leNat_leBytes_of_lt {w n : Nat} (h : n < 256 ^ w) : leNat (leBytes w n) = n := by
  rw [leNat_leBytes, Nat.mod_eq_of_lt h]

theorem leNat_lt (bs : List UInt8) : leNat bs < 256 ^ bs.length := by
  induction bs with
  | nil => exact Nat.one_pos
  | cons b bs ih =>
    have hb := b.toNat_lt
    rw [leNat, length_cons, Nat.pow_succ]
    omega

/-- A number that was read is written back unchanged. -/
theorem leBytes_leNat (bs : List UInt8) : leBytes bs.length (leNat bs) = bs := by
  induction bs with
  | nil => rfl
  | cons b bs ih =>
    have hb := b.toNat_lt
    have hlow : UInt8.ofNat (b.toNat + 256 * leNat bs) = b := UInt8.toNat_inj.mp (by simp)
    have hhigh : (b.toNat + 256 * leNat bs) / 256 = leNat bs := by omega
    rw [length_cons, leBytes, leNat, hlow, hhigh, ih]

/-! ## Slices -/

variable {α : Type}

/-- The elements at positions `a, ..., b - 1`. -/
def slice (l : List α) (a b : Nat) : List α := (l.drop a).take (b - a)

variable {a : Nat} {l bs : List α}

theorem slice_append_right (xs ys : List α) {b : Nat} (ha : xs.length ≤ a) :
    slice (xs ++ ys) a b = slice ys (a - xs.length) (b - xs.length) := by
  unfold slice
  rw [drop_append, drop_eq_nil_of_le ha, nil_append]
  congr 1
  omega

theorem slice_append_left (xs ys : List α) {b : Nat} (hb : b ≤ xs.length) :
    slice (xs ++ ys) a b = slice xs a b := by
  unfold slice
  rcases Nat.lt_or_ge a xs.length with ha | ha
  · rw [drop_append_of_le_length (Nat.le_of_lt ha), take_append_of_le_length]
    rw [length_drop]; omega
  · have hz : b - a = 0 := by omega
    rw [hz, take_zero, take_zero]

theorem slice_mid {xs ys zs : List α} {b : Nat} (ha : a = xs.length)
    (hb : b = xs.length + ys.length) : slice (xs ++ (ys ++ zs)) a b = ys := by
  subst ha; subst hb
  unfold slice
  rw [drop_left, Nat.add_sub_cancel_left, take_left]

/-! ## Overwriting -/

/-- `l` with `bs` copied over the positions from `a` on. -/
def overwrite (l : List α) (a : Nat) (bs : List α) : List α :=
  l.take a ++ (bs ++ l.drop (a + bs.length))

theorem overwrite_length (h : a + bs.length ≤ l.length) : (overwrite l a bs).length = l.length := by
  unfold overwrite
  simp only [length_append, length_take, length_drop]
  omega

theorem slice_overwrite_self (h : a + bs.length ≤ l.length) :
    slice (overwrite l a bs) a (a + bs.length) = bs := by
  have ht : (l.take a).length = a := by rw [length_take]; omega
  exact slice_mid ht.symm (by rw [ht])

theorem slice_overwrite_before {i j : Nat} (h : a + bs.length ≤ l.length) (hj : j ≤ a) :
    slice (overwrite l a bs) i j = slice l i j := by
  unfold overwrite
  have ht : (l.take a).length = a := by rw [length_take]; omega
  rw [slice_append_left _ _ (by rw [ht]; exact hj)]
  conv_rhs => rw [← take_append_drop a l]
  rw [slice_append_left _ _ (by rw [ht]; exact hj)]

theorem slice_overwrite_after {i j : Nat} (h : a + bs.length ≤ l.length) (hi : a + bs.length ≤ i) :
    slice (overwrite l a bs) i j = slice l i j := by
  unfold overwrite
  have ht : (l.take a).length = a := by rw [length_take]; omega
  have h1 : (l.take a ++ bs).length = a + bs.length := by rw [length_append, ht]
  have h2 : (l.take (a + bs.length)).length = a + bs.length := by rw [length_take]; omega
  rw [← append_assoc, slice_append_right _ _ (by rw [h1]; exact hi), h1]
  conv_rhs => rw [← take_append_drop (a + bs.length) l]
  rw [slice_append_right _ _ (by rw [h2]; exact hi), h2]

/-- Writing right after a prefix extends the prefix. -/
theorem overwrite_append {xs ys : List α} (ha : a = xs.length) :
    overwrite (xs ++ ys) a bs = (xs ++ bs) ++ ys.drop bs.length := by
  subst ha
  unfold overwrite
  rw [take_left, drop_append, append_assoc]
  simp

/-! ## Cutting into chunks -/

/-- `l` cut into pieces of `size`, the last one possibly shorter. The first argument
bounds the number of pieces. -/
def chunksAux (size : Nat) : Nat → List α → List (List α)
  | 0, _ => []
  | n + 1, l => if l.isEmpty then [] else l.take size :: chunksAux size n (l.drop size)

/-- The pieces of length `size` a list is cut into, in order. -/
def chunks (size : Nat) (l : List α) : List (List α) := chunksAux size l.length l

variable {size : Nat}

theorem chunksAux_flatten (hs : 0 < size) :
    ∀ (n : Nat) (l : List α), l.length ≤ n → (chunksAux size n l).flatten = l
  | 0, l, h => by
    have hl : l = [] := eq_nil_of_length_eq_zero (Nat.le_zero.mp h)
    subst hl; rfl
  | n + 1, l, h => by
    unfold chunksAux
    split
    · rename_i he
      rw [isEmpty_iff.mp he, flatten_nil]
    · rename_i he
      have hpos : 0 < l.length := by
        rcases l with _ | ⟨x, l⟩
        · exact absurd rfl he
        · simp
      have hd : (l.drop size).length ≤ n := by rw [length_drop]; omega
      rw [flatten_cons, chunksAux_flatten hs n _ hd, take_append_drop]

/-- Cutting loses nothing. -/
theorem chunks_flatten (hs : 0 < size) (l : List α) :
    (chunks size l).flatten = l := chunksAux_flatten hs _ l (Nat.le_refl _)

/-- The shape of a cut: full pieces, then one that is neither empty nor too long. -/
inductive Cut (size : Nat) : List (List α) → Prop where
  | nil : Cut size []
  | last {c : List α} : 0 < c.length → c.length ≤ size → Cut size [c]
  | cons {c : List α} {cs : List (List α)} : c.length = size → Cut size cs → cs ≠ [] →
      Cut size (c :: cs)

theorem chunksAux_cut (hs : 0 < size) :
    ∀ (n : Nat) (l : List α), l.length ≤ n → Cut size (chunksAux size n l)
  | 0, _, _ => Cut.nil
  | n + 1, l, h => by
    unfold chunksAux
    split
    · exact Cut.nil
    · rename_i he
      have hpos : 0 < l.length := by
        rcases l with _ | ⟨x, l⟩
        · exact absurd rfl he
        · simp
      have hd : (l.drop size).length ≤ n := by rw [length_drop]; omega
      have ih := chunksAux_cut hs n _ hd
      by_cases hlong : l.length ≤ size
      · -- the whole rest fits in one piece, so nothing is left to cut
        have hnil : l.drop size = [] := drop_eq_nil_of_le hlong
        have hrest : chunksAux size n (l.drop size) = [] := by
          rw [hnil]; cases n <;> rfl
        rw [hrest]
        refine Cut.last ?_ ?_ <;> rw [length_take] <;> omega
      · refine Cut.cons (by rw [length_take]; omega) ih ?_
        intro hnil
        have hf := chunksAux_flatten hs n _ hd
        rw [hnil] at hf
        have := congrArg List.length hf
        simp at this
        omega

theorem chunks_cut (hs : 0 < size) (l : List α) : Cut size (chunks size l) :=
  chunksAux_cut hs _ l (Nat.le_refl _)

theorem Cut.length_le {cs : List (List α)} (h : Cut size cs) : ∀ c ∈ cs, c.length ≤ size := by
  induction h with
  | nil => intro c hc; exact absurd hc (by simp)
  | last _ hle => intro c hc; rw [mem_singleton.mp hc]; exact hle
  | cons heq _ _ ih =>
    intro c hc
    rcases mem_cons.mp hc with hc | hc
    · rw [hc]; exact Nat.le_of_eq heq
    · exact ih c hc

theorem Cut.length_eq (hs : 0 < size) {cs : List (List α)} (hcut : Cut size cs) :
    cs.length = (cs.flatten.length + size - 1) / size := by
  induction hcut with
  | nil =>
    have hlt : 0 + size - 1 < size := by omega
    exact (Nat.div_eq_of_lt hlt).symm
  | @last c hpos hle =>
    have hsum : c.length + size - 1 = (c.length - 1) + size := by omega
    have hlt : c.length - 1 < size := by omega
    rw [flatten_singleton, hsum, Nat.add_div_right _ hs, Nat.div_eq_of_lt hlt]
    rfl
  | @cons c cs hc hcs hne ih =>
    have hpos : 0 < cs.length := length_pos_iff.mpr hne
    have hsum : c.length + cs.flatten.length + size - 1 = (cs.flatten.length + size - 1) + size := by
      have hflat : 0 < (cs.flatten.length + size - 1) / size := ih ▸ hpos
      have := Nat.div_pos_iff.mp hflat
      omega
    rw [flatten_cons, length_append, hsum, Nat.add_div_right _ hs, ← ih]
    rfl

end ByteString
