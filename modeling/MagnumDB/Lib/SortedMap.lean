import MagnumDB.Lib.SortedAssoc

/-!
# Finite maps in key order

The sorted lists of bindings of `SortedAssoc` with their order as a part of the value,
so that two maps with the same bindings are equal.
-/

open SortedAssoc

/-- A finite map. -/
structure SortedMap (K V : Type) [LinearOrder K] where
  /-- The bindings. -/
  entries : List (K × V)
  sorted : Sorted entries

namespace SortedMap

variable {K V : Type} [LinearOrder K]

def empty : SortedMap K V := ⟨[], .nil⟩

def get (m : SortedMap K V) (k : K) : Option V := lookup k m.entries

def insert (m : SortedMap K V) (k : K) (v : V) : SortedMap K V :=
  ⟨upsert k v m.entries, sorted_upsert m.sorted⟩

def erase (m : SortedMap K V) (k : K) : SortedMap K V :=
  ⟨SortedAssoc.erase k m.entries, sorted_erase m.sorted⟩

/-- The bindings of the keys of a kind, in key order. -/
def select (m : SortedMap K V) (p : K → Bool) : List (K × V) := m.entries.filter fun r => p r.1

/-- Bind the key, or unbind it. -/
def set (m : SortedMap K V) (k : K) : Option V → SortedMap K V
  | some v => m.insert k v
  | none => m.erase k

/-- Several changes, one after another. -/
def apply (m : SortedMap K V) (changes : List (K × Option V)) : SortedMap K V :=
  changes.foldl (fun m r => m.set r.1 r.2) m

/-- From bindings in any order; a later one of the same key replaces an earlier one. -/
def ofList (l : List (K × V)) : SortedMap K V := empty.apply (l.map fun r => (r.1, some r.2))

variable {m : SortedMap K V}

theorem ext {n : SortedMap K V} (h : ∀ k, m.get k = n.get k) : m = n := by
  obtain ⟨l, hl⟩ := m
  obtain ⟨l', hl'⟩ := n
  obtain rfl : l = l' := sorted_ext hl hl' h
  rfl

theorem get_insert (m : SortedMap K V) (k k' : K) (v : V) :
    (m.insert k v).get k' = if k' = k then some v else m.get k' := by
  by_cases h : k' = k
  · rw [h, if_pos rfl]
    exact lookup_upsert_self k v m.entries
  · rw [if_neg h]
    exact lookup_upsert_ne h v m.entries

variable {k : K} {p : K → Bool}

theorem get_insert_ne (m : SortedMap K V) {k' : K} (v : V) (h : k' ≠ k) :
    (m.insert k v).get k' = m.get k' :=
  lookup_upsert_ne h v m.entries

theorem get_erase (m : SortedMap K V) (k k' : K) :
    (m.erase k).get k' = if k' = k then none else m.get k' := by
  by_cases h : k' = k
  · rw [h, if_pos rfl]
    exact lookup_erase_self k m.entries
  · rw [if_neg h]
    exact lookup_erase_ne h m.entries

theorem get_erase_ne (m : SortedMap K V) {k' : K} (h : k' ≠ k) : (m.erase k).get k' = m.get k' :=
  lookup_erase_ne h m.entries

theorem mem_entries {v : V} : (k, v) ∈ m.entries ↔ m.get k = some v :=
  ⟨lookup_of_mem m.sorted, mem_of_lookup⟩

theorem mem_select {v : V} : (k, v) ∈ m.select p ↔ p k ∧ m.get k = some v := by
  unfold select
  rw [List.mem_filter, mem_entries]
  exact And.comm

theorem sorted_select (m : SortedMap K V) (p : K → Bool) : Sorted (m.select p) :=
  List.Pairwise.sublist List.filter_sublist m.sorted

theorem lookup_select (m : SortedMap K V) (p : K → Bool) (k : K) :
    lookup k (m.select p) = if p k then m.get k else none := by
  cases hl : lookup k (m.select p) with
  | some v =>
    obtain ⟨hp, hv⟩ := mem_select.mp (mem_of_lookup hl)
    rw [if_pos hp, hv]
  | none =>
    split
    · rename_i hp
      cases hv : m.get k with
      | none => rfl
      | some v =>
        have hmem : (k, v) ∈ m.select p := mem_select.mpr ⟨hp, hv⟩
        rw [lookup_of_mem (m.sorted_select p) hmem] at hl
        exact absurd hl (by simp)
    · rfl

/-- Maps that agree on the keys of a kind have the same bindings of these. -/
theorem select_congr {n : SortedMap K V} (h : ∀ k, p k → m.get k = n.get k) :
    m.select p = n.select p := by
  refine sorted_ext (m.sorted_select p) (n.sorted_select p) fun k => ?_
  rw [lookup_select, lookup_select]
  split
  · exact h k ‹_›
  · rfl

theorem get_set (m : SortedMap K V) (k k' : K) (o : Option V) :
    (m.set k o).get k' = if k' = k then o else m.get k' := by
  cases o with
  | some v => exact m.get_insert k k' v
  | none => exact m.get_erase k k'

/-- Changes of different keys: each key has what the change of it says, if there is one. -/
theorem get_apply {changes : List (K × Option V)} (h : Sorted changes) (m : SortedMap K V) (k : K) :
    (m.apply changes).get k = (lookup k changes).getD (m.get k) := by
  induction changes generalizing m with
  | nil => rfl
  | cons r l ih =>
    obtain ⟨hr, hl⟩ := List.pairwise_cons.mp h
    show ((m.set r.1 r.2).apply l).get k = _
    rw [ih hl, get_set, lookup]
    by_cases hk : r.1 = k
    · -- no other change is of the first key
      have hnone : lookup k l = none := lookup_eq_none fun x hx => hk ▸ ne_of_gt (hr x hx)
      rw [if_pos hk, if_pos hk.symm, hnone]
      rfl
    · rw [if_neg hk, if_neg (Ne.symm hk)]

theorem get_ofList {l : List (K × V)} (h : Sorted l) (k : K) : (ofList l).get k = lookup k l := by
  unfold ofList
  rw [get_apply (sorted_map some h), lookup_map]
  cases lookup k l with
  | none => rfl
  | some v => rfl

end SortedMap
