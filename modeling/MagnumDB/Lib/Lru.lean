import Mathlib.Algebra.GroupWithZero.Nat
import Mathlib.Order.Lattice
import Mathlib.Data.List.Basic
import Mathlib.Data.List.Nodup

/-!
# A least-recently-used cache

A bounded map that remembers in which order its keys were used: the entries are
kept as a list, the most recently used first. Reading or writing an entry moves
it to the front; a full cache gives up the entry at the back.

What a client needs to know is how `find` changes under each operation, and that
no key occurs twice (`WF`).
-/

/-- A cache for at most `cap` entries, most recently used first. -/
structure Lru (κ ν : Type) where
  cap : Nat
  entries : List (κ × ν)

namespace Lru

open List

variable {κ ν : Type} [DecidableEq κ]

/-- The value stored under `k` in a list of entries. -/
def findIn (k : κ) : List (κ × ν) → Option ν
  | [] => none
  | e :: l => if e.1 = k then some e.2 else findIn k l

/-- The list without the entry of `k`. -/
def eraseIn (k : κ) (l : List (κ × ν)) : List (κ × ν) := l.filter (fun e => decide (e.1 ≠ k))

/-- An empty cache. -/
def empty (cap : Nat) : Lru κ ν := ⟨cap, []⟩

def len (c : Lru κ ν) : Nat := c.entries.length

/-- The value stored under `k`, without counting as a use. -/
def find (c : Lru κ ν) (k : κ) : Option ν := findIn k c.entries

def contains (c : Lru κ ν) (k : κ) : Bool := (c.find k).isSome

/-- Read `k`; a hit moves the entry to the front. -/
def get (c : Lru κ ν) (k : κ) : Option ν × Lru κ ν :=
  match c.find k with
  | none => (none, c)
  | some v => (some v, { c with entries := (k, v) :: eraseIn k c.entries })

/-- Store `v` under `k` and move it to the front. A new key pushes the last entry out of
a full cache. -/
def put (c : Lru κ ν) (k : κ) (v : ν) : Lru κ ν :=
  if c.contains k then { c with entries := (k, v) :: eraseIn k c.entries }
  else if c.len = c.cap then { c with entries := (k, v) :: c.entries.dropLast }
  else { c with entries := (k, v) :: c.entries }

/-- Take the least recently used entry out. -/
def popLru (c : Lru κ ν) : Option (κ × ν) × Lru κ ν :=
  (c.entries.getLast?, { c with entries := c.entries.dropLast })

/-- Take `k` out. -/
def pop (c : Lru κ ν) (k : κ) : Lru κ ν := { c with entries := eraseIn k c.entries }

/-- Change the value of every entry, without counting as a use. -/
def map (c : Lru κ ν) (f : ν → ν) : Lru κ ν :=
  { c with entries := c.entries.map (fun e => (e.1, f e.2)) }

/-- No key occurs twice, and the capacity is respected. -/
structure WF (c : Lru κ ν) : Prop where
  nodup : (c.entries.map Prod.fst).Nodup
  len_le : c.entries.length ≤ c.cap
  cap_pos : 0 < c.cap

/-! ## Lists of entries -/

@[simp] theorem findIn_nil (k : κ) : findIn k ([] : List (κ × ν)) = none := rfl

theorem findIn_cons (k : κ) (e : κ × ν) (l : List (κ × ν)) :
    findIn k (e :: l) = if e.1 = k then some e.2 else findIn k l := rfl

theorem findIn_eraseIn_self (k : κ) (l : List (κ × ν)) : findIn k (eraseIn k l) = none := by
  induction l with
  | nil => rfl
  | cons e l ih =>
    unfold eraseIn at ih ⊢
    by_cases h : e.1 = k
    · rw [filter_cons_of_neg (by simp [h])]; exact ih
    · rw [filter_cons_of_pos (by simp [h]), findIn_cons, if_neg h]; exact ih

variable {k : κ} {v : ν}

theorem findIn_eraseIn_ne {k' : κ} (h : k' ≠ k) (l : List (κ × ν)) :
    findIn k' (eraseIn k l) = findIn k' l := by
  induction l with
  | nil => rfl
  | cons e l ih =>
    unfold eraseIn at ih ⊢
    by_cases he : e.1 = k
    · have hk' : e.1 ≠ k' := fun h' => h (h'.symm.trans he)
      rw [filter_cons_of_neg (by simp [he]), findIn_cons, if_neg hk']; exact ih
    · rw [filter_cons_of_pos (by simp [he]), findIn_cons, findIn_cons, ih]

variable {l : List (κ × ν)}

theorem findIn_eq_none_iff : findIn k l = none ↔ k ∉ l.map Prod.fst := by
  induction l with
  | nil => simp
  | cons e l ih =>
    rw [findIn_cons, map_cons, mem_cons, not_or]
    by_cases h : e.1 = k
    · simp [h]
    · rw [if_neg h, ih]
      exact ⟨fun h' => ⟨fun he => h he.symm, h'⟩, fun h' => h'.2⟩

theorem mem_of_findIn (h : findIn k l = some v) : (k, v) ∈ l := by
  induction l with
  | nil => exact absurd h (by simp)
  | cons e l ih =>
    rw [findIn_cons] at h
    split at h
    · rename_i he
      injection h with h
      subst h; subst he
      exact mem_cons_self ..
    · exact mem_cons_of_mem _ (ih h)

theorem findIn_of_mem (hn : (l.map Prod.fst).Nodup) (h : (k, v) ∈ l) : findIn k l = some v := by
  induction l with
  | nil => exact absurd h (by simp)
  | cons e l ih =>
    rw [map_cons, nodup_cons] at hn
    rw [findIn_cons]
    rcases mem_cons.mp h with h | h
    · subst h; rw [if_pos rfl]
    · have hne : e.1 ≠ k := fun he => hn.1 (he ▸ mem_map_of_mem h)
      rw [if_neg hne]; exact ih hn.2 h

/-- Keys occur once, so a key is found among some of the entries if its entry is one of them. -/
theorem findIn_filter (hn : (l.map Prod.fst).Nodup) (p : κ × ν → Bool) (k : κ) :
    findIn k (l.filter p) = (findIn k l).filter (fun v => p (k, v)) := by
  induction l with
  | nil => rfl
  | cons e l ih =>
    rw [map_cons, nodup_cons] at hn
    have ih := ih hn.2
    rw [filter_cons, findIn_cons]
    by_cases he : e.1 = k
    · obtain ⟨k', v⟩ := e
      obtain rfl : k' = k := he
      have hnone : findIn k' l = none := findIn_eq_none_iff.mpr hn.1
      rw [hnone] at ih
      cases hp : p (k', v) with
      | true => simp [findIn_cons, Option.filter, hp]
      | false => simpa [Option.filter, hp] using ih
    · rw [if_neg he]
      cases hp : p e with
      | true => rw [if_pos rfl, findIn_cons, if_neg he, ih]
      | false => rw [if_neg (by simp), ih]

theorem findIn_append (k : κ) (l₁ l₂ : List (κ × ν)) :
    findIn k (l₁ ++ l₂) = (findIn k l₁).or (findIn k l₂) := by
  induction l₁ with
  | nil => simp
  | cons e l ih =>
    rw [cons_append, findIn_cons, findIn_cons]
    by_cases h : e.1 = k
    · simp [h]
    · rw [if_neg h, if_neg h]; exact ih

theorem eraseIn_sublist (k : κ) (l : List (κ × ν)) : (eraseIn k l).Sublist l :=
  filter_sublist

theorem nodup_front (hn : (l.map Prod.fst).Nodup) :
    (((k, v) :: eraseIn k l).map Prod.fst).Nodup := by
  rw [map_cons, nodup_cons]
  refine ⟨?_, hn.sublist ((eraseIn_sublist k l).map _)⟩
  exact findIn_eq_none_iff.mp (findIn_eraseIn_self k l)

theorem eraseIn_length_lt (h : findIn k l ≠ none) : (eraseIn k l).length < l.length := by
  induction l with
  | nil => exact absurd rfl h
  | cons e l ih =>
    unfold eraseIn at ih ⊢
    by_cases he : e.1 = k
    · rw [filter_cons_of_neg (by simp [he])]
      have := (filter_sublist (l := l) (p := fun e => decide (e.1 ≠ k))).length_le
      simp only [length_cons]; omega
    · rw [filter_cons_of_pos (by simp [he])]
      rw [findIn_cons, if_neg he] at h
      have := ih h
      simp only [length_cons]; omega

/-! ## The operations -/

variable {c : Lru κ ν}

omit [DecidableEq κ] in
theorem wf_empty {cap : Nat} (h : 0 < cap) : (empty cap : Lru κ ν).WF :=
  ⟨by simp [empty], by simp [empty], h⟩

theorem get_fst (c : Lru κ ν) (k : κ) : (c.get k).1 = c.find k := by
  unfold get; split <;> simp_all

theorem find_get (c : Lru κ ν) (k k' : κ) : (c.get k).2.find k' = c.find k' := by
  unfold get
  split
  · rfl
  · rename_i v hv
    show findIn k' ((k, v) :: eraseIn k c.entries) = _
    rw [findIn_cons]
    by_cases h : k = k'
    · subst h; rw [if_pos rfl]; exact hv.symm
    · rw [if_neg h]; exact findIn_eraseIn_ne (Ne.symm h) _

theorem wf_get (h : c.WF) (k : κ) : (c.get k).2.WF := by
  unfold get
  split
  · exact h
  · rename_i v hv
    have hlt : (eraseIn k c.entries).length < c.entries.length :=
      eraseIn_length_lt (fun hn => by unfold find at hv; rw [hn] at hv; exact absurd hv (by simp))
    refine ⟨nodup_front h.nodup, ?_, h.cap_pos⟩
    have := h.len_le
    simp only [length_cons]; omega

theorem get_eq {o : Option ν} (h : c.find k = o) : c.get k = (o, (c.get k).2) :=
  Prod.ext ((get_fst c k).trans h) rfl

theorem get_eq_none (h : c.find k = none) : c.get k = (none, c) := by
  unfold get
  rw [h]

theorem room_get (hroom : c.contains k ∨ c.len < c.cap) :
    (c.get k).2.contains k ∨ (c.get k).2.len < (c.get k).2.cap := by
  cases h : c.find k with
  | none => rwa [get_eq_none h]
  | some v =>
    left
    unfold contains
    rw [find_get, h]
    rfl

@[simp] theorem get_cap (c : Lru κ ν) (k : κ) : (c.get k).2.cap = c.cap := by
  unfold get; split <;> rfl

/-- `put` when there is room for the key: nothing else is lost. -/
theorem find_put (v : ν) (hroom : c.contains k ∨ c.len < c.cap) (k' : κ) :
    (c.put k v).find k' = if k = k' then some v else c.find k' := by
  unfold put
  by_cases hc : c.contains k
  · rw [if_pos hc]
    show findIn k' ((k, v) :: eraseIn k c.entries) = _
    rw [findIn_cons]
    by_cases h : k = k'
    · rw [if_pos h, if_pos h]
    · rw [if_neg h, if_neg h]; exact findIn_eraseIn_ne (Ne.symm h) _
  · have hlt : c.len < c.cap := hroom.resolve_left hc
    rw [if_neg hc, if_neg (Nat.ne_of_lt hlt)]
    rfl

theorem wf_put (v : ν) (hroom : c.contains k ∨ c.len < c.cap) (h : c.WF) :
    (c.put k v).WF := by
  unfold put
  by_cases hc : c.contains k
  · rw [if_pos hc]
    have hlt : (eraseIn k c.entries).length < c.entries.length := by
      refine eraseIn_length_lt (fun hn => ?_)
      unfold contains find at hc; rw [hn] at hc; exact absurd hc (by simp)
    refine ⟨nodup_front h.nodup, ?_, h.cap_pos⟩
    have := h.len_le
    simp only [length_cons]; omega
  · have hlt : c.len < c.cap := hroom.resolve_left hc
    rw [if_neg hc, if_neg (Nat.ne_of_lt hlt)]
    refine ⟨?_, hlt, h.cap_pos⟩
    rw [map_cons, nodup_cons]
    refine ⟨findIn_eq_none_iff.mp ?_, h.nodup⟩
    exact Option.not_isSome_iff_eq_none.mp hc

@[simp] theorem put_cap (c : Lru κ ν) (k : κ) (v : ν) : (c.put k v).cap = c.cap := by
  unfold put
  split
  · rfl
  · split <;> rfl

/-- What `popLru` takes out of a non-empty cache, and what it leaves. -/
theorem popLru_spec (h : c.WF) (hne : c.entries ≠ []) :
    ∃ k v, c.popLru.1 = some (k, v) ∧ c.find k = some v ∧ c.popLru.2.find k = none ∧
      (∀ k', k' ≠ k → c.popLru.2.find k' = c.find k') ∧ c.popLru.2.WF ∧
      c.popLru.2.len < c.popLru.2.cap := by
  obtain ⟨l, e, he⟩ : ∃ l e, c.entries = l ++ [e] :=
    ⟨_, _, (dropLast_append_getLast hne).symm⟩
  have hn := h.nodup
  have hl := h.len_le
  rw [he] at hn hl
  have hk : e.1 ∉ l.map Prod.fst := by
    intro hm
    rw [map_append, nodup_append] at hn
    exact hn.2.2 _ hm e.1 (by simp) rfl
  have hpop : c.popLru = (some e, { c with entries := l }) := by
    unfold popLru; rw [he]; simp
  refine ⟨e.1, e.2, by rw [hpop], ?_, ?_, ?_, ?_, ?_⟩
  · unfold find
    rw [he, findIn_append, findIn_eq_none_iff.mpr hk]
    simp [findIn_cons]
  · rw [hpop]; exact findIn_eq_none_iff.mpr hk
  · intro k' hk'
    rw [hpop]
    unfold find
    rw [he, findIn_append, findIn_cons, if_neg (Ne.symm hk')]
    simp
  · rw [hpop]
    refine ⟨?_, ?_, h.cap_pos⟩
    · exact hn.sublist ((sublist_append_left l [e]).map _)
    · simp only [length_append, length_singleton] at hl
      show l.length ≤ c.cap
      omega
  · rw [hpop]
    simp only [length_append, length_singleton] at hl
    show l.length < c.cap
    omega

/-- A full cache without the key has an entry of another key to give up, and then there is room. -/
theorem popLru_of_full (h : c.WF) (hfull : c.len = c.cap ∧ ¬ c.contains k) :
    ∃ e v, c.popLru = (some (e, v), c.popLru.2) ∧ k ≠ e ∧ c.find e = some v ∧
      c.popLru.2.find e = none ∧ (∀ k', k' ≠ e → c.popLru.2.find k' = c.find k') ∧ c.popLru.2.WF ∧
      c.popLru.2.len < c.popLru.2.cap := by
  have hne : c.entries ≠ [] := by
    intro hnil
    have hcap := h.cap_pos
    have hlen : c.len = 0 := by unfold len; rw [hnil]; rfl
    omega
  obtain ⟨e, v, hpop, hfind, hrest⟩ := popLru_spec h hne
  refine ⟨e, v, Prod.ext hpop rfl, ?_, hfind, hrest⟩
  rintro rfl
  exact hfull.2 (by unfold contains; rw [hfind]; rfl)

theorem room_of_not_full (h : c.WF) (hfull : ¬ (c.len = c.cap ∧ ¬ c.contains k)) :
    c.contains k ∨ c.len < c.cap := by
  by_cases hc : c.contains k
  · exact .inl hc
  · exact .inr (Nat.lt_of_le_of_ne h.len_le fun he => hfull ⟨he, hc⟩)

theorem find_pop (c : Lru κ ν) (k k' : κ) :
    (c.pop k).find k' = if k = k' then none else c.find k' := by
  by_cases h : k = k'
  · subst h; rw [if_pos rfl]; exact findIn_eraseIn_self k _
  · rw [if_neg h]; exact findIn_eraseIn_ne (Ne.symm h) _

theorem wf_pop (h : c.WF) (k : κ) : (c.pop k).WF :=
  ⟨h.nodup.sublist ((eraseIn_sublist k _).map _),
    Nat.le_trans (eraseIn_sublist k _).length_le h.len_le, h.cap_pos⟩

theorem find_map (c : Lru κ ν) (f : ν → ν) (k : κ) : (c.map f).find k = (c.find k).map f := by
  unfold map find
  generalize c.entries = l
  induction l with
  | nil => rfl
  | cons e l ih =>
    show findIn k ((e.1, f e.2) :: l.map (fun e => (e.1, f e.2))) = _
    rw [findIn_cons, findIn_cons]
    by_cases h : e.1 = k
    · simp [h]
    · rw [if_neg h, if_neg h]; exact ih

omit [DecidableEq κ] in
theorem wf_map (h : c.WF) (f : ν → ν) : (c.map f).WF := by
  refine ⟨?_, ?_, h.cap_pos⟩
  · show ((c.entries.map (fun e => (e.1, f e.2))).map Prod.fst).Nodup
    rw [map_map]
    exact h.nodup
  · show (c.entries.map _).length ≤ c.cap
    rw [length_map]
    exact h.len_le

end Lru
