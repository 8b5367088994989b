import MagnumDB.Sql.Ddl
import MagnumDB.Lib.Utf8

/-!
# Index entries as sets

An index entry is one text: the primary keys with a separator between them. What the
calls that add and remove primary keys make of it is compared with a set, and the
order of the keys with the calls that put them there.
-/

namespace MagnumDB

open Text Executor
open List hiding splitOn splitOn_ne_nil

/-- A call on an index entry. -/
inductive PostingCall where
  | add (pk : Bytes)
  | remove (pk : Bytes)

namespace PostingCall

def pk : PostingCall → Bytes
  | .add pk => pk
  | .remove pk => pk

def run (table column colVal : Bytes) : PostingCall → Sql Unit
  | .add pk => secIdxAdd table column colVal pk false
  | .remove pk => secIdxRemove table column colVal pk

/-- The set that some calls make, of which the latest is the first in the list. -/
def held : List PostingCall → Set Bytes
  | [] => ∅
  | .add pk :: earlier => insert pk (held earlier)
  | .remove pk :: earlier => held earlier \ {pk}

/-- The number of the call that put a key into the set, counted from the first call: the first
one since the key was last removed. -/
def insertedAt : List PostingCall → Bytes → Option Nat
  | [], _ => none
  | .add pk :: earlier, p =>
    if p = pk then some ((insertedAt earlier p).getD earlier.length) else insertedAt earlier p
  | .remove pk :: earlier, p => if p = pk then none else insertedAt earlier p

variable {done : List PostingCall} {l : List Bytes} {p q : Bytes}

theorem mem_held_iff (done : List PostingCall) (p : Bytes) :
    p ∈ held done ↔ (insertedAt done p).isSome := by
  induction done with
  | nil => simp [held, insertedAt]
  | cons call earlier ih =>
    cases call with
    | add pk => by_cases hp : p = pk <;> simp [held, insertedAt, hp, ih]
    | remove pk => by_cases hp : p = pk <;> simp [held, insertedAt, hp, ih]

theorem insertedAt_lt {i : Nat} (hi : insertedAt done p = some i) : i < done.length := by
  induction done generalizing i with
  | nil => exact nomatch hi
  | cons call earlier ih =>
    cases call with
    | add pk => cases hp : insertedAt earlier p <;> grind [insertedAt]
    | remove pk => grind [insertedAt]

/-- One key was put into the set by an earlier call than the other. -/
def Before (done : List PostingCall) (p q : Bytes) : Prop :=
  ∃ i j, insertedAt done p = some i ∧ insertedAt done q = some j ∧ i < j

/-- The keys of the set, in the order in which they came. -/
structure Lists (done : List PostingCall) (l : List Bytes) : Prop where
  mem : ∀ p, p ∈ l ↔ p ∈ held done
  order : l.Pairwise (Before done)

theorem Lists.nodup (h : Lists done l) : l.Nodup := by
  refine h.order.imp ?_
  rintro p _ ⟨i, j, hi, hj, hlt⟩ rfl
  rw [hi] at hj
  exact absurd (Option.some.inj hj) (Nat.ne_of_lt hlt)

/-- A call that leaves the times of some keys alone leaves their order alone. -/
theorem Before.congr {done' : List PostingCall} (h : Before done p q)
    (hp : insertedAt done' p = insertedAt done p) (hq : insertedAt done' q = insertedAt done q) :
    Before done' p q := by
  unfold Before
  rw [hp, hq]
  exact h

/-- What a call does to a list of keys. -/
def apply : PostingCall → List Bytes → List Bytes
  | .add pk, l => if pk ∈ l then l else l ++ [pk]
  | .remove pk, l => l.filter (· != pk)

theorem Lists.step (h : Lists done l) (call : PostingCall) :
    Lists (call :: done) (call.apply l) := by
  cases call with
  | remove pk =>
    have hsame : ∀ p, p ≠ pk → insertedAt (.remove pk :: done) p = insertedAt done p :=
      fun p hp => if_neg hp
    refine ⟨fun p => by simp [apply, held, h.mem], ?_⟩
    refine (h.order.filter _).imp_of_mem fun hp hq hbefore => hbefore.congr ?_ ?_
    · exact hsame _ (by simpa using (mem_filter.mp hp).2)
    · exact hsame _ (by simpa using (mem_filter.mp hq).2)
  | add pk =>
    by_cases hpk : pk ∈ l
    · obtain ⟨i, hi⟩ := Option.isSome_iff_exists.mp ((mem_held_iff done pk).mp ((h.mem pk).mp hpk))
      have hsame : ∀ p, insertedAt (.add pk :: done) p = insertedAt done p := by
        intro p
        by_cases hp : p = pk <;> simp [insertedAt, hp, hi]
      rw [apply, if_pos hpk]
      refine ⟨fun p => ?_, h.order.imp fun hbefore => hbefore.congr (hsame _) (hsame _)⟩
      rw [h.mem, mem_held_iff, mem_held_iff, hsame]
    · have hnone : insertedAt done pk = none := by
        simpa [mem_held_iff] using mt (h.mem pk).mpr hpk
      have hsame : ∀ p ∈ l, insertedAt (.add pk :: done) p = insertedAt done p :=
        fun p hp => if_neg (ne_of_mem_of_not_mem hp hpk)
      rw [apply, if_neg hpk]
      refine ⟨fun p => by simp [held, h.mem, or_comm], pairwise_append.mpr ⟨?_, pairwise_singleton _ _, ?_⟩⟩
      · exact h.order.imp_of_mem fun hp hq hbefore => hbefore.congr (hsame _ hp) (hsame _ hq)
      · -- The new key gets the number of calls so far, and those before it have smaller ones.
        intro p hp q hq
        obtain rfl := mem_singleton.mp hq
        obtain ⟨i, hi⟩ := Option.isSome_iff_exists.mp ((mem_held_iff done p).mp ((h.mem p).mp hp))
        exact ⟨i, done.length, (hsame p hp).trans hi, by simp [insertedAt, hnone], insertedAt_lt hi⟩

end PostingCall

/-! ## The entry -/

/-- The primary keys that an index has under a value. -/
def listed (entry : Option Bytes) : List Bytes := entry.elim [] postings

theorem listed_eq_nil_iff {entry : Option Bytes} : listed entry = [] ↔ entry = none := by
  cases entry with
  | none => simp [listed]
  | some data => simp [listed, postings, splitOn_ne_nil]

/-- A primary key as the calls get them: a text without the separator. -/
def plainKey (pk : Bytes) : Prop := isUtf8 pk ∧ secIdxPkSep ∉ pk

/-- An entry as the calls leave it. -/
structure PlainEntry (entry : Option Bytes) : Prop where
  utf8 : ∀ data, entry = some data → isUtf8 data
  plain : ∀ p ∈ listed entry, plainKey p

/-- What a call may lead to: the entry lists these keys and every other key is as it was, or the
database has refused a key that is too long. -/
def Outcome (key : Bytes) (self : Executor) (d : MapDb) (l : List Bytes)
    (result : Except SqlFail Unit × (Executor × MapDb)) : Prop :=
  (∃ d', result = (.ok (), (self, d')) ∧ PlainEntry (d'.contents.get key) ∧
    listed (d'.contents.get key) = l ∧
    ∀ other, other ≠ key → d'.contents.get other = d.contents.get other) ∨
  maxKeySize < key.length ∧ ∃ e, result = (.error e, (self, d))

variable {self : Executor} {d : MapDb} {key table column colVal : Bytes} {l : List Bytes}

theorem outcome_write (htx : self.inTransaction = false) {entry : Option Bytes}
    (hentry : PlainEntry entry ∧ listed entry = l) :
    Outcome key self d l ((writeOrBuffer key entry).onMap (self, d)) := by
  rw [onMap_writeOrBuffer htx]
  by_cases hrefused : refused (key, entry)
  · rw [if_pos hrefused]
    exact .inr ⟨of_decide_eq_true (Bool.and_eq_true_iff.mp hrefused).2, _, rfl⟩
  · rw [if_neg hrefused]
    have hself : (d.write key entry).contents.get key = entry :=
      (SortedMap.get_set ..).trans (if_pos rfl)
    exact .inl ⟨_, rfl, by rw [hself]; exact hentry.1, by rw [hself]; exact hentry.2,
      fun other hne => (SortedMap.get_set ..).trans (if_neg hne)⟩

theorem plainEntry_some {data : Bytes} (hutf8 : isUtf8 data)
    (hdata : splitOn secIdxPkSep data = l) (hl : ∀ p ∈ l, plainKey p) :
    PlainEntry (some data) ∧ listed (some data) = l := by
  have hlisted : listed (some data) = l := by
    show splitOn secIdxPkSep (fromUtf8Lossy data) = l
    rw [fromUtf8Lossy_of_isUtf8 hutf8, hdata]
  exact ⟨⟨fun _ he => Option.some.inj he ▸ hutf8, hlisted ▸ hl⟩, hlisted⟩

/-- **One call** does to the list of keys what it should. -/
theorem outcome_call (htx : self.inTransaction = false)
    (hentry : PlainEntry (d.contents.get (secKey table column colVal))) {call : PostingCall}
    (hpk : plainKey call.pk) :
    Outcome (secKey table column colVal) self d
      (call.apply (listed (d.contents.get (secKey table column colVal))))
      ((call.run table column colVal).onMap (self, d)) := by
  have hget := Sql.onMap_get (secKey table column colVal) (self, d)
  have hsep : isUtf8 [secIdxPkSep] := rfl
  have hsame {l : List Bytes} (hl : listed (d.contents.get (secKey table column colVal)) = l) :
      Outcome (secKey table column colVal) self d l (.ok (), (self, d)) :=
    .inl ⟨d, rfl, hentry, hl, fun _ _ => rfl⟩
  generalize hdata : d.contents.get (secKey table column colVal) = entry at *
  cases call with
  | add pk =>
    change plainKey pk at hpk
    rw [PostingCall.run, secIdxAdd, Sql.onMap_bind_ok hget]
    cases entry with
    | none =>
      exact outcome_write htx
        (plainEntry_some hpk.1 (splitOn_of_not_mem hpk.2) (forall_mem_singleton.mpr hpk))
    | some data =>
      have hutf8 := hentry.utf8 data rfl
      have hsplit : splitOn secIdxPkSep data = postings data := by
        rw [postings, fromUtf8Lossy_of_isUtf8 hutf8]
      by_cases hin : pk ∈ postings data
      · dsimp only
        rw [if_pos hin]
        exact hsame (if_pos hin).symm
      · dsimp only
        have happly : (PostingCall.add pk).apply (listed (some data)) = postings data ++ [pk] :=
          if_neg hin
        rw [if_neg hin, fromUtf8Lossy_of_isUtf8 hutf8, append_assoc, happly]
        refine outcome_write htx (plainEntry_some (isUtf8_append hutf8 (isUtf8_append hsep hpk.1)) ?_
          (forall_mem_append.mpr ⟨hentry.plain, forall_mem_singleton.mpr hpk⟩))
        rw [singleton_append, splitOn_append_cons, splitOn_of_not_mem hpk.2, hsplit]
  | remove pk =>
    rw [PostingCall.run, secIdxRemove, Sql.onMap_bind_ok hget]
    cases entry with
    | none => exact hsame rfl
    | some data =>
      have hkept : ∀ p ∈ (postings data).filter (· != pk), plainKey p := fun p hp =>
        hentry.plain p (mem_filter.mp hp).1
      dsimp only
      by_cases hnil : (postings data).filter (· != pk) = []
      · rw [if_pos (List.isEmpty_iff.mpr hnil)]
        exact outcome_write htx ⟨⟨nofun, nofun⟩, hnil.symm⟩
      · rw [if_neg (mt List.isEmpty_iff.mp hnil)]
        exact outcome_write htx (plainEntry_some (isUtf8_join hsep fun p hp => (hkept p hp).1)
          (splitOn_join hnil fun p hp => (hkept p hp).2) hkept)

/-! ## Runs -/

/-- The calls on one entry from a state on, the latest first, and the state they lead to. -/
inductive PostingRun (table column colVal : Bytes) (st : Executor × MapDb) :
    List PostingCall → Executor × MapDb → Prop where
  | start : PostingRun table column colVal st [] st
  | call {done : List PostingCall} {st' st'' : Executor × MapDb} {call : PostingCall} :
      PostingRun table column colVal st done st' → plainKey call.pk →
      (call.run table column colVal).onMap st' = (.ok (), st'') →
      PostingRun table column colVal st (call :: done) st''

/-- What holds along a run. -/
structure Posted (key : Bytes) (st : Executor × MapDb) (done : List PostingCall)
    (st' : Executor × MapDb) : Prop where
  client : st'.1 = st.1
  entry : PlainEntry (st'.2.contents.get key)
  lists : PostingCall.Lists done (listed (st'.2.contents.get key))
  frame : ∀ other, other ≠ key → st'.2.contents.get other = st.2.contents.get other

variable {st st' : Executor × MapDb} {done : List PostingCall}

theorem PostingRun.posted (hrun : PostingRun table column colVal st done st')
    (htx : st.1.inTransaction = false) (hnew : st.2.contents.get (secKey table column colVal) = none) :
    Posted (secKey table column colVal) st done st' := by
  induction hrun with
  | start =>
    refine ⟨rfl, ?_, ?_, fun _ _ => rfl⟩
    · rw [hnew]
      exact ⟨nofun, nofun⟩
    · rw [hnew]
      exact ⟨fun p => ⟨nofun, nofun⟩, Pairwise.nil⟩
  | @call _ st₁ _ call _ hpk hcall ih =>
    obtain ⟨hclient, hentry, hlists, hframe⟩ := ih
    rw [← hclient] at htx
    rcases outcome_call htx hentry hpk with ⟨d', hok, hplain, hl, hother⟩ | ⟨-, e, herr⟩
    · obtain ⟨-, rfl⟩ := Prod.mk.inj (hok.symm.trans hcall)
      exact ⟨hclient, hplain, hl ▸ hlists.step call, fun other hne =>
        (hother other hne).trans (hframe other hne)⟩
    · exact nomatch (Prod.mk.inj (herr.symm.trans hcall)).1

/-- **An index entry is a set**: whatever calls were made on it, the primary keys that are read back
from it are those of the set, each once and in the order in which they came; there is an entry unless
the set is empty; and no other key has changed. The next call succeeds, unless the key of the entry is
longer than the database allows; then it changes nothing. -/
theorem postings_are_set (hrun : PostingRun table column colVal st done st')
    (htx : st.1.inTransaction = false)
    (hnew : st.2.contents.get (secKey table column colVal) = none) :
    let entry := st'.2.contents.get (secKey table column colVal)
    (∀ pk, pk ∈ listed entry ↔ pk ∈ PostingCall.held done) ∧ (listed entry).Nodup ∧
      (listed entry).Pairwise (PostingCall.Before done) ∧
      (entry = none ↔ PostingCall.held done = ∅) ∧
      (∀ key, key ≠ secKey table column colVal →
        st'.2.contents.get key = st.2.contents.get key) ∧
      ∀ call : PostingCall, plainKey call.pk →
        (∃ st'', (call.run table column colVal).onMap st' = (.ok (), st'')) ∨
          maxKeySize < (secKey table column colVal).length ∧
            ∃ e, (call.run table column colVal).onMap st' = (.error e, st') := by
  obtain ⟨hclient, hentry, hlists, hframe⟩ := hrun.posted htx hnew
  refine ⟨hlists.mem, hlists.nodup, hlists.order, ?_, hframe, fun call hpk => ?_⟩
  · rw [← listed_eq_nil_iff, eq_nil_iff_forall_not_mem, Set.eq_empty_iff_forall_notMem]
    exact forall_congr' fun pk => not_congr (hlists.mem pk)
  · rw [← hclient] at htx
    exact (outcome_call htx hentry hpk).imp_left fun ⟨d', hok, _⟩ => ⟨_, hok⟩

/-- Two keys are added and one is removed. -/
theorem postings_are_set_pair : ∃ st', PostingRun "t" "c" "v" (idle, ⟨SortedMap.empty, 1⟩)
    [.remove "1", .add "2", .add "1"] st' ∧
    listed (st'.2.contents.get (secKey "t" "c" "v")) = ["2"] ∧
    (listed (st'.2.contents.get (secKey "t" "c" "v"))).Nodup := by
  have hrun : PostingRun "t" "c" "v" (idle, ⟨SortedMap.empty, 1⟩)
      [.remove "1", .add "2", .add "1"] _ :=
    .call (.call (.call .start ⟨rfl, by decide⟩ rfl) ⟨rfl, by decide⟩ rfl) ⟨rfl, by decide⟩ rfl
  exact ⟨_, hrun, by decide +kernel, (postings_are_set hrun rfl rfl).2.1⟩

end MagnumDB
