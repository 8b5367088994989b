import MagnumDB.Sql.Run

/-!
# Invariants of single records

A property of a key and its value, such that every record of the database and every
record that waits in the buffer has it. A program keeps it if it stores only such
records, and it may rely on it for what it reads. `Keeps` is that contract, with one
rule for each way of building a program; `keeps_run` says what it means on a map.
-/

namespace MagnumDB

open Text Client CatalogManager

/-- A property of records. -/
abbrev RecordProp : Type := Bytes → Bytes → Prop

/-- The call stores only records with the property. -/
def Call.Stores (F : RecordProp) : Call → Prop
  | .putWithTx _ key value => F key value
  | _ => True

/-- What a call returns are records with the property. -/
def Call.Returns (F : RecordProp) : (c : Call) → c.Answer → Prop
  | .get key, r => ∀ value : Bytes, r = .ok (some value) → F key value
  | .scanPrefix pre, r => ∀ records : List (Bytes × Bytes), r = .ok records →
      ∀ e ∈ records, pre <+: e.1 ∧ F e.1 e.2
  | _, _ => True

theorem Call.Returns.scanned {F : RecordProp} {c : Call} {r : c.Answer} (hr : c.Returns F r) :
    c.Scanned r := by
  cases c with
  | scanPrefix pre => exact fun records hok e he => (hr records hok e he).1
  | _ => trivial

/-- All records have the property. -/
def Contents.All (F : RecordProp) (m : Contents) : Prop := ∀ k v, m.get k = some v → F k v

namespace Executor

variable {F : RecordProp} {α β : Type}

/-- All records that wait in the buffer have the property. -/
def BufferAll (F : RecordProp) (self : Executor) : Prop :=
  ∀ k v, self.writeBuffer.get k = some (some v) → F k v

/-- The program keeps the property, and what it returns is in `Q`. -/
abbrev Keeps (F : RecordProp) (x : Sql α) (Q : α → Prop) : Prop :=
  Client.Obeys (Call.Stores F) (Call.Returns F) (BufferAll F) x Q

/-- Nothing is said about what the program returns. -/
abbrev KeepsAny (F : RecordProp) (x : Sql α) : Prop := Keeps F x fun _ => True

variable {x : Sql α} {Q : α → Prop}

theorem Keeps.any (hx : Keeps F x Q) : KeepsAny F x :=
  hx.mono fun _ _ => trivial

theorem keeps_get (key : Bytes) : Keeps F (Db.get key) fun r => ∀ v, r = some v → F key v := by
  refine .ask trivial fun r hr a hok => ?_
  cases r with
  | error e => exact nomatch hok
  | ok found =>
    obtain rfl := Except.ok.inj hok
    exact fun v hv => hr v (by rw [hv])

theorem keeps_scanPrefix (pre : Bytes) :
    Keeps F (Db.scanPrefix pre) fun records => ∀ e ∈ records, pre <+: e.1 ∧ F e.1 e.2 := by
  refine .ask trivial fun r hr a hok => ?_
  cases r with
  | error e => exact nomatch hok
  | ok found =>
    obtain rfl := Except.ok.inj hok
    exact hr _ rfl

theorem keeps_put {key value : Bytes} (hrecord : F key value) : KeepsAny F (Db.put key value) :=
  .ask hrecord fun _ _ _ _ => trivial

theorem keeps_delete (key : Bytes) : KeepsAny F (Db.delete key) := .ask trivial fun _ _ _ _ => trivial

theorem keeps_ite {p : Prop} [Decidable p] {y : Sql α} (hx : p → Keeps F x Q)
    (hy : ¬ p → Keeps F y Q) : Keeps F (if p then x else y) Q := by
  split
  · exact hx ‹_›
  · exact hy ‹_›

theorem keeps_readThrough (key : Bytes) :
    Keeps F (readThrough key) fun r => ∀ v, r = some v → F key v := by
  refine Client.Obeys.get.bind fun self hself => ?_
  split
  · rename_i value heq
    refine .pure fun v hv => ?_
    split at heq
    · exact hself key v (by rw [heq, hv])
    · exact nomatch heq
  · exact keeps_get key

theorem keeps_writeOrBuffer {key : Bytes} {value : Option Bytes} (hrecord : ∀ v, value = some v → F key v) :
    KeepsAny F (writeOrBuffer key value) := by
  refine Client.Obeys.get.bind fun self _ => keeps_ite (fun _ => ?_) fun _ => ?_
  · refine .modify fun s hs k v hget => ?_
    rw [SortedMap.get_insert] at hget
    split at hget
    · rename_i hk
      rw [hk]
      exact hrecord v (Option.some.inj hget)
    · exact hs k v hget
  · cases value with
    | none => exact keeps_delete key
    | some v => exact keeps_put (hrecord v rfl)

/-- A program that writes keys of a kind keeps what is true of all records with such keys. -/
theorem Touches.keeps {W : Bytes → Prop} (hx : Touches (Call.Returns F) W x)
    (hW : ∀ k, W k → ∀ v, F k v) : KeepsAny F x := by
  intro self hself
  refine ((hx self self ⟨rfl, rfl, fun _ _ => rfl⟩).calls fun c hc => ?_).mono fun r hr => ?_
  · cases c with
    | putWithTx txId key value => exact hW key hc.2 value
    | _ => trivial
  · refine ⟨fun k v hget => ?_, fun _ _ => trivial⟩
    by_cases hk : W k
    · exact hW k hk v
    · rw [hr.1.buffer hk] at hget
      exact hself k v hget

theorem WritesOnly.keeps {W : Bytes → Prop} (hx : WritesOnly (Call.Returns F) W x)
    (hW : ∀ k, W k → ∀ v, F k v) : KeepsAny F x :=
  hx.touches.keeps hW

theorem KeepsAny.of_reads (hx : WritesOnly (Call.Returns F) (fun _ => False) x) : KeepsAny F x :=
  hx.keeps fun _ hk => hk.elim

theorem keeps_dropTable (h : Host) (tableName : Bytes) : KeepsAny F (dropTable h tableName) := by
  refine (keeps_readThrough _).any.bind fun found _ => keeps_ite (fun _ => .fail _) fun _ => ?_
  refine (keeps_scanPrefix _).any.bind fun records _ => ?_
  refine (keeps_scanPrefix _).any.bind fun indices _ => ?_
  refine Client.Obeys.bind (.forEach fun e _ => keeps_delete e.1) fun _ _ => ?_
  refine (keeps_scanPrefix _).any.bind fun entries _ => ?_
  refine Client.Obeys.bind (.forEach fun e _ => keeps_delete e.1) fun _ _ => ?_
  refine (keeps_delete _).bind fun _ _ => ?_
  refine Client.Obeys.bind (keeps_writeOrBuffer fun _ hv => nomatch hv) fun _ _ => ?_
  refine Client.Obeys.bind (.forEach fun e _ => keeps_writeOrBuffer fun _ hv => nomatch hv) fun _ _ => ?_
  exact .pure trivial

theorem keeps_commit : KeepsAny F commit := by
  refine Client.Obeys.get.bind fun self hself => keeps_ite (fun _ => ?_) fun _ => .fail _
  refine Client.Obeys.bind (.forEach fun w hw => ?_) fun _ _ => ?_
  · obtain ⟨key, value⟩ := w
    cases value with
    | none => exact .ask trivial fun _ _ _ _ => trivial
    | some v => exact .ask (hself key v (SortedMap.mem_entries.mp hw)) fun _ _ _ _ => trivial
  · refine Client.Obeys.bind (.ask trivial fun _ _ _ _ => trivial) fun _ (_ : True) => ?_
    refine Client.Obeys.bind (.modify fun _ _ k v hget => ?_) fun _ _ => .pure trivial
    exact nomatch hget

theorem keeps_rollback : KeepsAny F rollback := by
  refine Client.Obeys.get.bind fun self _ => keeps_ite (fun _ => ?_) fun _ => .fail _
  refine Client.Obeys.bind (.ask trivial fun _ _ _ _ => trivial) fun _ (_ : True) => ?_
  refine Client.Obeys.bind (.modify fun _ _ k v hget => ?_) fun _ _ => .pure trivial
  exact nomatch hget

theorem keeps_begin : KeepsAny F begin := by
  refine Client.Obeys.get.bind fun self _ => keeps_ite (fun _ => .fail _) fun _ => ?_
  refine Client.Obeys.bind (.ask trivial fun _ _ _ _ => trivial) fun txId (_ : True) => ?_
  refine Client.Obeys.bind (.modify fun _ _ k v hget => ?_) fun _ _ => ?_
  · exact nomatch hget
  · exact Client.Obeys.bind (.ask trivial fun _ _ _ _ => trivial) fun _ (_ : True) => .pure trivial

/-! ## On a map -/

/-- The executor and the map hold only records with the property. -/
def AllRecords (F : RecordProp) (st : Executor × MapDb) : Prop :=
  BufferAll F st.1 ∧ Contents.All F st.2.contents

theorem allRecords_empty (F : RecordProp) (n : UInt64) : AllRecords F (idle, ⟨SortedMap.empty, n⟩) :=
  ⟨nofun, nofun⟩

theorem handle_keeps {c : Call} {d : MapDb} (hc : c.Stores F) (hd : Contents.All F d.contents) :
    c.Returns F (MapDb.handle c d).1 ∧ Contents.All F (MapDb.handle c d).2.contents := by
  cases c with
  | get key =>
    refine ⟨fun value hok => hd key value (Except.ok.inj hok), hd⟩
  | scanPrefix pre =>
    refine ⟨fun records hok e he => ?_, hd⟩
    obtain rfl := Except.ok.inj hok
    obtain ⟨hpre, hget⟩ := SortedMap.mem_select (k := e.1).mp he
    exact ⟨List.isPrefixOf_iff_prefix.mp hpre, hd e.1 e.2 hget⟩
  | putWithTx txId key value =>
    refine ⟨trivial, ?_⟩
    unfold MapDb.handle
    dsimp only
    split
    · exact hd
    · intro k v hget
      have hset : (d.contents.set key (some value)).get k = some v := hget
      rw [SortedMap.get_set] at hset
      split at hset
      · rename_i hk
        rw [hk, ← Option.some.inj hset]
        exact hc
      · exact hd k v hset
  | deleteWithTx txId key =>
    refine ⟨trivial, fun k v hget => ?_⟩
    have hset : (d.contents.set key none).get k = some v := hget
    rw [SortedMap.get_set] at hset
    split at hset
    · exact nomatch hset
    · exact hd k v hset
  | _ => exact ⟨trivial, hd⟩

/-- **What a program that keeps a property of records does to a map.** -/
theorem Keeps.run (hx : Keeps F x Q) {st : Executor × MapDb} (hst : AllRecords F st) :
    AllRecords F (x.onMap st).2 ∧ ∀ a, (x.onMap st).1 = .ok a → Q a := by
  obtain ⟨self, d⟩ := st
  have hrun := (hx self hst.1).run (h := MapDb.handle) (I := fun d => Contents.All F d.contents)
    (fun c d hc hd => handle_keeps hc hd) hst.2
  exact ⟨⟨hrun.1.1, hrun.2.1⟩, hrun.1.2⟩

end Executor

end MagnumDB
