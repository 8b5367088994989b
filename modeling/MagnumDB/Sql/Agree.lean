import MagnumDB.Sql.Run

/-!
# States that agree on some keys

What a program does not write, it leaves alone: the state before and the state after
agree on it. What is read under keys on which two states agree is the same in both.
-/

namespace MagnumDB

open Text CatalogManager

/-- The table of an INSERT, UPDATE, DELETE or DROP TABLE. -/
def Statement.target : Statement → Option Bytes
  | .insert tableName _ => some tableName
  | .update tableName _ _ _ => some tableName
  | .delete tableName _ => some tableName
  | .dropTable tableName => some tableName
  | _ => none

namespace Executor

variable {α : Type} {W : Bytes → Prop}

/-- What is scanned on a map begins with the prefix. -/
theorem scanned_handle (c : Call) (d : MapDb) : Call.Scanned c (MapDb.handle c d).1 := by
  cases c with
  | scanPrefix pre =>
    intro records hok e he
    obtain rfl := Except.ok.inj hok
    exact List.isPrefixOf_iff_prefix.mp (SortedMap.mem_select (k := e.1).mp he).1
  | _ => trivial

/-- Two states of the executor and of the map that agree on some keys. -/
def Agree (R : Bytes → Prop) (st st' : Executor × MapDb) : Prop :=
  st'.1.inTransaction = st.1.inTransaction ∧ ∀ k, R k →
    st'.1.writeBuffer.get k = st.1.writeBuffer.get k ∧ st'.2.contents.get k = st.2.contents.get k

theorem Agree.trans {R : Bytes → Prop} {st st' st'' : Executor × MapDb} (h₁ : Agree R st st')
    (h₂ : Agree R st' st'') : Agree R st st'' :=
  ⟨h₂.1.trans h₁.1, fun k hk => ⟨(h₂.2 k hk).1.trans (h₁.2 k hk).1, (h₂.2 k hk).2.trans (h₁.2 k hk).2⟩⟩

theorem Agree.mono {R R' : Bytes → Prop} {st st' : Executor × MapDb} (hagree : Agree R st st')
    (hsub : ∀ k, R' k → R k) : Agree R' st st' :=
  ⟨hagree.1, fun k hk => hagree.2 k (hsub k hk)⟩

/-- A program leaves the keys alone that it does not write. -/
theorem Touches.agree {x : Sql α} (hx : Touches Call.Scanned W x) (st : Executor × MapDb) :
    Agree (fun k => ¬ W k) st (x.onMap st).2 := by
  obtain ⟨self, d⟩ := st
  have hrun := (hx self self ⟨rfl, rfl, fun _ _ => rfl⟩).run (h := MapDb.handle)
    (I := fun d' => ∀ k, ¬ W k → d'.contents.get k = d.contents.get k) (t := d) ?_ fun _ _ => rfl
  · exact ⟨hrun.1.1.1, fun k hk => ⟨hrun.1.1.buffer hk, hrun.2.1 k hk⟩⟩
  · intro c d' hc hd'
    refine ⟨scanned_handle c d', fun k hk => ?_⟩
    cases c with
    | putWithTx txId key value =>
      unfold MapDb.handle
      dsimp only
      split
      · exact hd' k hk
      · have hne : k ≠ key := fun he => hk (he ▸ hc.2)
        exact (d'.contents.get_insert_ne value hne).trans (hd' k hk)
    | deleteWithTx txId key =>
      have hne : k ≠ key := fun he => hk (he ▸ hc.2)
      exact (d'.contents.get_erase_ne hne).trans (hd' k hk)
    | commitTx txId => exact hc.elim
    | _ => exact hd' k hk

variable {h : Host} {st st' : Executor × MapDb} {R : Bytes → Prop}

theorem Agree.seen (hagree : Agree R st st') {k : Bytes} (hk : R k) :
    st'.1.seen st'.2.contents k = st.1.seen st.2.contents k := by
  unfold Executor.seen
  rw [hagree.1, (hagree.2 k hk).1, (hagree.2 k hk).2]

theorem Agree.tableSchemaIn (hagree : Agree R st st') {s t : Bytes} (hkey : R (tableKey h s t))
    (hlegacy : R (schemaKeyOf t)) :
    Executor.tableSchemaIn h st'.2.contents s t = Executor.tableSchemaIn h st.2.contents s t := by
  unfold Executor.tableSchemaIn
  rw [(hagree.2 _ hkey).2, (hagree.2 _ hlegacy).2]

end Executor

end MagnumDB
