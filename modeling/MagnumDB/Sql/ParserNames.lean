import MagnumDB.Sql.Names
import MagnumDB.Sql.Parser

/-!
# The names that the parser accepts

`validate_identifier` refuses a name that begins with two underscores. It is asked for
the names in CREATE TABLE and DROP TABLE, also in statements inside others, and it
looks at the name with its qualifier (`parse_namesChecked`).
-/

namespace MagnumDB

open Text

/-- The table names that are checked: those of CREATE TABLE and DROP TABLE, wherever they stand. -/
def Statement.NamesChecked : Statement → Prop
  | .createTable tableName _ => reserved (trim tableName) = false
  | .dropTable tableName => reserved (trim tableName) = false
  | .union left right _ => left.NamesChecked ∧ right.NamesChecked
  | .withQuery _ cteQuery mainQuery => cteQuery.NamesChecked ∧ mainQuery.NamesChecked
  | .selectInSubquery _ _ subquery => subquery.NamesChecked
  | _ => True

/-- The statements that a statement is made of and that are not made of others. -/
def Statement.simples : Statement → List Statement
  | .union left right _ => left.simples ++ right.simples
  | .withQuery _ cteQuery mainQuery => cteQuery.simples ++ mainQuery.simples
  | .selectInSubquery _ _ subquery => subquery.simples
  | stmt => [stmt]

theorem Statement.NamesChecked.simples {stmt : Statement} (hnames : stmt.NamesChecked) :
    ∀ s ∈ stmt.simples, s.NamesChecked := by
  induction stmt with
  | union left right all ihl ihr =>
    exact fun s hs => (List.mem_append.mp hs).elim (ihl hnames.1 s) (ihr hnames.2 s)
  | withQuery cteName cteQuery mainQuery ihq ihm =>
    exact fun s hs => (List.mem_append.mp hs).elim (ihq hnames.1 s) (ihm hnames.2 s)
  | selectInSubquery tableName column subquery ih => exact ih hnames
  | _ => exact fun s hs => (List.mem_singleton.mp hs) ▸ hnames

namespace Parser

variable {α β : Type}

/-- What is accepted is in `Q`. -/
def Accepts (x : Parse α) (Q : α → Prop) : Prop := ∀ a, x = .ok a → Q a

variable {Q : β → Prop}

theorem Accepts.pure {a : β} (ha : Q a) : Accepts (pure a) Q := fun _ he => Except.ok.inj he ▸ ha

theorem Accepts.fail (e : ParseError) : Accepts (fail e : Parse β) Q := fun _ he => nomatch he

theorem Accepts.bind {x : Parse α} {f : α → Parse β} {R : α → Prop} (hx : Accepts x R)
    (hf : ∀ a, R a → Accepts (f a) Q) : Accepts (x >>= f) Q := by
  intro b hb
  cases x with
  | error e => exact nomatch hb
  | ok a => exact hf a (hx a rfl) b hb

theorem Accepts.step {x : Parse α} {f : α → Parse β} (hf : ∀ a, Accepts (f a) Q) :
    Accepts (x >>= f) Q :=
  Accepts.bind (R := fun _ => True) (fun _ _ => trivial) fun a _ => hf a

theorem Accepts.ite {p : Prop} [Decidable p] {x y : Parse β} (hx : p → Accepts x Q)
    (hy : ¬ p → Accepts y Q) : Accepts (if p then x else y) Q := by
  split
  · exact hx ‹_›
  · exact hy ‹_›

theorem validateIdentifier_accepts (name : Bytes) :
    Accepts (validateIdentifier name) fun _ => reserved (trim name) = false := by
  refine .ite (fun _ => .fail _) fun hnot => .ite (fun _ => .fail _) fun _ => ?_
  exact Accepts.pure (Bool.eq_false_iff.mpr hnot)

variable (h : Host)

theorem parseCreateTable_accepts (sql : Bytes) :
    Accepts (parseCreateTable sql) Statement.NamesChecked := by
  refine .step fun _ => .step fun _ => .step fun _ => .step fun _ => ?_
  refine (validateIdentifier_accepts _).bind fun _ hname => ?_
  exact .step fun _ => .pure hname

theorem parseDropTable_accepts (sql : Bytes) :
    Accepts (parseDropTable sql) Statement.NamesChecked :=
  .step fun _ => (validateIdentifier_accepts _).bind fun _ hname => .pure hname

theorem parseAlterTable_accepts (sql : Bytes) :
    Accepts (parseAlterTable h sql) Statement.NamesChecked := by
  refine .ite (fun _ => .fail _) fun _ => .step fun _ => ?_
  exact .ite (fun _ => .step fun _ => .pure trivial) fun _ =>
    .ite (fun _ => .step fun _ => .pure trivial) fun _ => .fail _

theorem parseUpdate_accepts (sql : Bytes) : Accepts (parseUpdate h sql) Statement.NamesChecked := by
  refine .step fun _ => .step fun _ => ?_
  split
  · exact .step fun _ => .step fun _ => .step fun _ => .step fun _ => .step fun _ => .pure trivial
  · exact .step fun _ => .step fun _ => .step fun _ => .pure trivial

theorem parseDelete_accepts (sql : Bytes) : Accepts (parseDelete h sql) Statement.NamesChecked := by
  unfold parseDelete
  split
  · exact .step fun _ => .step fun _ => .step fun _ => .pure trivial
  · exact .step fun _ => .pure trivial

theorem parseSelectGroup_accepts (target rest : Bytes) (gbIdx : Nat) :
    Accepts (parseSelectGroup h target rest gbIdx) Statement.NamesChecked := by
  refine .step fun _ => .step fun _ => ?_
  dsimp only
  -- with HAVING and without; then the target is two parts, or refused
  split
  · refine .step fun _ => .step fun _ => .step fun _ => .step fun _ => ?_
    split
    · exact .step fun _ => .step fun _ => .step fun _ => .step fun _ => .pure trivial
    · exact .fail _
  · refine .step fun _ => ?_
    split
    · exact .step fun _ => .step fun _ => .step fun _ => .step fun _ => .pure trivial
    · exact .fail _

theorem parseSelectWindow_accepts (upperTarget rest : Bytes) :
    Accepts (parseSelectWindow upperTarget rest) Statement.NamesChecked := by
  refine .step fun _ => .step fun _ => .step fun _ => .step fun _ => .step fun _ => .step fun _ => ?_
  dsimp only
  split
  · refine .step fun _ => ?_
    split <;> exact .step fun _ => .pure trivial
  · refine .step fun _ => ?_
    split <;> exact .step fun _ => .pure trivial
  · refine .step fun _ => ?_
    split <;> exact .step fun _ => .pure trivial

/-- The queries: only one of them has a statement inside. -/
theorem parseSelect_accepts {parse : Bytes → Parse Statement}
    (hparse : ∀ sql, Accepts (parse sql) Statement.NamesChecked) (sql : Bytes) :
    Accepts (parseSelect h parse sql) Statement.NamesChecked := by
  refine .step fun _ => .step fun target => .step fun rest => .ite (fun _ => ?_) fun _ => ?_
  · exact .step fun _ => .step fun _ => .step fun _ => .step fun _ => .step fun _ => .step fun _ =>
      .pure trivial
  · split
    · exact parseSelectGroup_accepts h _ _ _
    · refine .ite (fun _ => ?_) fun _ => .ite (fun _ => ?_) fun _ => ?_
      · exact parseSelectWindow_accepts _ _
      · exact .step fun _ => .step fun _ => .step fun _ => .step fun _ => .pure trivial
      · refine .step fun parts => ?_
        obtain ⟨tableAndWhere, orderBy, limitOffset⟩ := parts
        dsimp only
        split
        · exact .pure trivial
        · refine .step fun _ => .step fun cond => ?_
          split
          · exact .step fun _ => .step fun _ => .pure trivial
          · refine .step fun clause => .ite (fun _ => ?_) fun _ => .pure trivial
            exact .step fun _ => (hparse _).bind fun _ hsub => .pure hsub

theorem parseByKeyword_accepts {parse : Bytes → Parse Statement}
    (hparse : ∀ sql, Accepts (parse sql) Statement.NamesChecked) (sql upperSql : Bytes) :
    Accepts (parseByKeyword h parse sql upperSql) Statement.NamesChecked := by
  refine .ite (fun _ => ?user) fun _ => .ite (fun _ => ?schema) fun _ => .ite (fun _ => ?index)
    fun _ => .ite (fun _ => parseCreateTable_accepts sql) fun _ => .ite (fun _ => ?insert)
    fun _ => .ite (fun _ => parseSelect_accepts h hparse sql)
    fun _ => .ite (fun _ => parseUpdate_accepts h sql) fun _ => .ite (fun _ => parseDelete_accepts h sql)
    fun _ => .ite (fun _ => parseAlterTable_accepts h sql)
    fun _ => .ite (fun _ => parseDropTable_accepts sql) fun _ => ?rest
  case user => exact .step fun _ => .step fun _ => .pure trivial
  case schema => exact .step fun _ => .step fun _ => .pure trivial
  case index =>
    exact .step fun _ => .step fun _ => .step fun _ => .step fun _ => .step fun _ => .step fun _ =>
      .step fun _ => .step fun _ => .step fun _ => .pure trivial
  case insert =>
    exact .step fun _ => .step fun _ => .step fun _ => .step fun _ =>
      .ite (fun _ => .fail _) fun _ => .pure trivial
  case rest =>
    exact .ite (fun _ => Accepts.pure trivial) fun _ => .ite (fun _ => Accepts.pure trivial)
      fun _ => .ite (fun _ => Accepts.pure trivial) fun _ => .ite (fun _ => Accepts.pure trivial)
      fun _ => .ite (fun _ => Accepts.pure trivial) fun _ => .fail _

theorem parseWithin_accepts (fuel : Nat) :
    ∀ sql, Accepts (parseWithin h fuel sql) Statement.NamesChecked := by
  induction fuel with
  | zero => exact nofun
  | succ fuel ih =>
    intro sql
    refine .ite (fun _ => ?_) fun _ => ?_
    · refine .step fun _ => .step fun _ => .step fun _ => .step fun _ => .step fun _ =>
        .step fun _ => .step fun _ => ?_
      exact (ih _).bind fun _ hcte => (ih _).bind fun _ hmain => .pure ⟨hcte, hmain⟩
    · split
      · refine .step fun _ => .step fun _ => ?_
        refine .ite (fun _ => .step fun _ => ?_) fun _ => .step fun _ => ?_
        · exact (ih _).bind fun _ hleft => (ih _).bind fun _ hright => .pure ⟨hleft, hright⟩
        · exact (ih _).bind fun _ hleft => (ih _).bind fun _ hright => .pure ⟨hleft, hright⟩
      · exact parseByKeyword_accepts h ih _ _

/-- **The names of tables that are created or dropped are checked as they are written.** -/
theorem parse_namesChecked {sql : Bytes} {stmt : Statement} (hparse : parse h sql = .ok stmt) :
    stmt.NamesChecked :=
  parseWithin_accepts h _ sql stmt hparse

end Parser

end MagnumDB
