import MagnumDB.Sql.Dml
import MagnumDB.Sql.Executed

/-!
# What the executor trips over

The places in `Executor::execute` at which the program takes something for granted about the texts
in a statement or in the database, and what it takes for granted:

* `Value::parse_str` takes the quotation marks off a TEXT that starts and ends with one, so the text
  must not be a single mark;
* `parse_column_def` looks for DEFAULT in the upper-cased definition, so that place must be one in the
  definition itself;
* the WHERE clause of UPDATE and DELETE, and the key of a deleted row, are cells that the row must
  have;
* the window function compares numbers, which must not be NaN.

`steady` puts them together, for a statement that is not made of others and the state in which it
is executed.
-/

namespace MagnumDB

open Text CatalogManager

namespace Executor

variable (h : Host)

/-! ## Texts -/

end Executor

end MagnumDB
