import GrammarForms.Analysis.Nullable
import GrammarForms.Listing

/-!
# Tables of Nullable Nonterminals

The table of a grammar says of each nonterminal, in the order of the entries, whether it is
nullable.
-/

namespace GrammarForms

structure NullableRow where
  name : Char
  nullable : Bool
deriving DecidableEq

structure NullableTable where
  rows : List NullableRow
deriving DecidableEq

namespace NullableTable

def truth (value : Bool) : String :=
  if value then "true" else "false"

def plain (table : NullableTable) : String :=
  "\n".intercalate (table.rows.map fun row ↦ row.name.toString ++ " | " ++ truth row.nullable)

def latex (table : NullableTable) : String :=
  "\\begin\x7btabular\x7d\x7bc|c\x7d\nSymbol & Nullable\\\\\\hline\n" ++
    "\\\\\n ".intercalate
      (table.rows.map fun row ↦ row.name.toString ++ " & " ++ truth row.nullable) ++
    "\\\\\n\\end\x7btabular\x7d"

def json (table : NullableTable) : String :=
  Json.object [("data", Json.array (table.rows.map fun row ↦
    Json.object
      [("name", Json.string row.name.toString), ("nullable", truth row.nullable)]))]

def render (table : NullableTable) : Format → String
  | .plain => table.plain
  | .latex => table.latex
  | .json => table.json

end NullableTable

def Grammar.nullableTable (g : Grammar) : NullableTable :=
  let nullable := g.nullable
  ⟨g.names.map fun name ↦ ⟨name, nullable.contains name⟩⟩

end GrammarForms
