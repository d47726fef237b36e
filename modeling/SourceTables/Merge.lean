import SourceTables.Schema

/-!
# `SourceTables.Merge`: one schema for several tables

The merged schema has every column that any table has, in the order in which names are first seen.
All columns are nullable, since a table may lack them. Where types differ, nothing but nulls gives
way to anything, two kinds of numbers become `Float64`, and all else becomes `Utf8`.
-/

set_option autoImplicit false

namespace SourceTables

namespace DataType

/-- Whether values of a type are numbers. -/
def isNumeric : DataType → Bool
  | .scalar kind => kind.isNumeric
  | _ => false

/-- The type that holds the values of two types. -/
def join (a b : DataType) : DataType :=
  if a = b then a
  else if a = .null then b
  else if b = .null then a
  else if a.isNumeric && b.isNumeric then .float64
  else .utf8

end DataType

namespace Schema

/-- The column of a name. -/
def column? (s : Schema) (name : String) : Option (Field DataType) :=
  s.find? (fun f => f.name == name)

/-- One more column. -/
def mergeField : Schema → Field DataType → Schema
  | [], f => [{ f with nullable := true }]
  | g :: rest, f =>
    if g.name = f.name then { g with type := g.type.join f.type } :: rest
    else g :: mergeField rest f

/-- One more table's columns. -/
def mergeWith (merged s : Schema) : Schema := s.foldl mergeField merged

/-- The columns of all tables. -/
def merge (schemas : List Schema) : Schema := schemas.foldl mergeWith []

end Schema

end SourceTables
