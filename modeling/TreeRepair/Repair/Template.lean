import TreeRepair.Prose

/-!
Bodies of quoted strings as bodies of template literals. An escaped quote becomes the bare quote and a
bare backtick is escaped; every other escape stays as it is.
-/
namespace TreeRepair.Template

open Prose

/-- The body of a template literal for the body of a quoted string. -/
def ofBody : List Char → List Char
  | [] => []
  | ['\\'] => ['\\']
  | '\\' :: c :: cs => if c = '\'' ∨ c = '"' then c :: ofBody cs else '\\' :: c :: ofBody cs
  | c :: cs => if c = backtick then '\\' :: backtick :: ofBody cs else c :: ofBody cs

/-- A body between backticks. -/
def literal (body : List Char) : List Char := backtick :: (ofBody body ++ [backtick])

end TreeRepair.Template
