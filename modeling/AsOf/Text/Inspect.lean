import AsOf.Text.Quoted

/-!
# Inspection text

The one-line text by which values are shown in reports and failures.  A record
is its name and its fields in braces; an open record shows only some of its
fields and ends in two dots; a case that holds a value is its name and the value
in parentheses.
-/

namespace AsOf

/-- Values with an inspection text. -/
class Inspect (α : Type) where
  inspect : α -> String

export Inspect (inspect)

namespace Text

/-- The fields of a record, written one after the other. -/
def fieldList (fields : List (String × String)) : String :=
  ", ".intercalate (fields.map fun field => field.1 ++ ": " ++ field.2)

/-- A record that shows all its fields. -/
def record (name : String) (fields : List (String × String)) : String :=
  name ++ " \x7b " ++ fieldList fields ++ " \x7d"

/-- A record that keeps some of its fields to itself. -/
def openRecord (name : String) : List (String × String) -> String
  | [] =>
      name ++ " \x7b .. \x7d"
  | fields =>
      name ++ " \x7b " ++ fieldList fields ++ ", .. \x7d"

/-- A case that holds one value. -/
def holding (name content : String) : String :=
  name ++ "(" ++ content ++ ")"

end Text

instance : Inspect Nat := ⟨fun n => toString n⟩

instance : Inspect Int := ⟨fun n => toString n⟩

instance : Inspect Bool := ⟨fun b => if b then "true" else "false"⟩

instance : Inspect String := ⟨Text.quote⟩

instance {α : Type} [Inspect α] : Inspect (Option α) where
  inspect
    | none => "None"
    | some a => Text.holding "Some" (inspect a)

end AsOf
