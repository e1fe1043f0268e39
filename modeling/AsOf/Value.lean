import AsOf.Text.Inspect

/-!
# Values

The values of a series whose entries hold numbers or texts.
-/

namespace AsOf

/-- A number or a text. -/
inductive Value where
  | integer (n : Int)
  | text (s : String)
  deriving DecidableEq

namespace Value

instance : Inspect Value where
  inspect
    | integer n => inspect n
    | text s => inspect s

end Value
end AsOf
