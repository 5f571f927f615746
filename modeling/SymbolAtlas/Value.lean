/-! # Untyped values

Configuration and the contexts of error reports come from outside as untyped values.
-/

namespace SymbolAtlas

/-- An untyped value. A number is its mantissa divided by a power of ten. -/
inductive Value where
  | null
  | bool (b : Bool)
  | number (mantissa : Int) (decimals : Nat)
  | text (s : String)
  | list (items : List Value)
  | record (fields : List (String × Value))
  deriving Repr, Inhabited

namespace Value

/-- The name of a value's type in a configuration issue. -/
def typeName : Value → String
  | null => "null"
  | bool _ => "boolean"
  | number _ _ => "number"
  | text _ => "string"
  | list _ => "array"
  | record _ => "object"

/-- The name of an argument's type in a report on a broken contract; lists, records and null are
all objects, and a missing argument is undefined. -/
def argumentType : Option Value → String
  | none => "undefined"
  | some (bool _) => "boolean"
  | some (number _ _) => "number"
  | some (text _) => "string"
  | some null | some (list _) | some (record _) => "object"

def field? (name : String) : Value → Option Value
  | record fields => (fields.find? (·.1 == name)).map (·.2)
  | _ => none

/-- A number in decimal digits, without zeros at the end of its fraction. -/
def decimalText (mantissa : Int) : Nat → String
  | 0 => toString mantissa
  | decimals + 1 =>
    if mantissa % 10 = 0 then decimalText (mantissa / 10) decimals
    else
      let digits := toString mantissa.natAbs
      let padded := "".pushn '0' (decimals + 2 - digits.length) ++ digits
      let whole := padded.toList.take (padded.length - (decimals + 1))
      let fraction := padded.toList.drop whole.length
      (if mantissa < 0 then "-" else "") ++ String.ofList whole ++ "." ++ String.ofList fraction

mutual

/-- A value as text: the items of a list stand between commas, and a record shows nothing of its
fields. -/
def display : Value → String
  | null => "null"
  | bool b => if b then "true" else "false"
  | number m d => decimalText m d
  | text s => s
  | list items => ",".intercalate (displayItems items)
  | record _ => "[object Object]"

/-- The items of a list as texts; null is empty there. -/
def displayItems : List Value → List String
  | [] => []
  | null :: vs => "" :: displayItems vs
  | v :: vs => display v :: displayItems vs

end

def displayOrUndefined : Option Value → String
  | none => "undefined"
  | some v => v.display

end Value

end SymbolAtlas
