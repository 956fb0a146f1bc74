/-! # JSON values

Options and properties are exchanged as JSON.  A number is an integer when it is written
without fraction and exponent; any other number keeps its literal, since nothing here
computes with it.  The fields of a record stand in the order in which they are written. -/
namespace ByteMachine

/-- A JSON value. -/
inductive Json where
  | null
  | bool (b : Bool)
  | int (n : Int)
  /-- A number with a fraction or an exponent, by its literal. -/
  | real (literal : String)
  | text (s : String)
  | list (items : List Json)
  | record (fields : List (String × Json))
deriving Inhabited, Repr

namespace Json

/-- The field of a record. -/
def field? (j : Json) (name : String) : Option Json :=
  match j with
  | .record fields => fields.lookup name
  | _ => none

/-! ## Compact text -/

/-- One character of a string literal: the quote, the backslash and the control characters
are escaped. -/
def charText (c : Char) : String :=
  match c.toNat with
  | 0x08 => "\\b"
  | 0x09 => "\\t"
  | 0x0A => "\\n"
  | 0x0C => "\\f"
  | 0x0D => "\\r"
  | 0x22 => "\\\""
  | 0x5C => "\\\\"
  | n =>
    if n < 0x20 then "\\u00" ++ String.ofList [Nat.digitChar (n / 16), Nat.digitChar (n % 16)]
    else String.singleton c

/-- A string literal. -/
def stringText (s : String) : String := "\"" ++ String.join (s.toList.map charText) ++ "\""

mutual

/-- The text of a value without any blanks. -/
def compact : Json → String
  | .null => "null"
  | .bool b => if b then "true" else "false"
  | .int n => toString n
  | .real literal => literal
  | .text s => stringText s
  | .list items => "[" ++ ",".intercalate (compactItems items) ++ "]"
  | .record fields => "\x7b" ++ ",".intercalate (compactFields fields) ++ "\x7d"

/-- The texts of the items of a list. -/
def compactItems : List Json → List String
  | [] => []
  | item :: rest => compact item :: compactItems rest

/-- The texts of the fields of a record, each the name, a colon and the value. -/
def compactFields : List (String × Json) → List String
  | [] => []
  | (name, value) :: rest => (stringText name ++ ":" ++ compact value) :: compactFields rest

end

end Json

end ByteMachine
