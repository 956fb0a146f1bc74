import ByteMachine.Json

/-! # Properties

A property is a named field that the finished parser carries for its user.  As JSON it is a
record with a `type` and a `name`; the list of the two, in that order, reads as the same
property, and so does a type written as a record of one key without a value. -/
namespace ByteMachine

/-- What a property can hold. -/
inductive PropertyType where
  | i8
  | i16
  | i32
  | i64
  | ptr
deriving DecidableEq, Repr, Inhabited

namespace PropertyType

/-- The word for a type. -/
def word : PropertyType → String
  | .i8 => "i8"
  | .i16 => "i16"
  | .i32 => "i32"
  | .i64 => "i64"
  | .ptr => "ptr"

/-- The type that a word stands for. -/
def ofWord? : String → Option PropertyType
  | "i8" => some .i8
  | "i16" => some .i16
  | "i32" => some .i32
  | "i64" => some .i64
  | "ptr" => some .ptr
  | _ => none

/-- Reads a type: its word, or a record that has the word as its only key and nothing
there. -/
def ofJson? : Json → Option PropertyType
  | .text w => ofWord? w
  | .record [(w, .null)] => ofWord? w
  | _ => none

end PropertyType

/-- A named field of the parser. -/
structure Property where
  type : PropertyType
  name : String
deriving DecidableEq, Repr, Inhabited

namespace Property

/-- The record of a property. -/
def toJson (p : Property) : Json := .record [("type", .text p.type.word), ("name", .text p.name)]

/-- Reads a property; fields of other names are ignored. -/
def ofJson? (j : Json) : Option Property :=
  match j with
  | .record _ => build (j.field? "type") (j.field? "name")
  | .list [type, name] => build (some type) (some name)
  | _ => none
where
  /-- A property from its two parts. -/
  build : Option Json → Option Json → Option Property
    | some type, some (.text name) => (PropertyType.ofJson? type).map (⟨·, name⟩)
    | _, _ => none

end Property

end ByteMachine
