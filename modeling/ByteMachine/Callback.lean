/-! # Callbacks

A parser talks to its surroundings through callbacks.  Some are the user's own functions,
known by name only; the rest are ready-made operations on one field of the parser's state.
The **signature** of a callback says how it is called: plainly, with the value selected by
the last match, or with the bytes of a span.

A blueprint may leave open whether a multiply-and-add is signed.  The type of that answer is
therefore a parameter of `Operation`: `Option Bool` as declared, `Bool` once resolved. -/
namespace ByteMachine

/-- How a callback is called. -/
inductive Signature where
  /-- With the parser's state only. -/
  | plain
  /-- With the bytes of a span. -/
  | span
  /-- With the value that the last selection passed. -/
  | value
deriving DecidableEq, Repr, Inhabited

namespace Signature

/-- The word for a signature in messages and keys. -/
def word : Signature → String
  | .plain => "match"
  | .span => "span"
  | .value => "value"

end Signature

/-- What a callback does; `σ` is what is known about the sign of a multiply-and-add. -/
inductive Operation (σ : Type) where
  /-- Compare a field with a constant. -/
  | isEqual (field : String) (value : Int)
  /-- Answer with a field. -/
  | load (field : String)
  /-- Append the selected digit to a field: multiply by the base and add, up to a maximum. -/
  | mulAdd (field : String) (base : Int) (max : Option Int) (signed : σ)
  /-- Set the bits of a constant in a field. -/
  | or (field : String) (value : Int)
  /-- Keep the selected value in a field. -/
  | store (field : String)
  /-- Ask whether a field has all bits of a constant. -/
  | test (field : String) (value : Int)
  /-- Set a field to a constant. -/
  | update (field : String) (value : Int)
  /-- Call a function of the user. -/
  | external (signature : Signature)
deriving DecidableEq, Repr, Inhabited

namespace Operation

variable {σ : Type}

/-- How the operation is called. -/
def signature : Operation σ → Signature
  | .isEqual .. | .load .. | .test .. => .plain
  | .mulAdd .. | .or .. | .store .. | .update .. => .value
  | .external s => s

/-- The field that the operation works on; a function of the user has none. -/
def field? : Operation σ → Option String
  | .isEqual f _ | .load f | .mulAdd f .. | .or f _ | .store f | .test f _ | .update f _ => some f
  | .external _ => none

/-- Whether the operation is a function of the user. -/
def isExternal : Operation σ → Bool
  | .external _ => true
  | _ => false

/-- A multiply-and-add that says nothing about its sign is signed. -/
def resolve : Operation (Option Bool) → Operation Bool
  | .isEqual f v => .isEqual f v
  | .load f => .load f
  | .mulAdd f base max signed => .mulAdd f base max (signed.getD true)
  | .or f v => .or f v
  | .store f => .store f
  | .test f v => .test f v
  | .update f v => .update f v
  | .external s => .external s

end Operation

/-- A named operation. -/
structure Callback (σ : Type) where
  name : String
  operation : Operation σ
deriving DecidableEq, Repr, Inhabited

namespace Callback

variable {σ : Type}

/-- How the callback is called. -/
def signature (c : Callback σ) : Signature := c.operation.signature

/-- The same callback with the sign of a multiply-and-add decided. -/
def resolve (c : Callback (Option Bool)) : Callback Bool := ⟨c.name, c.operation.resolve⟩

/-! ### When two callbacks are the same

A machine holds each callback once.  Two operations on fields are the same when they do the
same, whatever they are called; a function of the user is known by its signature and name.
`Callback.key` writes exactly that down as one text, so that equal keys mean equal
callbacks. -/

/-- The text that identifies a callback. -/
def key (c : Callback Bool) : String :=
  match c.operation with
  | .isEqual field value => s!"is_equal_{field}_{value}"
  | .load field => s!"load_{field}"
  | .mulAdd field base max signed =>
    let top := match max with
      | some m => toString m
      | none => "none"
    s!"mul_add_{field}_{base}_{top}_{signed}"
  | .or field value => s!"or_{field}_{value}"
  | .store field => s!"store_{field}"
  | .test field value => s!"test_{field}_{value}"
  | .update field value => s!"update_{field}_{value}"
  | .external signature => "external_" ++ signature.word ++ "_" ++ c.name

/-- The callbacks of a list without repetition: of those with the same key the first
stays. -/
def distinct (cs : List (Callback Bool)) : List (Callback Bool) := go [] cs
where
  /-- `seen` holds the keys met so far. -/
  go (seen : List String) : List (Callback Bool) → List (Callback Bool)
    | [] => []
    | c :: rest => if c.key ∈ seen then go seen rest else c :: go (c.key :: seen) rest

end Callback

end ByteMachine
