import ByteMachine.Json

/-! # Options

Two numbers decide when a branch on single bytes becomes a lookup table: how many bytes it
must tell apart for a table to pay, and how many bits an element of the table has. -/
namespace ByteMachine

/-- When lookup tables are used. -/
structure Options where
  /-- The bits of an element of a table. -/
  elementWidth : Nat := 4
  /-- The least number of bytes that a table tells apart. -/
  minimumSize : Nat := 32
deriving DecidableEq, Repr, Inhabited

/-- An element without bits cannot tell any targets apart. -/
inductive OptionsError where
  | noElementWidth
deriving DecidableEq, Repr, Inhabited

namespace OptionsError

/-- The wording of an error. -/
def message : OptionsError → String
  | .noElementWidth => "invalid `maxTableElemWidth` 0, must be positive"

end OptionsError

namespace Options

/-- Accepts options whose elements have at least one bit. -/
def check (o : Options) : Except OptionsError Unit :=
  if o.elementWidth = 0 then .error .noElementWidth else .ok ()

/-- Whether an element can tell the targets of a table apart and has a value to spare for
bytes without a target.  Elements of 64 bits and more hold any number of targets. -/
def fits (o : Options) (targets : Nat) : Bool :=
  64 ≤ o.elementWidth || targets < Nat.pow 2 o.elementWidth

/-- The record of options. -/
def toJson (o : Options) : Json :=
  .record [("maxTableElemWidth", .int o.elementWidth), ("minTableSize", .int o.minimumSize)]

/-- Reads a natural number below a bound; a missing one is the default. -/
def readNat (bound default : Nat) : Option Json → Option Nat
  | none => some default
  | some (.int n) => if 0 ≤ n ∧ n < bound then some n.toNat else none
  | some _ => none

/-- Reads options: a record, whose fields of other names are ignored, or the list of the two
numbers.  What is left out has its default; element widths have 32 bits, table sizes 64. -/
def ofJson? (j : Json) : Option Options :=
  match j with
  | .record _ => build (j.field? "maxTableElemWidth") (j.field? "minTableSize")
  | .list [] => build none none
  | .list [width] => build (some width) none
  | .list [width, size] => build (some width) (some size)
  | _ => none
where
  /-- Options from their two parts. -/
  build (width size : Option Json) : Option Options := do
    return ⟨← readNat (Nat.pow 2 32) 4 width, ← readNat (Nat.pow 2 64) 32 size⟩

end Options

end ByteMachine
