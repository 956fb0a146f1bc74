import ByteMachine.Options
import ByteMachine.Trie

/-! # Lookup tables

A branch with many children that lead to few places is better served by a table from bytes to
targets.  A table can only say where a byte leads.  So each child must be a leaf that passes
no value, and the bytes of one target must agree on whether they are consumed; besides, the
options must find the table worth its size. -/
namespace ByteMachine.Table

/-- The bytes that lead to one target. -/
structure Row where
  /-- In ascending order when the children are. -/
  keys : List UInt8
  /-- The byte is left for what follows. -/
  stay : Bool
  target : Nat
deriving DecidableEq, Repr, Inhabited

/-- Why a branch does not become a table. -/
inductive Rejection where
  | tooFewKeys (got needed : Nat)
  /-- A child goes on matching. -/
  | innerChild
  /-- A child passes a value. -/
  | passedValue
  /-- The bytes of one target disagree on whether they are consumed. -/
  | mixedStay
  | tooManyTargets (got : Nat)
deriving DecidableEq, Repr, Inhabited

namespace Rejection

/-- The wording of a rejection, for the branch of a node. -/
def message (node : String) : Rejection → String
  | .tooFewKeys got needed =>
    s!"not enough children of `{node}` to allocate table, got {got} need {needed}"
  | .innerChild => s!"non-leaf trie child of `{node}` prevents table allocation"
  | .passedValue => s!"value passing trie leaf of `{node}` prevents table allocation"
  | .mixedStay => s!"noAdvance mismatch in a trie leaf of `{node}` prevents table allocation"
  | .tooManyTargets got =>
    s!"too many different trie targets of `{node}` for a table allocation, got {got}"

end Rejection

/-- Enters a byte into the row of its target, or into a new last row. -/
def enter (byte : UInt8) (stay : Bool) (target : Nat) : List Row → Except Rejection (List Row)
  | [] => .ok [⟨[byte], stay, target⟩]
  | row :: rest =>
    if row.target = target then
      if row.stay = stay then .ok ({ row with keys := row.keys ++ [byte] } :: rest)
      else .error .mixedStay
    else do return row :: (← enter byte stay target rest)

/-- Enters a child of a branch. -/
def enterChild (rows : List Row) : UInt8 × Bool × Trie → Except Rejection (List Row)
  | (byte, stay, .leaf ⟨target, none⟩) => enter byte stay target rows
  | (_, _, .leaf ⟨_, some _⟩) => .error .passedValue
  | _ => .error .innerChild

/-- The table of a branch, or why there is none. -/
def ofChildren (o : Options) (children : List (UInt8 × Bool × Trie)) :
    Except Rejection (List Row) :=
  if children.length < o.minimumSize then
    .error (.tooFewKeys children.length o.minimumSize)
  else do
    let rows ← children.foldlM enterChild []
    if o.fits rows.length then return rows else .error (.tooManyTargets rows.length)

end ByteMachine.Table
