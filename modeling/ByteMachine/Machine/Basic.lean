import ByteMachine.Callback
import ByteMachine.Digraph
import ByteMachine.Names

/-! # Machines

A machine is a parser made of small states, each of which looks at one byte, or at a fixed
run of bytes, or at none.  States, callbacks and transforms are named by their positions.

A state continues along its **otherwise** edge, when it has one, and along the edges of its
kind; `State.targets` lists them all in that order, and `State.retarget` puts new targets in
their places. -/
namespace ByteMachine

/-- What is done to a byte before it is compared. -/
inductive Transform where
  | identity
  /-- Sets the bit that tells a lower-case letter from its upper-case form, whether or not the
  byte is a letter. -/
  | toLowerUnsafe
deriving DecidableEq, Repr, Inhabited

namespace Transform

/-- The word for a transform. -/
def word : Transform → String
  | .identity => "id"
  | .toLowerUnsafe => "to_lower_unsafe"

/-- The transform that a word asks for.  The identity is asked for by saying nothing. -/
def ofWord? : String → Option Transform
  | "to_lower_unsafe" => some .toLowerUnsafe
  | _ => none

end Transform

namespace Machine

/-- Where a state continues when none of its edges applies. -/
structure Fallback where
  target : Nat
  /-- The byte that fits no edge is left for the next state. -/
  stay : Bool
  value : Option Int
deriving DecidableEq, Repr, Inhabited

/-- Where a callback state continues on a returned code. -/
structure ReturnEdge where
  code : Int
  target : Nat
deriving DecidableEq, Repr, Inhabited

/-- Where a branch continues on a byte. -/
structure ByteEdge where
  key : UInt8
  stay : Bool
  target : Nat
  value : Option Int
deriving DecidableEq, Repr, Inhabited

/-- Where a table continues on any of some bytes. -/
structure TableEdge where
  keys : List UInt8
  stay : Bool
  target : Nat
deriving DecidableEq, Repr, Inhabited

/-- Where a run continues once its bytes are seen. -/
structure RunEdge where
  target : Nat
  value : Option Int
deriving DecidableEq, Repr, Inhabited

/-- What a state does. -/
inductive Kind where
  /-- Go on. -/
  | empty
  | error (code : Int) (reason : String)
  | pause (code : Int) (reason : String)
  /-- Skip as many bytes as a field says. -/
  | consume (field : String)
  /-- Note where a span begins, in one of the places for spans. -/
  | spanStart (place : Nat) (callback : Nat)
  /-- Hand the bytes of the span in a place to a callback. -/
  | spanEnd (place : Nat) (callback : Nat)
  | invoke (callback : Nat) (edges : List ReturnEdge)
  /-- Compare the next byte with the keys. -/
  | branch (transform : Nat) (edges : List ByteEdge)
  /-- Compare the next bytes with a run of bytes. -/
  | run (transform : Nat) (bytes : List UInt8) (edge : Option RunEdge)
  /-- Look the next byte up in a table. -/
  | table (transform : Nat) (edges : List TableEdge)
deriving DecidableEq, Repr, Inhabited

namespace Kind

/-- The word for a kind. -/
def word : Kind → String
  | .empty => "empty"
  | .error .. => "error"
  | .pause .. => "pause"
  | .consume .. => "consume"
  | .spanStart .. => "span_start"
  | .spanEnd .. => "span_end"
  | .invoke .. => "invoke"
  | .branch .. => "single"
  | .run .. => "sequence"
  | .table .. => "table"

/-- The transform of a kind that looks at bytes. -/
def transform? : Kind → Option Nat
  | .branch transform _ | .run transform .. | .table transform _ => some transform
  | _ => none

/-- The targets of the edges that belong to the kind, in order. -/
def targets : Kind → List Nat
  | .invoke _ edges => edges.map (·.target)
  | .branch _ edges => edges.map (·.target)
  | .run _ _ edge => edge.toList.map (·.target)
  | .table _ edges => edges.map (·.target)
  | _ => []

/-- Gives a list of edges new targets, as far as there are any. -/
def assign {α : Type} (set : α → Nat → α) : List α → List Nat → List α
  | edge :: edges, target :: targets => set edge target :: assign set edges targets
  | edges, _ => edges

/-- Gives the edges that belong to the kind new targets, as far as there are any. -/
def retarget : Kind → List Nat → Kind
  | .invoke callback edges, ts =>
    .invoke callback (assign (fun (e : ReturnEdge) t => { e with target := t }) edges ts)
  | .branch transform edges, ts =>
    .branch transform (assign (fun (e : ByteEdge) t => { e with target := t }) edges ts)
  | .run transform bytes (some edge), t :: _ =>
    .run transform bytes (some { edge with target := t })
  | .table transform edges, ts =>
    .table transform (assign (fun (e : TableEdge) t => { e with target := t }) edges ts)
  | kind, _ => kind

end Kind

/-- A state of a machine. -/
structure State where
  label : Label
  kind : Kind
  otherwise : Option Fallback := none
deriving DecidableEq, Repr, Inhabited

namespace State

/-- The unique name of the state. -/
def name (s : State) : String := s.label.text

/-- Where the state can continue: otherwise first, then along its other edges in order. -/
def targets (s : State) : List Nat :=
  s.otherwise.toList.map (·.target) ++ s.kind.targets

/-- Gives the edges new targets in the order of `targets`, as far as there are any. -/
def retarget (s : State) (ts : List Nat) : State :=
  match s.otherwise, ts with
  | some o, t :: ts =>
    { s with otherwise := some { o with target := t }, kind := s.kind.retarget ts }
  | some _, [] => s
  | none, ts => { s with kind := s.kind.retarget ts }

/-- Whether the state lacks an edge that every state of its kind needs. -/
def isUnfinished (s : State) : Bool :=
  match s.kind with
  | .error .. => false
  | .run _ _ none => true
  | _ => s.otherwise.isNone

end State

end Machine

/-- A parser made of small states. -/
structure Machine where
  states : Array Machine.State := #[]
  callbacks : Array (Callback Bool) := #[]
  transforms : Array Transform := #[]
deriving Repr, Inhabited

namespace Machine

/-- Where a state can continue; a position without a state leads nowhere. -/
def next (m : Machine) (i : Nat) : List Nat :=
  match m.states[i]? with
  | some s => s.targets
  | none => []

theorem lt_size_of_next_ne_nil {m : Machine} {i : Nat} (h : m.next i ≠ []) :
    i < m.states.size := by
  unfold next at h
  split at h
  · exact (Array.getElem?_eq_some_iff.mp ‹_›).1
  · exact absurd rfl h

/-- The machine as a directed graph on positions. -/
def digraph (m : Machine) : Digraph Nat where
  next := m.next
  finite := ⟨List.range m.states.size, fun _ h => List.mem_range.mpr (lt_size_of_next_ne_nil h)⟩

/-- The states reachable from a root, in depth-first preorder. -/
def reachable (m : Machine) (root : Nat) : List Nat := m.digraph.preorder root

/-- The name of a state. -/
def stateName (m : Machine) (i : Nat) : String := (m.states[i]?.map State.name).getD ""

/-- The name of a callback. -/
def callbackName (m : Machine) (i : Nat) : String := (m.callbacks[i]?.map (·.name)).getD ""

/-- The name of a state that lacks an edge. -/
def unfinished? (m : Machine) : Option String :=
  (m.states.find? State.isUnfinished).map State.name

end Machine

end ByteMachine
