import ByteMachine.Machine.Basic

/-! # Changing the edges of a machine

A machine can be put together piece by piece: states first, without edges, and then their
edges.  An edge is accepted by the states of one kind only.  A machine that is complete can
have its edges led past the states that do nothing. -/
namespace ByteMachine.Machine

/-! ## Wiring by hand -/

/-- The edges that belong to one kind of state. -/
inductive Wire where
  | onReturn (edge : ReturnEdge)
  | onByte (edge : ByteEdge)
  | onTable (edge : TableEdge)
  | onRun (edge : RunEdge)
deriving DecidableEq, Repr, Inhabited

namespace Wire

/-- The word for adding an edge. -/
def word : Wire → String
  | .onReturn _ => "add_invoke_edge"
  | .onByte _ => "add_single_edge"
  | .onTable _ => "add_table_edge"
  | .onRun _ => "set_sequence_edge"

end Wire

/-- Why an edge cannot be added. -/
inductive WiringError where
  /-- There is no state at the position. -/
  | unknownState
  /-- The edge does not belong to the kind of the state. -/
  | wrongKind (wire : Wire) (state : State)
deriving DecidableEq, Repr, Inhabited

namespace WiringError

/-- The wording of an error. -/
def message : WiringError → String
  | .unknownState => "index out of bounds"
  | .wrongKind wire state =>
    "Node: `" ++ wire.word ++ "` called on " ++ state.kind.word ++ " node `" ++ state.name ++
      "` (translator must only wire edges its kind supports)"

end WiringError

namespace State

/-- Adds an edge at the end, or sets the edge of a run. -/
def wire (s : State) (w : Wire) : Except WiringError State :=
  match s.kind, w with
  | .invoke callback edges, .onReturn e => .ok { s with kind := .invoke callback (edges ++ [e]) }
  | .branch transform edges, .onByte e => .ok { s with kind := .branch transform (edges ++ [e]) }
  | .table transform edges, .onTable e => .ok { s with kind := .table transform (edges ++ [e]) }
  | .run transform bytes _, .onRun e => .ok { s with kind := .run transform bytes (some e) }
  | _, w => .error (.wrongKind w s)

end State

/-- Appends a state. -/
def addState (m : Machine) (s : State) : Machine := { m with states := m.states.push s }

/-- Appends a callback. -/
def addCallback (m : Machine) (c : Callback Bool) : Machine :=
  { m with callbacks := m.callbacks.push c }

/-- Appends a transform. -/
def addTransform (m : Machine) (t : Transform) : Machine :=
  { m with transforms := m.transforms.push t }

/-- Replaces a state by what `f` makes of it. -/
def updateState (m : Machine) (i : Nat) (f : State → State) : Machine :=
  { m with states := m.states.modify i f }

/-- Adds an edge to a state. -/
def wire (m : Machine) (i : Nat) (w : Wire) : Except WiringError Machine :=
  match m.states[i]? with
  | some s => (s.wire w).map fun s => { m with states := m.states.setIfInBounds i s }
  | none => .error .unknownState

/-- Sets the otherwise edge of a state. -/
def setOtherwise (m : Machine) (i : Nat) (o : Fallback) : Machine :=
  m.updateState i fun s => { s with otherwise := some o }

/-- Gives the edges of a state new targets, as far as there are any. -/
def retarget (m : Machine) (i : Nat) (ts : List Nat) : Machine := m.updateState i (·.retarget ts)

/-! ## Going past empty states

An empty state that leaves the next byte alone does nothing but go on.  An edge into it may
as well lead to where the chain of such states ends.  `Machine.bypass` redirects the edges of
all reachable states in this way, one state after the other; each step reads the machine as
the steps before have left it.

A chain of empty states that closes into a loop has no end, and edges into it stay as they
are. -/

/-- Where an empty state that leaves the byte alone goes on. -/
def State.passesTo? (s : State) : Option Nat :=
  match s.kind, s.otherwise with
  | .empty, some ⟨target, true, _⟩ => some target
  | _, _ => none

/-- Where the state at a position merely passes on to. -/
def passesTo? (m : Machine) (i : Nat) : Option Nat := m.states[i]?.bind State.passesTo?

/-- The first state from `i` on that does not merely pass on, if at most `n` states before it
do. -/
def chainEnd? (m : Machine) : (n i : Nat) → Option Nat
  | 0, i => if (m.passesTo? i).isSome then none else some i
  | n + 1, i =>
    match m.passesTo? i with
    | some j => m.chainEnd? n j
    | none => some i

/-- Where the chain of passing states from `i` ends; `i` itself when it runs in a loop.  A
chain that passes through more states than there are has met one of them twice. -/
def destination (m : Machine) (i : Nat) : Nat := (m.chainEnd? m.states.size i).getD i

/-- Redirects the edges of one state. -/
def bypassAt (m : Machine) (i : Nat) : Machine :=
  match m.states[i]? with
  | some s =>
    { m with states := m.states.setIfInBounds i (s.retarget (s.targets.map m.destination)) }
  | none => m

/-- Redirects the edges of all states reachable from the root; the new root comes second. -/
def bypass (m : Machine) (root : Nat) : Machine × Nat :=
  let after := (m.reachable root).foldl bypassAt m
  (after, after.destination root)

/-- The number of edges that lead elsewhere in the second machine. -/
def redirections (m after : Machine) : Nat :=
  ((m.states.zip after.states).toList.flatMap fun (s, t) => s.targets.zip t.targets).countP
    fun (i, j) => i != j

end ByteMachine.Machine
