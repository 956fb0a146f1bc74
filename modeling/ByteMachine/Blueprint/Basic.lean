import ByteMachine.Callback
import ByteMachine.Digraph
import ByteMachine.Property

/-! # Blueprints

A blueprint describes a parser as a graph.  Its nodes match bytes, call back, mark where a
span of the input starts and ends, skip a counted number of bytes, pause or fail.  Nodes,
callbacks and spans are named by **handles**, their positions in order of creation.  A handle
stored in an edge may be ahead of its node: what it names is looked up only when the
blueprint is used.

A node continues along its **keyed edges**, in order, or along its **otherwise** edge when no
key applies.  An edge that *stays* leaves the byte that chose it for the next node; any other
edge consumes it. -/
namespace ByteMachine

/-- What selects an edge. -/
inductive Key where
  /-- The next bytes of the input. -/
  | bytes (bs : List UInt8)
  /-- The code that a callback returned. -/
  | code (c : Int)
deriving DecidableEq, Repr, Inhabited

/-- A keyed edge of a node. -/
structure Edge where
  key : Key
  /-- The byte that selects the edge is left for the next node. -/
  stay : Bool
  target : Nat
  /-- What the edge passes on to the next callback that takes a value. -/
  value : Option Int
deriving DecidableEq, Repr, Inhabited

/-- Where a node continues when none of its keys applies. -/
structure Otherwise where
  target : Nat
  /-- The byte that fits no key is left for the next node. -/
  stay : Bool
deriving DecidableEq, Repr, Inhabited

namespace Blueprint

/-- What a node does. -/
inductive Kind where
  /-- Stop for good with a code and a reason. -/
  | error (code : Int) (reason : String)
  /-- Stop with a code and a reason, and go on when asked to. -/
  | pause (code : Int) (reason : String)
  /-- Skip as many bytes as a field says. -/
  | consume (field : String)
  /-- Start a span of the input. -/
  | spanStart (span : Nat)
  /-- End a span of the input. -/
  | spanEnd (span : Nat)
  /-- Call back and branch on the returned code. -/
  | invoke (callback : Nat)
  /-- Match bytes, each passed through a named transform first. -/
  | matching (transform : Option String)
deriving DecidableEq, Repr, Inhabited

/-- A node of a blueprint. -/
structure Node where
  name : String
  kind : Kind
  edges : List Edge := []
  otherwise : Option Otherwise := none
deriving DecidableEq, Repr, Inhabited

namespace Node

/-- Whether the node stops the parser for good. -/
def isError (node : Node) : Bool :=
  match node.kind with
  | .error .. => true
  | _ => false

/-- Where the node can continue: along its keyed edges in order, then otherwise. -/
def successors (node : Node) : List Nat :=
  node.edges.map (·.target) ++ node.otherwise.toList.map (·.target)

/-- The span that the node starts or ends. -/
def span? (node : Node) : Option Nat :=
  match node.kind with
  | .spanStart s | .spanEnd s => some s
  | _ => none

theorem span?_eq_some_iff {node : Node} {s : Nat} :
    node.span? = some s ↔ node.kind = .spanStart s ∨ node.kind = .spanEnd s := by
  cases hkind : node.kind <;> simp [span?, hkind]

end Node

end Blueprint

/-- A parser described as a graph. -/
structure Blueprint where
  nodes : Array Blueprint.Node := #[]
  callbacks : Array (Callback (Option Bool)) := #[]
  /-- The callback that receives the bytes of each span. -/
  spans : Array Nat := #[]
  properties : Array Property := #[]
deriving Repr, Inhabited

namespace Blueprint

/-- The callback that receives the bytes of a span. -/
def spanCallback? (b : Blueprint) (span : Nat) : Option (Callback (Option Bool)) :=
  b.spans[span]?.bind (b.callbacks[·]?)

/-- Where the node of a handle can continue; a handle without a node leads nowhere. -/
def next (b : Blueprint) (n : Nat) : List Nat :=
  match b.nodes[n]? with
  | some node => node.successors
  | none => []

theorem lt_size_of_next_ne_nil {b : Blueprint} {n : Nat} (h : b.next n ≠ []) :
    n < b.nodes.size := by
  unfold next at h
  split at h
  · exact (Array.getElem?_eq_some_iff.mp ‹_›).1
  · exact absurd rfl h

/-- The blueprint as a directed graph on handles. -/
def digraph (b : Blueprint) : Digraph Nat where
  next := b.next
  finite := ⟨List.range b.nodes.size, fun _ h => List.mem_range.mpr (lt_size_of_next_ne_nil h)⟩

/-- The handles reachable from a root, in depth-first preorder. -/
def reachable (b : Blueprint) (root : Nat) : List Nat := b.digraph.preorder root

end Blueprint

end ByteMachine
