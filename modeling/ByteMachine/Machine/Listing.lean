import ByteMachine.Machine.Basic
import ByteMachine.Text

/-! # Listings

A listing shows the states reachable from a root as text: first the root, then for each state
a line with its name, its kind and what the kind needs, and below it one indented line for
each edge, the otherwise edge last.  States and callbacks appear by name. -/
namespace ByteMachine.Machine

/-- A byte between single quotes. -/
def byteText (b : UInt8) : String := "'" ++ Text.escapeByte b ++ "'"

/-- The remarks on an edge: whether the byte is left, and the value passed on. -/
def flagText (stay : Bool) (value : Option Int) : String :=
  (if stay then " (peek)" else "") ++
    match value with
    | some v => " value=" ++ toString v
    | none => ""

/-- What a kind shows behind its word. -/
def kindText (m : Machine) : Kind → String
  | .error code reason | .pause code reason => " " ++ toString code ++ " " ++ Text.quote reason
  | .consume field => " " ++ field
  | .spanStart place callback | .spanEnd place callback =>
    " #" ++ toString place ++ " " ++ m.callbackName callback
  | .invoke callback _ => " " ++ m.callbackName callback
  | .run _ bytes _ => " \"" ++ Text.escapeBytes bytes ++ "\""
  | .empty | .branch .. | .table .. => ""

/-- The transform of a kind between brackets, unless it is the identity. -/
def transformText (m : Machine) (k : Kind) : String :=
  match k.transform?.bind (m.transforms[·]?) with
  | none | some .identity => ""
  | some t => " [" ++ t.word ++ "]"

/-- A line for an edge. -/
def edgeLine (m : Machine) (label : String) (target : Nat) : String :=
  "  " ++ label ++ " => " ++ m.stateName target

/-- The lines for the edges of a kind. -/
def edgeLines (m : Machine) : Kind → List String
  | .invoke _ edges => edges.map fun e => m.edgeLine (toString e.code) e.target
  | .branch _ edges =>
    edges.map fun e => m.edgeLine (byteText e.key ++ flagText e.stay e.value) e.target
  | .run _ _ edge =>
    edge.toList.map fun e => m.edgeLine ("match" ++ flagText false e.value) e.target
  | .table _ edges =>
    edges.map fun e =>
      m.edgeLine ("[" ++ ", ".intercalate (e.keys.map byteText) ++ "]" ++ flagText e.stay none)
        e.target
  | _ => []

/-- The line for an otherwise edge. -/
def otherwiseLine (m : Machine) (o : Fallback) : String :=
  m.edgeLine ((if o.stay then "otherwise" else "skip_to") ++ flagText false o.value) o.target

/-- The lines for a state. -/
def stateLines (m : Machine) (s : State) : List String :=
  (s.name ++ ": " ++ s.kind.word ++ m.kindText s.kind ++ m.transformText s.kind) ::
    m.edgeLines s.kind ++ s.otherwise.toList.map m.otherwiseLine

/-- The listing of the states reachable from a root. -/
def listing (m : Machine) (root : Nat) : String :=
  let lines := (m.reachable root).flatMap fun i =>
    match m.states[i]? with
    | some s => m.stateLines s
    | none => []
  String.join ((("root = " ++ m.stateName root) :: "" :: lines).map (· ++ "\n"))

end ByteMachine.Machine
