import ByteMachine.Blueprint.Basic
import ByteMachine.Text

/-! # Building a blueprint

A blueprint grows call by call.  Every call is checked when it is made and refused with a
cause when it would break a rule of the graph:

* only matching nodes take byte keys, each key at most once and none empty;
* an error node does not continue, and any other node has one otherwise edge at most;
* transforms belong to matching nodes, and spans to callbacks that take a span.

The calls are also available as data (`Call`), so that a run of them can be followed step by
step.  A refused call leaves the blueprint as it was, with one exception: a node that invokes
a callback is added before its edges, and stays with the edges before the first repeated
code. -/
namespace ByteMachine

namespace Key

/-- The text of a key in messages. -/
def text : Key → String
  | .bytes bs => Text.escapeBytes bs
  | .code c => toString c

end Key

namespace Blueprint

/-- Why a call is refused.  Nodes and callbacks are given by name. -/
inductive BuildError where
  /-- A handle names nothing. -/
  | unknownHandle
  | edgesNotAllowed (node : String)
  | terminalOtherwise (node : String)
  | duplicateOtherwise (node : String)
  | emptyKey (node : String)
  | duplicateKey (node : String) (key : Key)
  | transformNotAllowed (node : String)
  | wrongSignature (callback : String) (signature expected : Signature)
deriving DecidableEq, Repr, Inhabited

namespace BuildError

/-- The wording of an error. -/
def message : BuildError → String
  | .unknownHandle => "index out of bounds"
  | .edgesNotAllowed node => s!"node `{node}` can't have keyed edges"
  | .terminalOtherwise node => s!"error node `{node}` can't have an otherwise edge"
  | .duplicateOtherwise node => s!"node `{node}` already has an otherwise edge"
  | .emptyKey node => s!"empty key on node `{node}`"
  | .duplicateKey node key => "duplicate key `" ++ key.text ++ "` on node `" ++ node ++ "`"
  | .transformNotAllowed node => s!"transform can only be applied to match node, got `{node}`"
  | .wrongSignature callback signature expected =>
    s!"callback `{callback}` has signature `" ++ signature.word ++ "`, expected `" ++
      expected.word ++ "`"

end BuildError

/-! ## Nodes -/

namespace Node

/-- Appends a keyed edge unless its key is taken. -/
def addEdge (node : Node) (edge : Edge) : Except BuildError Node :=
  if edge.key ∈ node.edges.map (·.key) then .error (.duplicateKey node.name edge.key)
  else .ok { node with edges := node.edges ++ [edge] }

/-- Appends an edge for bytes of the input. -/
def addBytes (node : Node) (bs : List UInt8) (stay : Bool) (target : Nat) (value : Option Int) :
    Except BuildError Node :=
  match node.kind with
  | .matching _ =>
    if bs = [] then .error (.emptyKey node.name)
    else node.addEdge ⟨.bytes bs, stay, target, value⟩
  | _ => .error (.edgesNotAllowed node.name)

/-- Appends edges for returned codes, up to the first code that is taken. -/
def addReturns (node : Node) : List (Int × Nat) → Node × Except BuildError Unit
  | [] => (node, .ok ())
  | (code, target) :: rest =>
    match node.addEdge ⟨.code code, true, target, none⟩ with
    | .ok node => node.addReturns rest
    | .error e => (node, .error e)

/-- Sets the otherwise edge, once. -/
def setOtherwise (node : Node) (target : Nat) (stay : Bool) : Except BuildError Node :=
  if node.isError then .error (.terminalOtherwise node.name)
  else if node.otherwise.isSome then .error (.duplicateOtherwise node.name)
  else .ok { node with otherwise := some ⟨target, stay⟩ }

/-- Sets the transform of a matching node. -/
def setTransform (node : Node) (transform : String) : Except BuildError Node :=
  match node.kind with
  | .matching _ => .ok { node with kind := .matching (some transform) }
  | _ => .error (.transformNotAllowed node.name)

end Node

/-! ## Calls -/

/-- Appends a node. -/
def addNode (b : Blueprint) (node : Node) : Blueprint := { b with nodes := b.nodes.push node }

/-- Replaces a node by what `f` makes of it. -/
def updateNode (b : Blueprint) (n : Nat) (f : Node → Except BuildError Node) :
    Except BuildError Blueprint :=
  match b.nodes[n]? with
  | some node => (f node).map fun node => { b with nodes := b.nodes.setIfInBounds n node }
  | none => .error .unknownHandle

/-- Appends a span for a callback that takes one. -/
def addSpan (b : Blueprint) (callback : Nat) : Except BuildError Blueprint :=
  match b.callbacks[callback]? with
  | some c =>
    if c.signature = .span then .ok { b with spans := b.spans.push callback }
    else .error (.wrongSignature c.name c.signature .span)
  | none => .error .unknownHandle

/-- Appends a node that starts or ends a span, named after the callback of the span. -/
def addSpanNode (b : Blueprint) (leading : String) (kind : Kind) (span : Nat) :
    Except BuildError Blueprint :=
  match b.spanCallback? span with
  | some c => .ok (b.addNode { name := leading ++ c.name, kind })
  | none => .error .unknownHandle

/-- Appends a node that invokes a callback and then its edges, up to the first code that is
taken. -/
def addInvoke (b : Blueprint) (callback : Nat) (returns : List (Int × Nat)) :
    Blueprint × Except BuildError Unit :=
  match b.callbacks[callback]? with
  | some c =>
    let (node, result) :=
      Node.addReturns { name := "invoke_" ++ c.name, kind := .invoke callback } returns
    (b.addNode node, result)
  | none => (b, .error .unknownHandle)

/-- A call that builds a blueprint. -/
inductive Call where
  | matchNode (name : String)
  | errorNode (code : Int) (reason : String)
  | pauseNode (code : Int) (reason : String)
  | consumeNode (field : String)
  /-- A node that invokes a callback, with the node to go to for each returned code. -/
  | invokeNode (callback : Nat) (returns : List (Int × Nat))
  | spanStartNode (span : Nat)
  | spanEndNode (span : Nat)
  | callback (c : Callback (Option Bool))
  | span (callback : Nat)
  | property (p : Property)
  /-- Match bytes and consume them. -/
  | matchBytes (node : Nat) (key : List UInt8) (target : Nat)
  /-- Match one byte and leave it for the next node. -/
  | peek (node : Nat) (byte : UInt8) (target : Nat)
  /-- Match bytes, consume them and pass a value on. -/
  | select (node : Nat) (key : List UInt8) (value : Int) (target : Nat)
  /-- When no key applies, go on with the same byte. -/
  | otherwise (node : Nat) (target : Nat)
  /-- When no key applies, consume the byte and go on. -/
  | skipTo (node : Nat) (target : Nat)
  | setTransform (node : Nat) (transform : String)
deriving Repr, Inhabited

/-- What a call adds, by its handle. -/
inductive Added where
  | node (handle : Nat)
  | callback (handle : Nat)
  | span (handle : Nat)
  /-- An edge, a transform or a property, which have no handle. -/
  | detail
deriving DecidableEq, Repr, Inhabited

/-- A call that changes nothing when it is refused. -/
def attempt (b : Blueprint) (added : Added) :
    Except BuildError Blueprint → Blueprint × Except BuildError Added
  | .ok b => (b, .ok added)
  | .error e => (b, .error e)

/-- Makes a call: the blueprint afterwards, and what was added or why it was refused. -/
def call (b : Blueprint) : Call → Blueprint × Except BuildError Added
  | .matchNode name => (b.addNode { name, kind := .matching none }, .ok newNode)
  | .errorNode code reason =>
    (b.addNode { name := "error", kind := .error code reason }, .ok newNode)
  | .pauseNode code reason =>
    (b.addNode { name := "pause", kind := .pause code reason }, .ok newNode)
  | .consumeNode field =>
    (b.addNode { name := "consume_" ++ field, kind := .consume field }, .ok newNode)
  | .invokeNode callback returns =>
    let (after, result) := b.addInvoke callback returns
    (after, result.map fun _ => newNode)
  | .spanStartNode span => b.attempt newNode (b.addSpanNode "span_start_" (.spanStart span) span)
  | .spanEndNode span => b.attempt newNode (b.addSpanNode "span_end_" (.spanEnd span) span)
  | .callback c =>
    ({ b with callbacks := b.callbacks.push c }, .ok (.callback b.callbacks.size))
  | .span callback => b.attempt (.span b.spans.size) (b.addSpan callback)
  | .property p => ({ b with properties := b.properties.push p }, .ok .detail)
  | .matchBytes node key target =>
    b.attempt .detail (b.updateNode node (·.addBytes key false target none))
  | .peek node byte target =>
    b.attempt .detail (b.updateNode node (·.addBytes [byte] true target none))
  | .select node key value target =>
    b.attempt .detail (b.updateNode node (·.addBytes key false target (some value)))
  | .otherwise node target => b.attempt .detail (b.updateNode node (·.setOtherwise target true))
  | .skipTo node target => b.attempt .detail (b.updateNode node (·.setOtherwise target false))
  | .setTransform node transform =>
    b.attempt .detail (b.updateNode node (·.setTransform transform))
where
  /-- The handle of the next node. -/
  newNode : Added := .node b.nodes.size

/-- The blueprint after a run of calls, refused ones included. -/
def run (b : Blueprint) (calls : List Call) : Blueprint :=
  calls.foldl (fun b c => (b.call c).1) b

end Blueprint

end ByteMachine
