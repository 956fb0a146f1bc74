import ByteMachine.Machine.Basic

/-! # Backends

A backend turns a machine into something else, for instance code.  It is told at which states
a run can resume.  It is given the states, the callbacks and the transforms, in this order and
each by position, and answers with a payload for each.  Its answers may depend on what it was
given before. -/
namespace ByteMachine

/-! ## Where a run can resume

A machine returns to its caller when the input runs out or when it pauses, and is entered
again later.  It re-enters the root, any state that needs the input (or that a span must be
restored for), and whatever follows a pause or the end of a span. -/

namespace Machine

/-- The states at which a run can resume because of the state at a position. -/
def State.resumesAt (s : State) (i : Nat) : List Nat :=
  match s.kind with
  | .consume .. | .empty | .spanStart .. | .branch .. | .run .. | .table .. => [i]
  | .pause .. | .spanEnd .. => s.otherwise.toList.map (·.target)
  | .error .. | .invoke .. => []

/-- The states at which a run from the root can resume, each once, in the order in which they
are found. -/
def resumption (m : Machine) (root : Nat) : List Nat :=
  (root :: (m.reachable root).flatMap fun i =>
    match m.states[i]? with
    | some s => s.resumesAt i
    | none => []).eraseDups

end Machine

/-! ## Payloads -/

/-- What makes payloads for the parts of a machine. -/
structure Backend (m : Type → Type) (σ κ τ : Type) where
  state : Nat → Machine.State → m σ
  callback : Nat → Callback Bool → m κ
  transform : Nat → Transform → m τ

/-- Payloads for the parts of a machine, by position. -/
structure Payloads (σ κ τ : Type) where
  states : List σ
  callbacks : List κ
  transforms : List τ

namespace Backend

/-- Gives a machine to a backend. -/
def payloads {m : Type → Type} [Monad m] {σ κ τ : Type} (backend : Backend m σ κ τ)
    (machine : Machine) : m (Payloads σ κ τ) := do
  let states ← machine.states.toList.zipIdx.mapM fun (s, i) => backend.state i s
  let callbacks ← machine.callbacks.toList.zipIdx.mapM fun (c, i) => backend.callback i c
  let transforms ← machine.transforms.toList.zipIdx.mapM fun (t, i) => backend.transform i t
  return { states, callbacks, transforms }

/-- The backend that needs nothing. -/
def trivial : Backend Id Unit Unit Unit where
  state _ _ := ()
  callback _ _ := ()
  transform _ _ := ()

end Backend

end ByteMachine
