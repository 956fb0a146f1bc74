import ByteMachine.Table

/-! # The journal of a compilation

A compilation reports what it does as a list of events.  `Journaled` is a computation that
may fail and that keeps the events up to its end or its failure. -/
namespace ByteMachine

/-- How much an event matters. -/
inductive Level where
  | debug
  | trace
deriving DecidableEq, Repr, Inhabited

namespace Level

/-- The word for a level. -/
def word : Level → String
  | .debug => "debug"
  | .trace => "trace"

end Level

/-- Something worth a line in the journal.  Nodes and states are given by name. -/
inductive Event where
  | allocating
  | allocated (spans places : Nat)
  | assigning (spans places : Nat)
  | starting (node : String)
  | buildingTrie (node : String) (entries : Nat)
  | tableRejected (node : String) (cause : Table.Rejection)
  | tableChosen (node : String)
  | bypassing (states : Nat)
  | bypassed (edges : Nat) (root : String)
  | finished (states resumptions : Nat)
deriving DecidableEq, Repr, Inhabited

namespace Event

/-- Tries are reported on the finest level. -/
def level : Event → Level
  | .buildingTrie .. => .trace
  | _ => .debug

/-- The wording of an event. -/
def message : Event → String
  | .allocating => "allocating spans"
  | .allocated spans places => s!"allocated {spans} spans into {places} fields"
  | .assigning spans places => s!"assigning {spans} spans to {places} fields"
  | .starting node => s!"translating from `{node}`"
  | .buildingTrie node entries => s!"building trie of `{node}` from {entries} edges"
  | .tableRejected node cause => cause.message node
  | .tableChosen node => s!"optimized `{node}` to a table lookup node"
  | .bypassing states => s!"running peephole pass over {states} nodes"
  | .bypassed edges root => s!"peephole redirected {edges} edges, root {root}"
  | .finished states resumptions =>
    s!"{states} reachable nodes, {resumptions} resumption targets"

/-- The line of an event. -/
def line (e : Event) : String := e.level.word ++ ": " ++ e.message

end Event

/-- The outcome of a computation with the events until then. -/
structure Journaled (ε α : Type) where
  events : List Event
  result : Except ε α

namespace Journaled

variable {ε ε' α β : Type}

/-- A computation without events. -/
def ofExcept (result : Except ε α) : Journaled ε α := ⟨[], result⟩

/-- Reports events. -/
def noteAll (events : List Event) : Journaled ε Unit := ⟨events, .ok ()⟩

/-- Reports an event. -/
def note (event : Event) : Journaled ε Unit := noteAll [event]

/-- Continues with the value of a computation that succeeded. -/
def andThen (x : Journaled ε α) (f : α → Journaled ε β) : Journaled ε β :=
  match x.result with
  | .ok a => ⟨x.events ++ (f a).events, (f a).result⟩
  | .error e => ⟨x.events, .error e⟩

instance : Monad (Journaled ε) where
  pure a := ofExcept (.ok a)
  bind := andThen

/-- Changes the cause of a failure. -/
def mapError (f : ε → ε') (x : Journaled ε α) : Journaled ε' α :=
  ⟨x.events, x.result.mapError f⟩

@[simp]
theorem result_ofExcept (r : Except ε α) : (ofExcept r).result = r := rfl

@[simp]
theorem result_note (event : Event) : (note event : Journaled ε Unit).result = .ok () := rfl

@[simp]
theorem result_noteAll (events : List Event) :
    (noteAll events : Journaled ε Unit).result = .ok () := rfl

@[simp]
theorem result_pure (a : α) : (pure a : Journaled ε α).result = .ok a := rfl

@[simp]
theorem result_mapError (f : ε → ε') (x : Journaled ε α) :
    (x.mapError f).result = x.result.mapError f := rfl

@[simp]
theorem result_bind (x : Journaled ε α) (f : α → Journaled ε β) :
    (x >>= f).result = x.result >>= fun a => (f a).result := by
  show (andThen x f).result = _
  unfold andThen
  split <;> simp_all [bind, Except.bind]

end Journaled

end ByteMachine
