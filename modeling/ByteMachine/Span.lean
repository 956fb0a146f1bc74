import ByteMachine.Blueprint.Basic

/-! # Sharing storage between spans

The parser stores where an open span began.  Two spans that can be open at the same time need
a place each; all others can share.  `Blueprint.allocate` sorts the spans of the reachable
nodes into groups, one for each place, by **first fit**: each span, in the order in which the
nodes are reached, joins the first group none of whose spans overlaps it, and opens a new
group when there is none.

An end of a span is refused when the span can never be open there. -/
namespace ByteMachine

/-! ## Where a span can be open

A span is opened by a node that starts it and closed by a node that ends it; between the two
the parser remembers where the span began.  A span **can be open** on entry to a node when
some path from the root starts it and does not end it again before that node.

Such a path ends in a stretch that begins behind a start of the span and passes none of its
ends.  The nodes where the span can be open are therefore those reachable from behind its
starts in the blueprint without the edges that leave its ends. -/

namespace Blueprint

/-- Where the parser can continue with a span still open: nowhere behind an end of it. -/
def nextWithin (b : Blueprint) (span n : Nat) : List Nat :=
  match b.nodes[n]? with
  | some node => if node.kind = .spanEnd span then [] else node.successors
  | none => []

theorem lt_size_of_nextWithin_ne_nil {b : Blueprint} {span n : Nat}
    (h : b.nextWithin span n ≠ []) : n < b.nodes.size := by
  unfold nextWithin at h
  split at h
  · exact (Array.getElem?_eq_some_iff.mp ‹_›).1
  · exact absurd rfl h

/-- The blueprint without the edges that leave the ends of a span. -/
def digraphWithin (b : Blueprint) (span : Nat) : Digraph Nat where
  next := b.nextWithin span
  finite :=
    ⟨List.range b.nodes.size, fun _ h => List.mem_range.mpr (lt_size_of_nextWithin_ne_nil h)⟩

/-- The nodes right behind the starts of a span among `nodes`. -/
def behindStarts (b : Blueprint) (nodes : List Nat) (span : Nat) : List Nat :=
  nodes.flatMap fun n =>
    match b.nodes[n]? with
    | some node => if node.kind = .spanStart span then node.successors else []
    | none => []

/-- The nodes on entry to which a span can be open, given the nodes that the parser can
reach. -/
def openRegion (b : Blueprint) (nodes : List Nat) (span : Nat) : List Nat :=
  (b.digraphWithin span).walk (b.behindStarts nodes span) []

end Blueprint

/-! ## Distributions -/

/-- A distribution of spans over places. -/
structure Allocation where
  /-- The spans, in the order in which they are found. -/
  spans : List Nat
  /-- For each place the spans that share it. -/
  groups : List (List Nat)
deriving DecidableEq, Repr, Inhabited

/-- Why no distribution is found. -/
inductive AllocationError where
  /-- A handle names no node. -/
  | unknownHandle
  /-- The span that the node ends is not open there on any path. -/
  | unmatchedEnd (node : String)
deriving DecidableEq, Repr, Inhabited

namespace AllocationError

/-- The wording of an error. -/
def message : AllocationError → String
  | .unknownHandle => "index out of bounds"
  | .unmatchedEnd node => s!"span end `{node}` is reachable while its span is not started"

end AllocationError

/-! ## First fit -/

namespace Allocation

/-- Puts a span into the first group without a span that overlaps it. -/
def place (overlap : Nat → Nat → Bool) (span : Nat) : List (List Nat) → List (List Nat)
  | [] => [[span]]
  | group :: rest =>
    if group.any (overlap span) then group :: place overlap span rest
    else (group ++ [span]) :: rest

/-- Puts spans into groups one after the other. -/
def firstFit (overlap : Nat → Nat → Bool) (spans : List Nat) : List (List Nat) :=
  spans.foldl (fun groups span => place overlap span groups) []

/-- The place of a span: of the groups that list it, the last. -/
def placeOf? (groups : List (List Nat)) (span : Nat) : Option Nat :=
  (groups.zipIdx.reverse.find? fun (group, _) => span ∈ group).map (·.2)

end Allocation

/-! ## The spans of a blueprint -/

namespace Blueprint

/-- The spans that the nodes start or end, in the order in which they are found. -/
def spansOf (b : Blueprint) (nodes : List Nat) : List Nat :=
  (nodes.filterMap fun n => b.nodes[n]?.bind Node.span?).eraseDups

/-- The spans of the nodes, each with the nodes on entry to which it can be open. -/
def openRegions (b : Blueprint) (nodes : List Nat) : List (Nat × List Nat) :=
  (b.spansOf nodes).map fun span => (span, b.openRegion nodes span)

/-- The name of a node that ends a span where the span is not open. -/
def unmatchedEnd? (b : Blueprint) (regions : List (Nat × List Nat)) (n : Nat) : Option String :=
  match b.nodes[n]? with
  | some ⟨name, .spanEnd span, _, _⟩ =>
    if n ∈ (regions.lookup span).getD [] then none else some name
  | _ => none

/-- Whether two different spans can be open on entry to the same node. -/
def overlaps (regions : List (Nat × List Nat)) (s t : Nat) : Bool :=
  s != t && ((regions.lookup s).getD []).any (· ∈ (regions.lookup t).getD [])

/-- Distributes the spans that are reachable from the root over as few places as first fit
needs. -/
def allocate (b : Blueprint) (root : Nat) : Except AllocationError Allocation :=
  let nodes := b.reachable root
  if nodes.any (b.nodes.size ≤ ·) then .error .unknownHandle
  else
    let regions := b.openRegions nodes
    match nodes.findSome? (b.unmatchedEnd? regions) with
    | some name => .error (.unmatchedEnd name)
    | none =>
      let spans := b.spansOf nodes
      .ok ⟨spans, Allocation.firstFit (overlaps regions) spans⟩

end Blueprint

end ByteMachine
