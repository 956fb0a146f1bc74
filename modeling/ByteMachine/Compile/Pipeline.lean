import ByteMachine.Backend
import ByteMachine.Compile.Assembly
import ByteMachine.Journal
import ByteMachine.Machine.Wiring

/-! # Compiling a blueprint

`Blueprint.compile` turns the part of a blueprint that is reachable from a root into a
machine: the spans are given their places, the sites become states, edges go past empty
states, and the states are found at which a run can resume.  The journal reports each of
these steps as it is taken.

How spans get their places is a parameter; `Blueprint.sharePlaces` is the usual way. -/
namespace ByteMachine

/-! ## What is reported while sites are visited

The journal follows the sites in the order in which they are visited.  Arriving at a matching
node reports its trie, and arriving at a branch reports why it does not become a table.  That
a branch does become one is reported when everything below it has been visited, before its
node goes on to where it continues otherwise.

The order of all these reports is again a depth-first preorder, of **stops**: arrivals at
sites and departures from tables.  The journal ends where a node has a defect. -/

/-- A moment of the visit of a site. -/
inductive Stop where
  | arrive (s : Site)
  /-- All that a table leads to has been visited. -/
  | depart (s : Site)
deriving DecidableEq, Repr, Inhabited

namespace Assembly

variable (a : Assembly)

/-- The table of the branch at a site, or why there is none; other sites have no branch. -/
def tableAt? (s : Site) : Option (Except Table.Rejection (List Table.Row)) :=
  match a.outline.part? s with
  | some (_, some (.branch children _)) => some (Table.ofChildren a.options children)
  | _ => none

/-- The stops that follow a stop. -/
def nextStops : Stop → List Stop
  | .arrive s =>
    let departure := match a.tableAt? s with
      | some (.ok _) => [Stop.depart s]
      | _ => []
    (a.outline.inside s).map .arrive ++ departure ++ (a.outline.outside s).map .arrive
  | .depart _ => []

theorem mem_of_nextStops_ne_nil {v : Stop} (h : a.nextStops v ≠ []) :
    v ∈ a.outline.allSites.map Stop.arrive := by
  cases v with
  | depart s => exact absurd rfl h
  | arrive s =>
    refine List.mem_map.mpr ⟨s, Outline.mem_allSites_of_part? ?_, rfl⟩
    cases hp : a.outline.part? s with
    | none => simp [nextStops, tableAt?, Outline.inside, Outline.outside, hp] at h
    | some part => rfl

/-- The stops as a directed graph. -/
def stopGraph : Digraph Stop where
  next := a.nextStops
  finite := ⟨a.outline.allSites.map Stop.arrive, fun _ => a.mem_of_nextStops_ne_nil⟩

/-- The trie reported on arrival at a matching node with byte keys. -/
def trieEvents (s : Site) : List Event :=
  match a.node? s with
  | some node =>
    match node.kind with
    | .matching _ =>
      if s.path = [] ∧ node.entries ≠ [] then
        [.buildingTrie node.name node.entries.length]
      else []
    | _ => []
  | none => []

/-- Why a branch does not become a table. -/
def rejectionEvents (s : Site) : List Event :=
  match a.node? s, a.tableAt? s with
  | some node, some (.error cause) => [.tableRejected node.name cause]
  | _, _ => []

/-- What is reported at stops, up to the first whose node has a defect.  A defect of the trie
itself shows only when the trie is built, and so behind its report. -/
def eventsAlong : List Stop → List Event
  | [] => []
  | .depart s :: rest =>
    ((a.node? s).toList.map fun node => .tableChosen node.name) ++ eventsAlong rest
  | .arrive s :: rest =>
    match a.outline.defect? a.blueprint a.groups s with
    | none => a.trieEvents s ++ a.rejectionEvents s ++ eventsAlong rest
    | some (.trie ..) => a.trieEvents s
    | some _ => []

/-- What is reported while the sites reachable from the entry of a node are visited. -/
def events (root : Nat) : List Event :=
  a.eventsAlong (a.stopGraph.preorder (.arrive (Site.entry root)))

end Assembly

/-! ## All steps -/

/-- A machine with what its user needs to know. -/
structure Compiled where
  /-- Begins the names of states and of operations on fields. -/
  stem : String
  properties : Array Property
  root : Nat
  machine : Machine
  /-- For each place the callbacks of the spans that share it. -/
  places : List (List Nat)
  /-- The states at which a run can resume. -/
  resumption : List Nat
deriving Repr, Inhabited

/-- A way of giving the spans reachable from a root their places. -/
abbrev Allocator := Blueprint → Nat → Journaled AllocationError Allocation

namespace Machine

/-- Goes past empty states and reports the number of edges that changed. -/
def bypassJournaled {ε : Type} (m : Machine) (root : Nat) : Journaled ε (Machine × Nat) :=
  let (after, newRoot) := m.bypass root
  ⟨[.bypassed (m.redirections after) (after.stateName newRoot)], .ok (after, newRoot)⟩

end Machine

namespace Assembly

/-- The machine of an assembly without defects, all of whose states have the edges they
need. -/
def complete (a : Assembly) : Except CompileError Machine :=
  match a.defect? with
  | some e => .error e
  | none =>
    match a.machine.unfinished? with
    | some state => .error (.unfinished state)
    | none => .ok a.machine

end Assembly

namespace Blueprint

/-- Lets spans that are never open together share places. -/
def sharePlaces : Allocator := fun b root => do
  let allocation ← Journaled.ofExcept (b.allocate root)
  Journaled.note (.allocated allocation.spans.length allocation.groups.length)
  return allocation

/-- The trie of some edges of a node, reported when there are byte keys among them. -/
def trieJournaled (name : String) (edges : List Edge) :
    Journaled Trie.BuildError (Option Trie) :=
  let entries := edges.filterMap entryOf?
  ⟨if entries = [] then [] else [.buildingTrie name entries.length], Trie.ofEntries entries⟩

/-- The node of a handle. -/
def getNode (b : Blueprint) (n : Nat) : Except CompileError Node :=
  match b.nodes[n]? with
  | some node => .ok node
  | none => .error .unknownHandle

/-- Accepts groups of spans that exist. -/
def checkGroups (b : Blueprint) (groups : List (List Nat)) : Except CompileError Unit :=
  if groups.flatten.all fun span => (b.spanCallback? span).isSome then .ok ()
  else .error .unknownHandle

/-- Compiles the part of a blueprint that is reachable from the root. -/
def compile (b : Blueprint) (stem : String) (options : Options) (allocator : Allocator)
    (root : Nat) : Journaled CompileError Compiled := do
  Journaled.ofExcept (options.check.mapError .options)
  Journaled.note .allocating
  let allocation ← (allocator b root).mapError .allocation
  Journaled.note (.assigning allocation.spans.length allocation.groups.length)
  Journaled.ofExcept (b.checkGroups allocation.groups)
  let node ← Journaled.ofExcept (b.getNode root)
  Journaled.note (.starting node.name)
  let a := b.assembly options allocation.groups stem root
  Journaled.noteAll (a.events root)
  let machine ← Journaled.ofExcept a.complete
  Journaled.note (.bypassing machine.states.size)
  let (machine, root) ← machine.bypassJournaled (a.entry root)
  let resumption := machine.resumption root
  Journaled.note (.finished (machine.reachable root).length resumption.length)
  return { stem, properties := b.properties, root, machine,
           places := a.places a.callbacks, resumption }

end Blueprint

end ByteMachine
