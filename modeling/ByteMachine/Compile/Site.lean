import ByteMachine.Blueprint.Basic
import ByteMachine.Trie

/-! # Sites

A machine has one state for every **site** of its blueprint.  A site is a node together with
the bytes already matched there: a matching node has a site for each branch and run of its
trie, and any other node has one site, with no bytes matched.

Sites are connected like the states that they become.  From a branch or run the next sites
are those below it in the trie, or the nodes to which its leaves lead; the first site of a
node also leads to where the node continues otherwise.  The sites reachable from the root, in
depth-first preorder, are the states of the machine in their order. -/
namespace ByteMachine

/-- A node with the bytes matched there. -/
structure Site where
  node : Nat
  path : List UInt8
deriving DecidableEq, Repr, Inhabited

namespace Site

/-- Where a node is entered. -/
def entry (node : Nat) : Site := ⟨node, []⟩

/-- Where a trie of the node is entered that stands at `path`: a leaf leads to another node. -/
def ofTrie (node : Nat) (path : List UInt8) : Trie → Site
  | .leaf l => entry l.target
  | _ => ⟨node, path⟩

/-- The sites below a branch or run. -/
def below (s : Site) : Trie → List Site
  | .leaf _ => []
  | .branch children stop =>
    children.map (fun (byte, _, child) => ofTrie s.node (s.path ++ [byte]) child) ++
      stop.toList.map (fun l => entry l.target)
  | .run bytes next => [ofTrie s.node (s.path ++ bytes) next]

end Site

namespace Blueprint

/-- A keyed edge as an entry of a trie; an edge for a returned code is none. -/
def entryOf? (e : Edge) : Option Trie.Entry :=
  match e.key with
  | .bytes bs => some ⟨bs, e.stay, e.target, e.value⟩
  | .code _ => none

namespace Node

/-- The byte keys of a node. -/
def entries (node : Node) : List Trie.Entry := node.edges.filterMap entryOf?

/-- Where a node that invokes a callback goes for each returned code. -/
def returns (node : Node) : List (Int × Nat) :=
  match node.kind with
  | .invoke _ =>
    node.edges.filterMap fun e =>
      match e.key with
      | .code c => some (c, e.target)
      | .bytes _ => none
  | _ => []

/-- The trie of a matching node; the other nodes have none. -/
def trie (node : Node) : Except Trie.BuildError (Option Trie) :=
  match node.kind with
  | .matching _ => Trie.ofEntries node.entries
  | _ => .ok none

end Node

end Blueprint

/-- A node with its trie. -/
structure Plan where
  node : Blueprint.Node
  trie : Except Trie.BuildError (Option Trie)

namespace Plan

/-- The paths of the sites of a node, with the part of the trie that stands there; a node
without a trie has one site. -/
def parts (p : Plan) : List (List UInt8 × Option Trie) :=
  match p.trie with
  | .ok (some t) => (t.inner []).map fun (path, t) => (path, some t)
  | _ => [([], none)]

end Plan

/-- A blueprint with the tries of all its nodes. -/
abbrev Outline := Array Plan

namespace Outline

/-- The outline of a blueprint. -/
def ofBlueprint (b : Blueprint) : Outline := b.nodes.map fun node => ⟨node, node.trie⟩

/-- The node of a site, with the part of its trie that stands there. -/
def part? (o : Outline) (s : Site) : Option (Blueprint.Node × Option Trie) :=
  o[s.node]?.bind fun plan => (plan.parts.lookup s.path).map fun part => (plan.node, part)

/-- The next sites that belong to the site itself. -/
def inside (o : Outline) (s : Site) : List Site :=
  match o.part? s with
  | some (_, some t) => s.below t
  | _ => []

/-- Where the node of a site continues otherwise and, for a callback, on returned codes. -/
def outside (o : Outline) (s : Site) : List Site :=
  match o.part? s with
  | some (node, _) =>
    if s.path = [] then
      (node.otherwise.toList.map fun e => Site.entry e.target) ++
        node.returns.map fun (_, target) => Site.entry target
    else []
  | none => []

/-- The next sites. -/
def next (o : Outline) (s : Site) : List Site := o.inside s ++ o.outside s

/-- All sites of an outline. -/
def allSites (o : Outline) : List Site :=
  (List.range o.size).flatMap fun n =>
    match o[n]? with
    | some plan => plan.parts.map fun (path, _) => ⟨n, path⟩
    | none => []

theorem mem_allSites_of_part? {o : Outline} {s : Site} (h : (o.part? s).isSome) :
    s ∈ o.allSites := by
  obtain ⟨⟨node, part⟩, h⟩ := Option.isSome_iff_exists.mp h
  obtain ⟨plan, hplan, h⟩ := Option.bind_eq_some_iff.mp h
  obtain ⟨found, hfound, -⟩ := Option.map_eq_some_iff.mp h
  obtain ⟨before, after, hparts, -⟩ := List.lookup_eq_some_iff.mp hfound
  refine List.mem_flatMap.mpr ⟨s.node, ?_, ?_⟩
  · exact List.mem_range.mpr (Array.getElem?_eq_some_iff.mp hplan).1
  · rw [hplan]
    exact List.mem_map.mpr ⟨(s.path, found), by simp [hparts], rfl⟩

theorem mem_allSites_of_next_ne_nil {o : Outline} {s : Site} (h : o.next s ≠ []) :
    s ∈ o.allSites := by
  apply mem_allSites_of_part?
  cases hp : o.part? s with
  | none => simp [next, inside, outside, hp] at h
  | some part => rfl

/-- The sites as a directed graph. -/
def digraph (o : Outline) : Digraph Site where
  next := o.next
  finite := ⟨o.allSites, fun _ => mem_allSites_of_next_ne_nil⟩

/-- The sites reachable from the entry of a node, in depth-first preorder. -/
def sites (o : Outline) (root : Nat) : List Site := o.digraph.preorder (Site.entry root)

end Outline

end ByteMachine
