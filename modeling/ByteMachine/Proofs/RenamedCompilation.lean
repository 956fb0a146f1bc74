import ByteMachine.Proofs.Compilation
import ByteMachine.Proofs.RenamedTries
import ByteMachine.Proofs.SpanPlaces
import Mathlib

/-! # Compiling does not look at handles

Isomorphic blueprints have the same sites in the same order, each at the renamed node
(`Renaming.sites`).  A state is determined by its site, through the positions of sites and the
payload of nodes, and so corresponding sites have equal states (`Renamed.state`): handles
themselves never get into a machine.  Hence compilations of isomorphic blueprints end in the
same way, with equal errors or equal machines (`compile_isomorphic`).  What cannot be reached,
and the order in which nodes, spans and callbacks were created, has no effect. -/
namespace ByteMachine

/-! ## Sites -/

namespace Site

/-- The site at the renamed node. -/
def mapNode (f : Nat → Nat) (s : Site) : Site := ⟨f s.node, s.path⟩

theorem mapNode_injective {f : Nat → Nat} (hf : Function.Injective f) :
    Function.Injective (mapNode f) := by
  rintro ⟨n, path⟩ ⟨n', path'⟩ h
  simp only [mapNode, Site.mk.injEq] at h
  obtain ⟨hn, rfl⟩ := h
  rw [hf hn]

theorem ofTrie_mapTargets (f : Nat → Nat) (n : Nat) (path : List UInt8) (t : Trie) :
    ofTrie (f n) path (t.mapTargets f) = (ofTrie n path t).mapNode f := by
  cases t <;> rw [Trie.mapTargets] <;> rfl

theorem below_mapTargets (f : Nat → Nat) (s : Site) (t : Trie) :
    (s.mapNode f).below (t.mapTargets f) = (s.below t).map (mapNode f) := by
  cases t with
  | leaf l => rfl
  | branch children stop =>
    rw [Trie.mapTargets_branch, below, below, List.map_append, List.map_map, List.map_map]
    congr 1
    · exact List.map_congr_left fun child _ => ofTrie_mapTargets f s.node _ child.2.2
    · cases stop <;> rfl
  | run bytes next =>
    rw [Trie.mapTargets, below, below, List.map_singleton]
    exact congrArg (fun site => [site]) (ofTrie_mapTargets f s.node _ next)

end Site

namespace Blueprint

theorem Node.Renamed.returns {b b' : Blueprint} {f g : Nat → Nat} {node node' : Node}
    (h : node.Renamed b b' f g node') :
    node'.returns = node.returns.map fun r => (r.1, f r.2) := by
  have hedges := h.edges
  obtain ⟨name, kind, edges, otherwise⟩ := node
  obtain ⟨name', kind', edges', otherwise'⟩ := node'
  obtain rfl : edges' = edges.map (Edge.mapTarget f) := hedges
  have hkind : Kind.Renamed g kind kind' := h.kind
  cases hkind with
  | invoke =>
    rw [Node.returns, Node.returns, List.filterMap_map, List.map_filterMap]
    refine List.filterMap_congr fun e _ => ?_
    obtain ⟨key, stay, target, value⟩ := e
    cases key <;> rfl
  | _ => rfl

namespace Renaming

section
variable {b b' : Blueprint} {root : Nat} {f g : Nat → Nat} (h : Renaming b b' root f g)
include h

/-- **Corresponding sites** hold parts of nodes that correspond, or nothing. -/
theorem part?_cases {s : Site} (hs : b.digraph.Reaches root s.node) :
    ((Outline.ofBlueprint b).part? s = none ∧
        (Outline.ofBlueprint b').part? (s.mapNode f) = none) ∨
      ∃ node node' part, (Outline.ofBlueprint b).part? s = some (node, part) ∧
        (Outline.ofBlueprint b').part? (s.mapNode f) =
          some (node', part.map (Trie.mapTargets f)) ∧ node.Renamed b b' f g node' := by
  unfold Outline.part?
  rw [Outline.ofBlueprint_getElem?, Outline.ofBlueprint_getElem?, Site.mapNode]
  rcases h.cases hs with ⟨hnode, hnode'⟩ | ⟨node, node', hnode, hnode', hrenamed⟩
  · rw [hnode, hnode']
    exact .inl ⟨rfl, rfl⟩
  · have hparts : (⟨node', node'.trie⟩ : Plan).parts =
        (⟨node, node.trie⟩ : Plan).parts.map (Prod.map id (Option.map (Trie.mapTargets f))) := by
      unfold Plan.parts
      rw [hrenamed.trie h.nodes]
      cases node.trie with
      | error cause => rfl
      | ok t =>
        cases t with
        | none => rfl
        | some t =>
          show ((t.mapTargets f).inner []).map _ = ((t.inner []).map _).map _
          rw [Trie.inner_mapTargets, List.map_map, List.map_map]
          rfl
    have hlookup := lookup_map Function.injective_id (Option.map (Trie.mapTargets f))
      (⟨node, node.trie⟩ : Plan).parts s.path
    rw [hnode, hnode']
    simp only [Option.map_some, Option.bind_some, hparts]
    rw [id_eq] at hlookup
    rw [hlookup]
    cases (⟨node, node.trie⟩ : Plan).parts.lookup s.path with
    | none => exact .inl ⟨rfl, rfl⟩
    | some part => exact .inr ⟨node, node', part, rfl, rfl, hrenamed⟩

theorem next_mapNode {s : Site} (hs : b.digraph.Reaches root s.node) :
    (Outline.ofBlueprint b').next (s.mapNode f) =
      ((Outline.ofBlueprint b).next s).map (Site.mapNode f) := by
  unfold Outline.next Outline.inside Outline.outside
  rcases h.part?_cases hs with ⟨hpart, hpart'⟩ | ⟨node, node', part, hpart, hpart', hrenamed⟩
  · rw [hpart, hpart']
    rfl
  · rw [hpart, hpart', List.map_append]
    congr 1
    · cases part with
      | none => rfl
      | some t => exact Site.below_mapTargets f s t
    · by_cases hpath : s.path = []
      · have hpath' : (s.mapNode f).path = [] := hpath
        simp only [hpath, hpath', if_true]
        rw [hrenamed.otherwise, hrenamed.returns, List.map_append]
        congr 1
        · cases node.otherwise <;> rfl
        · rw [List.map_map, List.map_map]
          rfl
      · have hpath' : ¬ (s.mapNode f).path = [] := hpath
        simp only [hpath, hpath', if_false]
        rfl

/-- **The sites are the same**, at the renamed nodes and in the same order. -/
theorem sites :
    (Outline.ofBlueprint b').sites (f root) =
      ((Outline.ofBlueprint b).sites root).map (Site.mapNode f) := by
  have hnext : ∀ s, (Outline.ofBlueprint b).digraph.Reaches (Site.entry root) s →
      (Outline.ofBlueprint b').digraph.next (s.mapNode f) =
        ((Outline.ofBlueprint b).digraph.next s).map (Site.mapNode f) :=
    fun s hs => h.next_mapNode (Outline.reaches_node hs)
  exact Digraph.preorder_map (Site.mapNode_injective h.nodes) hnext

/-- A span in use keeps its callback. -/
theorem spanCallback? {s : Nat} (hs : b.Uses root s) :
    b'.spanCallback? (g s) = b.spanCallback? s := by
  obtain ⟨n, node, hn, hnode, hspan⟩ := hs
  rcases h.cases hn with ⟨hnone, -⟩ | ⟨node₁, node', hnode₁, -, hrenamed⟩
  · rw [hnone] at hnode
    cases hnode
  · obtain rfl : node₁ = node := Option.some.inj (hnode₁.symm.trans hnode)
    have hcallback := hrenamed.callback
    unfold callbackOf? at hcallback
    rcases Node.span?_eq_some_iff.mp hspan with hkind | hkind
    · rwa [hkind, (hrenamed.kind.eq_spanStart_iff h.spans).mpr hkind] at hcallback
    · rwa [hkind, (hrenamed.kind.eq_spanEnd_iff h.spans).mpr hkind] at hcallback

end

end Renaming

end Blueprint

/-- Nodes that correspond have the same defect. -/
theorem Blueprint.Node.Renamed.defect? {b b' : Blueprint} {root : Nat} {f g : Nat → Nat}
    {node node' : Blueprint.Node} (h : node.Renamed b b' f g node') (hr : b.Renaming b' root f g)
    (groups : List (List Nat)) :
    b'.defect? (groups.map (List.map g)) ⟨node', node'.trie⟩ =
      b.defect? groups ⟨node, node.trie⟩ := by
  have htrie := h.trie hr.nodes
  have hcallback := h.callback
  have hotherwise : node'.otherwise.isNone = node.otherwise.isNone := by
    rw [h.otherwise, Option.isNone_map]
  have hplace := Allocation.placeOf?_map hr.spans groups
  unfold Blueprint.defect? Blueprint.Node.isError
  unfold Blueprint.callbackOf? at hcallback
  rw [htrie]
  dsimp only
  rw [h.name, hotherwise]
  have hkind := h.kind
  generalize node.kind = kind at hkind hcallback
  generalize node'.kind = kind' at hkind hcallback
  cases hkind with
  | spanStart =>
    dsimp only at hcallback ⊢
    rw [hplace, hcallback]
  | spanEnd =>
    dsimp only at hcallback ⊢
    rw [hplace, hcallback]
  | invoke =>
    dsimp only at hcallback ⊢
    rw [hcallback]
  | @matching word =>
    dsimp only
    cases Blueprint.transformOf? word <;> cases node.trie <;> rfl
  | _ => rfl

/-! ## Assemblies -/

/-- Assemblies of blueprints that correspond. -/
structure Assembly.Renamed (a a' : Assembly) (b b' : Blueprint) (root : Nat) (f g : Nat → Nat) :
    Prop where
  handles : b.Renaming b' root f g
  blueprint : a.blueprint = b
  blueprint' : a'.blueprint = b'
  outline : a.outline = Outline.ofBlueprint b
  outline' : a'.outline = Outline.ofBlueprint b'
  options : a'.options = a.options
  stem : a'.stem = a.stem
  groups : a'.groups = a.groups.map (List.map g)
  reaches : ∀ s ∈ a.sites, b.digraph.Reaches root s.node
  sites : a'.sites = a.sites.map (Site.mapNode f)
  /-- The spans with a place are in use. -/
  uses : ∀ s ∈ a.groups.flatten, b.Uses root s

theorem Blueprint.Renaming.assembly {b b' : Blueprint} {root : Nat} {f g : Nat → Nat}
    (h : b.Renaming b' root f g) (options : Options) (stem : String) {groups : List (List Nat)}
    (huses : ∀ s ∈ groups.flatten, b.Uses root s) :
    (b.assembly options groups stem root).Renamed
      (b'.assembly options (groups.map (List.map g)) stem (f root)) b b' root f g where
  handles := h
  blueprint := rfl
  blueprint' := rfl
  outline := rfl
  outline' := rfl
  options := rfl
  stem := rfl
  groups := rfl
  reaches _ hs := Outline.reaches_node (Outline.mem_sites.mp hs)
  sites := h.sites
  uses := huses

theorem idxOf_map {α β : Type} [DecidableEq α] [DecidableEq β] {f : α → β}
    (hf : Function.Injective f) (l : List α) (a : α) : (l.map f).idxOf (f a) = l.idxOf a := by
  rw [List.idxOf, List.idxOf, List.findIdx_map]
  congr 1
  funext c
  by_cases hc : c = a
  · simp [hc]
  · simp [hc, hf.ne hc]

namespace Assembly.Renamed

section
variable {a a' : Assembly} {b b' : Blueprint} {root : Nat} {f g : Nat → Nat}
variable (h : a.Renamed a' b b' root f g)
include h

/-- Corresponding sites have the same position. -/
theorem position (s : Site) : a'.position (s.mapNode f) = a.position s := by
  rw [Assembly.position, h.sites, idxOf_map (Site.mapNode_injective h.handles.nodes)]
  rfl

theorem entry (n : Nat) : a'.entry (f n) = a.entry n := h.position (Site.entry n)

/-- Corresponding sites belong to no node, or to nodes that correspond. -/
theorem node?_cases {s : Site} (hs : s ∈ a.sites) :
    (a.node? s = none ∧ a'.node? (s.mapNode f) = none) ∨
      ∃ node node', a.node? s = some node ∧ a'.node? (s.mapNode f) = some node' ∧
        node.Renamed b b' f g node' := by
  rw [node?, node?, h.outline, h.outline', Outline.ofBlueprint_getElem?,
    Outline.ofBlueprint_getElem?, Site.mapNode]
  rcases h.handles.cases (h.reaches s hs) with
    ⟨hnode, hnode'⟩ | ⟨node, node', hnode, hnode', hrenamed⟩
  · rw [hnode, hnode']
    exact .inl ⟨rfl, rfl⟩
  · rw [hnode, hnode']
    exact .inr ⟨node, node', rfl, rfl, hrenamed⟩

/-- What is collected from nodes is the same when corresponding nodes contribute the same. -/
theorem filterMap_nodes {γ : Type} {p p' : Blueprint.Node → Option γ}
    (hp : ∀ {node node' : Blueprint.Node}, node.Renamed b b' f g node' → p' node' = p node) :
    a'.nodes.filterMap p' = a.nodes.filterMap p := by
  rw [nodes, nodes, h.sites, List.filter_map, List.filterMap_map, List.filterMap_filterMap,
    List.filterMap_filterMap]
  refine List.filterMap_congr fun s hs => ?_
  rw [Function.comp_apply]
  rcases h.node?_cases (List.mem_of_mem_filter hs) with
    ⟨hnode, hnode'⟩ | ⟨node, node', hnode, hnode', hrenamed⟩
  · rw [hnode, hnode']
    rfl
  · rw [hnode, hnode']
    exact hp hrenamed

theorem filterMap_spanCallback? {group : List Nat} (hgroup : ∀ s ∈ group, b.Uses root s) :
    (group.map g).filterMap a'.blueprint.spanCallback? =
      group.filterMap a.blueprint.spanCallback? := by
  rw [List.filterMap_map, h.blueprint, h.blueprint']
  exact List.filterMap_congr fun s hs => h.handles.spanCallback? (hgroup s hs)

theorem callbacks : a'.callbacks = a.callbacks := by
  have hused : a'.usedCallbacks = a.usedCallbacks := by
    rw [usedCallbacks, usedCallbacks, h.groups, ← List.map_flatten,
      h.filterMap_spanCallback? h.uses, h.blueprint, h.blueprint',
      h.filterMap_nodes fun hrenamed => hrenamed.callback]
  rw [Assembly.callbacks, Assembly.callbacks, hused, h.stem]

theorem transforms : a'.transforms = a.transforms := by
  rw [Assembly.transforms, Assembly.transforms, h.filterMap_nodes]
  intro node node' hrenamed
  obtain ⟨name, kind, edges, otherwise⟩ := node
  obtain ⟨name', kind', edges', otherwise'⟩ := node'
  have hkind : Blueprint.Kind.Renamed g kind kind' := hrenamed.kind
  cases hkind <;> rfl

theorem labels : a'.labels = a.labels := by
  rw [Assembly.labels, Assembly.labels, h.stem, h.sites, List.map_map]
  congr 1
  refine List.map_congr_left fun s hs => ?_
  rw [Function.comp_apply]
  rcases h.node?_cases hs with ⟨hnode, hnode'⟩ | ⟨node, node', hnode, hnode', hrenamed⟩
  · rw [hnode, hnode']
  · rw [hnode, hnode', Option.map_some, Option.map_some, hrenamed.name]

theorem places (callbacks : List (Callback Bool)) : a'.places callbacks = a.places callbacks := by
  rw [Assembly.places, Assembly.places, h.groups, List.map_map]
  refine List.map_congr_left fun group hgroup => ?_
  rw [Function.comp_apply, h.filterMap_spanCallback?]
  exact fun s hs => h.uses s (List.mem_flatten.mpr ⟨group, hgroup, hs⟩)

/-! ## States -/

theorem trieKind (s : Site) (transform : Nat) (t : Trie) :
    a'.trieKind (s.mapNode f) transform (t.mapTargets f) = a.trieKind s transform t := by
  have hposition : ∀ (path : List UInt8) (t : Trie),
      a'.position (Site.ofTrie (s.mapNode f).node path (t.mapTargets f)) =
        a.position (Site.ofTrie s.node path t) := by
    intro path t
    rw [← h.position, ← Site.ofTrie_mapTargets]
    rfl
  cases t with
  | leaf l => rw [Trie.mapTargets, Assembly.trieKind, Assembly.trieKind]
  | run bytes next =>
    rw [Trie.mapTargets, Assembly.trieKind, Assembly.trieKind, hposition, Trie.value_mapTargets]
    rfl
  | branch children stop =>
    rw [Trie.mapTargets_branch, Assembly.trieKind, Assembly.trieKind, h.options,
      Table.ofChildren_map h.handles.nodes]
    cases Table.ofChildren a.options children with
    | error e =>
      show Machine.Kind.branch transform _ = .branch transform _
      rw [List.map_map]
      congr 1
      refine List.map_congr_left fun child _ => ?_
      show (⟨child.1, child.2.1, a'.position _, (child.2.2.mapTargets f).value⟩ :
        Machine.ByteEdge) = ⟨child.1, child.2.1, a.position _, child.2.2.value⟩
      rw [Trie.value_mapTargets]
      exact congrArg (fun i => (⟨child.1, child.2.1, i, child.2.2.value⟩ : Machine.ByteEdge))
        (hposition (s.path ++ [child.1]) child.2.2)
    | ok rows =>
      show Machine.Kind.table transform ((rows.map _).map _) = .table transform (rows.map _)
      rw [List.map_map]
      congr 1
      refine List.map_congr_left fun row _ => ?_
      exact congrArg (fun i => (⟨row.keys, row.stay, i⟩ : Machine.TableEdge)) (h.entry row.target)

section Node
variable {node node' : Blueprint.Node} (hrenamed : node.Renamed b b' f g node')
include hrenamed

theorem otherwise (part : Option Trie) :
    a'.otherwise node' (part.map (Trie.mapTargets f)) = a.otherwise node part := by
  have hnode : (node'.otherwise.map fun e => (⟨a'.entry e.target, e.stay, none⟩ :
      Machine.Fallback)) = node.otherwise.map fun e => ⟨a.entry e.target, e.stay, none⟩ := by
    rw [hrenamed.otherwise, Option.map_map]
    refine Option.map_congr fun o _ => ?_
    exact congrArg (fun i => (⟨i, o.stay, none⟩ : Machine.Fallback)) (h.entry o.target)
  cases part with
  | none => exact hnode
  | some t =>
    rw [Option.map_some]
    cases t with
    | leaf l => exact hnode
    | run bytes next => exact hnode
    | branch children stop =>
      rw [Trie.mapTargets_branch]
      cases stop with
      | none => exact hnode
      | some l =>
        exact congrArg (fun i => some (⟨i, true, l.value⟩ : Machine.Fallback)) (h.entry l.target)

/-- **Nodes that correspond become states of the same kind.** -/
theorem kind (callbacks : List (Callback Bool)) (transforms : List Transform) (s : Site)
    (part : Option Trie) :
    a'.kind callbacks transforms (s.mapNode f) node' (part.map (Trie.mapTargets f)) =
      a.kind callbacks transforms s node part := by
  have hcallback : a'.blueprint.callbackOf? node' = a.blueprint.callbackOf? node := by
    rw [h.blueprint, h.blueprint', hrenamed.callback]
  have hplace : ∀ span, Allocation.placeOf? a'.groups (g span) =
      Allocation.placeOf? a.groups span := by
    intro span
    rw [h.groups, Allocation.placeOf?_map h.handles.spans]
  have hreturns : (node'.returns.map fun r => (⟨r.1, a'.entry r.2⟩ : Machine.ReturnEdge)) =
      node.returns.map fun r => ⟨r.1, a.entry r.2⟩ := by
    rw [hrenamed.returns, List.map_map]
    refine List.map_congr_left fun r _ => ?_
    exact congrArg (fun i => (⟨r.1, i⟩ : Machine.ReturnEdge)) (h.entry r.2)
  unfold Assembly.kind
  rw [hcallback]
  have hkind := hrenamed.kind
  generalize node.kind = kind at hkind
  generalize node'.kind = kind' at hkind
  cases hkind with
  | spanStart => simp only [hplace]
  | spanEnd => simp only [hplace]
  | invoke => exact congrArg (Machine.Kind.invoke _) hreturns
  | matching =>
    cases part with
    | none => rfl
    | some t => exact h.trieKind s _ t
  | _ => rfl

end Node

/-- **Corresponding sites have equal states.** -/
theorem state (callbacks : List (Callback Bool)) (transforms : List Transform) {s : Site}
    (hs : s ∈ a.sites) (label : Label) :
    a'.state callbacks transforms (s.mapNode f) label = a.state callbacks transforms s label := by
  unfold Assembly.state
  rw [h.outline, h.outline']
  rcases h.handles.part?_cases (h.reaches s hs) with
    ⟨hpart, hpart'⟩ | ⟨node, node', part, hpart, hpart', hrenamed⟩
  · rw [hpart, hpart']
  · rw [hpart, hpart']
    dsimp only
    rw [h.kind hrenamed, h.otherwise hrenamed]

theorem machine : a'.machine = a.machine := by
  have hstates : a'.machine.states = a.machine.states := by
    apply Array.ext_getElem?
    intro i
    rw [machine_states_getElem?, machine_states_getElem?, h.sites, h.labels, h.callbacks,
      h.transforms, List.getElem?_map]
    cases hs : a.sites[i]? with
    | none => rfl
    | some s =>
      have hstate := h.state a.callbacks a.transforms (List.mem_of_getElem? hs)
      exact congrArg (Option.map · a.labels[i]?) (funext hstate)
  have hcallbacks : a'.machine.callbacks = a.machine.callbacks := congrArg List.toArray h.callbacks
  have htransforms : a'.machine.transforms = a.machine.transforms :=
    congrArg List.toArray h.transforms
  calc a'.machine
      = ⟨a'.machine.states, a'.machine.callbacks, a'.machine.transforms⟩ := rfl
    _ = a.machine := by rw [hstates, hcallbacks, htransforms]

/-! ## Errors -/

theorem defect? : a'.defect? = a.defect? := by
  rw [Assembly.defect?, Assembly.defect?, h.sites, List.findSome?_map]
  refine Blueprint.findSome?_congr fun s hs => ?_
  rw [Function.comp_apply, Outline.defect?, Outline.defect?, h.outline, h.outline',
    Outline.ofBlueprint_getElem?, Outline.ofBlueprint_getElem?, Site.mapNode, h.blueprint,
    h.blueprint', h.groups]
  rcases h.handles.cases (h.reaches s hs) with
    ⟨hnode, hnode'⟩ | ⟨node, node', hnode, hnode', hrenamed⟩
  · rw [hnode, hnode']
    rfl
  · rw [hnode, hnode']
    exact hrenamed.defect? h.handles a.groups

theorem complete : a'.complete = a.complete := by
  rw [Assembly.complete, Assembly.complete, h.defect?, h.machine]

/-- What is made of a machine differs in nothing but the properties of the blueprints. -/
theorem finish (m : Machine) :
    a'.finish (f root) m = { a.finish root m with properties := b'.properties } := by
  rw [Assembly.finish, Assembly.finish, h.entry, h.stem, h.callbacks, h.places, h.blueprint']

end

end Assembly.Renamed

/-! ## Compilations -/

namespace Blueprint

/-- The spans that get places are in use. -/
theorem uses_of_allocate {b : Blueprint} {root : Nat} {allocation : Allocation}
    (h : b.allocate root = .ok allocation) : ∀ s ∈ allocation.groups.flatten, b.Uses root s := by
  obtain ⟨-, -, hgroups⟩ := allocate_eq_ok h
  intro s hs
  rw [hgroups, (Allocation.flatten_firstFit_perm _ _).mem_iff] at hs
  exact uses_iff.mpr hs

namespace Renaming

section
variable {b b' : Blueprint} {root : Nat} {f g : Nat → Nat} (h : Renaming b b' root f g)
include h

theorem checkGroups {groups : List (List Nat)} (huses : ∀ s ∈ groups.flatten, b.Uses root s) :
    b'.checkGroups (groups.map (List.map g)) = b.checkGroups groups := by
  have hall : ((groups.map (List.map g)).flatten.all fun s => (b'.spanCallback? s).isSome) =
      groups.flatten.all fun s => (b.spanCallback? s).isSome := by
    rw [← List.map_flatten, List.all_map, Bool.eq_iff_iff, List.all_eq_true, List.all_eq_true]
    refine forall_congr' fun s => forall_congr' fun hs => ?_
    rw [Function.comp_apply, h.spanCallback? (huses s hs)]
  rw [Blueprint.checkGroups, Blueprint.checkGroups, hall]

/-- **A renaming does not change how a compilation ends.** -/
theorem compile (stem : String) (options : Options) :
    (b'.compile stem options sharePlaces (f root)).result =
      (b.compile stem options sharePlaces root).result.map fun c =>
        { c with properties := b'.properties } := by
  cases hoptions : options.check with
  | error e =>
    rw [compile_result_of_options _ _ _ _ _ hoptions, compile_result_of_options _ _ _ _ _ hoptions]
    rfl
  | ok _ =>
    rw [compile_result _ _ _ _ _ hoptions, compile_result _ _ _ _ _ hoptions, sharePlaces_result,
      sharePlaces_result, h.allocate]
    cases hallocate : b.allocate root with
    | error e => rfl
    | ok allocation =>
      have huses := uses_of_allocate hallocate
      have hassembly := h.assembly options stem huses
      dsimp only [Except.map, Allocation.mapSpans]
      rw [h.checkGroups huses, hassembly.complete]
      -- the root exists, or there would be no places
      obtain ⟨node, node', hnode, hnode'⟩ : ∃ node node', b.nodes[root]? = some node ∧
          b'.nodes[f root]? = some node' := by
        obtain ⟨node, hnode⟩ := (allocate_eq_ok hallocate).1 root (.refl root)
        rcases h.cases (.refl root) with ⟨hnone, -⟩ | ⟨node₁, node', hnode₁, hnode', -⟩
        · rw [hnone] at hnode
          cases hnode
        · exact ⟨node₁, node', hnode₁, hnode'⟩
      rw [getNode, getNode, hnode, hnode']
      cases b.checkGroups allocation.groups with
      | error e => rfl
      | ok _ =>
        dsimp only
        cases (b.assembly options allocation.groups stem root).complete with
        | error e => rfl
        | ok m => exact congrArg Except.ok (hassembly.finish m)

end

end Renaming

/-- Lets spans share places, with the table of regions listed in some order. -/
def sharePlacesBy (order : List (Nat × List Nat) → List (Nat × List Nat)) : Allocator :=
  fun b root => do
    let allocation ←
      Journaled.ofExcept (b.allocateBy (order (b.openRegions (b.reachable root))) root)
    Journaled.note (.allocated allocation.spans.length allocation.groups.length)
    return allocation

/-- **Compiling isomorphic blueprints** ends with the same error, or with results that are
equal but for the properties, which are declared apart from all nodes.  And it does not
matter in which order regions are listed. -/
theorem compile_isomorphic (b b' : Blueprint) (root root' : Nat) (f g : Nat → Nat)
    (h : Isomorphic b b' root root' f g) (stem : String) (options : Options) :
    (b'.compile stem options sharePlaces root').result =
        (b.compile stem options sharePlaces root).result.map (fun c =>
          { c with properties := b'.properties }) ∧
      ∀ order, (∀ regions, Relisted regions (order regions)) →
        b.compile stem options (sharePlacesBy order) root =
          b.compile stem options sharePlaces root := by
  constructor
  · obtain ⟨f', g', rfl, hrenaming⟩ := h.exists_renaming
    exact hrenaming.compile stem options
  · intro order horder
    have hsame : sharePlacesBy order b root = sharePlaces b root := by
      rw [sharePlacesBy, sharePlaces, allocateBy_of_relisted (horder _)]
    rw [compile, compile, hsame]

/-- The calls for requests in another order, with a node, a span, a callback and a property
besides that nothing refers to. -/
def relocatedCalls : List Call :=
  [.property ⟨.i8, "flags"⟩, .callback ⟨"on_other", .external .span⟩,
    .callback ⟨"on_word", .external .span⟩, .callback ⟨"is_set", .test "flags" 1⟩, .span 0, .span 1,
    .errorNode 3 "expected a word", .invokeNode 2 [(1, 6)], .matchNode "start", .spanEndNode 1,
    .matchNode "word", .spanStartNode 1, .matchNode "start", .otherwise 2 6, .otherwise 5 4,
    .matchBytes 4 [97] 4, .otherwise 4 3, .otherwise 3 1, .skipTo 1 0, .matchBytes 6 [71, 69, 84] 5,
    .select 6 [71] 7 1, .peek 6 80 5, .otherwise 6 0]

/-- Where the nodes for requests have gone. -/
def relocate (n : Nat) : Nat := [6, 5, 4, 3, 1, 0].getD n n

theorem isomorphic_relocated :
    Isomorphic (run {} requestCalls) (run {} relocatedCalls) 0 6 relocate (· + 1) := by
  have hreach : (run {} requestCalls).reachable 0 = [0, 1, 2, 3, 4, 5] := by cbv
  have hreach' : (run {} relocatedCalls).reachable 6 = [6, 5, 4, 3, 1, 0] := by cbv
  have hmem : ∀ n, (run {} requestCalls).digraph.Reaches 0 n ↔ n ∈ [0, 1, 2, 3, 4, 5] :=
    fun n => hreach ▸ mem_reachable.symm
  have hmem' : ∀ n, (run {} relocatedCalls).digraph.Reaches 6 n ↔ n ∈ [6, 5, 4, 3, 1, 0] :=
    fun n => hreach' ▸ mem_reachable.symm
  have hspans : (run {} requestCalls).spansOf [0, 1, 2, 3, 4, 5] = [0] := by decide +kernel
  have hspans' : (run {} relocatedCalls).spansOf [6, 5, 4, 3, 1, 0] = [1] := by decide +kernel
  refine ⟨rfl, ?_, ?_, ?_⟩
  · simp only [hmem, hmem']
    refine ⟨?_, ?_, ?_⟩
    · show ∀ n ∈ [0, 1, 2, 3, 4, 5], relocate n ∈ [6, 5, 4, 3, 1, 0]
      decide
    · show ∀ m ∈ [0, 1, 2, 3, 4, 5], ∀ n ∈ [0, 1, 2, 3, 4, 5], relocate m = relocate n → m = n
      decide
    · show ∀ m ∈ [6, 5, 4, 3, 1, 0], ∃ n ∈ [0, 1, 2, 3, 4, 5], relocate n = m
      decide
  · simp only [uses_iff, hreach, hreach', hspans, hspans']
    refine ⟨?_, ?_, ?_⟩
    · show ∀ s ∈ [0], s + 1 ∈ [1]
      decide
    · exact fun s _ t _ heq => Nat.succ.inj heq
    · show ∀ t ∈ [1], ∃ s ∈ [0], s + 1 = t
      decide
  · have hnodes : ∀ n ∈ [0, 1, 2, 3, 4, 5],
        Option.Rel (Node.Renamed (run {} requestCalls) (run {} relocatedCalls) relocate (· + 1))
          (run {} requestCalls).nodes[n]? (run {} relocatedCalls).nodes[relocate n]? := by
      decide +kernel
    exact fun n hn => hnodes n ((hmem n).mp hn)

theorem compile_isomorphic_relocated :
    Isomorphic (run {} requestCalls) (run {} relocatedCalls) 0 6 relocate (· + 1) ∧
      ((run {} requestCalls).compile "parser" {} sharePlaces 0).result.toBool = true ∧
      ((run {} relocatedCalls).compile "parser" {} sharePlaces 6).result =
        ((run {} requestCalls).compile "parser" {} sharePlaces 0).result.map (fun c =>
          { c with properties := (run {} relocatedCalls).properties }) ∧
      (run {} requestCalls).compile "parser" {} (sharePlacesBy List.reverse) 0 =
        (run {} requestCalls).compile "parser" {} sharePlaces 0 := by
  have hok : ((run {} requestCalls).compile "parser" {} sharePlaces 0).result.toBool = true := by
    cbv
  have horder : ∀ regions, Relisted regions regions.reverse := fun regions =>
    ⟨regions.reverse, (List.reverse_perm regions).symm,
      List.forall₂_same.mpr fun row _ => ⟨rfl, .refl _⟩⟩
  obtain ⟨hresult, hlisted⟩ := compile_isomorphic (run {} requestCalls) (run {} relocatedCalls) 0 6
    relocate (· + 1) isomorphic_relocated "parser" {}
  exact ⟨isomorphic_relocated, hok, hresult, hlisted List.reverse horder⟩

end Blueprint

end ByteMachine
