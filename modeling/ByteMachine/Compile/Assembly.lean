import ByteMachine.Callback
import ByteMachine.Compile.Site
import ByteMachine.Machine.Basic
import ByteMachine.Span
import ByteMachine.Table

/-! # From sites to states

Given the sites in their order, each state is determined on its own: its position is that of
its site, its edges lead to the positions of the next sites, and a part of a trie without a
stop of its own continues where its node does.  Callbacks and transforms are collected in the
order in which they are first used, those of the spans with a place before all others.

`Blueprint.defect?` says what is wrong with a node.  A blueprint is refused because of the
first site whose node has a defect. -/
namespace ByteMachine

/-! ## Why there is no machine

Nodes, callbacks and states are given by name. -/

/-- Why there is no machine for a blueprint. -/
inductive CompileError where
  | options (cause : OptionsError)
  | allocation (cause : AllocationError)
  /-- A handle names nothing. -/
  | unknownHandle
  /-- A node that is not an error does not say where it continues. -/
  | missingOtherwise (node : String)
  | unsupportedTransform (transform node : String)
  | trie (node : String) (cause : Trie.BuildError)
  /-- A callback for spans is invoked without one. -/
  | spanCallbackInvoked (callback node : String)
  /-- The span of a node has no place. -/
  | unallocatedSpan (node : String)
  /-- A state lacks an edge that it needs. -/
  | unfinished (state : String)
deriving DecidableEq, Repr, Inhabited

namespace CompileError

/-- The wording of an error. -/
def message : CompileError → String
  | .options cause => cause.message
  | .allocation cause => cause.message
  | .unknownHandle => "index out of bounds"
  | .missingOtherwise node => s!"node `{node}` has no `.otherwise()`"
  | .unsupportedTransform transform node => s!"unsupported transform `{transform}` in `{node}`"
  | .trie node cause => cause.message node
  | .spanCallbackInvoked callback node =>
    s!"passing `span` callback `{callback}` to `invoke` in `{node}` is not allowed"
  | .unallocatedSpan node => s!"span of `{node}` was not allocated to any span field"
  | .unfinished state => s!"node `{state}` was left without a required edge"

end CompileError

/-! ## Defects -/

namespace Blueprint

/-- The transform of a matching node; one that is not named is the identity. -/
def transformOf? : Option String → Option Transform
  | none => some .identity
  | some word => Transform.ofWord? word

/-- The callback of a node that has one. -/
def callbackOf? (b : Blueprint) (node : Node) : Option (Callback (Option Bool)) :=
  match node.kind with
  | .invoke c => b.callbacks[c]?
  | .spanStart s | .spanEnd s => b.spanCallback? s
  | _ => none

/-- What keeps a node from becoming states, given the spans that share each place. -/
def defect? (b : Blueprint) (groups : List (List Nat)) (plan : Plan) : Option CompileError :=
  let node := plan.node
  if !node.isError && node.otherwise.isNone then some (.missingOtherwise node.name)
  else
    match node.kind with
    | .matching transform =>
      match transformOf? transform, plan.trie with
      | none, _ => some (.unsupportedTransform (transform.getD "") node.name)
      | some _, .error cause => some (.trie node.name cause)
      | some _, .ok _ => none
    | .spanStart span | .spanEnd span =>
      if (Allocation.placeOf? groups span).isNone then some (.unallocatedSpan node.name)
      else if (b.spanCallback? span).isNone then some .unknownHandle
      else none
    | .invoke callback =>
      match b.callbacks[callback]? with
      | none => some .unknownHandle
      | some c =>
        if c.signature = .span then some (.spanCallbackInvoked c.name node.name) else none
    | _ => none

end Blueprint

namespace Outline

/-- What is wrong with the node of a site. -/
def defect? (o : Outline) (b : Blueprint) (groups : List (List Nat)) (s : Site) :
    Option CompileError :=
  match o[s.node]? with
  | some plan => b.defect? groups plan
  | none => some .unknownHandle

end Outline

/-- All that a machine is made from. -/
structure Assembly where
  blueprint : Blueprint
  outline : Outline
  options : Options
  /-- The spans that share each place. -/
  groups : List (List Nat)
  /-- Begins the names of states and of operations on fields. -/
  stem : String
  /-- The sites in the order of their states. -/
  sites : List Site

namespace Assembly

variable (a : Assembly)

/-- The node of a site. -/
def node? (s : Site) : Option Blueprint.Node := a.outline[s.node]?.map (·.node)

/-- The nodes in the order in which they are entered. -/
def nodes : List Blueprint.Node := (a.sites.filter (·.path = [])).filterMap a.node?

/-! ## Callbacks and transforms -/

/-- The callbacks in the order in which they are first used. -/
def usedCallbacks : List (Callback Bool) :=
  Callback.distinct <|
    (a.groups.flatten.filterMap a.blueprint.spanCallback? ++
      a.nodes.filterMap a.blueprint.callbackOf?).map Callback.resolve

/-- Names operations on fields; a function of the user keeps its name. -/
def nameCallbacks (names : Names) : List (Callback Bool) → List (Callback Bool)
  | [] => []
  | c :: rest =>
    if c.operation.isExternal then c :: nameCallbacks names rest
    else
      let (label, names) := names.fresh c.name
      { c with name := label.text } :: nameCallbacks names rest

/-- The callbacks of the machine. -/
def callbacks : List (Callback Bool) := nameCallbacks { stem := a.stem ++ "__c_" } a.usedCallbacks

/-- The transforms of the machine, in the order in which they are first used. -/
def transforms : List Transform :=
  (a.nodes.filterMap fun node =>
    match node.kind with
    | .matching transform => Blueprint.transformOf? transform
    | _ => none).eraseDups

/-! ## Positions -/

/-- The position of the state of a site. -/
def position (s : Site) : Nat := a.sites.idxOf s

/-- The position of the state at which a node is entered. -/
def entry (node : Nat) : Nat := a.position (Site.entry node)

/-- The position of a callback in a list, by its key. -/
def callbackIndex (callbacks : List (Callback Bool)) (c : Callback (Option Bool)) : Nat :=
  callbacks.findIdx (·.key = c.resolve.key)

/-- The callbacks of the spans that share each place. -/
def places (callbacks : List (Callback Bool)) : List (List Nat) :=
  a.groups.map fun group =>
    (group.filterMap a.blueprint.spanCallback?).map (callbackIndex callbacks)

/-! ## States -/

/-- The kind of the state of a site that has a part of a trie. -/
def trieKind (s : Site) (transform : Nat) : Trie → Machine.Kind
  | .leaf _ => .empty
  | .branch children _ =>
    match Table.ofChildren a.options children with
    | .ok rows =>
      .table transform (rows.map fun row => ⟨row.keys, row.stay, a.entry row.target⟩)
    | .error _ =>
      .branch transform <| children.map fun (byte, stay, child) =>
        ⟨byte, stay, a.position (Site.ofTrie s.node (s.path ++ [byte]) child), child.value⟩
  | .run bytes next =>
    .run transform bytes
      (some ⟨a.position (Site.ofTrie s.node (s.path ++ bytes) next), next.value⟩)

/-- The kind of the state of a site. -/
def kind (callbacks : List (Callback Bool)) (transforms : List Transform) (s : Site)
    (node : Blueprint.Node) (part : Option Trie) : Machine.Kind :=
  let callback := ((a.blueprint.callbackOf? node).map (callbackIndex callbacks)).getD 0
  match node.kind with
  | .error code reason => .error code reason
  | .pause code reason => .pause code reason
  | .consume field => .consume field
  | .spanStart span => .spanStart ((Allocation.placeOf? a.groups span).getD 0) callback
  | .spanEnd span => .spanEnd ((Allocation.placeOf? a.groups span).getD 0) callback
  | .invoke _ =>
    .invoke callback (node.returns.map fun (code, target) => ⟨code, a.entry target⟩)
  | .matching transform =>
    match part with
    | none => .empty
    | some t =>
      a.trieKind s (transforms.idxOf ((Blueprint.transformOf? transform).getD .identity)) t

/-- Where the state of a site continues otherwise: at its stop, or where its node does. -/
def otherwise (node : Blueprint.Node) : Option Trie → Option Machine.Fallback
  | some (.branch _ (some stop)) => some ⟨a.entry stop.target, true, stop.value⟩
  | _ => node.otherwise.map fun e => ⟨a.entry e.target, e.stay, none⟩

/-- The state of a site. -/
def state (callbacks : List (Callback Bool)) (transforms : List Transform) (s : Site)
    (label : Label) : Machine.State :=
  match a.outline.part? s with
  | some (node, part) =>
    { label, kind := a.kind callbacks transforms s node part, otherwise := a.otherwise node part }
  | none => { label, kind := .empty }

/-- The names of the states. -/
def labels : List Label :=
  Names.freshAll { stem := a.stem ++ "__n_" }
    (a.sites.map fun s => ((a.node? s).map (·.name)).getD "")

/-- The machine. -/
def machine : Machine :=
  let callbacks := a.callbacks
  let transforms := a.transforms
  { states := (a.sites.zipWith (a.state callbacks transforms) a.labels).toArray
    callbacks := callbacks.toArray
    transforms := transforms.toArray }

/-- What is wrong with the first site that has a defect. -/
def defect? : Option CompileError :=
  a.sites.findSome? (a.outline.defect? a.blueprint a.groups)

end Assembly

namespace Blueprint

/-- The assembly of the part of a blueprint that is reachable from the root. -/
def assembly (b : Blueprint) (options : Options) (groups : List (List Nat)) (stem : String)
    (root : Nat) : Assembly :=
  let outline := Outline.ofBlueprint b
  { blueprint := b, outline, options, groups, stem, sites := outline.sites root }

end Blueprint

end ByteMachine
