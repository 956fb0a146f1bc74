import ByteMachine.Machine.Wiring
import ByteMachine.Proofs.PartialAssembly

/-! # A translation that keeps a memo

A machine can also be made node by node.  To enter a node is to look it up in a memo of the nodes
that were entered before, and to translate it if it is not there (`translate`).  The first state
of a node is appended and noted in the memo before the nodes are entered to which the node leads,
so cycles find it.  Edges are added once their targets have been entered.

A node that matches nothing becomes a state that is led on first and then gets its edges
(`translatePlain`).  A matching node becomes the states of its trie (`translateTrie`), where a table
enters each of its targets once (`rowWires`).  After that its states without an otherwise edge are
led on to where the node continues (`fallBack`).  Names, callbacks and transforms are handed out
on the way.

A translation is in step with the assembly as far as the sites made so far: the states and the memo
are (`Counted`), and so are the callbacks and transforms (`Referred`).  Each operation on its own
keeps this. -/
namespace ByteMachine

/-- **Where a translation stands.** -/
structure Translator where
  /-- The states made so far, with the callbacks and transforms that they use. -/
  machine : Machine
  /-- The state at which a node is entered, for each node entered so far. -/
  memo : List (Nat × Nat)
  /-- The names handed out to states. -/
  stateNames : Names
  /-- The names handed out to operations on fields. -/
  callbackNames : Names

/-- A step of a translation, which may find a defect. -/
abbrev Translation := StateT Translator (Except CompileError)

namespace Translator

/-! ## Operations -/

/-- Nothing is translated yet. -/
def start (stem : String) : Translator :=
  { machine := {}, memo := [], stateNames := { stem := stem ++ "__n_" }
    callbackNames := { stem := stem ++ "__c_" } }

/-- Appends a state without edges under a new name. -/
def push (t : Translator) (name : String) (kind : Machine.Kind) : Translator :=
  let (label, names) := t.stateNames.fresh name
  { t with machine := t.machine.addState { label, kind }, stateNames := names }

/-- Notes where a node is entered, unless that is known. -/
def remember (t : Translator) (n i : Nat) : Translator :=
  if (t.memo.lookup n).isSome then t else { t with memo := (n, i) :: t.memo }

/-- Makes a state for a node.  The first one made for the node is where the node is entered. -/
def addFor (n : Nat) (name : String) (kind : Machine.Kind) : Translation Nat := fun t =>
  let i := t.machine.states.size
  .ok (i, (t.push name kind).remember n i)

/-- The position of a callback; one with the same key is used again. -/
def useCallback (c : Callback (Option Bool)) : Translation Nat := fun t =>
  let d := c.resolve
  match t.machine.callbacks.findIdx? (·.key = d.key) with
  | some i => .ok (i, t)
  | none =>
    if d.operation.isExternal then
      .ok (t.machine.callbacks.size, { t with machine := t.machine.addCallback d })
    else
      let (label, names) := t.callbackNames.fresh d.name
      .ok (t.machine.callbacks.size,
        { t with machine := t.machine.addCallback { d with name := label.text }
                 callbackNames := names })

/-- The position of a transform; an equal one is used again. -/
def useTransform (w : Transform) : Translation Nat := fun t =>
  match t.machine.transforms.idxOf? w with
  | some i => .ok (i, t)
  | none => .ok (t.machine.transforms.size, { t with machine := t.machine.addTransform w })

/-- Adds an edge to a state that takes it. -/
def wire (i : Nat) (w : Machine.Wire) : Translation Unit := modify fun t =>
  match t.machine.wire i w with
  | .ok m => { t with machine := m }
  | .error _ => t

def setOtherwise (i : Nat) (f : Machine.Fallback) : Translation Unit := modify fun t =>
  { t with machine := t.machine.setOtherwise i f }

/-- Where a node continues otherwise, by its handle. -/
def fallbackOf (node : Blueprint.Node) : Option Machine.Fallback :=
  node.otherwise.map fun o => ⟨o.target, o.stay, none⟩

/-- Where a key ends that is the beginning of others, by the handle of the node there. -/
def stopOf (stop : Option Leaf) : Option Machine.Fallback :=
  stop.map fun l => ⟨l.target, true, l.value⟩

/-- The edges for returned codes, with the nodes they lead to. -/
def returnWires (node : Blueprint.Node) : List (Nat × (Nat → Machine.Wire)) :=
  node.returns.map fun (code, target) => (target, fun j => .onReturn ⟨code, j⟩)

/-- The edges of a table, one for each target, with the nodes they lead to. -/
def rowWires (rows : List Table.Row) : List (Nat × (Nat → Machine.Wire)) :=
  rows.map fun row => (row.target, fun j => .onTable ⟨row.keys, row.stay, j⟩)

/-! ## Nodes

All that follows is given how nodes are entered, so that it can be part of entering a node. -/

section Node
variable (enter : Nat → Translation Nat)

/-- Adds edges to a state one after the other, each when the node it leads to has been entered. -/
def connect (i : Nat) (edges : List (Nat × (Nat → Machine.Wire))) : Translation Unit :=
  edges.forM fun (target, edge) => do
    let j ← enter target
    wire i (edge j)

/-- Gives a state its otherwise edge, if there is one, when the node it leads to has been
entered. -/
def leadOn (i : Nat) : Option Machine.Fallback → Translation Unit
  | some f => do
    let j ← enter f.target
    setOtherwise i { f with target := j }
  | none => pure ()

section Match
variable (options : Options) (n : Nat) (name : String) (transform : Nat)

mutual

/-- Translates a trie of a node.  The answer is the position of the trie with the positions of all
states made for the node, in order. -/
def translateTrie : Trie → Translation (Nat × List Nat)
  | .leaf l => do
    let j ← enter l.target
    return (j, [])
  | .run bytes next => do
    let i ← addFor n name (.run transform bytes none)
    let (j, own) ← translateTrie next
    wire i (.onRun ⟨j, next.value⟩)
    return (i, i :: own)
  | .branch children stop =>
    match Table.ofChildren options children with
    | .ok rows => do
      let i ← addFor n name (.table transform [])
      connect enter i (rowWires rows)
      leadOn enter i (stopOf stop)
      return (i, [i])
    | .error _ => do
      let i ← addFor n name (.branch transform [])
      let own ← translateChildren i children
      leadOn enter i (stopOf stop)
      return (i, i :: own)

/-- Translates the children of a branch and adds their edges to its state. -/
def translateChildren (i : Nat) : List (UInt8 × Bool × Trie) → Translation (List Nat)
  | [] => return []
  | (byte, stay, child) :: rest => do
    let (j, own) ← translateTrie child
    wire i (.onByte ⟨byte, stay, j, child.value⟩)
    let more ← translateChildren i rest
    return own ++ more

end

end Match

/-- Leads states without an otherwise edge on to where their node continues.  The node there is
entered when the first of them needs it; `known` is its position after that. -/
def fallBack (o : Otherwise) (known : Option Nat) : List Nat → Translation Unit
  | [] => pure ()
  | i :: rest => do
    let t ← get
    if (t.machine.states[i]?.bind (·.otherwise)).isSome then fallBack o known rest
    else
      let j ← known.elim (enter o.target) pure
      setOtherwise i ⟨j, o.stay, none⟩
      fallBack o (some j) rest

variable (b : Blueprint) (options : Options) (groups : List (List Nat))

/-- The position of the callback of a node; a node without one does not read it. -/
def callbackFor (node : Blueprint.Node) : Translation Nat :=
  match b.callbackOf? node with
  | some c => useCallback c
  | none => pure 0

/-- The kind of the state of a node that matches nothing, before it has edges. -/
def bareKind (node : Blueprint.Node) (callback : Nat) : Machine.Kind :=
  match node.kind with
  | .error code reason => .error code reason
  | .pause code reason => .pause code reason
  | .consume field => .consume field
  | .spanStart span => .spanStart ((Allocation.placeOf? groups span).getD 0) callback
  | .spanEnd span => .spanEnd ((Allocation.placeOf? groups span).getD 0) callback
  | .invoke _ => .invoke callback []
  | .matching _ => .empty

/-- Translates a node that matches nothing. -/
def translatePlain (n : Nat) (node : Blueprint.Node) : Translation Nat := do
  let callback ← callbackFor b node
  let i ← addFor n node.name (bareKind groups node callback)
  leadOn enter i (fallbackOf node)
  connect enter i (returnWires node)
  return i

/-- Translates what a matching node matches; one without keys becomes an empty state. -/
def translateParts (n : Nat) (node : Blueprint.Node) (transform : Nat) :
    Translation (Nat × List Nat) :=
  match node.trie with
  | .ok (some t) => translateTrie enter options n node.name transform t
  | _ => do
    let i ← addFor n node.name .empty
    return (i, [i])

/-- Translates a matching node that continues at `o`. -/
def translateMatch (n : Nat) (node : Blueprint.Node) (word : Option String) (o : Otherwise) :
    Translation Nat := do
  let transform ← useTransform ((Blueprint.transformOf? word).getD .identity)
  let (i, own) ← translateParts enter options n node transform
  fallBack enter o none own
  return i

/-- Translates a node that has not been entered, unless it has a defect. -/
def visit (n : Nat) : Translation Nat :=
  match b.nodes[n]? with
  | none => throw .unknownHandle
  | some node =>
    match b.defect? groups ⟨node, node.trie⟩, node.kind, node.otherwise with
    | some e, _, _ => throw e
    | none, .matching word, some o => translateMatch enter options n node word o
    | none, .matching _, none => throw (.missingOtherwise node.name)
    | none, _, _ => translatePlain enter b groups n node

end Node

/-! ## The memo -/

section Blueprint
variable (b : Blueprint) (options : Options) (groups : List (List Nat))

/-- **The memoised translation of a node**: a node that was entered before is not translated
again.  Not more than `depth` nodes may be under way at once. -/
def translate : (depth : Nat) → Nat → Translation Nat
  | depth, n => do
    match (← get).memo.lookup n with
    | some i => return i
    | none =>
      match depth with
      | 0 => throw .unknownHandle
      | depth + 1 => visit (translate depth) b options groups n

/-- The callbacks of the spans that share each place. -/
def assignPlaces : Translation (List (List Nat)) :=
  groups.mapM fun group => (group.filterMap b.spanCallback?).mapM useCallback

/-- **A whole translation**: the spans get their places first, and then the root is entered.  The
answer is the callbacks of the spans at each place and the position of the root. -/
def translation (root : Nat) : Translation (List (List Nat) × Nat) := do
  let places ← assignPlaces b groups
  let entry ← translate b options groups (b.nodes.size + 1) root
  return (places, entry)

end Blueprint

/-! ## In step with an assembly -/

theorem bind_of_ok {α β : Type} {x : Translation α} {f : α → Translation β} {t t' : Translator}
    {r : α} (h : x t = .ok (r, t')) : (x >>= f) t = f r t' := by
  show (x t >>= fun p => f p.1 p.2) = _
  rw [h]
  rfl

theorem bind_of_error {α β : Type} {x : Translation α} {f : α → Translation β} {t : Translator}
    {e : CompileError} (h : x t = .error e) : (x >>= f) t = .error e := by
  show (x t >>= fun p => f p.1 p.2) = _
  rw [h]
  rfl

theorem bind_get {β : Type} (f : Translator → Translation β) (t : Translator) :
    (get >>= f) t = f t t := rfl

/-- **States and sites are in step**: the states have the names of the sites in their order, and
the memo says where nodes are entered. -/
structure Counted (a : Assembly) (made : List Site) (t : Translator) : Prop where
  labels : t.machine.states.toList.map (·.label) = (a.upTo made).labels
  names : t.stateNames = Names.after { stem := a.stem ++ "__n_" } (made.map a.nameOf)
  memo : ∀ n, t.memo.lookup n = (a.upTo made).memo? n

/-- **The callbacks are those of a list**, each once and named in order. -/
structure Named (stem : String) (cs : List (Callback Bool)) (t : Translator) : Prop where
  callbacks : t.machine.callbacks.toList =
    Assembly.nameCallbacks { stem := stem ++ "__c_" } (Callback.distinct cs)
  names : t.callbackNames =
    Names.after { stem := stem ++ "__c_" } (Assembly.fieldNames (Callback.distinct cs))

/-- **Callbacks and transforms are those of the nodes entered so far.** -/
structure Referred (a : Assembly) (made : List Site) (t : Translator) : Prop where
  named : Named a.stem ((a.upTo made).declared.map Callback.resolve) t
  transforms : t.machine.transforms.toList = (a.upTo made).transforms

section Steps
variable {a : Assembly} {made : List Site} {t : Translator}

theorem Counted.size (h : Counted a made t) : t.machine.states.size = made.length := by
  have hlength := congrArg List.length h.labels
  rw [List.length_map, Assembly.length_labels] at hlength
  exact hlength

/-- Callbacks and transforms do not matter to the states. -/
theorem Counted.congr {t' : Translator} (h : Counted a made t)
    (hstates : t'.machine.states = t.machine.states) (hmemo : t'.memo = t.memo)
    (hnames : t'.stateNames = t.stateNames) : Counted a made t' :=
  ⟨by rw [hstates, h.labels], by rw [hnames, h.names], by rw [hmemo]; exact h.memo⟩

/-- The label of the next state. -/
theorem Counted.labels_append (h : Counted a made t) (s : Site) :
    (a.upTo (made ++ [s])).labels =
      (a.upTo made).labels ++ [(t.stateNames.fresh (a.nameOf s)).1] := by
  rw [Assembly.labels_eq, Assembly.labels_eq, List.map_append, Names.freshAll_append, h.names]
  rfl

/-- A new state takes the next name. -/
theorem Counted.push (h : Counted a made t) (s : Site) (kind : Machine.Kind) :
    (t.push (a.nameOf s) kind).machine.states.toList.map (·.label) =
        (a.upTo (made ++ [s])).labels ∧
      (t.push (a.nameOf s) kind).stateNames =
        Names.after { stem := a.stem ++ "__n_" } ((made ++ [s]).map a.nameOf) := by
  constructor
  · rw [h.labels_append, ← h.labels]
    simp [Translator.push, Machine.addState]
  · rw [List.map_append, Names.after_append, ← h.names]
    rfl

@[simp]
theorem remember_machine (t : Translator) (n i : Nat) : (t.remember n i).machine = t.machine := by
  unfold remember
  split <;> rfl

@[simp]
theorem remember_stateNames (t : Translator) (n i : Nat) :
    (t.remember n i).stateNames = t.stateNames := by
  unfold remember
  split <;> rfl

@[simp]
theorem remember_callbackNames (t : Translator) (n i : Nat) :
    (t.remember n i).callbackNames = t.callbackNames := by
  unfold remember
  split <;> rfl

theorem lookup_remember (t : Translator) (n i m : Nat) :
    (t.remember n i).memo.lookup m =
      if m = n then some ((t.memo.lookup n).getD i) else t.memo.lookup m := by
  unfold remember
  cases hn : t.memo.lookup n with
  | some j =>
    by_cases hmn : m = n
    · simp [hmn, hn]
    · simp [hmn]
  | none =>
    by_cases hmn : m = n
    · simp [hmn]
    · have hbeq : (m == n) = false := beq_eq_false_iff_ne.mpr hmn
      simp [hmn, List.lookup_cons, hbeq]

/-- **A state for a site**: it takes the next position and the next name, and the memo stays
right. -/
theorem Counted.addFor (h : Counted a made t) {s : Site} (hs : s ∉ made)
    (hentered : s.path ≠ [] → Site.entry s.node ∈ made) (kind : Machine.Kind) :
    Counted a (made ++ [s])
      ((t.push (a.nameOf s) kind).remember s.node t.machine.states.size) := by
  obtain ⟨hlabels, hnames⟩ := h.push s kind
  refine ⟨?_, ?_, fun m => ?_⟩
  · rw [remember_machine]
    exact hlabels
  · rw [remember_stateNames]
    exact hnames
  · have hmemo : ∀ m, (t.push (a.nameOf s) kind).memo.lookup m = (a.upTo made).memo? m := h.memo
    rw [lookup_remember, hmemo, hmemo]
    by_cases hpath : s.path = []
    · obtain ⟨n, path⟩ := s
      obtain rfl : path = [] := hpath
      have hnone : (a.upTo made).memo? n = none := by
        rw [Assembly.memo?_upTo]
        exact if_neg hs
      refine Eq.trans ?_ (Assembly.memo?_append_entry hs m).symm
      show (if m = n then some (((a.upTo made).memo? n).getD _) else _) = _
      rw [hnone, h.size]
      rfl
    · rw [Assembly.memo?_append_of_path made hpath, Assembly.memo?_upTo a made s.node,
        if_pos (hentered hpath)]
      by_cases hm : m = s.node
      · subst hm
        rw [if_pos rfl, Assembly.memo?_upTo, if_pos (hentered hpath)]
        rfl
      · rw [if_neg hm]

end Steps

/-! ## Callbacks -/

section Callbacks
variable {stem : String} {cs : List (Callback Bool)} {t : Translator}

theorem Named.mem_map_key (h : Named stem cs t) {k : String} :
    k ∈ t.machine.callbacks.toList.map Callback.key ↔ k ∈ cs.map Callback.key := by
  rw [h.callbacks, Assembly.map_key_nameCallbacks, Callback.mem_map_key_distinct]

/-- A callback that is known is used again. -/
theorem useCallback_of_mem {c : Callback (Option Bool)}
    (hc : c.resolve.key ∈ t.machine.callbacks.toList.map Callback.key) :
    useCallback c t = .ok (Assembly.callbackIndex t.machine.callbacks.toList c, t) := by
  obtain ⟨d, hd, hkey⟩ := List.mem_map.mp hc
  have hlt : Assembly.callbackIndex t.machine.callbacks.toList c <
      t.machine.callbacks.toList.length :=
    List.findIdx_lt_length_of_exists ⟨d, hd, by simpa using hkey⟩
  have hfound : t.machine.callbacks.findIdx? (·.key = c.resolve.key) =
      some (Assembly.callbackIndex t.machine.callbacks.toList c) :=
    (List.findIdx?_toArray _ t.machine.callbacks.toList).trans
      (List.findIdx?_eq_some_iff_findIdx_eq.mpr ⟨hlt, rfl⟩)
  rw [useCallback]
  dsimp only
  rw [hfound]

/-- A new callback comes last, under a name of its own if it is an operation on a field. -/
theorem useCallback_of_not_mem {c : Callback (Option Bool)}
    (hc : c.resolve.key ∉ t.machine.callbacks.toList.map Callback.key) :
    ∃ d names, useCallback c t =
        .ok (t.machine.callbacks.size,
          { t with machine := t.machine.addCallback d, callbackNames := names }) ∧
      Assembly.nameCallbacks t.callbackNames [c.resolve] = [d] ∧
      t.callbackNames.after (Assembly.fieldNames [c.resolve]) = names := by
  have hnone : t.machine.callbacks.findIdx? (·.key = c.resolve.key) = none := by
    refine (List.findIdx?_toArray _ t.machine.callbacks.toList).trans ?_
    rw [List.findIdx?_eq_none_iff]
    intro d hd
    exact decide_eq_false fun hkey => hc (List.mem_map.mpr ⟨d, hd, hkey⟩)
  unfold useCallback
  dsimp only
  rw [hnone]
  by_cases hexternal : c.resolve.operation.isExternal = true
  · refine ⟨c.resolve, t.callbackNames, if_pos hexternal, if_pos hexternal, ?_⟩
    rw [Assembly.fieldNames, List.filter_cons_of_neg (by simp [hexternal])]
    rfl
  · refine ⟨_, _, if_neg hexternal, if_neg hexternal, ?_⟩
    rw [Assembly.fieldNames, List.filter_cons_of_pos (by simp [hexternal])]
    rfl

/-- Replaces the callbacks and the names handed out to them. -/
def withCallbacks (t : Translator) (ds : Array (Callback Bool)) (names : Names) : Translator :=
  { t with machine := { t.machine with callbacks := ds }, callbackNames := names }

/-- **A callback is used**: it stands under its key, at the place that it keeps. -/
theorem Named.useCallback (h : Named stem cs t) (c : Callback (Option Bool)) :
    ∃ ds names, Translator.useCallback c t =
        .ok (Assembly.callbackIndex ds.toList c, t.withCallbacks ds names) ∧
      Named stem (cs ++ [c.resolve]) (t.withCallbacks ds names) ∧
      c.resolve.key ∈ ds.toList.map Callback.key ∧ t.machine.callbacks.toList <+: ds.toList := by
  by_cases hknown : c.resolve.key ∈ cs.map Callback.key
  · have hmem := h.mem_map_key.mpr hknown
    refine ⟨t.machine.callbacks, t.callbackNames, useCallback_of_mem hmem, ?_, hmem,
      List.prefix_refl _⟩
    constructor
    · rw [Callback.distinct_append_singleton, if_pos hknown, List.append_nil]
      exact h.callbacks
    · rw [Callback.distinct_append_singleton, if_pos hknown, List.append_nil]
      exact h.names
  · have hmem := fun hmem => hknown (h.mem_map_key.mp hmem)
    obtain ⟨d, names, huse, hd, hnames⟩ := useCallback_of_not_mem hmem
    have hkey : d.key = c.resolve.key := by
      have hkeys := Assembly.map_key_nameCallbacks t.callbackNames [c.resolve]
      rw [hd] at hkeys
      exact (List.cons.inj hkeys).1
    have hlength : Assembly.callbackIndex t.machine.callbacks.toList c =
        t.machine.callbacks.toList.length := by
      refine List.findIdx_eq_length.mpr fun e he => ?_
      exact decide_eq_false fun hkey => hmem (List.mem_map.mpr ⟨e, he, hkey⟩)
    -- the new callback is the first with its key
    have hindex : t.machine.callbacks.size =
        Assembly.callbackIndex (t.machine.callbacks.push d).toList c := by
      rw [Assembly.callbackIndex] at hlength
      rw [Array.toList_push, Assembly.callbackIndex, List.findIdx_append, hlength]
      simp [List.findIdx_cons, hkey]
    refine ⟨t.machine.callbacks.push d, names, ?_, ⟨?_, ?_⟩, ?_, ?_⟩
    · rw [← hindex]
      exact huse
    · rw [Callback.distinct_append_singleton, if_neg hknown, Assembly.nameCallbacks_append,
        ← h.names, hd, ← h.callbacks]
      exact Array.toList_push
    · rw [Callback.distinct_append_singleton, if_neg hknown, Assembly.fieldNames_append,
        Names.after_append, ← h.names, hnames]
      rfl
    · rw [Array.toList_push, List.map_append]
      exact List.mem_append_right _ (by simp [hkey])
    · rw [Array.toList_push]
      exact List.prefix_append _ _

end Callbacks

/-! ## Transforms -/

/-- **A transform is used**: it stands at the place that it keeps. -/
theorem useTransform_eq {t : Translator} {ws : List Transform}
    (h : t.machine.transforms.toList = ws.eraseDups) (w : Transform) :
    ∃ vs : Array Transform, useTransform w t =
        .ok (vs.toList.idxOf w, { t with machine := { t.machine with transforms := vs } }) ∧
      vs.toList = (ws ++ [w]).eraseDups ∧ w ∈ vs.toList := by
  rw [List.eraseDups_append, ← h]
  by_cases hw : w ∈ t.machine.transforms.toList
  · have hmem : w ∈ ws := List.mem_eraseDups.mp (h ▸ hw)
    have hfound : t.machine.transforms.idxOf? w = some (t.machine.transforms.toList.idxOf w) := by
      rw [← Array.idxOf?_toList]
      exact List.findIdx?_eq_some_iff_findIdx_eq.mpr ⟨List.idxOf_lt_length_of_mem hw, rfl⟩
    refine ⟨t.machine.transforms, ?_, ?_, hw⟩
    · rw [useTransform, hfound]
    · simp [List.removeAll, hmem]
  · have hmem : w ∉ ws := fun hmem => hw (h ▸ List.mem_eraseDups.mpr hmem)
    have hnone : t.machine.transforms.idxOf? w = none := by
      rw [← Array.idxOf?_toList]
      exact List.idxOf?_eq_none_iff.mpr hw
    refine ⟨t.machine.transforms.push w, ?_, ?_, ?_⟩
    · rw [useTransform, hnone, Array.toList_push, List.idxOf_append_of_notMem hw]
      simp [Machine.addTransform]
    · simp [List.removeAll, hmem]
      rfl
    · simp

/-! ## Nodes that are entered -/

section Entered
variable {a : Assembly} {made : List Site} {t : Translator}

theorem Named.congr {stem : String} {cs : List (Callback Bool)} {t' : Translator}
    (h : Named stem cs t) (hc : t'.machine.callbacks = t.machine.callbacks)
    (hn : t'.callbackNames = t.callbackNames) : Named stem cs t' :=
  ⟨by rw [hc, h.callbacks], by rw [hn, h.names]⟩

/-- States do not matter to what is referred to. -/
theorem Referred.congr {t' : Translator} (h : Referred a made t)
    (hc : t'.machine.callbacks = t.machine.callbacks)
    (ht : t'.machine.transforms = t.machine.transforms)
    (hn : t'.callbackNames = t.callbackNames) : Referred a made t' :=
  ⟨h.named.congr hc hn, by rw [ht, h.transforms]⟩

/-- A site that brings no callback and no transform. -/
theorem Referred.keep (h : Referred a made t) {s : Site}
    (hc : (a.upTo [s]).nodes.filterMap a.blueprint.callbackOf? = [])
    (hw : (a.upTo [s]).nodes.filterMap Assembly.usedTransform? = []) :
    Referred a (made ++ [s]) t := by
  constructor
  · rw [Assembly.declared_append, hc, List.append_nil]
    exact h.named
  · rw [Assembly.transforms_eq, Assembly.nodes_append, List.filterMap_append, hw, List.append_nil]
    exact h.transforms

/-- The callback of a node that is entered. -/
theorem Referred.useCallback (h : Referred a made t) {s : Site} {c : Callback (Option Bool)}
    (hc : (a.upTo [s]).nodes.filterMap a.blueprint.callbackOf? = [c])
    (hw : (a.upTo [s]).nodes.filterMap Assembly.usedTransform? = []) :
    ∃ t', Translator.useCallback c t =
        .ok (Assembly.callbackIndex t'.machine.callbacks.toList c, t') ∧
      Referred a (made ++ [s]) t' ∧ c.resolve.key ∈ t'.machine.callbacks.toList.map Callback.key ∧
      t'.machine.states = t.machine.states ∧ t'.memo = t.memo ∧ t'.stateNames = t.stateNames := by
  obtain ⟨ds, names, huse, hnamed, hkey, -⟩ := h.named.useCallback c
  refine ⟨t.withCallbacks ds names, huse, ⟨?_, ?_⟩, hkey, rfl, rfl, rfl⟩
  · rw [Assembly.declared_append, hc, List.map_append]
    exact hnamed
  · rw [Assembly.transforms_eq, Assembly.nodes_append, List.filterMap_append, hw, List.append_nil]
    exact h.transforms

/-- The transform of a node that is entered. -/
theorem Referred.useTransform (h : Referred a made t) {s : Site} {w : Transform}
    (hc : (a.upTo [s]).nodes.filterMap a.blueprint.callbackOf? = [])
    (hw : (a.upTo [s]).nodes.filterMap Assembly.usedTransform? = [w]) :
    ∃ t', Translator.useTransform w t = .ok (t'.machine.transforms.toList.idxOf w, t') ∧
      Referred a (made ++ [s]) t' ∧ w ∈ t'.machine.transforms.toList ∧
      t'.machine.states = t.machine.states ∧ t'.memo = t.memo ∧ t'.stateNames = t.stateNames := by
  obtain ⟨vs, huse, hvs, hmem⟩ := useTransform_eq h.transforms w
  refine ⟨{ t with machine := { t.machine with transforms := vs } }, huse, ⟨?_, ?_⟩, hmem, rfl,
    rfl, rfl⟩
  · rw [Assembly.declared_append, hc, List.append_nil]
    exact h.named.congr rfl rfl
  · rw [Assembly.transforms_eq, Assembly.nodes_append, List.filterMap_append, hw]
    exact hvs

end Entered

/-! ## Edges -/

/-- Replaces a state. -/
def put (t : Translator) (i : Nat) (st : Machine.State) : Translator :=
  { t with machine := { t.machine with states := t.machine.states.setIfInBounds i st } }

section Edges
variable {a : Assembly} {made : List Site} {t : Translator} {i : Nat} {st st' : Machine.State}

theorem states_put (hst : t.machine.states[i]? = some st) (k : Nat) :
    (t.put i st').machine.states[k]? = if k = i then some st' else t.machine.states[k]? := by
  have hlt := (Array.getElem?_eq_some_iff.mp hst).1
  show (t.machine.states.setIfInBounds i st')[k]? = _
  rw [Array.getElem?_setIfInBounds]
  by_cases hk : i = k
  · subst hk
    rw [if_pos rfl, if_pos hlt, if_pos rfl]
  · rw [if_neg hk, if_neg (Ne.symm hk)]

theorem wire_eq {w : Machine.Wire} (hst : t.machine.states[i]? = some st)
    (hw : st.wire w = .ok st') : wire i w t = .ok ((), t.put i st') := by
  have hmachine : t.machine.wire i w =
      .ok { t.machine with states := t.machine.states.setIfInBounds i st' } := by
    rw [Machine.wire, hst]
    dsimp only
    rw [hw]
    rfl
  show Except.ok ((), match t.machine.wire i w with
    | .ok m => { t with machine := m }
    | .error _ => t) = _
  rw [hmachine]
  rfl

theorem setOtherwise_eq {f : Machine.Fallback} (hst : t.machine.states[i]? = some st) :
    setOtherwise i f t = .ok ((), t.put i { st with otherwise := some f }) := by
  have hstates : t.machine.states.modify i (fun s => { s with otherwise := some f }) =
      t.machine.states.setIfInBounds i { st with otherwise := some f } := by
    apply Array.ext_getElem?
    intro k
    rw [Array.getElem?_modify, Array.getElem?_setIfInBounds]
    by_cases hk : i = k
    · subst hk
      rw [if_pos rfl, if_pos rfl, if_pos (Array.getElem?_eq_some_iff.mp hst).1, hst]
      rfl
    · rw [if_neg hk, if_neg hk]
  show Except.ok ((), { t with machine := { t.machine with states := _ } }) = _
  rw [hstates]
  rfl

/-- An edge leaves the name of a state alone. -/
theorem label_wire {w : Machine.Wire} (h : st.wire w = .ok st') : st'.label = st.label := by
  unfold Machine.State.wire at h
  split at h <;> cases h <;> rfl

theorem Counted.put (h : Counted a made t) (hst : t.machine.states[i]? = some st)
    (hlabel : st'.label = st.label) : Counted a made (t.put i st') := by
  refine ⟨?_, h.names, h.memo⟩
  rw [← h.labels]
  apply List.ext_getElem?
  intro k
  have hput : (t.put i st').machine.states[k]? =
      if k = i then some st' else t.machine.states[k]? := states_put hst k
  rw [← Array.getElem?_toList] at hput
  rw [List.getElem?_map, List.getElem?_map, hput, Array.getElem?_toList]
  by_cases hk : k = i
  · subst hk
    rw [if_pos rfl, hst, Option.map_some, Option.map_some, hlabel]
  · rw [if_neg hk]

theorem Referred.put (h : Referred a made t) (i : Nat) (st : Machine.State) :
    Referred a made (t.put i st) := h.congr rfl rfl rfl

end Edges

end Translator
end ByteMachine
