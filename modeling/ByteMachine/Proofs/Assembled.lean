import ByteMachine.Compile.Pipeline
import ByteMachine.Proofs.CallbackKeys
import ByteMachine.Proofs.Sites

/-! # The states of an assembly

`Node.Flaw` says what can keep a node from becoming states, and a blueprint is **flawless**
from a root when all nodes that can be reached exist and have no flaw.  That is exactly when
the assembly has no defect (`defect?_assembly_eq_none_iff`), and then every state has the
edges that it needs (`complete_eq_ok_iff`).

The state of a site stands at the position of the site (`state_of_mem`, `site_of_state`), and
positions tell sites apart.  An assembly made from a flawless blueprint is **regular**: its
sites are all parts of the nodes that can be reached, and its states refer to the callbacks
and transforms of their nodes. -/
namespace ByteMachine

namespace Blueprint

/-- What keeps a node from becoming states, as the error that says so. -/
inductive Node.Flaw (b : Blueprint) (groups : List (List Nat)) (node : Node) : CompileError → Prop
  | missingOtherwise (herror : node.isError = false) (hnone : node.otherwise = none) :
      Flaw b groups node (.missingOtherwise node.name)
  | unsupportedTransform {word : String} (hkind : node.kind = .matching (some word))
      (hword : Transform.ofWord? word = none) :
      Flaw b groups node (.unsupportedTransform word node.name)
  | trie {word : Option String} {cause : Trie.BuildError} (hkind : node.kind = .matching word)
      (htrie : node.trie = .error cause) : Flaw b groups node (.trie node.name cause)
  | spanCallbackInvoked {c : Nat} {f : Callback (Option Bool)} (hkind : node.kind = .invoke c)
      (hc : b.callbacks[c]? = some f) (hf : f.signature = .span) :
      Flaw b groups node (.spanCallbackInvoked f.name node.name)
  | unallocatedSpan {span : Nat} (hspan : node.span? = some span)
      (hplace : Allocation.placeOf? groups span = none) :
      Flaw b groups node (.unallocatedSpan node.name)
  | unknownSpan {span : Nat} (hspan : node.span? = some span) (hc : b.spanCallback? span = none) :
      Flaw b groups node .unknownHandle
  | unknownCallback {c : Nat} (hkind : node.kind = .invoke c) (hc : b.callbacks[c]? = none) :
      Flaw b groups node .unknownHandle

/-- Nothing keeps the node from becoming states. -/
def Node.Fit (b : Blueprint) (groups : List (List Nat)) (node : Node) : Prop :=
  ∀ e, ¬ node.Flaw b groups e

section Defect
variable {b : Blueprint} {groups : List (List Nat)} {node : Node}

/-- A defect is a flaw of the node. -/
theorem flaw_of_defect? {e : CompileError} (h : b.defect? groups ⟨node, node.trie⟩ = some e) :
    node.Flaw b groups e := by
  unfold defect? at h
  dsimp only at h
  split at h
  · rename_i hmissing
    rw [Bool.and_eq_true, Bool.not_eq_true', Option.isNone_iff_eq_none] at hmissing
    obtain rfl := Option.some.inj h
    exact .missingOtherwise hmissing.1 hmissing.2
  · -- the start and the end of a span are checked alike
    have hspan : ∀ {span : Nat}, node.span? = some span →
        (if (Allocation.placeOf? groups span).isNone = true then
            some (CompileError.unallocatedSpan node.name)
          else if (b.spanCallback? span).isNone = true then some CompileError.unknownHandle
          else none) = some e → node.Flaw b groups e := by
      intro span hspan h
      split at h
      · rename_i hplace
        obtain rfl := Option.some.inj h
        exact .unallocatedSpan hspan (Option.isNone_iff_eq_none.mp hplace)
      · split at h
        · rename_i hc
          obtain rfl := Option.some.inj h
          exact .unknownSpan hspan (Option.isNone_iff_eq_none.mp hc)
        · cases h
    split at h
    · rename_i word hkind
      split at h
      · rename_i hword
        obtain rfl := Option.some.inj h
        cases word with
        | none => cases hword
        | some word => exact .unsupportedTransform hkind hword
      · rename_i cause _ htrie
        obtain rfl := Option.some.inj h
        exact .trie hkind htrie
      · cases h
    · rename_i span hkind
      exact hspan (by rw [Node.span?, hkind]) h
    · rename_i span hkind
      exact hspan (by rw [Node.span?, hkind]) h
    · rename_i c hkind
      split at h
      · rename_i hc
        obtain rfl := Option.some.inj h
        exact .unknownCallback hkind hc
      · rename_i f hc
        split at h
        · rename_i hf
          obtain rfl := Option.some.inj h
          exact .spanCallbackInvoked hkind hc hf
        · cases h
    · cases h

/-- A flaw, this one or another, is a defect. -/
theorem fit_of_defect? (h : b.defect? groups ⟨node, node.trie⟩ = none) : node.Fit b groups := by
  unfold defect? at h
  dsimp only at h
  split at h
  · cases h
  · rename_i hmissing
    have hclear : ∀ {span : Nat}, node.span? = some span →
        Allocation.placeOf? groups span ≠ none ∧ b.spanCallback? span ≠ none := by
      intro span hspan
      have hchecks : (if (Allocation.placeOf? groups span).isNone = true then
            some (CompileError.unallocatedSpan node.name)
          else if (b.spanCallback? span).isNone = true then some CompileError.unknownHandle
          else none) = none := by
        rcases Node.span?_eq_some_iff.mp hspan with hkind | hkind <;> simpa only [hkind] using h
      split at hchecks
      · cases hchecks
      · rename_i hplace
        split at hchecks
        · cases hchecks
        · rename_i hc
          exact ⟨by simpa using hplace, by simpa using hc⟩
    -- the checks come in order, but all of them were passed
    intro e hflaw
    cases hflaw with
    | missingOtherwise herror hnone => simp [herror, hnone] at hmissing
    | unsupportedTransform hkind hword => simp [hkind, transformOf?, hword] at h
    | @trie word cause hkind htrie =>
      rw [hkind] at h
      cases hword : transformOf? word with
      | none => simp [hword] at h
      | some t => simp [hword, htrie] at h
    | spanCallbackInvoked hkind hc hf => simp [hkind, hc, hf] at h
    | unallocatedSpan hspan hplace => exact (hclear hspan).1 hplace
    | unknownSpan hspan hc => exact (hclear hspan).2 hc
    | unknownCallback hkind hc => simp [hkind, hc] at h

theorem defect?_eq_none_iff : b.defect? groups ⟨node, node.trie⟩ = none ↔ node.Fit b groups := by
  refine ⟨fit_of_defect?, fun hfit => ?_⟩
  cases h : b.defect? groups ⟨node, node.trie⟩ with
  | none => rfl
  | some e => exact absurd (flaw_of_defect? h) (hfit e)

section Fit
variable (hfit : node.Fit b groups)
include hfit

theorem Node.Fit.continues (herror : node.isError = false) : ∃ o, node.otherwise = some o :=
  Option.ne_none_iff_exists'.mp fun hnone => hfit _ (.missingOtherwise herror hnone)

theorem Node.Fit.trie : ∃ t, node.trie = .ok t := by
  cases h : node.trie with
  | ok t => exact ⟨t, rfl⟩
  | error cause =>
    unfold Node.trie at h
    split at h
    · rename_i word hkind
      exact absurd (Flaw.trie hkind (by rw [Node.trie, hkind]; exact h)) (hfit _)
    · cases h

theorem Node.Fit.transform {word : Option String} (hkind : node.kind = .matching word) :
    ∃ t, transformOf? word = some t := by
  cases word with
  | none => exact ⟨_, rfl⟩
  | some word =>
    exact Option.ne_none_iff_exists'.mp fun hword => hfit _ (.unsupportedTransform hkind hword)

theorem Node.Fit.place {span : Nat} (hspan : node.span? = some span) :
    ∃ p, Allocation.placeOf? groups span = some p :=
  Option.ne_none_iff_exists'.mp fun hplace => hfit _ (.unallocatedSpan hspan hplace)

theorem Node.Fit.spanCallback {span : Nat} (hspan : node.span? = some span) :
    ∃ c, b.spanCallback? span = some c :=
  Option.ne_none_iff_exists'.mp fun hc => hfit _ (.unknownSpan hspan hc)

theorem Node.Fit.callback {c : Nat} (hkind : node.kind = .invoke c) :
    ∃ f, b.callbacks[c]? = some f :=
  Option.ne_none_iff_exists'.mp fun hc => hfit _ (.unknownCallback hkind hc)

end Fit

end Defect

/-- All nodes that can be reached exist, and nothing keeps them from becoming states. -/
def Flawless (b : Blueprint) (groups : List (List Nat)) (root : Nat) : Prop :=
  ∀ n, b.digraph.Reaches root n → ∃ node, b.nodes[n]? = some node ∧ node.Fit b groups

section Assembly
variable {b : Blueprint} {options : Options} {groups : List (List Nat)} {stem : String} {root : Nat}

theorem Flawless.whole (h : b.Flawless groups root) : Outline.Whole b root := by
  intro s hs
  obtain ⟨node, hn, hfit⟩ := h s.node (Outline.reaches_node (Outline.mem_sites.mp hs))
  obtain ⟨t, ht⟩ := hfit.trie
  exact ⟨node, t, hn, ht⟩

theorem defect?_site {s : Site} {node : Node} (hn : b.nodes[s.node]? = some node) :
    (Outline.ofBlueprint b).defect? b groups s = b.defect? groups ⟨node, node.trie⟩ := by
  rw [Outline.defect?, Outline.ofBlueprint_getElem?, hn]
  rfl

/-- **An assembly has no defect** exactly when the blueprint is flawless. -/
theorem defect?_assembly_eq_none_iff (hb : b.Sound) :
    (b.assembly options groups stem root).defect? = none ↔ b.Flawless groups root := by
  have hnone : (b.assembly options groups stem root).defect? = none ↔
      ∀ s ∈ (Outline.ofBlueprint b).sites root,
        (Outline.ofBlueprint b).defect? b groups s = none := List.findSome?_eq_none_iff
  rw [hnone]
  constructor
  · intro h
    have hsite : ∀ s ∈ (Outline.ofBlueprint b).sites root,
        ∃ node, b.nodes[s.node]? = some node ∧ node.Fit b groups := by
      intro s hs
      cases hn : b.nodes[s.node]? with
      | none =>
        have := h s hs
        rw [Outline.defect?, Outline.ofBlueprint_getElem?, hn] at this
        cases this
      | some node => exact ⟨node, rfl, defect?_eq_none_iff.mp (defect?_site hn ▸ h s hs)⟩
    have hwhole : Outline.Whole b root := by
      intro s hs
      obtain ⟨node, hn, hfit⟩ := hsite s hs
      obtain ⟨t, ht⟩ := hfit.trie
      exact ⟨node, t, hn, ht⟩
    intro n hn
    exact hsite _ (Outline.mem_sites.mpr (Outline.reaches_entry_of_reaches hb hwhole hn))
  · intro h s hs
    obtain ⟨node, hn, hfit⟩ := h s.node (Outline.reaches_node (Outline.mem_sites.mp hs))
    rw [defect?_site hn]
    exact defect?_eq_none_iff.mpr hfit

end Assembly

end Blueprint

/-! ## States and their positions -/

theorem Names.length_freshAll (names : Names) (origins : List String) :
    (names.freshAll origins).length = origins.length := by
  induction origins generalizing names with
  | nil => rfl
  | cons origin origins ih => rw [freshAll, List.length_cons, ih, List.length_cons]

namespace Assembly

section Positions
variable (a : Assembly)

theorem length_labels : a.labels.length = a.sites.length := by
  rw [labels, Names.length_freshAll, List.length_map]

theorem size_states : a.machine.states.size = a.sites.length := by
  simp [machine, length_labels]

theorem machine_states_getElem? (i : Nat) :
    a.machine.states[i]? =
      a.sites[i]?.bind fun s => a.labels[i]?.map (a.state a.callbacks a.transforms s) := by
  simp only [machine, List.getElem?_toArray, List.getElem?_zipWith]
  cases a.sites[i]? <;> cases a.labels[i]? <;> rfl

variable {a}

/-- The position of a site holds its state. -/
theorem state_of_mem {s : Site} (hs : s ∈ a.sites) :
    ∃ label, a.machine.states[a.position s]? = some (a.state a.callbacks a.transforms s label) := by
  have hlt : a.position s < a.sites.length := List.idxOf_lt_length_of_mem hs
  have hsite : a.sites[a.position s]? = some s := by
    rw [List.getElem?_eq_getElem hlt]
    exact congrArg some (List.getElem_idxOf hlt)
  have hlabel : a.position s < a.labels.length := a.length_labels ▸ hlt
  refine ⟨a.labels[a.position s], ?_⟩
  rw [machine_states_getElem?, hsite, List.getElem?_eq_getElem hlabel]
  rfl

/-- Every state is that of a site. -/
theorem site_of_state (hnodup : a.sites.Nodup) {i : Nat} {state : Machine.State}
    (h : a.machine.states[i]? = some state) :
    ∃ s ∈ a.sites, a.position s = i ∧
      ∃ label, state = a.state a.callbacks a.transforms s label := by
  rw [machine_states_getElem?] at h
  obtain ⟨s, hs, h⟩ := Option.bind_eq_some_iff.mp h
  obtain ⟨label, -, rfl⟩ := Option.map_eq_some_iff.mp h
  obtain ⟨hlt, hget⟩ := List.getElem?_eq_some_iff.mp hs
  refine ⟨s, List.mem_of_getElem? hs, ?_, label, rfl⟩
  rw [position, ← hget]
  exact hnodup.idxOf_getElem i hlt

theorem position_inj {s s' : Site} (hs : s ∈ a.sites) (h : a.position s = a.position s') :
    s = s' := (List.idxOf_inj hs).mp h

end Positions

end Assembly

/-- The assembly of a blueprint that obeys the rules and is flawless from the root. -/
structure Assembly.Regular (a : Assembly) (b : Blueprint) (groups : List (List Nat)) (root : Nat) :
    Prop where
  sound : b.Sound
  flawless : b.Flawless groups root
  blueprint : a.blueprint = b
  outline : a.outline = Outline.ofBlueprint b
  groups : a.groups = groups
  sites : a.sites = (Outline.ofBlueprint b).sites root

theorem Blueprint.Flawless.regular {b : Blueprint} {groups : List (List Nat)} {root : Nat}
    (hb : b.Sound) (h : b.Flawless groups root) (options : Options) (stem : String) :
    (b.assembly options groups stem root).Regular b groups root :=
  ⟨hb, h, rfl, rfl, rfl, rfl⟩

namespace Assembly

/-! ## Every state has its edges -/

/-- A node that says where it continues becomes states that do. -/
theorem exists_otherwise (a : Assembly) {node : Blueprint.Node} {o : Otherwise}
    (ho : node.otherwise = some o) (part : Option Trie) : ∃ f, a.otherwise node part = some f := by
  unfold otherwise
  split
  · exact ⟨_, rfl⟩
  · rw [ho]
    exact ⟨_, rfl⟩

/-- A run has its edge. -/
theorem kind_ne_run_none (a : Assembly) (callbacks : List (Callback Bool))
    (transforms : List Transform) (s : Site) (node : Blueprint.Node) (part : Option Trie)
    (transform : Nat) (bytes : List UInt8) :
    a.kind callbacks transforms s node part ≠ .run transform bytes none := by
  cases hkind : node.kind with
  | matching word =>
    simp only [kind, hkind]
    cases part with
    | none => nofun
    | some t =>
      cases t with
      | leaf l => nofun
      | branch children stop =>
        dsimp only
        rw [trieKind]
        split <;> nofun
      | run bytes next => nofun
  | _ => simp [kind, hkind]

namespace Regular

section
variable {a : Assembly} {b : Blueprint} {groups : List (List Nat)} {root : Nat}
variable (h : a.Regular b groups root)
include h

theorem nodup : a.sites.Nodup := h.sites ▸ Digraph.nodup_preorder _

theorem mem_sites {s : Site} :
    s ∈ a.sites ↔ (Outline.ofBlueprint b).digraph.Reaches (Site.entry root) s := by
  rw [h.sites]
  exact Outline.mem_sites

theorem reaches {s : Site} (hs : s ∈ a.sites) : b.digraph.Reaches root s.node :=
  Outline.reaches_node (h.mem_sites.mp hs)

/-- The sites are all parts of the nodes that can be reached. -/
theorem mem_sites_iff {s : Site} :
    s ∈ a.sites ↔
      b.digraph.Reaches root s.node ∧ ((Outline.ofBlueprint b).part? s).isSome := by
  rw [h.sites]
  exact Outline.mem_sites_iff h.sound h.flawless.whole

theorem entry_mem_iff {n : Nat} : Site.entry n ∈ a.sites ↔ b.digraph.Reaches root n := by
  rw [h.mem_sites]
  exact ⟨Outline.reaches_node, Outline.reaches_entry_of_reaches h.sound h.flawless.whole⟩

theorem fit {s : Site} {node : Blueprint.Node} (hs : s ∈ a.sites)
    (hn : b.nodes[s.node]? = some node) : node.Fit b groups := by
  obtain ⟨node', hn', hfit⟩ := h.flawless s.node (h.reaches hs)
  exact Option.some.inj (hn'.symm.trans hn) ▸ hfit

/-- At a site stands a part of a node without a flaw. -/
theorem part {s : Site} (hs : s ∈ a.sites) :
    ∃ node part, (Outline.ofBlueprint b).part? s = some (node, part) ∧
      b.nodes[s.node]? = some node ∧ node.Fit b groups := by
  obtain ⟨hreach, hsome⟩ := h.mem_sites_iff.mp hs
  obtain ⟨node, hn, hfit⟩ := h.flawless s.node hreach
  obtain ⟨⟨node', part⟩, hpart⟩ := Option.isSome_iff_exists.mp hsome
  obtain rfl : node = node' := Option.some.inj (hn.symm.trans (Outline.part?_cases hpart).1)
  exact ⟨node, part, hpart, hn, hfit⟩

theorem state_eq {s : Site} {node : Blueprint.Node} {part : Option Trie}
    (hpart : (Outline.ofBlueprint b).part? s = some (node, part))
    (callbacks : List (Callback Bool)) (transforms : List Transform) (label : Label) :
    a.state callbacks transforms s label =
      { label
        kind := a.kind callbacks transforms s node part
        otherwise := a.otherwise node part } := by
  rw [← h.outline] at hpart
  rw [state, hpart]

/-- The state of a part of a node. -/
theorem exists_state {s : Site} {node : Blueprint.Node} {part : Option Trie} (hs : s ∈ a.sites)
    (hpart : (Outline.ofBlueprint b).part? s = some (node, part)) :
    ∃ label, a.machine.states[a.position s]? =
      some ⟨label, a.kind a.callbacks a.transforms s node part, a.otherwise node part⟩ := by
  obtain ⟨label, hstate⟩ := state_of_mem hs
  exact ⟨label, hstate.trans (congrArg some (h.state_eq hpart _ _ label))⟩

/-- A node without a flaw becomes states that have the edges they need. -/
theorem isUnfinished_eq_false {s : Site} {node : Blueprint.Node} {part : Option Trie}
    (hfit : node.Fit b groups) (hpart : (Outline.ofBlueprint b).part? s = some (node, part))
    (callbacks : List (Callback Bool)) (transforms : List Transform) (label : Label) :
    (a.state callbacks transforms s label).isUnfinished = false := by
  rw [h.state_eq hpart, Machine.State.isUnfinished]
  split
  · rfl
  · rename_i hkind
    exact absurd hkind (kind_ne_run_none _ _ _ _ _ _ _ _)
  · rename_i hkind _
    cases herror : node.isError with
    | false =>
      obtain ⟨o, ho⟩ := hfit.continues herror
      obtain ⟨f, hf⟩ := a.exists_otherwise ho part
      rw [hf]
      rfl
    | true =>
      unfold Blueprint.Node.isError at herror
      split at herror
      · rename_i code reason hnode
        refine absurd ?_ (hkind code reason)
        simp only [kind, hnode]
      · cases herror

theorem unfinished?_eq_none : a.machine.unfinished? = none := by
  rw [Machine.unfinished?, Option.map_eq_none_iff, Array.find?_eq_none]
  intro state hstate
  obtain ⟨i, hi⟩ := Array.mem_iff_getElem?.mp hstate
  obtain ⟨s, hs, -, label, rfl⟩ := site_of_state h.nodup hi
  obtain ⟨node, part, hpart, -, hfit⟩ := h.part hs
  simp [h.isUnfinished_eq_false hfit hpart]

/-! ## What states refer to -/

/-- The nodes where the node of a site can continue are entered somewhere. -/
theorem entry_mem_of_successor {s : Site} {node : Blueprint.Node} {n : Nat} (hs : s ∈ a.sites)
    (hn : b.nodes[s.node]? = some node) (hmem : n ∈ node.successors) :
    Site.entry n ∈ a.sites := by
  rw [h.entry_mem_iff]
  refine (h.reaches hs).step ?_
  show n ∈ b.next s.node
  rw [Blueprint.next, hn]
  exact hmem

/-- The node of a site is among the nodes of the assembly. -/
theorem mem_nodes {s : Site} {node : Blueprint.Node} (hs : s ∈ a.sites)
    (hn : b.nodes[s.node]? = some node) : node ∈ a.nodes := by
  have hentry : Site.entry s.node ∈ a.sites := h.entry_mem_iff.mpr (h.reaches hs)
  refine List.mem_filterMap.mpr ⟨Site.entry s.node, ?_, ?_⟩
  · exact List.mem_filter.mpr ⟨hentry, by simp [Site.entry]⟩
  · rw [node?, h.outline, Outline.ofBlueprint_getElem?]
    show (b.nodes[s.node]?.map _).map _ = _
    rw [hn]
    rfl

/-- A state refers to the callback of its node. -/
theorem exists_callback {s : Site} {node : Blueprint.Node} {c : Callback (Option Bool)}
    (hs : s ∈ a.sites) (hn : b.nodes[s.node]? = some node) (hc : b.callbackOf? node = some c) :
    ∃ d, a.machine.callbacks[callbackIndex a.callbacks c]? = some d ∧ d.Same c.resolve ∧
      a.machine.callbacks.find? (·.Same c.resolve) = some d := by
  have hdeclared : c ∈ a.declared := by
    refine List.mem_append_right _ (List.mem_filterMap.mpr ⟨node, h.mem_nodes hs hn, ?_⟩)
    rw [h.blueprint]
    exact hc
  obtain ⟨d, hd, hsame, hfind⟩ := exists_of_callbackIndex hdeclared
  refine ⟨d, ?_, hsame, ?_⟩
  · rw [machine, List.getElem?_toArray]
    exact hd
  · rw [machine, List.find?_toArray]
    exact hfind

/-- A state refers to the transform of its node. -/
theorem transform_eq {s : Site} {node : Blueprint.Node} {word : Option String} {t : Transform}
    (hs : s ∈ a.sites) (hn : b.nodes[s.node]? = some node) (hkind : node.kind = .matching word)
    (ht : Blueprint.transformOf? word = some t) :
    a.machine.transforms[a.transforms.idxOf t]? = some t := by
  have hmem : t ∈ a.transforms := by
    rw [transforms, List.mem_eraseDups]
    exact List.mem_filterMap.mpr ⟨node, h.mem_nodes hs hn, by rw [hkind]; exact ht⟩
  have hlt := List.idxOf_lt_length_of_mem hmem
  rw [machine, List.getElem?_toArray, List.getElem?_eq_getElem hlt]
  exact congrArg some (List.getElem_idxOf hlt)

end

end Regular

end Assembly

namespace Blueprint

section Complete
variable {b : Blueprint} {options : Options} {groups : List (List Nat)} {stem : String} {root : Nat}

/-- **A machine is complete** exactly when the blueprint is flawless. -/
theorem complete_eq_ok_iff (hb : b.Sound) {m : Machine} :
    (b.assembly options groups stem root).complete = .ok m ↔
      b.Flawless groups root ∧ m = (b.assembly options groups stem root).machine := by
  rw [← defect?_assembly_eq_none_iff hb, Assembly.complete]
  cases hdefect : (b.assembly options groups stem root).defect? with
  | some e => simp
  | none =>
    have hregular := ((defect?_assembly_eq_none_iff hb).mp hdefect).regular hb options stem
    simp only [hregular.unfinished?_eq_none]
    simp [eq_comm]

/-- An assembly fails only because of a defect. -/
theorem complete_eq_error (hb : b.Sound) {e : CompileError}
    (h : (b.assembly options groups stem root).complete = .error e) :
    (b.assembly options groups stem root).defect? = some e := by
  rw [Assembly.complete] at h
  cases hdefect : (b.assembly options groups stem root).defect? with
  | some e' =>
    rw [hdefect] at h
    rw [Except.error.inj h]
  | none =>
    have hregular := ((defect?_assembly_eq_none_iff hb).mp hdefect).regular hb options stem
    rw [hdefect] at h
    simp only [hregular.unfinished?_eq_none] at h
    cases h

end Complete

end Blueprint

end ByteMachine
