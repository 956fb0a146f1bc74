import ByteMachine.Proofs.Bypass
import ByteMachine.Proofs.Compilation
import ByteMachine.Proofs.Translation
import ByteMachine.Proofs.UniqueNames
import Mathlib

/-! # Machines that can be relied on

A compiled machine is **well-formed** (`Compiled.WellFormed`): every position that it stores
names something, every state but an error says where it continues, the keys of a state are in
order, callbacks are used as they can be called, and names are unique.

Three things come together.  The state of a site is well-formed because the blueprint obeys
its rules and has no flaws (`wellFormed_state`).  Redirecting edges changes nothing but
targets, and a destination is again a state of the machine (`WellFormed.bypass`).  And the
names come from one pool for states and another one for operations. -/
namespace ByteMachine

namespace Machine

/-- The state looks at the next byte, along its edges or in a table. -/
def Kind.IsBranching : Kind → Prop
  | .branch .. | .table .. => True
  | _ => False

/-- What a state needs for what it does, in a machine with a number of places for spans. -/
def Kind.WellFormed (m : Machine) (places : Nat) : Kind → Prop
  | .spanStart place callback | .spanEnd place callback =>
    place < places ∧ ∃ c, m.callbacks[callback]? = some c ∧ c.signature = .span
  | .invoke callback edges =>
    (∃ c, m.callbacks[callback]? = some c ∧ c.signature ≠ .span) ∧ (edges.map (·.code)).Nodup
  | .branch transform edges =>
    transform < m.transforms.size ∧ edges ≠ [] ∧ (edges.map (·.key)).Pairwise (· < ·)
  | .table transform rows =>
    transform < m.transforms.size ∧ rows ≠ [] ∧ Table.Arranged (rows.map (·.keys))
  | .run transform bytes edge =>
    transform < m.transforms.size ∧ 2 ≤ bytes.length ∧ edge.isSome = true
  | _ => True

/-- What holds of a state. -/
structure State.WellFormed (m : Machine) (places : Nat) (s : State) : Prop where
  kind : s.kind.WellFormed m places
  targets : ∀ i ∈ s.targets, i < m.states.size
  /-- Only an error goes nowhere. -/
  continues : s.otherwise = none → ∃ code reason, s.kind = .error code reason
  /-- Only a state that looks at a byte passes a value on otherwise, and leaves the byte. -/
  passes : ∀ o, s.otherwise = some o → o.value ≠ none → o.stay = true ∧ s.kind.IsBranching

/-- What holds of all states of a machine. -/
def WellFormed (m : Machine) (places : Nat) : Prop := ∀ s ∈ m.states, s.WellFormed m places

end Machine

/-- **What holds of a compiled machine.** -/
structure Compiled.WellFormed (c : Compiled) : Prop where
  root : c.root < c.machine.states.size
  states : c.machine.WellFormed c.places.length
  places : ∀ place ∈ c.places, ∀ i ∈ place, i < c.machine.callbacks.size
  resumption : ∀ i ∈ c.resumption, i < c.machine.states.size
  /-- No two states have the same name. -/
  names : (c.machine.states.toList.map (·.name)).Nodup
  /-- No state has the name of an operation on a field. -/
  apart : ∀ s ∈ c.machine.states, ∀ f ∈ c.machine.callbacks, f.operation.isExternal = false →
    s.name ≠ f.name

/-! ## Redirected edges -/

namespace Machine

variable {m : Machine} {places : Nat}

theorem Kind.WellFormed.mapTargets {kind : Kind} (h : kind.WellFormed m places) (f : Nat → Nat) :
    (kind.mapTargets f).WellFormed m places := by
  cases kind with
  | invoke | branch | run | table =>
    simpa [Kind.WellFormed, Kind.mapTargets, Function.comp_def] using h
  | _ => exact h

theorem Kind.isBranching_mapTargets (kind : Kind) (f : Nat → Nat) :
    (kind.mapTargets f).IsBranching ↔ kind.IsBranching := by
  cases kind <;> exact Iff.rfl

theorem State.WellFormed.mapTargets {s : State} (h : s.WellFormed m places) {f : Nat → Nat}
    (hf : ∀ i, i < m.states.size → f i < m.states.size) :
    (s.mapTargets f).WellFormed m places := by
  refine ⟨h.kind.mapTargets f, ?_, ?_, ?_⟩
  · intro i hi
    rw [State.targets_mapTargets] at hi
    obtain ⟨j, hj, rfl⟩ := List.mem_map.mp hi
    exact hf j (h.targets j hj)
  · intro hnone
    obtain ⟨code, reason, hkind⟩ := h.continues (Option.map_eq_none_iff.mp hnone)
    refine ⟨code, reason, ?_⟩
    show s.kind.mapTargets f = _
    rw [hkind]
    rfl
  · intro o ho hvalue
    obtain ⟨old, hold, rfl⟩ := Option.map_eq_some_iff.mp ho
    obtain ⟨hstay, hkind⟩ := h.passes old hold hvalue
    exact ⟨hstay, (s.kind.isBranching_mapTargets f).mpr hkind⟩

/-- A state needs no more than the sizes and callbacks of its machine. -/
theorem State.WellFormed.congr {m' : Machine} {s : State} (h : s.WellFormed m places)
    (hsize : m'.states.size = m.states.size) (hcallbacks : m'.callbacks = m.callbacks)
    (htransforms : m'.transforms = m.transforms) : s.WellFormed m' places := by
  refine ⟨?_, fun i hi => hsize ▸ h.targets i hi, h.continues, h.passes⟩
  have hkind := h.kind
  unfold Kind.WellFormed at hkind ⊢
  rw [hcallbacks, htransforms]
  exact hkind

/-- A run resumes at the state itself or at a target of it. -/
theorem State.mem_resumesAt {s : State} {i j : Nat} (h : j ∈ s.resumesAt i) :
    j = i ∨ j ∈ s.targets := by
  cases hkind : s.kind with
  | pause | spanEnd =>
    simp only [resumesAt, hkind] at h
    exact .inr (List.mem_append_left _ h)
  | error | invoke => simp [resumesAt, hkind] at h
  | _ =>
    simp only [resumesAt, hkind, List.mem_singleton] at h
    exact .inl h

section WellFormed
variable (h : m.WellFormed places)
include h

theorem WellFormed.destination_lt {i : Nat} (hi : i < m.states.size) :
    m.destination i < m.states.size := by
  -- along the chain every state is the target of the one before
  have hchain := m.chain_destination i
  generalize m.destination i = j at hchain
  induction hchain with
  | refl => exact hi
  | tail _ hpasses _ =>
    obtain ⟨s, value, hs, -, hotherwise⟩ := hpasses
    apply (h s (Array.mem_of_getElem? hs)).targets
    simp [State.targets, hotherwise]

theorem WellFormed.bypassAt (i : Nat) : (m.bypassAt i).WellFormed places := by
  intro s hs
  have hstate : s.WellFormed m places := by
    obtain ⟨j, hj⟩ := Array.mem_iff_getElem?.mp hs
    rw [bypassAt_states] at hj
    split at hj
    · obtain ⟨old, hold, rfl⟩ := Option.map_eq_some_iff.mp hj
      exact (h old (Array.mem_of_getElem? hold)).mapTargets fun _ => h.destination_lt
    · exact h s (Array.mem_of_getElem? hj)
  exact hstate.congr (m.size_bypassAt i) (m.bypassAt_callbacks i) (m.bypassAt_transforms i)

theorem WellFormed.bypass (root : Nat) : (m.bypass root).1.WellFormed places :=
  bypass_induct (P := fun after => after.WellFormed places) root h fun _ i hafter =>
    hafter.bypassAt i

/-- A run resumes at states of the machine. -/
theorem WellFormed.resumption_lt {root : Nat} (hroot : root < m.states.size) {i : Nat}
    (hi : i ∈ m.resumption root) : i < m.states.size := by
  rw [resumption, List.mem_eraseDups] at hi
  rcases List.mem_cons.mp hi with rfl | hi
  · exact hroot
  · obtain ⟨j, -, hi⟩ := List.mem_flatMap.mp hi
    split at hi
    · rename_i s hs
      rcases State.mem_resumesAt hi with rfl | hi
      · exact (Array.getElem?_eq_some_iff.mp hs).1
      · exact (h s (Array.mem_of_getElem? hs)).targets i hi
    · cases hi

end WellFormed

end Machine

/-! ## The states of an assembly -/

theorem Callback.Same.signature_eq {c : Callback (Option Bool)} {d : Callback Bool}
    (h : d.Same c.resolve) : d.signature = c.signature := by
  rw [signature, h.1, resolve, signature]
  cases c.operation <;> rfl

theorem Allocation.lt_of_placeOf? {groups : List (List Nat)} {span place : Nat}
    (h : placeOf? groups span = some place) : place < groups.length := by
  obtain ⟨⟨group, i⟩, hfind, rfl⟩ := Option.map_eq_some_iff.mp h
  have hmem := List.mem_reverse.mp (List.mem_of_find?_eq_some hfind)
  exact List.snd_lt_of_mem_zipIdx hmem

/-- The callback of a span is called with the bytes of the span. -/
theorem Blueprint.Sound.signature_spanCallback {b : Blueprint} (hb : b.Sound) {span : Nat}
    {c : Callback (Option Bool)} (h : b.spanCallback? span = some c) : c.signature = .span := by
  obtain ⟨i, hi, hc⟩ := Option.bind_eq_some_iff.mp h
  obtain ⟨f, hf, hsignature⟩ := hb.span hi
  rwa [Option.some.inj (hc.symm.trans hf)]

/-- The state of a node that matches nothing has what it needs. -/
theorem Mirror.Payload.wellFormed {b : Blueprint} {groups : List (List Nat)} {m : Machine}
    {map : Nat → Option Nat} {n : Nat} {node : Blueprint.Node} {kind : Machine.Kind}
    (h : Payload b groups m map node kind) (hb : b.Sound) (hn : b.nodes[n]? = some node)
    (hfit : node.Fit b groups) : kind.WellFormed m groups.length := by
  cases h with
  | error | pause | consume => trivial
  | spanStart _ hplace hc hd hsame | spanEnd _ hplace hc hd hsame =>
    exact ⟨Allocation.lt_of_placeOf? hplace, _, hd,
      hsame.signature_eq.trans (hb.signature_spanCallback hc)⟩
  | @invoke f callback c d edges hkind hc hd hsame hedges =>
    refine ⟨⟨d, hd, fun hspan => ?_⟩, ?_⟩
    · exact hfit _ (.spanCallbackInvoked hkind hc (hsame.signature_eq.symm.trans hspan))
    · -- the codes are the keys of the node, which differ
      have hkeys : node.edges.map (·.key) = (edges.map (·.code)).map Key.code := by
        rw [List.map_map, ← List.forall₂_eq_eq_eq, List.forall₂_map_left_iff,
          List.forall₂_map_right_iff]
        exact hedges.imp fun _ _ hedge => hedge.1
      have hdistinct := (hb.node hn).distinct
      rw [hkeys] at hdistinct
      exact hdistinct.of_map

/-- The state of a node that matches nothing leads to states at which nodes are entered. -/
theorem Mirror.Payload.exists_of_mem_targets {b : Blueprint} {groups : List (List Nat)}
    {m : Machine} {map : Nat → Option Nat} {node : Blueprint.Node} {kind : Machine.Kind}
    (h : Payload b groups m map node kind) {i : Nat} (hi : i ∈ kind.targets) :
    ∃ n, map n = some i := by
  cases h with
  | error | pause | consume | spanStart | spanEnd => cases hi
  | invoke _ _ _ _ hedges =>
    obtain ⟨r, hr, rfl⟩ := List.mem_map.mp hi
    obtain ⟨e, -, -, htarget⟩ := Trie.exists_of_forall₂ hedges hr
    exact ⟨_, htarget⟩

namespace Assembly

section Kinds
variable {a : Assembly} {s : Site} {transform : Nat} {u : Trie}

/-- The state of a part of a trie has what it needs. -/
theorem wellFormed_trieKind (hu : u.Proper) (htransform : transform < a.machine.transforms.size)
    (places : Nat) : (a.trieKind s transform u).WellFormed a.machine places := by
  cases hu with
  | leaf => trivial
  | branch hne hbytes _ =>
    rw [trieKind]
    split
    · rename_i rows hrows
      have hsome := Table.ne_nil_of_ofChildren hrows hne
      refine ⟨htransform, fun hnil => hsome (List.map_eq_nil_iff.mp hnil), ?_⟩
      rw [List.map_map]
      exact Table.arranged_of_ofChildren hrows hbytes
    · refine ⟨htransform, fun hnil => hne (List.map_eq_nil_iff.mp hnil), ?_⟩
      rw [List.map_map]
      exact hbytes
  | run hbytes _ => exact ⟨htransform, hbytes, rfl⟩

/-- The state of a part of a trie leads to the states of the sites below it. -/
theorem exists_of_mem_targets_trieKind {i : Nat} (hi : i ∈ (a.trieKind s transform u).targets) :
    ∃ s' ∈ s.below u, a.position s' = i := by
  cases u with
  | leaf l => cases hi
  | branch children stop =>
    rw [trieKind] at hi
    split at hi
    · rename_i rows hrows
      obtain ⟨edge, hedge, rfl⟩ := List.mem_map.mp hi
      obtain ⟨row, hrow, rfl⟩ := List.mem_map.mp hedge
      obtain ⟨byte, stay, hchild⟩ := Table.exists_child_of_mem hrows hrow
      refine ⟨Site.entry row.target, List.mem_append_left _ ?_, rfl⟩
      exact List.mem_map.mpr ⟨_, hchild, rfl⟩
    · obtain ⟨edge, hedge, rfl⟩ := List.mem_map.mp hi
      obtain ⟨child, hchild, rfl⟩ := List.mem_map.mp hedge
      exact ⟨_, List.mem_append_left _ (List.mem_map_of_mem hchild), rfl⟩
  | run bytes next =>
    rw [List.mem_singleton.mp hi]
    exact ⟨_, List.mem_singleton_self _, rfl⟩

/-- An otherwise edge leads to the stop of a branch, or where the node continues. -/
theorem otherwise_cases {node : Blueprint.Node} {part : Option Trie} {f : Machine.Fallback}
    (h : a.otherwise node part = some f) :
    (∃ children stop, part = some (.branch children (some stop)) ∧
        f = ⟨a.entry stop.target, true, stop.value⟩) ∨
      ∃ o, node.otherwise = some o ∧ f = ⟨a.entry o.target, o.stay, none⟩ := by
  unfold otherwise at h
  split at h
  · exact .inl ⟨_, _, rfl, (Option.some.inj h).symm⟩
  · obtain ⟨o, ho, rfl⟩ := Option.map_eq_some_iff.mp h
    exact .inr ⟨o, ho, rfl⟩

theorem position_lt {s : Site} (hs : s ∈ a.sites) : a.position s < a.machine.states.size := by
  rw [a.size_states]
  exact List.idxOf_lt_length_of_mem hs

end Kinds

namespace Regular

section
variable {a : Assembly} {b : Blueprint} {groups : List (List Nat)} {root : Nat}
variable (h : a.Regular b groups root)
include h

section Site
variable {s : Site} {node : Blueprint.Node} {part : Option Trie} (hs : s ∈ a.sites)
  (hpart : (Outline.ofBlueprint b).part? s = some (node, part))
include hs hpart

theorem mem_sites_of_below {u : Trie} (hu : part = some u) {s' : Site} (hs' : s' ∈ s.below u) :
    s' ∈ a.sites := by
  refine h.mem_sites.mpr ((h.mem_sites.mp hs).step (List.mem_append_left _ ?_))
  rw [Outline.inside, hpart, hu]
  exact hs'

/-- A site of a trie belongs to a matching node; any other site is a node as a whole. -/
theorem kind_cases :
    (∃ k u, part = some u ∧ u.Proper ∧ k < a.machine.transforms.size ∧
        a.kind a.callbacks a.transforms s node part = a.trieKind s k u) ∨
      part = none ∧ (a.kind a.callbacks a.transforms s node part = .empty ∨
        Mirror.Payload b groups a.machine a.memo? node
          (a.kind a.callbacks a.transforms s node part)) := by
  obtain ⟨hn, ⟨t, u, ht, rfl, hu⟩ | ⟨-, hpath, rfl⟩⟩ := Outline.part?_cases hpart
  · left
    obtain ⟨⟨word, hkind⟩, -⟩ := Blueprint.Node.trie_eq_some ht
    obtain ⟨transform, htransform⟩ := (h.fit hs hn).transform hkind
    refine ⟨a.transforms.idxOf transform, u, rfl,
      (Blueprint.Node.built_trie ht).proper.of_mem_inner hu, ?_, ?_⟩
    · exact (Array.getElem?_eq_some_iff.mp (h.transform_eq hs hn hkind htransform)).1
    · simp only [kind, hkind, htransform, Option.getD_some]
  · right
    refine ⟨rfl, ?_⟩
    obtain ⟨n, path⟩ := s
    obtain rfl : path = [] := hpath
    by_cases hmatching : ∃ word, node.kind = .matching word
    · obtain ⟨word, hkind⟩ := hmatching
      left
      simp only [kind, hkind]
    · right
      exact h.payload hs hn fun word hkind => hmatching ⟨word, hkind⟩

theorem otherwise_target_lt {f : Machine.Fallback} (hf : a.otherwise node part = some f) :
    f.target < a.machine.states.size := by
  rcases otherwise_cases hf with ⟨children, stop, hstop, rfl⟩ | ⟨o, ho, rfl⟩
  · refine position_lt (h.mem_sites_of_below hs hpart hstop (List.mem_append_right _ ?_))
    exact List.mem_singleton_self _
  · refine position_lt (h.entry_mem_of_successor hs (Outline.part?_cases hpart).1 ?_)
    exact List.mem_append_right _ (by simp [ho])

theorem wellFormed_kind :
    (a.kind a.callbacks a.transforms s node part).WellFormed a.machine groups.length := by
  rcases h.kind_cases hs hpart with ⟨k, u, -, hu, hk, hkind⟩ | ⟨-, hkind | hpayload⟩
  · rw [hkind]
    exact wellFormed_trieKind hu hk _
  · rw [hkind]
    trivial
  · have hn := (Outline.part?_cases hpart).1
    exact hpayload.wellFormed h.sound hn (h.fit hs hn)

theorem kind_target_lt {i : Nat} (hi : i ∈ (a.kind a.callbacks a.transforms s node part).targets) :
    i < a.machine.states.size := by
  rcases h.kind_cases hs hpart with ⟨k, u, hu, -, -, hkind⟩ | ⟨-, hkind | hpayload⟩
  · rw [hkind] at hi
    obtain ⟨s', hs', rfl⟩ := exists_of_mem_targets_trieKind hi
    exact position_lt (h.mem_sites_of_below hs hpart hu hs')
  · rw [hkind] at hi
    cases hi
  · obtain ⟨n, hmemo⟩ := hpayload.exists_of_mem_targets hi
    obtain ⟨hentry, rfl⟩ := memo?_eq_some.mp hmemo
    exact position_lt hentry

/-- Only the stop of a branch is given a value. -/
theorem otherwise_value {f : Machine.Fallback} (hf : a.otherwise node part = some f)
    (hvalue : f.value ≠ none) :
    f.stay = true ∧ (a.kind a.callbacks a.transforms s node part).IsBranching := by
  rcases otherwise_cases hf with ⟨children, stop, hstop, rfl⟩ | ⟨o, -, rfl⟩
  · refine ⟨rfl, ?_⟩
    rcases h.kind_cases hs hpart with ⟨k, u, hu, -, -, hkind⟩ | ⟨hwhole, -⟩
    · obtain rfl := Option.some.inj (hstop.symm.trans hu)
      rw [hkind, trieKind]
      split <;> trivial
    · rw [hstop] at hwhole
      cases hwhole
  · exact absurd rfl hvalue

/-- **The state of a site is well-formed.** -/
theorem wellFormed_state (label : Label) :
    (a.state a.callbacks a.transforms s label).WellFormed a.machine groups.length := by
  have hfit := h.fit hs (Outline.part?_cases hpart).1
  have hfinished := h.isUnfinished_eq_false hfit hpart a.callbacks a.transforms label
  rw [h.state_eq hpart] at hfinished ⊢
  refine ⟨h.wellFormed_kind hs hpart, fun i hi => ?_, fun hnone => ?_, fun o ho hvalue => ?_⟩
  · rcases List.mem_append.mp hi with hi | hi
    · obtain ⟨f, hf, rfl⟩ := List.mem_map.mp hi
      exact h.otherwise_target_lt hs hpart (Option.mem_toList.mp hf)
    · exact h.kind_target_lt hs hpart hi
  · unfold Machine.State.isUnfinished at hfinished
    split at hfinished
    · exact ⟨_, _, ‹_›⟩
    · cases hfinished
    · rw [hnone] at hfinished
      cases hfinished
  · exact h.otherwise_value hs hpart ho hvalue

end Site

/-- **A machine is well-formed** before its edges are redirected. -/
theorem wellFormed_machine : a.machine.WellFormed groups.length := by
  intro state hstate
  obtain ⟨i, hi⟩ := Array.mem_iff_getElem?.mp hstate
  obtain ⟨s, hs, -, label, rfl⟩ := site_of_state h.nodup hi
  obtain ⟨node, part, hpart, -⟩ := h.part hs
  exact h.wellFormed_state hs hpart label

end

end Regular

/-- The callbacks of places exist. -/
theorem callback_lt_of_places {a : Assembly} {place : List Nat}
    (hplace : place ∈ a.places a.callbacks) {i : Nat} (hi : i ∈ place) :
    i < a.machine.callbacks.size := by
  obtain ⟨group, hgroup, rfl⟩ := List.mem_map.mp hplace
  obtain ⟨c, hc, rfl⟩ := List.mem_map.mp hi
  have hdeclared : c ∈ a.declared := by
    obtain ⟨span, hspan, hc⟩ := List.mem_filterMap.mp hc
    refine List.mem_append_left _ (List.mem_filterMap.mpr ⟨span, ?_, hc⟩)
    exact List.mem_flatten.mpr ⟨group, hgroup, hspan⟩
  obtain ⟨d, hd, -⟩ := exists_of_callbackIndex hdeclared
  exact (List.getElem?_eq_some_iff.mp hd).1

theorem map_name_machine (a : Assembly) :
    a.machine.states.toList.map (·.name) = a.labels.map (·.text) := by
  have hname : ∀ s label, (a.state a.callbacks a.transforms s label).name = label.text := by
    intro s label
    unfold state
    split <;> rfl
  apply List.ext_getElem?
  intro i
  rw [List.getElem?_map, Array.getElem?_toList, machine_states_getElem?, List.getElem?_map]
  cases hlabel : a.labels[i]? with
  | none => simp
  | some label =>
    have hlt : i < a.sites.length := a.length_labels ▸ (List.getElem?_eq_some_iff.mp hlabel).1
    rw [List.getElem?_eq_getElem hlt]
    exact congrArg some (hname _ label)

/-- **What is made of a regular assembly is well-formed.** -/
theorem Regular.wellFormed_finish {a : Assembly} {b : Blueprint} {groups : List (List Nat)}
    {root : Nat} (h : a.Regular b groups root) : (a.finish root a.machine).WellFormed := by
  have hentry : a.entry root < a.machine.states.size :=
    position_lt (h.entry_mem_iff.mpr (.refl _))
  have hplaces : (a.places a.callbacks).length = groups.length := by
    rw [places, List.length_map, h.groups]
  have hstates := h.wellFormed_machine.bypass (a.entry root)
  have hsize := a.machine.size_bypass (a.entry root)
  have hcallbacks := a.machine.bypass_callbacks (a.entry root)
  have hnames : (a.machine.bypass (a.entry root)).1.states.toList.map (·.name) =
      a.labels.map (·.text) := by
    rw [← a.map_name_machine, ← Array.toList_map, a.machine.map_name_bypass, Array.toList_map]
  have hroot := hstates.destination_lt (hsize ▸ hentry)
  refine ⟨hroot, ?_, ?_, ?_, ?_, ?_⟩
  · show Machine.WellFormed _ (a.places a.callbacks).length
    rw [hplaces]
    exact hstates
  · intro place hplace i hi
    show i < (a.machine.bypass (a.entry root)).1.callbacks.size
    rw [hcallbacks]
    exact callback_lt_of_places hplace hi
  · intro i hi
    exact hstates.resumption_lt hroot hi
  · show ((a.machine.bypass (a.entry root)).1.states.toList.map (·.name)).Nodup
    rw [hnames]
    exact a.nodup_labels
  · intro s hs f hf hoperation
    have hname : s.name ∈ a.labels.map (·.text) := by
      rw [← hnames]
      exact List.mem_map_of_mem (Array.mem_toList_iff.mpr hs)
    obtain ⟨label, hlabel, hlabelName⟩ := List.mem_map.mp hname
    replace hf : f ∈ (a.machine.bypass (a.entry root)).1.callbacks := hf
    rw [hcallbacks] at hf
    rw [← hlabelName]
    exact a.label_ne_name hlabel (List.mem_toArray.mp hf) hoperation

end Assembly

namespace Blueprint

/-- **Every compiled machine is well-formed**, whatever calls have made the blueprint and
however its spans are given their places. -/
theorem wellFormed_compile (calls : List Call) (stem : String) (options : Options)
    (allocator : Allocator) (root : Nat) (c : Compiled)
    (h : ((run {} calls).compile stem options allocator root).result = .ok c) :
    c.WellFormed := by
  have hb := sound_run calls
  obtain ⟨allocation, -, hflawless, rfl⟩ := compile_eq_ok hb h
  exact (hflawless.regular hb options stem).wellFormed_finish

/-- The blueprint for requests, with tables even for a single byte. -/
theorem wellFormed_compile_request :
    ∃ c, ((run {} requestCalls).compile "parser" ⟨4, 1⟩ sharePlaces 0).result = .ok c ∧
      c.WellFormed := by
  have hok : ((run {} requestCalls).compile "parser" ⟨4, 1⟩ sharePlaces 0).result.toBool =
      true := by cbv
  cases h : ((run {} requestCalls).compile "parser" ⟨4, 1⟩ sharePlaces 0).result with
  | ok c => exact ⟨c, rfl, wellFormed_compile requestCalls "parser" ⟨4, 1⟩ sharePlaces 0 c h⟩
  | error e => simp [h, Except.toBool] at hok

end Blueprint

end ByteMachine
