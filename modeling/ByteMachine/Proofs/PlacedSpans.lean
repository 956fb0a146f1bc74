import ByteMachine.Proofs.OpenSpans
import ByteMachine.Proofs.SharedCallbacks
import ByteMachine.Proofs.WellFormed
import Mathlib

/-! # Spans in their places

However spans are distributed over places, a machine is consistent about it.  The groups may
overlap, repeat a span or be empty: a span has the place of the **last** group that lists it
(`lastListed_of_placeOf?`), and its callback has one position, found by its key.  Both are
functions of the span alone.  So all states that start or end a span agree on its place and
callback, and since the group of that place lists the span, the place lists the callback
(`Placed.listed`).

A span that a reachable node starts or ends must be in some group, or there is no machine. -/
namespace ByteMachine

/-! ## The last group that lists a span -/

namespace Allocation

/-- Of the groups that list the span, the one at `place` is the last. -/
structure LastListed (groups : List (List Nat)) (span place : Nat) : Prop where
  listed : ∃ group, groups[place]? = some group ∧ span ∈ group
  last : ∀ (i : Nat) (group : List Nat), groups[i]? = some group → span ∈ group → i ≤ place

/-- A later group takes the spans that it lists from the earlier ones. -/
theorem placeOf?_concat (groups : List (List Nat)) (group : List Nat) (span : Nat) :
    placeOf? (groups ++ [group]) span =
      if span ∈ group then some groups.length else placeOf? groups span := by
  rw [placeOf?, List.zipIdx_append, List.reverse_append]
  by_cases hspan : span ∈ group
  · simp [hspan]
  · simp [hspan, placeOf?]

theorem lastListed_of_placeOf? {groups : List (List Nat)} {span place : Nat}
    (h : placeOf? groups span = some place) : LastListed groups span place := by
  induction groups using List.reverseRecOn with
  | nil => cases h
  | append_singleton groups group ih =>
    rw [placeOf?_concat] at h
    by_cases hspan : span ∈ group
    · rw [if_pos hspan] at h
      obtain rfl := Option.some.inj h
      refine ⟨⟨group, by simp, hspan⟩, fun i other hi _ => ?_⟩
      have := (List.getElem?_eq_some_iff.mp hi).1
      rw [List.length_append, List.length_singleton] at this
      omega
    · rw [if_neg hspan] at h
      obtain ⟨⟨listing, hplace, hlisted⟩, hlast⟩ := ih h
      have hlt := (List.getElem?_eq_some_iff.mp hplace).1
      refine ⟨⟨listing, ?_, hlisted⟩, fun i other hi hother => ?_⟩
      · rw [List.getElem?_append_left hlt]
        exact hplace
      · by_cases hlength : i < groups.length
        · rw [List.getElem?_append_left hlength] at hi
          exact hlast i other hi hother
        · -- behind the groups stands only the one that does not list the span
          rw [List.getElem?_append_right (Nat.not_lt.mp hlength)] at hi
          have hmem := List.mem_singleton.mp (List.mem_of_getElem? hi)
          exact absurd (hmem ▸ hother) hspan

end Allocation

/-! ## Where spans start and end -/

/-- Whether a span starts or ends. -/
inductive Mark where
  | start
  | finish

/-- The span that a node starts or ends. -/
def Blueprint.Kind.mark? : Blueprint.Kind → Option (Mark × Nat)
  | .spanStart span => some (.start, span)
  | .spanEnd span => some (.finish, span)
  | _ => none

theorem Blueprint.Node.span?_eq_map_mark? (node : Blueprint.Node) :
    node.span? = node.kind.mark?.map (·.2) := by
  unfold span? Kind.mark?
  cases node.kind <;> rfl

namespace Machine

/-- The place and the callback of the span that a state starts or ends. -/
def Kind.mark? : Kind → Option (Mark × Nat × Nat)
  | .spanStart place callback => some (.start, place, callback)
  | .spanEnd place callback => some (.finish, place, callback)
  | _ => none

/-- The place and the callback of the span that the state at `i` starts or ends. -/
def markAt? (m : Machine) (i : Nat) : Option (Mark × Nat × Nat) :=
  m.states[i]?.bind (·.kind.mark?)

theorem Kind.mark?_mapTargets (f : Nat → Nat) (kind : Kind) :
    (kind.mapTargets f).mark? = kind.mark? := by
  cases kind <;> rfl

/-- Going past empty states leaves every state its span. -/
theorem markAt?_bypass (m : Machine) (root i : Nat) :
    (m.bypass root).1.markAt? i = m.markAt? i :=
  bind_bypass (fun f s => s.kind.mark?_mapTargets f) m root i

end Machine

/-- **The places of spans are consistent.**  `placeOf` and `callbackOf` give the place of a span
and the position of its callback, and `map` gives the state at which a node is entered. -/
structure Mirror.Placed (b : Blueprint) (root : Nat) (groups : List (List Nat)) (c : Compiled)
    (map : Nat → Option Nat) (placeOf callbackOf : Nat → Nat) : Prop where
  /-- A span has the place of the last group that lists it. -/
  place : ∀ span ∈ groups.flatten, Allocation.LastListed groups span (placeOf span)
  /-- The callback of a span stands at its position. -/
  callback : ∀ span ∈ groups.flatten, ∃ f, b.spanCallback? span = some f ∧
    c.machine.callbacks[callbackOf span]? = some f.resolve
  /-- No callback has two positions. -/
  distinct : c.machine.callbacks.toList.Nodup
  /-- Each place lists the callbacks of its group, in order. -/
  places : c.places = groups.map (·.map callbackOf)
  /-- All nodes for a span become states with its place and its callback. -/
  node : ∀ {n span : Nat} {node : Blueprint.Node} {mark : Mark}, b.digraph.Reaches root n →
    b.nodes[n]? = some node → node.kind.mark? = some (mark, span) →
    span ∈ groups.flatten ∧
      (map n).bind c.machine.markAt? = some (mark, placeOf span, callbackOf span)
  /-- Every state for a span is that of a node. -/
  state : ∀ {i place callback : Nat} {mark : Mark},
    c.machine.markAt? i = some (mark, place, callback) →
    ∃ n node span, b.digraph.Reaches root n ∧ b.nodes[n]? = some node ∧
      node.kind.mark? = some (mark, span) ∧ map n = some i

/-- **A state for a span has a place that lists its callback.** -/
theorem Mirror.Placed.listed {b : Blueprint} {root : Nat} {groups : List (List Nat)}
    {c : Compiled} {map : Nat → Option Nat} {placeOf callbackOf : Nat → Nat}
    (h : Placed b root groups c map placeOf callbackOf) {i place callback : Nat} {mark : Mark}
    (hi : c.machine.markAt? i = some (mark, place, callback)) :
    ∃ callbacks, c.places[place]? = some callbacks ∧ callback ∈ callbacks := by
  obtain ⟨n, node, span, hreach, hn, hmark, hmap⟩ := h.state hi
  obtain ⟨hspan, hstate⟩ := h.node hreach hn hmark
  rw [hmap, Option.bind_some, hi] at hstate
  obtain ⟨-, rfl, rfl⟩ : mark = mark ∧ place = placeOf span ∧ callback = callbackOf span := by
    simpa using hstate
  obtain ⟨group, hgroup, hmem⟩ := (h.place span hspan).listed
  refine ⟨group.map callbackOf, ?_, List.mem_map_of_mem hmem⟩
  rw [h.places, List.getElem?_map, hgroup]
  rfl

/-! ## The places of an assembly -/

/-- A callback for spans is a function of the user, known by its name. -/
theorem Callback.Same.eq_of_span {c d : Callback Bool} (h : Same d c) (hc : c.signature = .span) :
    d = c := by
  obtain ⟨name, operation⟩ := c
  obtain ⟨name', operation'⟩ := d
  obtain ⟨rfl : operation' = operation, hname⟩ := h
  cases operation' with
  | external signature =>
    obtain rfl : name' = name := hname rfl
    rfl
  | _ => cases hc

namespace Assembly

/-- The place of a span. -/
def spanPlace (a : Assembly) (span : Nat) : Nat := (Allocation.placeOf? a.groups span).getD 0

/-- The position of the callback of a span. -/
def spanPosition (a : Assembly) (span : Nat) : Nat :=
  ((a.blueprint.spanCallback? span).map (callbackIndex a.callbacks)).getD 0

theorem mark?_trieKind (a : Assembly) (s : Site) (transform : Nat) (t : Trie) :
    (a.trieKind s transform t).mark? = none := by
  cases t with
  | leaf l => rfl
  | branch children stop =>
    rw [trieKind]
    split <;> rfl
  | run bytes next => rfl

/-- **A node for a span becomes a state for it**, and no other node does. -/
theorem mark?_kind (a : Assembly) (transforms : List Transform) (s : Site) (node : Blueprint.Node)
    (part : Option Trie) :
    (a.kind a.callbacks transforms s node part).mark? =
      node.kind.mark?.map fun mark => (mark.1, a.spanPlace mark.2, a.spanPosition mark.2) := by
  unfold kind Blueprint.callbackOf?
  cases node.kind with
  | matching word =>
    cases part with
    | none => rfl
    | some t => exact a.mark?_trieKind s _ t
  | _ => rfl

/-- Each place lists the callbacks of its group when these have one. -/
theorem places_eq (a : Assembly)
    (hknown : ∀ span ∈ a.groups.flatten, ∃ f, a.blueprint.spanCallback? span = some f) :
    a.places a.callbacks = a.groups.map (·.map a.spanPosition) := by
  refine List.map_congr_left fun group hgroup => ?_
  have hspans : ∀ span ∈ group, ∃ f, a.blueprint.spanCallback? span = some f := fun span hspan =>
    hknown span (List.mem_flatten.mpr ⟨group, hgroup, hspan⟩)
  clear hgroup
  induction group with
  | nil => rfl
  | cons span group ih =>
    obtain ⟨f, hf⟩ := hspans span List.mem_cons_self
    have hposition : a.spanPosition span = callbackIndex a.callbacks f := by
      rw [spanPosition, hf]
      rfl
    rw [List.filterMap_cons_some hf, List.map_cons, List.map_cons, hposition,
      ih fun other hother => hspans other (List.mem_cons_of_mem _ hother)]

namespace Regular

section
variable {a : Assembly} {b : Blueprint} {groups : List (List Nat)} {root : Nat}
variable (h : a.Regular b groups root)
include h

/-- The callback of a span stands at its position. -/
theorem callback_spanPosition {span : Nat} {f : Callback (Option Bool)}
    (hspan : span ∈ groups.flatten) (hf : b.spanCallback? span = some f) :
    a.machine.callbacks[a.spanPosition span]? = some f.resolve := by
  have hdeclared : f ∈ a.declared := by
    refine List.mem_append_left _ (List.mem_filterMap.mpr ⟨span, h.groups ▸ hspan, ?_⟩)
    rwa [h.blueprint]
  obtain ⟨d, hd, hsame, -⟩ := exists_of_callbackIndex hdeclared
  have hsignature : f.resolve.signature = .span := by
    rw [← h.sound.signature_spanCallback hf]
    exact Callback.Same.signature_eq ⟨rfl, fun _ => rfl⟩
  rw [spanPosition, h.blueprint, hf, machine, List.getElem?_toArray]
  exact hd.trans (congrArg some (hsame.eq_of_span hsignature))

/-- The span of the state of a site. -/
theorem markAt?_position {s : Site} {node : Blueprint.Node} {part : Option Trie}
    (hs : s ∈ a.sites) (hpart : (Outline.ofBlueprint b).part? s = some (node, part)) :
    a.machine.markAt? (a.position s) =
      node.kind.mark?.map fun mark => (mark.1, a.spanPlace mark.2, a.spanPosition mark.2) := by
  obtain ⟨label, hstate⟩ := h.exists_state hs hpart
  rw [Machine.markAt?, hstate]
  exact a.mark?_kind a.transforms s node part

/-- Every state for a span is that of a node. -/
theorem exists_node_of_mark {i place callback : Nat} {mark : Mark}
    (hi : a.machine.markAt? i = some (mark, place, callback)) :
    ∃ n node span, b.digraph.Reaches root n ∧ b.nodes[n]? = some node ∧
      node.kind.mark? = some (mark, span) ∧ a.memo? n = some i := by
  obtain ⟨state, hstate, -⟩ := Option.bind_eq_some_iff.mp hi
  obtain ⟨s, hs, rfl, -⟩ := site_of_state h.nodup hstate
  obtain ⟨node, part, hpart, hn, -⟩ := h.part hs
  rw [h.markAt?_position hs hpart] at hi
  obtain ⟨⟨mark', span⟩, hmark, heq⟩ := Option.map_eq_some_iff.mp hi
  obtain rfl : mark' = mark := congrArg Prod.fst heq
  -- only matching nodes have sites behind their entry
  have hpath : s.path = [] := by
    obtain ⟨-, ⟨t, -, ht, -⟩ | ⟨-, hpath, -⟩⟩ := Outline.part?_cases hpart
    · obtain ⟨⟨word, hkind⟩, -⟩ := Blueprint.Node.trie_eq_some ht
      rw [hkind] at hmark
      cases hmark
    · exact hpath
  have hentry : s = Site.entry s.node := by
    rw [Site.entry, ← hpath]
  refine ⟨s.node, node, span, h.reaches hs, hn, hmark, ?_⟩
  rw [memo?_of_mem (hentry ▸ hs), entry, ← hentry]

/-- **An assembly is consistent about the places of spans** when all spans with a place
exist. -/
theorem placed (hknown : ∀ span ∈ groups.flatten, ∃ f, b.spanCallback? span = some f) :
    Mirror.Placed b root groups (a.finish root a.machine) a.memo? a.spanPlace a.spanPosition := by
  have hcallbacks : (a.finish root a.machine).machine.callbacks = a.machine.callbacks :=
    Machine.bypass_callbacks _ _
  have hmarks : (a.finish root a.machine).machine.markAt? = a.machine.markAt? :=
    funext (Machine.markAt?_bypass _ _)
  refine ⟨?place, ?callback, ?distinct, ?places, ?node, ?state⟩
  case place =>
    intro span hspan
    obtain ⟨place, hplace⟩ := Allocation.placeOf?_isSome hspan
    rw [spanPlace, h.groups, hplace]
    exact Allocation.lastListed_of_placeOf? hplace
  case callback =>
    intro span hspan
    obtain ⟨f, hf⟩ := hknown span hspan
    exact ⟨f, hf, hcallbacks ▸ h.callback_spanPosition hspan hf⟩
  case distinct =>
    rw [hcallbacks]
    exact a.nodup_map_key_callbacks.of_map
  case places =>
    have := a.places_eq (by rwa [h.groups, h.blueprint])
    rwa [h.groups] at this
  case node =>
    intro n span node mark hreach hn hmark
    have hs := h.entry_mem_iff.mpr hreach
    have hspan : node.span? = some span := by
      rw [node.span?_eq_map_mark?, hmark]
      rfl
    obtain ⟨place, hplace⟩ := (h.fit hs hn).place hspan
    obtain ⟨group, hgroup, hlisted⟩ := (Allocation.lastListed_of_placeOf? hplace).listed
    obtain ⟨part, hpart⟩ := Outline.exists_part?_entry hn
    refine ⟨List.mem_flatten.mpr ⟨group, List.mem_of_getElem? hgroup, hlisted⟩, ?_⟩
    rw [hmarks, memo?_of_mem hs, Option.bind_some, entry, h.markAt?_position hs hpart, hmark]
    rfl
  case state =>
    intro i place callback mark hi
    rw [hmarks] at hi
    exact h.exists_node_of_mark hi

end

end Regular

end Assembly

namespace Blueprint

theorem exists_spanCallback_of_checkGroups {b : Blueprint} {groups : List (List Nat)}
    (h : b.checkGroups groups = .ok ()) :
    ∀ span ∈ groups.flatten, ∃ f, b.spanCallback? span = some f := by
  unfold checkGroups at h
  split at h
  · rename_i hall
    intro span hspan
    exact Option.isSome_iff_exists.mp (List.all_eq_true.mp hall span hspan)
  · cases h

/-- **Spans in their places**, whatever calls have made the blueprint and however its spans are
distributed.  Of a compiled machine, the places are as many as the groups and list the
callbacks of their spans, and the states for a span agree on its place, that of the last group
which lists it, and on its callback, which is listed there.  When a reachable node starts or
ends a span without a group, nothing is compiled. -/
theorem placed_compile (calls : List Call) (stem : String) (options : Options)
    (allocator : Allocator) (root : Nat) (allocation : Allocation)
    (hallocation : (allocator (run {} calls) root).result = .ok allocation) :
    (∀ c, ((run {} calls).compile stem options allocator root).result = .ok c →
      c.places.length = allocation.groups.length ∧
      (∃ placeOf callbackOf, Mirror.Placed (run {} calls) root allocation.groups c
        ((run {} calls).assembly options allocation.groups stem root).memo? placeOf callbackOf) ∧
      ∀ i mark place callback, c.machine.markAt? i = some (mark, place, callback) →
        place < allocation.groups.length ∧
          ∃ callbacks, c.places[place]? = some callbacks ∧ callback ∈ callbacks) ∧
    ((∃ n node span, (run {} calls).digraph.Reaches root n ∧
        (run {} calls).nodes[n]? = some node ∧ node.span? = some span ∧
        ∀ group ∈ allocation.groups, span ∉ group) →
      ∃ e, ((run {} calls).compile stem options allocator root).result = .error e) := by
  have hb := sound_run calls
  constructor
  · intro c hok
    have hgroups := checkGroups_of_compile hok hallocation
    obtain ⟨allocation', hallocation', hflawless, rfl⟩ := compile_eq_ok hb hok
    obtain rfl : allocation' = allocation :=
      Except.ok.inj (hallocation'.symm.trans hallocation)
    have hplaced := (hflawless.regular hb options stem).placed
      (exists_spanCallback_of_checkGroups hgroups)
    have hlength := congrArg List.length hplaced.places
    rw [List.length_map] at hlength
    refine ⟨hlength, ⟨_, _, hplaced⟩, fun i mark place callback hi => ?_⟩
    obtain ⟨callbacks, hplace, hlisted⟩ := hplaced.listed hi
    exact ⟨hlength ▸ (List.getElem?_eq_some_iff.mp hplace).1, callbacks, hplace, hlisted⟩
  · rintro ⟨n, node, span, hreach, hn, hspan, hnone⟩
    cases hresult : ((run {} calls).compile stem options allocator root).result with
    | error e => exact ⟨e, rfl⟩
    | ok c =>
      obtain ⟨allocation', hallocation', hflawless, -⟩ := compile_eq_ok hb hresult
      obtain rfl : allocation' = allocation :=
        Except.ok.inj (hallocation'.symm.trans hallocation)
      obtain ⟨node', hn', hfit⟩ := hflawless n hreach
      obtain rfl : node' = node := Option.some.inj (hn'.symm.trans hn)
      obtain ⟨place, hplace⟩ := hfit.place hspan
      obtain ⟨group, hgroup, hlisted⟩ := (Allocation.lastListed_of_placeOf? hplace).listed
      exact absurd hlisted (hnone group (List.mem_of_getElem? hgroup))

/-- Calls for three spans that are open one after the other.  The first and the last have
callbacks of the same name. -/
def threeSpanCalls : List Call :=
  [.callback ⟨"on_key", .external .span⟩, .callback ⟨"on_value", .external .span⟩,
    .callback ⟨"on_key", .external .span⟩, .span 0, .span 1, .span 2, .spanStartNode 0,
    .spanStartNode 1, .spanEndNode 0, .spanEndNode 1, .spanStartNode 2, .spanEndNode 2,
    .errorNode 1 "done", .otherwise 0 1, .otherwise 1 2, .otherwise 2 3, .otherwise 3 4,
    .otherwise 4 5, .otherwise 5 6]

/-- Distributes spans as it is told. -/
def fixedPlaces (groups : List (List Nat)) : Allocator := fun _ _ =>
  Journaled.ofExcept (.ok ⟨groups.flatten, groups⟩)

/-- Groups that overlap, repeat a span and list nothing; and groups without the span of the
first node. -/
theorem placed_compile_overlapping :
    (∃ c, ((run {} threeSpanCalls).compile "parser" {} (fixedPlaces [[0, 1], [], [2, 0, 2]])
        0).result = .ok c ∧ c.places = [[0, 1], [], [0, 0, 0]] ∧
      (List.range 4).map c.machine.markAt? = [some (.start, 2, 0), some (.start, 0, 1),
        some (.finish, 2, 0), some (.finish, 0, 1)] ∧
      ∀ i mark place callback, c.machine.markAt? i = some (mark, place, callback) →
        place < 3 ∧ ∃ callbacks, c.places[place]? = some callbacks ∧ callback ∈ callbacks) ∧
    ∃ e, ((run {} threeSpanCalls).compile "parser" {} (fixedPlaces [[1], [2]]) 0).result =
      .error e := by
  constructor
  · have hvalue : ((run {} threeSpanCalls).compile "parser" {}
        (fixedPlaces [[0, 1], [], [2, 0, 2]]) 0).result.toOption.map
          (fun c => (c.places, (List.range 4).map c.machine.markAt?)) =
        some ([[0, 1], [], [0, 0, 0]], [some (.start, 2, 0), some (.start, 0, 1),
          some (.finish, 2, 0), some (.finish, 0, 1)]) := by cbv
    cases h : ((run {} threeSpanCalls).compile "parser" {}
        (fixedPlaces [[0, 1], [], [2, 0, 2]]) 0).result with
    | ok c =>
      obtain ⟨hplaces, hmarks⟩ := Prod.mk.inj (Option.some.inj (h ▸ hvalue))
      have hlisted := ((placed_compile threeSpanCalls "parser" {} _ 0 _ rfl).1 c h).2.2
      exact ⟨c, rfl, hplaces, hmarks, hlisted⟩
    | error e =>
      rw [h] at hvalue
      cases hvalue
  · have hstart : (run {} threeSpanCalls).nodes[0]? =
        some ⟨"span_start_on_key", .spanStart 0, [], some ⟨1, true⟩⟩ := by decide +kernel
    exact (placed_compile threeSpanCalls "parser" {} _ 0 _ rfl).2
      ⟨0, _, 0, .refl 0, hstart, rfl, by decide⟩

end Blueprint

end ByteMachine
