import ByteMachine.Compile.Assembly
import ByteMachine.Proofs.OpenSpans
import Mathlib.Data.Set.Function

/-! # Renaming handles

A handle is a position in the order of creation, and should mean no more than what it names.
Two blueprints are **isomorphic** from their roots (`Isomorphic`) when the handles that can be
reached, and the spans in use, correspond one to one such that nodes that correspond are
equal but for these handles.  The handle of a callback does not even have to correspond: it is
enough that nodes that correspond have equal callbacks.

An isomorphism says nothing about handles that cannot be reached, and so it can be continued
to an injective renaming of all handles (`Isomorphic.exists_renaming`).  Under a renaming the
nodes are reached in the same order (`Renaming.reachable`) and the spans get the same places
(`Renaming.allocate`).

The places are found from a table of the regions where spans can be open.  It is used for
lookups only, so that neither the order of its rows nor that of a region matters
(`allocateBy_of_relisted`). -/
namespace ByteMachine

/-- The edge to the renamed node. -/
def Edge.mapTarget (f : Nat → Nat) (e : Edge) : Edge := { e with target := f e.target }

/-- The edge to the renamed node. -/
def Otherwise.mapTarget (f : Nat → Nat) (o : Otherwise) : Otherwise :=
  { o with target := f o.target }

namespace Blueprint

/-! ## Isomorphic blueprints -/

/-- Kinds that are equal but for handles: spans are renamed, and callbacks do not count. -/
inductive Kind.Renamed (g : Nat → Nat) : Kind → Kind → Prop
  | error {code : Int} {reason : String} : Renamed g (.error code reason) (.error code reason)
  | pause {code : Int} {reason : String} : Renamed g (.pause code reason) (.pause code reason)
  | consume {field : String} : Renamed g (.consume field) (.consume field)
  | spanStart {span : Nat} : Renamed g (.spanStart span) (.spanStart (g span))
  | spanEnd {span : Nat} : Renamed g (.spanEnd span) (.spanEnd (g span))
  | invoke {c c' : Nat} : Renamed g (.invoke c) (.invoke c')
  | matching {transform : Option String} : Renamed g (.matching transform) (.matching transform)

/-- The kind with its span renamed and without the handle of its callback. -/
def Kind.shape (g : Nat → Nat) : Kind → Kind
  | .spanStart span => .spanStart (g span)
  | .spanEnd span => .spanEnd (g span)
  | .invoke _ => .invoke 0
  | kind => kind

theorem Kind.renamed_iff {g : Nat → Nat} {kind kind' : Kind} :
    Kind.Renamed g kind kind' ↔ kind'.shape id = kind.shape g := by
  constructor
  · intro h
    cases h <;> rfl
  · intro h
    cases kind <;> cases kind' <;> cases h <;> constructor

instance (g : Nat → Nat) (kind kind' : Kind) : Decidable (Kind.Renamed g kind kind') :=
  decidable_of_iff _ Kind.renamed_iff.symm

/-- **Nodes that are equal but for handles**, and that have equal callbacks. -/
structure Node.Renamed (b b' : Blueprint) (f g : Nat → Nat) (node node' : Node) : Prop where
  name : node'.name = node.name
  kind : Kind.Renamed g node.kind node'.kind
  edges : node'.edges = node.edges.map (Edge.mapTarget f)
  otherwise : node'.otherwise = node.otherwise.map (Otherwise.mapTarget f)
  callback : b'.callbackOf? node' = b.callbackOf? node

instance (b b' : Blueprint) (f g : Nat → Nat) (node node' : Node) :
    Decidable (node.Renamed b b' f g node') :=
  decidable_of_iff (node'.name = node.name ∧ Kind.Renamed g node.kind node'.kind ∧
      node'.edges = node.edges.map (Edge.mapTarget f) ∧
      node'.otherwise = node.otherwise.map (Otherwise.mapTarget f) ∧
      b'.callbackOf? node' = b.callbackOf? node)
    ⟨fun h => ⟨h.1, h.2.1, h.2.2.1, h.2.2.2.1, h.2.2.2.2⟩,
      fun h => ⟨h.name, h.kind, h.edges, h.otherwise, h.callback⟩⟩

/-- A node that can be reached starts or ends the span. -/
def Uses (b : Blueprint) (root span : Nat) : Prop :=
  ∃ n node, b.digraph.Reaches root n ∧ b.nodes[n]? = some node ∧ node.span? = some span

theorem uses_iff {b : Blueprint} {root s : Nat} :
    b.Uses root s ↔ s ∈ b.spansOf (b.reachable root) := by
  rw [mem_spansOf]
  constructor
  · rintro ⟨n, node, hn, hnode, hs⟩
    exact ⟨n, mem_reachable.mpr hn, node, hnode, hs⟩
  · rintro ⟨n, hn, node, hnode, hs⟩
    exact ⟨n, node, mem_reachable.mp hn, hnode, hs⟩

/-- **Blueprints that are isomorphic** from their roots: `f` maps the handles that can be
reached one to one, and `g` the spans in use. -/
structure Isomorphic (b b' : Blueprint) (root root' : Nat) (f g : Nat → Nat) : Prop where
  start : f root = root'
  nodes : Set.BijOn f {n | b.digraph.Reaches root n} {n | b'.digraph.Reaches root' n}
  spans : Set.BijOn g {s | b.Uses root s} {s | b'.Uses root' s}
  /-- A handle without a node corresponds to a handle without a node. -/
  node : ∀ n, b.digraph.Reaches root n →
    Option.Rel (Node.Renamed b b' f g) b.nodes[n]? b'.nodes[f n]?

/-- An injective renaming of all handles, under which the nodes that can be reached
correspond. -/
structure Renaming (b b' : Blueprint) (root : Nat) (f g : Nat → Nat) : Prop where
  nodes : Function.Injective f
  spans : Function.Injective g
  node : ∀ {n : Nat}, b.digraph.Reaches root n →
    Option.Rel (Node.Renamed b b' f g) b.nodes[n]? b'.nodes[f n]?

theorem rel_cases {α β : Type} {r : α → β → Prop} {o : Option α} {o' : Option β}
    (h : Option.Rel r o o') :
    (o = none ∧ o' = none) ∨ ∃ a a', o = some a ∧ o' = some a' ∧ r a a' := by
  cases h with
  | none => exact .inl ⟨rfl, rfl⟩
  | some h => exact .inr ⟨_, _, rfl, rfl, h⟩

theorem rel_iff {α β : Type} {r : α → β → Prop} {o : Option α} {o' : Option β} :
    Option.Rel r o o' ↔ o.isSome = o'.isSome ∧ ∀ a ∈ o, ∀ a' ∈ o', r a a' := by
  constructor
  · intro h
    cases h with
    | none => simp
    | some h => simpa using h
  · rintro ⟨hsome, h⟩
    cases o with
    | none =>
      cases o' with
      | none => exact .none
      | some a' => cases hsome
    | some a =>
      cases o' with
      | none => cases hsome
      | some a' => exact .some (h a rfl a' rfl)

instance {α β : Type} (r : α → β → Prop) [∀ a b, Decidable (r a b)] (o : Option α)
    (o' : Option β) : Decidable (Option.Rel r o o') :=
  decidable_of_iff _ rel_iff.symm

/-- What is injective on a list can be continued injectively. -/
theorem exists_injective_eqOn {f : Nat → Nat} {l : List Nat} (hf : Set.InjOn f {n | n ∈ l}) :
    ∃ f' : Nat → Nat, Function.Injective f' ∧ ∀ n ∈ l, f' n = f n := by
  obtain ⟨bound, hbound⟩ : ∃ bound, ∀ n ∈ l, f n < bound := by
    clear hf
    induction l with
    | nil => exact ⟨0, by simp⟩
    | cons a l ih =>
      obtain ⟨bound, hbound⟩ := ih
      refine ⟨max (f a + 1) bound, fun n hn => ?_⟩
      rcases List.mem_cons.mp hn with rfl | hn
      · omega
      · have := hbound n hn
        omega
  -- all other handles are moved behind those in use
  refine ⟨fun n => if n ∈ l then f n else bound + n, ?_, fun n hn => if_pos hn⟩
  intro m n heq
  dsimp only at heq
  by_cases hm : m ∈ l
  · by_cases hn : n ∈ l
    · rw [if_pos hm, if_pos hn] at heq
      exact hf hm hn heq
    · rw [if_pos hm, if_neg hn] at heq
      have := hbound m hm
      omega
  · by_cases hn : n ∈ l
    · rw [if_neg hm, if_pos hn] at heq
      have := hbound n hn
      omega
    · rw [if_neg hm, if_neg hn] at heq
      omega

section Renamed
variable {b b' : Blueprint} {f g : Nat → Nat} {node node' : Node}

theorem Kind.Renamed.congr {g' : Nat → Nat} {kind kind' : Kind} (h : Kind.Renamed g kind kind')
    (hspan : ∀ s, kind = .spanStart s ∨ kind = .spanEnd s → g' s = g s) :
    Kind.Renamed g' kind kind' := by
  cases h with
  | spanStart => exact hspan _ (.inl rfl) ▸ .spanStart
  | spanEnd => exact hspan _ (.inr rfl) ▸ .spanEnd
  | error => exact .error
  | pause => exact .pause
  | consume => exact .consume
  | invoke => exact .invoke
  | matching => exact .matching

/-- Only the handles that the node mentions matter. -/
theorem Node.Renamed.congr {f' g' : Nat → Nat} (h : node.Renamed b b' f g node')
    (hf : ∀ n ∈ node.successors, f' n = f n) (hg : ∀ s, node.span? = some s → g' s = g s) :
    node.Renamed b b' f' g' node' where
  name := h.name
  kind := h.kind.congr fun s hs => hg s (Node.span?_eq_some_iff.mpr hs)
  edges := by
    rw [h.edges]
    refine List.map_congr_left fun e he => ?_
    have htarget : e.target ∈ node.successors := List.mem_append_left _ (List.mem_map_of_mem he)
    rw [Edge.mapTarget, Edge.mapTarget, hf _ htarget]
  otherwise := by
    rw [h.otherwise]
    refine Option.map_congr fun o ho => ?_
    have htarget : o.target ∈ node.successors := List.mem_append_right _ (by simp [ho])
    rw [Otherwise.mapTarget, Otherwise.mapTarget, hf _ htarget]
  callback := h.callback

theorem Node.Renamed.successors (h : node.Renamed b b' f g node') :
    node'.successors = node.successors.map f := by
  rw [Node.successors, h.edges, h.otherwise, Node.successors, List.map_append, List.map_map,
    List.map_map]
  congr 1
  cases node.otherwise <;> rfl

theorem Node.Renamed.span? (h : node.Renamed b b' f g node') : node'.span? = node.span?.map g := by
  obtain ⟨name, kind, edges, otherwise⟩ := node
  obtain ⟨name', kind', edges', otherwise'⟩ := node'
  have hkind : Kind.Renamed g kind kind' := h.kind
  cases hkind <;> rfl

theorem Kind.Renamed.eq_spanStart_iff {kind kind' : Kind} (h : Kind.Renamed g kind kind')
    (hg : Function.Injective g) {s : Nat} : kind' = .spanStart (g s) ↔ kind = .spanStart s := by
  cases h <;> simp [hg.eq_iff]

theorem Kind.Renamed.eq_spanEnd_iff {kind kind' : Kind} (h : Kind.Renamed g kind kind')
    (hg : Function.Injective g) {s : Nat} : kind' = .spanEnd (g s) ↔ kind = .spanEnd s := by
  cases h <;> simp [hg.eq_iff]

end Renamed

/-- **An isomorphism can be continued to all handles.** -/
theorem Isomorphic.exists_renaming {b b' : Blueprint} {root root' : Nat} {f g : Nat → Nat}
    (h : Isomorphic b b' root root' f g) :
    ∃ f' g', f' root = root' ∧ Renaming b b' root f' g' := by
  have hnodes : Set.InjOn f {n | n ∈ b.reachable root} := by
    intro m hm n hn heq
    exact h.nodes.injOn (mem_reachable.mp hm) (mem_reachable.mp hn) heq
  have hspans : Set.InjOn g {s | s ∈ b.spansOf (b.reachable root)} := by
    intro s hs t ht heq
    exact h.spans.injOn (uses_iff.mpr hs) (uses_iff.mpr ht) heq
  obtain ⟨f', hf', hff'⟩ := exists_injective_eqOn hnodes
  obtain ⟨g', hg', hgg'⟩ := exists_injective_eqOn hspans
  refine ⟨f', g', ?_, hf', hg', ?_⟩
  · rw [hff' root (mem_reachable.mpr (.refl root)), h.start]
  · intro n hn
    rw [hff' n (mem_reachable.mpr hn)]
    rcases rel_cases (h.node n hn) with ⟨hnode, hnode'⟩ | ⟨node, node', hnode, hnode', hrenamed⟩
    · rw [hnode, hnode']
      exact .none
    · rw [hnode, hnode']
      refine .some (hrenamed.congr ?_ ?_)
      · intro m hm
        exact hff' m (mem_reachable.mpr (hn.step (mem_next.mpr ⟨node, hnode, hm⟩)))
      · intro s hs
        exact hgg' s (uses_iff.mp ⟨n, node, hn, hnode, hs⟩)

/-! ## The nodes that can be reached -/

namespace Renaming

section
variable {b b' : Blueprint} {root : Nat} {f g : Nat → Nat} (h : Renaming b b' root f g)
include h

/-- A handle that can be reached names nothing on both sides, or nodes that correspond. -/
theorem cases {n : Nat} (hn : b.digraph.Reaches root n) :
    (b.nodes[n]? = none ∧ b'.nodes[f n]? = none) ∨
      ∃ node node', b.nodes[n]? = some node ∧ b'.nodes[f n]? = some node' ∧
        node.Renamed b b' f g node' :=
  rel_cases (h.node hn)

theorem next {n : Nat} (hn : b.digraph.Reaches root n) : b'.next (f n) = (b.next n).map f := by
  unfold Blueprint.next
  rcases h.cases hn with ⟨hnode, hnode'⟩ | ⟨node, node', hnode, hnode', hrenamed⟩
  · rw [hnode, hnode']
    rfl
  · rw [hnode, hnode']
    exact hrenamed.successors

/-- **The nodes are reached in the same order.** -/
theorem reachable : b'.reachable (f root) = (b.reachable root).map f :=
  Digraph.preorder_map h.nodes fun _ hu => h.next hu

/-! ## Spans -/

/-- The spans are found in the same order. -/
theorem spansOf :
    b'.spansOf (b'.reachable (f root)) = (b.spansOf (b.reachable root)).map g := by
  rw [h.reachable, Blueprint.spansOf, Blueprint.spansOf, ← Digraph.eraseDups_map h.spans,
    List.filterMap_map, List.map_filterMap]
  congr 1
  refine List.filterMap_congr fun n hn => ?_
  rcases h.cases (mem_reachable.mp hn) with
    ⟨hnode, hnode'⟩ | ⟨node, node', hnode, hnode', hrenamed⟩
  · simp [hnode, hnode']
  · simp [hnode, hnode', hrenamed.span?]

theorem nextWithin {n : Nat} (hn : b.digraph.Reaches root n) (s : Nat) :
    b'.nextWithin (g s) (f n) = (b.nextWithin s n).map f := by
  unfold Blueprint.nextWithin
  rcases h.cases hn with ⟨hnode, hnode'⟩ | ⟨node, node', hnode, hnode', hrenamed⟩
  · rw [hnode, hnode']
    rfl
  · rw [hnode, hnode']
    dsimp only
    by_cases hend : node.kind = .spanEnd s
    · rw [if_pos hend, if_pos ((hrenamed.kind.eq_spanEnd_iff h.spans).mpr hend)]
      rfl
    · rw [if_neg hend, if_neg fun h' => hend ((hrenamed.kind.eq_spanEnd_iff h.spans).mp h')]
      exact hrenamed.successors

theorem behindStarts (s : Nat) :
    b'.behindStarts (b'.reachable (f root)) (g s) =
      (b.behindStarts (b.reachable root) s).map f := by
  rw [h.reachable, Blueprint.behindStarts, Blueprint.behindStarts, List.flatMap_map,
    List.map_flatMap]
  refine List.flatMap_congr fun n hn => ?_
  rcases h.cases (mem_reachable.mp hn) with
    ⟨hnode, hnode'⟩ | ⟨node, node', hnode, hnode', hrenamed⟩
  · rw [hnode, hnode']
    rfl
  · rw [hnode, hnode']
    dsimp only
    by_cases hstart : node.kind = .spanStart s
    · rw [if_pos hstart, if_pos ((hrenamed.kind.eq_spanStart_iff h.spans).mpr hstart)]
      exact hrenamed.successors
    · rw [if_neg hstart, if_neg fun h' => hstart ((hrenamed.kind.eq_spanStart_iff h.spans).mp h')]
      rfl

/-- A span can be open on entry to the renamed nodes. -/
theorem openRegion (s : Nat) :
    b'.openRegion (b'.reachable (f root)) (g s) = (b.openRegion (b.reachable root) s).map f := by
  have hclosed : ∀ u, b.digraph.Reaches root u → ∀ v ∈ (b.digraphWithin s).next u,
      b.digraph.Reaches root v := by
    intro u hu v hv
    obtain ⟨node, hnode, -, hv⟩ := mem_nextWithin.mp hv
    exact hu.step (mem_next.mpr ⟨node, hnode, hv⟩)
  have hstack : ∀ v ∈ b.behindStarts (b.reachable root) s, b.digraph.Reaches root v := by
    intro v hv
    obtain ⟨n, hn, node, hnode, -, hv⟩ := mem_behindStarts.mp hv
    exact (mem_reachable.mp hn).step (mem_next.mpr ⟨node, hnode, hv⟩)
  rw [Blueprint.openRegion, h.behindStarts]
  exact Digraph.walk_map h.nodes hclosed (fun u hu => h.nextWithin hu s) hstack []

theorem openRegions :
    b'.openRegions (b'.reachable (f root)) =
      (b.openRegions (b.reachable root)).map (Prod.map g (List.map f)) := by
  rw [Blueprint.openRegions, h.spansOf, List.map_map, Blueprint.openRegions, List.map_map]
  refine List.map_congr_left fun s _ => ?_
  show (g s, b'.openRegion _ (g s)) = (g s, (b.openRegion _ s).map f)
  rw [h.openRegion]

end

end Renaming

/-! ## Places -/

/-- Renamed keys are looked up under their new names. -/
theorem lookup_map {α α' β γ : Type} [BEq α] [LawfulBEq α] [BEq α'] [LawfulBEq α'] {g : α → α'}
    (hg : Function.Injective g) (k : β → γ) (l : List (α × β)) (a : α) :
    (l.map (Prod.map g k)).lookup (g a) = (l.lookup a).map k := by
  induction l with
  | nil => rfl
  | cons row l ih =>
    obtain ⟨key, value⟩ := row
    rw [List.map_cons, Prod.map_apply, List.lookup_cons, List.lookup_cons]
    by_cases hkey : a = key
    · subst hkey
      simp
    · have hne : (a == key) = false := by simpa using hkey
      have hne' : (g a == g key) = false := by simpa using hg.ne hkey
      rw [hne, hne']
      exact ih

section Tables
variable {f g : Nat → Nat} (hf : Function.Injective f) (hg : Function.Injective g)
variable (regions : List (Nat × List Nat))
include hg

theorem lookup_map_regions (s : Nat) :
    ((regions.map (Prod.map g (List.map f))).lookup (g s)).getD [] =
      ((regions.lookup s).getD []).map f := by
  rw [lookup_map hg]
  cases regions.lookup s <;> rfl

include hf

theorem overlaps_map_regions (s t : Nat) :
    overlaps (regions.map (Prod.map g (List.map f))) (g s) (g t) = overlaps regions s t := by
  have hne : (g s != g t) = (s != t) := by
    rw [Bool.eq_iff_iff, bne_iff_ne, bne_iff_ne]
    exact hg.ne_iff
  rw [overlaps, overlaps, hne, lookup_map_regions hg, lookup_map_regions hg, List.any_map]
  congr 2
  funext n
  exact decide_eq_decide.mpr (List.mem_map_of_injective hf)

end Tables

end Blueprint

namespace Allocation

/-- The allocation of the renamed spans. -/
def mapSpans (g : Nat → Nat) (a : Allocation) : Allocation :=
  ⟨a.spans.map g, a.groups.map (List.map g)⟩

section FirstFit
variable {g : Nat → Nat} {overlap overlap' : Nat → Nat → Bool}
variable (hoverlap : ∀ s t, overlap' (g s) (g t) = overlap s t)
include hoverlap

theorem place_map (span : Nat) (groups : List (List Nat)) :
    place overlap' (g span) (groups.map (List.map g)) =
      (place overlap span groups).map (List.map g) := by
  induction groups with
  | nil => rfl
  | cons group groups ih =>
    have hany : (group.map g).any (overlap' (g span)) = group.any (overlap span) := by
      rw [List.any_map]
      exact congrArg group.any (funext fun t => hoverlap span t)
    rw [List.map_cons, place, place, hany]
    split
    · rw [List.map_cons, ih]
    · rw [List.map_cons, List.map_append, List.map_singleton]

/-- First fit does not look at names. -/
theorem firstFit_map (spans : List Nat) :
    firstFit overlap' (spans.map g) = (firstFit overlap spans).map (List.map g) := by
  have hfold : ∀ groups : List (List Nat),
      (spans.map g).foldl (fun groups span => place overlap' span groups)
          (groups.map (List.map g)) =
        (spans.foldl (fun groups span => place overlap span groups) groups).map (List.map g) := by
    induction spans with
    | nil => exact fun groups => rfl
    | cons span spans ih =>
      intro groups
      rw [List.map_cons, List.foldl_cons, List.foldl_cons, place_map hoverlap]
      exact ih _
  exact hfold []

end FirstFit

theorem placeOf?_map {g : Nat → Nat} (hg : Function.Injective g) (groups : List (List Nat))
    (s : Nat) : placeOf? (groups.map (List.map g)) (g s) = placeOf? groups s := by
  rw [placeOf?, placeOf?, List.zipIdx_map, ← List.map_reverse, List.find?_map, Option.map_map]
  have hpred : ((fun part : List Nat × Nat => decide (g s ∈ part.1)) ∘ Prod.map (List.map g) id) =
      fun part => decide (s ∈ part.1) := by
    funext part
    exact decide_eq_decide.mpr (List.mem_map_of_injective hg)
  rw [hpred]
  rfl

end Allocation

namespace Blueprint

theorem findSome?_congr {α β : Type} {p q : α → Option β} {l : List α}
    (h : ∀ a ∈ l, p a = q a) : l.findSome? p = l.findSome? q := by
  induction l with
  | nil => rfl
  | cons a l ih =>
    rw [List.findSome?_cons, List.findSome?_cons, h a List.mem_cons_self,
      ih fun c hc => h c (List.mem_cons_of_mem _ hc)]

namespace Renaming

section
variable {b b' : Blueprint} {root : Nat} {f g : Nat → Nat} (h : Renaming b b' root f g)
include h

theorem unmatchedEnd? (regions : List (Nat × List Nat)) {n : Nat}
    (hn : b.digraph.Reaches root n) :
    b'.unmatchedEnd? (regions.map (Prod.map g (List.map f))) (f n) =
      b.unmatchedEnd? regions n := by
  unfold Blueprint.unmatchedEnd?
  rcases h.cases hn with ⟨hnode, hnode'⟩ | ⟨node, node', hnode, hnode', hrenamed⟩
  · rw [hnode, hnode']
  · obtain ⟨name, kind, edges, otherwise⟩ := node
    obtain ⟨name', kind', edges', otherwise'⟩ := node'
    obtain rfl : name' = name := hrenamed.name
    have hkind : Kind.Renamed g kind kind' := hrenamed.kind
    rw [hnode, hnode']
    cases hkind with
    | @spanEnd s =>
      dsimp only
      rw [lookup_map_regions h.spans]
      simp only [List.mem_map_of_injective h.nodes]
    | _ => rfl

/-- **The spans get the same places.** -/
theorem allocate : b'.allocate (f root) = (b.allocate root).map (Allocation.mapSpans g) := by
  have hknown : (b'.reachable (f root)).any (b'.nodes.size ≤ ·) =
      (b.reachable root).any (b.nodes.size ≤ ·) := by
    rw [h.reachable, List.any_map, Bool.eq_iff_iff, List.any_eq_true, List.any_eq_true]
    refine exists_congr fun n => and_congr_right fun hn => ?_
    rcases h.cases (mem_reachable.mp hn) with
      ⟨hnode, hnode'⟩ | ⟨node, node', hnode, hnode', -⟩
    · simpa using iff_of_true (Array.getElem?_eq_none_iff.mp hnode')
        (Array.getElem?_eq_none_iff.mp hnode)
    · have hlt := (Array.getElem?_eq_some_iff.mp hnode).1
      have hlt' := (Array.getElem?_eq_some_iff.mp hnode').1
      simp only [Function.comp_apply, decide_eq_true_eq]
      omega
  have hends : (b'.reachable (f root)).findSome?
        (b'.unmatchedEnd? (b'.openRegions (b'.reachable (f root)))) =
      (b.reachable root).findSome? (b.unmatchedEnd? (b.openRegions (b.reachable root))) := by
    rw [h.openRegions, h.reachable, List.findSome?_map]
    exact findSome?_congr fun n hn => h.unmatchedEnd? _ (mem_reachable.mp hn)
  unfold Blueprint.allocate
  dsimp only
  rw [hknown, hends]
  split
  · rfl
  · split
    · rfl
    · rw [h.spansOf, h.openRegions,
        Allocation.firstFit_map (overlaps_map_regions h.nodes h.spans _)]
      rfl

end

end Renaming

/-! ## The order of a table -/

/-- The same table with its rows, and the nodes of each row, in another order. -/
def Relisted (regions regions' : List (Nat × List Nat)) : Prop :=
  ∃ rows, regions.Perm rows ∧
    List.Forall₂ (fun row row' => row.1 = row'.1 ∧ row.2.Perm row'.2) rows regions'

/-- The places that are found from a table of the regions where spans can be open. -/
def allocateBy (b : Blueprint) (regions : List (Nat × List Nat)) (root : Nat) :
    Except AllocationError Allocation :=
  let nodes := b.reachable root
  if nodes.any (b.nodes.size ≤ ·) then .error .unknownHandle
  else
    match nodes.findSome? (b.unmatchedEnd? regions) with
    | some name => .error (.unmatchedEnd name)
    | none =>
      let spans := b.spansOf nodes
      .ok ⟨spans, Allocation.firstFit (overlaps regions) spans⟩

theorem allocate_eq_allocateBy (b : Blueprint) (root : Nat) :
    b.allocate root = b.allocateBy (b.openRegions (b.reachable root)) root := rfl

section Order
variable {b : Blueprint} {root : Nat} {regions regions' : List (Nat × List Nat)}

/-- When no span has two rows, a lookup does not depend on the order of rows. -/
theorem lookup_eq_of_perm (h : regions.Perm regions') (hkeys : (regions.map (·.1)).Nodup)
    (s : Nat) : regions'.lookup s = regions.lookup s := by
  induction h with
  | nil => rfl
  | cons row _ ih =>
    rw [List.lookup_cons, List.lookup_cons, ih (List.nodup_cons.mp hkeys).2]
  | swap row row' rows =>
    obtain ⟨t, region⟩ := row
    obtain ⟨t', region'⟩ := row'
    have hne : t' ≠ t := by
      rw [List.map_cons, List.nodup_cons] at hkeys
      exact fun heq => hkeys.1 (heq ▸ List.mem_cons_self)
    simp only [List.lookup_cons]
    by_cases hs : s = t
    · have hs' : (s == t') = false := by simpa [hs] using hne.symm
      rw [hs']
    · have hs' : (s == t) = false := by simpa using hs
      rw [hs']
  | trans hfirst hsecond ih ih' =>
    rw [ih' ((hfirst.map _).nodup_iff.mp hkeys), ih hkeys]

theorem mem_lookup_of_relisted (h : Relisted regions regions')
    (hkeys : (regions.map (·.1)).Nodup) (s n : Nat) :
    n ∈ (regions'.lookup s).getD [] ↔ n ∈ (regions.lookup s).getD [] := by
  obtain ⟨rows, hperm, hrows⟩ := h
  rw [← lookup_eq_of_perm hperm hkeys]
  clear hperm hkeys
  induction hrows with
  | nil => exact Iff.rfl
  | @cons row row' rows rows' hrow _ ih =>
    rw [List.lookup_cons, List.lookup_cons, hrow.1]
    split
    · exact hrow.2.mem_iff.symm
    · exact ih

/-- No span has two regions. -/
theorem nodup_map_openRegions (b : Blueprint) (nodes : List Nat) :
    ((b.openRegions nodes).map (·.1)).Nodup := by
  rw [openRegions, List.map_map]
  show ((b.spansOf nodes).map id).Nodup
  rw [List.map_id]
  exact Digraph.nodup_eraseDups _

/-- **The order in which regions are listed has no effect.** -/
theorem allocateBy_of_relisted (h : Relisted (b.openRegions (b.reachable root)) regions) :
    b.allocateBy regions root = b.allocate root := by
  have hmem := mem_lookup_of_relisted h (b.nodup_map_openRegions _)
  have hoverlaps : overlaps regions = overlaps (b.openRegions (b.reachable root)) := by
    funext s t
    rw [overlaps, overlaps]
    congr 1
    rw [Bool.eq_iff_iff, List.any_eq_true, List.any_eq_true]
    simp only [decide_eq_true_eq, hmem]
  have hends : b.unmatchedEnd? regions = b.unmatchedEnd? (b.openRegions (b.reachable root)) := by
    funext n
    simp only [unmatchedEnd?, hmem]
  rw [allocate_eq_allocateBy, allocateBy, allocateBy, hoverlaps, hends]

end Order

end Blueprint

end ByteMachine
