import ByteMachine.Proofs.OpenSpans
import Mathlib

/-! # Spans that are open together

A path is followed node by node, and every span that it starts stays open until the path ends
it (`Path`, `openAfter`).  Of two spans that are open at the same point of some path, both
regions hold the node that is entered there, so that first fit keeps them apart
(`Fits.not_overlap`).  Hence spans that share a place are never open together
(`allocate_separates`).

For the ends of spans less is known.  Places are given as soon as every end is reached with
its span open along *some* path (`allocate_ends`).  Where paths meet that disagree, an end may
still be reached with its span closed (`not_open_on_every_path`). -/
namespace ByteMachine

/-! ## Paths -/

namespace Blueprint

variable {b : Blueprint} {root : Nat}

/-- **A path** from the root to a node, given by the nodes that it passes before. -/
inductive Path (b : Blueprint) (root : Nat) : List Nat → Nat → Prop
  | root : Path b root [] root
  | step {passed : List Nat} {n n' : Nat} (h : Path b root passed n) (hnext : n' ∈ b.next n) :
      Path b root (passed ++ [n]) n'

/-- Whether a span is open behind the nodes that were passed, if none is open at first. -/
def openAfter (b : Blueprint) (span : Nat) (passed : List Nat) : Bool :=
  passed.foldl (fun opened n => b.openBehind span n opened) false

theorem openAfter_append (b : Blueprint) (span : Nat) (passed : List Nat) (n : Nat) :
    b.openAfter span (passed ++ [n]) = b.openBehind span n (b.openAfter span passed) := by
  rw [openAfter, List.foldl_append]
  rfl

theorem Path.along {passed : List Nat} {n : Nat} (h : b.Path root passed n) (span : Nat) :
    Along b root span n (b.openAfter span passed) := by
  induction h with
  | root => exact .root
  | step _ hnext ih =>
    rw [openAfter_append]
    exact ih.step hnext

theorem Along.exists_path {span n : Nat} {opened : Bool} (h : Along b root span n opened) :
    ∃ passed, b.Path root passed n ∧ b.openAfter span passed = opened := by
  induction h with
  | root => exact ⟨[], .root, rfl⟩
  | step _ hnext ih =>
    obtain ⟨passed, hpath, rfl⟩ := ih
    exact ⟨_, hpath.step hnext, openAfter_append _ _ _ _⟩

theorem along_true_iff {span n : Nat} :
    Along b root span n true ↔ ∃ passed, b.Path root passed n ∧ b.openAfter span passed = true := by
  refine ⟨Along.exists_path, ?_⟩
  rintro ⟨passed, hpath, hopen⟩
  exact hopen ▸ hpath.along span

end Blueprint

/-! ## First fit -/

namespace Allocation

section Fits
variable {overlap : Nat → Nat → Bool} {groups : List (List Nat)}

/-- Every place is used, and no span overlaps one that was put into the same place before
it. -/
structure Fits (overlap : Nat → Nat → Bool) (groups : List (List Nat)) : Prop where
  nonempty : ∀ group ∈ groups, group ≠ []
  apart : ∀ group ∈ groups, group.Pairwise fun s t => overlap t s = false

theorem Fits.tail {group : List Nat} (h : Fits overlap (group :: groups)) : Fits overlap groups :=
  ⟨fun g hg => h.nonempty g (List.mem_cons_of_mem _ hg),
    fun g hg => h.apart g (List.mem_cons_of_mem _ hg)⟩

theorem Fits.cons {group : List Nat} (hne : group ≠ [])
    (hapart : group.Pairwise fun s t => overlap t s = false) (h : Fits overlap groups) :
    Fits overlap (group :: groups) := by
  refine ⟨fun g hg => ?_, fun g hg => ?_⟩
  · rcases List.mem_cons.mp hg with rfl | hg
    · exact hne
    · exact h.nonempty g hg
  · rcases List.mem_cons.mp hg with rfl | hg
    · exact hapart
    · exact h.apart g hg

/-- A span is put where nothing overlaps it. -/
theorem Fits.place (h : Fits overlap groups) (span : Nat) :
    Fits overlap (Allocation.place overlap span groups) := by
  induction groups with
  | nil => exact .cons (List.cons_ne_nil _ _) (List.pairwise_singleton _ _) h
  | cons group rest ih =>
    have hne := h.nonempty group List.mem_cons_self
    have hapart := h.apart group List.mem_cons_self
    rw [Allocation.place]
    split
    · exact .cons hne hapart (ih h.tail)
    · rename_i hfree
      have hnone : ∀ s ∈ group, overlap span s = false := by simpa using hfree
      refine .cons (List.append_ne_nil_of_left_ne_nil hne _) ?_ h.tail
      rw [List.pairwise_append]
      refine ⟨hapart, List.pairwise_singleton _ _, ?_⟩
      intro s hs t ht
      rw [List.mem_singleton.mp ht]
      exact hnone s hs

theorem fits_firstFit (overlap : Nat → Nat → Bool) (spans : List Nat) :
    Fits overlap (firstFit overlap spans) := by
  have hfold : ∀ groups, Fits overlap groups → Fits overlap
      (spans.foldl (fun groups span => Allocation.place overlap span groups) groups) := by
    induction spans with
    | nil => exact fun groups h => h
    | cons span spans ih => exact fun groups h => ih _ (h.place span)
  exact hfold [] ⟨fun _ h => absurd h List.not_mem_nil, fun _ h => absurd h List.not_mem_nil⟩

/-- **Spans that share a place do not overlap.** -/
theorem Fits.not_overlap (h : Fits overlap groups) (hsymm : ∀ s t, overlap s t = overlap t s)
    {group : List Nat} (hgroup : group ∈ groups) {s t : Nat} (hs : s ∈ group) (ht : t ∈ group)
    (hne : s ≠ t) : overlap s t = false := by
  have : Std.Symm fun s t => overlap t s = false := ⟨fun s t hst => hsymm s t ▸ hst⟩
  rw [hsymm]
  exact (h.apart group hgroup).forall hs ht hne

end Fits

end Allocation

namespace Blueprint

variable {b : Blueprint} {root : Nat}

theorem overlaps_symm (regions : List (Nat × List Nat)) (s t : Nat) :
    overlaps regions s t = overlaps regions t s := by
  rw [Bool.eq_iff_iff]
  simp [overlaps, ne_comm, and_comm]

/-- A span that can be open is started somewhere. -/
theorem mem_spansOf_of_along {span n : Nat} (h : Along b root span n true) :
    span ∈ b.spansOf (b.reachable root) := by
  obtain ⟨u, hu, -⟩ := mem_openRegion.mp (mem_openRegion_iff.mpr h)
  obtain ⟨start, hstart, node, hnode, hkind, -⟩ := mem_behindStarts.mp hu
  exact mem_spansOf.mpr ⟨start, hstart, node, hnode, by rw [Node.span?, hkind]⟩

/-- Spans that can be open on entry to the same node overlap. -/
theorem overlaps_of_along {s t n : Nat} (hne : s ≠ t) (hs : Along b root s n true)
    (ht : Along b root t n true) :
    overlaps (b.openRegions (b.reachable root)) s t = true := by
  rw [overlaps, lookup_openRegions (mem_spansOf_of_along hs),
    lookup_openRegions (mem_spansOf_of_along ht)]
  simp only [Option.getD_some, Bool.and_eq_true, bne_iff_ne, List.any_eq_true, decide_eq_true_eq]
  exact ⟨hne, n, mem_openRegion_iff.mpr hs, mem_openRegion_iff.mpr ht⟩

/-- **What places are given for**: all reachable nodes exist, and each end of a span is
reached with the span open along some path. -/
theorem allocate_eq_ok {allocation : Allocation} (h : b.allocate root = .ok allocation) :
    (∀ n, b.digraph.Reaches root n → ∃ node, b.nodes[n]? = some node) ∧
      (∀ n node span, b.digraph.Reaches root n → b.nodes[n]? = some node →
        node.kind = .spanEnd span → Along b root span n true) ∧
      allocation.groups = Allocation.firstFit (overlaps (b.openRegions (b.reachable root)))
        (b.spansOf (b.reachable root)) := by
  have hexists : ∀ n, b.digraph.Reaches root n → ∃ node, b.nodes[n]? = some node := by
    intro n hn
    refine Option.ne_none_iff_exists'.mp fun hnone => ?_
    rw [allocate_of_unknown hn hnone] at h
    cases h
  refine ⟨hexists, ?_⟩
  rcases allocate_cases hexists with
    ⟨n, node, span, -, -, -, -, herror⟩ | ⟨hends, found, hok, hgroups⟩
  · rw [h] at herror
    cases herror
  · obtain rfl : allocation = found := Except.ok.inj (h.symm.trans hok)
    exact ⟨hends, hgroups⟩

/-! ## Places of their own -/

/-- **Groups of spans that can share places.** -/
structure Separates (b : Blueprint) (root : Nat) (groups : List (List Nat)) : Prop where
  nonempty : ∀ group ∈ groups, group ≠ []
  disjoint : groups.Pairwise List.Disjoint
  /-- No group lists a span twice. -/
  once : ∀ group ∈ groups, group.Nodup
  /-- The groups hold the spans of the reachable nodes. -/
  spans : ∀ s, (∃ group ∈ groups, s ∈ group) ↔
    ∃ n node, b.digraph.Reaches root n ∧ b.nodes[n]? = some node ∧
      (node.kind = .spanStart s ∨ node.kind = .spanEnd s)
  /-- Two spans that are open together along a path are in different groups. -/
  apart : ∀ {passed : List Nat} {n s t : Nat}, b.Path root passed n → s ≠ t →
    b.openAfter s passed = true → b.openAfter t passed = true →
    ∃ (i j : Nat) (group group' : List Nat), groups[i]? = some group ∧ groups[j]? = some group' ∧
      s ∈ group ∧ t ∈ group' ∧ i ≠ j

theorem mem_spansOf_reachable {s : Nat} :
    s ∈ b.spansOf (b.reachable root) ↔
      ∃ n node, b.digraph.Reaches root n ∧ b.nodes[n]? = some node ∧
        (node.kind = .spanStart s ∨ node.kind = .spanEnd s) := by
  simp only [mem_spansOf, mem_reachable, Node.span?_eq_some_iff]
  constructor
  · rintro ⟨n, hn, node, hnode, hkind⟩
    exact ⟨n, node, hn, hnode, hkind⟩
  · rintro ⟨n, node, hn, hnode, hkind⟩
    exact ⟨n, hn, node, hnode, hkind⟩

/-- **Spans that are open together never share a place**, in whatever graph and along whatever
path. -/
theorem allocate_separates (b : Blueprint) (root : Nat) (allocation : Allocation)
    (h : b.allocate root = .ok allocation) : b.Separates root allocation.groups := by
  obtain ⟨-, -, hgroups⟩ := allocate_eq_ok h
  have hfits := Allocation.fits_firstFit (overlaps (b.openRegions (b.reachable root)))
    (b.spansOf (b.reachable root))
  have hperm := Allocation.flatten_firstFit_perm (overlaps (b.openRegions (b.reachable root)))
    (b.spansOf (b.reachable root))
  rw [← hgroups] at hfits hperm
  have hmem : ∀ s, (∃ group ∈ allocation.groups, s ∈ group) ↔ s ∈ b.spansOf (b.reachable root) := by
    intro s
    rw [← List.mem_flatten]
    exact hperm.mem_iff
  have hnodup : allocation.groups.flatten.Nodup := hperm.nodup_iff.mpr (Digraph.nodup_eraseDups _)
  rw [List.nodup_flatten] at hnodup
  refine ⟨hfits.nonempty, hnodup.2, hnodup.1, fun s => (hmem s).trans mem_spansOf_reachable, ?_⟩
  intro passed n s t hpath hne hs ht
  have hs : Along b root s n true := hs ▸ hpath.along s
  have ht : Along b root t n true := ht ▸ hpath.along t
  obtain ⟨group, hgroup, hsmem⟩ := (hmem s).mpr (mem_spansOf_of_along hs)
  obtain ⟨group', hgroup', htmem⟩ := (hmem t).mpr (mem_spansOf_of_along ht)
  obtain ⟨i, hi⟩ := List.mem_iff_getElem?.mp hgroup
  obtain ⟨j, hj⟩ := List.mem_iff_getElem?.mp hgroup'
  refine ⟨i, j, group, group', hi, hj, hsmem, htmem, ?_⟩
  rintro rfl
  obtain rfl : group = group' := Option.some.inj (hi.symm.trans hj)
  have hfree := hfits.not_overlap (overlaps_symm _) hgroup hsmem htmem hne
  rw [overlaps_of_along hne hs ht] at hfree
  cases hfree

/-- Calls for three spans in a loop: the second lies within the first, and the third comes
behind both. -/
def nestedCalls : List Call :=
  [.callback ⟨"on_outer", .external .span⟩, .callback ⟨"on_inner", .external .span⟩,
    .callback ⟨"on_rest", .external .span⟩, .span 0, .span 1, .span 2, .matchNode "start",
    .spanStartNode 0, .spanStartNode 1, .spanEndNode 1, .spanEndNode 0, .spanStartNode 2,
    .spanEndNode 2, .otherwise 0 1, .otherwise 1 2, .otherwise 2 3, .otherwise 3 4, .otherwise 4 5,
    .otherwise 5 6, .skipTo 6 0]

/-- The first two spans are open together and have a place each, of which the third one shares
the first. -/
theorem allocate_separates_nested :
    (run {} nestedCalls).allocate 0 = .ok ⟨[0, 1, 2], [[0, 2], [1]]⟩ ∧
      (run {} nestedCalls).Separates 0 [[0, 2], [1]] ∧
      (run {} nestedCalls).Path 0 [0, 1, 2] 3 ∧
      (run {} nestedCalls).openAfter 0 [0, 1, 2] = true ∧
      (run {} nestedCalls).openAfter 1 [0, 1, 2] = true := by
  have hallocate : (run {} nestedCalls).allocate 0 = .ok ⟨[0, 1, 2], [[0, 2], [1]]⟩ := by cbv
  have hfirst : (run {} nestedCalls).Path 0 [0] 1 := .step .root (by decide +kernel)
  have hsecond : (run {} nestedCalls).Path 0 [0, 1] 2 := hfirst.step (by decide +kernel)
  exact ⟨hallocate, allocate_separates _ _ _ hallocate, hsecond.step (by decide +kernel), by cbv,
    by cbv⟩

/-! ## Ends of spans -/

/-- **When places are given**, and what this says about the ends of spans.  All reachable nodes
exist, and every end of a span is reached with the span open along some path.  It is so along
*every* path exactly when all paths to the end agree on the span. -/
theorem allocate_ends (b : Blueprint) (root : Nat) :
    ((∃ allocation, b.allocate root = .ok allocation) ↔
      (∀ n, b.digraph.Reaches root n → ∃ node, b.nodes[n]? = some node) ∧
        ∀ n node span, b.digraph.Reaches root n → b.nodes[n]? = some node →
          node.kind = .spanEnd span →
          ∃ passed, b.Path root passed n ∧ b.openAfter span passed = true) ∧
    ∀ allocation n node span, b.allocate root = .ok allocation → b.digraph.Reaches root n →
      b.nodes[n]? = some node → node.kind = .spanEnd span →
      ((∀ passed, b.Path root passed n → b.openAfter span passed = true) ↔
        ∀ passed passed', b.Path root passed n → b.Path root passed' n →
          b.openAfter span passed = b.openAfter span passed') := by
  refine ⟨⟨?_, ?_⟩, ?_⟩
  · rintro ⟨allocation, h⟩
    obtain ⟨hexists, hends, -⟩ := allocate_eq_ok h
    refine ⟨hexists, fun n node span hn hnode hkind => ?_⟩
    exact along_true_iff.mp (hends n node span hn hnode hkind)
  · rintro ⟨hexists, hends⟩
    rcases allocate_cases hexists with
      ⟨n, node, span, hn, hnode, hkind, hclosed, -⟩ | ⟨-, allocation, hok, -⟩
    · exact absurd (along_true_iff.mpr (hends n node span hn hnode hkind)) hclosed
    · exact ⟨allocation, hok⟩
  · intro allocation n node span h hn hnode hkind
    constructor
    · intro hall passed passed' hpath hpath'
      rw [hall passed hpath, hall passed' hpath']
    · -- one of the paths has the span open, so that all of them do
      intro hagree passed hpath
      obtain ⟨opened, hopen, htrue⟩ :=
        along_true_iff.mp ((allocate_eq_ok h).2.1 n node span hn hnode hkind)
      exact (hagree passed opened hpath hopen).trans htrue

/-- Calls for a span that is started only before an `a`, but ended in any case. -/
def forkedCalls : List Call :=
  [.callback ⟨"on_word", .external .span⟩, .span 0, .matchNode "start", .spanStartNode 0,
    .spanEndNode 0, .peek 0 97 1, .otherwise 0 2, .otherwise 1 2, .otherwise 2 0]

/-- **An end can be reached with its span closed** although places are given: along the
otherwise edge of the fork. -/
theorem not_open_on_every_path :
    ¬ ∀ (b : Blueprint) (root : Nat) (allocation : Allocation), b.allocate root = .ok allocation →
      ∀ n node span, b.nodes[n]? = some node → node.kind = .spanEnd span →
        ∀ passed, b.Path root passed n → b.openAfter span passed = true := by
  intro hall
  have hallocate : (run {} forkedCalls).allocate 0 = .ok ⟨[0], [[0]]⟩ := by cbv
  have hpath : (run {} forkedCalls).Path 0 [0] 2 := .step .root (by decide)
  have hopen := hall _ _ _ hallocate 2 _ 0 rfl rfl [0] hpath
  revert hopen
  decide

end Blueprint

end ByteMachine
