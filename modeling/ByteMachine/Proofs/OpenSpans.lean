import ByteMachine.Proofs.Calls
import ByteMachine.Proofs.Walk
import ByteMachine.Span

/-! # Spans along paths

Along a path from the root a span is opened by its starts and closed by its ends (`Along`).
The region of a span is exactly where it is open on entry along some path
(`mem_openRegion_iff`).  So places are refused only because of a handle that names nothing
(`allocate_of_unknown`) or of an end of a span that no path reaches with the span open, and
otherwise the spans of the reachable nodes are given places by first fit (`allocate_cases`),
each of them one (`flatten_firstFit_perm`). -/
namespace ByteMachine

namespace Blueprint

variable {b : Blueprint} {root : Nat}

/-- Whether a span is open behind a node, by whether it is on entry. -/
def openBehind (b : Blueprint) (span n : Nat) (opened : Bool) : Bool :=
  match b.nodes[n]? with
  | some node =>
    if node.kind = .spanStart span then true
    else if node.kind = .spanEnd span then false
    else opened
  | none => opened

/-- Some path leads from the root to a node on entry to which the span is open, or not. -/
inductive Along (b : Blueprint) (root span : Nat) : Nat → Bool → Prop
  | root : Along b root span root false
  | step {n n' : Nat} {opened : Bool} (h : Along b root span n opened) (hnext : n' ∈ b.next n) :
      Along b root span n' (b.openBehind span n opened)

/-- A path with its marks is a path. -/
theorem Along.reaches {span n : Nat} {opened : Bool} (h : Along b root span n opened) :
    b.digraph.Reaches root n := by
  induction h with
  | root => exact .refl _
  | step _ hnext ih => exact ih.step hnext

/-- On every path a span is open or closed. -/
theorem exists_along (span : Nat) {n : Nat} (h : b.digraph.Reaches root n) :
    ∃ opened, Along b root span n opened := by
  refine h.closed (P := fun n => ∃ opened, Along b root span n opened) ⟨false, .root⟩ ?_
  rintro n n' - ⟨opened, halong⟩ hnext
  exact ⟨_, halong.step hnext⟩

theorem mem_reachable {n : Nat} : n ∈ b.reachable root ↔ b.digraph.Reaches root n :=
  Digraph.mem_preorder_iff

theorem mem_openRegion {nodes : List Nat} {span n : Nat} :
    n ∈ b.openRegion nodes span ↔
      ∃ u ∈ b.behindStarts nodes span, (b.digraphWithin span).Reaches u n :=
  Digraph.mem_walk_nil_iff

/-- The region of a span begins behind the nodes that start it. -/
theorem mem_behindStarts {nodes : List Nat} {span u : Nat} :
    u ∈ b.behindStarts nodes span ↔
      ∃ n ∈ nodes, ∃ node, b.nodes[n]? = some node ∧ node.kind = .spanStart span ∧
        u ∈ node.successors := by
  rw [behindStarts, List.mem_flatMap]
  constructor
  · rintro ⟨n, hn, hu⟩
    split at hu
    · rename_i node hnode
      split at hu
      · rename_i hkind
        exact ⟨n, hn, node, hnode, hkind, hu⟩
      · cases hu
    · cases hu
  · rintro ⟨n, hn, node, hnode, hkind, hu⟩
    exact ⟨n, hn, by simp [hnode, hkind, hu]⟩

theorem mem_next {n n' : Nat} :
    n' ∈ b.next n ↔ ∃ node, b.nodes[n]? = some node ∧ n' ∈ node.successors := by
  cases hn : b.nodes[n]? with
  | none => simp [next, hn]
  | some node => simp [next, hn]

/-- Inside a region all edges are followed but those behind the end of the span. -/
theorem mem_nextWithin {span n n' : Nat} :
    n' ∈ b.nextWithin span n ↔
      ∃ node, b.nodes[n]? = some node ∧ node.kind ≠ .spanEnd span ∧ n' ∈ node.successors := by
  cases hn : b.nodes[n]? with
  | none => simp [nextWithin, hn]
  | some node =>
    by_cases hend : node.kind = .spanEnd span
    · simp [nextWithin, hn, hend]
    · simp [nextWithin, hn, hend]

/-- **The region of a span** is where it is open on entry along some path. -/
theorem mem_openRegion_iff {span n : Nat} :
    n ∈ b.openRegion (b.reachable root) span ↔ Along b root span n true := by
  constructor
  · intro h
    obtain ⟨u, hu, hreach⟩ := mem_openRegion.mp h
    obtain ⟨s, hs, node, hnode, hkind, hu⟩ := mem_behindStarts.mp hu
    have hbehind : Along b root span u true := by
      obtain ⟨opened, halong⟩ := exists_along span (mem_reachable.mp hs)
      have := halong.step (mem_next.mpr ⟨node, hnode, hu⟩)
      simpa [openBehind, hnode, hkind] using this
    refine hreach.closed (P := fun n => Along b root span n true) hbehind ?_
    intro v w _ hv hw
    obtain ⟨node, hnode, hend, hw⟩ := mem_nextWithin.mp hw
    have := hv.step (mem_next.mpr ⟨node, hnode, hw⟩)
    simpa [openBehind, hnode, hend] using this
  · intro h
    -- Of the steps of a path only the last start and what follows it matters.
    have hopen : ∀ {n : Nat} {opened : Bool}, Along b root span n opened → opened = true →
        n ∈ b.openRegion (b.reachable root) span := by
      intro n opened h
      induction h with
      | root => nofun
      | @step n n' opened h hnext ih =>
        intro hbehind
        obtain ⟨node, hnode, hmem⟩ := mem_next.mp hnext
        rw [openBehind, hnode] at hbehind
        dsimp only at hbehind
        split at hbehind
        · rename_i hkind
          refine mem_openRegion.mpr ⟨n', mem_behindStarts.mpr ?_, .refl _⟩
          exact ⟨n, mem_reachable.mpr h.reaches, node, hnode, hkind, hmem⟩
        · split at hbehind
          · cases hbehind
          · rename_i hend
            obtain ⟨u, hu, hreach⟩ := mem_openRegion.mp (ih hbehind)
            refine mem_openRegion.mpr ⟨u, hu, hreach.step ?_⟩
            exact mem_nextWithin.mpr ⟨node, hnode, hend, hmem⟩
    exact hopen h rfl

end Blueprint

/-! ## Places -/

namespace Allocation

/-- To place a span adds that span to the groups, and loses none. -/
theorem flatten_place_perm (overlap : Nat → Nat → Bool) (span : Nat) (groups : List (List Nat)) :
    (place overlap span groups).flatten.Perm (span :: groups.flatten) := by
  induction groups with
  | nil => exact .refl _
  | cons group rest ih =>
    rw [place]
    split
    · rw [List.flatten_cons, List.flatten_cons]
      exact (ih.append_left group).trans List.perm_middle
    · rw [List.flatten_cons, List.flatten_cons, List.append_assoc]
      exact List.perm_middle

/-- First fit gives every span a place, and no other. -/
theorem flatten_firstFit_perm (overlap : Nat → Nat → Bool) (spans : List Nat) :
    (firstFit overlap spans).flatten.Perm spans := by
  have hfold : ∀ groups : List (List Nat),
      (spans.foldl (fun groups span => place overlap span groups) groups).flatten.Perm
        (spans ++ groups.flatten) := by
    induction spans with
    | nil => exact fun groups => .refl _
    | cons span spans ih =>
      intro groups
      rw [List.foldl_cons]
      refine (ih _).trans ?_
      exact ((flatten_place_perm overlap span groups).append_left spans).trans List.perm_middle
  simpa [firstFit] using hfold []

theorem placeOf?_isSome {groups : List (List Nat)} {span : Nat} (h : span ∈ groups.flatten) :
    ∃ p, placeOf? groups span = some p := by
  obtain ⟨group, hgroup, hspan⟩ := List.mem_flatten.mp h
  refine Option.ne_none_iff_exists'.mp fun hnone => ?_
  rw [placeOf?, Option.map_eq_none_iff] at hnone
  obtain ⟨i, hi, hget⟩ := List.mem_iff_getElem.mp hgroup
  have hmem : (group, i) ∈ groups.zipIdx.reverse := by
    rw [List.mem_reverse, List.mem_zipIdx_iff_getElem?]
    exact List.getElem?_eq_some_iff.mpr ⟨hi, hget⟩
  have hmiss := List.find?_eq_none.mp hnone _ hmem
  simp [hspan] at hmiss

end Allocation

namespace Blueprint

variable {b : Blueprint} {root : Nat}

theorem mem_spansOf {nodes : List Nat} {s : Nat} :
    s ∈ b.spansOf nodes ↔ ∃ n ∈ nodes, ∃ node, b.nodes[n]? = some node ∧ node.span? = some s := by
  simp only [spansOf, List.mem_eraseDups, List.mem_filterMap, Option.bind_eq_some_iff]

/-- The region listed for a span is its own. -/
theorem lookup_openRegions {nodes : List Nat} {span : Nat} (h : span ∈ b.spansOf nodes) :
    (b.openRegions nodes).lookup span = some (b.openRegion nodes span) := by
  unfold openRegions
  generalize b.spansOf nodes = spans at h
  induction spans with
  | nil => cases h
  | cons s spans ih =>
    rw [List.map_cons, List.lookup_cons]
    by_cases hs : span = s
    · subst hs
      simp
    · have hne : (span == s) = false := by simpa using hs
      rw [hne]
      exact ih ((List.mem_cons.mp h).resolve_left hs)

/-- An end of a span that cannot be reached with the span open. -/
theorem unmatchedEnd?_eq_some {n : Nat} {name : String} (hn : b.digraph.Reaches root n) :
    b.unmatchedEnd? (b.openRegions (b.reachable root)) n = some name ↔
      ∃ node span, b.nodes[n]? = some node ∧ node.kind = .spanEnd span ∧ node.name = name ∧
        ¬ Along b root span n true := by
  have hregion : ∀ {node : Node} {span : Nat}, b.nodes[n]? = some node →
      node.kind = .spanEnd span →
      (n ∈ ((b.openRegions (b.reachable root)).lookup span).getD [] ↔
        Along b root span n true) := by
    intro node span hnode hkind
    have hspan : span ∈ b.spansOf (b.reachable root) :=
      mem_spansOf.mpr ⟨n, mem_reachable.mpr hn, node, hnode, by rw [Node.span?, hkind]⟩
    rw [lookup_openRegions hspan, Option.getD_some]
    exact mem_openRegion_iff
  unfold unmatchedEnd?
  constructor
  · intro h
    split at h
    · rename_i name' span edges otherwise hnode
      split at h
      · cases h
      · rename_i hopen
        exact ⟨_, span, hnode, rfl, Option.some.inj h,
          fun halong => hopen ((hregion hnode rfl).mpr halong)⟩
    · cases h
  · rintro ⟨⟨name', kind, edges, otherwise⟩, span, hnode, rfl, rfl, hclosed⟩
    rw [hnode]
    exact if_neg fun hmem => hclosed ((hregion hnode rfl).mp hmem)

theorem allocate_of_unknown {n : Nat} (hn : b.digraph.Reaches root n) (hnone : b.nodes[n]? = none) :
    b.allocate root = .error .unknownHandle := by
  refine if_pos (List.any_eq_true.mpr ⟨n, mem_reachable.mpr hn, ?_⟩)
  simpa using hnone

/-- When all reachable nodes exist, the first end of a span that is not matched decides. -/
theorem allocate_of_known
    (hexists : ∀ n, b.digraph.Reaches root n → ∃ node, b.nodes[n]? = some node) :
    b.allocate root =
      ((b.reachable root).findSome? (b.unmatchedEnd? (b.openRegions (b.reachable root)))).elim
        (.ok ⟨b.spansOf (b.reachable root),
          Allocation.firstFit (overlaps (b.openRegions (b.reachable root)))
            (b.spansOf (b.reachable root))⟩)
        fun name => .error (.unmatchedEnd name) := by
  have hall : ¬ (b.reachable root).any (b.nodes.size ≤ ·) = true := by
    intro hany
    obtain ⟨n, hn, hsize⟩ := List.any_eq_true.mp hany
    obtain ⟨node, hnode⟩ := hexists n (mem_reachable.mp hn)
    have := (Array.getElem?_eq_some_iff.mp hnode).1
    simp only [decide_eq_true_eq] at hsize
    omega
  rw [allocate]
  dsimp only
  rw [if_neg hall]
  cases (b.reachable root).findSome? (b.unmatchedEnd? (b.openRegions (b.reachable root))) with
  | none => rfl
  | some name => rfl

/-- **When there are no places** although all reachable nodes exist, an end of a span is to
blame. -/
theorem allocate_cases (hexists : ∀ n, b.digraph.Reaches root n → ∃ node, b.nodes[n]? = some node) :
    (∃ n node span, b.digraph.Reaches root n ∧ b.nodes[n]? = some node ∧
        node.kind = .spanEnd span ∧ ¬ Along b root span n true ∧
        b.allocate root = .error (.unmatchedEnd node.name)) ∨
      ((∀ n node span, b.digraph.Reaches root n → b.nodes[n]? = some node →
          node.kind = .spanEnd span → Along b root span n true) ∧
        ∃ allocation, b.allocate root = .ok allocation ∧
          allocation.groups = Allocation.firstFit (overlaps (b.openRegions (b.reachable root)))
            (b.spansOf (b.reachable root))) := by
  rw [allocate_of_known hexists]
  cases hfind : (b.reachable root).findSome?
      (b.unmatchedEnd? (b.openRegions (b.reachable root))) with
  | some name =>
    obtain ⟨n, hn, hunmatched⟩ := List.exists_of_findSome?_eq_some hfind
    have hreach := mem_reachable.mp hn
    obtain ⟨node, span, hnode, hkind, rfl, hclosed⟩ := (unmatchedEnd?_eq_some hreach).mp hunmatched
    exact .inl ⟨n, node, span, hreach, hnode, hkind, hclosed, rfl⟩
  | none =>
    refine .inr ⟨?_, _, rfl, rfl⟩
    intro n node span hreach hnode hkind
    refine Classical.byContradiction fun hclosed => ?_
    have hunmatched := List.findSome?_eq_none_iff.mp hfind n (mem_reachable.mpr hreach)
    rw [(unmatchedEnd?_eq_some hreach).mpr ⟨node, span, hnode, hkind, rfl, hclosed⟩] at hunmatched
    cases hunmatched

end Blueprint

end ByteMachine
