import ByteMachine.Proofs.SpanPlaces
import Mathlib

/-! # Open spans in rounds

Where a span can be open is usually found by passing on what is known: every node tells the
nodes behind it which spans are open when it is left, and this is repeated, round by round and
node by node, until nothing new is told (`settle`).  Within a round a node already knows what
the nodes before it have told it.

The rounds come to an end because all that can be told is that one of finitely many spans is
open at one of finitely many nodes (`card_scope_sdiff_lt`).  What is told is true of some path
(`Founded.tell`), and once nothing new is told, what holds of a path has been told
(`Rested.mem_of_along`).  So the rounds end with exactly the regions of the spans
(`mem_settle_iff`), for all the cycles of the graph and all the paths through them.

An end of a span that no path reaches with its span open is what places are refused for, and
the first of them is named (`allocate_eq_error_iff`). -/
namespace ByteMachine.Blueprint

variable {b : Blueprint} {root : Nat} {nodes : List Nat}

/-- What is known so far: pairs of a node and a span that is open on entry to it. -/
abbrev Notes := Finset (Nat × Nat)

/-- The spans that are known to be open on entry to a node. -/
def entering (notes : Notes) (n : Nat) : Finset Nat := (notes.filter (·.1 = n)).image (·.2)

/-- The spans that are known to be open when a node is left. -/
def leaving (b : Blueprint) (notes : Notes) (n : Nat) : Finset Nat :=
  match b.nodes[n]?.map Node.kind with
  | some (.spanStart span) => insert span (entering notes n)
  | some (.spanEnd span) => (entering notes n).erase span
  | _ => entering notes n

/-- A node tells the nodes behind it what is open when it is left. -/
def tell (b : Blueprint) (notes : Notes) (n : Nat) : Notes :=
  notes ∪ (b.next n).toFinset ×ˢ b.leaving notes n

/-- All nodes tell what they know, one after the other. -/
def round (b : Blueprint) (nodes : List Nat) (notes : Notes) : Notes := nodes.foldl b.tell notes

/-! ## One node -/

section Tell
variable {notes : Notes} {n n' span : Nat}

theorem mem_entering : span ∈ entering notes n ↔ (n, span) ∈ notes := by
  simp [entering]

/-- A node passes a span on as a path does. -/
theorem mem_leaving :
    span ∈ b.leaving notes n ↔ b.openBehind span n (decide ((n, span) ∈ notes)) = true := by
  unfold leaving openBehind
  cases b.nodes[n]? with
  | none => simp [mem_entering]
  | some node =>
    cases hkind : node.kind with
    | spanStart s =>
      by_cases hs : span = s
      · simp [hkind, hs]
      · simp [hkind, mem_entering, hs, Ne.symm hs]
    | spanEnd s =>
      by_cases hs : span = s
      · simp [hkind, hs]
      · simp [hkind, mem_entering, hs, Ne.symm hs]
    | _ => simp [hkind, mem_entering]

theorem mem_tell :
    (n', span) ∈ b.tell notes n ↔
      (n', span) ∈ notes ∨ n' ∈ b.next n ∧ span ∈ b.leaving notes n := by
  simp [tell]

theorem subset_tell : notes ⊆ b.tell notes n := Finset.subset_union_left

/-- Only a start opens a span that was closed. -/
theorem openBehind_false_iff :
    b.openBehind span n false = true ↔
      ∃ node, b.nodes[n]? = some node ∧ node.kind = .spanStart span := by
  unfold openBehind
  cases b.nodes[n]? with
  | none => simp
  | some node => by_cases hstart : node.kind = .spanStart span <;> simp [hstart]

/-- What is open behind a node although it is not on entry is open behind it in any case. -/
theorem openBehind_of_closed (h : b.openBehind span n false = true) (opened : Bool) :
    b.openBehind span n opened = true := by
  obtain ⟨node, hnode, hstart⟩ := openBehind_false_iff.mp h
  simp [openBehind, hnode, hstart]

end Tell

/-! ## The rounds end -/

theorem subset_round (nodes : List Nat) (notes : Notes) : notes ⊆ b.round nodes notes := by
  induction nodes generalizing notes with
  | nil => exact Finset.Subset.refl _
  | cons n nodes ih => exact subset_tell.trans (ih (b.tell notes n))

/-- All that nodes could ever tell: the spans of the nodes, and those known already, at the nodes
behind them. -/
def scope (b : Blueprint) (nodes : List Nat) (notes : Notes) : Notes :=
  (nodes.flatMap b.next).toFinset ×ˢ ((b.spansOf nodes).toFinset ∪ notes.image (·.2))

theorem mem_scope {notes : Notes} {n span : Nat} :
    (n, span) ∈ b.scope nodes notes ↔
      (∃ u ∈ nodes, n ∈ b.next u) ∧ (span ∈ b.spansOf nodes ∨ ∃ u, (u, span) ∈ notes) := by
  simp only [scope, Finset.mem_product, List.mem_toFinset, List.mem_flatMap, Finset.mem_union,
    Finset.mem_image, Prod.exists, exists_eq_right]

theorem span_of_mem_leaving {notes : Notes} {n span : Nat} (hn : n ∈ nodes)
    (h : span ∈ b.leaving notes n) : span ∈ b.spansOf nodes ∨ ∃ u, (u, span) ∈ notes := by
  by_cases hknown : (n, span) ∈ notes
  · exact .inr ⟨n, hknown⟩
  · rw [mem_leaving, decide_eq_false hknown, openBehind_false_iff] at h
    obtain ⟨node, hnode, hstart⟩ := h
    exact .inl (mem_spansOf.mpr ⟨n, hn, node, hnode, by rw [Node.span?, hstart]⟩)

/-- What could be told at first is all that can be told later on. -/
theorem scope_subset {notes known : Notes} (h : notes ⊆ known ∪ b.scope nodes known) :
    b.scope nodes notes ⊆ b.scope nodes known := by
  rintro ⟨n, span⟩ hmem
  obtain ⟨hnext, hspan⟩ := mem_scope.mp hmem
  refine mem_scope.mpr ⟨hnext, ?_⟩
  rcases hspan with hspan | ⟨u, hu⟩
  · exact .inl hspan
  · rcases Finset.mem_union.mp (h hu) with hknown | hscope
    · exact .inr ⟨u, hknown⟩
    · exact (mem_scope.mp hscope).2

theorem tell_subset {notes known : Notes} {n : Nat} (hn : n ∈ nodes)
    (h : notes ⊆ known ∪ b.scope nodes known) :
    b.tell notes n ⊆ known ∪ b.scope nodes known := by
  rintro ⟨n', span⟩ hmem
  rcases mem_tell.mp hmem with hold | ⟨hnext, hleaving⟩
  · exact h hold
  · refine Finset.mem_union_right _ (scope_subset h (mem_scope.mpr ⟨⟨n, hn, hnext⟩, ?_⟩))
    exact span_of_mem_leaving hn hleaving

theorem round_subset (nodes : List Nat) (notes : Notes) :
    b.round nodes notes ⊆ notes ∪ b.scope nodes notes := by
  have hfold : ∀ (rest : List Nat) (now : Notes), (∀ n ∈ rest, n ∈ nodes) →
      now ⊆ notes ∪ b.scope nodes notes →
      rest.foldl b.tell now ⊆ notes ∪ b.scope nodes notes := by
    intro rest
    induction rest with
    | nil => exact fun now _ h => h
    | cons n rest ih =>
      intro now hrest h
      obtain ⟨hn, hrest⟩ := List.forall_mem_cons.mp hrest
      exact ih _ hrest (tell_subset hn h)
  exact hfold nodes notes (fun _ h => h) Finset.subset_union_left

/-- **A round that tells something new** leaves less to be told. -/
theorem card_scope_sdiff_lt {notes : Notes} (h : b.round nodes notes ≠ notes) :
    (b.scope nodes (b.round nodes notes) \ b.round nodes notes).card <
      (b.scope nodes notes \ notes).card := by
  have hgrows : notes ⊆ b.round nodes notes := subset_round nodes notes
  have hwithin : b.round nodes notes ⊆ notes ∪ b.scope nodes notes := round_subset nodes notes
  obtain ⟨note, hnote, hnew⟩ := Finset.exists_of_ssubset (hgrows.ssubset_of_ne (Ne.symm h))
  refine Finset.card_lt_card (Finset.ssubset_iff_of_subset ?_ |>.mpr ⟨note, ?_, ?_⟩)
  · exact Finset.sdiff_subset_sdiff (scope_subset hwithin) hgrows
  · have hnote' := (Finset.mem_union.mp (hwithin hnote)).resolve_left hnew
    exact Finset.mem_sdiff.mpr ⟨hnote', hnew⟩
  · exact fun hmem => (Finset.mem_sdiff.mp hmem).2 hnote

/-- **Rounds until nothing new is told.** -/
def settle (b : Blueprint) (nodes : List Nat) (notes : Notes) : Notes :=
  if b.round nodes notes = notes then notes else b.settle nodes (b.round nodes notes)
termination_by (b.scope nodes notes \ notes).card
decreasing_by exact card_scope_sdiff_lt ‹_›

/-! ## What is told is true -/

/-- Whatever is known holds of some path. -/
def Founded (b : Blueprint) (root : Nat) (notes : Notes) : Prop :=
  ∀ n span, (n, span) ∈ notes → Along b root span n true

theorem Founded.tell {notes : Notes} (h : b.Founded root notes) {n : Nat}
    (hn : b.digraph.Reaches root n) : b.Founded root (b.tell notes n) := by
  intro n' span hmem
  rcases mem_tell.mp hmem with hold | ⟨hnext, hleaving⟩
  · exact h n' span hold
  · have hopen := mem_leaving.mp hleaving
    by_cases hknown : (n, span) ∈ notes
    · rw [decide_eq_true hknown] at hopen
      exact hopen ▸ (h n span hknown).step hnext
    · -- the node starts the span, whatever path led to it
      rw [decide_eq_false hknown] at hopen
      obtain ⟨opened, halong⟩ := exists_along span hn
      exact openBehind_of_closed hopen opened ▸ halong.step hnext

theorem Founded.round {notes : Notes} (h : b.Founded root notes)
    (hnodes : ∀ n ∈ nodes, b.digraph.Reaches root n) : b.Founded root (b.round nodes notes) := by
  induction nodes generalizing notes with
  | nil => exact h
  | cons n nodes ih =>
    obtain ⟨hn, hnodes⟩ := List.forall_mem_cons.mp hnodes
    exact ih (h.tell hn) hnodes

theorem Founded.settle {notes : Notes} (h : b.Founded root notes)
    (hnodes : ∀ n ∈ nodes, b.digraph.Reaches root n) : b.Founded root (b.settle nodes notes) := by
  fun_induction b.settle nodes notes with
  | case1 => exact h
  | case2 notes hchanged ih => exact ih (h.round hnodes)

/-! ## What is true is told -/

/-- No node has anything new to tell. -/
def Rested (b : Blueprint) (nodes : List Nat) (notes : Notes) : Prop :=
  ∀ n ∈ nodes, b.tell notes n = notes

theorem rested_of_round {notes : Notes} (h : b.round nodes notes = notes) :
    b.Rested nodes notes := by
  induction nodes with
  | nil => exact fun n hn => absurd hn List.not_mem_nil
  | cons n nodes ih =>
    have hrest : b.tell notes n ⊆ notes := by
      have hgrows := b.subset_round nodes (b.tell notes n)
      exact hgrows.trans (Finset.Subset.antisymm_iff.mp h).1
    have htell : b.tell notes n = notes := Finset.Subset.antisymm hrest subset_tell
    refine List.forall_mem_cons.mpr ⟨htell, ih ?_⟩
    rwa [round, List.foldl_cons, htell] at h

theorem rested_settle (b : Blueprint) (nodes : List Nat) (notes : Notes) :
    b.Rested nodes (b.settle nodes notes) := by
  fun_induction b.settle nodes notes with
  | case1 notes hsame => exact rested_of_round hsame
  | case2 notes hchanged ih => exact ih

/-- **Along a path** every node has told the next one what is open there. -/
theorem Rested.mem_of_along {notes : Notes} (h : b.Rested (b.reachable root) notes) {n span : Nat}
    {opened : Bool} (halong : Along b root span n opened) : opened = true → (n, span) ∈ notes := by
  induction halong with
  | root => exact fun hopened => absurd hopened Bool.false_ne_true
  | @step n n' opened hn hnext ih =>
    intro hopen
    rw [← h n (mem_reachable.mpr hn.reaches)]
    refine mem_tell.mpr (.inr ⟨hnext, mem_leaving.mpr ?_⟩)
    cases opened with
    | false => exact openBehind_of_closed hopen _
    | true => rwa [decide_eq_true (ih rfl)]

/-- **The rounds end with the spans that are open along some path.** -/
theorem mem_settle_iff {n span : Nat} :
    (n, span) ∈ b.settle (b.reachable root) ∅ ↔
      ∃ passed, b.Path root passed n ∧ b.openAfter span passed = true := by
  rw [← along_true_iff]
  constructor
  · have hempty : b.Founded root ∅ := fun n span h => absurd h (Finset.notMem_empty _)
    exact hempty.settle (fun n hn => mem_reachable.mp hn) n span
  · exact fun h => (b.rested_settle _ ∅).mem_of_along h rfl

/-! ## Ends without their spans -/

/-- An end of a span that no path reaches with the span open. -/
def Unmatched (b : Blueprint) (root n : Nat) : Prop :=
  ∃ node span, b.nodes[n]? = some node ∧ node.kind = .spanEnd span ∧
    ∀ passed, b.Path root passed n → b.openAfter span passed = false

theorem unmatchedEnd?_eq_some_iff {n : Nat} (hn : b.digraph.Reaches root n) {name : String} :
    b.unmatchedEnd? (b.openRegions (b.reachable root)) n = some name ↔
      b.Unmatched root n ∧ ∃ node, b.nodes[n]? = some node ∧ node.name = name := by
  rw [unmatchedEnd?_eq_some hn]
  simp only [along_true_iff, not_exists, not_and, Bool.not_eq_true]
  constructor
  · rintro ⟨node, span, hnode, hkind, hname, hclosed⟩
    exact ⟨⟨node, span, hnode, hkind, hclosed⟩, node, hnode, hname⟩
  · rintro ⟨⟨node, span, hnode, hkind, hclosed⟩, node', hnode', hname⟩
    obtain rfl : node = node' := Option.some.inj (hnode.symm.trans hnode')
    exact ⟨node, span, hnode, hkind, hname, hclosed⟩

theorem unmatchedEnd?_eq_none_iff {n : Nat} (hn : b.digraph.Reaches root n) :
    b.unmatchedEnd? (b.openRegions (b.reachable root)) n = none ↔ ¬ b.Unmatched root n := by
  rw [← not_iff_not, not_not, ← ne_eq, Option.ne_none_iff_exists']
  constructor
  · rintro ⟨name, hname⟩
    exact ((unmatchedEnd?_eq_some_iff hn).mp hname).1
  · rintro ⟨node, span, hnode, hend⟩
    refine ⟨node.name, (unmatchedEnd?_eq_some_iff hn).mpr ⟨?_, node, hnode, rfl⟩⟩
    exact ⟨node, span, hnode, hend⟩

/-- **Why places are refused** when all reachable nodes exist: for the first end, in the order
in which nodes are reached, that is left without its span. -/
theorem allocate_eq_error_iff
    (hexists : ∀ n, b.digraph.Reaches root n → ∃ node, b.nodes[n]? = some node)
    {e : AllocationError} :
    b.allocate root = .error e ↔
      ∃ before n after node, b.reachable root = before ++ n :: after ∧
        (∀ u ∈ before, ¬ b.Unmatched root u) ∧ b.Unmatched root n ∧ b.nodes[n]? = some node ∧
        e = .unmatchedEnd node.name := by
  have hreach : ∀ n ∈ b.reachable root, b.digraph.Reaches root n := fun n hn =>
    mem_reachable.mp hn
  rw [allocate_of_known hexists]
  constructor
  · intro h
    cases hfind : (b.reachable root).findSome?
        (b.unmatchedEnd? (b.openRegions (b.reachable root))) with
    | none =>
      rw [hfind] at h
      cases h
    | some name =>
      rw [hfind] at h
      obtain ⟨before, n, after, hsplit, hname, hbefore⟩ := List.findSome?_eq_some_iff.mp hfind
      rw [hsplit] at hreach
      obtain ⟨hunmatched, node, hnode, rfl⟩ :=
        (unmatchedEnd?_eq_some_iff (hreach n (by simp))).mp hname
      refine ⟨before, n, after, node, hsplit, fun u hu => ?_, hunmatched, hnode,
        (Except.error.inj h).symm⟩
      exact (unmatchedEnd?_eq_none_iff (hreach u (by simp [hu]))).mp (hbefore u hu)
  · rintro ⟨before, n, after, node, hsplit, hbefore, hunmatched, hnode, rfl⟩
    have hfind : (b.reachable root).findSome?
        (b.unmatchedEnd? (b.openRegions (b.reachable root))) = some node.name := by
      rw [hsplit] at hreach
      refine List.findSome?_eq_some_iff.mpr ⟨before, n, after, hsplit, ?_, fun u hu => ?_⟩
      · exact (unmatchedEnd?_eq_some_iff (hreach n (by simp))).mpr ⟨hunmatched, node, hnode, rfl⟩
      · exact (unmatchedEnd?_eq_none_iff (hreach u (by simp [hu]))).mpr (hbefore u hu)
    rw [hfind]
    rfl

/-- **Where spans can be open is found exactly**, by regions and by rounds alike: on entry to a
node just those spans are open that some path has open there.  Places are refused just when an
end of a span can be reached, but not with its span open, and the first such end is named. -/
theorem openSpans_exact (b : Blueprint) (root : Nat)
    (hexists : ∀ n, b.digraph.Reaches root n → ∃ node, b.nodes[n]? = some node) :
    (∀ n span, n ∈ b.openRegion (b.reachable root) span ↔
        ∃ passed, b.Path root passed n ∧ b.openAfter span passed = true) ∧
      (∀ n span, (n, span) ∈ b.settle (b.reachable root) ∅ ↔
        ∃ passed, b.Path root passed n ∧ b.openAfter span passed = true) ∧
      ((∃ e, b.allocate root = .error e) ↔
        ∃ n, b.digraph.Reaches root n ∧ b.Unmatched root n) ∧
      ∀ e, b.allocate root = .error e →
        ∃ before n after node, b.reachable root = before ++ n :: after ∧
          (∀ u ∈ before, ¬ b.Unmatched root u) ∧ b.Unmatched root n ∧ b.nodes[n]? = some node ∧
          e = .unmatchedEnd node.name := by
  refine ⟨fun n span => mem_openRegion_iff.trans along_true_iff, fun n span => mem_settle_iff,
    ⟨?_, ?_⟩, fun e => (allocate_eq_error_iff hexists).mp⟩
  · rintro ⟨e, he⟩
    obtain ⟨before, n, after, node, hsplit, -, hunmatched, -⟩ :=
      (allocate_eq_error_iff hexists).mp he
    exact ⟨n, mem_reachable.mp (by simp [hsplit]), hunmatched⟩
  · rintro ⟨n, hn, node, span, hnode, hkind, hclosed⟩
    rcases allocate_cases hexists with ⟨_, _, _, -, -, -, -, herror⟩ | ⟨hends, -⟩
    · exact ⟨_, herror⟩
    · obtain ⟨passed, hpath, hopen⟩ := along_true_iff.mp (hends n node span hn hnode hkind)
      rw [hclosed passed hpath] at hopen
      cases hopen

/-- Calls for a span that is started and ended in a loop, behind which the ends of two spans
that nothing starts are reached, the younger one first. -/
def unmatchedCalls : List Call :=
  [.callback ⟨"on_word", .external .span⟩, .callback ⟨"on_rest", .external .span⟩,
    .callback ⟨"on_all", .external .span⟩, .span 0, .span 1, .span 2, .matchNode "start",
    .spanStartNode 0, .spanEndNode 0, .spanEndNode 1, .spanEndNode 2, .peek 0 97 1, .otherwise 0 4,
    .otherwise 1 2, .skipTo 2 0, .otherwise 4 3, .skipTo 3 1]

/-- The end that is reached first is named.  The span in the loop is open on entry to its end. -/
theorem openSpans_exact_unmatched :
    (∀ n, (run {} unmatchedCalls).digraph.Reaches 0 n →
        ∃ node, (run {} unmatchedCalls).nodes[n]? = some node) ∧
      (run {} unmatchedCalls).allocate 0 = .error (.unmatchedEnd "span_end_on_all") ∧
      (2, 0) ∈ (run {} unmatchedCalls).settle ((run {} unmatchedCalls).reachable 0) ∅ ∧
      (4, 2) ∉ (run {} unmatchedCalls).settle ((run {} unmatchedCalls).reachable 0) ∅ ∧
      ∃ n, (run {} unmatchedCalls).digraph.Reaches 0 n ∧ (run {} unmatchedCalls).Unmatched 0 n := by
  have hallocate : (run {} unmatchedCalls).allocate 0 =
      .error (.unmatchedEnd "span_end_on_all") := by cbv
  have hreachable : (run {} unmatchedCalls).reachable 0 = [0, 1, 2, 4, 3] := by cbv
  have hregion : (run {} unmatchedCalls).openRegion ((run {} unmatchedCalls).reachable 0) 2 =
      [] := by cbv
  have hexists : ∀ n, (run {} unmatchedCalls).digraph.Reaches 0 n →
      ∃ node, (run {} unmatchedCalls).nodes[n]? = some node := by
    intro n hn
    have hmem := mem_reachable.mpr hn
    rw [hreachable] at hmem
    have hsize : ∀ k ∈ [0, 1, 2, 4, 3], k < (run {} unmatchedCalls).nodes.size := by decide +kernel
    exact ⟨_, Array.getElem?_eq_getElem (hsize n hmem)⟩
  obtain ⟨hregions, hrounds, hfails, -⟩ := openSpans_exact (run {} unmatchedCalls) 0 hexists
  have hpath : (run {} unmatchedCalls).Path 0 [0, 1] 2 :=
    .step (.step .root (by decide +kernel)) (by decide +kernel)
  refine ⟨hexists, hallocate, (hrounds 2 0).mpr ⟨[0, 1], hpath, by cbv⟩, ?_, ?_⟩
  · rw [hrounds, ← hregions, hregion]
    exact List.not_mem_nil
  · exact hfails.mp ⟨_, hallocate⟩

end ByteMachine.Blueprint
