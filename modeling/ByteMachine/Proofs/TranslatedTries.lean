import ByteMachine.Proofs.TranslationProgress

/-! # Tries that are translated

The trie of a matching node becomes one state for each of its branches and runs.  Which sites come
with it is said by `trail`: the trie itself, and then whatever is reached through it and was not
reached before.  A trie is translated correctly if it makes these sites, lists those of them that
belong to the node, and leaves the states as they should be until the node is led on
(`Translates`).

`translates` proves it by induction on the trie.  The children of a branch are translated one
after the other (`yields_translateChildren`); since no two parts of a trie have the same path, no
child meets the parts of another.  A table enters its targets in the order of the children, each
once, which makes the same sites (`ahead_rowWires`). -/
namespace ByteMachine.Translator

/-! ## Edges of a state -/

/-- Edges that are appended one by one are appended in order. -/
theorem foldlM_wire {β : Type} (state : List β → Machine.State) (edge : β → Machine.Wire)
    (hstep : ∀ xs x, (state xs).wire (edge x) = .ok (state (xs ++ [x]))) (xs ys : List β) :
    (ys.map edge).foldlM Machine.State.wire (state xs) = .ok (state (xs ++ ys)) := by
  induction ys generalizing xs with
  | nil => rw [List.append_nil]; rfl
  | cons y ys ih =>
    rw [List.map_cons, List.foldlM_cons, hstep]
    refine (ih (xs ++ [y])).trans ?_
    rw [List.append_assoc]
    rfl

/-- The edges of a table, one for each row. -/
theorem foldlM_rowWires (a : Assembly) (rows : List Table.Row) (label : Label) (transform : Nat)
    (o : Option Machine.Fallback) :
    ((rowWires rows).map fun e => e.2 (a.entry e.1)).foldlM Machine.State.wire
        ⟨label, .table transform [], o⟩ =
      .ok ⟨label, .table transform (rows.map fun row => ⟨row.keys, row.stay, a.entry row.target⟩),
        o⟩ := by
  refine Eq.trans (congrArg (List.foldlM Machine.State.wire _) ?_)
    (foldlM_wire (fun edges => ⟨label, .table transform edges, o⟩) .onTable (fun _ _ => rfl) []
      (rows.map fun row => ⟨row.keys, row.stay, a.entry row.target⟩))
  rw [rowWires, List.map_map, List.map_map]
  rfl

/-! ## The sites of a trie -/

/-- The site at which a state is made first for a trie; a leaf makes none. -/
def opening (n : Nat) (p : List UInt8) : Trie → List Site
  | .leaf _ => []
  | _ => [⟨n, p⟩]

/-- Where a trie leads next: a leaf to its node, and another one to what is below it. -/
def exits (n : Nat) (p : List UInt8) : Trie → List Site
  | .leaf l => [Site.entry l.target]
  | u => Site.below ⟨n, p⟩ u

/-- All sites that a trie brings. -/
def trail (a : Assembly) (n : Nat) (p : List UInt8) (u : Trie) (made : List Site) : List Site :=
  opening n p u ++ a.ahead (made ++ opening n p u) (exits n p u)

section Match
variable {a : Assembly} {enter : Nat → Translation Nat} {base made news now : List Site}
  {root n : Nat} {node : Blueprint.Node} {top u : Trie} {p : List UInt8} {t t' : Translator}

/-- **A table leads to its targets in the order of the children**, each once. -/
theorem ahead_rowWires (a : Assembly) {options : Options} {children : List (UInt8 × Bool × Trie)}
    {rows : List Table.Row} (hrows : Table.ofChildren options children = .ok rows) (s : Site)
    (made : List Site) :
    a.ahead made (children.map fun child =>
        Site.ofTrie s.node (s.path ++ [child.1]) child.2.2) =
      a.ahead made ((rowWires rows).map fun e => Site.entry e.1) := by
  obtain ⟨ts, rfl, -, horder⟩ := Table.exists_of_ofChildren (fun target => target) hrows
  have hentry : Function.Injective Site.entry := fun m m' heq => congrArg Site.node heq
  have hleft : (ts.map Table.Exit.child).map (fun child =>
      Site.ofTrie s.node (s.path ++ [child.1]) child.2.2) =
        (ts.map fun exit => exit.2.2).map Site.entry := by
    rw [List.map_map, List.map_map]
    rfl
  have hright : ((rowWires rows).map fun e => Site.entry e.1) =
      (rows.map fun row => row.target).map Site.entry := by
    rw [rowWires, List.map_map, List.map_map]
    rfl
  refine Digraph.walk_congr (fun _ => rfl) ?_
  rw [hleft, hright, Digraph.fresh, Digraph.fresh, Digraph.eraseDups_map hentry,
    Digraph.eraseDups_map hentry, horder]

/-- A branch brings what its children bring, and then what lies where it stops. -/
theorem trail_branch (a : Assembly) (n : Nat) (p : List UInt8)
    (children : List (UInt8 × Bool × Trie)) (stop : Option Leaf) (made : List Site) :
    trail a n p (.branch children stop) made = ⟨n, p⟩ :: (
      a.ahead (made ++ [⟨n, p⟩]) (children.map fun child =>
        Site.ofTrie n (p ++ [child.1]) child.2.2) ++
      a.ahead (made ++ [⟨n, p⟩] ++ a.ahead (made ++ [⟨n, p⟩]) (children.map fun child =>
        Site.ofTrie n (p ++ [child.1]) child.2.2))
        ((stopOf stop).toList.map fun f => Site.entry f.target)) := by
  have hstop : (stop.toList.map fun l => Site.entry l.target) =
      (stopOf stop).toList.map fun f => Site.entry f.target := by
    cases stop <;> rfl
  rw [← hstop, ← Assembly.ahead_append]
  rfl

/-- Below a site that is not the entry of its node lies only what its trie leads to. -/
theorem ahead_ofTrie (h : a.Rooted root) (hn : a.blueprint.nodes[n]? = some node)
    (ht : node.trie = .ok (some top)) (hp : p ≠ [])
    (hparts : ∀ q v, (q, v) ∈ u.inner p → (q, v) ∈ top.inner [])
    (hfresh : ∀ q v, (q, v) ∈ u.inner p → ⟨n, q⟩ ∉ made) :
    a.ahead made [Site.ofTrie n p u] = trail a n p u made := by
  rcases Outline.ofTrie_cases n p u with ⟨l, rfl, hsite⟩ | ⟨hsite, hself⟩
  · rw [hsite, trail]
    simp [opening, exits]
  · have hopening : opening n p u = [⟨n, p⟩] := by
      cases u with
      | leaf l => simp [Trie.inner] at hself
      | _ => rfl
    have hexits : exits n p u = Site.below ⟨n, p⟩ u := by
      cases u with
      | leaf l => simp [Trie.inner] at hself
      | _ => rfl
    have hnext : a.outline.next ⟨n, p⟩ = Site.below ⟨n, p⟩ u := by
      rw [h.outline, Outline.next, Outline.inside, Outline.outside,
        Outline.part?_of_mem_inner hn ht (hparts p u hself)]
      dsimp only
      rw [if_neg hp, List.append_nil]
    rw [hsite, Assembly.ahead_of_not_mem (hfresh p u hself), hnext, trail, hopening, hexits]
    rfl

theorem Referred.opening (h : Referred a made t) (hp : p ≠ []) (n : Nat) (u : Trie) :
    Referred a (made ++ opening n p u) t := by
  have hnodes : (a.upTo [⟨n, p⟩]).nodes = [] := Assembly.nodes_of_path hp
  cases u with
  | leaf l =>
    show Referred a (made ++ []) t
    rw [List.append_nil]
    exact h
  | _ => exact h.keep (by rw [hnodes]; rfl) (by rw [hnodes]; rfl)

/-! ## States for a trie -/

/-- **A trie of a node is translated correctly**, wherever it stands. -/
def Translates (a : Assembly) (enter : Nat → Translation Nat) (base : List Site) (n : Nat)
    (node : Blueprint.Node) (top : Trie) (transform : Nat) (u : Trie) : Prop :=
  ∀ (p : List UInt8) (made : List Site) (t : Translator),
    (∀ q v, (q, v) ∈ u.inner p → (q, v) ∈ top.inner []) →
    (∀ q v, (q, v) ∈ u.inner p → ⟨n, q⟩ ∉ made) →
    base ⊆ made ++ opening n p u → Counted a made t → Referred a (made ++ opening n p u) t →
    made ++ trail a n p u made <+: a.sites →
    Yields a (trail a n p u made) (translateTrie enter a.options n node.name transform u) t
      fun r t' => r.1 = a.position (Site.ofTrie n p u) ∧
        r.2 = ((trail a n p u made).filter (·.node = n)).map a.position ∧
        Advanced a (a.draft n) made (trail a n p u made) t t'

/-- Parts that are not made are still not made when another site of their node is. -/
theorem fresh_below {xs : List (List UInt8 × Trie)} (hfresh : ∀ q v, (q, v) ∈ xs → ⟨n, q⟩ ∉ made)
    (hp : p ∉ xs.map (·.1)) : ∀ q v, (q, v) ∈ xs → (⟨n, q⟩ : Site) ∉ made ++ [⟨n, p⟩] := by
  intro q v hv hmem
  rcases List.mem_append.mp hmem with hmem | hmem
  · exact hfresh q v hv hmem
  · obtain rfl : q = p := congrArg Site.path (List.mem_singleton.mp hmem)
    exact hp (List.mem_map.mpr ⟨_, hv, rfl⟩)

/-- The entries of nodes bring no sites of a node that was entered. -/
theorem filter_ahead_eq_nil (h : a.Rooted root) (hentry : Site.entry n ∈ made) {stack : List Site}
    (hstack : ∀ s ∈ stack, s.path = []) : (a.ahead made stack).filter (·.node = n) = [] := by
  rw [List.filter_eq_nil_iff]
  intro s hs
  simpa using h.node_ne hstack hentry hs

section Children
variable (h : a.Rooted root) (hn : a.blueprint.nodes[n]? = some node)
  (ht : node.trie = .ok (some top)) (hbase : Site.entry n ∈ base)
include h hn ht hbase

/-- The children of a branch are translated one after the other. -/
theorem yields_translateChildren {transform : Nat} {children : List (UInt8 × Bool × Trie)}
    (ih : ∀ child ∈ children, Translates a enter base n node top transform child.2.2)
    (hparts : ∀ q v, (q, v) ∈ Trie.innerOf p children → (q, v) ∈ top.inner [])
    (hnodup : ((Trie.innerOf p children).map (·.1)).Nodup) (hnow : made ++ news = now)
    (hfresh : ∀ q v, (q, v) ∈ Trie.innerOf p children → ⟨n, q⟩ ∉ now) (hsub : base ⊆ now)
    {label : Label} {edges : List Machine.ByteEdge}
    (hbuilding : Building a (a.draft n) made news ⟨label, .branch transform edges, none⟩ t t')
    (hsites : now ++ a.ahead now (children.map fun child =>
      Site.ofTrie n (p ++ [child.1]) child.2.2) <+: a.sites) :
    Yields a (a.ahead now (children.map fun child => Site.ofTrie n (p ++ [child.1]) child.2.2))
      (translateChildren enter a.options n node.name transform made.length children) t'
      fun own t'' =>
        own = ((a.ahead now (children.map fun child =>
          Site.ofTrie n (p ++ [child.1]) child.2.2)).filter (·.node = n)).map a.position ∧
        Building a (a.draft n) made
          (news ++ a.ahead now (children.map fun child =>
            Site.ofTrie n (p ++ [child.1]) child.2.2))
          ⟨label, .branch transform (edges ++ children.map fun child =>
            ⟨child.1, child.2.1, a.position (Site.ofTrie n (p ++ [child.1]) child.2.2),
              child.2.2.value⟩), none⟩ t t'' := by
  induction children generalizing news now edges t' with
  | nil =>
    rw [translateChildren, List.map_nil, Assembly.ahead_nil, List.append_nil, List.map_nil,
      List.append_nil]
    exact .of_ok rfl ⟨rfl, hbuilding⟩
  | cons child rest ihrest =>
    obtain ⟨byte, stay, child⟩ := child
    have hpath : p ++ [byte] ≠ [] := by simp
    have hahead : a.ahead now (((byte, stay, child) :: rest).map fun child =>
        Site.ofTrie n (p ++ [child.1]) child.2.2) =
          a.ahead now [Site.ofTrie n (p ++ [byte]) child] ++
            a.ahead (now ++ a.ahead now [Site.ofTrie n (p ++ [byte]) child]) (rest.map fun child =>
              Site.ofTrie n (p ++ [child.1]) child.2.2) := a.ahead_append now [_] _
    rw [Trie.innerOf] at hparts hnodup hfresh
    have hchildparts : ∀ q v, (q, v) ∈ child.inner (p ++ [byte]) → (q, v) ∈ top.inner [] :=
      fun q v hv => hparts q v (List.mem_append_left _ hv)
    have hchildfresh : ∀ q v, (q, v) ∈ child.inner (p ++ [byte]) → ⟨n, q⟩ ∉ now :=
      fun q v hv => hfresh q v (List.mem_append_left _ hv)
    have htrail := ahead_ofTrie h hn ht hpath hchildparts hchildfresh
    rw [hahead, ← List.append_assoc] at hsites
    rw [hahead, translateChildren]
    have hchild := ih _ List.mem_cons_self (p ++ [byte]) now t' hchildparts hchildfresh
      (fun s hs => List.mem_append_left _ (hsub hs)) (hnow ▸ hbuilding.counted)
      (Referred.opening (hnow ▸ hbuilding.referred) hpath n child)
      (htrail ▸ (List.prefix_append _ _).trans hsites)
    rw [← htrail] at hchild
    refine Yields.bind hchild ?_
    rintro ⟨j, own⟩ t₁ ⟨hj, hown, hadvanced⟩
    dsimp only at hj hown
    subst hj hown
    have hgrown := hbuilding.advance hnow hadvanced
    refine Yields.after_ok (wire_eq hgrown.here rfl) ?_
    -- the parts of the children that follow are not among those of this child
    have hrestfresh : ∀ q v, (q, v) ∈ Trie.innerOf p rest →
        ⟨n, q⟩ ∉ now ++ a.ahead now [Site.ofTrie n (p ++ [byte]) child] := by
      intro q v hv hmem
      rcases List.mem_append.mp hmem with hmem | hmem
      · exact hfresh q v (List.mem_append_right _ hv) hmem
      · obtain ⟨v', hv'⟩ := h.part_of_mem_ahead hn ht hchildparts (hsub hbase) hmem rfl
        rw [List.map_append, List.nodup_append] at hnodup
        exact hnodup.2.2 q (List.mem_map_of_mem hv') q (List.mem_map_of_mem hv) rfl
    refine Yields.andThen (ihrest (fun child hchild => ih child (List.mem_cons_of_mem _ hchild))
      (fun q v hv => hparts q v (List.mem_append_right _ hv)) ?_ ?_ hrestfresh
      (fun s hs => List.mem_append_left _ (hsub hs)) (hgrown.put rfl) hsites) ?_
    · rw [List.map_append] at hnodup
      exact hnodup.of_append_right
    · rw [← List.append_assoc, hnow]
    · rintro _ t₂ ⟨rfl, hdone⟩
      refine .of_ok rfl ⟨?_, ?_⟩
      · rw [List.filter_append, List.map_append]
      · rw [← List.append_assoc, List.map_cons, List.append_cons edges]
        exact hdone

end Children

section Parts
variable (h : a.Rooted root) (hn : a.blueprint.nodes[n]? = some node)
  (ht : node.trie = .ok (some top)) (hbase : Site.entry n ∈ base)
  (hdefect : ∀ q, a.outline.defect? a.blueprint a.groups ⟨n, q⟩ = none)
  {word : Option String} (hkind : node.kind = .matching word) {transform : Nat}
  (htransform : transform = a.transforms.idxOf ((Blueprint.transformOf? word).getD .identity))
  (henter : Enters a (a.draft n) enter base)
include h hn ht hbase hdefect hkind htransform henter

omit hdefect henter in
/-- The state of a branch or run is begun. -/
theorem exists_building (hself : (p, u) ∈ u.inner p)
    (hparts : ∀ q v, (q, v) ∈ u.inner p → (q, v) ∈ top.inner [])
    (hfresh : ∀ q v, (q, v) ∈ u.inner p → ⟨n, q⟩ ∉ made) (hsub : base ⊆ made ++ [⟨n, p⟩])
    (hcounted : Counted a made t) (hreferred : Referred a (made ++ [⟨n, p⟩]) t)
    (hsites : made ++ [⟨n, p⟩] <+: a.sites) (kind : Machine.Kind) :
    ∃ label t', addFor n node.name kind t = .ok (made.length, t') ∧
      Building a (a.draft n) made [⟨n, p⟩] { label, kind } t t' ∧
      a.draft n made.length =
        some ⟨label, a.trieKind ⟨n, p⟩ transform u, a.stopEdge (some u)⟩ ∧
      a.position ⟨n, p⟩ = made.length := by
  have hnew := hfresh p u hself
  have hentered : p ≠ [] → Site.entry n ∈ made := by
    intro hp
    refine (List.mem_append.mp (hsub hbase)).resolve_right fun hmem => hp ?_
    exact (congrArg Site.path (List.mem_singleton.mp hmem)).symm
  have hpart : a.outline.part? ⟨n, p⟩ = some (node, some u) := by
    rw [h.outline]
    exact Outline.part?_of_mem_inner hn ht (hparts p u hself)
  obtain ⟨label, t', hadd, hbuilding, hlabels⟩ :=
    building_addFor hcounted hreferred hnew hentered kind (a.draft n)
  rw [h.nameOf_eq (s := ⟨n, p⟩) hn] at hadd
  refine ⟨label, t', hadd, hbuilding, ?_, Assembly.position_eq_length hsites hnew⟩
  rw [Assembly.draft_eq hsites hlabels hpart, Assembly.kind, hkind, htransform]

omit hn ht hdefect hkind htransform in
/-- A leaf makes no state: the node it leads to is entered. -/
theorem translates_leaf (l : Leaf) :
    Translates a enter base n node top transform (.leaf l) := by
  intro p made t hparts hfresh hsub hcounted hreferred hsites
  have htrail : trail a n p (.leaf l) made = a.ahead made [Site.entry l.target] := by
    simp [trail, opening, exits]
  have hnone : opening n p (.leaf l) = [] := rfl
  rw [hnone, List.append_nil] at hsub hreferred
  rw [htrail] at hsites ⊢
  rw [translateTrie]
  refine Yields.andThen (henter l.target made t hsub hcounted hreferred hsites) ?_
  rintro _ t' ⟨rfl, hadvanced⟩
  refine .of_ok rfl ⟨rfl, ?_, hadvanced⟩
  rw [filter_ahead_eq_nil h (hsub hbase) (by simp [Site.entry])]
  rfl

omit henter in
/-- The state of a run gets its edge when what follows the run has been translated. -/
theorem translates_run (bytes : List UInt8) (next : Trie)
    (ih : Translates a enter base n node top transform next) :
    Translates a enter base n node top transform (.run bytes next) := by
  intro p made t hparts hfresh hsub hcounted hreferred hsites
  have hself : (p, Trie.run bytes next) ∈ (Trie.run bytes next).inner p :=
    Trie.mem_inner_run.mpr (.inl ⟨rfl, rfl⟩)
  have hproper := (Blueprint.Node.built_trie ht).proper.of_mem_inner (hparts _ _ hself)
  have hpath : p ++ bytes ≠ [] := by
    cases hproper with
    | run hbytes _ =>
      intro hnil
      rw [(List.append_eq_nil_iff.mp hnil).2] at hbytes
      cases hbytes
  have hnodup := hproper.nodup_paths p
  rw [Trie.inner, List.map_cons, List.nodup_cons] at hnodup
  have hnextparts : ∀ q v, (q, v) ∈ next.inner (p ++ bytes) → (q, v) ∈ top.inner [] :=
    fun q v hv => hparts q v (Trie.mem_inner_run.mpr (.inr hv))
  have hnextfresh : ∀ q v, (q, v) ∈ next.inner (p ++ bytes) → ⟨n, q⟩ ∉ made ++ [⟨n, p⟩] :=
    fresh_below (fun q v hv => hfresh q v (Trie.mem_inner_run.mpr (.inr hv))) hnodup.1
  have htrail : trail a n p (.run bytes next) made =
      ⟨n, p⟩ :: a.ahead (made ++ [⟨n, p⟩]) [Site.ofTrie n (p ++ bytes) next] := rfl
  have hnexttrail := ahead_ofTrie h hn ht hpath hnextparts hnextfresh
  rw [htrail, List.append_cons] at hsites
  rw [htrail, translateTrie]
  obtain ⟨label, t₁, hadd, hbuilding, hgoal, hposition⟩ := exists_building h hn ht hbase hkind
    htransform hself hparts hfresh hsub hcounted hreferred ((List.prefix_append _ _).trans hsites)
    (.run transform bytes none)
  refine Yields.cons (hdefect p) (Yields.after_ok hadd ?_)
  have hnext := ih (p ++ bytes) (made ++ [⟨n, p⟩]) t₁ hnextparts hnextfresh
    (fun s hs => List.mem_append_left _ (hsub hs)) hbuilding.counted
    (hbuilding.referred.opening hpath n next) (hnexttrail ▸ hsites)
  rw [← hnexttrail] at hnext
  refine Yields.andThen hnext ?_
  rintro ⟨j, own⟩ t₂ ⟨hj, hown, hadvanced⟩
  dsimp only at hj hown
  subst hj hown
  have hgrown := hbuilding.advance rfl hadvanced
  have hwire := wire_eq (w := .onRun ⟨a.position (Site.ofTrie n (p ++ bytes) next), next.value⟩)
    hgrown.here rfl
  refine Yields.after_ok hwire (.of_ok rfl ⟨hposition.symm, ?_, ?_⟩)
  · rw [List.filter_cons_of_pos (by simp), List.map_cons, hposition]
  · exact Building.finish (hgrown.put rfl) hgoal

/-- The state of a branch gets its edges one by one, as a table where the children fit into one,
and is then led on to where a key ends here, if one does. -/
theorem translates_branch (children : List (UInt8 × Bool × Trie)) (stop : Option Leaf)
    (ih : ∀ child ∈ children, Translates a enter base n node top transform child.2.2) :
    Translates a enter base n node top transform (.branch children stop) := by
  intro p made t hparts hfresh hsub hcounted hreferred hsites
  replace hsub : base ⊆ made ++ [⟨n, p⟩] := hsub
  have hself : (p, Trie.branch children stop) ∈ (Trie.branch children stop).inner p :=
    Trie.mem_inner_branch.mpr (.inl ⟨rfl, rfl⟩)
  have hproper := (Blueprint.Node.built_trie ht).proper.of_mem_inner (hparts _ _ hself)
  have hnodup := hproper.nodup_paths p
  rw [Trie.inner, List.map_cons, List.nodup_cons] at hnodup
  have hedge : a.stopEdge (some (.branch children stop)) =
      (stopOf stop).map fun f => { f with target := a.entry f.target } := by
    cases stop <;> rfl
  rw [trail_branch, List.append_cons, ← List.append_assoc] at hsites
  have hfirst := (List.prefix_append _ _).trans hsites
  have hbuild := exists_building h hn ht hbase hkind htransform hself hparts hfresh hsub hcounted hreferred
    ((List.prefix_append _ _).trans hfirst)
  rw [trail_branch, translateTrie]
  refine Yields.cons (hdefect p) ?_
  cases hrows : Table.ofChildren a.options children with
  | ok rows =>
    -- all children are leaves, so the states made on the way belong to other nodes
    rw [ahead_rowWires a hrows ⟨n, p⟩] at hfirst hsites ⊢
    obtain ⟨label, t₁, hadd, hbuilding, hgoal, hposition⟩ := hbuild
      (.table transform [])
    refine Yields.after_ok hadd (Yields.bind (henter.connect rfl hsub hbuilding hfirst
      (foldlM_rowWires a rows label _ none)) ?_)
    intro _ t₂ hconnected
    refine Yields.andThen (henter.leadOn (by rw [← List.append_assoc])
      (fun s hs => List.mem_append_left _ (hsub hs)) hconnected rfl hsites) ?_
    intro _ t₃ hled
    refine .of_ok rfl ⟨hposition.symm, ?_, hled.finish ?_⟩
    · rw [List.filter_cons_of_pos (by simp), List.filter_append,
        filter_ahead_eq_nil h (hsub hbase) Site.path_of_mem_entries,
        filter_ahead_eq_nil h (List.mem_append_left _ (hsub hbase)) Site.path_of_mem_entries,
        ← hposition]
      rfl
    · rw [hgoal, Assembly.trieKind, hrows, hedge]
  | error e =>
    obtain ⟨label, t₁, hadd, hbuilding, hgoal, hposition⟩ := hbuild
      (.branch transform [])
    have hchildfresh : ∀ q v, (q, v) ∈ Trie.innerOf p children → ⟨n, q⟩ ∉ made ++ [⟨n, p⟩] :=
      fresh_below (fun q v hv => hfresh q v (List.mem_cons_of_mem _ hv)) hnodup.1
    refine Yields.after_ok hadd (Yields.bind (yields_translateChildren h hn ht hbase ih
      (fun q v hv => hparts q v (List.mem_cons_of_mem _ hv)) hnodup.2 rfl hchildfresh hsub
      hbuilding hfirst) ?_)
    rintro _ t₂ ⟨rfl, hbranch⟩
    refine Yields.andThen (henter.leadOn (by rw [← List.append_assoc])
      (fun s hs => List.mem_append_left _ (hsub hs)) hbranch rfl hsites) ?_
    intro _ t₃ hled
    refine .of_ok rfl ⟨hposition.symm, ?_, hled.finish ?_⟩
    · rw [List.filter_cons_of_pos (by simp), List.filter_append,
        filter_ahead_eq_nil h (List.mem_append_left _ (hsub hbase)) Site.path_of_mem_entries,
        List.append_nil, List.map_cons, hposition]
    · rw [hgoal, Assembly.trieKind, hrows, hedge]
      rfl

/-- **A trie is translated** into one state for each of its branches and runs. -/
theorem translates (u : Trie) : Translates a enter base n node top transform u := by
  induction u using Trie.induct with
  | leaf l => exact translates_leaf h hbase henter l
  | run bytes next ih => exact translates_run h hn ht hbase hdefect hkind htransform bytes next ih
  | branch children stop ih =>
    exact translates_branch h hn ht hbase hdefect hkind htransform henter children stop ih

end Parts
end Match

end ByteMachine.Translator
