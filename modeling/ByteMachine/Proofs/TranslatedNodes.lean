import ByteMachine.Proofs.TranslatedTries

/-! # Nodes that are translated

A node that matches nothing becomes one state.  It is led on to where the node continues, and then
it gets an edge for each code that its callback may return (`Enters.translatePlain`).

A matching node becomes the states of its trie first (`yields_translateParts`).  Then those of its
states that no key ends at are led on to where the node continues (`Enters.fallBack`).  The state
at which the node is entered is always one of them, since no key is empty
(`otherwise_draft_entry`), so the node that follows is entered exactly once for all of them, after
the whole trie.

A node with a defect makes no state (`Enters.visit`). -/
namespace ByteMachine.Translator

variable {a : Assembly} {enter : Nat → Translation Nat} {made parts : List Site} {root n : Nat}
  {node : Blueprint.Node} {o : Otherwise} {word : Option String} {t t₁ t' : Translator}

/-! ## Callbacks and transforms of a node -/

/-- The callback of a node that is entered, if it has one. -/
theorem exists_callback (h : a.Rooted root) (hn : a.blueprint.nodes[n]? = some node)
    (hplain : ∀ word, node.kind ≠ .matching word) (hcounted : Counted a made t)
    (hreferred : Referred a made t) (hsites : made ++ [Site.entry n] <+: a.sites) :
    ∃ t', callbackFor a.blueprint node t =
        .ok (((a.blueprint.callbackOf? node).map (Assembly.callbackIndex a.callbacks)).getD 0, t') ∧
      Counted a made t' ∧ Referred a (made ++ [Site.entry n]) t' ∧
      t'.machine.states = t.machine.states := by
  have hnodes : (a.upTo [Site.entry n]).nodes = [node] :=
    Assembly.nodes_entry (h.node?_eq (s := Site.entry n) hn)
  have hnoTransform : (a.upTo [Site.entry n]).nodes.filterMap Assembly.usedTransform? = [] := by
    have hnone : Assembly.usedTransform? node = none := by
      unfold Assembly.usedTransform?
      split
      · rename_i word hkind
        exact absurd hkind (hplain word)
      · rfl
    rw [hnodes, List.filterMap_cons_none hnone, List.filterMap_nil]
  unfold callbackFor
  cases hc : a.blueprint.callbackOf? node with
  | none =>
    refine ⟨t, rfl, hcounted, hreferred.keep ?_ hnoTransform, rfl⟩
    rw [hnodes, List.filterMap_cons_none hc, List.filterMap_nil]
  | some c =>
    obtain ⟨t', huse, hreferred', hkey, hstates, hmemo, hnames⟩ :=
      hreferred.useCallback (s := Site.entry n) (c := c)
        (by rw [hnodes, List.filterMap_cons_some hc, List.filterMap_nil]) hnoTransform
    have hprefix : t'.machine.callbacks.toList <+: a.callbacks := by
      rw [hreferred'.named.callbacks]
      exact Assembly.prefix_callbacks hsites
    refine ⟨t', ?_, hcounted.congr hstates hmemo hnames, hreferred', hstates⟩
    rw [Option.map_some, Option.getD_some, Assembly.callbackIndex_of_known hprefix hkey]
    exact huse

/-- The transform of a node that is entered. -/
theorem exists_transform (h : a.Rooted root) (hn : a.blueprint.nodes[n]? = some node)
    (hkind : node.kind = .matching word) {w : Transform}
    (hword : Blueprint.transformOf? word = some w) (hcounted : Counted a made t)
    (hreferred : Referred a made t) (hsites : made ++ [Site.entry n] <+: a.sites) :
    ∃ t', useTransform w t = .ok (a.transforms.idxOf w, t') ∧ Counted a made t' ∧
      Referred a (made ++ [Site.entry n]) t' ∧ t'.machine.states = t.machine.states := by
  have hnodes : (a.upTo [Site.entry n]).nodes = [node] :=
    Assembly.nodes_entry (h.node?_eq (s := Site.entry n) hn)
  have hcallback : a.blueprint.callbackOf? node = none := by rw [Blueprint.callbackOf?, hkind]
  have htransform : Assembly.usedTransform? node = some w := by
    rw [Assembly.usedTransform?, hkind]
    exact hword
  obtain ⟨t', huse, hreferred', hmem, hstates, hmemo, hnames⟩ :=
    hreferred.useTransform (s := Site.entry n)
      (by rw [hnodes, List.filterMap_cons_none hcallback, List.filterMap_nil])
      (by rw [hnodes, List.filterMap_cons_some htransform, List.filterMap_nil])
  refine ⟨t', ?_, hcounted.congr hstates hmemo hnames, hreferred', hstates⟩
  -- the transforms that follow change nothing about the place of this one
  obtain ⟨rest, hrest⟩ := Assembly.prefix_transforms hsites
  rw [← hreferred'.transforms] at hrest
  rw [← hrest, List.idxOf_append_of_mem hmem]
  exact huse

/-! ## Nodes that match nothing -/

/-- The edges for returned codes, added one by one. -/
theorem foldlM_returnWires (a : Assembly) (node : Blueprint.Node) (label : Label) (callback : Nat)
    (o : Option Machine.Fallback) :
    ((returnWires node).map fun e => e.2 (a.entry e.1)).foldlM Machine.State.wire
        ⟨label, bareKind a.groups node callback, o⟩ =
      .ok ⟨label, match node.kind with
        | .invoke _ => .invoke callback (node.returns.map fun r => ⟨r.1, a.entry r.2⟩)
        | _ => bareKind a.groups node callback, o⟩ := by
  cases hkind : node.kind with
  | invoke c =>
    have hbare : bareKind a.groups node callback = .invoke callback [] := by rw [bareKind, hkind]
    rw [hbare, returnWires, List.map_map]
    refine Eq.trans (congrArg (List.foldlM Machine.State.wire _) ?_)
      (foldlM_wire (fun edges => ⟨label, .invoke callback edges, o⟩) .onReturn (fun _ _ => rfl) []
        (node.returns.map fun r => ⟨r.1, a.entry r.2⟩))
    rw [List.map_map]
    rfl
  | _ =>
    have hreturns : node.returns = [] := by rw [Blueprint.Node.returns, hkind]
    rw [returnWires, hreturns]
    rfl

/-- The state of a node that matches nothing. -/
theorem kind_of_plain (a : Assembly) (hplain : ∀ word, node.kind ≠ .matching word)
    (callbacks : List (Callback Bool)) (transforms : List Transform) (s : Site)
    (part : Option Trie) :
    a.kind callbacks transforms s node part = match node.kind with
      | .invoke _ => .invoke
          (((a.blueprint.callbackOf? node).map (Assembly.callbackIndex callbacks)).getD 0)
          (node.returns.map fun r => ⟨r.1, a.entry r.2⟩)
      | _ => bareKind a.groups node
          (((a.blueprint.callbackOf? node).map (Assembly.callbackIndex callbacks)).getD 0) := by
  unfold Assembly.kind bareKind
  cases hkind : node.kind with
  | matching word => exact absurd hkind (hplain word)
  | _ => rfl

/-- Where a node continues that matches nothing. -/
theorem next_of_plain (h : a.Rooted root) (hn : a.blueprint.nodes[n]? = some node)
    (hplain : ∀ word, node.kind ≠ .matching word) :
    a.outline.part? (Site.entry n) = some (node, none) ∧
      a.outline.next (Site.entry n) =
        ((fallbackOf node).toList.map fun f => Site.entry f.target) ++
          (returnWires node).map fun e => Site.entry e.1 := by
  have hpart : a.outline.part? (Site.entry n) = some (node, none) := by
    rw [h.outline]
    refine Outline.part?_of_no_trie hn fun u hu => ?_
    rw [Blueprint.Node.trie_of_plain hplain] at hu
    cases hu
  have hfallback : ((fallbackOf node).toList.map fun f => Site.entry f.target) =
      node.otherwise.toList.map fun e => Site.entry e.target := by
    rw [fallbackOf]
    cases node.otherwise <;> rfl
  refine ⟨hpart, ?_⟩
  rw [Outline.next, Outline.inside, Outline.outside, hpart, hfallback, returnWires, List.map_map]
  rfl

/-- **A node that matches nothing is translated** into one state. -/
theorem Enters.translatePlain (h : a.Rooted root) (hn : a.blueprint.nodes[n]? = some node)
    (hplain : ∀ word, node.kind ≠ .matching word)
    (hdefect : a.outline.defect? a.blueprint a.groups (Site.entry n) = none)
    (henter : Enters a a.finished enter (made ++ [Site.entry n])) (hnew : Site.entry n ∉ made)
    (hcounted : Counted a made t) (hreferred : Referred a made t)
    (hsites : made ++ a.ahead made [Site.entry n] <+: a.sites) :
    Yields a (a.ahead made [Site.entry n])
      (Translator.translatePlain enter a.blueprint a.groups n node) t fun i t' =>
        i = a.entry n ∧ Advanced a a.finished made (a.ahead made [Site.entry n]) t t' := by
  obtain ⟨hpart, hnext⟩ := next_of_plain h hn hplain
  rw [Assembly.ahead_of_not_mem hnew, hnext, Assembly.ahead_append] at hsites ⊢
  rw [List.append_cons, ← List.append_assoc] at hsites
  have hfirst := (List.prefix_append _ _).trans hsites
  have hself := (List.prefix_append _ _).trans hfirst
  obtain ⟨t₁, hcallback, hcounted₁, hreferred₁, hstates⟩ :=
    exists_callback h hn hplain hcounted hreferred hself
  obtain ⟨label, t₂, hadd, hbuilding, hlabels⟩ := building_addFor hcounted₁ hreferred₁ hnew
    (fun hpath => absurd rfl hpath) (bareKind a.groups node
      (((a.blueprint.callbackOf? node).map (Assembly.callbackIndex a.callbacks)).getD 0)) a.finished
  rw [h.nameOf_eq (s := Site.entry n) hn] at hadd
  refine Yields.cons hdefect (Yields.after_ok hcallback (Yields.after_ok hadd ?_))
  refine Yields.bind (henter.leadOn rfl (List.Subset.refl _) hbuilding rfl hfirst) ?_
  intro _ t₃ hled
  refine Yields.andThen (henter.connect (by rw [← List.append_assoc])
    (List.subset_append_left _ _) hled hsites (foldlM_returnWires a node label _ _)) ?_
  intro _ t₄ hconnected
  refine .of_ok rfl ⟨?_, ?_⟩
  · exact (Assembly.position_eq_length hself hnew).symm
  · refine (hconnected.finish ?_).of_states_eq hstates
    have hotherwise : a.otherwise node none =
        (fallbackOf node).map fun f => { f with target := a.entry f.target } := by
      rw [fallbackOf, Option.map_map]
      rfl
    rw [Assembly.finished_eq hself hlabels hpart, kind_of_plain a hplain, hotherwise]

/-! ## What a node matches -/

/-- The sites that a matching node brings before it continues elsewhere. -/
def footprint (a : Assembly) (n : Nat) (made : List Site) : List Site :=
  Site.entry n :: a.ahead (made ++ [Site.entry n]) (a.outline.inside (Site.entry n))

theorem append_footprint (a : Assembly) (n : Nat) (made : List Site) :
    made ++ footprint a n made = made ++ [Site.entry n] ++
      a.ahead (made ++ [Site.entry n]) (a.outline.inside (Site.entry n)) := by
  rw [List.append_assoc]
  rfl

theorem prefix_footprint (a : Assembly) (n : Nat) (made : List Site) :
    made ++ [Site.entry n] <+: made ++ footprint a n made :=
  ⟨_, (append_footprint a n made).symm⟩

/-- **A matching node leads to its parts first**, and then to where it continues. -/
theorem ahead_of_matching (h : a.Rooted root) (hn : a.blueprint.nodes[n]? = some node)
    (hkind : node.kind = .matching word) (ho : node.otherwise = some o)
    (hnew : Site.entry n ∉ made) :
    a.ahead made [Site.entry n] = footprint a n made ++
      a.ahead (made ++ footprint a n made) [Site.entry o.target] := by
  have houtside : a.outline.outside (Site.entry n) = [Site.entry o.target] := by
    obtain ⟨part, hpart⟩ := Outline.exists_part?_entry hn
    rw [Outline.outside, h.outline, hpart]
    dsimp only
    rw [if_pos (show (Site.entry n).path = [] from rfl), ho, Blueprint.Node.returns, hkind]
    rfl
  rw [Assembly.ahead_of_not_mem hnew, Outline.next, houtside, Assembly.ahead_append,
    append_footprint]
  rfl

/-- The trie of a node brings the sites that the node brings. -/
theorem trail_root (h : a.Rooted root) (hn : a.blueprint.nodes[n]? = some node) {top : Trie}
    (ht : node.trie = .ok (some top)) (made : List Site) :
    opening n [] top = [Site.entry n] ∧ trail a n [] top made = footprint a n made := by
  rw [footprint, Outline.inside, h.part?_entry hn ht]
  cases top with
  | leaf l => exact absurd rfl (Blueprint.Node.trie_ne_leaf ht l)
  | _ => exact ⟨rfl, rfl⟩

/-- **What a node matches is translated**, as far as where the node continues. -/
theorem yields_translateParts (h : a.Rooted root) (hn : a.blueprint.nodes[n]? = some node)
    (hkind : node.kind = .matching word)
    (hdefect : ∀ q, a.outline.defect? a.blueprint a.groups ⟨n, q⟩ = none)
    (henter : Enters a a.finished enter (made ++ [Site.entry n])) (hnew : Site.entry n ∉ made)
    (hcounted : Counted a made t) (hreferred : Referred a (made ++ [Site.entry n]) t)
    (hsites : made ++ footprint a n made <+: a.sites) :
    Yields a (footprint a n made) (translateParts enter a.options n node
        (a.transforms.idxOf ((Blueprint.transformOf? word).getD .identity))) t fun r t' =>
      r.1 = a.entry n ∧ r.2 = ((footprint a n made).filter (·.node = n)).map a.position ∧
        Advanced a (a.draft n) made (footprint a n made) t t' := by
  have hself := (prefix_footprint a n made).trans hsites
  have hmade : made <+: a.sites := (List.prefix_append _ _).trans hself
  have hentry : Site.entry n ∈ made ++ [Site.entry n] := by simp
  unfold translateParts
  split
  · rename_i top ht
    obtain ⟨hopening, htrail⟩ := trail_root h hn ht made
    rw [← htrail] at hsites ⊢
    have hfresh : ∀ q v, (q, v) ∈ top.inner [] → ⟨n, q⟩ ∉ made :=
      fun q _ _ hq => hnew (h.entry_mem hmade hq)
    have htop := translates h hn ht hentry hdefect hkind rfl (henter.draft h hentry) top [] made t
      (fun _ _ hv => hv) hfresh (by rw [hopening]; exact List.Subset.refl _) hcounted
      (by rw [hopening]; exact hreferred) hsites
    rw [Outline.ofTrie_root ht] at htop
    exact htop
  · rename_i hnone
    -- a node without keys is one empty state
    have hpart : a.outline.part? (Site.entry n) = some (node, none) := by
      rw [h.outline]
      exact Outline.part?_of_no_trie hn hnone
    have hone : footprint a n made = [Site.entry n] := by
      rw [footprint, Outline.inside, hpart]
      dsimp only
      rw [Assembly.ahead_nil]
    obtain ⟨label, t', hadd, hbuilding, hlabels⟩ := building_addFor hcounted hreferred hnew
      (fun hpath => absurd rfl hpath) .empty (a.draft n)
    rw [h.nameOf_eq (s := Site.entry n) hn] at hadd
    have hposition : a.position (Site.entry n) = made.length :=
      Assembly.position_eq_length hself hnew
    rw [hone]
    refine Yields.cons (hdefect []) (Yields.after_ok hadd (.of_ok rfl ⟨?_, ?_, ?_⟩))
    · exact hposition.symm
    · rw [List.filter_cons_of_pos (by simp [Site.entry]), List.map_cons, hposition]
      rfl
    · refine hbuilding.finish ((Assembly.draft_eq hself hlabels hpart).trans ?_)
      rw [Assembly.kind, hkind]
      rfl

/-! ## Where a matching node continues -/

section FallBack
variable {i : Nat} {own : List Nat}

/-- A state becomes as it should be when it is led on to where its node continues, unless it has
an otherwise edge of its own. -/
def Settles (a : Assembly) (o : Otherwise) (t : Translator) (k : Nat) : Prop :=
  ∃ st, t.machine.states[k]? = some st ∧
    a.finished k =
      some { st with otherwise := st.otherwise.or (some ⟨a.entry o.target, o.stay, none⟩) }

theorem fallBack_cons (known : Option Nat) (rest : List Nat) :
    fallBack enter o known (i :: rest) t =
      if (t.machine.states[i]?.bind (·.otherwise)).isSome then fallBack enter o known rest t
      else (do
        let j ← known.elim (enter o.target) pure
        setOtherwise i ⟨j, o.stay, none⟩
        fallBack enter o (some j) rest) t := by
  rw [fallBack, bind_get]
  split <;> rfl

/-- **Where the node continues is known**: the states that need it are led on to it. -/
theorem fallBack_known (enter : Nat → Translation Nat) (hown : ∀ k ∈ own, Settles a o t k)
    (hcounted : Counted a made t) (hreferred : Referred a made t) :
    ∃ t', fallBack enter o (some (a.entry o.target)) own t = .ok ((), t') ∧ Counted a made t' ∧
      Referred a made t' ∧ (∀ k ∈ own, t'.machine.states[k]? = a.finished k) ∧
      ∀ k, k ∉ own → t'.machine.states[k]? = t.machine.states[k]? := by
  induction own generalizing t with
  | nil => exact ⟨t, rfl, hcounted, hreferred, by simp, fun _ _ => rfl⟩
  | cons i rest ih =>
    obtain ⟨st, hst, hfinished⟩ := hown i List.mem_cons_self
    rw [fallBack_cons, hst, Option.bind_some]
    cases hotherwise : st.otherwise with
    | some f =>
      rw [hotherwise, Option.some_or, ← hotherwise] at hfinished
      obtain ⟨t', hrun, hcounted', hreferred', hdone, hkept⟩ :=
        ih (fun k hk => hown k (List.mem_cons_of_mem _ hk)) hcounted hreferred
      refine ⟨t', by simpa using hrun, hcounted', hreferred', fun k hk => ?_, fun k hk => ?_⟩
      · by_cases hrest : k ∈ rest
        · exact hdone k hrest
        · obtain rfl : k = i := (List.mem_cons.mp hk).resolve_right hrest
          rw [hkept k hrest, hst, hfinished]
      · exact hkept k fun hrest => hk (List.mem_cons_of_mem _ hrest)
    | none =>
      rw [hotherwise, Option.none_or] at hfinished
      -- from now on the state is as it should be, also where it is listed again
      obtain ⟨st₁, hst₁⟩ : ∃ st₁ : Machine.State,
          st₁ = { st with otherwise := some ⟨a.entry o.target, o.stay, none⟩ } := ⟨_, rfl⟩
      have hput : ∀ k, (t.put i st₁).machine.states[k]? =
          if k = i then some st₁ else t.machine.states[k]? := states_put hst
      have hrest : ∀ k ∈ rest, Settles a o (t.put i st₁) k := by
        intro k hk
        by_cases hki : k = i
        · refine ⟨st₁, by rw [hput, if_pos hki], ?_⟩
          rw [hki, hfinished, hst₁]
          rfl
        · obtain ⟨st', hst', hfinished'⟩ := hown k (List.mem_cons_of_mem _ hk)
          exact ⟨st', by rw [hput, if_neg hki, hst'], hfinished'⟩
      obtain ⟨t', hrun, hcounted', hreferred', hdone, hkept⟩ :=
        ih hrest (hcounted.put hst (by rw [hst₁])) (hreferred.put i st₁)
      refine ⟨t', ?_, hcounted', hreferred', fun k hk => ?_, fun k hk => ?_⟩
      · rw [if_neg (by simp)]
        rw [Option.elim_some, pure_bind, bind_of_ok (setOtherwise_eq hst), ← hst₁]
        exact hrun
      · by_cases hrest : k ∈ rest
        · exact hdone k hrest
        · have hki : k = i := (List.mem_cons.mp hk).resolve_right hrest
          rw [hkept k hrest, hput, if_pos hki, hki, hfinished, hst₁]
      · rw [hkept k fun hrest => hk (List.mem_cons_of_mem _ hrest), hput,
          if_neg]
        rintro rfl
        exact hk List.mem_cons_self

end FallBack

/-- The states of a node are to be led on. -/
theorem settles_of_draft (h : a.Rooted root) (hn : a.blueprint.nodes[n]? = some node)
    (ho : node.otherwise = some o) {s : Site} (hs : s ∈ a.sites) (hnode : s.node = n)
    (hst : t.machine.states[a.position s]? = a.draft n (a.position s)) :
    Settles a o t (a.position s) := by
  subst hnode
  have hreach : (Outline.ofBlueprint a.blueprint).digraph.Reaches (Site.entry root) s := by
    rw [h.sites, h.outline] at hs
    exact Outline.mem_sites.mp hs
  obtain ⟨⟨node', part⟩, hpart⟩ :=
    Option.isSome_iff_exists.mp (Outline.isSome_part?_of_reaches hreach hn)
  obtain rfl : node' = node := Option.some.inj ((Outline.part?_cases hpart).1.symm.trans hn)
  rw [← h.outline] at hpart
  obtain ⟨label, hfinished⟩ := Assembly.state_of_mem hs
  rw [Assembly.state, hpart] at hfinished
  replace hfinished : a.finished (a.position s) =
      some ⟨label, a.kind a.callbacks a.transforms s node' part, a.otherwise node' part⟩ :=
    hfinished
  refine ⟨⟨label, a.kind a.callbacks a.transforms s node' part, a.stopEdge part⟩, hst.trans ?_,
    hfinished.trans ?_⟩
  · rw [Assembly.draft, show a.sites[a.position s]? = some s from List.getElem?_idxOf hs]
    dsimp only
    rw [if_pos rfl, hfinished, hpart]
    rfl
  · rw [Assembly.otherwise_eq, ho]
    rfl

/-- The state at which a node is entered always needs to be led on, since no key is empty. -/
theorem otherwise_draft_entry (h : a.Rooted root) (hn : a.blueprint.nodes[n]? = some node)
    (hself : made ++ [Site.entry n] <+: a.sites) :
    (a.draft n made.length).bind (·.otherwise) = none := by
  have hstop : (a.outline.part? (Site.entry n)).bind (fun found => a.stopEdge found.2) = none := by
    by_cases htrie : ∃ top, node.trie = .ok (some top)
    · obtain ⟨top, ht⟩ := htrie
      rw [h.part?_entry hn ht, Option.bind_some]
      cases top with
      | branch children stop =>
        rw [(Blueprint.Node.built_trie ht).stop_eq_none]
        rfl
      | _ => rfl
    · rw [h.outline, Outline.part?_of_no_trie hn fun top ht => htrie ⟨top, ht⟩]
      rfl
  rw [Assembly.draft, Assembly.sites_getElem? hself]
  dsimp only
  rw [if_pos (show (Site.entry n).node = n from rfl), hstop]
  cases a.finished made.length <;> rfl

/-- Where the states of a node stand that have been made for it. -/
theorem mem_own_iff (h : a.Rooted root) (hnew : Site.entry n ∉ made)
    (hsites : made ++ parts <+: a.sites) {k : Nat} :
    k ∈ (parts.filter (·.node = n)).map a.position ↔
      made.length ≤ k ∧ ∃ s, (made ++ parts)[k]? = some s ∧ s.node = n := by
  have hmade : made <+: a.sites := (List.prefix_append _ _).trans hsites
  constructor
  · intro hk
    obtain ⟨s, hs, rfl⟩ := List.mem_map.mp hk
    obtain ⟨hs, hnode⟩ := List.mem_filter.mp hs
    replace hnode : s.node = n := by simpa using hnode
    have hmem : s ∈ made ++ parts := List.mem_append_right _ hs
    have hfresh : s ∉ made := fun hs => hnew (hnode ▸ h.entry_mem hmade hs)
    rw [← Assembly.idxOf_eq_position hsites hmem]
    refine ⟨?_, s, List.getElem?_idxOf hmem, hnode⟩
    rw [List.idxOf_append_of_notMem hfresh]
    exact Nat.le_add_right _ _
  · rintro ⟨hk, s, hs, hnode⟩
    have hmem : s ∈ parts := by
      rw [List.getElem?_append_right hk] at hs
      exact List.mem_of_getElem? hs
    exact List.mem_map.mpr ⟨s, List.mem_filter.mpr ⟨hmem, by simpa using hnode⟩,
      h.position_of_getElem? hsites hs⟩

/-- The states made for a node are to be led on. -/
theorem settles_of_mem_own (h : a.Rooted root) (hn : a.blueprint.nodes[n]? = some node)
    (ho : node.otherwise = some o) (hnew : Site.entry n ∉ made)
    (hsites : made ++ parts <+: a.sites) (hadvanced : Advanced a (a.draft n) made parts t t₁)
    (hkept : ∀ k < (made ++ parts).length, t'.machine.states[k]? = t₁.machine.states[k]?) :
    ∀ k ∈ (parts.filter (·.node = n)).map a.position, Settles a o t' k := by
  intro k hk
  obtain ⟨hle, s, hs, hnode⟩ := (mem_own_iff h hnew hsites).mp hk
  have hlt := (List.getElem?_eq_some_iff.mp hs).1
  obtain rfl := h.position_of_getElem? hsites hs
  refine settles_of_draft h hn ho (hsites.subset (List.mem_of_getElem? hs)) hnode ?_
  rw [hkept _ hlt, hadvanced.filled _ hle hlt]

/-- **When the states of a node have been led on**, all states made since the node was entered are
as they should be. -/
theorem Advanced.settled (h : a.Rooted root) (hnew : Site.entry n ∉ made) {more : List Site}
    {t₂ : Translator} (hsites : made ++ parts <+: a.sites)
    (hadvanced : Advanced a (a.draft n) made parts t t₁)
    (hentered : Advanced a a.finished (made ++ parts) more t₁ t₂)
    (hcounted : Counted a (made ++ parts ++ more) t')
    (hreferred : Referred a (made ++ parts ++ more) t')
    (hdone : ∀ k ∈ (parts.filter (·.node = n)).map a.position,
      t'.machine.states[k]? = a.finished k)
    (hkept : ∀ k, k ∉ (parts.filter (·.node = n)).map a.position →
      t'.machine.states[k]? = t₂.machine.states[k]?) :
    Advanced a a.finished made (parts ++ more) t t' := by
  have hlength : made.length ≤ (made ++ parts).length := by simp
  rw [List.append_assoc] at hcounted hreferred
  refine ⟨hcounted, hreferred, fun k hk => ?_, fun k hk hk' => ?_⟩
  · have hother : k ∉ (parts.filter (·.node = n)).map a.position := by
      intro hmem
      have hle := ((mem_own_iff h hnew hsites).mp hmem).1
      omega
    rw [hkept k hother, hentered.kept k (by omega), hadvanced.kept k hk]
  · by_cases hmem : k ∈ (parts.filter (·.node = n)).map a.position
    · exact hdone k hmem
    · rw [hkept k hmem]
      by_cases hold : k < (made ++ parts).length
      · obtain ⟨s, hs⟩ : ∃ s, (made ++ parts)[k]? = some s := ⟨_, List.getElem?_eq_getElem hold⟩
        have hnode : s.node ≠ n :=
          fun hnode => hmem ((mem_own_iff h hnew hsites).mpr ⟨hk, s, hs, hnode⟩)
        rw [hentered.kept k hold, hadvanced.filled k hk hold]
        refine Assembly.draft_of_ne ?_ hnode
        obtain ⟨rest, hrest⟩ := hsites
        rw [← hrest, List.getElem?_append_left hold, hs]
      · refine hentered.filled k (by omega) ?_
        rw [List.append_assoc]
        exact hk'

/-- **The states of a node are led on** to where it continues, which is entered first. -/
theorem Enters.fallBack (h : a.Rooted root) (hn : a.blueprint.nodes[n]? = some node)
    (ho : node.otherwise = some o) (henter : Enters a a.finished enter (made ++ [Site.entry n]))
    (hnew : Site.entry n ∉ made) (hparts : parts = footprint a n made)
    (hadvanced : Advanced a (a.draft n) made parts t t₁)
    (hsites : made ++ parts ++ a.ahead (made ++ parts) [Site.entry o.target] <+: a.sites) :
    Yields a (a.ahead (made ++ parts) [Site.entry o.target])
      (Translator.fallBack enter o none ((parts.filter (·.node = n)).map a.position)) t₁
      fun _ t' => Advanced a a.finished made
        (parts ++ a.ahead (made ++ parts) [Site.entry o.target]) t t' := by
  have hgiven : made ++ parts <+: a.sites := (List.prefix_append _ _).trans hsites
  have hself : made ++ [Site.entry n] <+: made ++ parts := hparts ▸ prefix_footprint a n made
  have hlt : made.length < (made ++ parts).length := by
    rw [hparts, footprint]
    simp
  obtain ⟨own, hfirst⟩ : ∃ own,
      (parts.filter (·.node = n)).map a.position = made.length :: own := by
    rw [hparts, footprint, List.filter_cons_of_pos (by simp [Site.entry]), List.map_cons,
      Assembly.position_eq_length (hself.trans hgiven) hnew]
    exact ⟨_, rfl⟩
  have hnone : t₁.machine.states[made.length]?.bind (·.otherwise) = none := by
    rw [hadvanced.filled _ (Nat.le_refl _) hlt]
    exact otherwise_draft_entry h hn (hself.trans hgiven)
  -- the first state needs to be led on, before and after the node that follows is entered
  have hopen : ∀ {t₂ : Translator} (known : Option Nat),
      t₂.machine.states[made.length]? = t₁.machine.states[made.length]? →
      Translator.fallBack enter o known (made.length :: own) t₂ = (do
        let j ← known.elim (enter o.target) pure
        setOtherwise made.length ⟨j, o.stay, none⟩
        Translator.fallBack enter o (some j) own) t₂ := by
    intro t₂ known hsame
    rw [fallBack_cons, hsame, hnone]
    rfl
  rw [hfirst]
  refine Yields.of_eq (hopen none rfl) (Yields.andThen (henter o.target (made ++ parts) t₁
    hself.subset hadvanced.counted hadvanced.referred hsites) ?_)
  rintro _ t₂ ⟨rfl, hentered⟩
  have hsettles := settles_of_mem_own h hn ho hnew hgiven hadvanced hentered.kept
  obtain ⟨t', hrun, hcounted, hreferred, hdone, hkept⟩ :=
    fallBack_known enter hsettles hentered.counted hentered.referred
  rw [hfirst, hopen _ (hentered.kept _ hlt)] at hrun
  exact .of_ok hrun (hadvanced.settled h hnew hgiven hentered hcounted hreferred hdone hkept)

/-! ## All nodes -/

/-- **A matching node is translated**: first its trie, and then its states are led on. -/
theorem Enters.translateMatch (h : a.Rooted root) (hn : a.blueprint.nodes[n]? = some node)
    (hkind : node.kind = .matching word) (ho : node.otherwise = some o)
    (hdefect : a.blueprint.defect? a.groups ⟨node, node.trie⟩ = none)
    (henter : Enters a a.finished enter (made ++ [Site.entry n])) (hnew : Site.entry n ∉ made)
    (hcounted : Counted a made t) (hreferred : Referred a made t)
    (hsites : made ++ a.ahead made [Site.entry n] <+: a.sites) :
    Yields a (a.ahead made [Site.entry n])
      (Translator.translateMatch enter a.options n node word o) t fun i t' =>
        i = a.entry n ∧ Advanced a a.finished made (a.ahead made [Site.entry n]) t t' := by
  rw [ahead_of_matching h hn hkind ho hnew] at hsites ⊢
  rw [← List.append_assoc] at hsites
  have hgiven : made ++ footprint a n made <+: a.sites := (List.prefix_append _ _).trans hsites
  have hself := (prefix_footprint a n made).trans hgiven
  have hsite : ∀ q, a.outline.defect? a.blueprint a.groups ⟨n, q⟩ = none := by
    intro q
    rw [h.outline]
    exact (Blueprint.defect?_site (s := ⟨n, q⟩) hn).trans hdefect
  obtain ⟨w, hword⟩ := (Blueprint.fit_of_defect? hdefect).transform hkind
  obtain ⟨t₁, htransform, hcounted₁, hreferred₁, hstates⟩ :=
    exists_transform h hn hkind hword hcounted hreferred hself
  have hparts := yields_translateParts h hn hkind hsite henter hnew hcounted₁ hreferred₁ hgiven
  rw [hword] at hparts
  unfold Translator.translateMatch
  rw [hword]
  refine Yields.after_ok htransform (Yields.bind hparts ?_)
  rintro ⟨i, own⟩ t₂ ⟨hi, hown, hadvanced⟩
  dsimp only at hi hown
  subst hi hown
  refine Yields.andThen (henter.fallBack h hn ho hnew rfl (hadvanced.of_states_eq hstates)
    hsites) ?_
  intro _ t₃ hdone
  exact .of_ok rfl ⟨rfl, hdone⟩

/-- A node that does not exist is found when it is to be entered. -/
theorem yields_of_missing (h : a.Rooted root) (hn : a.blueprint.nodes[n]? = none)
    (hnew : Site.entry n ∉ made) {α : Type} {x : Translation α} {P : α → Translator → Prop}
    (hx : x t = .error .unknownHandle) : Yields a (a.ahead made [Site.entry n]) x t P := by
  rw [Assembly.ahead_of_not_mem hnew]
  refine Yields.of_defect ?_ hx
  have hplan : (Outline.ofBlueprint a.blueprint)[n]? = none := by
    rw [Outline.ofBlueprint_getElem?, hn]
    rfl
  rw [h.outline, Outline.defect?, show (Site.entry n).node = n from rfl, hplan]

/-- **A node that has not been entered is translated**, unless it has a defect. -/
theorem Enters.visit (h : a.Rooted root) (hn : a.blueprint.nodes[n]? = some node)
    (henter : Enters a a.finished enter (made ++ [Site.entry n])) (hnew : Site.entry n ∉ made)
    (hcounted : Counted a made t) (hreferred : Referred a made t)
    (hsites : made ++ a.ahead made [Site.entry n] <+: a.sites) :
    Yields a (a.ahead made [Site.entry n])
      (Translator.visit enter a.blueprint a.options a.groups n) t fun i t' =>
        i = a.entry n ∧ Advanced a a.finished made (a.ahead made [Site.entry n]) t t' := by
  have hsite : a.outline.defect? a.blueprint a.groups (Site.entry n) =
      a.blueprint.defect? a.groups ⟨node, node.trie⟩ := by
    rw [h.outline]
    exact Blueprint.defect?_site (s := Site.entry n) hn
  unfold Translator.visit
  rw [hn]
  dsimp only
  split
  · rename_i e hdefect
    rw [Assembly.ahead_of_not_mem hnew]
    exact Yields.of_defect (hsite.trans hdefect) rfl
  · rename_i word o hdefect hkind ho
    exact henter.translateMatch h hn hkind ho hdefect hnew hcounted hreferred hsites
  · rename_i word hdefect hkind hnone
    have hfit := Blueprint.fit_of_defect? hdefect
    obtain ⟨o, ho⟩ := hfit.continues (by rw [Blueprint.Node.isError, hkind])
    rw [hnone] at ho
    cases ho
  · rename_i hdefect hmatch hmissing
    refine henter.translatePlain h hn ?_ (hsite.trans hdefect) hnew hcounted hreferred hsites
    intro word hkind
    cases ho : node.otherwise with
    | none => exact hmissing word hkind ho
    | some o => exact hmatch word o hkind ho

end ByteMachine.Translator
