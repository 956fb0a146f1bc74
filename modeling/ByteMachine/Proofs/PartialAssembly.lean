import ByteMachine.Proofs.Translation
import ByteMachine.Proofs.Traversal
import ByteMachine.Proofs.UniqueNames

/-! # Assemblies as far as some sites

An assembly says at once what a machine comes to, with all its sites in order.  A translation
makes the states one by one, so its progress is compared with the assembly as far as the sites
that have become states (`upTo`).  All that an assembly lists grows at its end when sites are
added: the nodes that are entered, the callbacks and transforms that they use, and the names of
the states.  What has a place in one of these lists therefore keeps it
(`idxOf_eq_position`, `callbackIndex_of_known`).

Which sites are still to come depends only on those that are made (`ahead`).  The entry of
a node comes before its other sites (`Rooted.entry_mem`), so a node that is entered gets no sites
from anywhere but its own trie (`Rooted.node_ne`, `Rooted.part_of_mem_ahead`). -/
namespace ByteMachine

/-! ## Names and callbacks in order -/

/-- The pool after a name has been handed out for each of a list. -/
def Names.after (names : Names) : List String → Names
  | [] => names
  | origin :: rest => (names.fresh origin).2.after rest

theorem Names.freshAll_append (names : Names) (xs ys : List String) :
    names.freshAll (xs ++ ys) = names.freshAll xs ++ (names.after xs).freshAll ys := by
  induction xs generalizing names with
  | nil => rfl
  | cons x xs ih => rw [List.cons_append, freshAll_cons, freshAll_cons, ih, List.cons_append, after]

theorem Names.after_append (names : Names) (xs ys : List String) :
    names.after (xs ++ ys) = (names.after xs).after ys := by
  induction xs generalizing names with
  | nil => rfl
  | cons x xs ih => rw [List.cons_append, after, after, ih]

namespace Callback

/-- Callbacks further back are compared with all keys before them. -/
theorem exists_go_append (seen : List String) (cs ds : List (Callback Bool)) :
    ∃ seen', distinct.go seen (cs ++ ds) = distinct.go seen cs ++ distinct.go seen' ds ∧
      ∀ k, k ∈ seen' ↔ k ∈ seen ∨ k ∈ cs.map key := by
  induction cs generalizing seen with
  | nil => exact ⟨seen, rfl, by simp⟩
  | cons c cs ih =>
    rw [List.cons_append, distinct.go, distinct.go]
    by_cases hc : c.key ∈ seen
    · obtain ⟨seen', hgo, hseen⟩ := ih seen
      refine ⟨seen', by rw [if_pos hc, if_pos hc, hgo], fun k => ?_⟩
      rw [hseen, List.map_cons, List.mem_cons]
      constructor
      · exact Or.imp_right Or.inr
      · rintro (hk | rfl | hk)
        · exact .inl hk
        · exact .inl hc
        · exact .inr hk
    · obtain ⟨seen', hgo, hseen⟩ := ih (c.key :: seen)
      refine ⟨seen', by rw [if_neg hc, if_neg hc, hgo, List.cons_append], fun k => ?_⟩
      rw [hseen, List.map_cons, List.mem_cons, List.mem_cons, or_left_comm, or_assoc]

theorem prefix_distinct {cs ds : List (Callback Bool)} (h : cs <+: ds) :
    distinct cs <+: distinct ds := by
  obtain ⟨rest, rfl⟩ := h
  obtain ⟨seen', hgo, -⟩ := exists_go_append [] cs rest
  exact ⟨_, hgo.symm⟩

/-- One callback more is kept unless its key is known. -/
theorem distinct_append_singleton (cs : List (Callback Bool)) (c : Callback Bool) :
    distinct (cs ++ [c]) = distinct cs ++ if c.key ∈ cs.map key then [] else [c] := by
  obtain ⟨seen', hgo, hseen⟩ := exists_go_append [] cs [c]
  refine hgo.trans (congrArg (distinct cs ++ ·) ?_)
  have hiff : c.key ∈ seen' ↔ c.key ∈ cs.map key := by simp [hseen]
  by_cases hc : c.key ∈ cs.map key
  · rw [distinct.go, if_pos (hiff.mpr hc), if_pos hc, distinct.go]
  · rw [distinct.go, if_neg fun h => hc (hiff.mp h), if_neg hc, distinct.go]

/-- No key is lost when each is kept once. -/
theorem mem_map_key_distinct {cs : List (Callback Bool)} {k : String} :
    k ∈ (distinct cs).map key ↔ k ∈ cs.map key := by
  induction cs using List.reverseRecOn with
  | nil => rfl
  | append_singleton cs c ih =>
    rw [distinct_append_singleton, List.map_append, List.map_append, List.mem_append,
      List.mem_append, ih, List.map_singleton, List.mem_singleton]
    by_cases hc : c.key ∈ cs.map key
    · rw [if_pos hc, List.map_nil]
      constructor
      · exact fun hk => .inl (hk.resolve_right List.not_mem_nil)
      · rintro (hk | rfl)
        · exact .inl hk
        · exact .inl hc
    · rw [if_neg hc, List.map_singleton, List.mem_singleton]

end Callback

namespace Assembly

/-- The names that operations on fields ask for. -/
def fieldNames (cs : List (Callback Bool)) : List String :=
  (cs.filter (!·.operation.isExternal)).map (·.name)

theorem fieldNames_append (cs ds : List (Callback Bool)) :
    fieldNames (cs ++ ds) = fieldNames cs ++ fieldNames ds := by
  rw [fieldNames, List.filter_append, List.map_append]
  rfl

/-- Callbacks further back get the names that are left. -/
theorem nameCallbacks_append (names : Names) (cs ds : List (Callback Bool)) :
    nameCallbacks names (cs ++ ds) =
      nameCallbacks names cs ++ nameCallbacks (names.after (fieldNames cs)) ds := by
  induction cs generalizing names with
  | nil => rfl
  | cons c cs ih =>
    rw [List.cons_append, nameCallbacks, nameCallbacks]
    by_cases hc : c.operation.isExternal = true
    · have hnames : fieldNames (c :: cs) = fieldNames cs := by
        rw [fieldNames, List.filter_cons_of_neg (by simp [hc]), fieldNames]
      rw [if_pos hc, if_pos hc, ih, hnames, List.cons_append]
    · have hnames : fieldNames (c :: cs) = c.name :: fieldNames cs := by
        rw [fieldNames, List.filter_cons_of_pos (by simp [hc]), fieldNames, List.map_cons]
      rw [if_neg hc, if_neg hc, hnames]
      dsimp only
      rw [ih, List.cons_append]
      rfl

theorem prefix_nameCallbacks (names : Names) {cs ds : List (Callback Bool)} (h : cs <+: ds) :
    nameCallbacks names cs <+: nameCallbacks names ds := by
  obtain ⟨rest, rfl⟩ := h
  exact ⟨_, (nameCallbacks_append names cs rest).symm⟩

/-- The position of a callback that is listed does not change when others follow. -/
theorem callbackIndex_of_known {cs ds : List (Callback Bool)} (h : cs <+: ds)
    {c : Callback (Option Bool)} (hc : c.resolve.key ∈ cs.map Callback.key) :
    callbackIndex ds c = callbackIndex cs c := by
  obtain ⟨rest, rfl⟩ := h
  obtain ⟨d, hd, hkey⟩ := List.mem_map.mp hc
  rw [callbackIndex, List.findIdx_append, if_pos]
  · rfl
  · exact List.findIdx_lt_length_of_exists ⟨d, hd, by simpa using hkey⟩

/-! ## The lists of an assembly -/

/-- **The assembly as far as some sites**, which are those that have become states so far. -/
def upTo (a : Assembly) (made : List Site) : Assembly := { a with sites := made }

section UpTo
variable {a : Assembly} {made : List Site}

/-- The name that the state of a site asks for. -/
def nameOf (a : Assembly) (s : Site) : String := ((a.node? s).map (·.name)).getD ""

theorem nodes_append (a : Assembly) (made news : List Site) :
    (a.upTo (made ++ news)).nodes = (a.upTo made).nodes ++ (a.upTo news).nodes := by
  simp only [nodes, upTo, List.filter_append, List.filterMap_append]
  rfl

theorem nodes_entry {n : Nat} {node : Blueprint.Node} (hn : a.node? (Site.entry n) = some node) :
    (a.upTo [Site.entry n]).nodes = [node] := by
  show [Site.entry n].filterMap a.node? = [node]
  rw [List.filterMap_cons_some hn, List.filterMap_nil]

theorem nodes_of_path {s : Site} (hs : s.path ≠ []) : (a.upTo [s]).nodes = [] := by
  rw [nodes]
  show ([s].filter fun s => s.path = []).filterMap _ = []
  rw [List.filter_cons_of_neg (by simpa using hs)]
  rfl

theorem prefix_nodes (h : made <+: a.sites) : (a.upTo made).nodes <+: a.nodes := by
  obtain ⟨rest, hrest⟩ := h
  have hsites : a = a.upTo (made ++ rest) := by rw [hrest]; rfl
  rw [hsites, nodes_append]
  exact List.prefix_append _ _

theorem declared_append (a : Assembly) (made news : List Site) :
    (a.upTo (made ++ news)).declared =
      (a.upTo made).declared ++ (a.upTo news).nodes.filterMap a.blueprint.callbackOf? := by
  simp only [declared, nodes_append, List.filterMap_append, List.append_assoc]
  rfl

theorem prefix_callbacks (h : made <+: a.sites) : (a.upTo made).callbacks <+: a.callbacks := by
  refine prefix_nameCallbacks _ (Callback.prefix_distinct (List.IsPrefix.map _ ?_))
  exact (List.prefix_append_right_inj _).mpr ((prefix_nodes h).filterMap _)

/-- The transform that a node needs. -/
def usedTransform? (node : Blueprint.Node) : Option Transform :=
  match node.kind with
  | .matching word => Blueprint.transformOf? word
  | _ => none

theorem transforms_eq (a : Assembly) :
    a.transforms = (a.nodes.filterMap usedTransform?).eraseDups := rfl

theorem prefix_transforms (h : made <+: a.sites) : (a.upTo made).transforms <+: a.transforms := by
  obtain ⟨rest, hrest⟩ := (prefix_nodes h).filterMap usedTransform?
  rw [transforms_eq, transforms_eq, ← hrest, List.eraseDups_append]
  exact List.prefix_append _ _

theorem labels_eq (a : Assembly) (made : List Site) :
    (a.upTo made).labels = Names.freshAll { stem := a.stem ++ "__n_" } (made.map a.nameOf) := rfl

theorem prefix_labels (h : made <+: a.sites) : (a.upTo made).labels <+: a.labels := by
  obtain ⟨rest, hrest⟩ := h
  rw [labels_eq]
  show _ <+: Names.freshAll { stem := a.stem ++ "__n_" } (a.sites.map a.nameOf)
  rw [← hrest, List.map_append, Names.freshAll_append]
  exact List.prefix_append _ _

/-! ## Positions and the memo -/

/-- The position of a site is known as soon as it is made. -/
theorem idxOf_eq_position (h : made <+: a.sites) {s : Site} (hs : s ∈ made) :
    made.idxOf s = a.position s := by
  obtain ⟨rest, hrest⟩ := h
  rw [position, ← hrest, List.idxOf_append_of_mem hs]

/-- The next site to be made takes the next position. -/
theorem position_eq_length {s : Site} (h : made ++ [s] <+: a.sites) (hs : s ∉ made) :
    a.position s = made.length := by
  rw [← idxOf_eq_position h (by simp), List.idxOf_append_of_notMem hs]
  simp

theorem sites_getElem? {s : Site} (h : made ++ [s] <+: a.sites) :
    a.sites[made.length]? = some s := by
  obtain ⟨rest, hrest⟩ := h
  rw [← hrest, List.append_assoc]
  simp

theorem memo?_upTo (a : Assembly) (made : List Site) (n : Nat) :
    (a.upTo made).memo? n =
      if Site.entry n ∈ made then some (made.idxOf (Site.entry n)) else none := rfl

/-- A site that is not the entry of its node changes nothing about where nodes are entered. -/
theorem memo?_append_of_path (made : List Site) {s : Site} (hs : s.path ≠ []) (n : Nat) :
    (a.upTo (made ++ [s])).memo? n = (a.upTo made).memo? n := by
  have hne : Site.entry n ≠ s := by
    rintro rfl
    exact hs rfl
  rw [memo?_upTo, memo?_upTo]
  by_cases hmem : Site.entry n ∈ made
  · rw [if_pos (List.mem_append_left _ hmem), if_pos hmem, List.idxOf_append_of_mem hmem]
  · rw [if_neg (by simp [hmem, hne]), if_neg hmem]

/-- The first state of a node is where the node is entered. -/
theorem memo?_append_entry {n : Nat} (hn : Site.entry n ∉ made) (m : Nat) :
    (a.upTo (made ++ [Site.entry n])).memo? m =
      if m = n then some made.length else (a.upTo made).memo? m := by
  rw [memo?_upTo, memo?_upTo]
  by_cases hmn : m = n
  · subst hmn
    rw [if_pos (by simp), if_pos rfl, List.idxOf_append_of_notMem hn]
    simp
  · have hne : Site.entry m ≠ Site.entry n := fun heq => hmn (congrArg Site.node heq)
    by_cases hmem : Site.entry m ∈ made
    · rw [if_pos (List.mem_append_left _ hmem), if_neg hmn, if_pos hmem,
        List.idxOf_append_of_mem hmem]
    · rw [if_neg (by simp [hmem, hne]), if_neg hmn, if_neg hmem]

end UpTo
end Assembly

/-! ## Sites to come -/

/-- Out of a node leads to entries of nodes. -/
theorem Outline.path_of_mem_outside {o : Outline} {s s' : Site} (h : s' ∈ o.outside s) :
    s'.path = [] := by
  unfold outside at h
  split at h
  · split at h
    · rcases List.mem_append.mp h with h | h
      · obtain ⟨e, -, rfl⟩ := List.mem_map.mp h
        rfl
      · obtain ⟨r, -, rfl⟩ := List.mem_map.mp h
        rfl
    · cases h
  · cases h

theorem Site.path_of_mem_entries {α : Type} {xs : List α} {f : α → Nat} :
    ∀ s ∈ xs.map fun x => Site.entry (f x), s.path = [] := by
  intro s hs
  obtain ⟨x, -, rfl⟩ := List.mem_map.mp hs
  rfl

namespace Assembly

/-- The sites that a stack of sites brings when some are made already. -/
def ahead (a : Assembly) (made stack : List Site) : List Site := a.outline.digraph.walk stack made

/-- The sites are those of the part of the blueprint that is reachable from the root. -/
structure Rooted (a : Assembly) (root : Nat) : Prop where
  outline : a.outline = Outline.ofBlueprint a.blueprint
  sites : a.sites = a.outline.sites root

section Ahead
variable {a : Assembly} {made : List Site} {s : Site} {root n : Nat}

theorem ahead_nil (a : Assembly) (made : List Site) : a.ahead made [] = [] :=
  a.outline.digraph.walk_nil made

theorem ahead_of_mem (h : s ∈ made) : a.ahead made [s] = [] := by
  rw [ahead, Digraph.walk_cons_of_mem _ h, Digraph.walk_nil]

theorem ahead_of_not_mem (h : s ∉ made) :
    a.ahead made [s] = s :: a.ahead (made ++ [s]) (a.outline.next s) := by
  rw [ahead, Digraph.walk_cons_of_not_mem _ h, List.append_nil]
  refine congrArg (s :: ·) (Digraph.walk_congr_seen fun v => ?_)
  rw [List.mem_cons, List.mem_append, List.mem_singleton, or_comm]

/-- What comes first on a stack is made before the rest. -/
theorem ahead_append (a : Assembly) (made xs ys : List Site) :
    a.ahead made (xs ++ ys) = a.ahead made xs ++ a.ahead (made ++ a.ahead made xs) ys := by
  rw [ahead, Digraph.walk_append]
  refine congrArg (a.ahead made xs ++ ·) (Digraph.walk_congr_seen fun v => ?_)
  rw [List.mem_append, List.mem_append, or_comm]
  rfl

theorem not_mem_of_mem_ahead {stack : List Site} (h : s ∈ a.ahead made stack) : s ∉ made :=
  Digraph.not_mem_seen_of_mem_walk h

/-- **No site comes before the entry of its node.** -/
theorem entry_mem_of_walk (ho : a.outline = Outline.ofBlueprint a.blueprint)
    {stack seen : List Site} (hstack : ∀ s ∈ stack, s.path = [])
    (hmade : made <+: a.outline.digraph.walk stack seen) (hs : s ∈ made) :
    Site.entry s.node ∈ made := by
  -- towards the entry, along the sites through which the walk came
  induction hlength : s.path.length using Nat.strongRecOn generalizing s with
  | ind len ih =>
    obtain ⟨n, path⟩ := s
    by_cases hpath : path = []
    · subst hpath
      exact hs
    · obtain ⟨before, after, rfl⟩ := List.append_of_mem hs
      obtain ⟨rest, hrest⟩ := hmade
      rw [List.append_assoc, List.cons_append] at hrest
      rcases Digraph.parent_of_walk_eq hrest.symm with hmem | ⟨u, hu, hnext⟩
      · exact absurd (hstack _ hmem) hpath
      · have hnext : (⟨n, path⟩ : Site) ∈ (Outline.ofBlueprint a.blueprint).next u := ho ▸ hnext
        obtain ⟨node, -, ⟨hnode, hshort, -⟩ | ⟨m, -, heq⟩⟩ := Outline.next_cases hnext
        · have hentry := ih u.path.length (hlength ▸ hshort) (List.mem_append_left _ hu) rfl
          rwa [← hnode] at hentry
        · exact absurd (congrArg Site.path heq) hpath

namespace Rooted

variable (h : a.Rooted root)
include h

theorem nodup : a.sites.Nodup := by
  rw [h.sites]
  exact Digraph.nodup_preorder _

/-- Each site stands where its position says. -/
theorem position_of_getElem? (hmade : made <+: a.sites) {k : Nat} (hs : made[k]? = some s) :
    a.position s = k := by
  obtain ⟨hlt, hget⟩ := List.getElem?_eq_some_iff.mp hs
  rw [← idxOf_eq_position hmade (List.mem_of_getElem? hs), ← hget]
  exact (hmade.sublist.nodup h.nodup).idxOf_getElem k hlt

theorem entry_mem (hmade : made <+: a.sites) (hs : s ∈ made) : Site.entry s.node ∈ made := by
  rw [h.sites] at hmade
  have hstack : ∀ s ∈ [Site.entry root], s.path = [] := by simp [Site.entry]
  exact entry_mem_of_walk h.outline hstack hmade hs

/-- A node that was entered gets no sites from elsewhere. -/
theorem node_ne {stack : List Site} (hstack : ∀ s ∈ stack, s.path = [])
    (hn : Site.entry n ∈ made) (hs : s ∈ a.ahead made stack) : s.node ≠ n := by
  rintro rfl
  have hentry := entry_mem_of_walk h.outline hstack (List.prefix_refl _) hs
  exact not_mem_of_mem_ahead hentry hn

variable {node : Blueprint.Node} {top u : Trie} {p : List UInt8}

theorem node?_eq (hn : a.blueprint.nodes[s.node]? = some node) : a.node? s = some node := by
  rw [node?, h.outline, Outline.ofBlueprint_getElem?, hn]
  rfl

theorem nameOf_eq (hn : a.blueprint.nodes[s.node]? = some node) : a.nameOf s = node.name := by
  rw [nameOf, h.node?_eq hn]
  rfl

/-- A node is entered at its trie. -/
theorem part?_entry (hn : a.blueprint.nodes[n]? = some node) (ht : node.trie = .ok (some top)) :
    a.outline.part? (Site.entry n) = some (node, some top) := by
  rw [h.outline]
  exact Outline.part?_of_mem_inner hn ht (Blueprint.Node.root_mem_inner ht)

/-- **A trie brings no sites of its node but its own parts.** -/
theorem part_of_mem_ahead (hn : a.blueprint.nodes[n]? = some node)
    (ht : node.trie = .ok (some top)) (hparts : ∀ q v, (q, v) ∈ u.inner p → (q, v) ∈ top.inner [])
    (hentry : Site.entry n ∈ made) (hs : s ∈ a.ahead made [Site.ofTrie n p u])
    (hnode : s.node = n) : ∃ v, (s.path, v) ∈ u.inner p := by
  have hnoentry : Site.entry n ∉ a.ahead made [Site.ofTrie n p u] := fun hmem =>
    not_mem_of_mem_ahead hmem hentry
  -- back along the sites through which the walk came, which are of the node as well
  induction hlength : s.path.length using Nat.strongRecOn generalizing s with
  | ind len ih =>
    obtain ⟨before, after, hsplit⟩ := List.append_of_mem hs
    rcases Digraph.parent_of_walk_eq hsplit with hmem | ⟨w, hw, hnext⟩
    · obtain rfl : s = Site.ofTrie n p u := List.mem_singleton.mp hmem
      rcases Outline.ofTrie_cases n p u with ⟨l, rfl, hsite⟩ | ⟨hsite, hself⟩
      · rw [hsite] at hs hnode hnoentry
        obtain rfl : l.target = n := hnode
        exact absurd hs hnoentry
      · rw [hsite]
        exact ⟨u, hself⟩
    · have hwmem : w ∈ a.ahead made [Site.ofTrie n p u] := by
        rw [hsplit]
        exact List.mem_append_left _ hw
      have hnext : s ∈ (Outline.ofBlueprint a.blueprint).next w := h.outline ▸ hnext
      obtain ⟨-, -, ⟨hsame, hshort, -⟩ | ⟨m, -, rfl⟩⟩ := Outline.next_cases hnext
      · have hwnode : w.node = n := hsame.symm.trans hnode
        obtain ⟨v, hv⟩ := ih w.path.length (hlength ▸ hshort) hwmem hwnode rfl
        have hpart : (Outline.ofBlueprint a.blueprint).part? w = some (node, some v) := by
          obtain ⟨m, q⟩ := w
          obtain rfl : m = n := hwnode
          exact Outline.part?_of_mem_inner hn ht (hparts q v hv)
        have hproper : v.Proper :=
          (Blueprint.Node.built_trie ht).proper.of_mem_inner (hparts _ _ hv)
        have hpath : s.path ≠ [] := by
          intro hnil
          rw [hnil] at hshort
          exact absurd hshort (Nat.not_lt_zero _)
        rcases List.mem_append.mp hnext with hin | hout
        · rw [Outline.inside, hpart] at hin
          rcases Outline.below_cases hproper hin with ⟨-, -, v', hv'⟩ | ⟨e, -, rfl⟩
          · exact ⟨v', Trie.mem_inner_trans hv hv'⟩
          · exact absurd rfl hpath
        · exact absurd (Outline.path_of_mem_outside hout) hpath
      · obtain rfl : m = n := hnode
        exact absurd hs hnoentry

end Rooted
end Ahead

/-! ## The states that should come out -/

/-- The state that a position should hold in the end. -/
def finished (a : Assembly) (k : Nat) : Option Machine.State := a.machine.states[k]?

/-- The otherwise edge that a part of a trie has of its own. -/
def stopEdge (a : Assembly) : Option Trie → Option Machine.Fallback
  | some (.branch _ (some stop)) => some ⟨a.entry stop.target, true, stop.value⟩
  | _ => none

/-- The state that a position should hold as long as the states of node `n` have not been led on
to where the node continues. -/
def draft (a : Assembly) (n k : Nat) : Option Machine.State :=
  match a.sites[k]? with
  | some s =>
    if s.node = n then
      (a.finished k).map fun st =>
        { st with otherwise := (a.outline.part? s).bind fun found => a.stopEdge found.2 }
    else a.finished k
  | none => none

section Goals
variable {a : Assembly} {made : List Site} {s : Site} {label : Label} {node : Blueprint.Node}
  {part : Option Trie} {n : Nat}

/-- The state of the next site. -/
theorem finished_eq (h : made ++ [s] <+: a.sites)
    (hlabels : (a.upTo (made ++ [s])).labels = (a.upTo made).labels ++ [label])
    (hpart : a.outline.part? s = some (node, part)) :
    a.finished made.length =
      some ⟨label, a.kind a.callbacks a.transforms s node part, a.otherwise node part⟩ := by
  have hlabel : a.labels[made.length]? = some label := by
    obtain ⟨rest, hrest⟩ := prefix_labels h
    have hlength : (a.upTo made).labels.length = made.length := (a.upTo made).length_labels
    rw [← hrest, hlabels, List.append_assoc, ← hlength]
    simp
  rw [finished, machine_states_getElem?, sites_getElem? h, hlabel, Option.bind_some,
    Option.map_some, state, hpart]

/-- The state of the next site before its node is led on. -/
theorem draft_eq (h : made ++ [s] <+: a.sites)
    (hlabels : (a.upTo (made ++ [s])).labels = (a.upTo made).labels ++ [label])
    (hpart : a.outline.part? s = some (node, part)) :
    a.draft s.node made.length =
      some ⟨label, a.kind a.callbacks a.transforms s node part, a.stopEdge part⟩ := by
  rw [draft, sites_getElem? h]
  dsimp only
  rw [if_pos rfl, finished_eq h hlabels hpart, hpart]
  rfl

theorem draft_of_ne {k : Nat} (hk : a.sites[k]? = some s) (hs : s.node ≠ n) :
    a.draft n k = a.finished k := by
  rw [draft, hk]
  exact if_neg hs

/-- A state continues at its own stop, or else where its node does. -/
theorem otherwise_eq (a : Assembly) (node : Blueprint.Node) (part : Option Trie) :
    a.otherwise node part = (a.stopEdge part).or
      (node.otherwise.map fun e => ⟨a.entry e.target, e.stay, none⟩) := by
  unfold otherwise stopEdge
  split <;> simp_all

end Goals
end Assembly
end ByteMachine
