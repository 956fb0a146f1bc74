import ByteMachine.Compile.Site
import ByteMachine.Proofs.Calls
import ByteMachine.Proofs.TrieErrors
import ByteMachine.Proofs.Walk

/-! # The sites of a blueprint

A matching node is spread over the parts of its trie, and every other node stays whole.
The paths of the parts differ (`nodup_paths`), so that a site names one part of one node,
and from the entry of a node all of its parts are reached, and through them every node to
which one of its keys leads.  The sites reachable from the entry of the root are therefore
exactly the parts of the nodes reachable from the root (`mem_sites_iff`), as long as each
of these nodes exists and has its trie. -/
namespace ByteMachine

/-! ## The parts of a trie -/

namespace Trie

theorem mem_inner_branch {path p : List UInt8} {u : Trie} {stop : Option Leaf}
    {children : List (UInt8 × Bool × Trie)} :
    (p, u) ∈ inner path (.branch children stop) ↔
      (p = path ∧ u = .branch children stop) ∨
        ∃ child ∈ children, (p, u) ∈ inner (path ++ [child.1]) child.2.2 := by
  rw [inner, innerOf_eq_flatMap, List.mem_cons, List.mem_flatMap, Prod.mk.injEq]

theorem mem_inner_run {path bytes p : List UInt8} {u next : Trie} :
    (p, u) ∈ inner path (.run bytes next) ↔
      (p = path ∧ u = .run bytes next) ∨ (p, u) ∈ inner (path ++ bytes) next := by
  rw [inner, List.mem_cons, Prod.mk.injEq]

/-- Parts stand below the trie. -/
theorem prefix_of_mem_inner {t u : Trie} {path p : List UInt8} (h : (p, u) ∈ inner path t) :
    path <+: p := by
  induction t using induct generalizing path with
  | leaf l => simp [inner] at h
  | branch children stop ih =>
    rcases mem_inner_branch.mp h with ⟨rfl, -⟩ | ⟨child, hchild, h⟩
    · exact List.prefix_refl _
    · exact (List.prefix_append _ _).trans (ih child hchild h)
  | run bytes next ih =>
    rcases mem_inner_run.mp h with ⟨rfl, -⟩ | h
    · exact List.prefix_refl _
    · exact (List.prefix_append _ _).trans (ih h)

/-- A part of a part is a part. -/
theorem mem_inner_trans {t u v : Trie} {path p q : List UInt8} (hu : (p, u) ∈ inner path t)
    (hv : (q, v) ∈ inner p u) : (q, v) ∈ inner path t := by
  induction t using induct generalizing path with
  | leaf l => simp [inner] at hu
  | branch children stop ih =>
    rcases mem_inner_branch.mp hu with ⟨rfl, rfl⟩ | ⟨child, hchild, hu⟩
    · exact hv
    · exact mem_inner_branch.mpr (.inr ⟨child, hchild, ih child hchild hu⟩)
  | run bytes next ih =>
    rcases mem_inner_run.mp hu with ⟨rfl, rfl⟩ | hu
    · exact hv
    · exact mem_inner_run.mpr (.inr (ih hu))

theorem Proper.of_mem_inner {t u : Trie} (h : Proper t) {path p : List UInt8}
    (hu : (p, u) ∈ inner path t) : Proper u := by
  induction h generalizing path with
  | leaf => simp [inner] at hu
  | @branch children stop hne hbytes hchildren ih =>
    rcases mem_inner_branch.mp hu with ⟨-, rfl⟩ | ⟨child, hchild, hu⟩
    · exact .branch hne hbytes hchildren
    · exact ih child hchild hu
  | run hbytes hnext ih =>
    rcases mem_inner_run.mp hu with ⟨-, rfl⟩ | hu
    · exact .run hbytes hnext
    · exact ih hu

/-- Whether the byte before a trie is left does not change where its keys lead. -/
theorem exists_read_of_mem_read {t : Trie} {s : Bool} {e : Entry} (he : e ∈ t.read s)
    (stay : Bool) : ∃ e' ∈ t.read stay, e'.leaf = e.leaf := by
  cases t with
  | leaf l =>
    rw [read, List.mem_singleton] at he
    exact ⟨⟨[], stay, l.target, l.value⟩, by simp [read], by rw [he]; rfl⟩
  | branch children stop =>
    rw [read] at he
    rcases List.mem_append.mp he with he | he
    · obtain ⟨l, hl, rfl⟩ := List.mem_map.mp he
      refine ⟨⟨[], stay, l.target, l.value⟩, ?_, rfl⟩
      rw [read]
      exact List.mem_append_left _ (List.mem_map.mpr ⟨l, hl, rfl⟩)
    · refine ⟨e, ?_, rfl⟩
      rw [read]
      exact List.mem_append_right _ he
  | run bytes next =>
    rw [read] at he
    exact ⟨e, by rw [read]; exact he, rfl⟩

/-- What a part says about a key, the whole trie says about a longer one. -/
theorem exists_read_of_mem_inner {t u : Trie} {path p : List UInt8} (h : (p, u) ∈ inner path t)
    {s : Bool} {e : Entry} (he : e ∈ u.read s) (stay : Bool) :
    ∃ e' ∈ t.read stay, e'.leaf = e.leaf := by
  induction t using induct generalizing path stay with
  | leaf l => simp [inner] at h
  | branch children stop ih =>
    rcases mem_inner_branch.mp h with ⟨-, rfl⟩ | ⟨child, hchild, h⟩
    · exact exists_read_of_mem_read he stay
    · obtain ⟨e', he', hleaf⟩ := ih child hchild h child.2.1
      refine ⟨e'.under [child.1], ?_, hleaf⟩
      rw [read]
      exact List.mem_append_right _ (mem_readAll.mpr ⟨child, hchild, e', he', rfl⟩)
  | run bytes next ih =>
    rcases mem_inner_run.mp h with ⟨-, rfl⟩ | h
    · exact exists_read_of_mem_read he stay
    · obtain ⟨e', he', hleaf⟩ := ih h false
      refine ⟨e'.under bytes, ?_, hleaf⟩
      rw [read]
      exact List.mem_map_of_mem he'

/-- **The paths of the parts of a trie differ.** -/
theorem Proper.nodup_paths {t : Trie} (h : Proper t) (path : List UInt8) :
    ((inner path t).map (·.1)).Nodup := by
  -- Parts below a byte stand behind it, so those below different bytes differ.
  have hlong : ∀ {t : Trie} {path bytes : List UInt8}, bytes ≠ [] →
      path ∉ (inner (path ++ bytes) t).map (·.1) := by
    intro t path bytes hbytes hmem
    obtain ⟨⟨p, u⟩, hu, hp⟩ := List.mem_map.mp hmem
    obtain rfl : p = path := hp
    have := (prefix_of_mem_inner hu).length_le
    have hpos := List.length_pos_iff.mpr hbytes
    rw [List.length_append] at this
    omega
  induction h generalizing path with
  | leaf => simp [inner]
  | @branch children stop hne hbytes hchildren ih =>
    rw [inner, innerOf_eq_flatMap, List.map_cons, List.map_flatMap]
    refine List.nodup_cons.mpr ⟨?_, List.nodup_flatMap.mpr ⟨?_, ?_⟩⟩
    · intro hmem
      obtain ⟨child, -, hmem⟩ := List.mem_flatMap.mp hmem
      exact hlong (List.cons_ne_nil _ _) hmem
    · intro child hchild
      exact ih child hchild _
    · refine (List.pairwise_map.mp hbytes).imp ?_
      intro a c hlt p hpa hpc
      obtain ⟨⟨p, u⟩, hu, rfl⟩ := List.mem_map.mp hpa
      obtain ⟨⟨p', u'⟩, hu', hp⟩ := List.mem_map.mp hpc
      obtain rfl : p' = p := hp
      obtain ⟨more, hmore⟩ := prefix_of_mem_inner hu
      obtain ⟨more', hmore'⟩ := prefix_of_mem_inner hu'
      rw [← hmore', List.append_assoc, List.append_assoc] at hmore
      have hbyte := List.append_cancel_left hmore
      rw [List.singleton_append, List.singleton_append, List.cons.injEq] at hbyte
      exact UInt8.ne_of_lt hlt hbyte.1
  | @run bytes next hbytes hnext ih =>
    rw [inner, List.map_cons]
    refine List.nodup_cons.mpr ⟨hlong ?_, ih _⟩
    rintro rfl
    cases hbytes

end Trie

/-! ## The trie of a node -/

namespace Blueprint

section Node
variable {node : Node} {t : Trie}

/-- Only a matching node has a trie, made of its keys. -/
theorem Node.trie_eq_some (h : node.trie = .ok (some t)) :
    (∃ transform, node.kind = .matching transform) ∧
      Trie.ofEntries node.entries = .ok (some t) := by
  unfold Node.trie at h
  split at h
  · rename_i transform hkind
    exact ⟨⟨transform, hkind⟩, h⟩
  · cases h

theorem Node.built_trie (h : node.trie = .ok (some t)) :
    Trie.Built [] (Trie.arrange node.entries) t :=
  Trie.built_of_ofEntries (Node.trie_eq_some h).2

/-- The trie of a node says what its keys say. -/
theorem Node.mem_read_trie (h : node.trie = .ok (some t)) {e : Trie.Entry} :
    e ∈ t.read false ↔ e ∈ node.entries := by
  rw [(Node.built_trie h).read_root, Trie.mem_arrange]

/-- The trie of a node is no leaf, since no key is empty. -/
theorem Node.trie_ne_leaf (h : node.trie = .ok (some t)) (l : Leaf) : t ≠ .leaf l :=
  (Node.built_trie h).ne_leaf l

/-- The node is entered at the trie itself. -/
theorem Node.root_mem_inner (h : node.trie = .ok (some t)) : ([], t) ∈ t.inner [] := by
  cases t with
  | leaf l => exact absurd rfl (Node.trie_ne_leaf h l)
  | branch children stop => exact Trie.mem_inner_branch.mpr (.inl ⟨rfl, rfl⟩)
  | run bytes next => exact Trie.mem_inner_run.mpr (.inl ⟨rfl, rfl⟩)

/-- The bytes of a key. -/
def bytesOf? : Key → Option (List UInt8)
  | .bytes bs => some bs
  | .code _ => none

/-- The entries of edges are their byte keys, with where they lead. -/
theorem mem_filterMap_entryOf? {edges : List Edge} {a : Trie.Entry} :
    a ∈ edges.filterMap entryOf? ↔ ∃ e ∈ edges, e.key = .bytes a.key ∧ e.stay = a.stay ∧
      e.target = a.target ∧ e.value = a.value := by
  rw [List.mem_filterMap]
  constructor
  · rintro ⟨e, he, h⟩
    unfold entryOf? at h
    split at h
    · rename_i bs hkey
      obtain rfl := Option.some.inj h
      exact ⟨e, he, hkey, rfl, rfl, rfl⟩
    · cases h
  · rintro ⟨e, he, hkey, hstay, htarget, hvalue⟩
    refine ⟨e, he, ?_⟩
    rw [entryOf?, hkey, hstay, htarget, hvalue]

theorem map_key_entryOf? (edges : List Edge) :
    (edges.filterMap entryOf?).map (·.key) = (edges.map (·.key)).filterMap bytesOf? := by
  rw [List.map_filterMap, List.filterMap_map]
  refine List.filterMap_congr fun e _ => ?_
  simp only [entryOf?, Function.comp_apply]
  cases e.key <;> rfl

/-- Edges with different keys have entries with different keys. -/
theorem nodup_map_key_entryOf? {edges : List Edge} (h : (edges.map (·.key)).Nodup) :
    ((edges.filterMap entryOf?).map (·.key)).Nodup := by
  rw [map_key_entryOf?]
  refine List.Nodup.filterMap ?_ h
  intro k k' bs hk hk'
  cases k <;> cases k' <;> simp_all [bytesOf?]

/-- A byte is left by one edge, while the key of another begins with it and goes on. -/
def Contested (edges : List Edge) (byte : UInt8) : Prop :=
  (∃ peek ∈ edges, peek.stay = true ∧ peek.key = .bytes [byte]) ∧
    ∃ long ∈ edges, ∃ second bytes, long.key = .bytes (byte :: second :: bytes)

/-- The conflicts of entries, read off their edges. -/
theorem conflictAt_filterMap_entryOf? {edges : List Edge} {byte : UInt8} :
    Trie.ConflictAt (edges.filterMap entryOf?) byte ↔ Contested edges byte := by
  unfold Trie.ConflictAt Contested
  refine and_congr ⟨?_, ?_⟩ ⟨?_, ?_⟩
  · rintro ⟨e, he, hstay, hkey⟩
    obtain ⟨edge, hedge, hbytes, hedgestay, -⟩ := mem_filterMap_entryOf?.mp he
    exact ⟨edge, hedge, hedgestay.trans hstay, hkey ▸ hbytes⟩
  · rintro ⟨edge, hedge, hstay, hkey⟩
    exact ⟨⟨[byte], edge.stay, edge.target, edge.value⟩,
      mem_filterMap_entryOf?.mpr ⟨edge, hedge, hkey, rfl, rfl, rfl⟩, hstay, rfl⟩
  · rintro ⟨e, he, hlength, hfirst⟩
    obtain ⟨edge, hedge, hbytes, -⟩ := mem_filterMap_entryOf?.mp he
    obtain ⟨rest, hrest⟩ := hfirst
    cases rest with
    | nil =>
      rw [← hrest] at hlength
      simp at hlength
    | cons second bytes => exact ⟨edge, hedge, second, bytes, by rw [hbytes, ← hrest]; rfl⟩
  · rintro ⟨edge, hedge, second, bytes, hkey⟩
    exact ⟨⟨byte :: second :: bytes, edge.stay, edge.target, edge.value⟩,
      mem_filterMap_entryOf?.mpr ⟨edge, hedge, hkey, rfl, rfl, rfl⟩, by simp, by simp⟩

/-- The entries of a node that follows the rules are lawful. -/
theorem Node.Sound.lawful (hs : node.Sound) {transform : Option String}
    (hkind : node.kind = .matching transform) : Trie.Lawful node.entries := by
  have hbytes : ∀ a ∈ node.entries, a.key ≠ [] ∧ (a.stay = true → a.key.length = 1) := by
    intro a ha
    obtain ⟨e, he, hkey, hstay, -⟩ := mem_filterMap_entryOf?.mp ha
    have hadmits := hs.admitted e he
    rw [hkind] at hadmits
    obtain ⟨bs, hbs, hne, hpeek⟩ := hadmits
    obtain rfl : bs = a.key := Key.bytes.inj (hbs.symm.trans hkey)
    exact ⟨hne, fun h => (hpeek (hstay.trans h)).1⟩
  exact ⟨nodup_map_key_entryOf? hs.distinct, fun a ha => (hbytes a ha).1,
    fun a ha => (hbytes a ha).2⟩

/-- A matching node has a key for each edge. -/
theorem Node.Sound.entries_ne_nil (hs : node.Sound) {word : Option String}
    (hkind : node.kind = .matching word) (hedges : node.edges ≠ []) : node.entries ≠ [] := by
  obtain ⟨e, he⟩ := List.exists_mem_of_ne_nil _ hedges
  have hadmits := hs.admitted e he
  rw [hkind] at hadmits
  obtain ⟨bs, hkey, -⟩ := hadmits
  have hmem : ⟨bs, e.stay, e.target, e.value⟩ ∈ node.entries :=
    List.mem_filterMap.mpr ⟨e, he, by rw [entryOf?, hkey]⟩
  exact List.ne_nil_of_mem hmem

theorem Node.trie_of_plain (hplain : ∀ word, node.kind ≠ .matching word) :
    node.trie = .ok none := by
  unfold Node.trie
  split
  · rename_i word hkind
    exact absurd hkind (hplain word)
  · rfl

end Node

end Blueprint

/-! ## What stands at a site -/

namespace Outline

variable {b : Blueprint} {node : Blueprint.Node} {n : Nat}

theorem ofBlueprint_getElem? (b : Blueprint) (n : Nat) :
    (ofBlueprint b)[n]? = b.nodes[n]?.map fun node => ⟨node, node.trie⟩ := by
  rw [ofBlueprint, Array.getElem?_map]

/-- A part is found under its path. -/
theorem lookup_of_mem {parts : List (List UInt8 × Trie)} (hnodup : (parts.map (·.1)).Nodup)
    {p : List UInt8} {u : Trie} (hu : (p, u) ∈ parts) :
    (parts.map fun (path, t) => (path, some t)).lookup p = some (some u) := by
  induction parts with
  | nil => cases hu
  | cons part parts ih =>
    obtain ⟨q, v⟩ := part
    rw [List.map_cons, List.nodup_cons] at hnodup
    rcases List.mem_cons.mp hu with heq | htail
    · obtain ⟨rfl, rfl⟩ := Prod.mk.inj heq
      simp
    · have hne : (p == q) = false := by
        rw [beq_eq_false_iff_ne]
        rintro rfl
        exact hnodup.1 (List.mem_map.mpr ⟨_, htail, rfl⟩)
      rw [List.map_cons, List.lookup_cons, hne]
      exact ih hnodup.2 htail

theorem part?_of_mem_inner (hn : b.nodes[n]? = some node) {t u : Trie}
    (ht : node.trie = .ok (some t)) {p : List UInt8} (hu : (p, u) ∈ t.inner []) :
    (ofBlueprint b).part? ⟨n, p⟩ = some (node, some u) := by
  have hfound : (Plan.parts ⟨node, node.trie⟩).lookup p = some (some u) := by
    rw [Plan.parts, ht]
    exact lookup_of_mem ((Blueprint.Node.built_trie ht).proper.nodup_paths []) hu
  rw [part?, ofBlueprint_getElem?, hn, Option.map_some, Option.bind_some, hfound]
  rfl

theorem part?_of_no_trie (hn : b.nodes[n]? = some node) (ht : ∀ t, node.trie ≠ .ok (some t)) :
    (ofBlueprint b).part? (Site.entry n) = some (node, none) := by
  have hparts : Plan.parts ⟨node, node.trie⟩ = [([], none)] := by
    unfold Plan.parts
    split
    · rename_i t htrie
      exact absurd htrie (ht t)
    · rfl
  rw [part?, Site.entry, ofBlueprint_getElem?, hn, Option.map_some, Option.bind_some, hparts]
  rfl

/-- **What stands at a site**: a part of the trie of its node, or the node itself. -/
theorem part?_cases {s : Site} {part : Option Trie}
    (h : (ofBlueprint b).part? s = some (node, part)) :
    b.nodes[s.node]? = some node ∧
      ((∃ t u, node.trie = .ok (some t) ∧ part = some u ∧ (s.path, u) ∈ t.inner []) ∨
        ((∀ t, node.trie ≠ .ok (some t)) ∧ s.path = [] ∧ part = none)) := by
  rw [part?, ofBlueprint_getElem?] at h
  cases hn : b.nodes[s.node]? with
  | none => simp [hn] at h
  | some node' =>
    rw [hn, Option.map_some, Option.bind_some] at h
    obtain ⟨part', hlookup, heq⟩ := Option.map_eq_some_iff.mp h
    obtain ⟨rfl, rfl⟩ := Prod.mk.inj heq
    refine ⟨rfl, ?_⟩
    obtain ⟨before, after, hparts, -⟩ := List.lookup_eq_some_iff.mp hlookup
    have hmem : (s.path, part') ∈ Plan.parts ⟨node', node'.trie⟩ := by simp [hparts]
    unfold Plan.parts at hmem
    split at hmem
    · rename_i t htrie
      obtain ⟨⟨p, u⟩, hu, heq⟩ := List.mem_map.mp hmem
      obtain ⟨rfl, rfl⟩ := Prod.mk.inj heq
      exact .inl ⟨t, u, htrie, rfl, hu⟩
    · rename_i htrie
      obtain ⟨hpath, rfl⟩ := Prod.mk.inj (List.mem_singleton.mp hmem)
      exact .inr ⟨fun t ht => htrie t ht, hpath, rfl⟩

/-- Every node is entered somewhere. -/
theorem exists_part?_entry (hn : b.nodes[n]? = some node) :
    ∃ part, (ofBlueprint b).part? (Site.entry n) = some (node, part) := by
  by_cases ht : ∃ t, node.trie = .ok (some t)
  · obtain ⟨t, ht⟩ := ht
    exact ⟨_, part?_of_mem_inner hn ht (Blueprint.Node.root_mem_inner ht)⟩
  · exact ⟨_, part?_of_no_trie hn fun t htrie => ht ⟨t, htrie⟩⟩

/-! ## From site to site -/

/-- A trie below a site leads to another node when it is a leaf, and else is a site. -/
theorem ofTrie_cases (n : Nat) (path : List UInt8) (t : Trie) :
    (∃ l, t = .leaf l ∧ Site.ofTrie n path t = Site.entry l.target) ∨
      (Site.ofTrie n path t = ⟨n, path⟩ ∧ (path, t) ∈ t.inner path) := by
  cases t with
  | leaf l => exact .inl ⟨l, rfl, rfl⟩
  | branch children stop => exact .inr ⟨rfl, Trie.mem_inner_branch.mpr (.inl ⟨rfl, rfl⟩)⟩
  | run bytes next => exact .inr ⟨rfl, Trie.mem_inner_run.mpr (.inl ⟨rfl, rfl⟩)⟩

theorem ofTrie_root {t : Trie} (ht : node.trie = .ok (some t)) (n : Nat) :
    Site.ofTrie n [] t = Site.entry n := by
  rcases ofTrie_cases n [] t with ⟨l, rfl, -⟩ | ⟨hsite, -⟩
  · exact absurd rfl (Blueprint.Node.trie_ne_leaf ht l)
  · exact hsite

/-- Below a site there are sites of the same node, with more bytes matched, and the nodes
to which keys lead. -/
theorem below_cases {s s' : Site} {u : Trie} (hu : u.Proper) (h : s' ∈ s.below u) :
    (s'.node = s.node ∧ s.path.length < s'.path.length ∧ ∃ v, (s'.path, v) ∈ u.inner s.path) ∨
      ∃ e ∈ u.read false, s' = Site.entry e.target := by
  cases hu with
  | leaf => simp [Site.below] at h
  | @branch children stop hne hbytes hchildren =>
    rcases List.mem_append.mp h with h | h
    · obtain ⟨⟨byte, stay, child⟩, hchild, rfl⟩ := List.mem_map.mp h
      rcases ofTrie_cases s.node (s.path ++ [byte]) child with ⟨l, rfl, hsite⟩ | ⟨hsite, hmem⟩
      · refine .inr ⟨⟨[byte], stay, l.target, l.value⟩, ?_, hsite⟩
        rw [Trie.read]
        refine List.mem_append_right _ (Trie.mem_readAll.mpr ⟨_, hchild, ?_⟩)
        exact ⟨⟨[], stay, l.target, l.value⟩, by simp [Trie.read], rfl⟩
      · dsimp only at hsite ⊢
        rw [hsite]
        refine .inl ⟨rfl, by simp, child, ?_⟩
        exact Trie.mem_inner_branch.mpr (.inr ⟨_, hchild, hmem⟩)
    · obtain ⟨l, hl, rfl⟩ := List.mem_map.mp h
      refine .inr ⟨⟨[], false, l.target, l.value⟩, ?_, rfl⟩
      rw [Trie.read]
      exact List.mem_append_left _ (List.mem_map.mpr ⟨l, hl, rfl⟩)
  | @run bytes next hbytes hnext =>
    rw [Site.below, List.mem_singleton] at h
    rcases ofTrie_cases s.node (s.path ++ bytes) next with ⟨l, rfl, hsite⟩ | ⟨hsite, hmem⟩
    · refine .inr ⟨⟨bytes, false, l.target, l.value⟩, ?_, h.trans hsite⟩
      rw [Trie.read, Trie.read, List.map_singleton, List.mem_singleton]
      simp [Trie.Entry.under]
    · rw [h, hsite]
      refine .inl ⟨rfl, ?_, next, Trie.mem_inner_run.mpr (.inr hmem)⟩
      simp only [List.length_append]
      omega

theorem target_mem_successors {e : Trie.Entry} (he : e ∈ node.entries) :
    e.target ∈ node.successors := by
  obtain ⟨edge, hedge, hentry⟩ := List.mem_filterMap.mp he
  refine List.mem_append_left _ (List.mem_map.mpr ⟨edge, hedge, ?_⟩)
  unfold Blueprint.entryOf? at hentry
  split at hentry
  · rw [← Option.some.inj hentry]
  · cases hentry

theorem return_mem_successors {r : Int × Nat} (hr : r ∈ node.returns) :
    r.2 ∈ node.successors := by
  unfold Blueprint.Node.returns at hr
  split at hr
  · obtain ⟨edge, hedge, hreturn⟩ := List.mem_filterMap.mp hr
    refine List.mem_append_left _ (List.mem_map.mpr ⟨edge, hedge, ?_⟩)
    split at hreturn
    · rw [← Option.some.inj hreturn]
    · cases hreturn
  · cases hr

/-- **One step between sites**: on within the same node, or to a node where this one can
continue. -/
theorem next_cases {s s' : Site} (h : s' ∈ (ofBlueprint b).next s) :
    ∃ node, b.nodes[s.node]? = some node ∧
      ((s'.node = s.node ∧ s.path.length < s'.path.length ∧
          ((ofBlueprint b).part? s').isSome) ∨
        ∃ n ∈ node.successors, s' = Site.entry n) := by
  cases hpart : (ofBlueprint b).part? s with
  | none => simp [next, inside, outside, hpart] at h
  | some found =>
    obtain ⟨node, part⟩ := found
    obtain ⟨hn, hcases⟩ := part?_cases hpart
    refine ⟨node, hn, ?_⟩
    rcases List.mem_append.mp h with h | h
    · -- down the trie: to another part of it, or to where a key leads
      rcases hcases with ⟨t, u, ht, rfl, hu⟩ | ⟨-, -, rfl⟩
      · rw [inside, hpart] at h
        have hproper := (Blueprint.Node.built_trie ht).proper
        rcases below_cases (hproper.of_mem_inner hu) h with ⟨hnode, hlong, v, hv⟩ | ⟨e, he, rfl⟩
        · have hfound := part?_of_mem_inner hn ht (Trie.mem_inner_trans hu hv)
          obtain ⟨n', p'⟩ := s'
          obtain rfl : n' = s.node := hnode
          exact .inl ⟨rfl, hlong, by rw [hfound]; rfl⟩
        · obtain ⟨e', he', hleaf⟩ := Trie.exists_read_of_mem_inner hu he false
          have htarget := target_mem_successors ((Blueprint.Node.mem_read_trie ht).mp he')
          refine .inr ⟨e.target, ?_, rfl⟩
          rwa [show e'.target = e.target from congrArg Leaf.target hleaf] at htarget
      · rw [inside, hpart] at h
        cases h
    · -- out of the node: otherwise, or on a returned code
      rw [outside, hpart] at h
      dsimp only at h
      split at h
      · rcases List.mem_append.mp h with h | h
        · obtain ⟨edge, hedge, rfl⟩ := List.mem_map.mp h
          refine .inr ⟨edge.target, ?_, rfl⟩
          exact List.mem_append_right _ (List.mem_map_of_mem hedge)
        · obtain ⟨r, hr, rfl⟩ := List.mem_map.mp h
          exact .inr ⟨r.2, return_mem_successors hr, rfl⟩
      · cases h

/-! ## Reachability -/

variable {root : Nat}

/-- Sites are reached only at nodes that are reached. -/
theorem reaches_node {s : Site} (h : (ofBlueprint b).digraph.Reaches (Site.entry root) s) :
    b.digraph.Reaches root s.node := by
  refine h.closed (P := fun s => b.digraph.Reaches root s.node) (.refl _) ?_
  intro s s' _ hs hnext
  obtain ⟨node, hn, ⟨hsame, -⟩ | ⟨n, hmem, rfl⟩⟩ := next_cases hnext
  · exact hsame ▸ hs
  · refine hs.step ?_
    show n ∈ b.next s.node
    rw [Blueprint.next, hn]
    exact hmem

/-- A site that is reached is a part of its node, unless the node does not exist. -/
theorem isSome_part?_of_reaches {s : Site}
    (h : (ofBlueprint b).digraph.Reaches (Site.entry root) s) (hn : b.nodes[s.node]? = some node) :
    ((ofBlueprint b).part? s).isSome := by
  have hcases : s.path = [] ∨ ((ofBlueprint b).part? s).isSome := by
    refine h.closed (P := fun s => s.path = [] ∨ ((ofBlueprint b).part? s).isSome) (.inl rfl) ?_
    intro s s' _ _ hnext
    obtain ⟨node, hn, ⟨-, -, hsome⟩ | ⟨n, hmem, rfl⟩⟩ := next_cases hnext
    · exact .inr hsome
    · exact .inl rfl
  rcases hcases with hpath | hsome
  · obtain ⟨n, path⟩ := s
    obtain rfl : path = [] := hpath
    obtain ⟨part, hpart⟩ := exists_part?_entry hn
    exact Option.isSome_iff_exists.mpr ⟨_, hpart⟩
  · exact hsome

section Complete
variable {start : Site} {t : Trie}

/-- Where a trie below a site is reached, so are all of its parts and all nodes to which
its keys lead. -/
theorem reaches_below (hn : b.nodes[n]? = some node) (ht : node.trie = .ok (some t)) (u : Trie)
    {p : List UInt8} (hparts : ∀ q v, (q, v) ∈ u.inner p → (q, v) ∈ t.inner [])
    (h : (ofBlueprint b).digraph.Reaches start (Site.ofTrie n p u)) :
    (∀ q v, (q, v) ∈ u.inner p → (ofBlueprint b).digraph.Reaches start ⟨n, q⟩) ∧
      ∀ stay, ∀ e ∈ u.read stay,
        (ofBlueprint b).digraph.Reaches start (Site.entry e.target) := by
  have hinside : ∀ {q : List UInt8} {v : Trie} {s : Site}, (q, v) ∈ t.inner [] →
      s ∈ Site.below ⟨n, q⟩ v → s ∈ (ofBlueprint b).next ⟨n, q⟩ := by
    intro q v s hv hs
    refine List.mem_append_left _ ?_
    rw [inside, part?_of_mem_inner hn ht hv]
    exact hs
  induction u using Trie.induct generalizing p with
  | leaf l =>
    refine ⟨by simp [Trie.inner], ?_⟩
    intro stay e he
    rw [Trie.read, List.mem_singleton] at he
    exact he ▸ h
  | branch children stop ih =>
    have hself : (p, Trie.branch children stop) ∈ t.inner [] :=
      hparts _ _ (Trie.mem_inner_branch.mpr (.inl ⟨rfl, rfl⟩))
    have hchild : ∀ child ∈ children,
        (∀ q v, (q, v) ∈ child.2.2.inner (p ++ [child.1]) →
          (ofBlueprint b).digraph.Reaches start ⟨n, q⟩) ∧
        ∀ stay, ∀ e ∈ child.2.2.read stay,
          (ofBlueprint b).digraph.Reaches start (Site.entry e.target) := by
      -- the site of a child is one step below, and its parts are parts of the whole trie
      intro child hchild
      refine ih child hchild ?_ (h.step (hinside hself ?_))
      · intro q v hv
        exact hparts q v (Trie.mem_inner_branch.mpr (.inr ⟨child, hchild, hv⟩))
      · exact List.mem_append_left _ (List.mem_map.mpr ⟨child, hchild, rfl⟩)
    refine ⟨?_, ?_⟩
    · intro q v hv
      rcases Trie.mem_inner_branch.mp hv with ⟨rfl, -⟩ | ⟨child, hmem, hv⟩
      · exact h
      · exact (hchild child hmem).1 q v hv
    · intro stay e he
      rw [Trie.read] at he
      rcases List.mem_append.mp he with he | he
      · obtain ⟨l, hl, rfl⟩ := List.mem_map.mp he
        refine h.step (hinside hself ?_)
        exact List.mem_append_right _ (List.mem_map.mpr ⟨l, hl, rfl⟩)
      · obtain ⟨child, hmem, e', he', rfl⟩ := Trie.mem_readAll.mp he
        exact (hchild child hmem).2 _ e' he'
  | run bytes next ih =>
    have hself : (p, Trie.run bytes next) ∈ t.inner [] :=
      hparts _ _ (Trie.mem_inner_run.mpr (.inl ⟨rfl, rfl⟩))
    obtain ⟨hinner, hread⟩ := ih (p := p ++ bytes)
      (fun q v hv => hparts q v (Trie.mem_inner_run.mpr (.inr hv)))
      (h.step (hinside hself (List.mem_singleton_self _)))
    refine ⟨?_, ?_⟩
    · intro q v hv
      rcases Trie.mem_inner_run.mp hv with ⟨rfl, -⟩ | hv
      · exact h
      · exact hinner q v hv
    · intro stay e he
      rw [Trie.read] at he
      obtain ⟨e', he', rfl⟩ := List.mem_map.mp he
      exact hread false e' he'

/-- From its entry all parts of a node are reached, and the nodes its keys lead to. -/
theorem reaches_of_trie (hn : b.nodes[n]? = some node) (ht : node.trie = .ok (some t))
    (h : (ofBlueprint b).digraph.Reaches start (Site.entry n)) :
    (∀ q v, (q, v) ∈ t.inner [] → (ofBlueprint b).digraph.Reaches start ⟨n, q⟩) ∧
      ∀ e ∈ node.entries, (ofBlueprint b).digraph.Reaches start (Site.entry e.target) := by
  obtain ⟨hinner, hread⟩ := reaches_below hn ht t (fun _ _ => id) (ofTrie_root ht n ▸ h)
  exact ⟨hinner, fun e he => hread false e ((Blueprint.Node.mem_read_trie ht).mpr he)⟩

/-- **From the entry of a node the entries of all its successors are reached.** -/
theorem reaches_successor (hn : b.nodes[n]? = some node) (hs : node.Sound)
    {t : Option Trie} (ht : node.trie = .ok t)
    (h : (ofBlueprint b).digraph.Reaches start (Site.entry n)) {n' : Nat}
    (hmem : n' ∈ node.successors) :
    (ofBlueprint b).digraph.Reaches start (Site.entry n') := by
  obtain ⟨part, hpart⟩ := exists_part?_entry hn
  have houtside : ∀ s ∈ (node.otherwise.toList.map fun e => Site.entry e.target) ++
      node.returns.map (fun r => Site.entry r.2),
      s ∈ (ofBlueprint b).next (Site.entry n) := by
    intro s hs
    refine List.mem_append_right _ ?_
    rw [outside, hpart]
    exact hs
  rcases List.mem_append.mp hmem with hmem | hmem
  · obtain ⟨edge, hedge, rfl⟩ := List.mem_map.mp hmem
    have hadmits := hs.admitted edge hedge
    cases hkind : node.kind with
    | invoke c =>
      rw [hkind] at hadmits
      obtain ⟨code, hkey, -⟩ := hadmits
      refine h.step (houtside _ (List.mem_append_right _ (List.mem_map.mpr ?_)))
      refine ⟨(code, edge.target), ?_, rfl⟩
      rw [Blueprint.Node.returns, hkind]
      exact List.mem_filterMap.mpr ⟨edge, hedge, by rw [hkey]⟩
    | matching transform =>
      rw [hkind] at hadmits
      obtain ⟨bs, hkey, -⟩ := hadmits
      have hentry : ⟨bs, edge.stay, edge.target, edge.value⟩ ∈ node.entries :=
        List.mem_filterMap.mpr ⟨edge, hedge, by rw [Blueprint.entryOf?, hkey]⟩
      cases t with
      | none =>
        rw [Blueprint.Node.trie, hkind] at ht
        rw [Trie.eq_nil_of_ofEntries ht] at hentry
        cases hentry
      | some t => exact (reaches_of_trie hn ht h).2 _ hentry
    | _ =>
      rw [hkind] at hadmits
      exact hadmits.elim
  · obtain ⟨o, ho, rfl⟩ := List.mem_map.mp hmem
    exact h.step (houtside _ (List.mem_append_left _ (List.mem_map.mpr ⟨o, ho, rfl⟩)))

/-- Each node that is reached exists and has its trie, if it should have one. -/
def Whole (b : Blueprint) (root : Nat) : Prop :=
  ∀ s ∈ (ofBlueprint b).sites root, ∃ node t, b.nodes[s.node]? = some node ∧ node.trie = .ok t

theorem mem_sites {s : Site} :
    s ∈ (ofBlueprint b).sites root ↔ (ofBlueprint b).digraph.Reaches (Site.entry root) s :=
  Digraph.mem_preorder_iff

theorem reaches_entry_of_reaches (hb : b.Sound) (hwhole : Whole b root)
    (h : b.digraph.Reaches root n) :
    (ofBlueprint b).digraph.Reaches (Site.entry root) (Site.entry n) := by
  refine h.closed (P := fun n => (ofBlueprint b).digraph.Reaches _ (Site.entry n)) (.refl _) ?_
  intro n n' _ hentry hnext
  obtain ⟨node, t, hn, ht⟩ := hwhole _ (mem_sites.mpr hentry)
  refine reaches_successor hn (hb.node hn) ht hentry ?_
  replace hnext : n' ∈ b.next n := hnext
  rw [Blueprint.next, show b.nodes[n]? = some node from hn] at hnext
  exact hnext

/-- **The sites of a machine** are all parts of the nodes that are reachable. -/
theorem mem_sites_iff (hb : b.Sound) (hwhole : Whole b root) {s : Site} :
    s ∈ (ofBlueprint b).sites root ↔
      b.digraph.Reaches root s.node ∧ ((ofBlueprint b).part? s).isSome := by
  constructor
  · intro hs
    obtain ⟨node, t, hn, ht⟩ := hwhole s hs
    exact ⟨reaches_node (mem_sites.mp hs), isSome_part?_of_reaches (mem_sites.mp hs) hn⟩
  · rintro ⟨hreach, hsome⟩
    have hentry := reaches_entry_of_reaches hb hwhole hreach
    obtain ⟨⟨node, part⟩, hpart⟩ := Option.isSome_iff_exists.mp hsome
    obtain ⟨hn, ⟨t, u, ht, rfl, hu⟩ | ⟨-, hpath, -⟩⟩ := part?_cases hpart
    · exact mem_sites.mpr ((reaches_of_trie hn ht hentry).1 s.path u hu)
    · obtain ⟨n, path⟩ := s
      obtain rfl : path = [] := hpath
      exact mem_sites.mpr hentry

end Complete

end Outline

end ByteMachine
