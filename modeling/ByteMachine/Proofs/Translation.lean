import ByteMachine.Proofs.Assembled
import ByteMachine.Proofs.Tables
import Mathlib

/-! # A machine mirrors its blueprint

Every node that can be reached is entered at a state of its own, and the states of the
machine are shared out among these nodes.  A node that matches nothing becomes one state
with the same payload and the same edges (`Payload`).  A matching node becomes one state for
each branch and run of its trie, connected like the trie, with leaves replaced by the
states at which their nodes are entered (`Depicts`).  `Faithful` puts this together, and
`faithful_machine` says that it holds of every machine that is assembled. -/
namespace ByteMachine

/-! ## Mirrors -/

namespace Mirror

/-- An otherwise edge of a state that leads where that of the node leads. -/
def Continues (map : Nat → Option Nat) (node : Blueprint.Node) (f : Option Machine.Fallback) :
    Prop :=
  match node.otherwise with
  | some o => ∃ i, map o.target = some i ∧ f = some ⟨i, o.stay, none⟩
  | none => f = none

/-- An otherwise edge of a part of a trie: to the stop if there is one, with the byte left
and the value passed on, and else where the node continues. -/
def Falls (map : Nat → Option Nat) (node : Blueprint.Node) (stop : Option Leaf)
    (f : Option Machine.Fallback) : Prop :=
  match stop with
  | some l => ∃ i, map l.target = some i ∧ f = some ⟨i, true, l.value⟩
  | none => Continues map node f

/-- The edges by which a state branches on a byte, as they stand or in a table. -/
inductive Branches : Machine.Kind → Nat → List Machine.ByteEdge → Prop
  | branch {transform : Nat} {edges : List Machine.ByteEdge} :
      Branches (.branch transform edges) transform edges
  | table {transform : Nat} {rows : List Machine.TableEdge} {edges : List Machine.ByteEdge}
      (hedges : Machine.Tabulates rows edges) : Branches (.table transform rows) transform edges

section
variable (m : Machine) (map : Nat → Option Nat) (node : Blueprint.Node) (transform : Nat)

mutual

/-- A state depicts a trie, and the states listed are those of its branches and runs. -/
inductive Depicts : Trie → Nat → List Nat → Prop
  | leaf {l : Leaf} {i : Nat} (htarget : map l.target = some i) : Depicts (.leaf l) i []
  | branch {children : List (UInt8 × Bool × Trie)} {stop : Option Leaf} {i : Nat}
      {state : Machine.State} {edges : List Machine.ByteEdge} {used : List Nat}
      (hstate : m.states[i]? = some state) (hkind : Branches state.kind transform edges)
      (hchildren : DepictsAll children edges used) (hfalls : Falls map node stop state.otherwise) :
      Depicts (.branch children stop) i (i :: used)
  | run {bytes : List UInt8} {next : Trie} {i target : Nat} {state : Machine.State}
      {used : List Nat} (hstate : m.states[i]? = some state)
      (hkind : state.kind = .run transform bytes (some ⟨target, next.value⟩))
      (hnext : Depicts next target used) (hfalls : Falls map node none state.otherwise) :
      Depicts (.run bytes next) i (i :: used)

/-- Edges depict the children of a branch, in order. -/
inductive DepictsAll : List (UInt8 × Bool × Trie) → List Machine.ByteEdge → List Nat → Prop
  | nil : DepictsAll [] [] []
  | cons {byte : UInt8} {stay : Bool} {child : Trie} {rest : List (UInt8 × Bool × Trie)}
      {target : Nat} {edges : List Machine.ByteEdge} {used used' : List Nat}
      (hchild : Depicts child target used) (hrest : DepictsAll rest edges used') :
      DepictsAll ((byte, stay, child) :: rest) (⟨byte, stay, target, child.value⟩ :: edges)
        (used ++ used')

end

variable {m map node transform}

theorem depictsAll_of_forall {children : List (UInt8 × Bool × Trie)}
    {target : UInt8 × Bool × Trie → Nat} {used : UInt8 × Bool × Trie → List Nat}
    (h : ∀ child ∈ children,
      Depicts m map node transform child.2.2 (target child) (used child)) :
    DepictsAll m map node transform children
      (children.map fun child => ⟨child.1, child.2.1, target child, child.2.2.value⟩)
      (children.flatMap used) := by
  induction children with
  | nil => exact .nil
  | cons child rest ih =>
    obtain ⟨byte, stay, child⟩ := child
    exact .cons (h _ List.mem_cons_self)
      (ih fun child hmem => h child (List.mem_cons_of_mem _ hmem))

end

/-- The payload of a node that matches nothing, as that of a state. -/
inductive Payload (b : Blueprint) (groups : List (List Nat)) (m : Machine)
    (map : Nat → Option Nat) (node : Blueprint.Node) : Machine.Kind → Prop
  | error {code : Int} {reason : String} (hkind : node.kind = .error code reason) :
      Payload b groups m map node (.error code reason)
  | pause {code : Int} {reason : String} (hkind : node.kind = .pause code reason) :
      Payload b groups m map node (.pause code reason)
  | consume {field : String} (hkind : node.kind = .consume field) :
      Payload b groups m map node (.consume field)
  | spanStart {span place callback : Nat} {c : Callback (Option Bool)} {d : Callback Bool}
      (hkind : node.kind = .spanStart span) (hplace : Allocation.placeOf? groups span = some place)
      (hc : b.spanCallback? span = some c) (hd : m.callbacks[callback]? = some d)
      (hsame : d.Same c.resolve) : Payload b groups m map node (.spanStart place callback)
  | spanEnd {span place callback : Nat} {c : Callback (Option Bool)} {d : Callback Bool}
      (hkind : node.kind = .spanEnd span) (hplace : Allocation.placeOf? groups span = some place)
      (hc : b.spanCallback? span = some c) (hd : m.callbacks[callback]? = some d)
      (hsame : d.Same c.resolve) : Payload b groups m map node (.spanEnd place callback)
  | invoke {f callback : Nat} {c : Callback (Option Bool)} {d : Callback Bool}
      {edges : List Machine.ReturnEdge} (hkind : node.kind = .invoke f)
      (hc : b.callbacks[f]? = some c) (hd : m.callbacks[callback]? = some d)
      (hsame : d.Same c.resolve)
      (hedges : List.Forall₂ (fun e r => e.key = .code r.code ∧ map e.target = some r.target)
        node.edges edges) : Payload b groups m map node (.invoke callback edges)

/-- **The machine mirrors the blueprint.**  `map` gives the state at which a node is entered,
and `expansion` all states that are made for a node, in order. -/
structure Faithful (b : Blueprint) (groups : List (List Nat)) (root : Nat) (m : Machine)
    (map : Nat → Option Nat) (expansion : Nat → List Nat) : Prop where
  /-- Exactly the nodes that can be reached are entered. -/
  domain : ∀ n, (∃ i, map n = some i) ↔ b.digraph.Reaches root n
  /-- No two nodes are entered at the same state. -/
  injective : ∀ {n n' i : Nat}, map n = some i → map n' = some i → n = n'
  node : ∀ {n i : Nat}, map n = some i → ∃ node, b.nodes[n]? = some node
  /-- A node that matches nothing becomes one state. -/
  plain : ∀ {n i : Nat} {node : Blueprint.Node}, map n = some i → b.nodes[n]? = some node →
    (∀ word, node.kind ≠ .matching word) →
    expansion n = [i] ∧ ∃ state, m.states[i]? = some state ∧
      Payload b groups m map node state.kind ∧ Continues map node state.otherwise
  /-- A matching node without keys becomes one empty state. -/
  empty : ∀ {n i : Nat} {node : Blueprint.Node} {word : Option String}, map n = some i →
    b.nodes[n]? = some node → node.kind = .matching word → node.edges = [] →
    expansion n = [i] ∧ ∃ state, m.states[i]? = some state ∧ state.kind = .empty ∧
      Continues map node state.otherwise
  /-- A matching node with keys becomes one state for each branch and run of its trie and is
  entered at the first of them. -/
  trie : ∀ {n i : Nat} {node : Blueprint.Node} {word : Option String}, map n = some i →
    b.nodes[n]? = some node → node.kind = .matching word → node.edges ≠ [] →
    ∃ t transform k used, node.trie = .ok (some t) ∧
      Blueprint.transformOf? word = some transform ∧ m.transforms[k]? = some transform ∧
      Depicts m map node k t i used ∧ used.length = (t.inner []).length ∧ used.Nodup ∧
      (expansion n).Perm used ∧ (expansion n).head? = some i
  /-- No state is made for two nodes. -/
  disjoint : ∀ {n n' : Nat}, n ≠ n' → List.Disjoint (expansion n) (expansion n')
  /-- Each state is made for a node that can be reached. -/
  covers : ∀ i, i < m.states.size ↔ ∃ n, b.digraph.Reaches root n ∧ i ∈ expansion n

end Mirror

/-! ## Which states are made for a node -/

namespace Assembly

/-- The state at which a node is entered, if it is. -/
def memo? (a : Assembly) (n : Nat) : Option Nat :=
  if Site.entry n ∈ a.sites then some (a.entry n) else none

/-- The states made for a node, in order. -/
def expansion (a : Assembly) (n : Nat) : List Nat :=
  (List.range a.sites.length).filter fun i => a.sites[i]?.map (·.node) = some n

/-- The edges of a branch before they are put into a table. -/
def branchEdges (a : Assembly) (s : Site) (children : List (UInt8 × Bool × Trie)) :
    List Machine.ByteEdge :=
  children.map fun (byte, stay, child) =>
    ⟨byte, stay, a.position (Site.ofTrie s.node (s.path ++ [byte]) child), child.value⟩

variable {a : Assembly}

theorem memo?_of_mem {n : Nat} (h : Site.entry n ∈ a.sites) : a.memo? n = some (a.entry n) :=
  if_pos h

theorem memo?_eq_some {n i : Nat} :
    a.memo? n = some i ↔ Site.entry n ∈ a.sites ∧ a.entry n = i := by
  unfold memo?
  split
  · rename_i h
    simp [h]
  · rename_i h
    simp [h]

theorem mem_expansion {n i : Nat} :
    i ∈ a.expansion n ↔ ∃ s, a.sites[i]? = some s ∧ s.node = n := by
  rw [expansion, List.mem_filter, List.mem_range, decide_eq_true_eq, Option.map_eq_some_iff]
  constructor
  · rintro ⟨-, h⟩
    exact h
  · rintro ⟨s, hs, hnode⟩
    exact ⟨(List.getElem?_eq_some_iff.mp hs).1, s, hs, hnode⟩

theorem ascending_expansion (n : Nat) : (a.expansion n).Pairwise (· < ·) :=
  List.pairwise_lt_range.sublist List.filter_sublist

/-- The states made for a node are those of its sites. -/
theorem mem_expansion_iff (hnodup : a.sites.Nodup) {n i : Nat} :
    i ∈ a.expansion n ↔ ∃ s ∈ a.sites, s.node = n ∧ a.position s = i := by
  rw [mem_expansion]
  constructor
  · rintro ⟨s, hs, hnode⟩
    obtain ⟨hlt, hget⟩ := List.getElem?_eq_some_iff.mp hs
    refine ⟨s, List.mem_of_getElem? hs, hnode, ?_⟩
    rw [position, ← hget]
    exact hnodup.idxOf_getElem i hlt
  · rintro ⟨s, hs, hnode, rfl⟩
    have hlt : a.position s < a.sites.length := List.idxOf_lt_length_of_mem hs
    refine ⟨s, ?_, hnode⟩
    rw [List.getElem?_eq_getElem hlt]
    exact congrArg some (List.getElem_idxOf hlt)

/-- The table of a branch says what its edges say. -/
theorem tabulates_rows {o : Options} {children : List (UInt8 × Bool × Trie)}
    {rows : List Table.Row} (hrows : Table.ofChildren o children = .ok rows)
    (hbytes : (children.map (·.1)).Pairwise (· < ·)) (s : Site) :
    Machine.Tabulates (rows.map fun row => ⟨row.keys, row.stay, a.entry row.target⟩)
      (a.branchEdges s children) := by
  obtain ⟨ts, rfl, hperm, horder⟩ := Table.exists_of_ofChildren a.entry hrows
  have hedges : a.branchEdges s (ts.map Table.Exit.child) =
      ts.map fun exit => ⟨exit.1, exit.2.1, a.entry exit.2.2, none⟩ := by
    rw [branchEdges, List.map_map]
    rfl
  have hlisting : Machine.tableEdges (rows.map fun row =>
        ⟨row.keys, row.stay, a.entry row.target⟩) =
      (Table.exits rows).map fun exit => ⟨exit.1, exit.2.1, a.entry exit.2.2, none⟩ := by
    simp only [Machine.tableEdges, Table.exits, Table.Row.exits, List.flatMap_map,
      List.map_flatMap, List.map_map]
    rfl
  rw [hedges]
  refine Machine.tabulates_of_perm ?_ ?_ ?_
  · rw [hlisting]
    exact hperm.map _
  · rw [List.map_map] at hbytes
    exact List.pairwise_map.mpr (List.pairwise_map.mp hbytes)
  · rw [List.map_map, List.map_map]
    exact horder

/-- A branch becomes a state that branches along the same edges. -/
theorem branches_trieKind (s : Site) (transform : Nat) {children : List (UInt8 × Bool × Trie)}
    (hbytes : (children.map (·.1)).Pairwise (· < ·)) (stop : Option Leaf) :
    Mirror.Branches (a.trieKind s transform (.branch children stop)) transform
      (a.branchEdges s children) := by
  rw [trieKind]
  split
  · rename_i rows hrows
    exact .table (tabulates_rows hrows hbytes s)
  · exact .branch

end Assembly

/-! ## The states of a node mirror it -/

namespace Assembly.Regular

section
variable {a : Assembly} {b : Blueprint} {groups : List (List Nat)} {root : Nat}
variable (h : a.Regular b groups root)
include h

theorem continues {s : Site} {node : Blueprint.Node} (hs : s ∈ a.sites)
    (hn : b.nodes[s.node]? = some node) :
    Mirror.Continues a.memo? node
      (node.otherwise.map fun e => ⟨a.entry e.target, e.stay, none⟩) := by
  unfold Mirror.Continues
  cases ho : node.otherwise with
  | none => rfl
  | some o =>
    have htarget : o.target ∈ node.successors := List.mem_append_right _ (by simp [ho])
    exact ⟨_, memo?_of_mem (h.entry_mem_of_successor hs hn htarget), rfl⟩

section Trie
variable {n : Nat} {node : Blueprint.Node} {t u : Trie} {p : List UInt8}
variable (hreach : b.digraph.Reaches root n) (hn : b.nodes[n]? = some node)
  (ht : node.trie = .ok (some t))
include hreach hn ht

/-- The parts of the trie of a node are sites. -/
theorem mem_sites_of_inner (hu : (p, u) ∈ t.inner []) : ⟨n, p⟩ ∈ a.sites := by
  refine h.mem_sites_iff.mpr ⟨hreach, ?_⟩
  rw [Outline.part?_of_mem_inner hn ht hu]
  rfl

/-- Where a key of a part of the trie leads is entered. -/
theorem entry_mem_of_read (hu : (p, u) ∈ t.inner []) {stay : Bool} {e : Trie.Entry}
    (he : e ∈ u.read stay) : Site.entry e.target ∈ a.sites := by
  obtain ⟨e', he', hleaf⟩ := Trie.exists_read_of_mem_inner hu he false
  have hmem := Outline.target_mem_successors ((Blueprint.Node.mem_read_trie ht).mp he')
  rw [show e'.target = e.target from congrArg Leaf.target hleaf] at hmem
  exact h.entry_mem_of_successor (h.mem_sites_of_inner hreach hn ht hu) hn hmem

/-- The otherwise edge of a part leads to its stop or where the node continues. -/
theorem falls (hu : (p, u) ∈ t.inner []) (stop : Option Leaf)
    (hstop : ∀ l ∈ stop, ∃ e ∈ u.read false, e.leaf = l)
    (hotherwise : a.otherwise node (some u) =
      match stop with
      | some l => some ⟨a.entry l.target, true, l.value⟩
      | none => node.otherwise.map fun e => ⟨a.entry e.target, e.stay, none⟩) :
    Mirror.Falls a.memo? node stop (a.otherwise node (some u)) := by
  rw [hotherwise]
  cases stop with
  | none => exact h.continues (h.mem_sites_of_inner hreach hn ht hu) hn
  | some l =>
    obtain ⟨e, he, rfl⟩ := hstop l rfl
    exact ⟨_, memo?_of_mem (h.entry_mem_of_read hreach hn ht hu he), rfl⟩

/-- **A trie is depicted** by the states of its branches and runs. -/
theorem depicts {word : Option String} (hkind : node.kind = .matching word) (u : Trie)
    {p : List UInt8} (hparts : ∀ q v, (q, v) ∈ u.inner p → (q, v) ∈ t.inner [])
    (hleaf : ∀ l, u = .leaf l → Site.entry l.target ∈ a.sites) :
    Mirror.Depicts a.machine a.memo? node
      (a.transforms.idxOf ((Blueprint.transformOf? word).getD .identity)) u
      (a.position (Site.ofTrie n p u)) ((u.inner p).map fun part => a.position ⟨n, part.1⟩) := by
  induction u using Trie.induct generalizing p with
  | leaf l => exact .leaf (memo?_of_mem (hleaf l rfl))
  | branch children stop ih =>
    have hself : (p, Trie.branch children stop) ∈ t.inner [] :=
      hparts _ _ (Trie.mem_inner_branch.mpr (.inl ⟨rfl, rfl⟩))
    obtain ⟨label, hstate⟩ := h.exists_state (h.mem_sites_of_inner hreach hn ht hself)
      (Outline.part?_of_mem_inner hn ht hself)
    have hbytes : (children.map (·.1)).Pairwise (· < ·) := by
      cases (Blueprint.Node.built_trie ht).proper.of_mem_inner hself with
      | branch _ hbytes _ => exact hbytes
    have hchild : ∀ child ∈ children, Mirror.Depicts a.machine a.memo? node
        (a.transforms.idxOf ((Blueprint.transformOf? word).getD .identity)) child.2.2
        (a.position (Site.ofTrie n (p ++ [child.1]) child.2.2))
        ((child.2.2.inner (p ++ [child.1])).map fun part => a.position ⟨n, part.1⟩) := by
      intro child hchild
      refine ih child hchild ?_ ?_
      · intro q v hv
        exact hparts q v (Trie.mem_inner_branch.mpr (.inr ⟨child, hchild, hv⟩))
      · intro l hl
        have hmem : ⟨[child.1], child.2.1, l.target, l.value⟩ ∈
            (Trie.branch children stop).read false := by
          rw [Trie.read]
          refine List.mem_append_right _ (Trie.mem_readAll.mpr ⟨child, hchild, ?_⟩)
          exact ⟨⟨[], child.2.1, l.target, l.value⟩, by simp [hl, Trie.read], rfl⟩
        exact h.entry_mem_of_read hreach hn ht hself hmem
    have hall := Mirror.depictsAll_of_forall hchild
    rw [← List.map_flatMap, ← Trie.innerOf_eq_flatMap] at hall
    rw [Trie.inner, List.map_cons]
    refine .branch hstate ?_ hall ?_
    · simp only [kind, hkind]
      exact branches_trieKind _ _ hbytes _
    · refine h.falls hreach hn ht hself stop ?_ (by cases stop <;> rfl)
      intro l hl
      refine ⟨⟨[], false, l.target, l.value⟩, ?_, rfl⟩
      rw [Trie.read]
      exact List.mem_append_left _ (List.mem_map.mpr ⟨l, by simpa using hl, rfl⟩)
  | run bytes next ih =>
    have hself : (p, Trie.run bytes next) ∈ t.inner [] :=
      hparts _ _ (Trie.mem_inner_run.mpr (.inl ⟨rfl, rfl⟩))
    obtain ⟨label, hstate⟩ := h.exists_state (h.mem_sites_of_inner hreach hn ht hself)
      (Outline.part?_of_mem_inner hn ht hself)
    rw [Trie.inner, List.map_cons]
    refine .run hstate ?_ (ih ?_ ?_) ?_
    · simp only [kind, hkind]
      rfl
    · intro q v hv
      exact hparts q v (Trie.mem_inner_run.mpr (.inr hv))
    · intro l hl
      have hmem : ⟨bytes, false, l.target, l.value⟩ ∈ (Trie.run bytes next).read false := by
        rw [Trie.read, hl, Trie.read, List.map_singleton, List.mem_singleton]
        simp [Trie.Entry.under]
      exact h.entry_mem_of_read hreach hn ht hself hmem
    · exact h.falls hreach hn ht hself none (by simp) rfl

end Trie

/-- The edges for returned codes, in order. -/
theorem returns {n f : Nat} {node : Blueprint.Node} (hs : Site.entry n ∈ a.sites)
    (hn : b.nodes[n]? = some node) (hkind : node.kind = .invoke f) :
    List.Forall₂ (fun e r => e.key = .code r.code ∧ a.memo? e.target = some r.target) node.edges
      (node.returns.map fun (code, target) => (⟨code, a.entry target⟩ : Machine.ReturnEdge)) := by
  have hedges : ∀ e ∈ node.edges, ∃ c, e.key = .code c ∧
      a.memo? e.target = some (a.entry e.target) := by
    intro e he
    have hadmits := (h.sound.node hn).admitted e he
    rw [hkind] at hadmits
    obtain ⟨c, hkey, -⟩ := hadmits
    have htarget : e.target ∈ node.successors := List.mem_append_left _ (List.mem_map_of_mem he)
    exact ⟨c, hkey, memo?_of_mem (h.entry_mem_of_successor hs hn htarget)⟩
  simp only [Blueprint.Node.returns, hkind]
  generalize node.edges = edges at hedges
  induction edges with
  | nil => exact .nil
  | cons e edges ih =>
    obtain ⟨c, hkey, hmemo⟩ := hedges e List.mem_cons_self
    rw [List.filterMap_cons_some (b := (c, e.target)) (by rw [hkey]), List.map_cons]
    exact .cons ⟨hkey, hmemo⟩ (ih fun e he => hedges e (List.mem_cons_of_mem _ he))

/-- The payload of a node that matches nothing. -/
theorem payload {n : Nat} {node : Blueprint.Node} (hs : Site.entry n ∈ a.sites)
    (hn : b.nodes[n]? = some node) (hplain : ∀ word, node.kind ≠ .matching word) :
    Mirror.Payload b groups a.machine a.memo? node
      (a.kind a.callbacks a.transforms (Site.entry n) node none) := by
  have hfit := h.fit hs hn
  have hspan : ∀ {span : Nat}, node.span? = some span → b.callbackOf? node = b.spanCallback? span →
      ∃ place c d, Allocation.placeOf? groups span = some place ∧ b.spanCallback? span = some c ∧
        b.callbackOf? node = some c ∧
        a.machine.callbacks[callbackIndex a.callbacks c]? = some d ∧ d.Same c.resolve := by
    intro span hspan hcallback
    obtain ⟨place, hplace⟩ := hfit.place hspan
    obtain ⟨c, hc⟩ := hfit.spanCallback hspan
    obtain ⟨d, hd, hsame, -⟩ := h.exists_callback hs hn (hcallback.trans hc)
    exact ⟨place, c, d, hplace, hc, hcallback.trans hc, hd, hsame⟩
  cases hkind : node.kind with
  | error code reason =>
    simp only [kind, hkind]
    exact .error hkind
  | pause code reason =>
    simp only [kind, hkind]
    exact .pause hkind
  | consume field =>
    simp only [kind, hkind]
    exact .consume hkind
  | spanStart span =>
    obtain ⟨place, c, d, hplace, hc, hcallback, hd, hsame⟩ :=
      hspan (by rw [Blueprint.Node.span?, hkind]) (by rw [Blueprint.callbackOf?, hkind])
    simp only [kind, hkind, h.groups, h.blueprint, hplace, hcallback, Option.getD_some,
      Option.map_some]
    exact .spanStart hkind hplace hc hd hsame
  | spanEnd span =>
    obtain ⟨place, c, d, hplace, hc, hcallback, hd, hsame⟩ :=
      hspan (by rw [Blueprint.Node.span?, hkind]) (by rw [Blueprint.callbackOf?, hkind])
    simp only [kind, hkind, h.groups, h.blueprint, hplace, hcallback, Option.getD_some,
      Option.map_some]
    exact .spanEnd hkind hplace hc hd hsame
  | invoke f =>
    obtain ⟨c, hc⟩ := hfit.callback hkind
    have hcallback : b.callbackOf? node = some c := by rw [Blueprint.callbackOf?, hkind]; exact hc
    obtain ⟨d, hd, hsame, -⟩ := h.exists_callback hs hn hcallback
    simp only [kind, hkind, h.blueprint, hcallback, Option.getD_some, Option.map_some]
    exact .invoke hkind hc hd hsame (h.returns hs hn hkind)
  | matching word => exact absurd hkind (hplain word)

/-- **A node is entered first.**  No other site of the node comes before its entry. -/
theorem entry_le_position {s : Site} (hs : s ∈ a.sites) : a.entry s.node ≤ a.position s := by
  induction hi : a.position s using Nat.strongRecOn generalizing s with
  | ind i ih =>
    by_cases hpath : s.path = []
    · obtain ⟨n, path⟩ := s
      obtain rfl : path = [] := hpath
      exact Nat.le_of_eq hi
    · -- a site inside a node is found from a site of the same node that stands before it
      obtain ⟨before, after, hsplit⟩ := List.append_of_mem hs
      have hwalk : (Outline.ofBlueprint b).digraph.walk [Site.entry root] [] =
          before ++ s :: after := by rw [← hsplit, h.sites]; rfl
      rcases Digraph.parent_of_walk_eq hwalk with hroot | ⟨u, hu, hnext⟩
      · exact absurd (congrArg Site.path (List.mem_singleton.mp hroot)) hpath
      · obtain ⟨node, -, ⟨hnode, -, -⟩ | ⟨n, -, rfl⟩⟩ := Outline.next_cases hnext
        · have husites : u ∈ a.sites := by
            rw [hsplit]
            exact List.mem_append_left _ hu
          have hless : a.position u < i := by
            have hsbefore : s ∉ before := by
              have hnodup := h.nodup
              rw [hsplit, List.nodup_append] at hnodup
              intro hmem
              exact hnodup.2.2 s hmem s List.mem_cons_self rfl
            rw [← hi, position, position, hsplit, List.idxOf_append_of_mem hu,
              List.idxOf_append_of_notMem hsbefore]
            have := List.idxOf_lt_length_of_mem hu
            omega
          have := ih _ hless husites rfl
          rw [hnode]
          omega
        · exact absurd rfl hpath

theorem head_expansion {n : Nat} (hs : Site.entry n ∈ a.sites) :
    (a.expansion n).head? = some (a.entry n) := by
  have hmem : a.entry n ∈ a.expansion n :=
    (mem_expansion_iff h.nodup).mpr ⟨_, hs, rfl, rfl⟩
  have hascending := a.ascending_expansion n
  cases hexp : a.expansion n with
  | nil => simp [hexp] at hmem
  | cons i rest =>
    have hfirst : i ∈ a.expansion n := hexp ▸ List.mem_cons_self
    obtain ⟨s, hsite, rfl, hi⟩ := (mem_expansion_iff h.nodup).mp hfirst
    have hle := h.entry_le_position hsite
    rw [hexp] at hmem hascending
    rcases List.mem_cons.mp hmem with heq | hrest
    · rw [heq]
      rfl
    · have := List.rel_of_pairwise_cons hascending hrest
      omega

/-- A node with one site becomes one state. -/
theorem expansion_eq_singleton {n : Nat} {node : Blueprint.Node} (hs : Site.entry n ∈ a.sites)
    (hn : b.nodes[n]? = some node) (ht : ∀ t, node.trie ≠ .ok (some t)) :
    a.expansion n = [a.entry n] := by
  have honly : ∀ i ∈ a.expansion n, i = a.entry n := by
    intro i hi
    obtain ⟨s, hsite, rfl, rfl⟩ := (mem_expansion_iff h.nodup).mp hi
    obtain ⟨node', part, hpart, hn', -⟩ := h.part hsite
    obtain rfl : node = node' := Option.some.inj (hn.symm.trans hn')
    obtain ⟨-, ⟨t, u, htrie, -⟩ | ⟨-, hpath, -⟩⟩ := Outline.part?_cases hpart
    · exact absurd htrie (ht t)
    · obtain ⟨n, path⟩ := s
      obtain rfl : path = [] := hpath
      rfl
  have hascending := a.ascending_expansion n
  have hhead := h.head_expansion hs
  cases hexp : a.expansion n with
  | nil => simp [hexp] at hhead
  | cons i rest =>
    rw [hexp] at hhead hascending honly
    obtain rfl : i = a.entry n := Option.some.inj hhead
    cases rest with
    | nil => rfl
    | cons j rest =>
      have hj := honly j (by simp)
      have := List.rel_of_pairwise_cons hascending (List.mem_cons_self (a := j))
      omega

/-- The states made for a matching node are those of the parts of its trie. -/
theorem expansion_perm {n : Nat} {node : Blueprint.Node} {t : Trie} (hs : Site.entry n ∈ a.sites)
    (hn : b.nodes[n]? = some node) (ht : node.trie = .ok (some t)) :
    ((t.inner []).map fun part => a.position ⟨n, part.1⟩).Nodup ∧
      (a.expansion n).Perm ((t.inner []).map fun part => a.position ⟨n, part.1⟩) := by
  have hreach := h.reaches hs
  have hnodup : ((t.inner []).map fun part => a.position ⟨n, part.1⟩).Nodup := by
    have hpaths := (Blueprint.Node.built_trie ht).proper.nodup_paths []
    refine List.pairwise_map.mpr ((List.pairwise_map.mp hpaths).imp_of_mem ?_)
    intro x y hx hy hne heq
    have := position_inj (h.mem_sites_of_inner hreach hn ht hx) heq
    exact hne (congrArg Site.path this)
  refine ⟨hnodup, (List.perm_ext_iff_of_nodup ?_ hnodup).mpr ?_⟩
  · exact (a.ascending_expansion n).imp fun hlt => Nat.ne_of_lt hlt
  · intro i
    rw [mem_expansion_iff h.nodup, List.mem_map]
    constructor
    · rintro ⟨s, hsite, rfl, rfl⟩
      obtain ⟨node', part, hpart, hn', -⟩ := h.part hsite
      obtain rfl : node = node' := Option.some.inj (hn.symm.trans hn')
      obtain ⟨-, ⟨t', u, htrie, -, hu⟩ | ⟨htrie, -⟩⟩ := Outline.part?_cases hpart
      · obtain rfl : t = t' := Option.some.inj (Except.ok.inj (ht.symm.trans htrie))
        exact ⟨_, hu, rfl⟩
      · exact absurd ht (htrie t)
    · rintro ⟨part, hpart, rfl⟩
      exact ⟨_, h.mem_sites_of_inner hreach hn ht hpart, rfl, rfl⟩

/-- A matching node with keys is depicted from its entry on, and by its states only. -/
theorem exists_depicts {n : Nat} {node : Blueprint.Node} {word : Option String}
    (hs : Site.entry n ∈ a.sites) (hn : b.nodes[n]? = some node)
    (hkind : node.kind = .matching word) (hedges : node.edges ≠ []) :
    ∃ t transform k used, node.trie = .ok (some t) ∧
      Blueprint.transformOf? word = some transform ∧ a.machine.transforms[k]? = some transform ∧
      Mirror.Depicts a.machine a.memo? node k t (a.entry n) used ∧
      used.length = (t.inner []).length ∧ used.Nodup ∧ (a.expansion n).Perm used ∧
      (a.expansion n).head? = some (a.entry n) := by
  have hreach : b.digraph.Reaches root n := h.reaches hs
  have hfit := h.fit hs hn
  obtain ⟨transform, htransform⟩ := hfit.transform hkind
  obtain ⟨t, ht⟩ : ∃ t, node.trie = .ok (some t) := by
    obtain ⟨t, ht⟩ := hfit.trie
    cases t with
    | some t => exact ⟨t, ht⟩
    | none =>
      rw [Blueprint.Node.trie, hkind] at ht
      exact absurd (Trie.eq_nil_of_ofEntries ht) ((h.sound.node hn).entries_ne_nil hkind hedges)
  have hdepicts := h.depicts hreach hn ht hkind t (fun _ _ => id) fun l hl =>
    absurd hl (Blueprint.Node.trie_ne_leaf ht l)
  rw [Outline.ofTrie_root ht, htransform, Option.getD_some] at hdepicts
  obtain ⟨hnodup, hperm⟩ := h.expansion_perm hs hn ht
  exact ⟨t, transform, _, _, ht, htransform, h.transform_eq hs hn hkind htransform, hdepicts,
    List.length_map _, hnodup, hperm, h.head_expansion hs⟩

/-- **An assembly makes a machine that mirrors its blueprint.** -/
theorem faithful : Mirror.Faithful b groups root a.machine a.memo? a.expansion := by
  have hone : ∀ {n : Nat} {node : Blueprint.Node}, Site.entry n ∈ a.sites →
      b.nodes[n]? = some node → node.trie = .ok none → a.expansion n = [a.entry n] ∧
        ∃ label, a.machine.states[a.entry n]? =
          some ⟨label, a.kind a.callbacks a.transforms (Site.entry n) node none,
            a.otherwise node none⟩ := by
    intro n node hs hn ht
    have hno : ∀ t, node.trie ≠ .ok (some t) := by simp [ht]
    exact ⟨h.expansion_eq_singleton hs hn hno, h.exists_state hs (Outline.part?_of_no_trie hn hno)⟩
  refine ⟨?domain, ?injective, ?node, ?plain, ?empty, ?trie, ?disjoint, ?covers⟩
  case domain =>
    intro n
    rw [← h.entry_mem_iff]
    simp [memo?_eq_some]
  case injective =>
    intro n n' i hn hn'
    obtain ⟨hmem, hi⟩ := memo?_eq_some.mp hn
    obtain ⟨-, hi'⟩ := memo?_eq_some.mp hn'
    exact congrArg Site.node (position_inj hmem (hi.trans hi'.symm))
  case node =>
    intro n i hn
    obtain ⟨node, hnode, -⟩ := h.flawless n (h.reaches (memo?_eq_some.mp hn).1)
    exact ⟨node, hnode⟩
  case plain =>
    intro n i node hi hn hplain
    obtain ⟨hs, rfl⟩ := memo?_eq_some.mp hi
    obtain ⟨hexpansion, label, hstate⟩ := hone hs hn (Blueprint.Node.trie_of_plain hplain)
    exact ⟨hexpansion, _, hstate, h.payload hs hn hplain, h.continues hs hn⟩
  case empty =>
    intro n i node word hi hn hkind hedges
    obtain ⟨hs, rfl⟩ := memo?_eq_some.mp hi
    have ht : node.trie = .ok none := by
      rw [Blueprint.Node.trie, hkind]
      simp [Blueprint.Node.entries, hedges, Trie.ofEntries]
    obtain ⟨hexpansion, label, hstate⟩ := hone hs hn ht
    refine ⟨hexpansion, _, hstate, ?_, h.continues hs hn⟩
    simp only [kind, hkind]
  case trie =>
    intro n i node word hi hn hkind hedges
    obtain ⟨hs, rfl⟩ := memo?_eq_some.mp hi
    exact h.exists_depicts hs hn hkind hedges
  case disjoint =>
    intro n n' hne i hi hi'
    obtain ⟨s, hs, rfl⟩ := mem_expansion.mp hi
    obtain ⟨s', hs', rfl⟩ := mem_expansion.mp hi'
    exact hne (congrArg Site.node (Option.some.inj (hs.symm.trans hs')))
  case covers =>
    intro i
    rw [a.size_states]
    constructor
    · intro hi
      refine ⟨(a.sites[i]).node, h.reaches (List.getElem_mem hi), ?_⟩
      exact mem_expansion.mpr ⟨_, List.getElem?_eq_getElem hi, rfl⟩
    · rintro ⟨n, -, hi⟩
      obtain ⟨s, hs, -⟩ := mem_expansion.mp hi
      exact (List.getElem?_eq_some_iff.mp hs).1

end

end Assembly.Regular

namespace Blueprint

/-- **Every machine that is assembled mirrors its blueprint**, whatever calls have made the
blueprint and whatever places its spans are given. -/
theorem faithful_machine (calls : List Call) (options : Options) (groups : List (List Nat))
    (stem : String) (root : Nat) (m : Machine)
    (hm : ((run {} calls).assembly options groups stem root).complete = .ok m) :
    Mirror.Faithful (run {} calls) groups root m
      ((run {} calls).assembly options groups stem root).memo?
      ((run {} calls).assembly options groups stem root).expansion := by
  have hb := sound_run calls
  obtain ⟨hflawless, rfl⟩ := (complete_eq_ok_iff hb).mp hm
  exact (hflawless.regular hb options stem).faithful

theorem faithful_machine_request :
    ∃ m, ((run {} requestCalls).assembly {} [[0]] "parser" 0).complete = .ok m ∧
      Mirror.Faithful (run {} requestCalls) [[0]] 0 m
        ((run {} requestCalls).assembly {} [[0]] "parser" 0).memo?
        ((run {} requestCalls).assembly {} [[0]] "parser" 0).expansion := by
  have hdefect : ((run {} requestCalls).assembly {} [[0]] "parser" 0).defect? = none := by cbv
  have hflawless := (defect?_assembly_eq_none_iff (sound_run requestCalls)).mp hdefect
  have hm : ((run {} requestCalls).assembly {} [[0]] "parser" 0).complete =
      .ok ((run {} requestCalls).assembly {} [[0]] "parser" 0).machine :=
    (complete_eq_ok_iff (sound_run requestCalls)).mpr ⟨hflawless, rfl⟩
  exact ⟨_, hm, faithful_machine requestCalls {} [[0]] "parser" 0 _ hm⟩

end Blueprint

end ByteMachine
