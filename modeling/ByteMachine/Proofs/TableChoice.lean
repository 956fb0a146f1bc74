import ByteMachine.Proofs.Assembled
import ByteMachine.Proofs.Tables
import Mathlib

/-! # When a branch becomes a table

A table is tried by entering one child after the other, and the attempt ends with the first
child that does not fit in.  Whether it succeeds can nevertheless be said without following the
attempt (`Tabular`, `exists_ofChildren_iff`): only the children matter that share a target, and
the number of rows is the number of targets.  The bound on that number is a power of two, also
for widths for which the power does not fit into a machine word, since a branch has at most as
many children as there are bytes (`fits_iff`).

A table that there is loses nothing (`Gathers`): there is one row for each target, in the order
of the first bytes, and each byte is in one row, that of its own target.  Both facts hold at
every branch that becomes a state (`table_iff_tabular`). -/
namespace ByteMachine.Table

/-- The children of a branch: the byte, whether it is left for what follows, and what is behind
it. -/
abbrev Children := List (UInt8 × Bool × Trie)

variable {o : Options} {children : Children} {rows : List Row}

/-- The node to which a child leads directly. -/
def target? : UInt8 × Bool × Trie → Option Nat
  | (_, _, .leaf l) => some l.target
  | _ => none

/-- The nodes to which children lead directly, each of them once, in the order of the children. -/
def targetsOf (children : Children) : List Nat := (children.filterMap target?).eraseDups

/-- **The branches that become tables.** -/
structure Tabular (o : Options) (children : Children) : Prop where
  /-- There are enough children. -/
  enough : o.minimumSize ≤ children.length
  /-- Every child is a leaf that passes no value. -/
  plain : ∀ child ∈ children, ∃ target, child.2.2 = .leaf ⟨target, none⟩
  /-- Children with the same target agree on whether their bytes are consumed. -/
  agree : ∀ child ∈ children, ∀ child' ∈ children, ∀ target, target? child = some target →
    target? child' = some target → child.2.1 = child'.2.1
  /-- The elements of the table can tell the targets apart. -/
  few : (targetsOf children).length < 2 ^ o.elementWidth

/-- **The rows of a table gather the children of a branch.** -/
structure Gathers (rows : List Row) (children : Children) : Prop where
  /-- There is one row for each target, in the order of the children. -/
  targets : rows.map (·.target) = targetsOf children
  /-- A byte is in the row of its target, which says whether it is consumed. -/
  own : ∀ byte stay target, (byte, stay, Trie.leaf ⟨target, none⟩) ∈ children ↔
    ∃ row ∈ rows, byte ∈ row.keys ∧ row.stay = stay ∧ row.target = target
  /-- It is in no other row. -/
  once : ∀ child ∈ children, ∃! row, row ∈ rows ∧ child.1 ∈ row.keys
  /-- The bytes of each row ascend, and rows stand in the order of their first bytes. -/
  arranged : Arranged (rows.map (·.keys))

/-! ## Entering children -/

theorem eraseDups_of_nodup {l : List Nat} (h : l.Nodup) : l.eraseDups = l := by
  induction l with
  | nil => rfl
  | cons a l ih =>
    obtain ⟨ha, hl⟩ := List.nodup_cons.mp h
    have hfilter : l.filter (fun x => !x == a) = l := by
      refine List.filter_eq_self.mpr fun x hx => ?_
      have hne : x ≠ a := fun heq => ha (heq ▸ hx)
      simpa using hne
    rw [List.eraseDups_cons, hfilter, ih hl]

/-- No two rows have the same target. -/
theorem nodup_targets_of_foldlM {rows' : List Row}
    (h : children.foldlM enterChild rows = .ok rows') (hnodup : (rows.map (·.target)).Nodup) :
    (rows'.map (·.target)).Nodup := by
  induction children generalizing rows with
  | nil =>
    cases h
    exact hnodup
  | cons child children ih =>
    obtain ⟨exit, middle, rfl, henter, hrest⟩ := foldlM_cons_eq_ok h
    refine ih hrest ?_
    rw [map_target_of_enter henter]
    by_cases hmem : exit.2.2 ∈ rows.map (·.target)
    · rw [if_pos hmem]
      exact hnodup
    · rw [if_neg hmem]
      exact List.Nodup.append hnodup (List.nodup_singleton _) (by simpa using hmem)

/-- A byte can be entered when the row of its target, if there is one, agrees with it. -/
theorem exists_enter (byte : UInt8) {stay : Bool} {target : Nat}
    (h : ∀ row ∈ rows, row.target = target → row.stay = stay) :
    ∃ rows', enter byte stay target rows = .ok rows' := by
  induction rows with
  | nil => exact ⟨_, rfl⟩
  | cons row rows ih =>
    obtain ⟨hrow, hrows⟩ := List.forall_mem_cons.mp h
    rw [enter]
    by_cases htarget : row.target = target
    · rw [if_pos htarget, if_pos (hrow htarget)]
      exact ⟨_, rfl⟩
    · rw [if_neg htarget]
      obtain ⟨rest, hrest⟩ := ih hrows
      exact ⟨row :: rest, by rw [hrest]; rfl⟩

/-- Rows are old ones, perhaps with one more byte, or the one of the byte just entered. -/
theorem stay_of_enter {byte : UInt8} {stay stay' : Bool} {target target' : Nat} {rows' : List Row}
    (h : enter byte stay target rows = .ok rows')
    (hrows : ∀ row ∈ rows, row.target = target' → row.stay = stay')
    (hnew : target = target' → stay = stay') :
    ∀ row ∈ rows', row.target = target' → row.stay = stay' := by
  intro row hrow htarget
  rcases enter_cases h with ⟨before, old, after, rfl, -, -, rfl⟩ | ⟨-, rfl⟩
  · rw [List.mem_append, List.mem_cons] at hrow
    rcases hrow with hrow | rfl | hrow
    · exact hrows row (by simp [hrow]) htarget
    · exact hrows old (by simp) htarget
    · exact hrows row (by simp [hrow]) htarget
  · rcases List.mem_append.mp hrow with hrow | hrow
    · exact hrows row hrow htarget
    · rw [List.mem_singleton.mp hrow] at htarget ⊢
      exact hnew htarget

/-- Leaves without values can be entered when they agree with each other and with the rows. -/
theorem exists_foldlM {ts : List Exit}
    (hagree : ∀ exit ∈ ts, ∀ exit' ∈ ts, exit.2.2 = exit'.2.2 → exit.2.1 = exit'.2.1)
    (hrows : ∀ exit ∈ ts, ∀ row ∈ rows, row.target = exit.2.2 → row.stay = exit.2.1) :
    ∃ rows', (ts.map Exit.child).foldlM enterChild rows = .ok rows' := by
  induction ts generalizing rows with
  | nil => exact ⟨rows, rfl⟩
  | cons exit ts ih =>
    obtain ⟨byte, stay, target⟩ := exit
    obtain ⟨middle, hmiddle⟩ := exists_enter byte (hrows _ List.mem_cons_self)
    rw [List.map_cons, List.foldlM_cons]
    show ∃ rows', (enter byte stay target rows >>= _) = .ok rows'
    rw [hmiddle]
    refine ih (fun exit hexit exit' hexit' => ?_) fun exit hexit => stay_of_enter hmiddle ?_ ?_
    · exact hagree exit (List.mem_cons_of_mem _ hexit) exit' (List.mem_cons_of_mem _ hexit')
    · exact hrows exit (List.mem_cons_of_mem _ hexit)
    · exact hagree _ List.mem_cons_self exit (List.mem_cons_of_mem _ hexit)

/-! ## What a table gathers -/

theorem mem_exits {byte : UInt8} {stay : Bool} {target : Nat} :
    (byte, stay, target) ∈ exits rows ↔
      ∃ row ∈ rows, byte ∈ row.keys ∧ row.stay = stay ∧ row.target = target := by
  simp [exits, Row.exits]

theorem child_mem_iff {ts : List Exit} {byte : UInt8} {stay : Bool} {target : Nat} :
    (byte, stay, Trie.leaf ⟨target, none⟩) ∈ ts.map Exit.child ↔ (byte, stay, target) ∈ ts := by
  simp [Exit.child]

theorem targetsOf_map_child (ts : List Exit) :
    targetsOf (ts.map Exit.child) = (ts.map fun exit => exit.2.2).eraseDups := by
  have htarget : target? ∘ Exit.child = fun exit => some exit.2.2 := rfl
  rw [targetsOf, List.filterMap_map, htarget, List.filterMap_eq_map']

/-- There is one row for each target. -/
theorem map_target_of_foldlM (h : children.foldlM enterChild [] = .ok rows) :
    rows.map (·.target) = targetsOf children := by
  have hnodup := nodup_targets_of_foldlM h List.nodup_nil
  obtain ⟨ts, rfl, -, horder⟩ := exists_of_foldlM (fun target => target) h
  rw [targetsOf_map_child, ← eraseDups_of_nodup hnodup, horder]
  rfl

theorem nodup_targetsOf (children : Children) : (targetsOf children).Nodup :=
  Digraph.nodup_eraseDups _

theorem row_eq_of_target (htargets : rows.map (·.target) = targetsOf children) {row row' : Row}
    (hrow : row ∈ rows) (hrow' : row' ∈ rows) (h : row.target = row'.target) : row = row' :=
  List.inj_on_of_nodup_map (htargets ▸ nodup_targetsOf children) hrow hrow' h

/-- **A table loses nothing.** -/
theorem gathers_of_ofChildren (h : ofChildren o children = .ok rows)
    (hbytes : (children.map (·.1)).Pairwise (· < ·)) : Gathers rows children := by
  have harranged := arranged_of_ofChildren h hbytes
  have htargets := map_target_of_foldlM (foldlM_of_ofChildren h)
  obtain ⟨ts, rfl, hperm, -⟩ := exists_of_ofChildren id h
  have hdistinct : (ts.map (·.1)).Nodup := by
    rw [List.map_map] at hbytes
    exact hbytes.imp fun hlt => UInt8.ne_of_lt hlt
  have hown : ∀ byte stay target, (byte, stay, Trie.leaf ⟨target, none⟩) ∈ ts.map Exit.child ↔
      ∃ row ∈ rows, byte ∈ row.keys ∧ row.stay = stay ∧ row.target = target := by
    intro byte stay target
    rw [child_mem_iff, ← hperm.mem_iff, mem_exits]
  refine ⟨htargets, hown, fun child hchild => ?_, harranged⟩
  obtain ⟨⟨byte, stay, target⟩, hexit, rfl⟩ := List.mem_map.mp hchild
  obtain ⟨row, hrow, hkey, -, htarget⟩ := (hown byte stay target).mp (child_mem_iff.mpr hexit)
  refine ⟨row, ⟨hrow, hkey⟩, fun row' hrow' => ?_⟩
  -- a byte leads to one target, and a target has one row
  have hexit' : (byte, row'.stay, row'.target) ∈ ts :=
    hperm.mem_iff.mp (mem_exits.mpr ⟨row', hrow'.1, hrow'.2, rfl, rfl⟩)
  have hsame := List.inj_on_of_nodup_map hdistinct hexit' hexit rfl
  refine row_eq_of_target htargets hrow'.1 hrow ?_
  rw [htarget]
  exact congrArg (·.2.2) hsame

/-! ## Whether there is a table -/

theorem length_le_of_bytes (hbytes : (children.map (·.1)).Pairwise (· < ·)) :
    children.length ≤ 256 := by
  have hnodup : ((children.map (·.1)).map UInt8.toNat).Nodup :=
    List.Nodup.map (fun _ _ => UInt8.toNat_inj.mp) (hbytes.imp fun hlt => UInt8.ne_of_lt hlt)
  have hsub : (children.map (·.1)).map UInt8.toNat ⊆ List.range 256 := by
    intro n hn
    obtain ⟨byte, -, rfl⟩ := List.mem_map.mp hn
    exact List.mem_range.mpr byte.toNat_lt
  simpa using (List.subperm_of_subset hnodup hsub).length_le

/-- **Elements of any width** tell targets apart as their bits allow. -/
theorem fits_iff {n : Nat} (hn : n ≤ 256) : o.fits n = true ↔ n < 2 ^ o.elementWidth := by
  have hpow : Nat.pow 2 o.elementWidth = 2 ^ o.elementWidth := rfl
  rw [Options.fits, Bool.or_eq_true, decide_eq_true_eq, decide_eq_true_eq, hpow]
  constructor
  · rintro (hwide | hlt)
    · have hle : 2 ^ 64 ≤ 2 ^ o.elementWidth := Nat.pow_le_pow_right (by omega) hwide
      omega
    · exact hlt
  · exact .inr

theorem exists_exits (h : ∀ child ∈ children, ∃ target, child.2.2 = .leaf ⟨target, none⟩) :
    ∃ ts : List Exit, children = ts.map Exit.child := by
  induction children with
  | nil => exact ⟨[], rfl⟩
  | cons child children ih =>
    obtain ⟨⟨target, htarget⟩, hrest⟩ := List.forall_mem_cons.mp h
    obtain ⟨ts, rfl⟩ := ih hrest
    refine ⟨(child.1, child.2.1, target) :: ts, ?_⟩
    rw [List.map_cons, Exit.child, ← htarget]

theorem length_targetsOf_le (children : Children) :
    (targetsOf children).length ≤ children.length := by
  have hsub : targetsOf children ⊆ children.filterMap target? := fun _ => List.mem_eraseDups.mp
  have hle := (List.subperm_of_subset (nodup_targetsOf children) hsub).length_le
  exact hle.trans (List.length_filterMap_le _ _)

theorem length_targetsOf_le_of_bytes (hbytes : (children.map (·.1)).Pairwise (· < ·)) :
    (targetsOf children).length ≤ 256 :=
  (length_targetsOf_le children).trans (length_le_of_bytes hbytes)

theorem tabular_of_ofChildren (hbytes : (children.map (·.1)).Pairwise (· < ·))
    (h : ofChildren o children = .ok rows) : Tabular o children := by
  obtain ⟨htargets, hown, -, -⟩ := gathers_of_ofChildren h hbytes
  obtain ⟨henough, -, hfits⟩ := ofChildren_eq_ok_iff.mp h
  have hfew : (targetsOf children).length < 2 ^ o.elementWidth := by
    rw [← fits_iff (length_targetsOf_le_of_bytes hbytes), ← htargets, List.length_map]
    exact hfits
  obtain ⟨ts, rfl, -, -⟩ := exists_of_ofChildren id h
  refine ⟨henough, fun child hchild => ?_, ?_, hfew⟩
  · obtain ⟨exit, -, rfl⟩ := List.mem_map.mp hchild
    exact ⟨exit.2.2, rfl⟩
  · intro child hchild child' hchild' target ht ht'
    obtain ⟨⟨byte, stay, t⟩, hexit, rfl⟩ := List.mem_map.mp hchild
    obtain ⟨⟨byte', stay', t'⟩, hexit', rfl⟩ := List.mem_map.mp hchild'
    obtain rfl : t = target := Option.some.inj ht
    obtain rfl : t' = t := Option.some.inj ht'
    obtain ⟨row, hrow, -, hstay, htarget⟩ := (hown _ _ _).mp hchild
    obtain ⟨row', hrow', -, hstay', htarget'⟩ := (hown _ _ _).mp hchild'
    have hsame := row_eq_of_target htargets hrow hrow' (htarget.trans htarget'.symm)
    show stay = stay'
    rw [← hstay, ← hstay', hsame]

theorem exists_ofChildren_of_tabular (hbytes : (children.map (·.1)).Pairwise (· < ·))
    (h : Tabular o children) : ∃ rows, ofChildren o children = .ok rows := by
  have hfits := (fits_iff (length_targetsOf_le_of_bytes hbytes)).mpr h.few
  obtain ⟨ts, rfl⟩ := exists_exits h.plain
  have hentered : ∃ rows, (ts.map Exit.child).foldlM enterChild [] = .ok rows := by
    refine exists_foldlM (fun exit hexit exit' hexit' heq => ?_) fun exit _ row hrow => ?_
    · exact h.agree exit.child (List.mem_map_of_mem hexit) exit'.child
        (List.mem_map_of_mem hexit') exit'.2.2 (congrArg some heq) rfl
    · exact absurd hrow List.not_mem_nil
  obtain ⟨rows, hrows⟩ := hentered
  refine ⟨rows, ofChildren_eq_ok_iff.mpr ⟨h.enough, hrows, ?_⟩⟩
  rw [← map_target_of_foldlM hrows, List.length_map] at hfits
  exact hfits

/-- **There is a table** exactly when the children and the options allow one. -/
theorem exists_ofChildren_iff (hbytes : (children.map (·.1)).Pairwise (· < ·)) :
    (∃ rows, ofChildren o children = .ok rows) ↔ Tabular o children := by
  refine ⟨?_, exists_ofChildren_of_tabular hbytes⟩
  rintro ⟨rows, h⟩
  exact tabular_of_ofChildren hbytes h

end ByteMachine.Table

/-! ## Tables among the states -/

namespace ByteMachine.Blueprint

section
variable {b : Blueprint} {a : Assembly} {options : Options} {groups : List (List Nat)}
variable {stem : String} {root : Nat} {s : Site} {node : Node} {children : Table.Children}
variable {stop : Option Leaf}

/-- The options decide between a table and a branch. -/
theorem trieKind_eq_table {k transform : Nat} {edges : List Machine.TableEdge} :
    a.trieKind s k (.branch children stop) = .table transform edges ↔
      k = transform ∧ ∃ rows, Table.ofChildren a.options children = .ok rows ∧
        edges = rows.map fun row => ⟨row.keys, row.stay, a.entry row.target⟩ := by
  rw [Assembly.trieKind]
  cases Table.ofChildren a.options children with
  | error cause => simp
  | ok rows => simp [eq_comm]

/-- At a site of a matching node the bytes of a branch ascend. -/
theorem ascending_of_part?
    (hpart : (Outline.ofBlueprint b).part? s = some (node, some (.branch children stop))) :
    (∃ word, node.kind = .matching word) ∧ (children.map (·.1)).Pairwise (· < ·) := by
  obtain ⟨-, ⟨t, u, ht, hu, hmem⟩ | ⟨-, -, hnone⟩⟩ := Outline.part?_cases hpart
  · obtain rfl := Option.some.inj hu
    have hproper := (Node.built_trie ht).proper.of_mem_inner hmem
    cases hproper with
    | branch hne hbytes hchildren => exact ⟨(Node.trie_eq_some ht).1, hbytes⟩
  · cases hnone

/-- The node to which a child leads is entered at a site. -/
theorem entry_mem_of_leaf (hs : s ∈ (b.assembly options groups stem root).sites)
    (hpart : (Outline.ofBlueprint b).part? s = some (node, some (.branch children stop)))
    {byte : UInt8} {stay : Bool} {l : Leaf} (hmem : (byte, stay, Trie.leaf l) ∈ children) :
    Site.entry l.target ∈ (b.assembly options groups stem root).sites := by
  have hnext : Site.entry l.target ∈ (Outline.ofBlueprint b).next s := by
    refine List.mem_append_left _ ?_
    rw [Outline.inside, hpart]
    exact List.mem_append_left _ (List.mem_map.mpr ⟨_, hmem, rfl⟩)
  exact Outline.mem_sites.mpr ((Outline.mem_sites.mp hs).step hnext)

/-- Different targets are entered at different states. -/
theorem nodup_map_entry (hs : s ∈ (b.assembly options groups stem root).sites)
    (hpart : (Outline.ofBlueprint b).part? s = some (node, some (.branch children stop)))
    {rows : List Table.Row} (hrows : Table.Gathers rows children) :
    (rows.map fun row => (b.assembly options groups stem root).entry row.target).Nodup := by
  have hdistinct : (rows.map (·.target)).Nodup := hrows.targets ▸ Table.nodup_targetsOf children
  have hentered : ∀ row ∈ rows,
      Site.entry row.target ∈ (b.assembly options groups stem root).sites := by
    intro row hrow
    have hne := (hrows.arranged.row row.keys (List.mem_map_of_mem hrow)).1
    obtain ⟨byte, hbyte⟩ := List.exists_mem_of_ne_nil _ hne
    exact entry_mem_of_leaf hs hpart ((hrows.own _ _ _).mpr ⟨row, hrow, hbyte, rfl, rfl⟩)
  refine List.pairwise_map.mpr ((List.pairwise_map.mp hdistinct).imp_of_mem ?_)
  intro row row' hrow _ hne heq
  exact hne (congrArg Site.node (Assembly.position_inj (hentered row hrow) heq))

end

/-- **A branch becomes a table exactly when it can**, whatever the options, and the table says
what the branch says: it has one edge for each target, these gather the children, and it
continues otherwise at the branch's own stop. -/
theorem table_iff_tabular (b : Blueprint) (options : Options) (groups : List (List Nat))
    (stem : String) (root : Nat) (a : Assembly) (ha : a = b.assembly options groups stem root)
    (s : Site) (node : Node) (children : Table.Children) (stop : Option Leaf) (hs : s ∈ a.sites)
    (hpart : a.outline.part? s = some (node, some (.branch children stop))) :
    ∃ state, a.machine.states[a.position s]? = some state ∧
      ((∃ transform edges, state.kind = .table transform edges) ↔
        Table.Tabular options children) ∧
      (∀ transform edges, state.kind = .table transform edges →
        (edges.map (·.target)).Nodup ∧
          ∃ rows, Table.Gathers rows children ∧
            edges = rows.map fun row => ⟨row.keys, row.stay, a.entry row.target⟩) ∧
      ∀ l, stop = some l → state.otherwise = some ⟨a.entry l.target, true, l.value⟩ := by
  subst ha
  obtain ⟨⟨word, hkind⟩, hbytes⟩ := ascending_of_part? hpart
  obtain ⟨label, hstate⟩ := Assembly.state_of_mem hs
  rw [Assembly.state, hpart] at hstate
  simp only [Assembly.kind, hkind] at hstate
  refine ⟨_, hstate, ?_, ?_, ?_⟩
  · rw [← Table.exists_ofChildren_iff hbytes]
    simp only [trieKind_eq_table]
    constructor
    · rintro ⟨transform, edges, -, rows, hrows, -⟩
      exact ⟨rows, hrows⟩
    · rintro ⟨rows, hrows⟩
      exact ⟨_, _, rfl, rows, hrows, rfl⟩
  · intro transform edges htable
    simp only [trieKind_eq_table] at htable
    obtain ⟨-, rows, hrows, rfl⟩ := htable
    have hgathers := Table.gathers_of_ofChildren hrows hbytes
    rw [List.map_map]
    exact ⟨nodup_map_entry hs hpart hgathers, rows, hgathers, rfl⟩
  · rintro l rfl
    rfl

/-- Calls for a node with keys for `x` alone, with a value, and for `x` with one of three letters
behind it, two of which lead to the same node. -/
def letterCalls : List Call :=
  [.matchNode "start", .errorNode 1 "vowel", .errorNode 2 "consonant", .errorNode 3 "end",
    .select 0 [120] 7 3, .matchBytes 0 [120, 97] 1, .matchBytes 0 [120, 98] 2,
    .matchBytes 0 [120, 101] 1, .otherwise 0 3]

/-- The children of the branch behind `x`. -/
def letterChildren : Table.Children :=
  [(97, false, .leaf ⟨1, none⟩), (98, false, .leaf ⟨2, none⟩), (101, false, .leaf ⟨1, none⟩)]

/-- The branch behind `x` has just enough children and few enough targets for a table, which
continues at the key `x` otherwise. -/
theorem table_iff_tabular_letters :
    ⟨0, [120]⟩ ∈ ((run {} letterCalls).assembly ⟨2, 3⟩ [] "p" 0).sites ∧
      ((run {} letterCalls).assembly ⟨2, 3⟩ [] "p" 0).outline.part? ⟨0, [120]⟩ =
        some (((run {} letterCalls).nodes[0]?).getD default,
          some (.branch letterChildren (some ⟨3, some 7⟩))) ∧
      ∃ state, ((run {} letterCalls).assembly ⟨2, 3⟩ [] "p" 0).machine.states[
          ((run {} letterCalls).assembly ⟨2, 3⟩ [] "p" 0).position ⟨0, [120]⟩]? = some state ∧
        (∃ transform edges, state.kind = .table transform edges) ∧
        state.otherwise =
          some ⟨((run {} letterCalls).assembly ⟨2, 3⟩ [] "p" 0).entry 3, true, some 7⟩ := by
  have hsites : ((run {} letterCalls).assembly ⟨2, 3⟩ [] "p" 0).sites =
      [⟨0, []⟩, ⟨0, [120]⟩, ⟨1, []⟩, ⟨2, []⟩, ⟨3, []⟩] := by cbv
  have hs : ⟨0, [120]⟩ ∈ ((run {} letterCalls).assembly ⟨2, 3⟩ [] "p" 0).sites := by
    rw [hsites]
    decide
  have hpart : ((run {} letterCalls).assembly ⟨2, 3⟩ [] "p" 0).outline.part? ⟨0, [120]⟩ =
      some (((run {} letterCalls).nodes[0]?).getD default,
        some (.branch letterChildren (some ⟨3, some 7⟩))) := by cbv
  have htabular : Table.Tabular ⟨2, 3⟩ letterChildren := by
    refine ⟨by decide, by simp [letterChildren], ?_, by decide⟩
    simp [letterChildren]
  obtain ⟨state, hstate, htable, -, hotherwise⟩ := table_iff_tabular (run {} letterCalls) ⟨2, 3⟩ []
    "p" 0 _ rfl ⟨0, [120]⟩ _ letterChildren (some ⟨3, some 7⟩) hs hpart
  exact ⟨hs, hpart, state, hstate, htable.mpr htabular, hotherwise _ rfl⟩

end ByteMachine.Blueprint
