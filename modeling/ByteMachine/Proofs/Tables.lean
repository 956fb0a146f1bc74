import ByteMachine.Machine.Basic
import ByteMachine.Table
import Mathlib.Data.List.Nodup

/-! # What a table says

A table groups the bytes of a branch by where they lead.  Nothing is lost or invented on
the way: the bytes of all rows, with where they lead, are those of the children, in another
order (`exists_of_ofChildren`), and the rows stand in the order in which their targets are
first met.  The table of a state therefore says what the edges of a branch would say
(`Machine.Tabulates`), and leads each byte to the same place (`Tabulates.find?`).

When the bytes of the children ascend, so do those of each row, and the rows stand in the
order of their first bytes (`arranged_of_ofChildren`). -/
namespace ByteMachine.Table

/-- A byte with whether it is left for what follows and where it leads. -/
abbrev Exit := UInt8 × Bool × Nat

/-- The child of a branch that is a leaf without a value. -/
def Exit.child : Exit → UInt8 × Bool × Trie
  | (byte, stay, target) => (byte, stay, .leaf ⟨target, none⟩)

/-- The bytes of a row with where they lead. -/
def Row.exits (row : Row) : List Exit := row.keys.map (·, row.stay, row.target)

/-- The bytes of a table with where they lead, row by row. -/
def exits (rows : List Row) : List Exit := rows.flatMap Row.exits

/-- **One more byte in a table** joins the row of its target or opens a new last row. -/
theorem enter_cases {byte : UInt8} {stay : Bool} {target : Nat} {rows rows' : List Row}
    (h : enter byte stay target rows = .ok rows') :
    (∃ before row after, rows = before ++ row :: after ∧ row.target = target ∧ row.stay = stay ∧
        rows' = before ++ { row with keys := row.keys ++ [byte] } :: after) ∨
      (target ∉ rows.map (·.target) ∧ rows' = rows ++ [⟨[byte], stay, target⟩]) := by
  induction rows generalizing rows' with
  | nil =>
    cases h
    exact .inr ⟨List.not_mem_nil, rfl⟩
  | cons row rows ih =>
    rw [enter] at h
    split at h
    · rename_i htarget
      split at h
      · rename_i hstay
        cases h
        exact .inl ⟨[], row, rows, rfl, htarget, hstay, rfl⟩
      · cases h
    · rename_i htarget
      cases hrest : enter byte stay target rows with
      | error e =>
        rw [hrest] at h
        cases h
      | ok rest =>
        rw [hrest] at h
        cases h
        rcases ih hrest with ⟨before, found, after, rfl, hfound, hstay, rfl⟩ | ⟨hnew, rfl⟩
        · exact .inl ⟨row :: before, found, after, rfl, hfound, hstay, rfl⟩
        · exact .inr ⟨List.not_mem_cons_of_ne_of_not_mem (Ne.symm htarget) hnew, rfl⟩

theorem perm_of_enter {byte : UInt8} {stay : Bool} {target : Nat} {rows rows' : List Row}
    (h : enter byte stay target rows = .ok rows') :
    (exits rows').Perm (exits rows ++ [(byte, stay, target)]) := by
  rcases enter_cases h with ⟨before, row, after, rfl, rfl, rfl, rfl⟩ | ⟨-, rfl⟩
  · simp only [exits, Row.exits, List.flatMap_append, List.flatMap_cons, List.map_append,
      List.map_cons, List.map_nil, List.append_assoc]
    exact ((List.perm_append_comm).append_left _).append_left _
  · rw [exits, List.flatMap_append]
    exact .refl _

/-- Rows stand in the order in which their targets are first met. -/
theorem map_target_of_enter {byte : UInt8} {stay : Bool} {target : Nat} {rows rows' : List Row}
    (h : enter byte stay target rows = .ok rows') :
    rows'.map (·.target) =
      if target ∈ rows.map (·.target) then rows.map (·.target)
      else rows.map (·.target) ++ [target] := by
  rcases enter_cases h with ⟨before, row, after, rfl, rfl, -, rfl⟩ | ⟨hnew, rfl⟩
  · rw [if_pos (by simp)]
    simp
  · rw [if_neg hnew, List.map_append]
    rfl

theorem eraseDups_append_cons_of_mem {x : Nat} {l : List Nat} (h : x ∈ l) (rest : List Nat) :
    (l ++ x :: rest).eraseDups = (l ++ rest).eraseDups := by
  rw [List.eraseDups_append, List.eraseDups_append]
  simp [List.removeAll, h]

/-- Only a leaf without a value enters a table. -/
theorem exists_of_enterChild {rows rows' : List Row} {child : UInt8 × Bool × Trie}
    (h : enterChild rows child = .ok rows') :
    ∃ exit : Exit, child = exit.child ∧ enter exit.1 exit.2.1 exit.2.2 rows = .ok rows' := by
  unfold enterChild at h
  split at h
  · rename_i byte stay target
    exact ⟨(byte, stay, target), rfl, h⟩
  · cases h
  · cases h

/-- Entering children one after the other begins with a leaf without a value. -/
theorem foldlM_cons_eq_ok {child : UInt8 × Bool × Trie} {children : List (UInt8 × Bool × Trie)}
    {rows rows' : List Row} (h : (child :: children).foldlM enterChild rows = .ok rows') :
    ∃ (exit : Exit) (middle : List Row), child = exit.child ∧
      enter exit.1 exit.2.1 exit.2.2 rows = .ok middle ∧
      children.foldlM enterChild middle = .ok rows' := by
  rw [List.foldlM_cons] at h
  cases hchild : enterChild rows child with
  | error e =>
    rw [hchild] at h
    cases h
  | ok middle =>
    rw [hchild] at h
    obtain ⟨exit, hexit, henter⟩ := exists_of_enterChild hchild
    exact ⟨exit, middle, hexit, henter, h⟩

/-- What the children become; `f` stands for what becomes of targets. -/
theorem exists_of_foldlM (f : Nat → Nat) {children : List (UInt8 × Bool × Trie)}
    {rows rows' : List Row} (h : children.foldlM enterChild rows = .ok rows') :
    ∃ ts : List Exit, children = ts.map Exit.child ∧ (exits rows').Perm (exits rows ++ ts) ∧
      (rows'.map fun row => f row.target).eraseDups =
        ((rows.map fun row => f row.target) ++ ts.map fun exit => f exit.2.2).eraseDups := by
  induction children generalizing rows with
  | nil =>
    cases h
    exact ⟨[], rfl, by simp, by simp⟩
  | cons child children ih =>
    obtain ⟨exit, middle, rfl, henter, hrest⟩ := foldlM_cons_eq_ok h
    obtain ⟨ts, rfl, hperm, htargets⟩ := ih hrest
    refine ⟨exit :: ts, rfl, ?_, ?_⟩
    · refine hperm.trans ?_
      have := (perm_of_enter henter).append_right ts
      rwa [List.append_assoc] at this
    · have hmiddle : middle.map (fun row => f row.target) =
          (middle.map (·.target)).map f := by rw [List.map_map]; rfl
      have hrows : rows.map (fun row => f row.target) =
          (rows.map (·.target)).map f := by rw [List.map_map]; rfl
      -- a target that is met again changes nothing, a new one comes last
      rw [htargets, hmiddle, map_target_of_enter henter, hrows, List.map_cons]
      split
      · rename_i hmem
        exact (eraseDups_append_cons_of_mem (List.mem_map_of_mem hmem) _).symm
      · rw [List.map_append, List.append_assoc]
        rfl

/-- The options decide whether there is a table, not what it says. -/
theorem ofChildren_eq_ok_iff {o : Options} {children : List (UInt8 × Bool × Trie)}
    {rows : List Row} :
    ofChildren o children = .ok rows ↔
      o.minimumSize ≤ children.length ∧ children.foldlM enterChild [] = .ok rows ∧
        o.fits rows.length = true := by
  rw [ofChildren]
  by_cases hlength : children.length < o.minimumSize
  · rw [if_pos hlength]
    constructor
    · intro h
      cases h
    · exact fun h => absurd h.1 (Nat.not_le.mpr hlength)
  · rw [if_neg hlength]
    cases hrows : children.foldlM enterChild [] with
    | error e =>
      constructor
      · intro h
        cases h
      · rintro ⟨-, h, -⟩
        cases h
    | ok found =>
      show (if o.fits found.length then Except.ok found
        else Except.error (Rejection.tooManyTargets found.length)) = .ok rows ↔ _
      by_cases hfits : o.fits found.length = true
      · rw [if_pos hfits]
        constructor
        · intro h
          obtain rfl := Except.ok.inj h
          exact ⟨Nat.not_lt.mp hlength, rfl, hfits⟩
        · exact fun h => h.2.1
      · rw [if_neg hfits]
        constructor
        · intro h
          cases h
        · rintro ⟨-, h, hfits'⟩
          obtain rfl := Except.ok.inj h
          exact absurd hfits' hfits

theorem foldlM_of_ofChildren {o : Options} {children : List (UInt8 × Bool × Trie)}
    {rows : List Row} (h : ofChildren o children = .ok rows) :
    children.foldlM enterChild [] = .ok rows :=
  (ofChildren_eq_ok_iff.mp h).2.1

theorem ofChildren_unique {o o' : Options} {children : List (UInt8 × Bool × Trie)}
    {rows rows' : List Row} (h : ofChildren o children = .ok rows)
    (h' : ofChildren o' children = .ok rows') : rows = rows' :=
  Except.ok.inj ((foldlM_of_ofChildren h).symm.trans (foldlM_of_ofChildren h'))

/-- **What a table says** is what the children say. -/
theorem exists_of_ofChildren (f : Nat → Nat) {o : Options} {children : List (UInt8 × Bool × Trie)}
    {rows : List Row} (h : ofChildren o children = .ok rows) :
    ∃ ts : List Exit, children = ts.map Exit.child ∧ (exits rows).Perm ts ∧
      (rows.map fun row => f row.target).eraseDups = (ts.map fun exit => f exit.2.2).eraseDups :=
  exists_of_foldlM f (foldlM_of_ofChildren h)

/-- Every row leads where a child leads. -/
theorem exists_child_of_mem {o : Options} {children : List (UInt8 × Bool × Trie)} {rows : List Row}
    (h : ofChildren o children = .ok rows) {row : Row} (hrow : row ∈ rows) :
    ∃ byte stay, (byte, stay, Trie.leaf ⟨row.target, none⟩) ∈ children := by
  obtain ⟨ts, rfl, -, horder⟩ := exists_of_ofChildren (fun target => target) h
  have htarget : row.target ∈ ts.map fun exit => exit.2.2 := by
    rw [← List.mem_eraseDups, ← horder, List.mem_eraseDups]
    exact List.mem_map_of_mem hrow
  obtain ⟨exit, hexit, heq⟩ := List.mem_map.mp htarget
  exact ⟨exit.1, exit.2.1, heq ▸ List.mem_map_of_mem hexit⟩

/-- A branch with children has a table with rows. -/
theorem ne_nil_of_ofChildren {o : Options} {children : List (UInt8 × Bool × Trie)} {rows : List Row}
    (h : ofChildren o children = .ok rows) (hne : children ≠ []) : rows ≠ [] := by
  obtain ⟨ts, rfl, hperm, -⟩ := exists_of_ofChildren id h
  rintro rfl
  have hnil : ts = [] := hperm.symm.eq_nil
  rw [hnil] at hne
  exact hne rfl

/-! ## The order of rows -/

/-- The keys of one row come before those of another: none is shared, and the first of them is
smaller. -/
def Precedes (keys keys' : List UInt8) : Prop :=
  List.Disjoint keys keys' ∧ ∀ k ∈ keys.head?, ∀ k' ∈ keys'.head?, k < k'

/-- **The keys of the rows of a table in order**: every row has keys, which ascend, and the
rows share none and stand in the order of their first keys. -/
structure Arranged (rows : List (List UInt8)) : Prop where
  row : ∀ keys ∈ rows, keys ≠ [] ∧ keys.Pairwise (· < ·)
  order : rows.Pairwise Precedes

section Arranged
variable {byte : UInt8} {keys keys' : List UInt8}

theorem not_mem_of_below (hbelow : ∀ k ∈ keys, k < byte) : byte ∉ keys := fun hmem =>
  UInt8.lt_irrefl _ (hbelow byte hmem)

theorem precedes_singleton (hbelow : ∀ k ∈ keys, k < byte) : Precedes keys [byte] := by
  refine ⟨List.disjoint_singleton.mpr (not_mem_of_below hbelow), ?_⟩
  intro k hk k' hk'
  rw [← Option.some.inj hk']
  exact hbelow k (List.mem_of_mem_head? hk)

/-- A byte at the end of the second row. -/
theorem Precedes.extend_right (h : Precedes keys keys') (hne : keys' ≠ [])
    (hbelow : ∀ k ∈ keys, k < byte) : Precedes keys (keys' ++ [byte]) := by
  rw [Precedes, List.head?_append_of_ne_nil _ hne, List.disjoint_append_right]
  exact ⟨⟨h.1, (precedes_singleton hbelow).1⟩, h.2⟩

/-- A byte at the end of the first row. -/
theorem Precedes.extend_left (h : Precedes keys keys') (hne : keys ≠ [])
    (hbelow : ∀ k ∈ keys', k < byte) : Precedes (keys ++ [byte]) keys' := by
  rw [Precedes, List.head?_append_of_ne_nil _ hne, List.disjoint_append_left]
  exact ⟨⟨h.1, List.singleton_disjoint.mpr (not_mem_of_below hbelow)⟩, h.2⟩

/-- A new last row for a byte above all others. -/
theorem Arranged.append {rows : List (List UInt8)} (h : Arranged rows)
    (hbelow : ∀ keys ∈ rows, ∀ k ∈ keys, k < byte) : Arranged (rows ++ [[byte]]) := by
  refine ⟨fun keys hkeys => ?_, ?_⟩
  · rcases List.mem_append.mp hkeys with hkeys | hkeys
    · exact h.row keys hkeys
    · rw [List.mem_singleton.mp hkeys]
      exact ⟨List.cons_ne_nil _ _, List.pairwise_singleton _ _⟩
  · rw [List.pairwise_append]
    refine ⟨h.order, List.pairwise_singleton _ _, fun keys hkeys keys' hkeys' => ?_⟩
    rw [List.mem_singleton.mp hkeys']
    exact precedes_singleton (hbelow keys hkeys)

/-- A byte above all others at the end of a row. -/
theorem Arranged.extend {before after : List (List UInt8)}
    (h : Arranged (before ++ keys :: after))
    (hbelow : ∀ row ∈ before ++ keys :: after, ∀ k ∈ row, k < byte) :
    Arranged (before ++ (keys ++ [byte]) :: after) := by
  obtain ⟨hrow, horder⟩ := h
  simp only [List.forall_mem_append, List.forall_mem_cons] at hrow hbelow
  obtain ⟨hbeforeRow, ⟨hne, hascending⟩, hafterRow⟩ := hrow
  obtain ⟨hbefore, hkeys, hafter⟩ := hbelow
  rw [List.pairwise_append, List.pairwise_cons] at horder
  obtain ⟨hfront, ⟨hmiddle, hback⟩, hcross⟩ := horder
  refine ⟨?_, ?_⟩
  · simp only [List.forall_mem_append, List.forall_mem_cons]
    refine ⟨hbeforeRow, ⟨List.append_ne_nil_of_left_ne_nil hne _, ?_⟩, hafterRow⟩
    rw [List.pairwise_append]
    refine ⟨hascending, List.pairwise_singleton _ _, fun k hk k' hk' => ?_⟩
    rw [List.mem_singleton.mp hk']
    exact hkeys k hk
  · rw [List.pairwise_append, List.pairwise_cons]
    refine ⟨hfront, ⟨fun row hmem => ?_, hback⟩, fun row hmem row' hmem' => ?_⟩
    · exact (hmiddle row hmem).extend_left hne (hafter row hmem)
    · rcases List.mem_cons.mp hmem' with rfl | hmem'
      · exact (hcross row hmem keys List.mem_cons_self).extend_right hne (hbefore row hmem)
      · exact hcross row hmem row' (List.mem_cons_of_mem _ hmem')

/-- **Entering a byte above all others** keeps the rows in order, and leaves no key above
it. -/
theorem arranged_of_enter {stay : Bool} {target : Nat} {rows rows' : List Row}
    (h : enter byte stay target rows = .ok rows') (harranged : Arranged (rows.map (·.keys)))
    (hbelow : ∀ row ∈ rows, ∀ k ∈ row.keys, k < byte) :
    Arranged (rows'.map (·.keys)) ∧ ∀ row ∈ rows', ∀ k ∈ row.keys, k ≤ byte := by
  have hbelow' : ∀ keys ∈ rows.map (·.keys), ∀ k ∈ keys, k < byte := by
    intro keys hkeys
    obtain ⟨row, hrow, rfl⟩ := List.mem_map.mp hkeys
    exact hbelow row hrow
  refine ⟨?_, fun row hrow k hk => ?_⟩
  · rcases enter_cases h with ⟨before, row, after, rfl, -, -, rfl⟩ | ⟨-, rfl⟩
    · rw [List.map_append, List.map_cons] at harranged hbelow' ⊢
      exact harranged.extend hbelow'
    · rw [List.map_append]
      exact harranged.append hbelow'
  · have hexit : (k, row.stay, row.target) ∈ exits rows' :=
      List.mem_flatMap.mpr ⟨row, hrow, List.mem_map.mpr ⟨k, hk, rfl⟩⟩
    rcases List.mem_append.mp ((perm_of_enter h).mem_iff.mp hexit) with hold | hnew
    · obtain ⟨old, hmem, hkeys⟩ := List.mem_flatMap.mp hold
      obtain ⟨k', hk', heq⟩ := List.mem_map.mp hkeys
      obtain rfl : k' = k := congrArg Prod.fst heq
      exact UInt8.le_of_lt (hbelow old hmem k' hk')
    · have heq : k = byte := congrArg Prod.fst (List.mem_singleton.mp hnew)
      rw [heq]
      exact UInt8.le_refl _

theorem arranged_of_foldlM {children : List (UInt8 × Bool × Trie)} {rows rows' : List Row}
    (h : children.foldlM enterChild rows = .ok rows')
    (hbytes : (children.map (·.1)).Pairwise (· < ·)) (harranged : Arranged (rows.map (·.keys)))
    (hbelow : ∀ row ∈ rows, ∀ k ∈ row.keys, ∀ child ∈ children, k < child.1) :
    Arranged (rows'.map (·.keys)) := by
  induction children generalizing rows with
  | nil =>
    cases h
    exact harranged
  | cons child children ih =>
    obtain ⟨exit, middle, rfl, henter, hrest⟩ := foldlM_cons_eq_ok h
    rw [List.map_cons, List.pairwise_cons] at hbytes
    obtain ⟨harranged', hle⟩ := arranged_of_enter henter harranged fun row hrow k hk =>
      hbelow row hrow k hk _ List.mem_cons_self
    refine ih hrest hbytes.2 harranged' fun row hrow k hk child hmem => ?_
    -- the bytes still to come are above the one that was entered
    exact UInt8.lt_of_le_of_lt (hle row hrow k hk) (hbytes.1 _ (List.mem_map_of_mem hmem))

/-- **The rows of a table are in order** when the bytes of the children ascend. -/
theorem arranged_of_ofChildren {o : Options} {children : List (UInt8 × Bool × Trie)}
    {rows : List Row} (h : ofChildren o children = .ok rows)
    (hbytes : (children.map (·.1)).Pairwise (· < ·)) : Arranged (rows.map (·.keys)) :=
  arranged_of_foldlM (foldlM_of_ofChildren h) hbytes
    ⟨fun _ h => absurd h List.not_mem_nil, List.Pairwise.nil⟩
    fun _ h => absurd h List.not_mem_nil

end Arranged

end ByteMachine.Table

/-! ## Tables of a machine -/

namespace ByteMachine.Machine

/-- The edges of a table, one for each byte, row by row. -/
def tableEdges (rows : List TableEdge) : List ByteEdge :=
  rows.flatMap fun row => row.keys.map fun key => ⟨key, row.stay, row.target, none⟩

/-- **A table says what the edges of a branch say.**  Sorted by byte, its edges are those of
the branch, none of which passes a value on (`Tabulates.value_eq_none`), and its rows stand
in the order in which the targets are first met. -/
structure Tabulates (rows : List TableEdge) (edges : List ByteEdge) : Prop where
  sorted : (tableEdges rows).mergeSort (fun e f => e.key ≤ f.key) = edges
  ascending : edges.Pairwise fun e f => e.key < f.key
  order : (rows.map (·.target)).eraseDups = (edges.map (·.target)).eraseDups

section Tabulates
variable {rows : List TableEdge} {edges : List ByteEdge}

/-- Edges that ascend can be sorted in one way only. -/
theorem mergeSort_eq_of_perm {xs : List ByteEdge} (hperm : xs.Perm edges)
    (hascending : edges.Pairwise fun e f => e.key < f.key) :
    xs.mergeSort (fun e f => e.key ≤ f.key) = edges := by
  have hsorted : (xs.mergeSort fun e f => e.key ≤ f.key).Pairwise fun e f => e.key ≤ f.key := by
    have := @List.pairwise_mergeSort ByteEdge (fun e f => decide (e.key ≤ f.key))
      (by simpa using fun a b c => UInt8.le_trans) (by simpa using fun a b => UInt8.le_total _ _) xs
    simpa using this
  have hdistinct : (edges.map (·.key)).Nodup :=
    List.pairwise_map.mpr (hascending.imp fun hlt => UInt8.ne_of_lt hlt)
  refine List.Perm.eq_of_pairwise ?_ hsorted (hascending.imp fun hlt => UInt8.le_of_lt hlt)
    ((List.mergeSort_perm _ _).trans hperm)
  intro e f he hf hef hfe
  have he' := hperm.mem_iff.mp ((List.mergeSort_perm _ _).mem_iff.mp he)
  exact List.inj_on_of_nodup_map hdistinct he' hf (UInt8.le_antisymm hef hfe)

theorem tabulates_of_perm (hperm : (tableEdges rows).Perm edges)
    (hascending : edges.Pairwise fun e f => e.key < f.key)
    (horder : (rows.map (·.target)).eraseDups = (edges.map (·.target)).eraseDups) :
    Tabulates rows edges :=
  ⟨mergeSort_eq_of_perm hperm hascending, hascending, horder⟩

theorem Tabulates.perm (h : Tabulates rows edges) : (tableEdges rows).Perm edges := by
  have := List.mergeSort_perm (tableEdges rows) fun e f => e.key ≤ f.key
  rw [h.sorted] at this
  exact this.symm

/-- A table passes no value on. -/
theorem Tabulates.value_eq_none (h : Tabulates rows edges) {e : ByteEdge} (he : e ∈ edges) :
    e.value = none := by
  obtain ⟨row, -, he⟩ := List.mem_flatMap.mp (h.perm.mem_iff.mpr he)
  obtain ⟨key, -, rfl⟩ := List.mem_map.mp he
  rfl

/-- Looking a byte up in a table. -/
theorem find?_tableEdges (rows : List TableEdge) (byte : UInt8) :
    (tableEdges rows).find? (·.key = byte) =
      (rows.find? (byte ∈ ·.keys)).map fun row => ⟨byte, row.stay, row.target, none⟩ := by
  induction rows with
  | nil => rfl
  | cons row rows ih =>
    show (_ ++ tableEdges rows).find? _ = _
    rw [List.find?_append, List.find?_map]
    by_cases hmem : byte ∈ row.keys
    · have hfind : row.keys.find? (· = byte) = some byte := by
        cases hfound : row.keys.find? (· = byte) with
        | none => simpa using List.find?_eq_none.mp hfound byte hmem
        | some key =>
          have := List.find?_some hfound
          simp only [decide_eq_true_eq] at this
          rw [this]
      rw [List.find?_cons_of_pos (by simpa using hmem)]
      simp only [Function.comp_def]
      rw [hfind]
      rfl
    · have hfind : row.keys.find? (· = byte) = none := by
        refine List.find?_eq_none.mpr fun key hkey => ?_
        simp only [decide_eq_true_eq]
        rintro rfl
        exact hmem hkey
      rw [List.find?_cons_of_neg (by simpa using hmem)]
      simp only [Function.comp_def]
      rw [hfind, ← ih]
      rfl

/-- **A table leads where the branch leads.** -/
theorem Tabulates.find? (h : Tabulates rows edges) (byte : UInt8) :
    edges.find? (·.key = byte) =
      (rows.find? (byte ∈ ·.keys)).map fun row => ⟨byte, row.stay, row.target, none⟩ := by
  have hdistinct : (edges.map (·.key)).Nodup :=
    List.pairwise_map.mpr (h.ascending.imp fun hlt => UInt8.ne_of_lt hlt)
  rw [← find?_tableEdges]
  cases hedge : edges.find? (·.key = byte) with
  | none =>
    refine (List.find?_eq_none.mpr fun e he => ?_).symm
    exact List.find?_eq_none.mp hedge e (h.perm.mem_iff.mp he)
  | some e =>
    have he := List.mem_of_find?_eq_some hedge
    have hkey : e.key = byte := by simpa using List.find?_some hedge
    cases hrow : (tableEdges rows).find? (·.key = byte) with
    | none =>
      have := List.find?_eq_none.mp hrow e (h.perm.mem_iff.mpr he)
      simp [hkey] at this
    | some f =>
      have hf := h.perm.mem_iff.mp (List.mem_of_find?_eq_some hrow)
      have hkey' : f.key = byte := by simpa using List.find?_some hrow
      rw [List.inj_on_of_nodup_map hdistinct he hf (hkey.trans hkey'.symm)]

end Tabulates

end ByteMachine.Machine
