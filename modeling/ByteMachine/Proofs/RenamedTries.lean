import ByteMachine.Proofs.Renaming
import ByteMachine.Proofs.TrieReading
import ByteMachine.Table

/-! # Tries with renamed targets

A trie is built by looking at the keys of entries and at whether they leave their last byte.
Their targets are compared only to drop repetitions, and are otherwise put into the leaves as
they are.  So an injective renaming of targets can be applied before or after
(`ofEntries_map`).  The same holds of the table of a branch, which compares targets to find
the row of a byte (`Table.ofChildren_map`). -/
namespace ByteMachine

/-- The leaf with its target renamed. -/
def Leaf.mapTarget (f : Nat → Nat) (l : Leaf) : Leaf := { l with target := f l.target }

namespace Trie

/-- The entry with its target renamed. -/
def Entry.mapTarget (f : Nat → Nat) (e : Entry) : Entry := { e with target := f e.target }

theorem Entry.mapTarget_injective {f : Nat → Nat} (hf : Function.Injective f) :
    Function.Injective (Entry.mapTarget f) := by
  rintro ⟨key, stay, target, value⟩ ⟨key', stay', target', value'⟩ h
  simp only [mapTarget, Entry.mk.injEq] at h
  obtain ⟨rfl, rfl, htarget, rfl⟩ := h
  rw [hf htarget]

mutual

/-- The trie with the targets of its leaves renamed. -/
def mapTargets (f : Nat → Nat) : Trie → Trie
  | .leaf l => .leaf (l.mapTarget f)
  | .branch children stop => .branch (mapTargetsAll f children) (stop.map (Leaf.mapTarget f))
  | .run bytes next => .run bytes (mapTargets f next)

/-- The children with the targets of their leaves renamed. -/
def mapTargetsAll (f : Nat → Nat) : List (UInt8 × Bool × Trie) → List (UInt8 × Bool × Trie)
  | [] => []
  | (byte, stay, child) :: rest => (byte, stay, mapTargets f child) :: mapTargetsAll f rest

end

/-- A child of a branch with the targets of its leaves renamed. -/
def mapChild (f : Nat → Nat) (child : UInt8 × Bool × Trie) : UInt8 × Bool × Trie :=
  (child.1, child.2.1, child.2.2.mapTargets f)

theorem mapTargetsAll_eq_map (f : Nat → Nat) (children : List (UInt8 × Bool × Trie)) :
    mapTargetsAll f children = children.map (mapChild f) := by
  induction children with
  | nil => rfl
  | cons child rest ih =>
    obtain ⟨byte, stay, child⟩ := child
    rw [mapTargetsAll, ih, List.map_cons, mapChild]

theorem mapTargets_branch (f : Nat → Nat) (children : List (UInt8 × Bool × Trie))
    (stop : Option Leaf) :
    (branch children stop).mapTargets f =
      .branch (children.map (mapChild f)) (stop.map (Leaf.mapTarget f)) := by
  rw [mapTargets, mapTargetsAll_eq_map]

theorem value_mapTargets (f : Nat → Nat) (t : Trie) : (t.mapTargets f).value = t.value := by
  cases t <;> rw [mapTargets] <;> rfl

/-- The parts of a trie keep their paths. -/
theorem inner_mapTargets (f : Nat → Nat) (t : Trie) (path : List UInt8) :
    (t.mapTargets f).inner path = (t.inner path).map fun part => (part.1, part.2.mapTargets f) := by
  induction t using Trie.induct generalizing path with
  | leaf l => rw [mapTargets, inner, inner, List.map_nil]
  | branch children stop ih =>
    rw [mapTargets_branch, inner, inner, List.map_cons, mapTargets_branch, innerOf_eq_flatMap,
      innerOf_eq_flatMap, List.flatMap_map, List.map_flatMap]
    congr 1
    exact List.flatMap_congr fun child hchild => ih child hchild _
  | run bytes next ih => rw [mapTargets, inner, inner, List.map_cons, mapTargets, ih]

/-! ## Building -/

section Build
variable {f : Nat → Nat}

/-- Renamed entries are repeated where the entries were: the renaming is injective. -/
theorem eraseReps_map (hf : Function.Injective f) (entries : List Entry) :
    (entries.map (Entry.mapTarget f)).eraseReps =
      entries.eraseReps.map (Entry.mapTarget f) := by
  match entries with
  | [] => rfl
  | [a] => rfl
  | a :: b :: rest =>
    have hsame : a.mapTarget f = b.mapTarget f ↔ a = b := (Entry.mapTarget_injective hf).eq_iff
    rw [List.map_cons, List.map_cons, eraseReps_cons_cons, eraseReps_cons_cons]
    by_cases hab : a = b
    · rw [if_pos hab, if_pos (hsame.mpr hab), ← List.map_cons, eraseReps_map hf (a :: rest)]
    · rw [if_neg hab, if_neg fun h => hab (hsame.mp h), ← List.map_cons,
        eraseReps_map hf (b :: rest), List.map_cons]
termination_by entries.length

/-- The order of entries does not depend on their targets. -/
theorem arrange_map (hf : Function.Injective f) (entries : List Entry) :
    arrange (entries.map (Entry.mapTarget f)) = (arrange entries).map (Entry.mapTarget f) := by
  have hsort : (entries.mergeSort fun a b => a.key ≤ b.key).map (Entry.mapTarget f) =
      (entries.map (Entry.mapTarget f)).mergeSort fun a b => a.key ≤ b.key :=
    List.map_mergeSort fun _ _ _ _ => rfl
  rw [arrange, arrange, ← hsort, eraseReps_map hf]

variable (f) (entries : List Entry)

theorem shared_map : shared (entries.map (Entry.mapTarget f)) = shared entries := by
  rw [shared, shared, List.head?_map, List.getLast?_map]
  cases entries.head? <;> cases entries.getLast? <;> rfl

/-- Whether and where a level ends depends on keys only, errors included. -/
theorem stop_map (path : List UInt8) :
    stop path (entries.map (Entry.mapTarget f)) =
      Option.map (Leaf.mapTarget f) <$> stop path entries := by
  cases entries with
  | nil => rfl
  | cons e rest =>
    obtain ⟨key, stay, target, value⟩ := e
    cases key with
    | cons byte key => rfl
    | nil =>
      by_cases hpath : path = []
      · simp [stop, hpath, Entry.mapTarget]
      · -- a second key without bytes is told by the key alone
        cases rest with
        | nil => simp [stop, hpath, Entry.mapTarget, Leaf.mapTarget]
        | cons e' rest =>
          obtain ⟨key', stay', target', value'⟩ := e'
          cases key' <;> simp [stop, hpath, Entry.mapTarget, Leaf.mapTarget]

/-- Entries are grouped by bytes, whatever their targets. -/
theorem groups_map :
    groups (entries.map (Entry.mapTarget f)) =
      (groups entries).map fun part => (part.1, part.2.map (Entry.mapTarget f)) := by
  induction entries with
  | nil => rfl
  | cons e rest ih =>
    obtain ⟨key, stay, target, value⟩ := e
    rw [List.map_cons, Entry.mapTarget]
    cases key with
    | nil => exact ih
    | cons byte key =>
      rw [groups, groups]
      dsimp only
      rw [ih]
      cases groups rest with
      | nil => rfl
      | cons part more =>
        obtain ⟨other, group⟩ := part
        rw [List.map_cons]
        dsimp only
        split <;> rfl

theorem stay?_map : stay? (entries.map (Entry.mapTarget f)) = stay? entries := by
  cases entries with
  | nil => rfl
  | cons e rest =>
    rw [List.map_cons, stay?, stay?, List.all_map]
    rfl

theorem any_stay_map : (entries.map (Entry.mapTarget f)).any (·.stay) = entries.any (·.stay) := by
  rw [List.any_map]
  rfl

/-- Renaming before and behind each step of a list renames the whole, errors included. -/
theorem mapM_map_except {ε α β γ δ : Type} {p : α → Except ε β} {q : γ → Except ε δ} {u : α → γ}
    {v : β → δ} (h : ∀ a, q (u a) = v <$> p a) (xs : List α) :
    (xs.map u).mapM q = List.map v <$> xs.mapM p := by
  induction xs with
  | nil => rfl
  | cons x xs ih =>
    rw [List.map_cons, List.mapM_cons, List.mapM_cons, h, ih]
    cases p x with
    | error e => rfl
    | ok y => cases xs.mapM p <;> rfl

/-- **Each level is built without looking at targets.** -/
theorem level_map (bound : Nat) (path : List UInt8) :
    level bound path (entries.map (Entry.mapTarget f)) =
      mapTargets f <$> level bound path entries := by
  induction bound generalizing path entries with
  | zero =>
    rw [level, level, stop_map]
    cases stop path entries with
    | error e => rfl
    | ok ending => cases ending <;> rfl
  | succ bound ih =>
    by_cases hshared : 1 < (shared entries).length
    · have hshared' : 1 < (shared (entries.map (Entry.mapTarget f))).length := by
        rwa [shared_map]
      rw [level_of_shared hshared, level_of_shared hshared', shared_map, any_stay_map]
      split
      · rfl
      · have hdrop : (entries.map (Entry.mapTarget f)).map (·.drop (shared entries).length) =
            (entries.map (·.drop (shared entries).length)).map (Entry.mapTarget f) := by
          rw [List.map_map, List.map_map]
          rfl
        rw [hdrop, ih]
        cases level bound (path ++ shared entries) _ <;> rfl
    · have hshared' : ¬ 1 < (shared (entries.map (Entry.mapTarget f))).length := by
        rwa [shared_map]
      have hstop' := stop_map f entries path
      cases hstop : stop path entries with
      | error e =>
        rw [hstop] at hstop'
        rw [level_of_stop_error hshared hstop, level_of_stop_error hshared' hstop']
        rfl
      | ok ending =>
        rw [hstop] at hstop'
        have hgroups' := groups_map f entries
        by_cases hgroups : groups entries = []
        · rw [hgroups] at hgroups'
          cases ending with
          | some l =>
            rw [level_of_groups_nil hshared hstop hgroups,
              level_of_groups_nil hshared' hstop' hgroups']
            rfl
          | none =>
            rw [level, level, if_neg hshared, if_neg hshared', hstop, hstop', hgroups, hgroups']
            rfl
        · have hne : groups (entries.map (Entry.mapTarget f)) ≠ [] := by
            rw [hgroups']
            simpa using hgroups
          have hchild : ∀ part : UInt8 × List Entry,
              groupChild bound path (part.1, part.2.map (Entry.mapTarget f)) =
                mapChild f <$> groupChild bound path part := by
            intro part
            rw [groupChild, groupChild, stay?_map]
            cases stay? part.2 with
            | none => rfl
            | some stay =>
              dsimp only
              rw [ih]
              cases level bound (path ++ [part.1]) part.2 <;> rfl
          rw [level_of_groups hshared hstop hgroups, level_of_groups hshared' hstop' hne, hgroups',
            mapM_map_except hchild]
          cases (groups entries).mapM (groupChild bound path) with
          | error e => rfl
          | ok children => exact congrArg Except.ok (mapTargets_branch f children ending).symm

theorem longest_map : longest (entries.map (Entry.mapTarget f)) = longest entries := by
  rw [longest, longest, List.foldr_map]
  rfl

end Build

/-- **The trie of entries with renamed targets.** -/
theorem ofEntries_map {f : Nat → Nat} (hf : Function.Injective f) (entries : List Entry) :
    ofEntries (entries.map (Entry.mapTarget f)) =
      Option.map (mapTargets f) <$> ofEntries entries := by
  rw [ofEntries, ofEntries, longest_map, arrange_map hf, level_map]
  by_cases hnil : entries = []
  · rw [if_pos hnil, if_pos (by rw [hnil]; rfl)]
    rfl
  · rw [if_neg hnil, if_neg (by simpa using hnil)]
    cases level (longest entries) [] (arrange entries) <;> rfl

end Trie

/-! ## Tables -/

namespace Table

/-- The row with its target renamed. -/
def Row.mapTarget (f : Nat → Nat) (row : Row) : Row := { row with target := f row.target }

section
variable {f : Nat → Nat} (hf : Function.Injective f)
include hf

theorem enter_map (byte : UInt8) (stay : Bool) (target : Nat) (rows : List Row) :
    enter byte stay (f target) (rows.map (Row.mapTarget f)) =
      List.map (Row.mapTarget f) <$> enter byte stay target rows := by
  induction rows with
  | nil => rfl
  | cons row rows ih =>
    have hsame : (row.mapTarget f).target = f target ↔ row.target = target := hf.eq_iff
    rw [List.map_cons, enter, enter]
    by_cases htarget : row.target = target
    · rw [if_pos htarget, if_pos (hsame.mpr htarget)]
      show (if row.stay = stay then _ else _) = _
      split <;> rfl
    · rw [if_neg htarget, if_neg fun h => htarget (hsame.mp h), ih]
      cases enter byte stay target rows <;> rfl

theorem enterChild_map (rows : List Row) (child : UInt8 × Bool × Trie) :
    enterChild (rows.map (Row.mapTarget f)) (Trie.mapChild f child) =
      List.map (Row.mapTarget f) <$> enterChild rows child := by
  obtain ⟨byte, stay, child⟩ := child
  cases child with
  | leaf l =>
    obtain ⟨target, value⟩ := l
    cases value with
    | none => exact enter_map hf byte stay target rows
    | some v => rfl
  | branch children stop => rfl
  | run bytes next => rfl

/-- **The table of a branch with renamed targets.** -/
theorem ofChildren_map (o : Options) (children : List (UInt8 × Bool × Trie)) :
    ofChildren o (children.map (Trie.mapChild f)) =
      List.map (Row.mapTarget f) <$> ofChildren o children := by
  have hfold : ∀ rows : List Row,
      (children.map (Trie.mapChild f)).foldlM enterChild (rows.map (Row.mapTarget f)) =
        List.map (Row.mapTarget f) <$> children.foldlM enterChild rows := by
    induction children with
    | nil => exact fun rows => rfl
    | cons child children ih =>
      intro rows
      rw [List.map_cons, List.foldlM_cons, List.foldlM_cons, enterChild_map hf]
      cases enterChild rows child with
      | error e => rfl
      | ok rows => exact ih rows
  have hrows := hfold []
  rw [List.map_nil] at hrows
  rw [ofChildren, ofChildren, List.length_map, hrows]
  split
  · rfl
  · cases children.foldlM enterChild [] with
    | error e => rfl
    | ok rows =>
      show (if o.fits (rows.map (Row.mapTarget f)).length = true then _ else _) = _
      rw [List.length_map]
      show _ = List.map (Row.mapTarget f) <$> (if o.fits rows.length = true then _ else _)
      split <;> rfl

end

end Table

/-! ## The tries of nodes that correspond -/

namespace Blueprint.Node

section
variable {b b' : Blueprint} {f g : Nat → Nat} {node node' : Node}
variable (h : node.Renamed b b' f g node')
include h

theorem Renamed.entries : node'.entries = node.entries.map (Trie.Entry.mapTarget f) := by
  rw [Node.entries, h.edges, List.filterMap_map, Node.entries, List.map_filterMap]
  refine List.filterMap_congr fun e _ => ?_
  obtain ⟨key, stay, target, value⟩ := e
  cases key <;> rfl

/-- **A renamed node has the renamed trie**, or the same error. -/
theorem Renamed.trie (hf : Function.Injective f) :
    node'.trie = Option.map (Trie.mapTargets f) <$> node.trie := by
  have hentries := h.entries
  obtain ⟨name, kind, edges, otherwise⟩ := node
  obtain ⟨name', kind', edges', otherwise'⟩ := node'
  have hkind : Kind.Renamed g kind kind' := h.kind
  rw [Node.trie, Node.trie, hentries, Trie.ofEntries_map hf]
  cases hkind <;> rfl

end

end Blueprint.Node

end ByteMachine
