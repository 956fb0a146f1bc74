import ByteMachine.Trie
import Mathlib.Data.List.Forall2

/-! # Sorted entries

The trie of some entries is built from the entries in order of their keys.  This module
says what the steps of that construction do to sorted entries: what the first and the
last key share all keys share (`shared_begins`), grouping by the first byte loses
nothing and yields ascending bytes (`ungroup_groups`, `ascending_groups`), and the key
with no bytes left comes first (`stop_ok_none`, `stop_ok_some`).

`Built.induct` puts this together: whatever is built level by level is a leaf for one
entry, a run in front of entries, or a branch over groups of entries. -/
namespace ByteMachine.Trie

/-- Sorted by key. -/
def Ordered (entries : List Entry) : Prop := entries.Pairwise fun a b => a.key ≤ b.key

/-- The entry for the key with some bytes in front. -/
def Entry.under (bytes : List UInt8) (e : Entry) : Entry := { e with key := bytes ++ e.key }

/-- Where the entry leads. -/
def Entry.leaf (e : Entry) : Leaf := ⟨e.target, e.value⟩

/-- The entries of groups, with the bytes of the groups in front. -/
def ungroup (parts : List (UInt8 × List Entry)) : List Entry :=
  parts.flatMap fun (byte, group) => group.map (Entry.under [byte])

/-! ## Putting entries in order -/

section Arrange

theorem eraseReps_cons_cons (a b : Entry) (l : List Entry) :
    (a :: b :: l).eraseReps = if a = b then (a :: l).eraseReps else a :: (b :: l).eraseReps := by
  have hacc : ∀ (l : List Entry) (a : Entry) (acc : List Entry),
      List.eraseRepsBy.loop (· == ·) a l acc =
        acc.reverse ++ List.eraseRepsBy.loop (· == ·) a l [] := by
    intro l
    induction l with
    | nil => intro a acc; simp [List.eraseRepsBy.loop]
    | cons b l ih =>
      intro a acc
      simp only [List.eraseRepsBy.loop]
      split
      · exact ih a acc
      · rw [ih b (a :: acc), ih b [a]]
        simp
  show List.eraseRepsBy.loop (· == ·) a (b :: l) [] = _
  rw [List.eraseRepsBy.loop]
  by_cases h : a = b
  · simp only [h, beq_self_eq_true, if_true]
    rfl
  · simp only [h, if_false]
    rw [beq_false_of_ne h]
    exact hacc l b [a]

theorem eraseReps_sublist (l : List Entry) : l.eraseReps.Sublist l := by
  match l with
  | [] => exact List.Sublist.slnil
  | [a] => exact List.Sublist.refl _
  | a :: b :: l =>
    rw [eraseReps_cons_cons]
    split
    · exact (eraseReps_sublist (a :: l)).trans ((List.sublist_cons_self b l).cons_cons a)
    · exact (eraseReps_sublist (b :: l)).cons_cons a
termination_by l.length

theorem mem_eraseReps {e : Entry} (l : List Entry) : e ∈ l.eraseReps ↔ e ∈ l := by
  match l with
  | [] => exact Iff.rfl
  | [a] => exact Iff.rfl
  | a :: b :: l =>
    rw [eraseReps_cons_cons]
    split
    · rename_i hab
      rw [mem_eraseReps (a :: l)]
      simp [hab]
    · rw [List.mem_cons, mem_eraseReps (b :: l), ← List.mem_cons]
termination_by l.length

/-- Arranging entries loses none and adds none. -/
theorem mem_arrange {e : Entry} {entries : List Entry} : e ∈ arrange entries ↔ e ∈ entries := by
  rw [arrange, mem_eraseReps, List.mem_mergeSort]

theorem ordered_arrange (entries : List Entry) : Ordered (arrange entries) := by
  refine List.Pairwise.sublist (eraseReps_sublist _) ?_
  refine (List.pairwise_mergeSort ?_ ?_ entries).imp of_decide_eq_true
  · intro a b c hab hbc
    exact decide_eq_true (List.le_trans (of_decide_eq_true hab) (of_decide_eq_true hbc))
  · intro a b
    simpa using List.le_total a.key b.key

end Arrange

/-! ## Common beginnings -/

/-- What the bounds of an interval share, all in between share. -/
theorem common_prefix_between {a b k : List UInt8} (hak : a ≤ k) (hkb : k ≤ b) :
    common a b <+: k := by
  fun_induction common a b generalizing k with
  | case1 as x bs ih =>
    cases k with
    | nil => exact absurd hak (by simp)
    | cons z ks =>
      rw [List.cons_le_cons_iff] at hak hkb
      rcases hak with hxz | ⟨rfl, hak⟩
      · rcases hkb with hzx | ⟨rfl, -⟩
        · exact absurd (UInt8.lt_trans hxz hzx) (UInt8.lt_irrefl x)
        · exact absurd hxz (UInt8.lt_irrefl z)
      · rcases hkb with hxx | ⟨-, hkb⟩
        · exact absurd hxx (UInt8.lt_irrefl x)
        · exact List.cons_prefix_cons.mpr ⟨rfl, ih hak hkb⟩
  | case2 => exact List.nil_prefix
  | case3 => exact List.nil_prefix

theorem Ordered.tail {a : Entry} {entries : List Entry} (h : Ordered (a :: entries)) :
    Ordered entries :=
  (List.pairwise_cons.mp h).2

theorem Ordered.head_le {a e : Entry} {entries : List Entry} (h : Ordered (a :: entries))
    (he : e ∈ a :: entries) : a.key ≤ e.key := by
  rcases List.mem_cons.mp he with rfl | he
  · exact List.le_refl _
  · exact (List.pairwise_cons.mp h).1 e he

theorem Ordered.le_getLast {a e : Entry} {entries : List Entry} (h : Ordered entries)
    (ha : entries.getLast? = some a) (he : e ∈ entries) : e.key ≤ a.key := by
  obtain ⟨before, rfl⟩ := List.getLast?_eq_some_iff.mp ha
  rcases List.mem_append.mp he with he | he
  · exact (List.pairwise_append.mp h).2.2 e he a (List.mem_singleton_self a)
  · exact List.mem_singleton.mp he ▸ List.le_refl _

/-- **All keys share what the first and the last share.** -/
theorem shared_begins {entries : List Entry} (h : Ordered entries) {e : Entry} (he : e ∈ entries) :
    shared entries <+: e.key := by
  unfold shared
  cases entries with
  | nil => cases he
  | cons a rest =>
    cases hlast : (a :: rest).getLast? with
    | none => exact List.nil_prefix
    | some b => exact common_prefix_between (h.head_le he) (h.le_getLast hlast he)

/-! ## Groups -/

theorem groups_cons_of_nil {e : Entry} (h : e.key = []) (rest : List Entry) :
    groups (e :: rest) = groups rest := by
  simp [groups, h]

/-- An entry with bytes left joins the first group or opens one in front. -/
theorem groups_cons_cases {e : Entry} {byte : UInt8} {bytes : List UInt8}
    (h : e.key = byte :: bytes) (rest : List Entry) :
    (∃ group more, groups rest = (byte, group) :: more ∧
      groups (e :: rest) = (byte, e.drop 1 :: group) :: more) ∨
    ((∀ part ∈ (groups rest).head?, part.1 ≠ byte) ∧
      groups (e :: rest) = (byte, [e.drop 1]) :: groups rest) := by
  rw [groups, h]
  cases hrest : groups rest with
  | nil => exact Or.inr ⟨by simp, rfl⟩
  | cons part more =>
    obtain ⟨other, group⟩ := part
    by_cases hb : byte = other
    · exact Or.inl ⟨group, more, by rw [hb], if_pos hb⟩
    · refine Or.inr ⟨?_, if_neg hb⟩
      intro part hpart
      obtain rfl := Option.some.inj hpart
      exact Ne.symm hb

theorem Entry.under_drop {bytes : List UInt8} {e : Entry} (h : bytes <+: e.key) :
    (e.drop bytes.length).under bytes = e := by
  obtain ⟨rest, hrest⟩ := h
  obtain ⟨key, stay, target, value⟩ := e
  obtain rfl : bytes ++ rest = key := hrest
  simp [Entry.under, Entry.drop]

/-- Bytes that all keys begin with can be taken off and put back. -/
theorem map_under_drop {bytes : List UInt8} {entries : List Entry}
    (h : ∀ e ∈ entries, bytes <+: e.key) :
    (entries.map (·.drop bytes.length)).map (Entry.under bytes) = entries := by
  rw [List.map_map]
  exact (List.map_congr_left fun e he => Entry.under_drop (h e he)).trans (List.map_id' entries)

theorem Entry.under_drop_one {e : Entry} {byte : UInt8} {bytes : List UInt8}
    (h : e.key = byte :: bytes) : (e.drop 1).under [byte] = e := by
  obtain ⟨key, stay, target, value⟩ := e
  obtain rfl : key = byte :: bytes := h
  rfl

/-- **Grouping loses nothing**: it keeps the entries that have bytes left, in order. -/
theorem ungroup_groups (entries : List Entry) :
    ungroup (groups entries) = entries.filter (·.key ≠ []) := by
  induction entries with
  | nil => rfl
  | cons e rest ih =>
    cases hkey : e.key with
    | nil => rw [groups_cons_of_nil hkey, ih, List.filter_cons_of_neg (by simp [hkey])]
    | cons byte bytes =>
      rw [List.filter_cons_of_pos (by simp [hkey]), ← ih]
      rcases groups_cons_cases hkey rest with ⟨group, more, hrest, h⟩ | ⟨-, h⟩
      · simp [h, hrest, ungroup, Entry.under_drop_one hkey]
      · simp [h, ungroup, Entry.under_drop_one hkey]

theorem ne_nil_of_mem_groups {entries : List Entry} {part : UInt8 × List Entry}
    (h : part ∈ groups entries) : part.2 ≠ [] := by
  induction entries generalizing part with
  | nil => cases h
  | cons e rest ih =>
    cases hkey : e.key with
    | nil =>
      rw [groups_cons_of_nil hkey] at h
      exact ih h
    | cons byte bytes =>
      rcases groups_cons_cases hkey rest with ⟨group, more, hrest, hcons⟩ | ⟨-, hcons⟩
      · rw [hcons] at h
        rcases List.mem_cons.mp h with rfl | h
        · exact List.cons_ne_nil _ _
        · exact ih (hrest ▸ List.mem_cons_of_mem _ h)
      · rw [hcons] at h
        rcases List.mem_cons.mp h with rfl | h
        · exact List.cons_ne_nil _ _
        · exact ih h

theorem mem_ungroup_of_mem {parts : List (UInt8 × List Entry)} {byte : UInt8}
    {group : List Entry} {e : Entry} (h : (byte, group) ∈ parts) (he : e ∈ group) :
    e.under [byte] ∈ ungroup parts :=
  List.mem_flatMap.mpr ⟨_, h, List.mem_map_of_mem he⟩

/-- An entry of a group, its byte put back, is one of the entries. -/
theorem under_mem_of_mem_groups {entries : List Entry} {part : UInt8 × List Entry}
    (hpart : part ∈ groups entries) {e : Entry} (he : e ∈ part.2) : e.under [part.1] ∈ entries := by
  have := mem_ungroup_of_mem hpart he
  rw [ungroup_groups] at this
  exact List.mem_of_mem_filter this

theorem Ordered.filter {entries : List Entry} (h : Ordered entries) (p : Entry → Bool) :
    Ordered (entries.filter p) :=
  List.Pairwise.filter p h

/-- Sorted entries stay sorted without bytes that all of them begin with. -/
theorem Ordered.of_under {bytes : List UInt8} {entries : List Entry}
    (h : Ordered (entries.map (Entry.under bytes))) : Ordered entries := by
  have hcancel : ∀ x y : List UInt8, bytes ++ x ≤ bytes ++ y → x ≤ y := by
    intro x y hxy
    clear h
    induction bytes with
    | nil => exact hxy
    | cons byte bytes ih =>
      rcases List.cons_le_cons_iff.mp hxy with hlt | ⟨-, hle⟩
      · exact absurd hlt (UInt8.lt_irrefl byte)
      · exact ih hle
  exact (List.pairwise_map.mp h).imp (hcancel _ _)

theorem ordered_of_ungroup {parts : List (UInt8 × List Entry)} (h : Ordered (ungroup parts))
    {byte : UInt8} {group : List Entry} (hpart : (byte, group) ∈ parts) : Ordered group := by
  have hsub : (group.map (Entry.under [byte])).Sublist (ungroup parts) :=
    List.sublist_flatten_of_mem (List.mem_map_of_mem hpart)
  exact Ordered.of_under (List.Pairwise.sublist hsub h)

/-- The bytes of the groups of sorted entries ascend. -/
theorem ascending_groups {entries : List Entry} (h : Ordered entries) :
    ((groups entries).map (·.1)).Pairwise (· < ·) := by
  induction entries with
  | nil => exact List.Pairwise.nil
  | cons e rest ih =>
    have hrest := ih h.tail
    cases hkey : e.key with
    | nil => rwa [groups_cons_of_nil hkey]
    | cons byte bytes =>
      -- no group has a byte below that of the entry in front
      have hle : ∀ part ∈ groups rest, byte ≤ part.1 := by
        intro part hpart
        obtain ⟨x, hx⟩ := List.exists_mem_of_ne_nil _ (ne_nil_of_mem_groups hpart)
        have hmem : x.under [part.1] ∈ rest.filter (·.key ≠ []) :=
          ungroup_groups rest ▸ mem_ungroup_of_mem hpart hx
        have hkeys := (List.pairwise_cons.mp h).1 _ (List.mem_filter.mp hmem).1
        rw [hkey] at hkeys
        rcases List.cons_le_cons_iff.mp hkeys with hlt | ⟨heq, -⟩
        · exact UInt8.le_of_lt hlt
        · exact heq ▸ UInt8.le_refl byte
      rcases groups_cons_cases hkey rest with ⟨group, more, hmore, hcons⟩ | ⟨hne, hcons⟩
      · rw [hmore] at hrest
        rw [hcons]
        exact hrest
      · rw [hcons, List.map_cons]
        refine List.pairwise_cons.mpr ⟨?_, hrest⟩
        cases hgroups : groups rest with
        | nil => simp
        | cons first more =>
          rw [hgroups] at hle hne hrest
          have hfirst : byte < first.1 :=
            UInt8.lt_of_le_of_ne (hle first List.mem_cons_self) (hne first rfl).symm
          intro b hb
          rcases List.mem_cons.mp hb with rfl | hb
          · exact hfirst
          · exact UInt8.lt_trans hfirst ((List.pairwise_cons.mp hrest).1 b hb)

/-! ## The key that ends -/

/-- A key behind one that has bytes left has bytes left. -/
theorem Ordered.key_ne_nil {a : Entry} {rest : List Entry} (h : Ordered (a :: rest))
    (ha : a.key ≠ []) : ∀ e ∈ rest, e.key ≠ [] := by
  intro e he hnil
  have := (List.pairwise_cons.mp h).1 e he
  rw [hnil] at this
  exact ha (List.le_nil.mp this)

/-- No key ends when all have bytes left. -/
theorem stop_of_forall {path : List UInt8} {entries : List Entry}
    (h : ∀ e ∈ entries, e.key ≠ []) : stop path entries = .ok none := by
  unfold stop
  split
  · rename_i stay target value rest
    exact absurd rfl (h ⟨[], stay, target, value⟩ List.mem_cons_self)
  · rfl

theorem stop_ok_none {path : List UInt8} {entries : List Entry} (hord : Ordered entries)
    (h : stop path entries = .ok none) : ∀ e ∈ entries, e.key ≠ [] := by
  unfold stop at h
  split at h
  · split at h
    · cases h
    · split at h <;> cases h
  · rename_i hfirst
    cases entries with
    | nil => simp
    | cons a rest =>
      have ha : a.key ≠ [] := fun hnil => hfirst a.stay a.target a.value rest (by rw [← hnil])
      intro e he
      rcases List.mem_cons.mp he with rfl | he
      · exact ha
      · exact hord.key_ne_nil ha e he

/-- A level that ends here has one entry without bytes left, and it is the first. -/
theorem stop_ok_some {path : List UInt8} {entries : List Entry} {l : Leaf}
    (hord : Ordered entries) (h : stop path entries = .ok (some l)) :
    path ≠ [] ∧ ∃ e rest, entries = e :: rest ∧ e.key = [] ∧ e.leaf = l ∧
      ∀ e' ∈ rest, e'.key ≠ [] := by
  unfold stop at h
  split at h
  · rename_i stay target value rest
    split at h
    · cases h
    · rename_i hpath
      refine ⟨hpath, ⟨[], stay, target, value⟩, rest, rfl, rfl, ?_⟩
      split at h
      · cases h
      · rename_i hsecond
        cases h
        refine ⟨rfl, ?_⟩
        cases rest with
        | nil => simp
        | cons a rest =>
          have ha : a.key ≠ [] := fun hnil => hsecond a.stay a.target a.value rest (by rw [← hnil])
          intro e he
          rcases List.mem_cons.mp he with rfl | he
          · exact ha
          · exact hord.tail.key_ne_nil ha e he
  · cases h

/-- Sorted entries are the one with no bytes left, if there is one, and the groups. -/
theorem stop_append_ungroup {path : List UInt8} {entries : List Entry} {ending : Option Leaf}
    (hord : Ordered entries) (h : stop path entries = .ok ending) :
    ∃ last : Option Entry, ending = last.map Entry.leaf ∧
      (∀ e ∈ last, path ≠ [] ∧ e.key = []) ∧
      entries = last.toList ++ ungroup (groups entries) := by
  have hkept : ∀ rest : List Entry, (∀ e ∈ rest, e.key ≠ []) →
      rest = rest.filter (·.key ≠ []) := by
    intro rest hrest
    exact (List.filter_eq_self.mpr fun e he => by simpa using hrest e he).symm
  rw [ungroup_groups]
  cases ending with
  | none =>
    refine ⟨none, rfl, by simp, ?_⟩
    exact hkept entries (stop_ok_none hord h)
  | some l =>
    obtain ⟨hpath, e, rest, rfl, hkey, hleaf, hrest⟩ := stop_ok_some hord h
    refine ⟨some e, by simp [hleaf], ?_, ?_⟩
    · rintro e' ⟨⟩
      exact ⟨hpath, hkey⟩
    · rw [List.filter_cons_of_neg (by simp [hkey]), ← hkept rest hrest]
      rfl

/-! ## Level by level -/

theorem except_map_eq_ok {ε α β : Type} {f : α → β} {x : Except ε α} {b : β}
    (h : f <$> x = .ok b) : ∃ a, x = .ok a ∧ f a = b := by
  cases x with
  | error e => cases h
  | ok a => exact ⟨a, rfl, Except.ok.inj h⟩

/-- When all steps succeed, results and arguments correspond one to one. -/
theorem forall₂_of_mapM {ε α β : Type} {f : α → Except ε β} {xs : List α} {ys : List β}
    (h : xs.mapM f = .ok ys) : List.Forall₂ (fun x y => f x = .ok y) xs ys := by
  induction xs generalizing ys with
  | nil =>
    cases h
    exact .nil
  | cons x xs ih =>
    rw [List.mapM_cons] at h
    cases hx : f x with
    | error e => simp [hx, bind, Except.bind] at h
    | ok y =>
      cases hxs : xs.mapM f with
      | error e => simp [hx, hxs, bind, Except.bind] at h
      | ok ys' =>
        simp only [hx, hxs, bind, Except.bind, pure, Except.pure, Except.ok.injEq] at h
        exact h ▸ .cons hx (ih hxs)

/-- The entries of a group agree on whether they leave their last byte. -/
theorem stay?_eq_some {group : List Entry} {stay : Bool} (h : stay? group = some stay) :
    ∀ e ∈ group, e.stay = stay := by
  unfold stay? at h
  split at h
  · cases h
  · rename_i a rest
    split at h
    · rename_i hall
      obtain rfl := Option.some.inj h
      intro e he
      rcases List.mem_cons.mp he with rfl | he
      · rfl
      · simpa using List.all_eq_true.mp hall e he
    · cases h

/-! ### One level

`level` by cases: a run, a failure to end, a leaf, or a branch. -/

/-- The child of a branch for a group. -/
def groupChild (bound : Nat) (path : List UInt8) (part : UInt8 × List Entry) :
    Except BuildError (UInt8 × Bool × Trie) :=
  match stay? part.2 with
  | some stay => (fun child => (part.1, stay, child)) <$> level bound (path ++ [part.1]) part.2
  | none => .error (.conflictingPeek (path ++ [part.1]))

section Level
variable {bound : Nat} {path : List UInt8} {entries : List Entry}

theorem level_of_shared (h : 1 < (shared entries).length) :
    level (bound + 1) path entries =
      if entries.any (·.stay) then .error .peekInRun
      else .run (shared entries) <$> level bound (path ++ shared entries)
        (entries.map (·.drop (shared entries).length)) := by
  rw [level, if_pos h]
  rfl

theorem level_of_stop_error (h : ¬ 1 < (shared entries).length) {e : BuildError}
    (hstop : stop path entries = .error e) : level (bound + 1) path entries = .error e := by
  rw [level, if_neg h, hstop]
  rfl

theorem level_of_groups_nil (h : ¬ 1 < (shared entries).length) {l : Leaf}
    (hstop : stop path entries = .ok (some l)) (hgroups : groups entries = []) :
    level (bound + 1) path entries = .ok (.leaf l) := by
  rw [level, if_neg h, hstop, hgroups]
  rfl

theorem level_of_groups (h : ¬ 1 < (shared entries).length) {ending : Option Leaf}
    (hstop : stop path entries = .ok ending) (hgroups : groups entries ≠ []) :
    level (bound + 1) path entries =
      (fun children => .branch children ending) <$>
        (groups entries).mapM (groupChild bound path) := by
  rw [level, if_neg h, hstop]
  cases hparts : groups entries with
  | nil => exact absurd hparts hgroups
  | cons part more =>
    cases ending with
    | none => rfl
    | some l => rfl

end Level

/-- The trie is built from the entries, which are sorted, at a path. -/
structure Built (path : List UInt8) (entries : List Entry) (t : Trie) : Prop where
  ordered : Ordered entries
  nonempty : entries ≠ []
  made : ∃ bound, (∀ e ∈ entries, e.key.length ≤ bound) ∧ level bound path entries = .ok t

/-- **What is built level by level**: a leaf for one entry, a run in front of entries, or
a branch over groups of entries. -/
@[elab_as_elim]
theorem Built.induct {motive : List UInt8 → List Entry → Trie → Prop}
    (leaf : ∀ (path : List UInt8) (e : Entry), path ≠ [] → e.key = [] →
      motive path [e] (.leaf e.leaf))
    (run : ∀ (path bytes : List UInt8) (entries : List Entry) (next : Trie), 1 < bytes.length →
      (∀ e ∈ entries, e.stay = false) → Built (path ++ bytes) entries next →
      motive (path ++ bytes) entries next →
      motive path (entries.map (Entry.under bytes)) (.run bytes next))
    (branch : ∀ (path : List UInt8) (last : Option Entry) (parts : List (UInt8 × List Entry))
      (children : List (UInt8 × Bool × Trie)), parts ≠ [] →
      (∀ e ∈ last, path ≠ [] ∧ e.key = []) → (parts.map (·.1)).Pairwise (· < ·) →
      List.Forall₂ (fun part child => child.1 = part.1 ∧ (∀ e ∈ part.2, e.stay = child.2.1) ∧
        Built (path ++ [part.1]) part.2 child.2.2 ∧ motive (path ++ [part.1]) part.2 child.2.2)
        parts children →
      motive path (last.toList ++ ungroup parts) (.branch children (last.map Entry.leaf)))
    {path : List UInt8} {entries : List Entry} {t : Trie} (h : Built path entries t) :
    motive path entries t := by
  obtain ⟨hord, hne, bound, hbound, h⟩ := h
  induction bound generalizing path entries t with
  | zero =>
    have hnil : ∀ e ∈ entries, e.key = [] := fun e he =>
      List.length_eq_zero_iff.mp (Nat.le_zero.mp (hbound e he))
    unfold level at h
    cases hstop : stop path entries with
    | error e => simp [hstop, bind, Except.bind] at h
    | ok ending =>
      cases ending with
      | none =>
        obtain ⟨e, he⟩ := List.exists_mem_of_ne_nil _ hne
        exact absurd (hnil e he) (stop_ok_none hord hstop e he)
      | some l =>
        obtain ⟨hpath, e, rest, rfl, hkey, rfl, hrest⟩ := stop_ok_some hord hstop
        obtain rfl : rest = [] := by
          cases rest with
          | nil => rfl
          | cons a rest => exact absurd (hnil a (by simp)) (hrest a (by simp))
        simp only [hstop, bind, Except.bind, pure, Except.pure, Except.ok.injEq] at h
        exact h ▸ leaf path e hpath hkey
  | succ bound ih =>
    by_cases hshared : 1 < (shared entries).length
    · rw [level_of_shared hshared] at h
      split at h
      · cases h
      · rename_i hstay
        have hunder := map_under_drop fun e he => shared_begins hord (e := e) he
        have hordered : Ordered (entries.map (·.drop (shared entries).length)) :=
          Ordered.of_under (hunder.symm ▸ hord)
        obtain ⟨next, hnext, rfl⟩ := except_map_eq_ok h
        have hne' : entries.map (·.drop (shared entries).length) ≠ [] := by simpa using hne
        have hbound' : ∀ e ∈ entries.map (·.drop (shared entries).length),
            e.key.length ≤ bound := by
          intro e he
          obtain ⟨e', he', rfl⟩ := List.mem_map.mp he
          have := hbound e' he'
          simp only [Entry.drop, List.length_drop]
          omega
        have hfalse : ∀ e ∈ entries.map (·.drop (shared entries).length), e.stay = false := by
          intro e he
          obtain ⟨e', he', rfl⟩ := List.mem_map.mp he
          simpa [Entry.drop] using fun hs => hstay (List.any_eq_true.mpr ⟨e', he', hs⟩)
        have := run path (shared entries) _ next hshared hfalse
          ⟨hordered, hne', bound, hbound', hnext⟩ (ih hordered hne' hbound' hnext)
        rwa [hunder] at this
    · cases hstop : stop path entries with
      | error e =>
        rw [level_of_stop_error hshared hstop] at h
        cases h
      | ok ending =>
        obtain ⟨last, rfl, hlast, hentries⟩ := stop_append_ungroup hord hstop
        by_cases hgroups : groups entries = []
        · rw [hgroups] at hentries
          cases last with
          | none => exact absurd hentries hne
          | some e =>
            rw [level_of_groups_nil hshared hstop hgroups] at h
            rw [hentries, ← Except.ok.inj h]
            exact leaf path e (hlast e rfl).1 (hlast e rfl).2
        · rw [level_of_groups hshared hstop hgroups] at h
          obtain ⟨children, hchildren, rfl⟩ := except_map_eq_ok h
          have hungroup : Ordered (ungroup (groups entries)) :=
            ungroup_groups entries ▸ hord.filter _
          have := branch path last (groups entries) children hgroups hlast
            (ascending_groups hord) ?_
          · rwa [← hentries] at this
          · refine List.Forall₂.imp ?_
              ((List.forall₂_and_left _ _).mpr ⟨fun _ hpart => hpart, forall₂_of_mapM hchildren⟩)
            rintro ⟨byte, group⟩ child ⟨hpart, hchild⟩
            unfold groupChild at hchild
            split at hchild
            · rename_i stay hstay
              obtain ⟨t, ht, rfl⟩ := except_map_eq_ok hchild
              have hgroup : ∀ e ∈ group, e.key.length ≤ bound := by
                intro e he
                have := hbound _ (under_mem_of_mem_groups hpart he)
                simp only [Entry.under, List.length_append, List.length_singleton] at this
                omega
              have hordered := ordered_of_ungroup hungroup hpart
              have hne' := ne_nil_of_mem_groups hpart
              exact ⟨rfl, stay?_eq_some hstay, ⟨hordered, hne', bound, hgroup, ht⟩,
                ih hordered hne' hgroup ht⟩
            · cases hchild

end ByteMachine.Trie
