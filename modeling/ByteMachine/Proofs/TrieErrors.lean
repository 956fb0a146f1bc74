import ByteMachine.Proofs.TrieReading
import Mathlib.Data.List.Nodup

/-! # When there is no trie

The entries that calls can make are **lawful**: their keys differ, none is empty, and only
a key of one byte leaves its byte.  Of the reasons against a trie only one can then occur.
A byte is left by one key while a longer key begins with it, so that it would have to be
left and consumed at once (`ConflictAt`).  Lawful entries have a trie unless there is such
a byte, and the error names the smallest (`ofEntries_error`, `not_conflictAt_of_ok`). -/
namespace ByteMachine.Trie

/-- What calls ensure of the entries of a node. -/
structure Lawful (entries : List Entry) : Prop where
  distinct : (entries.map (·.key)).Nodup
  nonempty : ∀ e ∈ entries, e.key ≠ []
  peek : ∀ e ∈ entries, e.stay = true → e.key.length = 1

/-- A byte is left by one key, and a longer key begins with it. -/
def ConflictAt (entries : List Entry) (byte : UInt8) : Prop :=
  (∃ e ∈ entries, e.stay = true ∧ e.key = [byte]) ∧
    ∃ e ∈ entries, 2 ≤ e.key.length ∧ [byte] <+: e.key

/-! ## Failures of a traversal -/

section Traversal
variable {ε α β : Type} {f : α → Except ε β}

theorem mapM_ok_of_forall {xs : List α} (h : ∀ x ∈ xs, ∃ y, f x = .ok y) :
    ∃ ys, xs.mapM f = .ok ys := by
  induction xs with
  | nil => exact ⟨[], rfl⟩
  | cons x xs ih =>
    obtain ⟨y, hy⟩ := h x List.mem_cons_self
    obtain ⟨ys, hys⟩ := ih fun x hx => h x (List.mem_cons_of_mem _ hx)
    exact ⟨y :: ys, by rw [List.mapM_cons, hy, hys]; rfl⟩

/-- A traversal fails at the first element that fails. -/
theorem exists_of_mapM_error {xs : List α} {e : ε} (h : xs.mapM f = .error e) :
    ∃ before x after, xs = before ++ x :: after ∧ f x = .error e ∧
      ∀ y ∈ before, ∃ z, f y = .ok z := by
  induction xs with
  | nil => cases h
  | cons x xs ih =>
    rw [List.mapM_cons] at h
    cases hx : f x with
    | error e' =>
      rw [hx] at h
      obtain rfl : e' = e := Except.error.inj h
      exact ⟨[], x, xs, rfl, hx, by simp⟩
    | ok y =>
      cases hxs : xs.mapM f with
      | ok ys =>
        rw [hx, hxs] at h
        cases h
      | error e' =>
        rw [hx, hxs] at h
        obtain rfl : e' = e := Except.error.inj h
        obtain ⟨before, x', after, rfl, hx', hbefore⟩ := ih hxs
        refine ⟨x :: before, x', after, rfl, hx', ?_⟩
        intro z hz
        rcases List.mem_cons.mp hz with rfl | hz
        · exact ⟨y, hx⟩
        · exact hbefore z hz

end Traversal

/-! ## Below the first byte -/

theorem nodup_of_map_under {bytes : List UInt8} {entries : List Entry}
    (h : ((entries.map (Entry.under bytes)).map (·.key)).Nodup) : (entries.map (·.key)).Nodup := by
  rw [List.map_map] at h
  refine (List.pairwise_map.mpr ((List.pairwise_map.mp h).imp ?_))
  intro a b hne heq
  exact hne (congrArg (bytes ++ ·) heq)

theorem nodup_of_mem_groups {entries : List Entry} (hdistinct : (entries.map (·.key)).Nodup)
    {part : UInt8 × List Entry} (hpart : part ∈ groups entries) :
    (part.2.map (·.key)).Nodup := by
  have hsub : (part.2.map (Entry.under [part.1])).Sublist entries := by
    have hparts : (part.2.map (Entry.under [part.1])).Sublist (ungroup (groups entries)) :=
      List.sublist_flatten_of_mem
        (List.mem_map_of_mem (f := fun p => p.2.map (Entry.under [p.1])) hpart)
    rw [ungroup_groups] at hparts
    exact hparts.trans List.filter_sublist
  exact nodup_of_map_under (hdistinct.sublist (hsub.map _))

/-- Entries of one group that do not agree. -/
theorem exists_of_stay?_eq_none {group : List Entry} (hne : group ≠ []) (h : stay? group = none) :
    (∃ e ∈ group, e.stay = true) ∧ ∃ e ∈ group, e.stay = false := by
  cases group with
  | nil => exact absurd rfl hne
  | cons a rest =>
    simp only [stay?, ite_eq_right_iff, reduceCtorEq, imp_false, List.all_eq_true, not_forall] at h
    obtain ⟨e, he, hdiff⟩ := h
    cases ha : a.stay with
    | true => exact ⟨⟨a, by simp, ha⟩, e, by simp [he], by simpa [ha] using hdiff⟩
    | false => exact ⟨⟨e, by simp [he], by simpa [ha] using hdiff⟩, a, by simp, ha⟩

theorem stay?_of_forall {group : List Entry} {stay : Bool} (hne : group ≠ [])
    (h : ∀ e ∈ group, e.stay = stay) : stay? group = some stay := by
  cases group with
  | nil => exact absurd rfl hne
  | cons a rest =>
    have ha := h a (by simp)
    have hrest : rest.all (·.stay = a.stay) = true := by
      refine List.all_eq_true.mpr fun e he => ?_
      simp [h e (by simp [he]), ha]
    rw [stay?, if_pos hrest, ha]

/-- Keys that differ have an ending or none, where a key may end. -/
theorem stop_ok_of_nodup {path : List UInt8} {entries : List Entry}
    (hpath : path ≠ [] ∨ ∀ e ∈ entries, e.key ≠ [])
    (hdistinct : (entries.map (·.key)).Nodup) : ∃ ending, stop path entries = .ok ending := by
  unfold stop
  split
  · rename_i stay target value rest
    have hplace : path ≠ [] := by
      rcases hpath with hpath | hkeys
      · exact hpath
      · exact absurd rfl (hkeys ⟨[], stay, target, value⟩ List.mem_cons_self)
    rw [if_neg hplace]
    split
    · simp at hdistinct
    · exact ⟨_, rfl⟩
  · exact ⟨_, rfl⟩

/-- Entries at a path of a trie for which nothing can go wrong: a byte is left only by a key
that has ended. -/
structure Settled (bound : Nat) (path : List UInt8) (entries : List Entry) : Prop where
  path : path ≠ [] ∨ ∀ e ∈ entries, e.key ≠ []
  ordered : Ordered entries
  nonempty : entries ≠ []
  distinct : (entries.map (·.key)).Nodup
  stay : ∀ e ∈ entries, e.stay = true → e.key = []
  bound : ∀ e ∈ entries, e.key.length ≤ bound

namespace Settled
variable {bound : Nat} {path : List UInt8} {entries : List Entry}

theorem key_ne_nil_of_shared (h : Settled bound path entries)
    (hshared : 1 < (shared entries).length) : ∀ e ∈ entries, e.key ≠ [] := by
  intro e he hnil
  have hlength := (shared_begins h.ordered he).length_le
  rw [hnil, List.length_nil] at hlength
  omega

/-- Behind the bytes that all keys share. -/
theorem behind_shared (h : Settled (bound + 1) path entries)
    (hshared : 1 < (shared entries).length) :
    Settled bound (path ++ shared entries) (entries.map (·.drop (shared entries).length)) := by
  have hunder := map_under_drop fun e he => shared_begins h.ordered (e := e) he
  refine ⟨?_, ?_, ?_, ?_, ?_, ?_⟩
  · left
    intro hnil
    simp [(List.append_eq_nil_iff.mp hnil).2] at hshared
  · exact Ordered.of_under (hunder.symm ▸ h.ordered)
  · simpa using h.nonempty
  · exact nodup_of_map_under (hunder.symm ▸ h.distinct)
  · intro e he hs
    obtain ⟨e', he', rfl⟩ := List.mem_map.mp he
    exact absurd (h.stay e' he' hs) (h.key_ne_nil_of_shared hshared e' he')
  · intro e he
    obtain ⟨e', he', rfl⟩ := List.mem_map.mp he
    have hlength := h.bound e' he'
    simp only [Entry.drop, List.length_drop]
    omega

/-- A key of a group goes on behind its byte, so that it leaves no byte. -/
theorem stay_of_mem_groups (h : Settled bound path entries) {part : UInt8 × List Entry}
    (hpart : part ∈ groups entries) : ∀ e ∈ part.2, e.stay = false := by
  intro e he
  by_contra hs
  have hnil := h.stay _ (under_mem_of_mem_groups hpart he) (by simpa [Entry.under] using hs)
  simp [Entry.under] at hnil

/-- Behind the byte of a group. -/
theorem behind_group (h : Settled (bound + 1) path entries) {part : UInt8 × List Entry}
    (hpart : part ∈ groups entries) : Settled bound (path ++ [part.1]) part.2 := by
  refine ⟨.inl (by simp), ?_, ne_nil_of_mem_groups hpart,
    nodup_of_mem_groups h.distinct hpart, ?_, ?_⟩
  · exact ordered_of_ungroup (ungroup_groups entries ▸ h.ordered.filter _) hpart
  · intro e he hs
    rw [h.stay_of_mem_groups hpart e he] at hs
    cases hs
  · intro e he
    have hlength := h.bound _ (under_mem_of_mem_groups hpart he)
    simp only [Entry.under, List.length_append, List.length_singleton] at hlength
    omega

end Settled

/-- **Settled entries have a trie.** -/
theorem level_ok {bound : Nat} {path : List UInt8} {entries : List Entry}
    (h : Settled bound path entries) : ∃ t, level bound path entries = .ok t := by
  induction bound generalizing path entries with
  | zero =>
    obtain ⟨ending, hstop⟩ := stop_ok_of_nodup h.path h.distinct
    rw [level, hstop]
    cases ending with
    | none => exact ⟨_, rfl⟩
    | some l => exact ⟨_, rfl⟩
  | succ bound ih =>
    by_cases hshared : 1 < (shared entries).length
    · have hfalse : entries.any (·.stay) = false := by
        refine List.any_eq_false.mpr fun e he hs => ?_
        exact h.key_ne_nil_of_shared hshared e he (h.stay e he hs)
      obtain ⟨next, hnext⟩ := ih (h.behind_shared hshared)
      exact ⟨_, by rw [level_of_shared hshared, hfalse, hnext]; rfl⟩
    · obtain ⟨ending, hstop⟩ := stop_ok_of_nodup h.path h.distinct
      by_cases hgroups : groups entries = []
      · cases ending with
        | some l => exact ⟨_, level_of_groups_nil hshared hstop hgroups⟩
        | none =>
          -- without a group and without a stop there would be no entry
          obtain ⟨last, hlast, -, hentries⟩ := stop_append_ungroup h.ordered hstop
          obtain rfl : last = none := by simpa using hlast.symm
          rw [hgroups] at hentries
          exact absurd hentries h.nonempty
      · have hok : ∀ part ∈ groups entries, ∃ child, groupChild bound path part = .ok child := by
          intro part hpart
          obtain ⟨t, ht⟩ := ih (h.behind_group hpart)
          have hstay := stay?_of_forall (ne_nil_of_mem_groups hpart) (h.stay_of_mem_groups hpart)
          exact ⟨_, by rw [groupChild, hstay, ht]; rfl⟩
        obtain ⟨children, hchildren⟩ := mapM_ok_of_forall hok
        exact ⟨_, by rw [level_of_groups hshared hstop hgroups, hchildren]; rfl⟩

/-! ## At the first byte -/

theorem Lawful.arrange {entries : List Entry} (h : Lawful entries) :
    Lawful (Trie.arrange entries) where
  distinct := by
    have hsub := (eraseReps_sublist (entries.mergeSort fun a b => a.key ≤ b.key)).map (·.key)
    have hperm := (List.mergeSort_perm entries fun a b => a.key ≤ b.key).map (·.key)
    exact (hperm.nodup_iff.mpr h.distinct).sublist hsub
  nonempty := fun e he => h.nonempty e (mem_arrange.mp he)
  peek := fun e he => h.peek e (mem_arrange.mp he)

theorem conflictAt_arrange {entries : List Entry} {byte : UInt8} :
    ConflictAt (arrange entries) byte ↔ ConflictAt entries byte := by
  simp only [ConflictAt, mem_arrange]

section Root
variable {entries : List Entry} (hord : Ordered entries) (hlaw : Lawful entries)

include hlaw in
/-- The key of an entry whose byte is left is used up within its group. -/
theorem key_eq_nil_of_mem_groups {part : UInt8 × List Entry} (hpart : part ∈ groups entries)
    {e : Entry} (he : e ∈ part.2) (hstay : e.stay = true) : e.key = [] := by
  have := hlaw.peek _ (under_mem_of_mem_groups hpart he) hstay
  simpa [Entry.under] using this

/-- Each first byte has its group. -/
theorem exists_group {e : Entry} (he : e ∈ entries) {byte : UInt8} (hbyte : [byte] <+: e.key) :
    ∃ part ∈ groups entries, part.1 = byte ∧ ∃ e' ∈ part.2, e = e'.under [byte] := by
  obtain ⟨bytes, hkey⟩ := hbyte
  have hmem : e ∈ ungroup (groups entries) := by
    rw [ungroup_groups]
    exact List.mem_filter.mpr ⟨he, by simp [← hkey]⟩
  obtain ⟨part, hpart, hin⟩ := List.mem_flatMap.mp hmem
  obtain ⟨e', he', rfl⟩ := List.mem_map.mp hin
  have hfirst : part.1 = byte := by simpa [Entry.under] using congrArg List.head? hkey.symm
  exact ⟨part, hpart, hfirst, e', he', by rw [hfirst]⟩

include hord in
/-- Each first byte has one group only. -/
theorem eq_of_mem_groups {part part' : UInt8 × List Entry} (hpart : part ∈ groups entries)
    (hpart' : part' ∈ groups entries) (hbyte : part.1 = part'.1) : part = part' := by
  have hdistinct : ((groups entries).map (·.1)).Nodup :=
    (ascending_groups hord).imp fun hlt => UInt8.ne_of_lt hlt
  exact List.inj_on_of_nodup_map hdistinct hpart hpart' hbyte

include hlaw in
/-- A group disagrees exactly at a conflict. -/
theorem conflictAt_of_stay? {part : UInt8 × List Entry} (hpart : part ∈ groups entries)
    (h : stay? part.2 = none) : ConflictAt entries part.1 := by
  obtain ⟨⟨e, he, hstay⟩, e', he', hmove⟩ :=
    exists_of_stay?_eq_none (ne_nil_of_mem_groups hpart) h
  have hkey := key_eq_nil_of_mem_groups hlaw hpart he hstay
  have hkey' : e'.key ≠ [] := by
    intro hnil
    have hnodup := nodup_of_mem_groups hlaw.distinct hpart
    have := List.inj_on_of_nodup_map hnodup he he' (hkey.trans hnil.symm)
    rw [this, hmove] at hstay
    cases hstay
  refine ⟨⟨_, under_mem_of_mem_groups hpart he, hstay, by simp [Entry.under, hkey]⟩,
    _, under_mem_of_mem_groups hpart he', ?_, by simp [Entry.under]⟩
  have := List.length_pos_iff.mpr hkey'
  simp only [Entry.under, List.length_append, List.length_singleton]
  omega

include hord hlaw in
theorem exists_group_of_conflictAt {byte : UInt8} (h : ConflictAt entries byte) :
    ∃ part ∈ groups entries, part.1 = byte ∧ stay? part.2 = none := by
  obtain ⟨⟨e, he, hstay, hkey⟩, e', he', hlong, hbyte⟩ := h
  obtain ⟨part, hpart, rfl, a, ha, rfl⟩ := exists_group he (show [byte] <+: e.key by simp [hkey])
  obtain ⟨part', hpart', hsame, a', ha', rfl⟩ := exists_group he' hbyte
  obtain rfl := eq_of_mem_groups hord hpart' hpart hsame
  refine ⟨part', hpart, rfl, ?_⟩
  cases hagree : stay? part'.2 with
  | none => rfl
  | some stay =>
    have hboth : a'.stay = true :=
      (stay?_eq_some hagree a' ha').trans ((stay?_eq_some hagree a ha).symm.trans hstay)
    have := hlaw.peek _ he' hboth
    omega

include hord hlaw in
/-- A group that agrees has its child. -/
theorem groupChild_ok {bound : Nat} (hbound : ∀ e ∈ entries, e.key.length ≤ bound + 1)
    {part : UInt8 × List Entry} (hpart : part ∈ groups entries) {stay : Bool}
    (h : stay? part.2 = some stay) : ∃ child, groupChild bound [] part = .ok child := by
  have hordered : Ordered part.2 :=
    ordered_of_ungroup (ungroup_groups entries ▸ hord.filter _) hpart
  have hlength : ∀ e ∈ part.2, e.key.length ≤ bound := by
    intro e he
    have := hbound _ (under_mem_of_mem_groups hpart he)
    simp only [Entry.under, List.length_append, List.length_singleton] at this
    omega
  have hpath : [] ++ [part.1] ≠ [] := by simp
  obtain ⟨t, ht⟩ := level_ok ⟨.inl hpath, hordered, ne_nil_of_mem_groups hpart,
    nodup_of_mem_groups hlaw.distinct hpart,
    fun e he hstay => key_eq_nil_of_mem_groups hlaw hpart he hstay, hlength⟩
  exact ⟨_, by rw [groupChild, h, ht]; rfl⟩

include hord hlaw in
theorem level_root_ok {bound : Nat} {t : Trie}
    (hbound : ∀ e ∈ entries, e.key.length ≤ bound) (h : level bound [] entries = .ok t)
    (byte : UInt8) : ¬ ConflictAt entries byte := by
  intro hconflict
  obtain ⟨e, he, hstay, hkey⟩ := hconflict.1
  cases bound with
  | zero =>
    have := hbound e he
    simp [hkey] at this
  | succ bound =>
    by_cases hshared : 1 < (shared entries).length
    · have := (shared_begins hord he).length_le
      rw [hkey, List.length_singleton] at this
      omega
    · obtain ⟨part, hpart, rfl, hnone⟩ := exists_group_of_conflictAt hord hlaw hconflict
      have hgroups : groups entries ≠ [] := List.ne_nil_of_mem hpart
      rw [level_of_groups hshared (stop_of_forall hlaw.nonempty) hgroups] at h
      obtain ⟨children, hchildren, -⟩ := except_map_eq_ok h
      obtain ⟨child, -, hchild⟩ := exists_of_forall₂ (forall₂_of_mapM hchildren).flip hpart
      rw [groupChild, hnone] at hchild
      cases hchild

include hord hlaw in
theorem level_root_error {bound : Nat} {error : BuildError} (hne : entries ≠ [])
    (hbound : ∀ e ∈ entries, e.key.length ≤ bound) (h : level bound [] entries = .error error) :
    ∃ byte, error = .conflictingPeek [byte] ∧ ConflictAt entries byte ∧
      ∀ other, ConflictAt entries other → byte ≤ other := by
  cases bound with
  | zero =>
    obtain ⟨e, he⟩ := List.exists_mem_of_ne_nil _ hne
    exact absurd (List.length_eq_zero_iff.mp (Nat.le_zero.mp (hbound e he))) (hlaw.nonempty e he)
  | succ bound =>
    by_cases hshared : 1 < (shared entries).length
    · have hmove : ∀ e ∈ entries, e.stay = true → e.key = [] := by
        intro e he hs
        have hone := hlaw.peek e he hs
        have := (shared_begins hord he).length_le
        omega
      obtain ⟨t, ht⟩ := level_ok ⟨.inr hlaw.nonempty, hord, hne, hlaw.distinct, hmove, hbound⟩
      rw [ht] at h
      cases h
    · have hgroups : groups entries ≠ [] := by
        obtain ⟨e, he⟩ := List.exists_mem_of_ne_nil _ hne
        obtain ⟨byte, bytes, hkey⟩ := List.exists_cons_of_ne_nil (hlaw.nonempty e he)
        obtain ⟨part, hpart, -⟩ := exists_group he (show [byte] <+: e.key by simp [hkey])
        exact List.ne_nil_of_mem hpart
      rw [level_of_groups hshared (stop_of_forall hlaw.nonempty) hgroups] at h
      cases hparts : (groups entries).mapM (groupChild bound []) with
      | ok children =>
        rw [hparts] at h
        cases h
      | error e =>
        rw [hparts] at h
        obtain rfl : e = error := Except.error.inj h
        obtain ⟨before, part, after, hsplit, hfail, hbefore⟩ := exists_of_mapM_error hparts
        have hpart : part ∈ groups entries := by simp [hsplit]
        cases hstay : stay? part.2 with
        | some stay =>
          obtain ⟨child, hchild⟩ := groupChild_ok hord hlaw hbound hpart hstay
          rw [hchild] at hfail
          cases hfail
        | none =>
          rw [groupChild, hstay] at hfail
          refine ⟨part.1, (Except.error.inj hfail).symm, conflictAt_of_stay? hlaw hpart hstay, ?_⟩
          -- The groups ascend, and those before this one agree.
          intro other hother
          obtain ⟨part', hpart', rfl, hnone⟩ := exists_group_of_conflictAt hord hlaw hother
          have hascending := ascending_groups hord
          rw [hsplit] at hpart' hascending
          rcases List.mem_append.mp hpart' with hin | hin
          · obtain ⟨child, hchild⟩ := hbefore part' hin
            rw [groupChild, hnone] at hchild
            cases hchild
          · rcases List.mem_cons.mp hin with rfl | hin
            · exact UInt8.le_refl _
            · rw [List.map_append, List.map_cons, List.pairwise_append] at hascending
              have := List.rel_of_pairwise_cons hascending.2.1 (List.mem_map_of_mem hin)
              exact UInt8.le_of_lt this

end Root

section Main
variable {entries : List Entry} (hlaw : Lawful entries)

theorem length_le_longest_arrange :
    ∀ e ∈ arrange entries, e.key.length ≤ longest entries :=
  fun _ he => le_longest (mem_arrange.mp he)

include hlaw in
/-- **Entries with a trie have no conflict.** -/
theorem not_conflictAt_of_ok {t : Option Trie} (h : ofEntries entries = .ok t) (byte : UInt8) :
    ¬ ConflictAt entries byte := by
  rw [ofEntries] at h
  split at h
  · rename_i hnil
    rintro ⟨⟨e, he, -⟩, -⟩
    simp [hnil] at he
  · rename_i hne
    obtain ⟨t, ht, -⟩ := except_map_eq_ok h
    rw [← conflictAt_arrange]
    exact level_root_ok (ordered_arrange entries) hlaw.arrange length_le_longest_arrange ht byte

include hlaw in
/-- **Entries without a trie have a conflict, and the error names the smallest.** -/
theorem ofEntries_error {error : BuildError} (h : ofEntries entries = .error error) :
    ∃ byte, error = .conflictingPeek [byte] ∧ ConflictAt entries byte ∧
      ∀ other, ConflictAt entries other → byte ≤ other := by
  rw [ofEntries] at h
  split at h
  · cases h
  · rename_i hne
    have hne' : arrange entries ≠ [] := by
      obtain ⟨e, he⟩ := List.exists_mem_of_ne_nil _ hne
      exact List.ne_nil_of_mem (mem_arrange.mpr he)
    cases hlevel : level (longest entries) [] (arrange entries) with
    | ok t =>
      rw [hlevel] at h
      cases h
    | error e =>
      rw [hlevel] at h
      obtain rfl : e = error := Except.error.inj h
      have := level_root_error (ordered_arrange entries) hlaw.arrange hne'
        length_le_longest_arrange hlevel
      simpa only [conflictAt_arrange] using this

end Main

end ByteMachine.Trie
