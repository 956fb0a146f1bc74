import ByteMachine.Proofs.EdgeTries
import Mathlib

/-! # Tries of sets of edges

In which order edges are listed, and how often, does not matter for their trie
(`result_trieJournaled_congr`).  Neither does it matter for the error when there is no trie,
though this is less clear: entries with one key stay in the order in which they were given,
and repetitions among them are only dropped where they stand side by side, so that the lists
from which a trie is built may well differ.

What is kept at each level is that the entries are sorted and that no entry stands next to
itself (`Tidy`).  Of tidy entries every step of the construction sees the set only: the least
and the greatest key (`shared_congr`), whether one entry has no bytes left, or none, or several
(`stop_congr`), whether all agree to leave their byte (`stay?_congr`), and which bytes begin the
keys (`forall₂_groups`).  The groups are tidy again and hold the same entries, which gives the
induction (`level_congr`). -/
namespace ByteMachine.Trie

/-- Sorted entries none of which stands next to itself. -/
structure Tidy (entries : List Entry) : Prop where
  ordered : Ordered entries
  apart : entries.IsChain (· ≠ ·)

/-! ## Tidy entries -/

theorem head?_eraseReps (a : Entry) (rest : List Entry) :
    (a :: rest).eraseReps.head? = some a := by
  induction rest with
  | nil => rfl
  | cons b rest ih =>
    rw [eraseReps_cons_cons]
    split
    · exact ih
    · rfl

theorem isChain_eraseReps (entries : List Entry) : entries.eraseReps.IsChain (· ≠ ·) := by
  match entries with
  | [] => exact .nil
  | [a] => exact .singleton a
  | a :: b :: rest =>
    rw [eraseReps_cons_cons]
    split
    · exact isChain_eraseReps (a :: rest)
    · rename_i hab
      refine List.isChain_cons.mpr ⟨fun e he => ?_, isChain_eraseReps (b :: rest)⟩
      rw [head?_eraseReps] at he
      exact Option.some.inj he ▸ hab
termination_by entries.length

theorem tidy_arrange (entries : List Entry) : Tidy (arrange entries) :=
  ⟨ordered_arrange entries, isChain_eraseReps _⟩

/-- What stands together in tidy entries is tidy. -/
theorem Tidy.of_isInfix {entries part : List Entry} (h : Tidy entries) (hpart : part <:+: entries) :
    Tidy part := by
  refine ⟨h.ordered.sublist hpart.sublist, ?_⟩
  obtain ⟨before, after, rfl⟩ := hpart
  exact h.apart.left_of_append.right_of_append

/-- Entries stay tidy without bytes that all of them begin with. -/
theorem Tidy.of_under {bytes : List UInt8} {entries : List Entry}
    (h : Tidy (entries.map (Entry.under bytes))) : Tidy entries := by
  refine ⟨h.ordered.of_under, List.isChain_of_isChain_map (Entry.under bytes) ?_ h.apart⟩
  intro a b hne heq
  exact hne (congrArg (Entry.under bytes) heq)

theorem Tidy.behind_shared {entries : List Entry} (h : Tidy entries) :
    Tidy (entries.map (·.drop (shared entries).length)) := by
  have hunder := map_under_drop fun e he => shared_begins h.ordered (e := e) he
  exact Tidy.of_under (hunder.symm ▸ h)

/-- A group stands together within the entries, once the key that ends is told apart. -/
theorem Tidy.group {path : List UInt8} {entries : List Entry} {ending : Option Leaf}
    (h : Tidy entries) (hstop : stop path entries = .ok ending) {part : UInt8 × List Entry}
    (hpart : part ∈ groups entries) : Tidy part.2 := by
  obtain ⟨last, -, -, hentries⟩ := stop_append_ungroup h.ordered hstop
  have hgroup : part.2.map (Entry.under [part.1]) <:+: ungroup (groups entries) :=
    List.infix_of_mem_flatten
      (List.mem_map_of_mem (f := fun p => p.2.map (Entry.under [p.1])) hpart)
  have hgroups : ungroup (groups entries) <:+: entries := by
    conv => rhs; rw [hentries]
    exact (List.suffix_append _ _).isInfix
  exact (h.of_isInfix (hgroup.trans hgroups)).of_under

/-! ## The key that ends -/

section Stop
variable {path : List UInt8} {entries : List Entry}

/-- A key with no bytes left comes first. -/
theorem Ordered.exists_cons {e : Entry} (h : Ordered entries) (he : e ∈ entries)
    (hkey : e.key = []) :
    ∃ stay target value rest, entries = ⟨[], stay, target, value⟩ :: rest := by
  cases entries with
  | nil => cases he
  | cons a rest =>
    obtain ⟨key, stay, target, value⟩ := a
    have hle := h.head_le he
    rw [hkey] at hle
    obtain rfl : key = [] := List.le_nil.mp hle
    exact ⟨stay, target, value, rest, rfl⟩

theorem stop_of_root {e : Entry} (h : Ordered entries) (he : e ∈ entries) (hkey : e.key = []) :
    stop [] entries = .error .emptyRoot := by
  obtain ⟨stay, target, value, rest, rfl⟩ := h.exists_cons he hkey
  rfl

/-- One entry alone has no bytes left. -/
theorem stop_of_unique {e : Entry} (h : Tidy entries) (hpath : path ≠ []) (he : e ∈ entries)
    (hkey : e.key = []) (hunique : ∀ e' ∈ entries, e'.key = [] → e' = e) :
    stop path entries = .ok (some e.leaf) := by
  obtain ⟨stay, target, value, rest, rfl⟩ := h.ordered.exists_cons he hkey
  obtain rfl := hunique _ List.mem_cons_self rfl
  refine (if_neg hpath).trans ?_
  split
  · -- a second one would be the same entry, right next to it
    rename_i stay' target' value' rest'
    have hsame := hunique ⟨[], stay', target', value'⟩ (by simp) rfl
    exact absurd hsame.symm (List.isChain_cons_cons.mp h.apart).1
  · rfl

theorem stop_of_ne {e e' : Entry} (h : Ordered entries) (hpath : path ≠ []) (he : e ∈ entries)
    (he' : e' ∈ entries) (hkey : e.key = []) (hkey' : e'.key = []) (hne : e ≠ e') :
    stop path entries = .error (.duplicate path) := by
  obtain ⟨stay, target, value, rest, rfl⟩ := h.exists_cons he hkey
  have hsecond : ∃ e ∈ rest, e.key = [] := by
    rcases List.mem_cons.mp he with rfl | he
    · exact ⟨e', (List.mem_cons.mp he').resolve_left hne.symm, hkey'⟩
    · exact ⟨e, he, hkey⟩
  obtain ⟨e, he, hkey⟩ := hsecond
  obtain ⟨stay', target', value', rest', rfl⟩ := h.tail.exists_cons he hkey
  exact if_neg hpath

end Stop

/-! ## What each step sees -/

section Congr
variable {entries entries' : List Entry} (h : ∀ e, e ∈ entries ↔ e ∈ entries')
include h

theorem eq_nil_congr : entries = [] ↔ entries' = [] := by
  simp only [List.eq_nil_iff_forall_not_mem, h]

/-- **One key ends, or none, or several.** -/
theorem stop_congr (ht : Tidy entries) (ht' : Tidy entries') (path : List UInt8) :
    stop path entries = stop path entries' := by
  by_cases hending : ∃ e ∈ entries, e.key = []
  · obtain ⟨e, he, hkey⟩ := hending
    by_cases hpath : path = []
    · rw [hpath, stop_of_root ht.ordered he hkey, stop_of_root ht'.ordered ((h e).mp he) hkey]
    · by_cases hunique : ∀ e' ∈ entries, e'.key = [] → e' = e
      · rw [stop_of_unique ht hpath he hkey hunique, stop_of_unique ht' hpath ((h e).mp he) hkey
          fun e' he' => hunique e' ((h e').mpr he')]
      · push Not at hunique
        obtain ⟨e', he', hkey', hne⟩ := hunique
        rw [stop_of_ne ht.ordered hpath he' he hkey' hkey hne,
          stop_of_ne ht'.ordered hpath ((h e').mp he') ((h e).mp he) hkey' hkey hne]
  · push Not at hending
    rw [stop_of_forall hending, stop_of_forall fun e he => hending e ((h e).mpr he)]

/-- **The least and the greatest key** are those of the set. -/
theorem shared_congr (ho : Ordered entries) (ho' : Ordered entries') :
    shared entries = shared entries' := by
  by_cases hnil : entries = []
  · rw [hnil, (eq_nil_congr h).mp hnil]
  · have hnil' : entries' ≠ [] := mt (eq_nil_congr h).mpr hnil
    obtain ⟨a, rest, rfl⟩ := List.exists_cons_of_ne_nil hnil
    obtain ⟨b, rest', rfl⟩ := List.exists_cons_of_ne_nil hnil'
    have hfirst : a.key = b.key := List.le_antisymm
      (ho.head_le ((h b).mpr List.mem_cons_self)) (ho'.head_le ((h a).mp List.mem_cons_self))
    have hlast := List.getLast?_eq_some_getLast hnil
    have hlast' := List.getLast?_eq_some_getLast hnil'
    have hgreatest : ((a :: rest).getLast hnil).key = ((b :: rest').getLast hnil').key :=
      List.le_antisymm (ho'.le_getLast hlast' ((h _).mp (List.getLast_mem hnil)))
        (ho.le_getLast hlast ((h _).mpr (List.getLast_mem hnil')))
    unfold shared
    rw [hlast, hlast', List.head?_cons, List.head?_cons]
    dsimp only
    rw [hfirst, hgreatest]

theorem stay?_congr : stay? entries = stay? entries' := by
  by_cases hnil : entries = []
  · rw [hnil, (eq_nil_congr h).mp hnil]
  · have hnil' : entries' ≠ [] := mt (eq_nil_congr h).mpr hnil
    apply Option.ext
    intro stay
    constructor
    · intro hstay
      exact stay?_of_forall hnil' fun e he => stay?_eq_some hstay e ((h e).mpr he)
    · intro hstay
      exact stay?_of_forall hnil fun e he => stay?_eq_some hstay e ((h e).mp he)

theorem any_stay_congr : entries.any (·.stay) = entries'.any (·.stay) := by
  rw [Bool.eq_iff_iff, List.any_eq_true, List.any_eq_true]
  simp only [h]

omit h in
theorem longest_le {n : Nat} (hall : ∀ e ∈ entries, e.key.length ≤ n) : longest entries ≤ n := by
  induction entries with
  | nil => exact Nat.zero_le n
  | cons a rest ih =>
    exact Nat.max_le.mpr ⟨hall a List.mem_cons_self,
      ih fun e he => hall e (List.mem_cons_of_mem a he)⟩

theorem longest_congr : longest entries = longest entries' :=
  Nat.le_antisymm (longest_le fun e he => le_longest ((h e).mp he))
    (longest_le fun e he => le_longest ((h e).mpr he))

omit h in
/-- The entries of a group are those that begin with its byte. -/
theorem mem_of_mem_groups (ho : Ordered entries) {part : UInt8 × List Entry}
    (hpart : part ∈ groups entries) {e : Entry} : e ∈ part.2 ↔ e.under [part.1] ∈ entries := by
  refine ⟨under_mem_of_mem_groups hpart, fun he => ?_⟩
  obtain ⟨part', hpart', hbyte, e', he', heq⟩ :=
    exists_group he (show [part.1] <+: (e.under [part.1]).key from List.prefix_append _ _)
  obtain rfl := eq_of_mem_groups ho hpart' hpart hbyte
  have hsame : e = e' := by
    obtain ⟨key, stay, target, value⟩ := e
    obtain ⟨key', stay', target', value'⟩ := e'
    simpa [Entry.under] using heq
  exact hsame ▸ he'

omit h in
theorem mem_map_fst_groups {byte : UInt8} :
    byte ∈ (groups entries).map (·.1) ↔ ∃ e ∈ entries, [byte] <+: e.key := by
  constructor
  · intro hbyte
    obtain ⟨part, hpart, rfl⟩ := List.mem_map.mp hbyte
    obtain ⟨e, he⟩ := List.exists_mem_of_ne_nil _ (ne_nil_of_mem_groups hpart)
    exact ⟨_, under_mem_of_mem_groups hpart he, List.prefix_append _ _⟩
  · rintro ⟨e, he, hbyte⟩
    obtain ⟨part, hpart, rfl, -⟩ := exists_group he hbyte
    exact List.mem_map_of_mem hpart

/-- **The groups** have the same bytes and the same entries. -/
theorem forall₂_groups (ho : Ordered entries) (ho' : Ordered entries') :
    List.Forall₂ (fun part part' => part ∈ groups entries ∧ part' ∈ groups entries' ∧
        part.1 = part'.1 ∧ ∀ e, e ∈ part.2 ↔ e ∈ part'.2)
      (groups entries) (groups entries') := by
  have hbytes : (groups entries).map (·.1) = (groups entries').map (·.1) := by
    refine (ascending_groups ho).eq_of_mem_iff (ascending_groups ho') fun byte => ?_
    simp only [mem_map_fst_groups, h]
  have hpairs : List.Forall₂ (fun part part' => part.1 = part'.1) (groups entries)
      (groups entries') := by
    have hrefl := List.forall₂_eq_eq_eq ▸ hbytes
    rwa [List.forall₂_map_left_iff, List.forall₂_map_right_iff] at hrefl
  have hboth := (List.forall₂_and_left _ _).mpr ⟨fun _ hpart => hpart,
    ((List.forall₂_and_left _ _).mpr ⟨fun _ hpart => hpart, hpairs.flip⟩).flip⟩
  refine hboth.imp ?_
  rintro part part' ⟨hpart, hpart', hbyte⟩
  refine ⟨hpart, hpart', hbyte, fun e => ?_⟩
  rw [mem_of_mem_groups ho hpart, mem_of_mem_groups ho' hpart', h, hbyte]

end Congr

/-! ## Level by level -/

theorem mapM_eq_of_forall₂ {ε α β γ : Type} {f : α → Except ε γ} {g : β → Except ε γ} {xs : List α}
    {ys : List β} (h : List.Forall₂ (fun x y => f x = g y) xs ys) : xs.mapM f = ys.mapM g := by
  induction h with
  | nil => rfl
  | cons hxy _ ih => rw [List.mapM_cons, List.mapM_cons, hxy, ih]

/-- **A level sees the set of its entries only.** -/
theorem level_congr {bound : Nat} {path : List UInt8} {entries entries' : List Entry}
    (ht : Tidy entries) (ht' : Tidy entries') (h : ∀ e, e ∈ entries ↔ e ∈ entries') :
    level bound path entries = level bound path entries' := by
  induction bound generalizing path entries entries' with
  | zero => rw [level, level, stop_congr h ht ht']
  | succ bound ih =>
    have hsame := shared_congr h ht.ordered ht'.ordered
    by_cases hshared : 1 < (shared entries).length
    · have hbehind : ∀ e, e ∈ entries.map (·.drop (shared entries).length) ↔
          e ∈ entries'.map (·.drop (shared entries).length) := by
        intro e
        simp only [List.mem_map, h]
      have htidy' : Tidy (entries'.map (·.drop (shared entries).length)) :=
        hsame ▸ ht'.behind_shared
      rw [level_of_shared hshared, level_of_shared (hsame ▸ hshared), ← hsame, any_stay_congr h,
        ih ht.behind_shared htidy' hbehind]
    · have hshared' : ¬ 1 < (shared entries').length := hsame ▸ hshared
      have hstops := stop_congr h ht ht' path
      cases hstop : stop path entries with
      | error e =>
        rw [level_of_stop_error hshared hstop, level_of_stop_error hshared' (hstops ▸ hstop)]
      | ok ending =>
        have hstop' : stop path entries' = .ok ending := hstops ▸ hstop
        have hparts := forall₂_groups h ht.ordered ht'.ordered
        by_cases hgroups : groups entries = []
        · have hgroups' : groups entries' = [] := by
            rw [hgroups] at hparts
            exact List.forall₂_nil_left_iff.mp hparts
          rw [level, level, if_neg hshared, if_neg hshared', hstop, hstop', hgroups, hgroups']
        · have hgroups' : groups entries' ≠ [] := by
            intro hnil
            rw [hnil] at hparts
            exact hgroups (List.forall₂_nil_right_iff.mp hparts)
          rw [level_of_groups hshared hstop hgroups, level_of_groups hshared' hstop' hgroups']
          refine congrArg _ (mapM_eq_of_forall₂ (hparts.imp ?_))
          rintro part part' ⟨hpart, hpart', hbyte, hgroup⟩
          rw [groupChild, groupChild, stay?_congr hgroup, hbyte,
            ih (ht.group hstop hpart) (ht'.group hstop' hpart') hgroup]

/-- **The trie of entries depends on their set only.** -/
theorem ofEntries_congr {entries entries' : List Entry} (h : ∀ e, e ∈ entries ↔ e ∈ entries') :
    ofEntries entries = ofEntries entries' := by
  rw [ofEntries, ofEntries]
  by_cases hnil : entries = []
  · rw [if_pos hnil, if_pos ((eq_nil_congr h).mp hnil)]
  · have harranged : ∀ e, e ∈ arrange entries ↔ e ∈ arrange entries' := by
      intro e
      rw [mem_arrange, mem_arrange, h]
    rw [if_neg hnil, if_neg (mt (eq_nil_congr h).mpr hnil), longest_congr h,
      level_congr (tidy_arrange entries) (tidy_arrange entries') harranged]

/-- **The trie of edges depends on the set of edges with byte keys only**, and so does the error
when there is none. -/
theorem result_trieJournaled_congr (name : String) (edges edges' : List Edge)
    (h : ∀ (e : Edge) (bytes : List UInt8), e.key = .bytes bytes → (e ∈ edges ↔ e ∈ edges')) :
    (Blueprint.trieJournaled name edges).result = (Blueprint.trieJournaled name edges').result := by
  refine ofEntries_congr fun a => ?_
  rw [Blueprint.mem_filterMap_entryOf?, Blueprint.mem_filterMap_entryOf?]
  constructor
  · rintro ⟨e, he, hkey, hrest⟩
    exact ⟨e, (h e a.key hkey).mp he, hkey, hrest⟩
  · rintro ⟨e, he, hkey, hrest⟩
    exact ⟨e, (h e a.key hkey).mpr he, hkey, hrest⟩

/-- Two edges under one key, one of them twice but not side by side, and an edge for a code. -/
def jumbledEdges : List Edge :=
  [⟨.bytes [98], false, 1, none⟩, ⟨.bytes [98], false, 2, none⟩, ⟨.code 5, false, 9, none⟩,
    ⟨.bytes [98], false, 1, none⟩, ⟨.bytes [97, 99], true, 3, some 4⟩]

/-- The same edges with byte keys, each once and in another order. -/
def sortedEdges : List Edge :=
  [⟨.bytes [97, 99], true, 3, some 4⟩, ⟨.bytes [98], false, 2, none⟩, ⟨.bytes [98], false, 1, none⟩]

theorem result_trieJournaled_congr_jumbled :
    arrange (jumbledEdges.filterMap Blueprint.entryOf?) ≠
        arrange (sortedEdges.filterMap Blueprint.entryOf?) ∧
      (Blueprint.trieJournaled "start" jumbledEdges).result =
        (Blueprint.trieJournaled "start" sortedEdges).result ∧
      (Blueprint.trieJournaled "start" sortedEdges).result = .error (.duplicate [98]) := by
  refine ⟨?_, result_trieJournaled_congr "start" jumbledEdges sortedEdges ?_, by cbv⟩
  · cbv
    decide
  · intro e bytes hkey
    grind [jumbledEdges, sortedEdges]

end ByteMachine.Trie
