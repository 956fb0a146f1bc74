import ByteMachine.Compile.Pipeline
import ByteMachine.Proofs.Sites
import ByteMachine.Proofs.TrieMatching
import Mathlib

/-! # The trie of a list of edges

The trie of a list of edges can be described by the edges alone, without a look at how it is
built.

**Reading it back** gives the byte keys of the edges in ascending order, each once
(`read_eq_of_trieJournaled`).  This holds of any list of edges that has a trie, also of one
that no run of calls could make: where two edges share a key, they are the same edge.

**Following it** along an input ends as the keys demand (`follow_eq_iff_matches`).  `Matches`
says what they demand: how far the input agrees with some key, whether it ends there while a
key goes on, and which key, if any, it has completed.

**There is none** when a byte would have to be left and consumed at once.  If the keys follow
the rules for calls, this is the only reason, it can only occur at the first byte, and the
smallest such byte is named (`error_iff_contested`). -/
namespace ByteMachine.Trie

/-! ## Each key once -/

theorem append_lt_append {bytes x y : List UInt8} (h : x < y) : bytes ++ x < bytes ++ y := by
  induction bytes with
  | nil => exact h
  | cons byte bytes ih => exact List.cons_lt_cons_iff.mpr (.inr ⟨rfl, ih⟩)

/-- Bytes in front do not disturb the order of keys. -/
theorem ascending_map_under {entries : List Entry} (bytes : List UInt8)
    (h : entries.Pairwise fun a b => a.key < b.key) :
    (entries.map (Entry.under bytes)).Pairwise fun a b => a.key < b.key :=
  List.pairwise_map.mpr (h.imp append_lt_append)

/-- Groups whose bytes ascend, each in order, are in order together. -/
theorem ascending_ungroup {parts : List (UInt8 × List Entry)}
    (hbytes : (parts.map (·.1)).Pairwise (· < ·))
    (hparts : ∀ part ∈ parts, part.2.Pairwise fun a b => a.key < b.key) :
    (ungroup parts).Pairwise fun a b => a.key < b.key := by
  refine List.pairwise_flatMap.mpr ⟨fun part hpart => ?_, ?_⟩
  · exact ascending_map_under [part.1] (hparts part hpart)
  · refine (List.pairwise_map.mp hbytes).imp fun {part part'} hlt a ha b hb => ?_
    obtain ⟨a, -, rfl⟩ := List.mem_map.mp ha
    obtain ⟨b, -, rfl⟩ := List.mem_map.mp hb
    exact List.cons_lt_cons_iff.mpr (.inl hlt)

/-- **A trie tells its keys apart**: the keys of what it is built from ascend. -/
theorem Built.ascending {path : List UInt8} {entries : List Entry} {t : Trie}
    (h : Built path entries t) : entries.Pairwise fun a b => a.key < b.key := by
  refine Built.induct ?leaf ?run ?branch h
  case leaf =>
    intro path e _ _
    exact List.pairwise_singleton _ _
  case run =>
    intro path bytes entries next _ _ _ ih
    exact ascending_map_under bytes ih
  case branch =>
    intro path last parts children _ hlast hbytes hparts
    have hgroups : (ungroup parts).Pairwise fun a b => a.key < b.key := by
      refine ascending_ungroup hbytes fun part hpart => ?_
      obtain ⟨child, -, -, -, -, ih⟩ := exists_of_forall₂ hparts.flip hpart
      exact ih
    refine List.pairwise_append.mpr ⟨by cases last <;> simp, hgroups, ?_⟩
    -- the key that ends comes before all keys that go on
    intro a ha b hb
    rw [(hlast a (Option.mem_toList.mp ha)).2]
    obtain ⟨part, -, hb⟩ := List.mem_flatMap.mp hb
    obtain ⟨b, -, rfl⟩ := List.mem_map.mp hb
    exact List.nil_lt_cons _ _

/-- Repetitions that stand side by side are all repetitions there are, if nothing is repeated
without them. -/
theorem eraseDups_eq_eraseReps (entries : List Entry) (h : entries.eraseReps.Nodup) :
    entries.eraseDups = entries.eraseReps := by
  match entries with
  | [] => rfl
  | [a] => rfl
  | a :: b :: rest =>
    rw [eraseReps_cons_cons] at h ⊢
    by_cases hab : a = b
    · rw [if_pos hab] at h ⊢
      rw [← eraseDups_eq_eraseReps (a :: rest) h, ← hab]
      simp [List.eraseDups_cons]
    · rw [if_neg hab] at h ⊢
      obtain ⟨ha, hrest⟩ := List.nodup_cons.mp h
      rw [mem_eraseReps] at ha
      rw [← eraseDups_eq_eraseReps (b :: rest) hrest, List.eraseDups_cons]
      congr 2
      refine List.filter_eq_self.mpr fun e he => ?_
      have hne : e ≠ a := by
        rintro rfl
        exact ha he
      simpa using hne
termination_by entries.length

/-- **Reading the trie of edges back** gives their byte keys, sorted and without repetitions,
with where they lead; and no two leaves have the same key. -/
theorem read_eq_of_trieJournaled (name : String) (edges : List Edge) (t : Trie)
    (h : (Blueprint.trieJournaled name edges).result = .ok (some t)) :
    t.read false =
        ((edges.filterMap Blueprint.entryOf?).mergeSort fun a b => a.key ≤ b.key).eraseDups ∧
      (t.read false).Pairwise fun a b => a.key < b.key := by
  have hbuilt : Built [] (arrange (edges.filterMap Blueprint.entryOf?)) t := built_of_ofEntries h
  have hascending := hbuilt.ascending
  rw [hbuilt.read_root]
  refine ⟨(eraseDups_eq_eraseReps _ ?_).symm, hascending⟩
  refine hascending.imp fun {a b} hlt heq => ?_
  rw [heq] at hlt
  exact List.lt_irrefl _ hlt

/-- Edges that no calls could make: longer keys that leave their last byte, an edge that is
repeated, and an edge for a returned code. -/
def unrulyEdges : List Edge :=
  [⟨.bytes [98, 99], true, 2, none⟩, ⟨.code 5, true, 9, none⟩, ⟨.bytes [98, 97], true, 1, some 7⟩,
    ⟨.bytes [97, 98, 99, 100], false, 4, none⟩, ⟨.bytes [98, 99], true, 2, none⟩,
    ⟨.bytes [97, 98, 99], false, 3, none⟩]

/-- The trie of these edges. -/
def unrulyTrie : Trie :=
  .branch
    [(97, false, .run [98, 99] (.branch [(100, false, .leaf ⟨4, none⟩)] (some ⟨3, none⟩))),
      (98, true, .branch [(97, true, .leaf ⟨1, some 7⟩), (99, true, .leaf ⟨2, none⟩)] none)]
    none

theorem read_eq_of_trieJournaled_unruly :
    (Blueprint.trieJournaled "start" unrulyEdges).result = .ok (some unrulyTrie) ∧
      unrulyTrie.read false =
        ((unrulyEdges.filterMap Blueprint.entryOf?).mergeSort fun a b => a.key ≤ b.key).eraseDups ∧
      (unrulyTrie.read false).Pairwise fun a b => a.key < b.key := by
  have h : (Blueprint.trieJournaled "start" unrulyEdges).result = .ok (some unrulyTrie) := by cbv
  exact ⟨h, read_eq_of_trieJournaled "start" unrulyEdges unrulyTrie h⟩

/-! ## How far the keys agree with an input -/

/-- **The longest beginning** of the input with which some key begins. -/
structure Longest (keys : List (List UInt8)) (input p : List UInt8) : Prop where
  start : p <+: input
  begins : ∃ key ∈ keys, p <+: key
  longest : ∀ q, q <+: input → (∃ key ∈ keys, q <+: key) → q.length ≤ p.length

/-- Some key goes on behind the bytes. -/
def GoesOn (keys : List (List UInt8)) (p : List UInt8) : Prop := ∃ key ∈ keys, p <+: key ∧ p ≠ key

/-- There is one longest beginning only. -/
theorem Longest.unique {keys : List (List UInt8)} {input p q : List UInt8}
    (hp : Longest keys input p) (hq : Longest keys input q) : p = q := by
  have hlength : p.length = q.length :=
    Nat.le_antisymm (hq.longest p hp.start hp.begins) (hp.longest q hq.start hq.begins)
  exact (List.prefix_of_prefix_length_le hp.start hq.start (Nat.le_of_eq hlength)).eq_of_length
    hlength

/-- The longest beginning is found among all beginnings. -/
theorem longest_longestPrefix {keys : List (List UInt8)} (hne : keys ≠ []) (input : List UInt8) :
    Longest keys input (longestPrefix keys input) := by
  obtain ⟨key, hkey⟩ := List.exists_mem_of_ne_nil _ hne
  induction input generalizing keys key with
  | nil =>
    rw [longestPrefix_nil]
    refine ⟨List.nil_prefix, ⟨key, hkey, List.nil_prefix⟩, fun q hq _ => ?_⟩
    rw [List.prefix_nil.mp hq]
  | cons byte input ih =>
    have hbehind : ∀ {rest : List UInt8},
        rest ∈ keys.filterMap (behind? byte) ↔ byte :: rest ∈ keys := by
      intro rest
      rw [List.mem_filterMap]
      constructor
      · rintro ⟨key, hkey, hrest⟩
        exact behind?_eq_some.mp hrest ▸ hkey
      · intro hmem
        exact ⟨_, hmem, behind?_eq_some.mpr rfl⟩
    rw [longestPrefix_cons]
    by_cases hnone : keys.filterMap (behind? byte) = []
    · rw [if_pos hnone]
      refine ⟨List.nil_prefix, ⟨key, hkey, List.nil_prefix⟩, ?_⟩
      -- a longer beginning starts with the byte, and so does no key
      rintro q hq ⟨key, hkey, hqkey⟩
      cases q with
      | nil => exact Nat.le_refl 0
      | cons b q =>
        obtain ⟨rfl, -⟩ := List.cons_prefix_cons.mp hq
        obtain ⟨rest, rfl⟩ := hqkey
        have := hbehind.mpr hkey
        rw [hnone] at this
        cases this
    · rw [if_neg hnone]
      obtain ⟨rest, hrest⟩ := List.exists_mem_of_ne_nil _ hnone
      obtain ⟨hstart, ⟨found, hfound, hbegins⟩, hlongest⟩ := ih hnone rest hrest
      refine ⟨List.cons_prefix_cons.mpr ⟨rfl, hstart⟩, ⟨byte :: found, hbehind.mp hfound,
        List.cons_prefix_cons.mpr ⟨rfl, hbegins⟩⟩, ?_⟩
      rintro q hq ⟨key, hkey, hqkey⟩
      cases q with
      | nil => exact Nat.zero_le _
      | cons b q =>
        obtain ⟨rfl, hqinput⟩ := List.cons_prefix_cons.mp hq
        obtain ⟨more, rfl⟩ := hqkey
        have := hlongest q hqinput ⟨q ++ more, hbehind.mpr hkey, List.prefix_append _ _⟩
        simpa using this

/-! ## What the keys demand -/

/-- The byte keys of edges. -/
def keysOf (edges : List Edge) : List (List UInt8) :=
  (edges.map (·.key)).filterMap Blueprint.bytesOf?

/-- **What the keys of edges demand** of an input, by the longest beginning `p` of it with which
a key begins.  More input is needed when `p` is all of it and a key goes on.  Otherwise the key
`p` is matched, and consumed unless its byte is to be left, or else no key is. -/
inductive Matches (edges : List Edge) (input : List UInt8) : Verdict → Prop
  | starved {p : List UInt8} (hp : Longest (keysOf edges) input p) (hall : p = input)
      (hmore : GoesOn (keysOf edges) p) : Matches edges input (.starved p.length)
  | accepted {p : List UInt8} {e : Edge} (hp : Longest (keysOf edges) input p)
      (hend : ¬ (p = input ∧ GoesOn (keysOf edges) p)) (he : e ∈ edges) (hkey : e.key = .bytes p) :
      Matches edges input (.accepted (if e.stay then 0 else p.length) ⟨e.target, e.value⟩)
  | rejected {p : List UInt8} (hp : Longest (keysOf edges) input p)
      (hend : ¬ (p = input ∧ GoesOn (keysOf edges) p)) (hnone : ∀ e ∈ edges, e.key ≠ .bytes p) :
      Matches edges input (.rejected p.length)

section Matches
variable {edges : List Edge} {input : List UInt8}

theorem goesOn_keysOf {p : List UInt8} :
    GoesOn (keysOf edges) p ↔
      ∃ e ∈ edges.filterMap Blueprint.entryOf?, p <+: e.key ∧ p ≠ e.key := by
  rw [keysOf, ← Blueprint.map_key_entryOf?]
  simp [GoesOn]

theorem find?_key_eq_none {p : List UInt8} (hnone : ∀ e ∈ edges, e.key ≠ .bytes p) :
    (edges.filterMap Blueprint.entryOf?).find? (·.key = p) = none := by
  refine List.find?_eq_none.mpr fun a ha => ?_
  obtain ⟨e, he, hkey, -⟩ := Blueprint.mem_filterMap_entryOf?.mp ha
  have hne : a.key ≠ p := by
    rintro rfl
    exact hnone e he hkey
  simpa using hne

/-- The edge of a key is found when keys differ. -/
theorem find?_key_eq_some (hdistinct : (edges.map (·.key)).Nodup) {p : List UInt8} {e : Edge}
    (he : e ∈ edges) (hkey : e.key = .bytes p) :
    (edges.filterMap Blueprint.entryOf?).find? (·.key = p) =
      some ⟨p, e.stay, e.target, e.value⟩ := by
  have hmem : ⟨p, e.stay, e.target, e.value⟩ ∈ edges.filterMap Blueprint.entryOf? :=
    Blueprint.mem_filterMap_entryOf?.mpr ⟨e, he, hkey, rfl, rfl, rfl⟩
  cases hfind : (edges.filterMap Blueprint.entryOf?).find? (·.key = p) with
  | none => simpa using List.find?_eq_none.mp hfind _ hmem
  | some a =>
    have hakey : a.key = p := by simpa using List.find?_some hfind
    rw [List.inj_on_of_nodup_map (Blueprint.nodup_map_key_entryOf? hdistinct)
      (List.mem_of_find?_eq_some hfind) hmem hakey]

/-- Matching by keys does what the keys demand. -/
theorem byKeys_eq_of_matches (hdistinct : (edges.map (·.key)).Nodup) {v : Verdict}
    (h : Matches edges input v) : byKeys (edges.filterMap Blueprint.entryOf?) input = v := by
  have hlongest : ∀ {p : List UInt8}, Longest (keysOf edges) input p →
      longestPrefix ((edges.filterMap Blueprint.entryOf?).map (·.key)) input = p := by
    intro p hp
    obtain ⟨key, hkey, -⟩ := hp.begins
    rw [Blueprint.map_key_entryOf?]
    exact (longest_longestPrefix (List.ne_nil_of_mem hkey) input).unique hp
  cases h with
  | starved hp hall hmore =>
    simp only [byKeys, hlongest hp]
    rw [if_pos ⟨hall, goesOn_keysOf.mp hmore⟩]
  | accepted hp hend he hkey =>
    simp only [byKeys, hlongest hp]
    rw [goesOn_keysOf] at hend
    rw [if_neg hend, find?_key_eq_some hdistinct he hkey]
    rfl
  | rejected hp hend hnone =>
    simp only [byKeys, hlongest hp]
    rw [goesOn_keysOf] at hend
    rw [if_neg hend, find?_key_eq_none hnone]

/-- The keys always demand something, if there are any. -/
theorem exists_matches (hne : keysOf edges ≠ []) (input : List UInt8) :
    ∃ v, Matches edges input v := by
  have hp := longest_longestPrefix hne input
  by_cases hmore : longestPrefix (keysOf edges) input = input ∧
      GoesOn (keysOf edges) (longestPrefix (keysOf edges) input)
  · exact ⟨_, .starved hp hmore.1 hmore.2⟩
  · by_cases hedge : ∃ e ∈ edges, e.key = .bytes (longestPrefix (keysOf edges) input)
    · obtain ⟨e, he, hkey⟩ := hedge
      exact ⟨_, .accepted hp hmore he hkey⟩
    · exact ⟨_, .rejected hp hmore fun e he hkey => hedge ⟨e, he, hkey⟩⟩

end Matches

/-- **The trie of edges matches what their keys demand**, and nothing else, if the keys differ
and only keys of one byte leave it. -/
theorem follow_eq_iff_matches (name : String) (edges : List Edge) (t : Trie)
    (hdistinct : (edges.map (·.key)).Nodup)
    (hpeek : ∀ e ∈ edges, ∀ key, e.key = .bytes key → e.stay = true → key.length = 1)
    (h : (Blueprint.trieJournaled name edges).result = .ok (some t)) (input : List UInt8)
    (v : Verdict) : follow t input = v ↔ Matches edges input v := by
  have hfollow : follow t input = byKeys (edges.filterMap Blueprint.entryOf?) input := by
    refine follow_eq_byKeys h (Blueprint.nodup_map_key_entryOf? hdistinct) ?_ input
    intro a ha hstay
    obtain ⟨e, he, hkey, hestay, -⟩ := Blueprint.mem_filterMap_entryOf?.mp ha
    exact hpeek e he a.key hkey (hestay.trans hstay)
  have hne : keysOf edges ≠ [] := by
    rw [keysOf, ← Blueprint.map_key_entryOf?]
    intro hnil
    have hread := (built_of_ofEntries h).nonempty
    rw [List.map_eq_nil_iff.mp hnil] at hread
    exact hread (by rw [arrange, List.mergeSort_nil]; rfl)
  rw [hfollow]
  constructor
  · rintro rfl
    obtain ⟨v, hv⟩ := exists_matches hne input
    rwa [byKeys_eq_of_matches hdistinct hv]
  · exact byKeys_eq_of_matches hdistinct

/-- A key inside another one, a key with a value and a key that leaves its byte. -/
def wordEdges : List Edge :=
  [⟨.bytes [97, 98, 99, 100], false, 1, some 5⟩, ⟨.bytes [97, 98, 99], false, 2, none⟩,
    ⟨.bytes [122], true, 3, none⟩]

/-- The trie of these edges. -/
def wordTrie : Trie :=
  .branch
    [(97, false, .run [98, 99] (.branch [(100, false, .leaf ⟨1, some 5⟩)] (some ⟨2, none⟩))),
      (122, true, .leaf ⟨3, none⟩)]
    none

theorem follow_eq_iff_matches_word :
    (wordEdges.map (·.key)).Nodup ∧
      (Blueprint.trieJournaled "start" wordEdges).result = .ok (some wordTrie) ∧
      Matches wordEdges [97, 98, 99] (.starved 3) ∧
      Matches wordEdges [97, 98, 99, 120] (.accepted 3 ⟨2, none⟩) ∧
      Matches wordEdges [122] (.accepted 0 ⟨3, none⟩) ∧
      Matches wordEdges [97, 98, 120] (.rejected 2) := by
  have hdistinct : (wordEdges.map (·.key)).Nodup := by decide
  have hpeek : ∀ e ∈ wordEdges, ∀ key, e.key = .bytes key → e.stay = true → key.length = 1 := by
    simp [wordEdges]
  have h : (Blueprint.trieJournaled "start" wordEdges).result = .ok (some wordTrie) := by cbv
  have hmatches : ∀ {input v}, follow wordTrie input = v → Matches wordEdges input v :=
    fun {input v} =>
      (follow_eq_iff_matches "start" wordEdges wordTrie hdistinct hpeek h input v).mp
  exact ⟨hdistinct, h, hmatches (by cbv), hmatches (by cbv), hmatches (by cbv), hmatches (by cbv)⟩

/-! ## Edges without a trie -/

theorem mem_keysOf {edges : List Edge} {e : Edge} {key : List UInt8} (he : e ∈ edges)
    (hkey : e.key = .bytes key) : key ∈ keysOf edges :=
  List.mem_filterMap.mpr ⟨.bytes key, List.mem_map.mpr ⟨e, he, hkey⟩, rfl⟩

/-- The rules for calls, said of the keys of edges. -/
theorem lawful_of_keysOf {edges : List Edge} (hdistinct : (keysOf edges).Nodup)
    (hnonempty : [] ∉ keysOf edges)
    (hpeek : ∀ e ∈ edges, ∀ key, e.key = .bytes key → e.stay = true → key.length = 1) :
    Lawful (edges.filterMap Blueprint.entryOf?) where
  distinct := by
    rw [Blueprint.map_key_entryOf?]
    exact hdistinct
  nonempty := by
    intro a ha hnil
    obtain ⟨e, he, hkey, -⟩ := Blueprint.mem_filterMap_entryOf?.mp ha
    exact hnonempty (hnil ▸ mem_keysOf he hkey)
  peek := by
    intro a ha hstay
    obtain ⟨e, he, hkey, hestay, -⟩ := Blueprint.mem_filterMap_entryOf?.mp ha
    exact hpeek e he a.key hkey (hestay.trans hstay)

/-- **Edges have no trie exactly when a byte is contested**, if their keys differ, none is empty
and only keys of one byte leave it.  The error is then no other than a conflict at the smallest
such byte. -/
theorem error_iff_contested (name : String) (edges : List Edge)
    (hdistinct : (keysOf edges).Nodup) (hnonempty : [] ∉ keysOf edges)
    (hpeek : ∀ e ∈ edges, ∀ key, e.key = .bytes key → e.stay = true → key.length = 1) :
    ((∃ error, (Blueprint.trieJournaled name edges).result = .error error) ↔
        ∃ byte, Blueprint.Contested edges byte) ∧
      ∀ error, (Blueprint.trieJournaled name edges).result = .error error →
        ∃ byte, error = .conflictingPeek [byte] ∧ Blueprint.Contested edges byte ∧
          ∀ other, Blueprint.Contested edges other → byte ≤ other := by
  have hlaw := lawful_of_keysOf hdistinct hnonempty hpeek
  have herror : ∀ error, (Blueprint.trieJournaled name edges).result = .error error →
      ∃ byte, error = .conflictingPeek [byte] ∧ Blueprint.Contested edges byte ∧
        ∀ other, Blueprint.Contested edges other → byte ≤ other := by
    intro error h
    simpa only [Blueprint.conflictAt_filterMap_entryOf?] using ofEntries_error hlaw h
  refine ⟨⟨?_, ?_⟩, herror⟩
  · rintro ⟨error, h⟩
    obtain ⟨byte, -, hbyte, -⟩ := herror error h
    exact ⟨byte, hbyte⟩
  · rintro ⟨byte, hbyte⟩
    cases h : (Blueprint.trieJournaled name edges).result with
    | error error => exact ⟨error, rfl⟩
    | ok t =>
      exact absurd (Blueprint.conflictAt_filterMap_entryOf?.mpr hbyte)
        (not_conflictAt_of_ok hlaw h byte)

/-- Two contested bytes, the larger one first, and a smaller byte that is merely left. -/
def contestedEdges : List Edge :=
  [⟨.bytes [98], true, 1, none⟩, ⟨.bytes [98, 120], false, 2, none⟩, ⟨.code 7, true, 3, none⟩,
    ⟨.bytes [97, 98, 99], false, 4, some 1⟩, ⟨.bytes [97], true, 5, none⟩,
    ⟨.bytes [96], true, 6, none⟩]

theorem error_iff_contested_smallest :
    (keysOf contestedEdges).Nodup ∧ [] ∉ keysOf contestedEdges ∧
      (Blueprint.trieJournaled "start" contestedEdges).result = .error (.conflictingPeek [97]) ∧
      Blueprint.Contested contestedEdges 97 ∧
      ∀ other, Blueprint.Contested contestedEdges other → 97 ≤ other := by
  have hdistinct : (keysOf contestedEdges).Nodup := by decide
  have hnonempty : [] ∉ keysOf contestedEdges := by decide
  have hpeek : ∀ e ∈ contestedEdges, ∀ key, e.key = .bytes key → e.stay = true →
      key.length = 1 := by
    simp [contestedEdges]
  have h : (Blueprint.trieJournaled "start" contestedEdges).result =
      .error (.conflictingPeek [97]) := by cbv
  obtain ⟨byte, herror, hbyte, hleast⟩ :=
    (error_iff_contested "start" contestedEdges hdistinct hnonempty hpeek).2 _ h
  obtain rfl : 97 = byte := by simpa using herror
  exact ⟨hdistinct, hnonempty, h, hbyte, hleast⟩

end ByteMachine.Trie
