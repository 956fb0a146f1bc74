import ByteMachine.Proofs.EdgeTries
import Mathlib

/-! # Compressed tries

A byte is **forced** where all keys that agree with the input so far go on with it.  A trie is
compressed when it never asks about two forced bytes in a row one by one: they stand in one
run.  So behind a run, and behind a branch that has nothing to choose, there is a leaf or a
branch with something to choose (`Compressed`).

The tries of edges are compressed, and they are so at every depth
(`compressed_of_trieJournaled`).  A level begins with all bytes that its keys share
(`prefix_shared`), so that behind them nothing is shared any more; and where nothing is shared
the trie does not begin with a forced byte (`Built.unforced`).  A branch is made where at most
one byte is shared, which is then the only forced one.

The second form of the same fact speaks of the keys alone: two or more bytes that are forced
behind some bytes are inside one run of the trie (`Built.inOneRun`). -/
namespace ByteMachine.Trie

/-- The trie does not begin with a forced byte: it is a leaf, or a branch with at least two ways
to go on, a stop being one of them. -/
def Unforced : Trie → Prop
  | .leaf _ => True
  | .branch children stop => 2 ≤ children.length ∨ (children.length = 1 ∧ stop.isSome = true)
  | .run .. => False

/-- **No forced bytes next to each other** unless in one run.  Branches have children, whose
bytes ascend, and runs have at least two bytes. -/
inductive Compressed : Trie → Prop
  | leaf {l : Leaf} : Compressed (.leaf l)
  | branch {children : List (UInt8 × Bool × Trie)} {stop : Option Leaf} (hne : children ≠ [])
      (hbytes : (children.map (·.1)).Pairwise (· < ·))
      (honly : ∀ child, children = [child] → stop = none → Unforced child.2.2)
      (hchildren : ∀ child ∈ children, Compressed child.2.2) : Compressed (.branch children stop)
  | run {bytes : List UInt8} {next : Trie} (hbytes : 2 ≤ bytes.length) (hbehind : Unforced next)
      (hnext : Compressed next) : Compressed (.run bytes next)

/-! ## All that is shared -/

theorem prefix_common {p a b : List UInt8} (ha : p <+: a) (hb : p <+: b) : p <+: common a b := by
  induction p generalizing a b with
  | nil => exact List.nil_prefix
  | cons byte p ih =>
    obtain ⟨as, rfl⟩ := ha
    obtain ⟨bs, rfl⟩ := hb
    rw [List.cons_append, List.cons_append, common, if_pos rfl]
    exact List.cons_prefix_cons.mpr ⟨rfl, ih (List.prefix_append _ _) (List.prefix_append _ _)⟩

/-- **Nothing that all keys share is missed.** -/
theorem prefix_shared {entries : List Entry} (hne : entries ≠ []) {p : List UInt8}
    (h : ∀ e ∈ entries, p <+: e.key) : p <+: shared entries := by
  unfold shared
  rw [List.head?_eq_some_head hne, List.getLast?_eq_some_getLast hne]
  exact prefix_common (h _ (List.head_mem hne)) (h _ (List.getLast_mem hne))

theorem common_append (bytes a b : List UInt8) :
    common (bytes ++ a) (bytes ++ b) = bytes ++ common a b := by
  induction bytes with
  | nil => rfl
  | cons byte bytes ih => rw [List.cons_append, List.cons_append, common, if_pos rfl, ih]; rfl

/-- Bytes in front are shared. -/
theorem shared_map_under {entries : List Entry} (hne : entries ≠ []) (bytes : List UInt8) :
    shared (entries.map (Entry.under bytes)) = bytes ++ shared entries := by
  unfold shared
  rw [List.head?_map, List.getLast?_map, List.head?_eq_some_head hne,
    List.getLast?_eq_some_getLast hne]
  exact common_append bytes _ _

section Built
variable {path : List UInt8} {entries : List Entry} {t : Trie}

/-- Two shared bytes or more begin a run. -/
theorem Built.exists_run (h : Built path entries t) (hshared : 1 < (shared entries).length) :
    ∃ next, t = .run (shared entries) next := by
  obtain ⟨hord, hne, bound, hbound, h⟩ := h
  cases bound with
  | zero =>
    obtain ⟨e, he⟩ := List.exists_mem_of_ne_nil _ hne
    have hlength := (shared_begins hord he).length_le
    have := hbound e he
    omega
  | succ bound =>
    rw [level_of_shared hshared] at h
    split at h
    · cases h
    · obtain ⟨next, -, rfl⟩ := except_map_eq_ok h
      exact ⟨next, rfl⟩

/-- Behind a run nothing is shared. -/
theorem Built.shared_behind_run {bytes : List UInt8} {next : Trie} (hne : entries ≠ [])
    (hbytes : 1 < bytes.length)
    (h : Built path (entries.map (Entry.under bytes)) (.run bytes next)) : shared entries = [] := by
  have hshared := shared_map_under hne bytes
  obtain ⟨next', hrun⟩ := h.exists_run (by rw [hshared, List.length_append]; omega)
  rw [hshared] at hrun
  simpa using (Trie.run.inj hrun).1

/-- Behind the byte of a branch that has nothing to choose, nothing is shared. -/
theorem Built.shared_behind_only {children : List (UInt8 × Bool × Trie)} {stop : Option Leaf}
    {byte : UInt8} (hne : entries ≠ [])
    (h : Built path (entries.map (Entry.under [byte])) (.branch children stop)) :
    shared entries = [] := by
  have hshared := shared_map_under hne [byte]
  by_contra hmore
  have hlength := List.length_pos_iff.mpr hmore
  obtain ⟨next, hrun⟩ := h.exists_run (by rw [hshared, List.length_append]; simpa using hlength)
  cases hrun

theorem ungroup_singleton (part : UInt8 × List Entry) :
    ungroup [part] = part.2.map (Entry.under [part.1]) := by
  simp [ungroup]

/-- **Where nothing is shared, nothing is forced.** -/
theorem Built.unforced (h : Built path entries t) : shared entries = [] → Unforced t := by
  refine Built.induct ?leaf ?run ?branch h
  case leaf =>
    intro path e _ _ _
    trivial
  case run =>
    intro path bytes entries next hbytes _ hbuilt _ hnone
    rw [shared_map_under hbuilt.nonempty] at hnone
    rw [(List.append_eq_nil_iff.mp hnone).1] at hbytes
    cases hbytes
  case branch =>
    intro path last parts children hne _ _ hparts hnone
    have hlength := hparts.length_eq
    match parts with
    | [] => exact absurd rfl hne
    | [part] =>
      cases last with
      | some e => exact .inr ⟨hlength.symm, rfl⟩
      | none =>
        -- the only group would share its byte
        obtain ⟨child, -, -, -, hbuilt, -⟩ := exists_of_forall₂ hparts.flip List.mem_cons_self
        rw [Option.toList_none, List.nil_append, ungroup_singleton,
          shared_map_under hbuilt.nonempty] at hnone
        cases hnone
    | part :: part' :: parts =>
      left
      rw [← hlength]
      simp

/-- **What is built is compressed.** -/
theorem Built.compressed (h : Built path entries t) : Compressed t := by
  -- what is shared behind a part is known from the part as a whole, so it is kept at hand
  refine Built.induct (motive := fun path entries t => Built path entries t → Compressed t)
    ?leaf ?run ?branch h h
  case leaf =>
    intro path e _ _ _
    exact .leaf
  case run =>
    intro path bytes entries next hbytes _ hbuilt ih hwhole
    have hnone := hwhole.shared_behind_run hbuilt.nonempty hbytes
    exact .run hbytes (hbuilt.unforced hnone) (ih hbuilt)
  case branch =>
    intro path last parts children _ _ _ hparts hwhole
    cases hwhole.proper with
    | branch hne hbytes hproper =>
      refine .branch hne hbytes ?_ ?_
      · rintro child rfl hnone
        obtain ⟨part, parts', ⟨-, -, hbuilt, -⟩, hrest, rfl⟩ :=
          List.forall₂_cons_right_iff.mp hparts
        obtain rfl := List.forall₂_nil_right_iff.mp hrest
        obtain rfl := Option.map_eq_none_iff.mp hnone
        rw [Option.toList_none, List.nil_append, ungroup_singleton] at hwhole
        exact hbuilt.unforced (hwhole.shared_behind_only hbuilt.nonempty)
      · intro child hchild
        obtain ⟨part, -, -, -, hbuilt, ih⟩ := exists_of_forall₂ hparts hchild
        exact ih hbuilt

end Built

/-! ## Forced bytes -/

/-- Some key begins with `p`, and every key that does goes on with the bytes. -/
structure Forced (keys : List (List UInt8)) (p bytes : List UInt8) : Prop where
  begins : ∃ key ∈ keys, p <+: key
  goesOn : ∀ key ∈ keys, p <+: key → p ++ bytes <+: key

theorem Forced.congr {keys keys' : List (List UInt8)} {p bytes : List UInt8}
    (h : Forced keys p bytes) (hkeys : ∀ key, key ∈ keys ↔ key ∈ keys') : Forced keys' p bytes := by
  obtain ⟨⟨key, hkey, hp⟩, hon⟩ := h
  exact ⟨⟨key, (hkeys key).mp hkey, hp⟩, fun key hkey => hon key ((hkeys key).mpr hkey)⟩

/-- What is forced behind bytes is forced without them for the keys behind them. -/
theorem Forced.of_append {keys keys' : List (List UInt8)} {p bytes : List UInt8}
    (front : List UInt8) (h : Forced keys (front ++ p) bytes)
    (hkeys : ∀ key ∈ keys', front ++ key ∈ keys) (hbegins : ∃ key ∈ keys', p <+: key) :
    Forced keys' p bytes := by
  refine ⟨hbegins, fun key hkey hp => ?_⟩
  have := h.goesOn _ (hkeys key hkey) ((List.prefix_append_right_inj front).mpr hp)
  rwa [List.append_assoc, List.prefix_append_right_inj] at this

/-- The bytes behind `p` are all inside one run of a trie that stands at `path`. -/
def InOneRun (path : List UInt8) (t : Trie) (p bytes : List UInt8) : Prop :=
  ∃ q run next, (path ++ q, .run run next) ∈ t.inner path ∧ q <+: p ∧ p ++ bytes <+: q ++ run

section InOneRun
variable {path p bytes : List UInt8}

theorem InOneRun.behind_run {run : List UInt8} {next : Trie}
    (h : InOneRun (path ++ run) next p bytes) : InOneRun path (.run run next) (run ++ p) bytes := by
  obtain ⟨q, run', next', hinner, hq, hbytes⟩ := h
  refine ⟨run ++ q, run', next', ?_, (List.prefix_append_right_inj run).mpr hq, ?_⟩
  · rw [← List.append_assoc]
    exact mem_inner_run.mpr (.inr hinner)
  · rw [List.append_assoc, List.append_assoc]
    exact (List.prefix_append_right_inj run).mpr hbytes

theorem InOneRun.behind_child {children : List (UInt8 × Bool × Trie)} {stop : Option Leaf}
    {child : UInt8 × Bool × Trie} (hchild : child ∈ children)
    (h : InOneRun (path ++ [child.1]) child.2.2 p bytes) :
    InOneRun path (.branch children stop) (child.1 :: p) bytes := by
  obtain ⟨q, run, next, hinner, hq, hbytes⟩ := h
  refine ⟨child.1 :: q, run, next, ?_, List.cons_prefix_cons.mpr ⟨rfl, hq⟩,
    List.cons_prefix_cons.mpr ⟨rfl, hbytes⟩⟩
  refine mem_inner_branch.mpr (.inr ⟨child, hchild, ?_⟩)
  simpa using hinner

end InOneRun

/-- Bytes that are forced before the end of a run do not go beyond it. -/
theorem Built.forced_in_run {path run p bytes : List UInt8} {entries : List Entry} {next : Trie}
    (hne : entries ≠ []) (hrun : 1 < run.length)
    (h : Built path (entries.map (Entry.under run)) (.run run next)) (hp : p <+: run)
    (hforced : Forced ((entries.map (Entry.under run)).map (·.key)) p bytes) :
    InOneRun path (.run run next) p bytes := by
  -- all keys begin with the run, so with `p`; they share the bytes, and the run is all they share
  have hall : ∀ e ∈ entries.map (Entry.under run), p ++ bytes <+: e.key := by
    intro e he
    refine hforced.goesOn _ (List.mem_map_of_mem he) ?_
    obtain ⟨e', -, rfl⟩ := List.mem_map.mp he
    exact hp.trans (List.prefix_append run e'.key)
  have hshared := prefix_shared h.nonempty hall
  rw [shared_map_under hne, h.shared_behind_run hne hrun, List.append_nil] at hshared
  exact ⟨[], run, next, mem_inner_run.mpr (.inl ⟨List.append_nil path, rfl⟩), List.nil_prefix,
    hshared⟩

/-- **Forced bytes stand in one run**, if there are two or more of them. -/
theorem Built.inOneRun {path : List UInt8} {entries : List Entry} {t : Trie}
    (h : Built path entries t) {p bytes : List UInt8} (hbytes : 2 ≤ bytes.length)
    (hforced : Forced (entries.map (·.key)) p bytes) : InOneRun path t p bytes := by
  revert p
  refine Built.induct (motive := fun path entries t => Built path entries t →
    ∀ {p}, Forced (entries.map (·.key)) p bytes → InOneRun path t p bytes) ?leaf ?run ?branch h h
  case leaf =>
    intro path e _ hkey _ p hforced
    obtain ⟨key, hmem, hp⟩ := hforced.begins
    have hon := (hforced.goesOn key hmem hp).length_le
    obtain rfl : key = [] := by simpa [hkey] using hmem
    rw [List.length_append, List.length_nil] at hon
    omega
  case run =>
    intro path run entries next hrun _ hbuilt ih hwhole p hforced
    obtain ⟨key, hmem, hp⟩ := hforced.begins
    obtain ⟨e', he', rfl⟩ := List.mem_map.mp hmem
    obtain ⟨e, he, rfl⟩ := List.mem_map.mp he'
    rcases List.prefix_or_prefix_of_prefix hp (List.prefix_append run e.key) with hshort | hlong
    · exact hwhole.forced_in_run hbuilt.nonempty hrun hshort hforced
    · obtain ⟨p, rfl⟩ := hlong
      refine (ih hbuilt (hforced.of_append run ?_ ⟨e.key, List.mem_map_of_mem he, ?_⟩)).behind_run
      · intro key hkey
        obtain ⟨e, he, rfl⟩ := List.mem_map.mp hkey
        exact List.mem_map_of_mem (f := (·.key)) (List.mem_map_of_mem (f := Entry.under run) he)
      · exact (List.prefix_append_right_inj run).mp hp
  case branch =>
    intro path last parts children _ hlast _ hparts hwhole p hforced
    cases p with
    | nil =>
      -- a branch is only made when no two bytes are shared
      have hall := prefix_shared (p := bytes) hwhole.nonempty fun e he =>
        hforced.goesOn _ (List.mem_map_of_mem he) List.nil_prefix
      obtain ⟨next, hrun⟩ := hwhole.exists_run (Nat.lt_of_lt_of_le hbytes hall.length_le)
      cases hrun
    | cons byte p =>
      obtain ⟨key, hmem, hp⟩ := hforced.begins
      obtain ⟨e, he, rfl⟩ := List.mem_map.mp hmem
      rcases List.mem_append.mp he with he | he
      · rw [(hlast e (Option.mem_toList.mp he)).2] at hp
        cases List.prefix_nil.mp hp
      · obtain ⟨part, hpart, hin⟩ := List.mem_flatMap.mp he
        obtain ⟨e', he', rfl⟩ := List.mem_map.mp hin
        obtain ⟨rfl, hbehind⟩ := List.cons_prefix_cons.mp hp
        obtain ⟨child, hchild, hbyte, -, hbuilt, ih⟩ := exists_of_forall₂ hparts.flip hpart
        have hgroup : Forced (part.2.map (·.key)) p bytes := by
          refine hforced.of_append [part.1] ?_ ⟨e'.key, List.mem_map_of_mem he', hbehind⟩
          intro key hkey
          obtain ⟨e, he, rfl⟩ := List.mem_map.mp hkey
          exact List.mem_map_of_mem (f := (·.key))
            (List.mem_append_right _ (mem_ungroup_of_mem hpart he))
        have hinner := ih hbuilt hgroup
        rw [← hbyte] at hinner ⊢
        exact hinner.behind_child hchild

/-! ## The tries of edges -/

/-- **The trie of edges is compressed** at every depth and is no leaf, and two or more bytes that
their keys force are inside one run. -/
theorem compressed_of_trieJournaled (name : String) (edges : List Edge) (t : Trie)
    (h : (Blueprint.trieJournaled name edges).result = .ok (some t)) :
    (∀ l, t ≠ .leaf l) ∧ Compressed t ∧
      ∀ p bytes, 2 ≤ bytes.length → Forced (keysOf edges) p bytes → InOneRun [] t p bytes := by
  have hbuilt : Built [] (arrange (edges.filterMap Blueprint.entryOf?)) t := built_of_ofEntries h
  refine ⟨hbuilt.ne_leaf, hbuilt.compressed, fun p bytes hbytes hforced => ?_⟩
  refine hbuilt.inOneRun hbytes (hforced.congr fun key => ?_)
  rw [keysOf, ← Blueprint.map_key_entryOf?, List.mem_map, List.mem_map]
  simp only [mem_arrange]

/-- Keys that share one byte, end inside each other, share one byte again, and end in bytes that
are forced. -/
def nestedEdges : List Edge :=
  [⟨.bytes [120, 97, 98, 100, 101, 102], false, 1, none⟩, ⟨.bytes [120], false, 2, some 3⟩,
    ⟨.bytes [120, 97, 98, 99], false, 4, none⟩]

/-- The trie of these edges. -/
def nestedTrie : Trie :=
  .branch
    [(120, false,
      .branch
        [(97, false,
          .branch
            [(98, false,
              .branch
                [(99, false, .leaf ⟨4, none⟩), (100, false, .run [101, 102] (.leaf ⟨1, none⟩))]
                none)]
            none)]
        (some ⟨2, some 3⟩))]
    none

theorem compressed_of_trieJournaled_nested :
    (Blueprint.trieJournaled "start" nestedEdges).result = .ok (some nestedTrie) ∧
      Compressed nestedTrie ∧ Forced (keysOf nestedEdges) [120, 97, 98, 100] [101, 102] ∧
      InOneRun [] nestedTrie [120, 97, 98, 100] [101, 102] := by
  have h : (Blueprint.trieJournaled "start" nestedEdges).result = .ok (some nestedTrie) := by cbv
  have hforced : Forced (keysOf nestedEdges) [120, 97, 98, 100] [101, 102] :=
    ⟨by decide, by decide⟩
  obtain ⟨-, hcompressed, hruns⟩ := compressed_of_trieJournaled "start" nestedEdges nestedTrie h
  exact ⟨h, hcompressed, hforced, hruns _ _ (by decide) hforced⟩

end ByteMachine.Trie
