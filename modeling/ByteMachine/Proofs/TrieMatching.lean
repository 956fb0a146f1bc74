import ByteMachine.Proofs.TrieReading
import Mathlib.Data.List.Infix
import Mathlib.Data.List.Nodup

/-! # Matching by a trie and matching by keys

What a matching node does with the input can be said in two ways.  By its **keys**
(`byKeys`): take the longest beginning of the input with which some key begins; when that
is all of the input and a key goes on, more input is needed; when it is a key, that key is
matched; otherwise none is.  By its **trie** (`follow`): look at one byte after the other
and go down.

Both ways agree on the trie of entries that calls can make (`follow_eq_byKeys`).  The
proof takes one byte at a time: behind its first byte an input is matched against what is
left of the keys that begin with this byte (`byKeys_cons_of_calm`). -/
namespace ByteMachine.Trie

/-- How matching ends, with the number of bytes that are consumed. -/
inductive Verdict where
  /-- More input is needed. -/
  | starved (consumed : Nat)
  /-- A key is matched. -/
  | accepted (consumed : Nat) (leaf : Leaf)
  /-- No key is matched. -/
  | rejected (consumed : Nat)
deriving DecidableEq, Repr, Inhabited

namespace Verdict

/-- The verdict when some bytes were consumed before. -/
def after (n : Nat) : Verdict → Verdict
  | .starved k => .starved (n + k)
  | .accepted k l => .accepted (n + k) l
  | .rejected k => .rejected (n + k)

@[simp]
theorem after_zero (v : Verdict) : v.after 0 = v := by
  cases v <;> simp [after]

@[simp]
theorem after_after (m n : Nat) (v : Verdict) : (v.after n).after m = v.after (m + n) := by
  cases v <;> simp [after, Nat.add_assoc]

end Verdict

/-! ## By keys -/

/-- The longest beginning of the input with which some key begins. -/
def longestPrefix (keys : List (List UInt8)) (input : List UInt8) : List UInt8 :=
  (input.inits.filter fun p => keys.any p.isPrefixOf).getLastD []

/-- **Matching by keys.**  A key that leaves its byte consumes nothing. -/
def byKeys (entries : List Entry) (input : List UInt8) : Verdict :=
  let p := longestPrefix (entries.map (·.key)) input
  if p = input ∧ ∃ e ∈ entries, p <+: e.key ∧ p ≠ e.key then .starved p.length
  else
    match entries.find? (·.key = p) with
    | some e => .accepted (if e.stay then 0 else p.length) e.leaf
    | none => .rejected p.length

/-! ## By a trie -/

/-- Expects bytes one after the other and then goes on. -/
def expect : (bytes input : List UInt8) → (List UInt8 → Verdict) → Verdict
  | [], input, next => next input
  | _ :: _, [], _ => .starved 0
  | byte :: bytes, b :: input, next =>
    if byte = b then (expect bytes input next).after 1 else .rejected 0

mutual

/-- **Matching by a trie.** -/
def follow : Trie → List UInt8 → Verdict
  | .leaf l, _ => .accepted 0 l
  | .branch _ _, [] => .starved 0
  | .branch children stop, byte :: input => followAny children stop byte input
  | .run bytes next, input => expect bytes input fun rest => follow next rest

/-- Goes down to the child for a byte of the input, or stops when there is none. -/
def followAny : List (UInt8 × Bool × Trie) → Option Leaf → UInt8 → List UInt8 → Verdict
  | [], some l, _, _ => .accepted 0 l
  | [], none, _, _ => .rejected 0
  | (key, stay, child) :: more, stop, byte, input =>
    if key = byte then
      if stay then follow child (byte :: input) else (follow child input).after 1
    else followAny more stop byte input

end

/-! ## Behind a byte -/

/-- What is left of a key behind its first byte. -/
def behind? (byte : UInt8) : List UInt8 → Option (List UInt8)
  | [] => none
  | b :: rest => if b = byte then some rest else none

/-- What is left of an entry behind the first byte of its key. -/
def Entry.behind? (byte : UInt8) (e : Entry) : Option Entry :=
  (Trie.behind? byte e.key).map fun rest => { e with key := rest }

theorem behind?_eq_some {byte : UInt8} {key rest : List UInt8} :
    behind? byte key = some rest ↔ key = byte :: rest := by
  cases key with
  | nil => simp [behind?]
  | cons b key =>
    by_cases h : b = byte <;> simp [behind?, h]

theorem longestPrefix_nil (keys : List (List UInt8)) : longestPrefix keys [] = [] := by
  unfold longestPrefix
  cases h : (keys.any (List.isPrefixOf [])) <;> simp [h]

theorem any_isPrefixOf_cons (keys : List (List UInt8)) (byte : UInt8) (p : List UInt8) :
    keys.any (List.isPrefixOf (byte :: p)) = (keys.filterMap (behind? byte)).any p.isPrefixOf := by
  induction keys with
  | nil => rfl
  | cons key keys ih =>
    cases key with
    | nil => simpa [behind?] using ih
    | cons b rest =>
      by_cases h : b = byte
      · simp [behind?, h, ih]
      · simp [behind?, h, Ne.symm h, ih]

/-- **One byte of the longest prefix.** -/
theorem longestPrefix_cons (keys : List (List UInt8)) (byte : UInt8) (input : List UInt8) :
    longestPrefix keys (byte :: input) =
      if keys.filterMap (behind? byte) = [] then []
      else byte :: longestPrefix (keys.filterMap (behind? byte)) input := by
  have hfilter : (byte :: input).inits.filter (fun p => keys.any p.isPrefixOf) =
      [[]].filter (fun p => keys.any p.isPrefixOf) ++
        (input.inits.filter fun p => (keys.filterMap (behind? byte)).any p.isPrefixOf).map
          (byte :: ·) := by
    rw [List.inits, ← List.singleton_append, List.filter_append, List.filter_map]
    simp only [Function.comp_def, any_isPrefixOf_cons]
  unfold longestPrefix
  rw [hfilter]
  by_cases hkeys : keys.filterMap (behind? byte) = []
  · rw [if_pos hkeys, hkeys]
    cases h : (keys.any (List.isPrefixOf [])) <;> simp [h]
  · rw [if_neg hkeys]
    -- the empty beginning is always among those that some key has
    have hne : (input.inits.filter fun p =>
        (keys.filterMap (behind? byte)).any p.isPrefixOf) ≠ [] := by
      obtain ⟨key, hkey⟩ := List.exists_mem_of_ne_nil _ hkeys
      refine List.ne_nil_of_mem (List.mem_filter.mpr ⟨(List.mem_inits _ _).mpr List.nil_prefix, ?_⟩)
      exact List.any_eq_true.mpr ⟨key, hkey, rfl⟩
    obtain ⟨p, hp⟩ := Option.ne_none_iff_exists'.mp (List.getLast?_eq_none_iff.not.mpr hne)
    simp only [List.getLastD_eq_getLast?, List.getLast?_append, List.getLast?_map, hp,
      Option.map_some, Option.some_or, Option.getD_some]

/-! ### One byte of the verdict -/

/-- The entries behind a byte. -/
def tails (byte : UInt8) (entries : List Entry) : List Entry :=
  entries.filterMap (Entry.behind? byte)

theorem map_key_tails (byte : UInt8) (entries : List Entry) :
    (tails byte entries).map (·.key) = (entries.map (·.key)).filterMap (behind? byte) := by
  simp only [tails, List.map_filterMap, List.filterMap_map]
  refine List.filterMap_congr fun e _ => ?_
  simp [Entry.behind?, Option.map_map, Function.comp_def]

theorem mem_tails {byte : UInt8} {entries : List Entry} {e : Entry} :
    e ∈ tails byte entries ↔ e.under [byte] ∈ entries := by
  unfold tails
  rw [List.mem_filterMap]
  constructor
  · rintro ⟨e', he', hbehind⟩
    obtain ⟨rest, hrest, rfl⟩ := Option.map_eq_some_iff.mp hbehind
    rw [behind?_eq_some] at hrest
    simpa [Entry.under, ← hrest] using he'
  · intro he
    exact ⟨_, he, by simp [Entry.behind?, Entry.under, behind?]⟩

theorem find?_key_cons (byte : UInt8) (p : List UInt8) (entries : List Entry) :
    entries.find? (·.key = byte :: p) =
      ((tails byte entries).find? (·.key = p)).map (Entry.under [byte]) := by
  induction entries with
  | nil => rfl
  | cons e rest ih =>
    cases hbehind : behind? byte e.key with
    | none =>
      have hkey : e.key ≠ byte :: p := by
        intro h
        rw [behind?_eq_some.mpr h] at hbehind
        cases hbehind
      have htails : tails byte (e :: rest) = tails byte rest :=
        List.filterMap_cons_none (by simp [Entry.behind?, hbehind])
      rw [List.find?_cons_of_neg (by simpa using hkey), htails, ih]
    | some tail =>
      obtain ⟨key, stay, target, value⟩ := e
      obtain rfl : key = byte :: tail := behind?_eq_some.mp hbehind
      have htails : tails byte (⟨byte :: tail, stay, target, value⟩ :: rest) =
          ⟨tail, stay, target, value⟩ :: tails byte rest :=
        List.filterMap_cons_some (by simp [Entry.behind?, behind?])
      rw [htails]
      by_cases htail : tail = p
      · simp [htail, Entry.under]
      · rw [List.find?_cons_of_neg (by simpa using htail),
          List.find?_cons_of_neg (by simpa using htail), ih]

theorem tails_eq_nil_iff {byte : UInt8} {entries : List Entry} :
    tails byte entries = [] ↔ (entries.map (·.key)).filterMap (behind? byte) = [] := by
  rw [← map_key_tails, List.map_eq_nil_iff]

theorem byKeys_of_nil (input : List UInt8) : byKeys [] input = .rejected 0 := by
  simp [byKeys, longestPrefix]

/-- The input ends where a key goes on. -/
theorem byKeys_nil {entries : List Entry} (h : ∃ e ∈ entries, e.key ≠ []) :
    byKeys entries [] = .starved 0 := by
  obtain ⟨e, he, hkey⟩ := h
  simp only [byKeys, longestPrefix_nil]
  rw [if_pos ⟨trivial, e, he, List.nil_prefix, hkey.symm⟩]
  rfl

/-- No key begins with the next byte. -/
theorem byKeys_cons_of_nil {entries : List Entry} {byte : UInt8} (h : tails byte entries = [])
    (input : List UInt8) :
    byKeys entries (byte :: input) =
      match entries.find? (·.key = []) with
      | some e => .accepted 0 e.leaf
      | none => .rejected 0 := by
  have hp : longestPrefix (entries.map (·.key)) (byte :: input) = [] := by
    rw [longestPrefix_cons, if_pos (tails_eq_nil_iff.mp h)]
  simp only [byKeys, hp]
  rw [if_neg (by simp)]
  cases entries.find? (·.key = []) <;> simp

theorem longestPrefix_of_tails {entries : List Entry} {byte : UInt8} (h : tails byte entries ≠ [])
    (input : List UInt8) :
    longestPrefix (entries.map (·.key)) (byte :: input) =
      byte :: longestPrefix ((tails byte entries).map (·.key)) input := by
  rw [longestPrefix_cons, if_neg (tails_eq_nil_iff.not.mp h), map_key_tails]

/-- A key goes on behind the byte iff what is left of it goes on. -/
theorem exists_longer_cons {entries : List Entry} {byte : UInt8} {p : List UInt8} :
    (∃ e ∈ entries, byte :: p <+: e.key ∧ byte :: p ≠ e.key) ↔
      ∃ e ∈ tails byte entries, p <+: e.key ∧ p ≠ e.key := by
  constructor
  · rintro ⟨e, he, ⟨more, hmore⟩, hne⟩
    obtain ⟨key, stay, target, value⟩ := e
    obtain rfl : byte :: p ++ more = key := hmore
    refine ⟨⟨p ++ more, stay, target, value⟩, mem_tails.mpr he, List.prefix_append _ _, ?_⟩
    exact fun h => hne (congrArg (byte :: ·) h)
  · rintro ⟨e, he, hp, hne⟩
    refine ⟨_, mem_tails.mp he, List.cons_prefix_cons.mpr ⟨rfl, hp⟩, ?_⟩
    exact fun h => hne (List.cons.inj h).2

/-- **Matching goes on behind the byte**, among the keys that begin with it. -/
theorem byKeys_cons_of_calm {entries : List Entry} {byte : UInt8} (h : tails byte entries ≠ [])
    (hcalm : ∀ e ∈ tails byte entries, e.stay = false) (input : List UInt8) :
    byKeys entries (byte :: input) = (byKeys (tails byte entries) input).after 1 := by
  simp only [byKeys, longestPrefix_of_tails h, List.cons.injEq, true_and, exists_longer_cons,
    find?_key_cons]
  split
  · simp [Verdict.after, Nat.add_comm]
  · cases hfind : (tails byte entries).find?
        (·.key = longestPrefix ((tails byte entries).map (·.key)) input) with
    | none => simp [Verdict.after, Nat.add_comm]
    | some e =>
      have hstay := hcalm e (List.mem_of_find?_eq_some hfind)
      simp [Verdict.after, Entry.under, Entry.leaf, hstay, Nat.add_comm]

/-- A key of one byte that is alone with this byte and leaves it. -/
theorem byKeys_cons_of_peek {entries : List Entry} {byte : UInt8} {e : Entry}
    (h : tails byte entries = [e]) (hkey : e.key = []) (hstay : e.stay = true)
    (input : List UInt8) : byKeys entries (byte :: input) = .accepted 0 e.leaf := by
  have hp : longestPrefix ((tails byte entries).map (·.key)) input = [] := by
    rw [h]
    cases input with
    | nil => exact longestPrefix_nil _
    | cons b input => rw [longestPrefix_cons, if_pos (by simp [hkey, behind?])]
  simp only [byKeys, longestPrefix_of_tails (by simp [h] : tails byte entries ≠ []), hp,
    exists_longer_cons, find?_key_cons]
  rw [if_neg (by simp [h, hkey])]
  simp [h, hkey, hstay, Entry.under, Entry.leaf]

/-! ## A trie follows its keys -/

/-- Nothing goes on behind a key without bytes. -/
theorem byKeys_singleton {e : Entry} (hkey : e.key = []) (input : List UInt8) :
    byKeys [e] input = .accepted 0 e.leaf := by
  cases input with
  | nil => simp [byKeys, longestPrefix_nil, hkey]
  | cons byte input =>
    rw [byKeys_cons_of_nil (by simp [tails, Entry.behind?, hkey, behind?])]
    simp [hkey]

theorem tails_map_under (byte b : UInt8) (bytes : List UInt8) (entries : List Entry) :
    tails byte (entries.map (Entry.under (b :: bytes))) =
      if b = byte then entries.map (Entry.under bytes) else [] := by
  induction entries with
  | nil => simp [tails]
  | cons e rest ih =>
    unfold tails at ih ⊢
    rw [List.map_cons, List.filterMap_cons, ih]
    by_cases h : b = byte <;> simp [Entry.behind?, Entry.under, behind?, h]

theorem map_under_nil (entries : List Entry) : entries.map (Entry.under []) = entries :=
  List.map_id' entries

/-- **A run before entries.** -/
theorem byKeys_map_under {entries : List Entry} (hne : entries ≠ [])
    (hcalm : ∀ e ∈ entries, e.stay = false) (bytes input : List UInt8) :
    byKeys (entries.map (Entry.under bytes)) input = expect bytes input (byKeys entries) := by
  induction bytes generalizing input with
  | nil => rw [map_under_nil, expect]
  | cons byte bytes ih =>
    have hkeys : ∀ e ∈ entries.map (Entry.under (byte :: bytes)), e.key ≠ [] := by
      intro e he
      obtain ⟨e', -, rfl⟩ := List.mem_map.mp he
      exact List.cons_ne_nil _ _
    cases input with
    | nil =>
      obtain ⟨e, he⟩ := List.exists_mem_of_ne_nil _ hne
      rw [byKeys_nil ⟨_, List.mem_map_of_mem he, hkeys _ (List.mem_map_of_mem he)⟩, expect]
    | cons b input =>
      have htails := tails_map_under b byte bytes entries
      rw [expect]
      by_cases hb : byte = b
      · rw [if_pos hb] at htails ⊢
        rw [byKeys_cons_of_calm (by simpa [htails] using hne), htails, ih]
        intro e he
        rw [htails] at he
        obtain ⟨e', he', rfl⟩ := List.mem_map.mp he
        exact hcalm e' he'
      · rw [if_neg hb] at htails ⊢
        rw [byKeys_cons_of_nil htails, List.find?_eq_none.mpr]
        intro e he
        simpa using hkeys e he

/-- The child for a byte. -/
def childAt? (byte : UInt8) (children : List (UInt8 × Bool × Trie)) : Option (Bool × Trie) :=
  (children.find? (·.1 = byte)).map (·.2)

theorem followAny_eq (children : List (UInt8 × Bool × Trie)) (stop : Option Leaf) (byte : UInt8)
    (input : List UInt8) :
    followAny children stop byte input =
      match childAt? byte children with
      | some (stay, child) =>
        if stay then follow child (byte :: input) else (follow child input).after 1
      | none =>
        match stop with
        | some l => .accepted 0 l
        | none => .rejected 0 := by
  induction children with
  | nil => cases stop <;> simp [followAny, childAt?]
  | cons head more ih =>
    obtain ⟨key, stay, child⟩ := head
    rw [followAny]
    by_cases h : key = byte
    · simp [h, childAt?]
    · rw [if_neg h, ih, childAt?, childAt?, List.find?_cons_of_neg (by simpa using h)]

/-- Bytes are expected up to where the input departs from them. -/
theorem expect_eq (bytes input : List UInt8) (next : List UInt8 → Verdict) :
    expect bytes input next =
      if (common bytes input).length = bytes.length then
        (next (input.drop bytes.length)).after bytes.length
      else if (common bytes input).length = input.length then
        .starved (common bytes input).length
      else .rejected (common bytes input).length := by
  induction bytes generalizing input with
  | nil => simp [expect, common]
  | cons byte bytes ih =>
    cases input with
    | nil => simp [expect, common]
    | cons b input =>
      by_cases h : byte = b
      · simp only [expect, common, h, if_true, ih, List.length_cons, Nat.add_right_cancel_iff,
          List.drop_succ_cons]
        split
        · rw [Verdict.after_after, Nat.add_comm]
        · split <;> simp [Verdict.after, Nat.add_comm]
      · simp [expect, common, h]

theorem key_ne_nil_of_mem_readAll {children : List (UInt8 × Bool × Trie)} {e : Entry}
    (h : e ∈ readAll children) : e.key ≠ [] := by
  obtain ⟨child, -, e', -, rfl⟩ := mem_readAll.mp h
  exact List.cons_ne_nil _ _

/-- Behind a byte stand the entries of its child. -/
theorem tails_readAll {children : List (UInt8 × Bool × Trie)}
    (h : (children.map (·.1)).Pairwise (· < ·)) (byte : UInt8) :
    tails byte (readAll children) =
      match childAt? byte children with
      | some (stay, child) => read stay child
      | none => [] := by
  induction children with
  | nil => rfl
  | cons head more ih =>
    obtain ⟨key, stay, child⟩ := head
    obtain ⟨hhead, hmore⟩ := List.pairwise_cons.mp h
    have happend : tails byte (readAll ((key, stay, child) :: more)) =
        (if key = byte then read stay child else []) ++ tails byte (readAll more) := by
      rw [readAll, tails, List.filterMap_append]
      have := tails_map_under byte key [] (read stay child)
      rw [map_under_nil] at this
      exact congrArg (· ++ _) this
    rw [happend, ih hmore]
    by_cases hkey : key = byte
    · -- the bytes of the other children are larger
      have hnone : childAt? byte more = none := by
        rw [childAt?, Option.map_eq_none_iff, List.find?_eq_none]
        intro other hother
        have hlt := hhead _ (List.mem_map_of_mem hother)
        simpa using fun he => UInt8.lt_irrefl byte (by rw [he, hkey] at hlt; exact hlt)
      rw [hnone]
      simp [hkey, childAt?]
    · simp [hkey, childAt?]

/-- The entries of a branch: behind a byte, and the one with no bytes left. -/
theorem tails_read_branch {children : List (UInt8 × Bool × Trie)} (stop : Option Leaf)
    (stay : Bool) (byte : UInt8) :
    tails byte ((Trie.branch children stop).read stay) = tails byte (readAll children) := by
  rw [Trie.read, tails, List.filterMap_append]
  cases stop <;> simp [Entry.behind?, behind?, tails]

theorem find?_read_branch {children : List (UInt8 × Bool × Trie)} (stop : Option Leaf)
    (stay : Bool) :
    ((Trie.branch children stop).read stay).find? (·.key = []) =
      stop.map fun l => ⟨[], stay, l.target, l.value⟩ := by
  rw [Trie.read]
  cases stop with
  | some l => simp
  | none =>
    refine List.find?_eq_none.mpr fun e he => ?_
    simpa using key_ne_nil_of_mem_readAll (by simpa using he)

theorem Calm.stay_eq_false {t : Trie} (h : Calm t) : ∀ e ∈ t.read false, e.stay = false := by
  induction h with
  | leaf => simp [Trie.read]
  | @branch children stop hstay _ ih =>
    intro e he
    rw [Trie.read] at he
    rcases List.mem_append.mp he with he | he
    · obtain ⟨l, -, rfl⟩ := List.mem_map.mp he
      rfl
    · obtain ⟨child, hchild, e', he', rfl⟩ := mem_readAll.mp he
      rw [hstay child hchild] at he'
      exact ih child hchild e' he'
  | run _ ih =>
    intro e he
    obtain ⟨e', he', rfl⟩ := List.mem_map.mp he
    exact ih e' he'

/-- **A branch follows its keys** when its children do. -/
theorem follow_branch {children : List (UInt8 × Bool × Trie)} {stop : Option Leaf}
    (hproper : Proper (.branch children stop))
    (h : ∀ child ∈ children, (child.2.1 = true ∧ ∃ l, child.2.2 = .leaf l) ∨
      (child.2.1 = false ∧ Calm child.2.2 ∧
        ∀ input, follow child.2.2 input = byKeys (child.2.2.read false) input))
    (input : List UInt8) :
    follow (.branch children stop) input =
      byKeys ((Trie.branch children stop).read false) input := by
  cases hproper with
  | branch hne hbytes hchildren =>
    cases input with
    | nil =>
      obtain ⟨child, hchild⟩ := List.exists_mem_of_ne_nil _ hne
      obtain ⟨e, he⟩ := List.exists_mem_of_ne_nil _
        ((hchildren child hchild).read_ne_nil child.2.1)
      have hmem : e.under [child.1] ∈ (Trie.branch children stop).read false := by
        rw [Trie.read]
        exact List.mem_append_right _ (mem_readAll.mpr ⟨child, hchild, e, he, rfl⟩)
      rw [follow, byKeys_nil ⟨_, hmem, List.cons_ne_nil _ _⟩]
    | cons byte input =>
      -- behind the byte, only the keys of its child are left
      have htails : tails byte ((Trie.branch children stop).read false) =
          match childAt? byte children with
          | some (stay, child) => read stay child
          | none => [] := by
        rw [tails_read_branch, tails_readAll hbytes]
      rw [follow, followAny_eq]
      cases hchild : childAt? byte children with
      | none =>
        rw [hchild] at htails
        rw [byKeys_cons_of_nil htails, find?_read_branch]
        cases stop <;> rfl
      | some found =>
        obtain ⟨stay, child⟩ := found
        rw [hchild] at htails
        obtain ⟨⟨key, stay', child'⟩, hfind, heq⟩ := Option.map_eq_some_iff.mp hchild
        obtain ⟨rfl, rfl⟩ := Prod.mk.inj heq
        have hmem := List.mem_of_find?_eq_some hfind
        rcases h _ hmem with ⟨rfl, l, rfl⟩ | ⟨rfl, hcalm, hfollow⟩
        · -- a byte that is left ends its key
          rw [byKeys_cons_of_peek htails rfl rfl]
          rfl
        · rw [byKeys_cons_of_calm, htails]
          · simp only [Bool.false_eq_true, if_false]
            rw [hfollow]
          · rw [htails]
            exact (hchildren _ hmem).read_ne_nil false
          · rw [htails]
            exact hcalm.stay_eq_false

theorem follow_of_calm {t : Trie} (hproper : Proper t) (hcalm : Calm t) (input : List UInt8) :
    follow t input = byKeys (t.read false) input := by
  induction hproper generalizing input with
  | leaf => rw [follow, Trie.read, byKeys_singleton rfl]; rfl
  | branch hne hbytes hchildren ih =>
    cases hcalm with
    | branch hstay hcalm =>
      refine follow_branch (.branch hne hbytes hchildren) (fun child hchild => Or.inr ?_) input
      exact ⟨hstay child hchild, hcalm child hchild, ih child hchild (hcalm child hchild)⟩
  | run hbytes hnext ih =>
    cases hcalm with
    | run hcalm =>
      rw [follow, Trie.read, byKeys_map_under (hnext.read_ne_nil false) hcalm.stay_eq_false]
      exact congrArg _ (funext (ih hcalm))

theorem follow_of_steady {t : Trie} (hproper : Proper t) (hsteady : Steady t)
    (input : List UInt8) : follow t input = byKeys (t.read false) input := by
  cases hsteady with
  | leaf => exact follow_of_calm hproper .leaf input
  | run hcalm => exact follow_of_calm hproper (.run hcalm) input
  | branch hchildren =>
    refine follow_branch hproper (fun child hchild => ?_) input
    rcases hchildren child hchild with hleaf | ⟨hstay, hcalm⟩
    · exact Or.inl hleaf
    · cases hproper with
      | branch _ _ hproper =>
        exact Or.inr ⟨hstay, hcalm, follow_of_calm (hproper child hchild) hcalm⟩

/-! ## The order of entries does not matter -/

theorem longestPrefix_congr {keys keys' : List (List UInt8)} (h : ∀ k, k ∈ keys ↔ k ∈ keys')
    (input : List UInt8) : longestPrefix keys input = longestPrefix keys' input := by
  unfold longestPrefix
  congr 1
  refine List.filter_congr fun p _ => ?_
  rw [Bool.eq_iff_iff, List.any_eq_true, List.any_eq_true]
  simp only [h]

/-- Entries with different keys are matched by what they are, not by where they stand. -/
theorem byKeys_congr {entries entries' : List Entry} (hmem : ∀ e, e ∈ entries ↔ e ∈ entries')
    (hdistinct : (entries.map (·.key)).Nodup) (input : List UInt8) :
    byKeys entries input = byKeys entries' input := by
  have hp : longestPrefix (entries.map (·.key)) input =
      longestPrefix (entries'.map (·.key)) input := by
    refine longestPrefix_congr (fun k => ?_) input
    simp only [List.mem_map, hmem]
  have hfind : ∀ p, entries.find? (·.key = p) = entries'.find? (·.key = p) := by
    intro p
    cases h : entries'.find? (·.key = p) with
    | none =>
      rw [List.find?_eq_none] at h ⊢
      exact fun e he => h e ((hmem e).mp he)
    | some e' =>
      have he' := (hmem e').mpr (List.mem_of_find?_eq_some h)
      have hkey' : e'.key = p := by simpa using List.find?_some h
      cases h' : entries.find? (·.key = p) with
      | none => exact absurd hkey' (by simpa using List.find?_eq_none.mp h' e' he')
      | some e =>
        have hkey : e.key = p := by simpa using List.find?_some h'
        rw [List.inj_on_of_nodup_map hdistinct (List.mem_of_find?_eq_some h') he'
          (hkey.trans hkey'.symm)]
  simp only [byKeys, hp, hmem, hfind]

/-- **Matching by the trie of entries is matching by their keys**, when the keys differ and
only keys of one byte leave it. -/
theorem follow_eq_byKeys {entries : List Entry} {t : Trie} (h : ofEntries entries = .ok (some t))
    (hdistinct : (entries.map (·.key)).Nodup)
    (hpeek : ∀ e ∈ entries, e.stay = true → e.key.length = 1) (input : List UInt8) :
    follow t input = byKeys entries input := by
  have hbuilt := built_of_ofEntries h
  have hsteady : Steady t := hbuilt.steady fun e he => hpeek e (mem_arrange.mp he)
  rw [follow_of_steady hbuilt.proper hsteady, hbuilt.read_root]
  exact (byKeys_congr (fun e => mem_arrange.symm) hdistinct input).symm

end ByteMachine.Trie
