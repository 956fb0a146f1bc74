import ByteMachine.Proofs.Assembled
import Mathlib.Data.List.Perm.Subperm

/-! # Names that are handed out once

A pool never hands out a name that is in use (`fresh_not_mem`).  The search for a free variant
of a name tries as many numbers as there are names in use and then takes the next one.  If
that variant were used as well, all of them would be, and since the variants of a name differ
there would be more names in use than there are.

The search goes on where it last ended.  It passes over no free variant that way, since the
pool remembers of a name only that its first variants are used, and names are never given
back (`Accurate`).  So each call hands out the name that is due after the calls before it:
the name asked for, or the first variant of it that is free (`freshAll_least`).

The states of a machine therefore have different names (`nodup_labels`).  They all begin with the
stem of the states, and the names of operations on fields with another one, which is why no
state is called like an operation (`label_ne_name`). -/
namespace ByteMachine

namespace Names

/-! ## The first free variant -/

theorem numbered_inj {base : String} {k l : Nat} (h : numbered base k = numbered base l) :
    k = l := by
  have hnumber : toString (k : Int) = toString (l : Int) := Text.append_cancel h
  exact Int.ofNat.inj (Text.toString_inj hnumber)

theorem numbered_ne_base (base : String) (k : Nat) : numbered base k ≠ base := by
  intro h
  have hlength := congrArg String.length h
  have hnumber : (numbered base k).length = base.length + 1 + (toString k).length := by
    show (base ++ "_" ++ toString k).length = _
    rw [String.length_append, String.length_append]
    rfl
  omega

section Search
variable {used : List String} {base : String}

/-- No more variants of a name are used than there are names in use. -/
theorem le_length_of_used {k n : Nat} (h : ∀ j, k ≤ j → j < k + n → numbered base j ∈ used) :
    n ≤ used.length := by
  have hnodup : ((List.range' k n).map (numbered base)).Nodup :=
    List.Nodup.map (fun _ _ => numbered_inj) List.nodup_range'
  have hsubset : (List.range' k n).map (numbered base) ⊆ used := by
    intro name hname
    obtain ⟨j, hj, rfl⟩ := List.mem_map.mp hname
    rw [List.mem_range'_1] at hj
    exact h j hj.1 hj.2
  have hlength := (List.subperm_of_subset hnodup hsubset).length_le
  rwa [List.length_map, List.length_range'] at hlength

theorem le_firstFree (used : List String) (base : String) (n k : Nat) :
    k ≤ firstFree used base n k := by
  induction n generalizing k with
  | zero => exact Nat.le_refl k
  | succ n ih =>
    rw [firstFree]
    split
    · have := ih (k + 1)
      omega
    · exact Nat.le_refl k

/-- The variants that are skipped are used. -/
theorem mem_of_lt_firstFree {n k j : Nat} (hk : k ≤ j) (hj : j < firstFree used base n k) :
    numbered base j ∈ used := by
  induction n generalizing k with
  | zero =>
    rw [firstFree] at hj
    omega
  | succ n ih =>
    rw [firstFree] at hj
    split at hj
    · rename_i hused
      by_cases hkj : k = j
      · exact hkj ▸ hused
      · exact ih (by omega) hj
    · omega

/-- A variant that is used is taken only when there are no attempts left. -/
theorem firstFree_of_mem {n k : Nat} (h : numbered base (firstFree used base n k) ∈ used) :
    firstFree used base n k = k + n := by
  induction n generalizing k with
  | zero => rfl
  | succ n ih =>
    rw [firstFree] at h ⊢
    split
    · rename_i hused
      rw [if_pos hused] at h
      rw [ih h]
      omega
    · rename_i hfree
      rw [if_neg hfree] at h
      exact absurd h hfree

/-- **The search finds a free variant.** -/
theorem numbered_firstFree_not_mem (used : List String) (base : String) (k : Nat) :
    numbered base (firstFree used base used.length k) ∉ used := by
  intro hmem
  have hlast := firstFree_of_mem hmem
  -- one variant more than there are names, and all of them used
  have hall : ∀ j, k ≤ j → j < k + (used.length + 1) → numbered base j ∈ used := by
    intro j hk hj
    by_cases hjlast : j = k + used.length
    · rw [hjlast, ← hlast]
      exact hmem
    · apply mem_of_lt_firstFree hk
      rw [hlast]
      omega
  have := le_length_of_used hall
  omega

end Search

/-! ## Handing out -/

section Fresh
variable (names : Names) (origin : String)

/-- **A name that is handed out was not in use.** -/
theorem fresh_not_mem : (names.fresh origin).1.text ∉ names.used := by
  unfold fresh
  dsimp only
  split
  · exact numbered_firstFree_not_mem _ _ _
  · assumption

theorem fresh_used :
    (names.fresh origin).2.used = (names.fresh origin).1.text :: names.used := by
  unfold fresh
  dsimp only
  split <;> rfl

theorem fresh_stem : (names.fresh origin).2.stem = names.stem := by
  unfold fresh
  dsimp only
  split <;> rfl

theorem fresh_origin : (names.fresh origin).1.origin = origin := by
  unfold fresh
  dsimp only
  split <;> rfl

theorem exists_fresh_eq : ∃ rest, (names.fresh origin).1.text = names.stem ++ rest := by
  unfold fresh
  dsimp only
  split
  · exact ⟨origin ++ ("_" ++ toString _), String.append_assoc.trans String.append_assoc⟩
  · exact ⟨origin, rfl⟩

end Fresh

theorem freshAll_cons (names : Names) (origin : String) (origins : List String) :
    names.freshAll (origin :: origins) =
      (names.fresh origin).1 :: (names.fresh origin).2.freshAll origins := rfl

theorem not_mem_used_of_mem_freshAll {names : Names} {origins : List String} {l : Label}
    (h : l ∈ names.freshAll origins) : l.text ∉ names.used := by
  induction origins generalizing names with
  | nil => cases h
  | cons origin origins ih =>
    rw [freshAll_cons] at h
    rcases List.mem_cons.mp h with rfl | h
    · exact names.fresh_not_mem origin
    · have := ih h
      rw [fresh_used] at this
      exact fun hused => this (List.mem_cons_of_mem _ hused)

/-- **Names that are handed out one after the other differ.** -/
theorem nodup_freshAll (names : Names) (origins : List String) :
    ((names.freshAll origins).map (·.text)).Nodup := by
  induction origins generalizing names with
  | nil => exact List.nodup_nil
  | cons origin origins ih =>
    rw [freshAll_cons, List.map_cons]
    refine List.nodup_cons.mpr ⟨fun hmem => ?_, ih _⟩
    obtain ⟨l, hl, htext⟩ := List.mem_map.mp hmem
    apply not_mem_used_of_mem_freshAll hl
    rw [fresh_used, htext]
    exact List.mem_cons_self

theorem exists_freshAll_eq {names : Names} {origins : List String} {l : Label}
    (h : l ∈ names.freshAll origins) : ∃ rest, l.text = names.stem ++ rest := by
  induction origins generalizing names with
  | nil => cases h
  | cons origin origins ih =>
    rw [freshAll_cons] at h
    rcases List.mem_cons.mp h with rfl | h
    · exact names.exists_fresh_eq origin
    · have := ih h
      rwa [fresh_stem] at this

/-! ## The name that is due -/

/-- The name that is due for `base` while the names `used` are taken: `base` itself, or the
first of its variants that is free. -/
inductive Due (used : List String) (base : String) : String → Prop
  | plain (hfree : base ∉ used) : Due used base base
  | variant {k : Nat} (htaken : base ∈ used) (hk : 1 ≤ k) (hfree : numbered base k ∉ used)
      (hleast : ∀ j, 1 ≤ j → j < k → numbered base j ∈ used) : Due used base (numbered base k)

/-- Which name is due depends on the names in use, not on their order. -/
theorem Due.congr {used used' : List String} {base text : String}
    (hused : ∀ name, name ∈ used ↔ name ∈ used') (h : Due used base text) :
    Due used' base text := by
  cases h with
  | plain hfree => exact .plain fun hmem => hfree ((hused _).mpr hmem)
  | variant htaken hk hfree hleast =>
    exact .variant ((hused _).mp htaken) hk (fun hmem => hfree ((hused _).mpr hmem))
      fun j hj hjk => (hused _).mp (hleast j hj hjk)

/-- The search for the first free variant ends after as many attempts as there are names in
use, at the latest. -/
theorem variant_le_length {used : List String} {base : String} {k : Nat} (htaken : base ∈ used)
    (hleast : ∀ j, 1 ≤ j → j < k → numbered base j ∈ used) : k ≤ used.length := by
  -- the name itself is in use too and is none of its variants
  have hothers : ∀ j, 1 ≤ j → j < 1 + (k - 1) → numbered base j ∈ used.erase base := by
    intro j hj hjk
    exact (List.mem_erase_of_ne (numbered_ne_base base j)).mpr (hleast j hj (by omega))
  have hlength := le_length_of_used hothers
  rw [List.length_erase_of_mem htaken] at hlength
  have := List.length_pos_of_mem htaken
  omega

/-- What the pool remembers of a name is right: all variants before the number that follows
are used. -/
def Accurate (names : Names) : Prop :=
  ∀ base k, names.following.lookup base = some k →
    1 ≤ k ∧ ∀ j, 1 ≤ j → j < k → numbered base j ∈ names.used

theorem accurate_new (stem : String) : Accurate { stem } := fun _ _ h => by cases h

namespace Accurate

section
variable {names : Names} (h : names.Accurate)
include h

/-- No free variant lies before the number at which the search begins. -/
theorem start (base : String) :
    1 ≤ (names.following.lookup base).getD 1 ∧
      ∀ j, 1 ≤ j → j < (names.following.lookup base).getD 1 → numbered base j ∈ names.used := by
  cases hlookup : names.following.lookup base with
  | none => exact ⟨Nat.le_refl 1, fun j hj hjk => absurd hjk (Nat.not_lt.mpr hj)⟩
  | some k => exact h base k hlookup

theorem mem_of_lt_found (base : String) {j : Nat} (hj : 1 ≤ j)
    (hjk : j < firstFree names.used base names.used.length ((names.following.lookup base).getD 1)) :
    numbered base j ∈ names.used := by
  by_cases hstart : j < (names.following.lookup base).getD 1
  · exact (h.start base).2 j hj hstart
  · exact mem_of_lt_firstFree (Nat.not_lt.mp hstart) hjk

/-- **A pool hands out the name that is due.** -/
theorem due_fresh (origin : String) :
    Due names.used (names.stem ++ origin) (names.fresh origin).1.text := by
  unfold Names.fresh
  dsimp only
  split
  · rename_i htaken
    refine .variant htaken ?_ (numbered_firstFree_not_mem _ _ _) fun j hj hjk => ?_
    · exact Nat.le_trans (h.start _).1 (le_firstFree _ _ _ _)
    · exact h.mem_of_lt_found _ hj hjk
  · rename_i hfree
    exact .plain hfree

/-- A pool stays accurate. -/
theorem fresh (origin : String) : (names.fresh origin).2.Accurate := by
  intro base k hlookup
  rw [fresh_used]
  have hold : names.following.lookup base = some k → 1 ≤ k ∧ ∀ j, 1 ≤ j → j < k →
      numbered base j ∈ (names.fresh origin).1.text :: names.used := by
    intro hlookup
    obtain ⟨hk, hused⟩ := h base k hlookup
    exact ⟨hk, fun j hj hjk => List.mem_cons_of_mem _ (hused j hj hjk)⟩
  unfold Names.fresh at hlookup hold ⊢
  dsimp only at hlookup hold ⊢
  split at hlookup
  · rename_i htaken
    rw [if_pos htaken] at hold ⊢
    rw [List.lookup_cons] at hlookup
    by_cases hbase : base = names.stem ++ origin
    · subst hbase
      rw [beq_self_eq_true] at hlookup
      obtain rfl := Option.some.inj hlookup
      refine ⟨by omega, fun j hj hjk => ?_⟩
      -- the variant just handed out, or one before it
      rcases Nat.lt_succ_iff_lt_or_eq.mp hjk with hlt | rfl
      · exact List.mem_cons_of_mem _ (h.mem_of_lt_found _ hj hlt)
      · exact List.mem_cons_self
    · rw [beq_false_of_ne hbase] at hlookup
      exact hold hlookup
  · exact hold hlookup

/-- Each call hands out the name that is due after the calls before it. -/
theorem due_freshAll {origins : List String} {i : Nat} {origin : String}
    (hi : origins[i]? = some origin) :
    ∃ label, (names.freshAll origins)[i]? = some label ∧ label.origin = origin ∧
      Due (((names.freshAll origins).take i).map (·.text) ++ names.used) (names.stem ++ origin)
        label.text := by
  induction origins generalizing names i with
  | nil => cases hi
  | cons first origins ih =>
    rw [freshAll_cons]
    cases i with
    | zero =>
      obtain rfl := Option.some.inj hi
      exact ⟨_, rfl, names.fresh_origin first, h.due_fresh first⟩
    | succ i =>
      obtain ⟨label, hlabel, horigin, hdue⟩ := ih (h.fresh first) hi
      refine ⟨label, hlabel, horigin, ?_⟩
      rw [fresh_stem, fresh_used] at hdue
      refine hdue.congr fun name => List.Perm.mem_iff ?_
      rw [List.take_succ_cons, List.map_cons, List.cons_append]
      exact List.perm_middle

end

end Accurate

/-- The names that the first `i` calls to a new pool hand out. -/
def handedOut (stem : String) (origins : List String) (i : Nat) : List String :=
  ((freshAll { stem } origins).take i).map (·.text)

/-- **Names are handed out without repetition, and no further from the name asked for than
need be.**  A call that finds the name taken tries its variants in order and stops at the first
one that no call before has handed out, after as many attempts as there were calls, at the
latest. -/
theorem freshAll_least (stem : String) (origins : List String) :
    (freshAll { stem } origins).length = origins.length ∧
    ((freshAll { stem } origins).map (·.text)).Nodup ∧
    ∀ (i : Nat) (origin : String), origins[i]? = some origin →
      ∃ label, (freshAll { stem } origins)[i]? = some label ∧ label.origin = origin ∧
        (stem ++ origin ∉ handedOut stem origins i → label.text = stem ++ origin) ∧
        (stem ++ origin ∈ handedOut stem origins i →
          ∃ k, 1 ≤ k ∧ k ≤ i ∧ label.text = stem ++ origin ++ "_" ++ toString k ∧
            label.text ∉ handedOut stem origins i ∧
            ∀ j, 1 ≤ j → j < k →
              stem ++ origin ++ "_" ++ toString j ∈ handedOut stem origins i) := by
  refine ⟨length_freshAll _ _, nodup_freshAll _ _, fun i origin hi => ?_⟩
  obtain ⟨label, hlabel, horigin, hdue⟩ := (accurate_new stem).due_freshAll hi
  refine ⟨label, hlabel, horigin, ?_⟩
  have hearlier : Due (handedOut stem origins i) (stem ++ origin) label.text := by
    rwa [List.append_nil] at hdue
  have hlength : (handedOut stem origins i).length ≤ i := by
    rw [handedOut, List.length_map]
    exact List.length_take_le _ _
  generalize label.text = text at hearlier ⊢
  cases hearlier with
  | plain hfree => exact ⟨fun _ => rfl, fun htaken => absurd htaken hfree⟩
  | variant htaken hk hfree hleast =>
    refine ⟨fun hfree => absurd htaken hfree, fun _ => ⟨_, hk, ?_, rfl, hfree, hleast⟩⟩
    exact Nat.le_trans (variant_le_length htaken hleast) hlength

/-- Names that look like variants of each other. -/
def lookalikes : List String := ["x_1", "x", "x", "x_1", "x", "x_1_1"]

theorem freshAll_least_lookalikes :
    (freshAll { stem := "p_" } lookalikes).map (·.text) =
        ["p_x_1", "p_x", "p_x_2", "p_x_1_1", "p_x_3", "p_x_1_1_1"] ∧
      ∃ label k, (freshAll { stem := "p_" } lookalikes)[4]? = some label ∧ k ≤ 4 ∧
        label.text = "p_" ++ "x" ++ "_" ++ toString k ∧
        ∀ j, 1 ≤ j → j < k → "p_" ++ "x" ++ "_" ++ toString j ∈ handedOut "p_" lookalikes 4 := by
  obtain ⟨label, hlabel, -, -, hvariant⟩ := (freshAll_least "p_" lookalikes).2.2 4 "x" rfl
  obtain ⟨k, -, hk, htext, -, hleast⟩ := hvariant (by decide)
  exact ⟨by decide, label, k, hlabel, hk, htext, hleast⟩

end Names

/-! ## The names of a machine -/

namespace Assembly

/-- Operations on fields are named one after the other. -/
theorem map_name_nameCallbacks (names : Names) (cs : List (Callback Bool)) :
    ((nameCallbacks names cs).filter (!·.operation.isExternal)).map (·.name) =
      (names.freshAll ((cs.filter (!·.operation.isExternal)).map (·.name))).map (·.text) := by
  induction cs generalizing names with
  | nil => rfl
  | cons c cs ih =>
    rw [nameCallbacks]
    split
    · rename_i hexternal
      rw [List.filter_cons_of_neg (by simpa using hexternal),
        List.filter_cons_of_neg (by simpa using hexternal), ih]
    · rename_i hexternal
      show (List.filter _ ({ c with name := (names.fresh c.name).1.text } ::
        nameCallbacks (names.fresh c.name).2 cs)).map _ = _
      rw [List.filter_cons_of_pos (by simpa using hexternal),
        List.filter_cons_of_pos (by simpa using hexternal), List.map_cons, ih, List.map_cons,
        Names.freshAll_cons, List.map_cons]

theorem exists_nameCallbacks_eq {names : Names} {cs : List (Callback Bool)} {c : Callback Bool}
    (h : c ∈ nameCallbacks names cs) (hc : c.operation.isExternal = false) :
    ∃ rest, c.name = names.stem ++ rest := by
  have hname : c.name ∈ ((nameCallbacks names cs).filter (!·.operation.isExternal)).map (·.name) :=
    List.mem_map_of_mem (List.mem_filter.mpr ⟨h, by simp [hc]⟩)
  rw [map_name_nameCallbacks] at hname
  obtain ⟨l, hl, hlname⟩ := List.mem_map.mp hname
  exact hlname ▸ Names.exists_freshAll_eq hl

variable (a : Assembly)

theorem nodup_labels : (a.labels.map (·.text)).Nodup := Names.nodup_freshAll _ _

/-- No two operations on fields have the same name. -/
theorem nodup_map_name_callbacks :
    ((a.callbacks.filter (!·.operation.isExternal)).map (·.name)).Nodup := by
  rw [callbacks, map_name_nameCallbacks]
  exact Names.nodup_freshAll _ _

/-- **No state is called like an operation on a field.** -/
theorem label_ne_name {l : Label} {c : Callback Bool} (hl : l ∈ a.labels) (hc : c ∈ a.callbacks)
    (hoperation : c.operation.isExternal = false) : l.text ≠ c.name := by
  obtain ⟨rest, hrest⟩ := Names.exists_freshAll_eq hl
  obtain ⟨rest', hrest'⟩ := exists_nameCallbacks_eq hc hoperation
  intro heq
  rw [hrest, hrest'] at heq
  have hcut : "__n_" ++ rest = "__c_" ++ rest' := by
    apply Text.append_cancel (w := a.stem)
    simpa only [String.append_assoc] using heq
  -- the stems part at their third letter
  have hletter := congrArg (fun text => text.toList[2]?) hcut
  simp at hletter

end Assembly

end ByteMachine
