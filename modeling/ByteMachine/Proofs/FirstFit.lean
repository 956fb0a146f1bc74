import ByteMachine.Proofs.SpanPlaces
import Mathlib

/-! # First fit as a colouring

Spans that overlap are the neighbours in a graph, and places are colours.  First fit gives each
span, in its turn, the least colour that no neighbour has so far.

Colours can be noted in two ways.  `place` searches the groups from the front for one without a
neighbour.  `paint?` remembers the colour of each span, finds the least colour that is not in
use among the neighbours, and enters the span into the group of that colour; this step would
fail if there were no such group.  It never does, because the colours in use leave no group
out: the least free colour is that of the first group without a neighbour, or else the number
of groups (`leastUnused_eq_fitting`), and a new group is opened for it.  So both ways come to
the same groups (`paintAll?_eq_firstFit`), in whatever order the neighbours are listed.

What a step keeps is that every group before that of a span holds an earlier neighbour of it
(`Grown.place`).  From this follows how many groups there can be (`length_le_of_grown`). -/
namespace ByteMachine.Allocation

variable {overlap : Nat → Nat → Bool} {groups : List (List Nat)} {spans : List Nat}

/-! ## Groups and their positions -/

/-- A span lies in the group at a position; beyond the last group there is none. -/
def Holds (groups : List (List Nat)) (c s : Nat) : Prop := s ∈ groups.getD c []

@[simp]
theorem holds_nil {c s : Nat} : ¬ Holds [] c s := by simp [Holds]

@[simp]
theorem holds_cons_zero {group : List Nat} {s : Nat} : Holds (group :: groups) 0 s ↔ s ∈ group := by
  simp [Holds]

@[simp]
theorem holds_cons_succ {group : List Nat} {c s : Nat} :
    Holds (group :: groups) (c + 1) s ↔ Holds groups c s := by
  simp [Holds]

theorem mem_flatten_iff {s : Nat} : s ∈ groups.flatten ↔ ∃ c, Holds groups c s := by
  induction groups with
  | nil => simp
  | cons group groups ih =>
    rw [List.flatten_cons, List.mem_append, ih]
    constructor
    · rintro (hs | ⟨c, hc⟩)
      · exact ⟨0, holds_cons_zero.mpr hs⟩
      · exact ⟨c + 1, holds_cons_succ.mpr hc⟩
    · rintro ⟨c, hc⟩
      cases c with
      | zero => exact .inl (holds_cons_zero.mp hc)
      | succ c => exact .inr ⟨c, holds_cons_succ.mp hc⟩

theorem Holds.exists_group {c s : Nat} (h : Holds groups c s) :
    ∃ group ∈ groups, ∀ t, Holds groups c t ↔ t ∈ group := by
  rw [Holds, List.getD_eq_getElem?_getD] at h
  cases hc : groups[c]? with
  | none => simp [hc] at h
  | some group => exact ⟨group, List.mem_of_getElem? hc, fun t => by simp [Holds, hc]⟩

/-- Groups without repetitions hold a span at one position only. -/
theorem Holds.unique (hnodup : groups.flatten.Nodup) {c c' s : Nat} (h : Holds groups c s)
    (h' : Holds groups c' s) : c = c' := by
  induction groups generalizing c c' with
  | nil => exact absurd h holds_nil
  | cons group groups ih =>
    rw [List.flatten_cons, List.nodup_append'] at hnodup
    obtain ⟨-, hrest, hdisjoint⟩ := hnodup
    cases c with
    | zero =>
      cases c' with
      | zero => rfl
      | succ c' =>
        have hs := mem_flatten_iff.mpr ⟨c', holds_cons_succ.mp h'⟩
        exact absurd hs (hdisjoint (holds_cons_zero.mp h))
    | succ c =>
      cases c' with
      | zero =>
        have hs := mem_flatten_iff.mpr ⟨c, holds_cons_succ.mp h⟩
        exact absurd hs (hdisjoint (holds_cons_zero.mp h'))
      | succ c' =>
        exact congrArg (· + 1) (ih hrest (holds_cons_succ.mp h) (holds_cons_succ.mp h'))

/-! ## Where a span is put -/

/-- The position of the first group without a span that overlaps; the number of groups when
there is none. -/
def fitting (overlap : Nat → Nat → Bool) (span : Nat) (groups : List (List Nat)) : Nat :=
  groups.findIdx fun group => !group.any (overlap span)

theorem fitting_cons (span : Nat) (group : List Nat) :
    fitting overlap span (group :: groups) =
      if group.any (overlap span) then fitting overlap span groups + 1 else 0 := by
  rw [fitting, List.findIdx_cons]
  cases group.any (overlap span) <;> rfl

theorem fitting_le (span : Nat) : fitting overlap span groups ≤ groups.length :=
  List.findIdx_le_length

/-- A span overlaps one of each group before the one that it is put into. -/
theorem exists_overlap_of_lt_fitting {span c : Nat} (h : c < fitting overlap span groups) :
    ∃ t, Holds groups c t ∧ overlap span t = true := by
  induction groups generalizing c with
  | nil => exact absurd h (Nat.not_lt_zero _)
  | cons group groups ih =>
    rw [fitting_cons] at h
    split at h
    · rename_i hany
      cases c with
      | zero =>
        obtain ⟨t, ht, hover⟩ := List.any_eq_true.mp hany
        exact ⟨t, holds_cons_zero.mpr ht, hover⟩
      | succ c =>
        obtain ⟨t, ht, hover⟩ := ih (Nat.lt_of_succ_lt_succ h)
        exact ⟨t, holds_cons_succ.mpr ht, hover⟩
    · exact absurd h (Nat.not_lt_zero _)

/-- It overlaps none of the group that it is put into. -/
theorem not_overlap_at_fitting {span t : Nat} (h : Holds groups (fitting overlap span groups) t) :
    overlap span t = false := by
  induction groups with
  | nil => exact absurd h holds_nil
  | cons group groups ih =>
    rw [fitting_cons] at h
    split at h
    · exact ih (holds_cons_succ.mp h)
    · rename_i hnone
      by_contra hover
      exact hnone (List.any_eq_true.mpr ⟨t, holds_cons_zero.mp h, by simpa using hover⟩)

theorem holds_place {span c s : Nat} :
    Holds (place overlap span groups) c s ↔
      Holds groups c s ∨ c = fitting overlap span groups ∧ s = span := by
  induction groups generalizing c with
  | nil => cases c <;> simp [place, fitting]
  | cons group groups ih =>
    rw [place, fitting_cons]
    split
    · cases c with
      | zero => simp
      | succ c => simp [ih]
    · cases c <;> simp

/-- **Entering a span into the group of its colour**, behind the groups that there are when the
colour is new. -/
theorem place_eq_modify (span : Nat) :
    place overlap span groups =
      (if fitting overlap span groups = groups.length then groups ++ [[]] else groups).modify
        (fitting overlap span groups) (· ++ [span]) := by
  induction groups with
  | nil => rfl
  | cons group groups ih =>
    rw [place, fitting_cons]
    split
    · rw [ih]
      simp only [List.length_cons, Nat.add_right_cancel_iff]
      split <;> rfl
    · rw [if_neg (by simp)]
      rfl

theorem firstFit_append (before : List Nat) (span : Nat) :
    firstFit overlap (before ++ [span]) = place overlap span (firstFit overlap before) := by
  rw [firstFit, List.foldl_append]
  rfl

/-! ## Remembered colours -/

/-- The spans with their colours, and for each colour the spans that have it. -/
structure Colouring where
  colours : List (Nat × Nat) := []
  groups : List (List Nat) := []

theorem exists_unused (used : List Nat) : ∃ c, c ∉ used := by
  obtain ⟨c, hc⟩ := Infinite.exists_notMem_finset used.toFinset
  exact ⟨c, by simpa using hc⟩

/-- The least colour that is not in use, found by counting. -/
def leastUnused (used : List Nat) : Nat := Nat.find (exists_unused used)

/-- Gives a span the least colour that none of its neighbours has.  `others` lists the
neighbours; there is no answer when the colour names no group. -/
def Colouring.paint? (others : Nat → List Nat) (k : Colouring) (span : Nat) : Option Colouring :=
  let colour := leastUnused ((others span).filterMap fun t => k.colours.lookup t)
  let groups := if colour = k.groups.length then k.groups ++ [[]] else k.groups
  if colour < groups.length then
    some ⟨(span, colour) :: k.colours, groups.modify colour (· ++ [span])⟩
  else none

/-- Colours spans one after the other. -/
def paintAll? (others : Nat → List Nat) (spans : List Nat) : Option Colouring :=
  spans.foldlM (Colouring.paint? others) {}

/-- The colours that are remembered are those of the groups. -/
def Colouring.Tracks (k : Colouring) : Prop :=
  ∀ t c, k.colours.lookup t = some c ↔ Holds k.groups c t

/-- **The least free colour** is that of the first group without a neighbour, or the next one
behind all groups. -/
theorem leastUnused_eq_fitting {k : Colouring} (hk : k.Tracks) {span : Nat} {others : List Nat}
    (hothers : ∀ c t, Holds k.groups c t → (t ∈ others ↔ overlap span t = true)) :
    leastUnused (others.filterMap fun t => k.colours.lookup t) =
      fitting overlap span k.groups := by
  have hused : ∀ c, c ∈ others.filterMap (fun t => k.colours.lookup t) ↔
      ∃ t, Holds k.groups c t ∧ overlap span t = true := by
    intro c
    rw [List.mem_filterMap]
    constructor
    · rintro ⟨t, ht, hc⟩
      have hheld := (hk t c).mp hc
      exact ⟨t, hheld, (hothers c t hheld).mp ht⟩
    · rintro ⟨t, hheld, hover⟩
      exact ⟨t, (hothers c t hheld).mpr hover, (hk t c).mpr hheld⟩
  rw [leastUnused, Nat.find_eq_iff]
  refine ⟨fun hmem => ?_, fun c hc => not_not.mpr ((hused c).mpr (exists_overlap_of_lt_fitting hc))⟩
  obtain ⟨t, hheld, hover⟩ := (hused _).mp hmem
  rw [not_overlap_at_fitting hheld] at hover
  cases hover

/-- **One step in both ways.** -/
theorem paint?_eq_place (overlap : Nat → Nat → Bool) {k : Colouring} (hk : k.Tracks) {span : Nat}
    {others : Nat → List Nat} (hnew : ∀ c, ¬ Holds k.groups c span)
    (hothers : ∀ c t, Holds k.groups c t → (t ∈ others span ↔ overlap span t = true)) :
    ∃ k', k.paint? others span = some k' ∧ k'.groups = place overlap span k.groups ∧
      k'.Tracks := by
  have hcolour := leastUnused_eq_fitting hk hothers
  have hle : fitting overlap span k.groups ≤ k.groups.length := fitting_le span
  have hlt : fitting overlap span k.groups <
      (if fitting overlap span k.groups = k.groups.length then k.groups ++ [[]]
        else k.groups).length := by
    split
    · rw [List.length_append, List.length_singleton]
      omega
    · omega
  refine ⟨⟨(span, fitting overlap span k.groups) :: k.colours, place overlap span k.groups⟩, ?_,
    rfl, fun t c => ?_⟩
  · rw [Colouring.paint?, hcolour, place_eq_modify]
    exact if_pos hlt
  · rw [holds_place, List.lookup_cons]
    by_cases ht : t = span
    · subst ht
      simp [hnew, eq_comm]
    · simp [beq_false_of_ne ht, ht, hk t c]

/-- **Colouring with remembered colours never fails**, and comes to the groups of first fit. -/
theorem paintAll?_eq_firstFit {others : Nat → List Nat} (hnodup : spans.Nodup)
    (hothers : ∀ s ∈ spans, ∀ t ∈ spans, t ∈ others s ↔ overlap s t = true) :
    ∃ k, paintAll? others spans = some k ∧ k.groups = firstFit overlap spans ∧ k.Tracks := by
  induction spans using List.reverseRecOn with
  | nil => exact ⟨{}, rfl, rfl, fun t c => by simp⟩
  | append_singleton before span ih =>
    rw [List.nodup_append'] at hnodup
    obtain ⟨hbefore, -, hdisjoint⟩ := hnodup
    obtain ⟨k, hpainted, hgroups, hk⟩ := ih hbefore fun s hs t ht =>
      hothers s (List.mem_append_left _ hs) t (List.mem_append_left _ ht)
    have hheld : ∀ c t, Holds k.groups c t → t ∈ before := by
      intro c t hc
      rw [hgroups] at hc
      exact (flatten_firstFit_perm overlap before).mem_iff.mp (mem_flatten_iff.mpr ⟨c, hc⟩)
    have hspan : span ∈ before ++ [span] := by simp
    obtain ⟨k', hpaint, hplace, hk'⟩ := paint?_eq_place overlap hk
      (fun c hc => hdisjoint (hheld c span hc) (List.mem_singleton_self span))
      fun c t hc => hothers span hspan t (List.mem_append_left _ (hheld c t hc))
    refine ⟨k', ?_, ?_, hk'⟩
    · rw [paintAll?, List.foldlM_append]
      rw [paintAll?] at hpainted
      rw [hpainted]
      simpa using hpaint
    · rw [hplace, hgroups, firstFit_append]

/-! ## What first fit comes to -/

/-- **Groups as first fit leaves them**: each lists its spans in their order, and every group
before that of a span holds an earlier one that overlaps it. -/
structure Grown (overlap : Nat → Nat → Bool) (spans : List Nat) (groups : List (List Nat)) :
    Prop where
  order : ∀ group ∈ groups, group.Sublist spans
  earlier : ∀ c s c', Holds groups c s → c' < c →
    ∃ t, [t, s].Sublist spans ∧ overlap s t = true ∧ Holds groups c' t

theorem Grown.mem (h : Grown overlap spans groups) {c s : Nat} (hs : Holds groups c s) :
    s ∈ spans := by
  obtain ⟨group, hgroup, hmem⟩ := List.mem_flatten.mp (mem_flatten_iff.mpr ⟨c, hs⟩)
  exact (h.order group hgroup).mem hmem

theorem sublist_of_mem_place {span : Nat} (h : ∀ group ∈ groups, group.Sublist spans) :
    ∀ group ∈ place overlap span groups, group.Sublist (spans ++ [span]) := by
  induction groups with
  | nil => simp [place]
  | cons first rest ih =>
    obtain ⟨hfirst, hrest⟩ := List.forall_mem_cons.mp h
    rw [place]
    split
    · exact List.forall_mem_cons.mpr ⟨hfirst.trans (List.sublist_append_left _ _), ih hrest⟩
    · refine List.forall_mem_cons.mpr ⟨hfirst.append (.refl _), fun group hgroup => ?_⟩
      exact (hrest group hgroup).trans (List.sublist_append_left _ _)

/-- **One more span.** -/
theorem Grown.place (h : Grown overlap spans groups) (span : Nat) :
    Grown overlap (spans ++ [span]) (Allocation.place overlap span groups) := by
  refine ⟨sublist_of_mem_place h.order, fun c s c' hs hlt => ?_⟩
  rcases holds_place.mp hs with hs | ⟨rfl, rfl⟩
  · obtain ⟨t, ht, hover, hheld⟩ := h.earlier c s c' hs hlt
    exact ⟨t, ht.trans (List.sublist_append_left _ _), hover, holds_place.mpr (.inl hheld)⟩
  · obtain ⟨t, hheld, hover⟩ := exists_overlap_of_lt_fitting hlt
    have ht : [t].Sublist spans := List.singleton_sublist.mpr (h.mem hheld)
    exact ⟨t, ht.append (.refl [s]), hover, holds_place.mpr (.inl hheld)⟩

theorem grown_firstFit (overlap : Nat → Nat → Bool) (spans : List Nat) :
    Grown overlap spans (firstFit overlap spans) := by
  induction spans using List.reverseRecOn with
  | nil => exact ⟨by simp [firstFit], by simp [firstFit]⟩
  | append_singleton before span ih =>
    rw [firstFit_append]
    exact ih.place span

/-- Groups each of which has a span of some sort are not more than there are such spans. -/
theorem length_le_countP_flatten {p : Nat → Bool} (h : ∀ group ∈ groups, ∃ t ∈ group, p t = true) :
    groups.length ≤ groups.flatten.countP p := by
  induction groups with
  | nil => simp
  | cons group groups ih =>
    obtain ⟨hfirst, hrest⟩ := List.forall_mem_cons.mp h
    have hpos := List.countP_pos_iff.mpr hfirst
    rw [List.flatten_cons, List.countP_append, List.length_cons]
    have := ih hrest
    omega

/-- **How many groups there are**: a span of the last group overlaps one of each group before. -/
theorem length_le_of_grown (h : Grown overlap spans groups) (hperm : groups.flatten.Perm spans)
    (hnonempty : ∀ group ∈ groups, group ≠ []) :
    groups.length ≤ 1 + spans.toFinset.sup fun s => spans.countP (overlap s) := by
  rcases List.eq_nil_or_concat groups with rfl | ⟨before, last, rfl⟩
  · simp
  · rw [List.concat_eq_append] at *
    obtain ⟨s, hs⟩ := List.exists_mem_of_ne_nil last (hnonempty last (by simp))
    have hheld : Holds (before ++ [last]) before.length s := by simpa [Holds] using hs
    have hneighbours : ∀ group ∈ before, ∃ t ∈ group, overlap s t = true := by
      intro group hgroup
      obtain ⟨c, hc, rfl⟩ := List.mem_iff_getElem.mp hgroup
      obtain ⟨t, -, hover, ht⟩ := h.earlier _ s c hheld hc
      exact ⟨t, by simpa [Holds, List.getElem?_append_left hc, hc] using ht, hover⟩
    have hcount : before.flatten.countP (overlap s) ≤ spans.countP (overlap s) := by
      rw [← hperm.countP_eq, List.flatten_append, List.countP_append]
      exact Nat.le_add_right _ _
    have hsup : spans.countP (overlap s) ≤
        spans.toFinset.sup fun s => spans.countP (overlap s) :=
      Finset.le_sup (f := fun s => spans.countP (overlap s)) (List.mem_toFinset.mpr (h.mem hheld))
    have hbefore := length_le_countP_flatten hneighbours
    rw [List.length_append, List.length_singleton]
    omega

/-- **A greedy colouring** of spans. -/
structure Greedy (overlap : Nat → Nat → Bool) (spans : List Nat) (groups : List (List Nat)) :
    Prop extends Grown overlap spans groups where
  /-- Every span lies in exactly one group. -/
  once : ∀ s ∈ spans, ∃! c, Holds groups c s
  /-- Nothing else lies in a group. -/
  only : ∀ c s, Holds groups c s → s ∈ spans
  /-- Spans that overlap are in different groups. -/
  apart : ∀ c s t, overlap s t = true → Holds groups c s → ¬ Holds groups c t
  nonempty : ∀ group ∈ groups, group ≠ []
  /-- There is at most one group more than the most neighbours that one span has. -/
  few : groups.length ≤ 1 + spans.toFinset.sup fun s => spans.countP (overlap s)

/-- **First fit is a greedy colouring**, whatever spans overlap, and it is found by remembering
colours, in whatever order the neighbours of a span are listed: no span is ever entered into a
group that is not there. -/
theorem greedy_firstFit (overlap : Nat → Nat → Bool) (others : Nat → List Nat) (spans : List Nat)
    (hnodup : spans.Nodup) (hsymm : ∀ s t, overlap s t = overlap t s)
    (hirrefl : ∀ s, overlap s s = false)
    (hothers : ∀ s ∈ spans, ∀ t ∈ spans, t ∈ others s ↔ overlap s t = true) :
    (∃ k, paintAll? others spans = some k ∧ k.groups = firstFit overlap spans) ∧
      Greedy overlap spans (firstFit overlap spans) := by
  have hgrown := grown_firstFit overlap spans
  have hfits := fits_firstFit overlap spans
  have hperm := flatten_firstFit_perm overlap spans
  have hflat : (firstFit overlap spans).flatten.Nodup := hperm.nodup_iff.mpr hnodup
  constructor
  · obtain ⟨k, hpainted, hgroups, -⟩ := paintAll?_eq_firstFit hnodup hothers
    exact ⟨k, hpainted, hgroups⟩
  · refine ⟨hgrown, fun s hs => ?_, fun c s => hgrown.mem, fun c s t hover hs ht => ?_,
      hfits.nonempty, length_le_of_grown hgrown hperm hfits.nonempty⟩
    · obtain ⟨c, hc⟩ := mem_flatten_iff.mp (hperm.mem_iff.mpr hs)
      exact ⟨c, hc, fun c' hc' => hc'.unique hflat hc⟩
    · obtain ⟨group, hgroup, hmem⟩ := hs.exists_group
      have hne : s ≠ t := by
        rintro rfl
        rw [hirrefl] at hover
        cases hover
      have hfree := hfits.not_overlap hsymm hgroup ((hmem s).mp hs) ((hmem t).mp ht) hne
      rw [hover] at hfree
      cases hfree

/-- Four spans, each of which overlaps the next. -/
def inARow (s t : Nat) : Bool := s + 1 == t || t + 1 == s

/-- When the ends of the row come first, the bound on the number of groups is reached: the last
span finds the groups of both its neighbours taken. -/
theorem greedy_firstFit_row :
    firstFit inARow [0, 3, 1, 2] = [[0, 3], [1], [2]] ∧
      (∃ k, paintAll? (fun s => [s + 1, s - 1].filter (inARow s)) [0, 3, 1, 2] = some k ∧
        k.groups = [[0, 3], [1], [2]]) ∧
      Greedy inARow [0, 3, 1, 2] [[0, 3], [1], [2]] := by
  have hgroups : firstFit inARow [0, 3, 1, 2] = [[0, 3], [1], [2]] := by decide
  obtain ⟨hpainted, hgreedy⟩ := greedy_firstFit inARow
    (fun s => [s + 1, s - 1].filter (inARow s)) [0, 3, 1, 2] (by decide)
    (fun s t => Bool.or_comm _ _) (fun s => by simp [inARow]) (by decide)
  exact ⟨hgroups, hgroups ▸ hpainted, hgroups ▸ hgreedy⟩

end ByteMachine.Allocation
