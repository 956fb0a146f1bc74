import ByteMachine.Digraph
import Mathlib.Data.List.Basic
import Mathlib.Logic.Relation

/-! # What a walk visits

`Digraph.walk` is compared with reachability.  A walk lists no vertex twice
(`nodup_walk`), everything it lists is reachable from its stack
(`exists_reaches_of_mem_walk`), and whatever it reaches it also lists, since the
successors of a listed vertex are listed or were seen before (`next_of_mem_walk`).
So the vertices of `preorder root` are exactly those reachable from the root
(`mem_preorder_iff`).

The order matters as well.  A vertex comes behind one of its predecessors unless
it was on the stack to begin with (`parent_of_walk_eq`), and a successor named
twice counts once, so that two graphs whose successor lists agree up to
repetition have the same walks (`walk_congr`).  Nothing else about a vertex counts:
when vertices are renamed, so are those of the walk (`walk_map`). -/
namespace ByteMachine.Digraph

variable {V : Type} {g : Digraph V}

/-- There is a path, possibly without edges. -/
def Reaches (g : Digraph V) (u v : V) : Prop :=
  Relation.ReflTransGen (fun a b => b ∈ g.next a) u v

theorem Reaches.refl (u : V) : g.Reaches u u := Relation.ReflTransGen.refl

theorem Reaches.step {u v w : V} (h : g.Reaches u v) (hw : w ∈ g.next v) : g.Reaches u w :=
  Relation.ReflTransGen.tail h hw

theorem Reaches.trans {u v w : V} (h : g.Reaches u v) (h' : g.Reaches v w) : g.Reaches u w :=
  Relation.ReflTransGen.trans h h'

/-- **Closed sets.**  What holds of a vertex and passes on to successors holds of all
that is reachable. -/
theorem Reaches.closed {P : V → Prop} {u v : V} (h : g.Reaches u v) (hu : P u)
    (hstep : ∀ a b, g.Reaches u a → P a → b ∈ g.next a → P b) : P v := by
  induction h with
  | refl => exact hu
  | tail hab hbc ih => exact hstep _ _ hab ih hbc

/-! ## Membership -/

section Visited
variable [DecidableEq V]

theorem not_mem_seen_of_mem_walk {stack seen : List V} {v : V} (h : v ∈ g.walk stack seen) :
    v ∉ seen := by
  fun_induction g.walk stack seen with
  | case1 seen => cases h
  | case2 seen w rest hw ih => exact ih h
  | case3 seen w rest hw ih =>
    rcases List.mem_cons.mp h with rfl | h
    · exact hw
    · exact fun hs => ih h (List.mem_cons_of_mem _ hs)

variable (g) in
/-- A walk lists no vertex twice. -/
theorem nodup_walk (stack seen : List V) : (g.walk stack seen).Nodup := by
  fun_induction g.walk stack seen with
  | case1 seen => exact List.nodup_nil
  | case2 seen w rest hw ih => exact ih
  | case3 seen w rest hw ih =>
    refine List.nodup_cons.mpr ⟨fun h => ?_, ih⟩
    exact not_mem_seen_of_mem_walk h List.mem_cons_self

/-- A walk lists nothing but what can be reached from the vertices it starts with. -/
theorem exists_reaches_of_mem_walk {stack seen : List V} {v : V} (h : v ∈ g.walk stack seen) :
    ∃ u ∈ stack, g.Reaches u v := by
  fun_induction g.walk stack seen with
  | case1 seen => cases h
  | case2 seen w rest hw ih =>
    obtain ⟨u, hu, hr⟩ := ih h
    exact ⟨u, List.mem_cons_of_mem _ hu, hr⟩
  | case3 seen w rest hw ih =>
    rcases List.mem_cons.mp h with rfl | h
    · exact ⟨_, List.mem_cons_self, Reaches.refl _⟩
    · obtain ⟨u, hu, hr⟩ := ih h
      rcases List.mem_append.mp hu with hu | hu
      · exact ⟨w, List.mem_cons_self, ((Reaches.refl w).step hu).trans hr⟩
      · exact ⟨u, List.mem_cons_of_mem _ hu, hr⟩

theorem mem_walk_of_mem_stack {stack seen : List V} {v : V} (h : v ∈ stack) (hv : v ∉ seen) :
    v ∈ g.walk stack seen := by
  fun_induction g.walk stack seen with
  | case1 seen => cases h
  | case2 seen w rest hw ih =>
    rcases List.mem_cons.mp h with rfl | h
    · exact absurd hw hv
    · exact ih h hv
  | case3 seen w rest hw ih =>
    by_cases hvw : v = w
    · exact hvw ▸ List.mem_cons_self
    · refine List.mem_cons_of_mem _ (ih ?_ ?_)
      · exact List.mem_append_right _ ((List.mem_cons.mp h).resolve_left hvw)
      · exact fun hs => (List.mem_cons.mp hs).elim hvw hv

/-- **A walk leaves no successor out.** -/
theorem next_of_mem_walk {stack seen : List V} {u v : V} (hu : u ∈ g.walk stack seen)
    (hv : v ∈ g.next u) : v ∈ seen ∨ v ∈ g.walk stack seen := by
  fun_induction g.walk stack seen with
  | case1 seen => cases hu
  | case2 seen w rest hw ih => exact ih hu
  | case3 seen w rest hw ih =>
    have hsub : v ∈ w :: seen ∨ v ∈ g.walk (g.next w ++ rest) (w :: seen) := by
      rcases List.mem_cons.mp hu with rfl | hu
      · by_cases hs : v ∈ u :: seen
        · exact Or.inl hs
        · exact Or.inr (mem_walk_of_mem_stack (List.mem_append_left _ hv) hs)
      · exact ih hu
    rcases hsub with hs | hs
    · rcases List.mem_cons.mp hs with rfl | hs
      · exact Or.inr List.mem_cons_self
      · exact Or.inl hs
    · exact Or.inr (List.mem_cons_of_mem _ hs)

/-- **What a walk lists**: the vertices reachable from its stack, when nothing was seen
before. -/
theorem mem_walk_nil_iff {stack : List V} {v : V} :
    v ∈ g.walk stack [] ↔ ∃ u ∈ stack, g.Reaches u v := by
  refine ⟨exists_reaches_of_mem_walk, ?_⟩
  rintro ⟨u, hu, hr⟩
  refine hr.closed (mem_walk_of_mem_stack hu List.not_mem_nil) ?_
  intro a b _ ha hb
  exact (next_of_mem_walk ha hb).resolve_left List.not_mem_nil

/-- **A walk lists exactly what can be reached.** -/
theorem mem_preorder_iff {root v : V} : v ∈ g.preorder root ↔ g.Reaches root v := by
  simp [preorder, mem_walk_nil_iff]

theorem nodup_preorder (root : V) : (g.preorder root).Nodup := g.nodup_walk _ _

/-! ## Order -/

/-- **A vertex comes behind a predecessor**, unless the walk starts with it. -/
theorem parent_of_walk_eq {stack seen before after : List V} {v : V}
    (h : g.walk stack seen = before ++ v :: after) :
    v ∈ stack ∨ ∃ u ∈ before, v ∈ g.next u := by
  fun_induction g.walk stack seen generalizing before with
  | case1 seen => simp at h
  | case2 seen w rest hw ih => exact (ih h).imp_left (List.mem_cons_of_mem _)
  | case3 seen w rest hw ih =>
    cases before with
    | nil =>
      obtain ⟨rfl, -⟩ := List.cons.inj h
      exact Or.inl List.mem_cons_self
    | cons u before =>
      obtain ⟨rfl, htail⟩ := List.cons.inj h
      rcases ih htail with hv | ⟨u, hu, hv⟩
      · rcases List.mem_append.mp hv with hv | hv
        · exact Or.inr ⟨w, List.mem_cons_self, hv⟩
        · exact Or.inl (List.mem_cons_of_mem _ hv)
      · exact Or.inr ⟨u, List.mem_cons_of_mem _ hu, hv⟩

/-! ### Repeated successors -/

/-- What is left of a stack: each vertex at its first place, without those seen before. -/
def fresh (seen stack : List V) : List V := stack.eraseDups.filter (· ∉ seen)

theorem filter_eraseDups (p : V → Bool) (l : List V) :
    l.eraseDups.filter p = (l.filter p).eraseDups := by
  induction h : l.length using Nat.strongRecOn generalizing l with
  | ind n ih =>
    cases l with
    | nil => rfl
    | cons a l =>
      have hlt : (l.filter fun b => !b == a).length < n := by
        have := List.length_filter_le (fun b => !b == a) l
        simp only [List.length_cons] at h
        omega
      have hrest := ih _ hlt (l.filter fun b => !b == a) rfl
      rw [List.filter_filter] at hrest
      by_cases ha : p a = true
      · rw [List.eraseDups_cons, List.filter_cons_of_pos ha, List.filter_cons_of_pos ha,
          List.eraseDups_cons, hrest, List.filter_filter]
        simp [Bool.and_comm]
      · rw [List.eraseDups_cons, List.filter_cons_of_neg ha, List.filter_cons_of_neg ha, hrest]
        congr 1
        refine List.filter_congr fun b _ => ?_
        by_cases hb : b = a <;> simp [hb, ha]

theorem nodup_eraseDups (l : List V) : l.eraseDups.Nodup := by
  induction h : l.length using Nat.strongRecOn generalizing l with
  | ind n ih =>
    cases l with
    | nil => exact List.nodup_nil
    | cons a l =>
      have hlt : (l.filter fun b => !b == a).length < n := by
        have := List.length_filter_le (fun b => !b == a) l
        simp only [List.length_cons] at h
        omega
      rw [List.eraseDups_cons, List.nodup_cons, List.mem_eraseDups]
      exact ⟨by simp, ih _ hlt _ rfl⟩

/-- What is dropped as a repetition does not depend on the names. -/
theorem eraseDups_map {W : Type} [DecidableEq W] {f : V → W} (hf : Function.Injective f)
    (l : List V) : (l.map f).eraseDups = l.eraseDups.map f := by
  induction h : l.length using Nat.strongRecOn generalizing l with
  | ind n ih =>
    cases l with
    | nil => rfl
    | cons a l =>
      have hlt : (l.filter fun b => !b == a).length < n := by
        have := List.length_filter_le (fun b => !b == a) l
        simp only [List.length_cons] at h
        omega
      have hfilter : (l.map f).filter (fun b => !b == f a) = (l.filter fun b => !b == a).map f := by
        rw [List.filter_map]
        congr 1
        refine List.filter_congr fun b _ => ?_
        by_cases hb : b = a
        · simp [hb]
        · simp [hb, hf.ne hb]
      rw [List.map_cons, List.eraseDups_cons, List.eraseDups_cons, List.map_cons, hfilter,
        ih _ hlt _ rfl]

theorem fresh_cons_of_mem {v : V} {seen : List V} (h : v ∈ seen) (rest : List V) :
    fresh seen (v :: rest) = fresh seen rest := by
  simp [fresh, filter_eraseDups, h]

theorem fresh_cons_of_not_mem {v : V} {seen : List V} (h : v ∉ seen) (rest : List V) :
    fresh seen (v :: rest) = v :: fresh (v :: seen) rest := by
  simp only [fresh, filter_eraseDups, h, not_false_eq_true, decide_true,
    List.filter_cons_of_pos, List.eraseDups_cons, List.filter_filter, List.cons.injEq, true_and]
  congr 1
  refine List.filter_congr fun w _ => ?_
  by_cases hw : w = v <;> simp [hw]

theorem fresh_append_seen (more seen stack : List V) :
    fresh (more ++ seen) stack = (fresh seen stack).filter (· ∉ more) := by
  simp [fresh, List.filter_filter]

/-- What is new in the second of two lists is new beyond the first one. -/
theorem fresh_append (seen xs ys : List V) :
    fresh seen (xs ++ ys) = fresh seen xs ++ fresh (xs ++ seen) ys := by
  simp only [fresh, List.eraseDups_append, List.filter_append, List.removeAll, filter_eraseDups,
    List.filter_filter]
  congr 2
  refine List.filter_congr fun w _ => ?_
  by_cases hw : w ∈ xs <;> simp [hw]

/-- A walk does not see the difference between stacks with the same fresh vertices. -/
theorem walk_congr {h : Digraph V} (hnext : ∀ u, (g.next u).eraseDups = (h.next u).eraseDups)
    {stack stack' seen : List V} (hfresh : fresh seen stack = fresh seen stack') :
    g.walk stack seen = h.walk stack' seen := by
  fun_induction g.walk stack seen generalizing stack' with
  | case1 seen =>
    -- all of the other stack was seen, so that it is dropped vertex by vertex
    induction stack' with
    | nil => rw [walk_nil]
    | cons v rest ih =>
      by_cases hv : v ∈ seen
      · rw [fresh_cons_of_mem hv] at hfresh
        rw [walk_cons_of_mem h hv]
        exact ih hfresh
      · rw [fresh_cons_of_not_mem hv] at hfresh
        cases hfresh
  | case2 seen v rest hv ih =>
    rw [fresh_cons_of_mem hv] at hfresh
    exact ih hfresh
  | case3 seen v rest hv ih =>
    rw [fresh_cons_of_not_mem hv] at hfresh
    induction stack' with
    | nil => cases hfresh
    | cons w rest' ih' =>
      by_cases hw : w ∈ seen
      · rw [fresh_cons_of_mem hw] at hfresh
        rw [walk_cons_of_mem h hw]
        exact ih' hfresh
      · rw [fresh_cons_of_not_mem hw] at hfresh
        obtain ⟨rfl, htail⟩ := List.cons.inj hfresh
        rw [walk_cons_of_not_mem h hv]
        refine congrArg _ (ih ?_)
        have hfirst : fresh (v :: seen) (g.next v) = fresh (v :: seen) (h.next v) := by
          simp only [fresh, hnext]
        have hmem : ∀ w, w ∈ g.next v ↔ w ∈ h.next v := by
          intro w
          rw [← List.mem_eraseDups, hnext, List.mem_eraseDups]
        rw [fresh_append, fresh_append, hfirst, fresh_append_seen, fresh_append_seen, htail]
        simp only [hmem]

theorem preorder_congr {h : Digraph V} (hnext : ∀ u, (g.next u).eraseDups = (h.next u).eraseDups)
    (root : V) : g.preorder root = h.preorder root :=
  walk_congr hnext rfl

/-! ### Renamed vertices -/

section Map
variable {W : Type} [DecidableEq W] {h : Digraph W} {f : V → W} {P : V → Prop}

/-- **A walk follows a renaming.**  It is enough that the successors that the walk gets to see
are renamed. -/
theorem walk_map (hf : Function.Injective f) (hclosed : ∀ u, P u → ∀ v ∈ g.next u, P v)
    (hnext : ∀ u, P u → h.next (f u) = (g.next u).map f) {stack : List V}
    (hstack : ∀ v ∈ stack, P v) (seen : List V) :
    h.walk (stack.map f) (seen.map f) = (g.walk stack seen).map f := by
  fun_induction g.walk stack seen with
  | case1 seen => rw [List.map_nil, walk_nil]
  | case2 seen v rest hv ih =>
    rw [List.map_cons, walk_cons_of_mem h (List.mem_map_of_mem hv)]
    exact ih fun w hw => hstack w (List.mem_cons_of_mem _ hw)
  | case3 seen v rest hv ih =>
    have hPv : P v := hstack v List.mem_cons_self
    have hfv : f v ∉ seen.map f := fun hmem => hv ((List.mem_map_of_injective hf).mp hmem)
    have hstack' : ∀ w ∈ g.next v ++ rest, P w := by
      intro w hw
      rcases List.mem_append.mp hw with hw | hw
      · exact hclosed v hPv w hw
      · exact hstack w (List.mem_cons_of_mem _ hw)
    rw [List.map_cons, walk_cons_of_not_mem h hfv, hnext v hPv, ← List.map_append,
      ← List.map_cons, ih hstack', List.map_cons]

/-- An injective renaming of the vertices renames the order of the walk. -/
theorem preorder_map (hf : Function.Injective f) {root : V}
    (hnext : ∀ u, g.Reaches root u → h.next (f u) = (g.next u).map f) :
    h.preorder (f root) = (g.preorder root).map f := by
  have hroot : ∀ v ∈ [root], g.Reaches root v := by simpa using Reaches.refl root
  exact walk_map hf (fun _ hu _ hv => hu.step hv) hnext hroot []

end Map

end Visited

end ByteMachine.Digraph
