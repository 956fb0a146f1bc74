import ByteMachine.Proofs.Bypass
import Mathlib.Data.List.Perm.Subperm

/-! # Redirecting all edges at once

`Machine.bypass` changes the machine that it reads: a chain may lead through states whose own
edges have been redirected before.  The outcome is nevertheless the one of looking up all
destinations in the original machine first (`bypass_eq_redirected`).

The reason is that no redirection moves the end of a chain.  A state that merely passes on,
once redirected, skips the rest of its chain and still comes to the same end; if its chain
runs in a loop, its edge stays as it is.  So destinations are the same before each step of the
pass (`destination_bypassAt`), and since no state is visited twice, each edge is redirected
from where it led at first.

Where a chain ends is said by `Leads` without counting steps.  A chain that ends passes no
state twice, so counting as many steps as there are states finds every end
(`destination_eq_iff`).

Every edge then leads to a destination, and a destination is its own destination.  So one pass
leaves nothing for another one to do (`bypass_settles`). -/
namespace ByteMachine.Machine

variable {m : Machine}

/-- **A chain without an end** never leaves the states that merely pass on. -/
def Endless (m : Machine) (i : Nat) : Prop := ∀ j, m.Chain i j → ∃ k, m.PassesOn j k

/-- **Where an edge into a position may as well lead**: to the first state on the chain that
does not merely pass on, or to the position itself when there is no such state. -/
inductive Leads (m : Machine) (i : Nat) : Nat → Prop
  | ending {j : Nat} (hchain : m.Chain i j) (hend : ∀ k, ¬ m.PassesOn j k) : Leads m i j
  | endless (hloop : m.Endless i) : Leads m i i

/-! ## Chains that end -/

theorem Chain.eq_of_end {i j : Nat} (h : m.Chain i j) (hend : ∀ k, ¬ m.PassesOn i k) : j = i := by
  rcases Relation.ReflTransGen.cases_head h with rfl | ⟨next, hnext, -⟩
  · rfl
  · exact absurd hnext (hend next)

/-- A state passes on to one position only. -/
theorem PassesOn.unique {i j k : Nat} (hj : m.PassesOn i j) (hk : m.PassesOn i k) : j = k := by
  rw [← passesTo?_eq_some_iff] at hj hk
  exact Option.some.inj (hj.symm.trans hk)

/-- A chain has one end only. -/
theorem Leads.unique {i j k : Nat} (hj : m.Leads i j) (hk : m.Leads i k) : j = k := by
  cases hj with
  | ending hchain hend =>
    cases hk with
    | ending hchain' hend' =>
      have hfunctional : Relator.RightUnique m.PassesOn := fun _ _ _ => PassesOn.unique
      rcases Relation.ReflTransGen.total_of_right_unique hfunctional hchain hchain' with h | h
      · exact (Chain.eq_of_end h hend).symm
      · exact Chain.eq_of_end h hend'
    | endless hloop =>
      obtain ⟨next, hnext⟩ := hloop j hchain
      exact absurd hnext (hend next)
  | endless hloop =>
    cases hk with
    | ending hchain' hend' =>
      obtain ⟨next, hnext⟩ := hloop k hchain'
      exact absurd hnext (hend' next)
    | endless => rfl

theorem passesTo?_of_chainEnd? {n i j : Nat} (h : m.chainEnd? n i = some j) :
    m.passesTo? j = none := by
  induction n generalizing i with
  | zero =>
    unfold chainEnd? at h
    split at h
    · cases h
    · rename_i hpass
      obtain rfl := Option.some.inj h
      simpa using hpass
  | succ n ih =>
    unfold chainEnd? at h
    split at h
    · exact ih h
    · rename_i hpass
      exact Option.some.inj h ▸ hpass

/-- More steps find the same end. -/
theorem chainEnd?_mono {n k i j : Nat} (hle : n ≤ k) (h : m.chainEnd? n i = some j) :
    m.chainEnd? k i = some j := by
  induction n generalizing i k with
  | zero =>
    unfold chainEnd? at h
    split at h
    · cases h
    · rename_i hpass
      have hnone : m.passesTo? i = none := by simpa using hpass
      cases k with
      | zero => rw [chainEnd?, if_neg hpass, h]
      | succ k => rw [chainEnd?, hnone, ← h]
  | succ n ih =>
    obtain ⟨k, rfl⟩ : ∃ k', k = k' + 1 := ⟨k - 1, by omega⟩
    unfold chainEnd? at h ⊢
    split at h
    · exact ih (by omega) h
    · exact h

/-- The end of a chain is found in some number of steps. -/
theorem exists_chainEnd? {i j : Nat} (h : m.Chain i j) (hend : m.passesTo? j = none) :
    ∃ n, m.chainEnd? n i = some j := by
  induction h using Relation.ReflTransGen.head_induction_on with
  | refl => exact ⟨0, by simp [chainEnd?, hend]⟩
  | head hstep _ ih =>
    obtain ⟨n, hn⟩ := ih
    exact ⟨n + 1, by rw [chainEnd?, passesTo?_eq_some_iff.mpr hstep]; exact hn⟩

theorem lt_size_of_passesTo? {i : Nat} (h : (m.passesTo? i).isSome) : i < m.states.size := by
  by_contra hi
  rw [passesTo?, Array.getElem?_eq_none (Nat.le_of_not_lt hi)] at h
  cases h

/-- **The states that a chain passes** before its end are all different: the end is one step
closer from each of them than from the one before. -/
theorem exists_trail {n i j : Nat} (hnone : m.chainEnd? n i = none)
    (h : m.chainEnd? (n + 1) i = some j) :
    ∃ trail : List Nat, trail.length = n + 1 ∧ trail.Nodup ∧
      ∀ k ∈ trail, (m.passesTo? k).isSome ∧ (m.chainEnd? (n + 1) k).isSome := by
  induction n generalizing i with
  | zero =>
    have hpass : (m.passesTo? i).isSome := by
      by_contra hpass
      rw [chainEnd?, if_neg hpass] at hnone
      cases hnone
    exact ⟨[i], rfl, by simp, by simp [hpass, h]⟩
  | succ n ih =>
    cases hi : m.passesTo? i with
    | none => simp [chainEnd?, hi] at hnone
    | some next =>
      have hnext : m.chainEnd? n next = none := by simpa [chainEnd?, hi] using hnone
      have hnext' : m.chainEnd? (n + 1) next = some j := by
        rw [chainEnd?, hi] at h
        exact h
      obtain ⟨trail, hlength, hnodup, htrail⟩ := ih hnext hnext'
      refine ⟨i :: trail, by simp [hlength], List.nodup_cons.mpr ⟨?_, hnodup⟩, ?_⟩
      · intro hmem
        simpa [hnone] using (htrail i hmem).2
      · intro k hk
        rcases List.mem_cons.mp hk with rfl | hk
        · exact ⟨by rw [hi]; rfl, by rw [h]; rfl⟩
        · obtain ⟨hpass, hsome⟩ := htrail k hk
          obtain ⟨e, he⟩ := Option.isSome_iff_exists.mp hsome
          exact ⟨hpass, by rw [chainEnd?_mono (Nat.le_succ _) he]; rfl⟩

/-- **Enough steps.**  A chain that has not ended after as many steps as there are states has no
end. -/
theorem chainEnd?_eq_none {i : Nat} (h : m.chainEnd? m.states.size i = none) (n : Nat) :
    m.chainEnd? n i = none := by
  have hfar : ∀ k j, m.chainEnd? k i = some j → m.states.size < k := by
    intro k j hk
    by_contra hle
    rw [chainEnd?_mono (Nat.le_of_not_lt hle) hk] at h
    cases h
  induction n with
  | zero =>
    cases hn : m.chainEnd? 0 i with
    | none => rfl
    | some j => exact absurd (hfar 0 j hn) (Nat.not_lt_zero _)
  | succ n ih =>
    cases hn : m.chainEnd? (n + 1) i with
    | none => rfl
    | some j =>
      obtain ⟨trail, hlength, hnodup, htrail⟩ := exists_trail ih hn
      have hsub : trail ⊆ List.range m.states.size := fun k hk =>
        List.mem_range.mpr (lt_size_of_passesTo? (htrail k hk).1)
      have hle := (List.subperm_of_subset hnodup hsub).length_le
      have hlt := hfar (n + 1) j hn
      rw [List.length_range, hlength] at hle
      omega

/-- **What a destination is.** -/
theorem destination_eq_iff {i j : Nat} : m.destination i = j ↔ m.Leads i j := by
  have hleads : m.Leads i (m.destination i) := by
    unfold destination
    cases h : m.chainEnd? m.states.size i with
    | some j =>
      exact .ending (chain_of_chainEnd? h) (passesTo?_eq_none_iff.mp (passesTo?_of_chainEnd? h))
    | none =>
      refine .endless fun j hchain => ?_
      by_contra hpass
      have hend : m.passesTo? j = none := passesTo?_eq_none_iff.mpr (not_exists.mp hpass)
      obtain ⟨n, hn⟩ := exists_chainEnd? hchain hend
      rw [chainEnd?_eq_none h n] at hn
      cases hn
  exact ⟨fun h => h ▸ hleads, hleads.unique⟩

/-! ## No redirection moves an end -/

theorem State.passesTo?_mapTargets (f : Nat → Nat) (s : State) :
    (s.mapTargets f).passesTo? = s.passesTo?.map f := by
  obtain ⟨label, kind, otherwise⟩ := s
  cases otherwise with
  | none => cases kind <;> rfl
  | some o =>
    obtain ⟨target, stay, value⟩ := o
    cases stay <;> cases kind <;> rfl

theorem passesTo?_bypassAt (m : Machine) (k i : Nat) :
    (m.bypassAt k).passesTo? i =
      if k = i then (m.passesTo? i).map m.destination else m.passesTo? i := by
  unfold passesTo?
  rw [bypassAt_states]
  by_cases hki : k = i
  · rw [if_pos hki, if_pos hki]
    cases m.states[i]? with
    | none => rfl
    | some s => exact s.passesTo?_mapTargets m.destination
  · rw [if_neg hki, if_neg hki]

/-- The same states pass on as before. -/
theorem exists_passesOn_bypassAt {k i : Nat} :
    (∃ j, (m.bypassAt k).PassesOn i j) ↔ ∃ j, m.PassesOn i j := by
  rw [← isSome_passesTo?_iff, ← isSome_passesTo?_iff, passesTo?_bypassAt]
  split
  · rw [Option.isSome_map]
  · rfl

/-- What lies behind a position after a redirection lay behind it before. -/
theorem Chain.of_bypassAt {k i j : Nat} (h : (m.bypassAt k).Chain i j) : m.Chain i j := by
  induction h with
  | refl => exact .refl
  | @tail a b _ hstep ih =>
    rw [← passesTo?_eq_some_iff, passesTo?_bypassAt] at hstep
    split at hstep
    · obtain ⟨next, hnext, rfl⟩ := Option.map_eq_some_iff.mp hstep
      exact (ih.tail (passesTo?_eq_some_iff.mp hnext)).trans (m.chain_destination next)
    · exact ih.tail (passesTo?_eq_some_iff.mp hstep)

theorem Leads.bypassAt {i j : Nat} (h : m.Leads i j) (k : Nat) : (m.bypassAt k).Leads i j := by
  cases h with
  | endless hloop =>
    exact .endless fun j hchain => exists_passesOn_bypassAt.mpr (hloop j hchain.of_bypassAt)
  | ending hchain hend =>
    have hend' : ∀ next, ¬ (m.bypassAt k).PassesOn j next := by
      rw [← not_exists, exists_passesOn_bypassAt, not_exists]
      exact hend
    refine .ending ?_ hend'
    induction hchain using Relation.ReflTransGen.head_induction_on with
    | refl => exact .refl
    | @head a b hstep hrest ih =>
      have hstep' := m.passesTo?_bypassAt k a
      rw [passesTo?_eq_some_iff.mpr hstep] at hstep'
      by_cases hka : k = a
      · -- the redirected state goes to the end at once
        rw [if_pos hka, Option.map_some, destination_eq_iff.mpr (.ending hrest hend)] at hstep'
        exact .single (passesTo?_eq_some_iff.mp hstep')
      · rw [if_neg hka] at hstep'
        exact .head (passesTo?_eq_some_iff.mp hstep') ih

/-- **Destinations stay the same** when the edges of a state are redirected. -/
theorem destination_bypassAt (m : Machine) (k : Nat) :
    (m.bypassAt k).destination = m.destination := by
  funext i
  exact destination_eq_iff.mpr ((destination_eq_iff.mp rfl).bypassAt k)

/-! ## The whole pass -/

theorem destination_foldl_bypassAt (m : Machine) (is : List Nat) :
    (is.foldl bypassAt m).destination = m.destination := by
  induction is generalizing m with
  | nil => rfl
  | cons i is ih => exact (ih (m.bypassAt i)).trans (m.destination_bypassAt i)

/-- A state that is redirected once is redirected by the destinations of the original machine,
whatever was redirected before it. -/
theorem states_foldl_bypassAt (m : Machine) {is : List Nat} (hnodup : is.Nodup) (j : Nat) :
    (is.foldl bypassAt m).states[j]? =
      if j ∈ is then m.states[j]?.map (State.mapTargets m.destination) else m.states[j]? := by
  induction is generalizing m with
  | nil => rw [if_neg List.not_mem_nil, List.foldl_nil]
  | cons i is ih =>
    obtain ⟨hi, hnodup⟩ := List.nodup_cons.mp hnodup
    rw [List.foldl_cons, ih (m.bypassAt i) hnodup, bypassAt_states, destination_bypassAt]
    by_cases hij : i = j
    · subst hij
      rw [if_neg hi, if_pos rfl, if_pos List.mem_cons_self]
    · simp only [if_neg hij, List.mem_cons, Ne.symm hij, false_or]

theorem bypass_transforms (m : Machine) (root : Nat) :
    (m.bypass root).1.transforms = m.transforms :=
  bypass_induct (P := fun after => after.transforms = m.transforms) root rfl fun after i h =>
    (after.bypassAt_transforms i).trans h

/-- The machine with all edges of the states reachable from the root redirected at once, by the
destinations of the machine as it is. -/
def redirected (m : Machine) (root : Nat) : Machine :=
  { m with
    states := m.states.mapIdx fun i s =>
      if i ∈ m.reachable root then s.mapTargets m.destination else s }

theorem states_bypass (m : Machine) (root : Nat) :
    (m.bypass root).1.states = (m.redirected root).states := by
  apply Array.ext_getElem?
  intro j
  have hstates := m.states_foldl_bypassAt (m.digraph.nodup_preorder root) j
  rw [redirected, Array.getElem?_mapIdx]
  refine hstates.trans ?_
  show (if j ∈ m.reachable root then _ else _) = _
  split
  · rfl
  · exact Option.map_id'.symm

/-- **The pass redirects all edges of reachable states at once**, by where chains end in the
original machine, and changes nothing else. -/
theorem bypass_eq_redirected (m : Machine) (root : Nat) :
    m.bypass root = (m.redirected root, m.destination root) ∧
      (∀ i, i ∈ m.reachable root ↔ m.digraph.Reaches root i) ∧
      ∀ i j, m.destination i = j ↔ m.Leads i j := by
  refine ⟨Prod.ext ?_ ?_, fun i => Digraph.mem_preorder_iff, fun i j => destination_eq_iff⟩
  · have hparts : ∀ after : Machine, after.states = (m.redirected root).states →
        after.callbacks = m.callbacks → after.transforms = m.transforms →
        after = m.redirected root := by
      rintro ⟨states, callbacks, transforms⟩ rfl rfl rfl
      rfl
    exact hparts _ (m.states_bypass root) (m.bypass_callbacks root) (m.bypass_transforms root)
  · exact congrFun (m.destination_foldl_bypassAt _) root

/-! ## One pass is enough -/

/-- **A settled machine**: neither the root nor an edge of a reachable state leads into a state
that merely passes on, unless the chain from there has no end. -/
structure Settled (m : Machine) (root : Nat) : Prop where
  start : ∀ k, m.PassesOn root k → m.Endless root
  edges : ∀ i j k, m.digraph.Reaches root i → j ∈ m.next i → m.PassesOn j k → m.Endless j

/-- The positions that redirection leaves alone. -/
theorem destination_eq_self_iff {i : Nat} :
    m.destination i = i ↔ ∀ k, m.PassesOn i k → m.Endless i := by
  rw [destination_eq_iff]
  constructor
  · intro h k hpass
    cases h with
    | ending _ hend => exact absurd hpass (hend k)
    | endless hloop => exact hloop
  · intro h
    by_cases hpass : ∃ k, m.PassesOn i k
    · obtain ⟨k, hpass⟩ := hpass
      exact .endless (h k hpass)
    · exact .ending .refl (not_exists.mp hpass)

theorem Leads.self {i j : Nat} (h : m.Leads i j) : m.Leads j j := by
  cases h with
  | ending _ hend => exact .ending .refl hend
  | endless hloop => exact .endless hloop

/-- A destination is its own destination. -/
theorem destination_destination (m : Machine) (i : Nat) :
    m.destination (m.destination i) = m.destination i :=
  destination_eq_iff.mpr (destination_eq_iff.mp rfl).self

/-- A chain runs along otherwise edges. -/
theorem Chain.reaches {i j : Nat} (h : m.Chain i j) : m.digraph.Reaches i j := by
  refine Relation.ReflTransGen.mono (fun a b hstep => ?_) i j h
  obtain ⟨s, value, hs, -, hotherwise⟩ := hstep
  show b ∈ m.next a
  simp [next, hs, State.targets, hotherwise]

theorem next_bypass (m : Machine) {root i : Nat} (hi : m.digraph.Reaches root i) :
    (m.bypass root).1.next i = (m.next i).map m.destination := by
  have hmem : i ∈ m.reachable root := Digraph.mem_preorder_iff.mpr hi
  unfold next
  rw [states_bypass, redirected, Array.getElem?_mapIdx]
  cases m.states[i]? with
  | none => rfl
  | some s =>
    show (if i ∈ m.reachable root then s.mapTargets m.destination else s).targets = _
    rw [if_pos hmem, State.targets_mapTargets]

theorem destination_bypass (m : Machine) (root : Nat) :
    (m.bypass root).1.destination = m.destination :=
  m.destination_foldl_bypassAt _

theorem bypass_root (m : Machine) (root : Nat) : (m.bypass root).2 = m.destination root :=
  congrFun (m.destination_bypass root) root

/-- **Redirection reaches no new states**: an edge is led on along a chain that could be
followed before. -/
theorem reaches_of_reaches_bypass {root i : Nat}
    (h : (m.bypass root).1.digraph.Reaches (m.bypass root).2 i) : m.digraph.Reaches root i := by
  refine h.closed (P := m.digraph.Reaches root) ?_ ?_
  · rw [bypass_root]
    exact (m.chain_destination root).reaches
  · intro a b _ ha hb
    have hb : b ∈ (m.next a).map m.destination := m.next_bypass ha ▸ hb
    obtain ⟨t, ht, rfl⟩ := List.mem_map.mp hb
    exact (ha.step ht).trans (m.chain_destination t).reaches

/-- After the pass the root and all edges lead to destinations. -/
theorem settled_bypass (m : Machine) (root : Nat) :
    (m.bypass root).1.Settled (m.bypass root).2 := by
  have hfixed : ∀ t, (m.bypass root).1.destination (m.destination t) = m.destination t := by
    intro t
    rw [destination_bypass, destination_destination]
  refine ⟨?_, ?_⟩
  · rw [← destination_eq_self_iff, bypass_root]
    exact hfixed root
  · intro i j k hi hj
    rw [next_bypass m (reaches_of_reaches_bypass hi)] at hj
    obtain ⟨t, -, rfl⟩ := List.mem_map.mp hj
    exact destination_eq_self_iff.mp (hfixed t) k

/-! ### Another pass -/

/-- Edges whose targets stay are not changed. -/
theorem map_edges_eq_self {α : Type} (set : α → Nat → α) {get : α → Nat} {f : Nat → Nat}
    (hset : ∀ e, set e (get e) = e) {edges : List α} (h : ∀ t ∈ edges.map get, f t = t) :
    edges.map (fun e => set e (f (get e))) = edges := by
  refine (List.map_congr_left fun e he => ?_).trans (List.map_id edges)
  rw [h (get e) (List.mem_map_of_mem he), hset, id]

theorem Kind.mapTargets_eq_self {kind : Kind} {f : Nat → Nat} (h : ∀ t ∈ kind.targets, f t = t) :
    kind.mapTargets f = kind := by
  cases kind with
  | invoke callback edges =>
    exact congrArg _ (map_edges_eq_self (fun e t => { e with target := t }) (fun _ => rfl) h)
  | branch transform edges =>
    exact congrArg _ (map_edges_eq_self (fun e t => { e with target := t }) (fun _ => rfl) h)
  | run transform bytes edge =>
    cases edge with
    | none => rfl
    | some edge => simp [Kind.mapTargets, h edge.target (by simp [Kind.targets])]
  | table transform edges =>
    exact congrArg _ (map_edges_eq_self (fun e t => { e with target := t }) (fun _ => rfl) h)
  | _ => rfl

theorem State.mapTargets_eq_self {s : State} {f : Nat → Nat} (h : ∀ t ∈ s.targets, f t = t) :
    s.mapTargets f = s := by
  obtain ⟨label, kind, otherwise⟩ := s
  have hkind : kind.mapTargets f = kind :=
    Kind.mapTargets_eq_self fun t ht => h t (List.mem_append_right _ ht)
  cases otherwise with
  | none => simp only [State.mapTargets, hkind, Option.map_none]
  | some o =>
    have ho : f o.target = o.target := h o.target (by simp [State.targets])
    simp only [State.mapTargets, hkind, Option.map_some, ho]

theorem bypassAt_eq_self {i : Nat} (h : ∀ j ∈ m.next i, m.destination j = j) :
    m.bypassAt i = m := by
  unfold bypassAt
  cases hs : m.states[i]? with
  | none => rfl
  | some s =>
    have hfixed : ∀ t ∈ s.targets, m.destination t = t := by simpa [next, hs] using h
    have hsame : m.states.setIfInBounds i s = m.states := by
      apply Array.ext_getElem?
      intro k
      rw [Array.getElem?_setIfInBounds]
      by_cases hik : i = k
      · subst hik
        rw [if_pos rfl, if_pos (Array.getElem?_eq_some_iff.mp hs).1, hs]
      · rw [if_neg hik]
    dsimp only
    rw [State.retarget_map, State.mapTargets_eq_self hfixed, hsame]

theorem foldl_bypassAt_eq_self {is : List Nat} (h : ∀ i ∈ is, m.bypassAt i = m) :
    is.foldl bypassAt m = m := by
  induction is with
  | nil => rfl
  | cons i is ih =>
    obtain ⟨hi, his⟩ := List.forall_mem_cons.mp h
    rw [List.foldl_cons, hi]
    exact ih his

/-- **A settled machine is not changed.** -/
theorem Settled.bypass_eq {root : Nat} (h : m.Settled root) : m.bypass root = (m, root) := by
  refine Prod.ext (foldl_bypassAt_eq_self fun i hi => bypassAt_eq_self fun j hj => ?_) ?_
  · refine destination_eq_self_iff.mpr fun k => ?_
    exact h.edges i j k (Digraph.mem_preorder_iff.mp hi) hj
  · rw [bypass_root]
    exact destination_eq_self_iff.mpr h.start

/-- **One pass reaches the fixed point.**  All that can be reached afterwards could be reached
before, no edge leads into a state that merely passes on, except into a chain without an end,
and another pass changes neither the machine nor its root. -/
theorem bypass_settles (m : Machine) (root : Nat) :
    (∀ i, (m.bypass root).1.digraph.Reaches (m.bypass root).2 i → m.digraph.Reaches root i) ∧
      (m.bypass root).1.Settled (m.bypass root).2 ∧
      (m.bypass root).1.bypass (m.bypass root).2 = m.bypass root :=
  ⟨fun _ => reaches_of_reaches_bypass, m.settled_bypass root, (m.settled_bypass root).bypass_eq⟩

end ByteMachine.Machine
