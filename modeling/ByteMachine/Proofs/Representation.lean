import ByteMachine.Proofs.Bypass
import ByteMachine.Proofs.Compilation
import ByteMachine.Proofs.Translation

/-! # Options only change how branches are written down

Two compilations that differ in their options fail alike or give machines that **agree**:
they have the same states in the same order, up to branches that one of them writes down as
tables (`Machine.Agree`).  Machines that agree are walked through in the same order, pass on
at the same states, and stay in agreement while their edges are redirected, so that all else
that a compilation finds out is the same (`compile_agree`). -/
namespace ByteMachine

namespace Machine

/-- The kinds are equal, or one is a table of the branch that the other is. -/
inductive Alike : Kind → Kind → Prop
  | refl (kind : Kind) : Alike kind kind
  | tabled {transform : Nat} {edges : List ByteEdge} {rows : List TableEdge}
      (h : Tabulates rows edges) : Alike (.branch transform edges) (.table transform rows)
  | untabled {transform : Nat} {edges : List ByteEdge} {rows : List TableEdge}
      (h : Tabulates rows edges) : Alike (.table transform rows) (.branch transform edges)

/-- **The machines agree** in all but the choice between branches and tables. -/
structure Agree (m m' : Machine) : Prop where
  callbacks : m.callbacks = m'.callbacks
  transforms : m.transforms = m'.transforms
  size : m.states.size = m'.states.size
  state : ∀ {i : Nat} {s s' : State}, m.states[i]? = some s → m'.states[i]? = some s' →
    s.label = s'.label ∧ s.otherwise = s'.otherwise ∧ Alike s.kind s'.kind

/-! ## Redirecting both -/

theorem eraseDups_map_eraseDups (f : Nat → Nat) (xs : List Nat) :
    (xs.eraseDups.map f).eraseDups = (xs.map f).eraseDups := by
  induction hn : xs.length using Nat.strongRecOn generalizing xs with
  | ind n ih =>
    cases xs with
    | nil => rfl
    | cons x rest =>
      have hshort : (rest.filter fun b => !b == x).length < n := by
        have := List.length_filter_le (fun b => !b == x) rest
        rw [List.length_cons] at hn
        omega
      rw [List.eraseDups_cons, List.map_cons, List.map_cons, List.eraseDups_cons,
        List.eraseDups_cons, ← Digraph.filter_eraseDups, ih _ hshort _ rfl,
        Digraph.filter_eraseDups, List.filter_map, List.filter_map, List.filter_filter]
      congr 3
      refine List.filter_congr fun b _ => ?_
      by_cases hb : b = x
      · simp [hb]
      · simp [hb]

theorem eraseDups_map_congr {xs ys : List Nat} (h : xs.eraseDups = ys.eraseDups) (f : Nat → Nat) :
    (xs.map f).eraseDups = (ys.map f).eraseDups := by
  rw [← eraseDups_map_eraseDups, h, eraseDups_map_eraseDups]

/-- Rows and edges that say the same say the same under new targets. -/
theorem Tabulates.mapTargets {rows : List TableEdge} {edges : List ByteEdge}
    (h : Tabulates rows edges) (f : Nat → Nat) :
    Tabulates (rows.map fun row => { row with target := f row.target })
      (edges.map fun e => { e with target := f e.target }) := by
  have hlisting : tableEdges (rows.map fun row => { row with target := f row.target }) =
      (tableEdges rows).map fun e => { e with target := f e.target } := by
    simp only [tableEdges, List.flatMap_map, List.map_flatMap, List.map_map]
    rfl
  refine tabulates_of_perm ?_ ?_ ?_
  · rw [hlisting]
    exact h.perm.map _
  · exact List.pairwise_map.mpr h.ascending
  · have := eraseDups_map_congr h.order f
    rwa [List.map_map, List.map_map] at this ⊢

theorem Alike.mapTargets {kind kind' : Kind} (h : Alike kind kind') (f : Nat → Nat) :
    Alike (kind.mapTargets f) (kind'.mapTargets f) := by
  cases h with
  | refl => exact .refl _
  | tabled h => exact .tabled (h.mapTargets f)
  | untabled h => exact .untabled (h.mapTargets f)

/-- A table leads to the targets of the edges it stands for, each once. -/
theorem Alike.targets {kind kind' : Kind} (h : Alike kind kind') :
    kind.targets.eraseDups = kind'.targets.eraseDups := by
  cases h with
  | refl => rfl
  | tabled h => exact h.order.symm
  | untabled h => exact h.order

namespace Agree

section
variable {m m' : Machine} (h : Agree m m')
include h

/-- The states at a position, in both machines or in none. -/
theorem cases (i : Nat) :
    (m.states[i]? = none ∧ m'.states[i]? = none) ∨
      ∃ s s', m.states[i]? = some s ∧ m'.states[i]? = some s' ∧
        s.label = s'.label ∧ s.otherwise = s'.otherwise ∧ Alike s.kind s'.kind := by
  by_cases hi : i < m.states.size
  · have hi' : i < m'.states.size := h.size ▸ hi
    have hs := Array.getElem?_eq_getElem hi
    have hs' := Array.getElem?_eq_getElem hi'
    exact .inr ⟨_, _, hs, hs', h.state hs hs'⟩
  · have hi' : ¬ i < m'.states.size := h.size ▸ hi
    exact .inl ⟨Array.getElem?_eq_none (Nat.le_of_not_lt hi),
      Array.getElem?_eq_none (Nat.le_of_not_lt hi')⟩

theorem passesTo? (i : Nat) : m.passesTo? i = m'.passesTo? i := by
  unfold Machine.passesTo?
  rcases h.cases i with ⟨hs, hs'⟩ | ⟨s, s', hs, hs', -, hotherwise, halike⟩
  · rw [hs, hs']
  · rw [hs, hs', Option.bind_some, Option.bind_some]
    unfold State.passesTo?
    rw [hotherwise]
    generalize s.kind = kind at halike
    generalize s'.kind = kind' at halike
    cases halike with
    | refl => rfl
    | tabled => rfl
    | untabled => rfl

theorem destination : m.destination = m'.destination := destination_congr h.passesTo? h.size

/-- Both machines lead on to the same states, repetitions aside. -/
theorem next (i : Nat) : (m.next i).eraseDups = (m'.next i).eraseDups := by
  unfold Machine.next
  rcases h.cases i with ⟨hs, hs'⟩ | ⟨s, s', hs, hs', -, hotherwise, halike⟩
  · rw [hs, hs']
  · rw [hs, hs']
    simp only [State.targets, hotherwise, List.eraseDups_append, List.removeAll]
    rw [← Digraph.filter_eraseDups, ← Digraph.filter_eraseDups, halike.targets]

theorem reachable (root : Nat) : m.reachable root = m'.reachable root :=
  Digraph.preorder_congr h.next root

/-- Redirecting a state in both machines keeps them in agreement. -/
theorem bypassAt (i : Nat) : Agree (m.bypassAt i) (m'.bypassAt i) where
  callbacks := by rw [bypassAt_callbacks, bypassAt_callbacks, h.callbacks]
  transforms := by rw [bypassAt_transforms, bypassAt_transforms, h.transforms]
  size := by rw [size_bypassAt, size_bypassAt, h.size]
  state := by
    intro j s s' hs hs'
    rw [bypassAt_states] at hs hs'
    by_cases hij : i = j
    · rw [if_pos hij] at hs hs'
      obtain ⟨t, ht, rfl⟩ := Option.map_eq_some_iff.mp hs
      obtain ⟨t', ht', rfl⟩ := Option.map_eq_some_iff.mp hs'
      obtain ⟨hlabel, hotherwise, halike⟩ := h.state ht ht'
      rw [← h.destination]
      refine ⟨hlabel, ?_, halike.mapTargets _⟩
      simp only [State.mapTargets, hotherwise]
    · rw [if_neg hij] at hs hs'
      exact h.state hs hs'

end

theorem foldl_bypassAt {m m' : Machine} (h : Agree m m') (is : List Nat) :
    Agree (is.foldl Machine.bypassAt m) (is.foldl Machine.bypassAt m') := by
  induction is generalizing m m' with
  | nil => exact h
  | cons i is ih => exact ih (h.bypassAt i)

/-- The whole pass keeps machines in agreement, and finds them the same root. -/
theorem bypass {m m' : Machine} (h : Agree m m') (root : Nat) :
    Agree (m.bypass root).1 (m'.bypass root).1 ∧ (m.bypass root).2 = (m'.bypass root).2 := by
  have hafter := h.foldl_bypassAt (m.reachable root)
  unfold Machine.bypass
  dsimp only
  rw [← h.reachable]
  exact ⟨hafter, congrFun hafter.destination root⟩

theorem resumption {m m' : Machine} (h : Agree m m') (root : Nat) :
    m.resumption root = m'.resumption root := by
  unfold Machine.resumption
  rw [h.reachable]
  congr 2
  refine List.flatMap_congr fun i _ => ?_
  rcases h.cases i with ⟨hs, hs'⟩ | ⟨s, s', hs, hs', -, hotherwise, halike⟩
  · rw [hs, hs']
  · rw [hs, hs']
    dsimp only
    unfold State.resumesAt
    rw [hotherwise]
    generalize s.kind = kind at halike
    generalize s'.kind = kind' at halike
    cases halike with
    | refl => rfl
    | tabled => rfl
    | untabled => rfl

end Agree

end Machine

/-! ## Both assemblies -/

namespace Assembly

/-- Whether a branch becomes a table is all that the options decide. -/
theorem alike_trieKind (a : Assembly) (options : Options) (s : Site) (transform : Nat) {t : Trie}
    (ht : t.Proper) :
    Machine.Alike (a.trieKind s transform t)
      ({ a with options := options }.trieKind s transform t) := by
  cases ht with
  | leaf => exact .refl _
  | run => exact .refl _
  | @branch children stop _ hbytes _ =>
    simp only [trieKind]
    cases hrows : Table.ofChildren a.options children with
    | error e =>
      cases hrows' : Table.ofChildren options children with
      | error e' => exact .refl _
      | ok rows' => exact .tabled (a.tabulates_rows hrows' hbytes s)
    | ok rows =>
      cases hrows' : Table.ofChildren options children with
      | error e' => exact .untabled (a.tabulates_rows hrows hbytes s)
      | ok rows' =>
        obtain rfl : rows = rows' := Table.ofChildren_unique hrows hrows'
        exact .refl _

/-- The options decide how an assembly shows branches, and nothing else about it. -/
theorem Regular.agree {a : Assembly} {b : Blueprint} {groups : List (List Nat)} {root : Nat}
    (h : a.Regular b groups root) (options : Options) :
    Machine.Agree a.machine { a with options := options }.machine where
  callbacks := rfl
  transforms := rfl
  size := by
    rw [size_states, size_states]
  state := by
    intro i state state' hstate hstate'
    rw [machine_states_getElem?] at hstate hstate'
    obtain ⟨s, hs, hstate⟩ := Option.bind_eq_some_iff.mp hstate
    obtain ⟨s', hs', hstate'⟩ := Option.bind_eq_some_iff.mp hstate'
    obtain rfl : s = s' := Option.some.inj (hs.symm.trans hs')
    obtain ⟨label, hlabel, rfl⟩ := Option.map_eq_some_iff.mp hstate
    obtain ⟨label', hlabel', rfl⟩ := Option.map_eq_some_iff.mp hstate'
    obtain rfl : label = label' := Option.some.inj (hlabel.symm.trans hlabel')
    obtain ⟨node, part, hpart, -, -⟩ := h.part (List.mem_of_getElem? hs)
    have hregular : Regular { a with options := options } b groups root :=
      ⟨h.sound, h.flawless, h.blueprint, h.outline, h.groups, h.sites⟩
    rw [h.state_eq hpart, hregular.state_eq hpart]
    refine ⟨rfl, rfl, ?_⟩
    dsimp only
    cases hkind : node.kind with
    | matching word =>
      simp only [kind, hkind]
      obtain ⟨-, ⟨t, u, ht, rfl, hu⟩ | ⟨-, -, rfl⟩⟩ := Outline.part?_cases hpart
      · exact a.alike_trieKind options s _ ((Blueprint.Node.built_trie ht).proper.of_mem_inner hu)
      · exact .refl _
    | _ =>
      simp only [kind, hkind]
      exact .refl _

end Assembly

/-- **The results of two compilations agree**, with their machines and all else that a
compilation finds out. -/
structure Compiled.Agree (c c' : Compiled) : Prop where
  stem : c.stem = c'.stem
  properties : c.properties = c'.properties
  root : c.root = c'.root
  places : c.places = c'.places
  resumption : c.resumption = c'.resumption
  order : c.machine.reachable c.root = c'.machine.reachable c'.root
  machine : Machine.Agree c.machine c'.machine

namespace Assembly

theorem Regular.agree_finish {a : Assembly} {b : Blueprint} {groups : List (List Nat)} {root : Nat}
    (h : a.Regular b groups root) (options : Options) :
    (a.finish root a.machine).Agree
      ({ a with options := options }.finish root { a with options := options }.machine) := by
  obtain ⟨hmachine, hroot⟩ := (h.agree options).bypass (a.entry root)
  refine ⟨rfl, rfl, hroot, rfl, ?_, ?_, hmachine⟩
  · exact (hmachine.resumption _).trans (congrArg _ hroot)
  · exact (hmachine.reachable _).trans (congrArg _ hroot)

end Assembly

namespace Blueprint

/-- **Options only decide between branches and tables.**  Two compilations of a blueprint
that differ in their options fail with the same error, or their results agree. -/
theorem compile_agree (calls : List Call) (stem : String) (allocator : Allocator) (root : Nat)
    (options options' : Options) (h : options.check = .ok ()) (h' : options'.check = .ok ()) :
    (∃ e, ((run {} calls).compile stem options allocator root).result = .error e ∧
        ((run {} calls).compile stem options' allocator root).result = .error e) ∨
      ∃ c c', ((run {} calls).compile stem options allocator root).result = .ok c ∧
        ((run {} calls).compile stem options' allocator root).result = .ok c' ∧ c.Agree c' := by
  have hb := sound_run calls
  generalize run {} calls = b at hb ⊢
  rw [compile_result _ _ _ _ _ h, compile_result _ _ _ _ _ h']
  cases (allocator b root).result with
  | error e => exact .inl ⟨_, rfl, rfl⟩
  | ok allocation =>
    dsimp only
    cases b.checkGroups allocation.groups with
    | error e => exact .inl ⟨_, rfl, rfl⟩
    | ok _ =>
      cases b.getNode root with
      | error e => exact .inl ⟨_, rfl, rfl⟩
      | ok node =>
        dsimp only
        cases hcomplete : (b.assembly options allocation.groups stem root).complete with
        | error e =>
          have hdefect := complete_eq_error hb hcomplete
          replace hdefect : (b.assembly options' allocation.groups stem root).defect? = some e :=
            hdefect
          refine .inl ⟨e, rfl, ?_⟩
          rw [Assembly.complete, hdefect]
          rfl
        | ok m =>
          obtain ⟨hflawless, rfl⟩ := (complete_eq_ok_iff hb).mp hcomplete
          have hcomplete' : (b.assembly options' allocation.groups stem root).complete = .ok _ :=
            (complete_eq_ok_iff hb).mpr ⟨hflawless, rfl⟩
          refine .inr ⟨_, _, rfl, by rw [hcomplete']; rfl, ?_⟩
          exact (hflawless.regular hb options stem).agree_finish options'

/-- The blueprint for requests has a branch that becomes a table once tables may be that
small. -/
theorem compile_agree_request :
    ({} : Options).check = .ok () ∧ (⟨4, 1⟩ : Options).check = .ok () ∧
      ∃ c c', ((run {} requestCalls).compile "parser" {} sharePlaces 0).result = .ok c ∧
        ((run {} requestCalls).compile "parser" ⟨4, 1⟩ sharePlaces 0).result = .ok c' ∧
        c.Agree c' ∧ c.machine ≠ c'.machine := by
  have hbranch : ((run {} requestCalls).compile "parser" {} sharePlaces 0).result.toOption.map
      (fun c => c.machine.states.any fun s => s.kind matches .table _ _) = some false := by cbv
  have htable : ((run {} requestCalls).compile "parser" ⟨4, 1⟩ sharePlaces 0).result.toOption.map
      (fun c => c.machine.states.any fun s => s.kind matches .table _ _) = some true := by cbv
  refine ⟨rfl, rfl, ?_⟩
  rcases compile_agree requestCalls "parser" sharePlaces 0 {} ⟨4, 1⟩ rfl rfl with
    ⟨e, he, -⟩ | ⟨c, c', hc, hc', hagree⟩
  · rw [he] at hbranch
    cases hbranch
  · refine ⟨c, c', hc, hc', hagree, fun heq => ?_⟩
    rw [hc] at hbranch
    rw [hc'] at htable
    simp only [Except.toOption, Option.map_some, ← heq] at htable
    cases hbranch.symm.trans htable

end Blueprint

end ByteMachine
