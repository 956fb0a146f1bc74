import ByteMachine.Proofs.Bypass
import ByteMachine.Proofs.Compilation
import ByteMachine.Proofs.MirroredRun

/-! # Compilation preserves what is observed

A blueprint and the machine that is made of it have the same traces in every world
(`compile_traces`).  The machine that is assembled mirrors the blueprint and keeps up with
it.  Redirecting the edges of a state only spares steps in which nothing happens: a run of
the machine before lags behind a run of the machine after on a chain of states that merely
pass on (`Lags`), and the chain leaves no trace. -/
namespace ByteMachine

/-! ## Redirected edges -/

namespace World
variable (w : World) (f : Nat → Nat)

theorem goTo_redirect (target : Nat) (stay : Bool) (mem : Memory) :
    w.goTo (f target) stay mem = (w.goTo target stay mem).redirect f := by
  unfold goTo
  split
  · rfl
  · split
    · rfl
    · rfl

section Go
variable {go go' : Memory → Stage} (h : ∀ mem, go' mem = (go mem).redirect f)
include h

theorem consume_redirect (field : String) (mem : Memory) :
    w.consume field go' mem = (w.consume field go mem).redirect f := by
  unfold consume
  dsimp only
  split
  · exact h _
  · rfl

theorem startSpan_redirect (place : Option Nat) (callback : Option (Callback Bool)) (mem : Memory) :
    w.startSpan place callback go' mem = (w.startSpan place callback go mem).redirect f := by
  unfold startSpan
  split
  · rfl
  · exact h _

end Go

end World

namespace Machine
variable {m m' : Machine} {w : World}

theorem look_redirect (htransforms : m'.transforms = m.transforms) (f : Nat → Nat)
    {go go' : List UInt8 → Memory → Stage}
    (h : ∀ input mem, go' input mem = (go input mem).redirect f) (transform : Nat) (mem : Memory) :
    m'.look w transform go' mem = (m.look w transform go mem).redirect f := by
  unfold look
  rw [htransforms]
  split
  · exact h _ _
  · rfl

namespace State
variable (s : State) (f : Nat → Nat)

theorem goOtherwise_mapTargets (mem : Memory) :
    (s.mapTargets f).goOtherwise w mem = (s.goOtherwise w mem).redirect f := by
  unfold goOtherwise mapTargets
  cases s.otherwise with
  | none => rfl
  | some o => exact w.goTo_redirect f o.target o.stay _

theorem choose_mapTargets {edge? edge?' : UInt8 → Option ByteEdge}
    (h : ∀ byte, edge?' byte = (edge? byte).map fun e => { e with target := f e.target })
    (input : List UInt8) (mem : Memory) :
    (s.mapTargets f).choose w edge?' input mem = (s.choose w edge? input mem).redirect f := by
  unfold choose
  cases input with
  | nil => rfl
  | cons byte input =>
    dsimp only
    rw [h]
    cases edge? byte with
    | none => exact s.goOtherwise_mapTargets f mem
    | some e => exact w.goTo_redirect f e.target e.stay _

theorem compare_mapTargets (bytes : List UInt8) (edge : Option RunEdge) (input : List UInt8)
    (mem : Memory) :
    (s.mapTargets f).compare w bytes (edge.map fun e => { e with target := f e.target }) input mem =
      (s.compare w bytes edge input mem).redirect f := by
  unfold compare
  dsimp only
  split
  · cases edge with
    | none => rfl
    | some e => rfl
  · split
    · rfl
    · exact s.goOtherwise_mapTargets f _

end State

/-- **A state with new targets does the same** and goes on at the new targets. -/
theorem act_mapTargets (hcallbacks : m'.callbacks = m.callbacks)
    (htransforms : m'.transforms = m.transforms) (f : Nat → Nat) (s : State) (mem : Memory) :
    m'.act w (s.mapTargets f) mem = (m.act w s mem).redirect f := by
  have hotherwise : ∀ mem, (s.mapTargets f).goOtherwise w mem = (s.goOtherwise w mem).redirect f :=
    s.goOtherwise_mapTargets f
  unfold act
  rw [hcallbacks, show (s.mapTargets f).kind = s.kind.mapTargets f from rfl]
  cases s.kind with
  | empty => exact hotherwise mem
  | error code reason => rfl
  | pause code reason => exact hotherwise _
  | consume field => exact w.consume_redirect f hotherwise field mem
  | spanStart place callback => exact w.startSpan_redirect f hotherwise _ _ mem
  | spanEnd place callback => exact hotherwise _
  | invoke callback edges =>
    simp only [Kind.mapTargets, List.find?_map, Function.comp_def]
    cases edges.find? _ with
    | none => exact hotherwise _
    | some e => rfl
  | branch transform edges =>
    refine look_redirect htransforms f (s.choose_mapTargets f fun byte => ?_) transform mem
    rw [List.find?_map]
    rfl
  | run transform bytes edge =>
    exact look_redirect htransforms f (s.compare_mapTargets f bytes edge) transform mem
  | table transform rows =>
    refine look_redirect htransforms f (s.choose_mapTargets f fun byte => ?_) transform mem
    rw [State.rowEdge?, State.rowEdge?, List.find?_map, Option.map_map, Option.map_map]
    rfl

theorem advance_bypassAt (m : Machine) (i j : Nat) (mem : Memory) :
    ((m.bypassAt i).process w).advance ⟨some j, mem⟩ =
      ((m.process w).advance ⟨some j, mem⟩).redirect (if i = j then m.destination else id) := by
  have hstates := m.bypassAt_states i j
  have hact := fun f s => act_mapTargets (w := w) (m.bypassAt_callbacks i)
    (m.bypassAt_transforms i) f s mem
  cases hs : m.states[j]? with
  | none =>
    rw [hs] at hstates
    have hnone : (m.bypassAt i).states[j]? = none := by simpa using hstates
    simp only [Process.advance_at, process, hs, hnone]
    rfl
  | some s =>
    rw [advance_process hs]
    by_cases hij : i = j
    · rw [if_pos hij, hs] at hstates
      rw [if_pos hij, advance_process hstates]
      exact hact m.destination s
    · rw [if_neg hij, hs, ← s.mapTargets_id] at hstates
      rw [if_neg hij, advance_process hstates]
      exact hact id s

/-! ## Chains leave no trace -/

/-- No empty state passes a value on. -/
def Mute (m : Machine) : Prop :=
  ∀ (i : Nat) (s : State) (f : Fallback), m.states[i]? = some s → s.kind = .empty →
    s.otherwise = some f → f.value = none

/-- The second run lags behind the first, on a chain of states that merely pass on. -/
inductive Lags (m : Machine) : Stage → Stage → Prop
  | ended (mem : Memory) : Lags m ⟨none, mem⟩ ⟨none, mem⟩
  | going {i j : Nat} (h : m.Chain i j) (mem : Memory) : Lags m ⟨some j, mem⟩ ⟨some i, mem⟩

theorem Lags.memory_eq {s t : Stage} (h : m.Lags s t) : s.memory = t.memory := by
  cases h with
  | ended => rfl
  | going => rfl

theorem lags_redirect {f : Nat → Nat} (h : ∀ i, m.Chain i (f i)) (s : Stage) :
    m.Lags (s.redirect f) s := by
  obtain ⟨_ | i, mem⟩ := s
  · exact .ended mem
  · exact .going (h i) mem

section Chains
variable (hmute : m.Mute)
include hmute

/-- To pass on takes one step, in which nothing happens. -/
theorem Mute.advance {i j : Nat} (h : m.PassesOn i j) (mem : Memory) :
    (m.process w).advance ⟨some i, mem⟩ = ⟨some j, mem⟩ := by
  obtain ⟨s, value, hs, hkind, hotherwise⟩ := h
  obtain rfl : value = none := hmute _ _ _ hs hkind hotherwise
  rw [advance_process hs]
  unfold act State.goOtherwise
  rw [hkind, hotherwise]
  rfl

theorem Mute.iterate {i j : Nat} (h : m.Chain i j) (mem : Memory) :
    ∃ k, (m.process w).advance^[k] ⟨some i, mem⟩ = ⟨some j, mem⟩ := by
  induction h using Relation.ReflTransGen.head_induction_on with
  | refl => exact ⟨0, rfl⟩
  | head hpasses _ ih =>
    obtain ⟨k, hk⟩ := ih
    refine ⟨k + 1, ?_⟩
    rw [Function.iterate_succ_apply, hmute.advance hpasses]
    exact hk

/-- **A machine keeps up with its shortcuts.**  The run that lags behind first walks to the
end of its chain, and then takes the step of the run ahead, up to a chain. -/
theorem Mute.simulates
    (hstep : ∀ i mem, ∃ f : Nat → Nat, (∀ j, m.Chain j (f j)) ∧
      (m'.process w).advance ⟨some i, mem⟩ = ((m.process w).advance ⟨some i, mem⟩).redirect f) :
    (m'.process w).Simulates (m.process w) m.Lags where
  history hst := congrArg Memory.history hst.memory_eq
  step := by
    rintro _ _ (mem | ⟨hchain, mem⟩)
    · exact ⟨0, .ended mem⟩
    · rename_i i j
      obtain ⟨k, hk⟩ := hmute.iterate hchain mem
      obtain ⟨f, hf, hadvance⟩ := hstep j mem
      refine ⟨k, ?_⟩
      rw [Function.iterate_succ_apply', hk, hadvance]
      exact lags_redirect hf _

theorem Mute.bypassAt (i : Nat) : (m.bypassAt i).Mute := by
  intro j s f hs hkind hotherwise
  rw [bypassAt_states] at hs
  split at hs
  · obtain ⟨s, hstate, rfl⟩ := Option.map_eq_some_iff.mp hs
    obtain ⟨o, ho, rfl⟩ := Option.map_eq_some_iff.mp hotherwise
    have hempty : s.kind = .empty := by
      replace hkind : s.kind.mapTargets m.destination = .empty := hkind
      cases hold : s.kind with
      | empty => rfl
      | _ => simp [hold, Kind.mapTargets] at hkind
    show o.value = none
    exact hmute _ _ _ hstate hempty ho
  · exact hmute _ _ _ hs hkind hotherwise

/-- Redirecting the edges of one state keeps all traces. -/
theorem Mute.hasTrace_bypassAt (i start : Nat) (mem : Memory) (trace : List Observation) :
    ((m.bypassAt i).process w).HasTrace ⟨some start, mem⟩ trace ↔
      (m.process w).HasTrace ⟨some start, mem⟩ trace := by
  refine (hmute.simulates fun j mem => ?_).hasTrace_iff (.going .refl mem) trace
  refine ⟨if i = j then m.destination else id, ?_, ?_⟩
  · intro n
    split
    · exact m.chain_destination n
    · exact .refl
  · exact advance_bypassAt m i j mem

theorem Mute.hasTrace_foldl (is : List Nat) :
    (is.foldl Machine.bypassAt m).Mute ∧
      ∀ (start : Nat) (mem : Memory) (trace : List Observation),
        ((is.foldl Machine.bypassAt m).process w).HasTrace ⟨some start, mem⟩ trace ↔
          (m.process w).HasTrace ⟨some start, mem⟩ trace := by
  induction is generalizing m with
  | nil => exact ⟨hmute, fun _ _ _ => Iff.rfl⟩
  | cons i is ih =>
    obtain ⟨hfold, htrace⟩ := ih (hmute.bypassAt i)
    refine ⟨hfold, fun start mem trace => ?_⟩
    exact (htrace start mem trace).trans (hmute.hasTrace_bypassAt i start mem trace)

/-- The end of a chain has the traces of its beginning. -/
theorem Mute.hasTrace_destination (start : Nat) (mem : Memory) (trace : List Observation) :
    (m.process w).HasTrace ⟨some (m.destination start), mem⟩ trace ↔
      (m.process w).HasTrace ⟨some start, mem⟩ trace := by
  have hlags : m.Lags ⟨some (m.destination start), mem⟩ ⟨some start, mem⟩ :=
    .going (m.chain_destination start) mem
  refine (hmute.simulates fun i mem => ?_).hasTrace_iff hlags trace
  refine ⟨id, fun _ => .refl, ?_⟩
  simp [Stage.redirect]

/-- **Going past empty states keeps all traces.** -/
theorem Mute.hasTrace_bypass (root : Nat) (mem : Memory) (trace : List Observation) :
    ((m.bypass root).1.process w).HasTrace ⟨some (m.bypass root).2, mem⟩ trace ↔
      (m.process w).HasTrace ⟨some root, mem⟩ trace := by
  obtain ⟨hfold, htrace⟩ := hmute.hasTrace_foldl (m.reachable root)
  exact (hfold.hasTrace_destination root mem trace).trans (htrace root mem trace)

end Chains

end Machine

/-! ## Compilation -/

namespace Assembly
variable {a : Assembly}

/-- Only a branch with a stop passes a value on otherwise, and a branch is not empty. -/
theorem value_of_kind_eq_empty {callbacks : List (Callback Bool)} {transforms : List Transform}
    {s : Site} {node : Blueprint.Node} {part : Option Trie} {f : Machine.Fallback}
    (hkind : a.kind callbacks transforms s node part = .empty)
    (hf : a.otherwise node part = some f) : f.value = none := by
  unfold otherwise at hf
  split at hf
  · cases hnode : node.kind with
    | matching word =>
      simp only [kind, hnode, trieKind] at hkind
      split at hkind
      · cases hkind
      · cases hkind
    | _ => simp [kind, hnode] at hkind
  · obtain ⟨o, -, rfl⟩ := Option.map_eq_some_iff.mp hf
    rfl

theorem mute_machine (a : Assembly) : a.machine.Mute := by
  intro i state f hstate hkind hotherwise
  rw [machine_states_getElem?] at hstate
  obtain ⟨s, -, hstate⟩ := Option.bind_eq_some_iff.mp hstate
  obtain ⟨label, -, rfl⟩ := Option.map_eq_some_iff.mp hstate
  unfold Assembly.state at hkind hotherwise
  cases hpart : a.outline.part? s with
  | none =>
    rw [hpart] at hotherwise
    cases hotherwise
  | some found =>
    rw [hpart] at hkind hotherwise
    exact value_of_kind_eq_empty hkind hotherwise

theorem distinct_machine (a : Assembly) : Mirror.Distinct a.machine := by
  intro c hc d hd hsame
  exact eq_of_same (by simpa [machine] using hc) (by simpa [machine] using hd) hsame

end Assembly

namespace Blueprint

/-- **Compilation preserves what is observed.**  In every world, and from every memory, the
machine has the traces of the blueprint, whose callbacks are observed as the codes of the
machine and whose spans by the places that the allocator has given them. -/
theorem compile_traces (calls : List Call) (stem : String) (options : Options)
    (allocator : Allocator) (root : Nat) (c : Compiled)
    (h : ((run {} calls).compile stem options allocator root).result = .ok c) :
    ∃ allocation, (allocator (run {} calls) root).result = .ok allocation ∧
      ∀ (w : World) (mem : Memory) (trace : List Observation),
        ((run {} calls).process w allocation.groups c.machine.codeOf).HasTrace
            ⟨some root, mem⟩ trace ↔
          (c.machine.process w).HasTrace ⟨some c.root, mem⟩ trace := by
  have hb := sound_run calls
  obtain ⟨allocation, hallocation, hflawless, rfl⟩ := compile_eq_ok hb h
  refine ⟨allocation, hallocation, fun w mem trace => ?_⟩
  have hregular := hflawless.regular hb options stem
  generalize (run {} calls).assembly options allocation.groups stem root = a at hregular
  have hentry : a.memo? root = some (a.entry root) :=
    Assembly.memo?_of_mem (hregular.entry_mem_iff.mpr (.refl root))
  have hcodes : (a.finish root a.machine).machine.codeOf = a.machine.codeOf := by
    funext c
    simp only [Machine.codeOf, Assembly.finish, Machine.bypass_callbacks]
  rw [hcodes]
  exact ((hregular.faithful.simulates hb a.distinct_machine w).hasTrace_iff (.going hentry mem)
    trace).trans (a.mute_machine.hasTrace_bypass (a.entry root) mem trace).symm

/-- The input `GGETaX` in a world where the flag is set. -/
def requestWorld : World :=
  ⟨[71, 71, 69, 84, 97, 88], fun _ => id, fun _ => 1, fun _ => 0⟩

/-- `G` alone passes its value on, then a word is found, and then none. -/
def requestTrace : List Observation :=
  [⟨1, .invoked (some ⟨"parser__c_is_set", .test "flags" 1⟩) (some 7)⟩,
    ⟨4, .spanStarted (some 0) (some ⟨"on_word", .external .span⟩)⟩,
    ⟨5, .spanEnded (some 0) (some ⟨"on_word", .external .span⟩)⟩,
    ⟨5, .invoked (some ⟨"parser__c_is_set", .test "flags" 1⟩) (some 7)⟩,
    ⟨5, .failed 3 "expected a word"⟩]

/-- What is observed of the machine for requests is observed of its blueprint. -/
theorem compile_traces_request :
    ∃ c allocation, ((run {} requestCalls).compile "parser" {} sharePlaces 0).result = .ok c ∧
      (sharePlaces (run {} requestCalls) 0).result = .ok allocation ∧
      (c.machine.process requestWorld).HasTrace ⟨some c.root, {}⟩ requestTrace ∧
      ((run {} requestCalls).process requestWorld allocation.groups c.machine.codeOf).HasTrace
        ⟨some 0, {}⟩ requestTrace := by
  have hrun : ((run {} requestCalls).compile "parser" {} sharePlaces 0).result.toOption.map
      (fun c => ((c.machine.process requestWorld).advance^[16] ⟨some c.root, {}⟩).memory.history) =
      some requestTrace := by cbv
  cases hc : ((run {} requestCalls).compile "parser" {} sharePlaces 0).result with
  | error e =>
    rw [hc] at hrun
    cases hrun
  | ok c =>
    rw [hc] at hrun
    have htrace : (c.machine.process requestWorld).HasTrace ⟨some c.root, {}⟩ requestTrace :=
      ⟨16, (Option.some.inj hrun).symm ▸ List.prefix_refl _⟩
    obtain ⟨allocation, hallocation, htraces⟩ :=
      compile_traces requestCalls "parser" {} sharePlaces 0 c hc
    exact ⟨c, allocation, rfl, hallocation, htrace, (htraces _ _ _).mpr htrace⟩

end Blueprint

end ByteMachine
