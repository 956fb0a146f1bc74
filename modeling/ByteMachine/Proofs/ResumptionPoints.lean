import ByteMachine.Proofs.Compilation
import ByteMachine.Proofs.Redirection
import Mathlib

/-! # Where a run of a compiled machine can resume

A run is resumed at the root, at a state that needs input, or behind a state that returns to its
caller (`Machine.Resumes`).  The resumption list of a machine has exactly these states
(`mem_resumption_iff`): no run can resume at a state that is not listed, and none is listed in
vain.

An empty state counts among those that need input, although some empty states merely pass on.
In a compiled machine this does no harm.  Edges have been led past the states that merely pass
on, so an empty state that is still reachable advances, unless it lies on a chain without an end,
from which a run does not come back in any case (`Settled.empty_cases`). -/
namespace ByteMachine

namespace Machine

/-- The state needs input, or a place of the input, when it is entered. -/
def Kind.NeedsInput : Kind → Prop
  | .consume .. | .empty | .spanStart .. | .branch .. | .run .. | .table .. => True
  | .pause .. | .spanEnd .. | .error .. | .invoke .. => False

/-- The state returns to the caller and goes on later. -/
def Kind.ReturnsToCaller : Kind → Prop
  | .pause .. | .spanEnd .. => True
  | .consume .. | .empty | .spanStart .. | .branch .. | .run .. | .table .. | .error .. |
    .invoke .. => False

/-- **A run from the root can resume at a state.** -/
inductive Resumes (m : Machine) (root : Nat) : Nat → Prop
  | start : Resumes m root root
  | needsInput {i : Nat} {s : State} (hreach : m.digraph.Reaches root i)
      (hs : m.states[i]? = some s) (hkind : s.kind.NeedsInput) : Resumes m root i
  | behind {i : Nat} {s : State} {o : Fallback} (hreach : m.digraph.Reaches root i)
      (hs : m.states[i]? = some s) (hkind : s.kind.ReturnsToCaller)
      (ho : s.otherwise = some o) : Resumes m root o.target

variable {m : Machine} {root : Nat}

/-! ## The list -/

theorem State.mem_resumesAt_iff {s : State} {i j : Nat} :
    j ∈ s.resumesAt i ↔
      s.kind.NeedsInput ∧ j = i ∨
        s.kind.ReturnsToCaller ∧ ∃ o, s.otherwise = some o ∧ o.target = j := by
  cases hkind : s.kind <;> simp [resumesAt, hkind, Kind.NeedsInput, Kind.ReturnsToCaller]

/-- **The list is complete and tight.** -/
theorem mem_resumption_iff {j : Nat} : j ∈ m.resumption root ↔ m.Resumes root j := by
  rw [resumption, List.mem_eraseDups, List.mem_cons, List.mem_flatMap]
  constructor
  · rintro (rfl | ⟨i, hi, hj⟩)
    · exact .start
    · have hreach : m.digraph.Reaches root i := Digraph.mem_preorder_iff.mp hi
      split at hj
      · rename_i s hs
        rcases State.mem_resumesAt_iff.mp hj with ⟨hkind, rfl⟩ | ⟨hkind, o, ho, rfl⟩
        · exact .needsInput hreach hs hkind
        · exact .behind hreach hs hkind ho
      · cases hj
  · intro h
    cases h with
    | start => exact .inl rfl
    | needsInput hreach hs hkind =>
      refine .inr ⟨j, Digraph.mem_preorder_iff.mpr hreach, ?_⟩
      rw [hs]
      exact State.mem_resumesAt_iff.mpr (.inl ⟨hkind, rfl⟩)
    | @behind i s o hreach hs hkind ho =>
      refine .inr ⟨i, Digraph.mem_preorder_iff.mpr hreach, ?_⟩
      rw [hs]
      exact State.mem_resumesAt_iff.mpr (.inr ⟨hkind, o, ho, rfl⟩)

theorem nodup_resumption (m : Machine) (root : Nat) : (m.resumption root).Nodup :=
  Digraph.nodup_eraseDups _

theorem head?_resumption (m : Machine) (root : Nat) :
    (m.resumption root).head? = some root := by
  rw [resumption, List.eraseDups_cons, List.head?_cons]

/-- What follows a state that returns can be reached through it. -/
theorem Resumes.reaches {i : Nat} (h : m.Resumes root i) : m.digraph.Reaches root i := by
  cases h with
  | start => exact .refl _
  | needsInput hreach => exact hreach
  | @behind i s o hreach hs _ ho =>
    refine hreach.step (show o.target ∈ m.next i from ?_)
    simp [next, hs, State.targets, ho]

/-! ## Empty states -/

theorem State.isUnfinished_mapTargets (f : Nat → Nat) (s : State) :
    (s.mapTargets f).isUnfinished = s.isUnfinished := by
  obtain ⟨label, kind, otherwise⟩ := s
  cases kind with
  | run transform bytes edge => cases edge <;> simp [isUnfinished, mapTargets, Kind.mapTargets]
  | _ => simp [isUnfinished, mapTargets, Kind.mapTargets]

/-- Redirection leaves every state with the edges it needs. -/
theorem isUnfinished_bypass (h : m.unfinished? = none) {i : Nat} {s : State}
    (hs : (m.bypass root).1.states[i]? = some s) : s.isUnfinished = false := by
  have hkept := congrArg (·[i]?) (map_bypass State.isUnfinished_mapTargets m root)
  simp only [Array.getElem?_map, hs, Option.map_some] at hkept
  obtain ⟨old, hold, hsame⟩ := Option.map_eq_some_iff.mp hkept.symm
  rw [unfinished?, Option.map_eq_none_iff, Array.find?_eq_none] at h
  rw [← hsame]
  simpa using h old (Array.mem_of_getElem? hold)

/-- **Empty states of a settled machine** advance, unless they pass on for ever. -/
theorem Settled.empty_cases (h : m.Settled root) {i : Nat} {s : State}
    (hreach : m.digraph.Reaches root i) (hs : m.states[i]? = some s) (hkind : s.kind = .empty)
    (hfinished : s.isUnfinished = false) :
    (∃ o, s.otherwise = some o ∧ o.stay = false) ∨ m.Endless i := by
  by_cases hpass : ∃ j, m.PassesOn i j
  · -- a reachable state is the root or the target of an edge
    right
    obtain ⟨j, hpass⟩ := hpass
    rcases Relation.ReflTransGen.cases_tail hreach with rfl | ⟨k, hk, hi⟩
    · exact h.start j hpass
    · exact h.edges k i j hk hi hpass
  · left
    cases ho : s.otherwise with
    | none => simp [State.isUnfinished, hkind, ho] at hfinished
    | some o =>
      refine ⟨o, rfl, ?_⟩
      cases hstay : o.stay with
      | false => rfl
      | true =>
        obtain ⟨target, stay, value⟩ := o
        obtain rfl : stay = true := hstay
        exact absurd ⟨target, s, value, hs, hkind, ho⟩ hpass

end Machine

/-! ## Compiled machines -/

/-- **What holds of the resumption list** of a compiled machine. -/
structure Compiled.Resumable (c : Compiled) : Prop where
  once : c.resumption.Nodup
  first : c.resumption.head? = some c.root
  members : ∀ i, i ∈ c.resumption ↔ c.machine.Resumes c.root i
  reached : ∀ i ∈ c.resumption, c.machine.digraph.Reaches c.root i
  /-- An empty state advances, or lies on a chain of empty states that never leaves them. -/
  empty : ∀ i ∈ c.resumption, ∀ s, c.machine.states[i]? = some s → s.kind = .empty →
    (∃ o, s.otherwise = some o ∧ o.stay = false) ∨ c.machine.Endless i

theorem Assembly.unfinished?_of_complete {a : Assembly} {m : Machine}
    (h : a.complete = .ok m) : m.unfinished? = none := by
  unfold complete at h
  split at h
  · cases h
  · split at h
    · cases h
    · rename_i hfinished
      rwa [← Except.ok.inj h]

namespace Blueprint

/-- **Resumption points are complete and tight**, in the machine as it is after redirection. -/
theorem resumable_compile (b : Blueprint) (stem : String) (options : Options)
    (allocator : Allocator) (root : Nat) (c : Compiled)
    (h : (b.compile stem options allocator root).result = .ok c) : c.Resumable := by
  obtain ⟨allocation, m, -, -, hm, rfl⟩ := stages_of_compile h
  generalize b.assembly options allocation.groups stem root = a at hm
  have hreach : ∀ i ∈ (a.finish root m).resumption,
      (a.finish root m).machine.digraph.Reaches (a.finish root m).root i :=
    fun i hi => (Machine.mem_resumption_iff.mp hi).reaches
  refine ⟨Machine.nodup_resumption _ _, Machine.head?_resumption _ _,
    fun i => Machine.mem_resumption_iff, hreach, fun i hi s hs hkind => ?_⟩
  have hfinished := Machine.isUnfinished_bypass (Assembly.unfinished?_of_complete hm) hs
  exact (m.settled_bypass (a.entry root)).empty_cases (hreach i hi) hs hkind hfinished

/-- A pause between an empty state that only passes on and one that advances into two that pass
on to each other. -/
def pausingCalls : List Call :=
  [.matchNode "start", .pauseNode 1 "wait", .matchNode "skip", .matchNode "ping",
    .matchNode "pong", .otherwise 0 1, .otherwise 1 2, .skipTo 2 3, .otherwise 3 4,
    .otherwise 4 3]

theorem resumable_compile_pausing :
    ∃ c, ((run {} pausingCalls).compile "p" {} sharePlaces 0).result = .ok c ∧
      c.root = 1 ∧ c.resumption = [1, 2, 3, 4] ∧ c.Resumable := by
  have hlist : ((run {} pausingCalls).compile "p" {} sharePlaces 0).result.map
      (fun c => (c.root, c.resumption)) = .ok (1, [1, 2, 3, 4]) := by cbv
  cases h : ((run {} pausingCalls).compile "p" {} sharePlaces 0).result with
  | error e =>
    rw [h] at hlist
    cases hlist
  | ok c =>
    rw [h] at hlist
    obtain ⟨hroot, hresumption⟩ := Prod.mk.inj (Except.ok.inj hlist)
    exact ⟨c, rfl, hroot, hresumption, resumable_compile _ "p" {} sharePlaces 0 c h⟩

end Blueprint

end ByteMachine
