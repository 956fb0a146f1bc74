import ByteMachine.Proofs.Assembled

/-! # The stages of a compilation

Apart from what it reports, a compilation is a chain of stages, each of which may fail:
checking the options, giving spans their places, checking these and the root, and
assembling the machine.  What follows cannot fail (`compile_result`). -/
namespace ByteMachine

namespace Assembly

/-- What is made of a machine that is complete. -/
def finish (a : Assembly) (root : Nat) (m : Machine) : Compiled :=
  let bypassed := m.bypass (a.entry root)
  { stem := a.stem
    properties := a.blueprint.properties
    root := bypassed.2
    machine := bypassed.1
    places := a.places a.callbacks
    resumption := bypassed.1.resumption bypassed.2 }

end Assembly

namespace Blueprint

theorem sharePlaces_result (b : Blueprint) (root : Nat) :
    (sharePlaces b root).result = b.allocate root := by
  simp only [sharePlaces, Journaled.result_bind, Journaled.result_ofExcept,
    Journaled.result_note]
  cases b.allocate root <;> rfl

section Stages
variable (b : Blueprint) (stem : String) (options : Options) (allocator : Allocator) (root : Nat)

theorem compile_result_of_options {e : OptionsError} (h : options.check = .error e) :
    (b.compile stem options allocator root).result = .error (.options e) := by
  simp only [compile, Journaled.result_bind, Journaled.result_ofExcept, h]
  rfl

/-- **The stages of a compilation** behind the check of the options. -/
theorem compile_result (h : options.check = .ok ()) :
    (b.compile stem options allocator root).result =
      match (allocator b root).result with
      | .error e => .error (.allocation e)
      | .ok allocation =>
        match b.checkGroups allocation.groups, b.getNode root with
        | .error e, _ => .error e
        | .ok _, .error e => .error e
        | .ok _, .ok _ =>
          let a := b.assembly options allocation.groups stem root
          a.complete.map (a.finish root) := by
  simp only [compile, Journaled.result_bind, Journaled.result_ofExcept, Journaled.result_note,
    Journaled.result_noteAll, Journaled.result_mapError, h]
  cases hallocation : (allocator b root).result with
  | error e => rfl
  | ok allocation =>
    simp only [Except.mapError, bind, Except.bind]
    cases b.checkGroups allocation.groups with
    | error e => rfl
    | ok _ =>
      cases b.getNode root with
      | error e => rfl
      | ok node =>
        cases (b.assembly options allocation.groups stem root).complete with
        | error e => rfl
        | ok m => rfl

end Stages

section Success
variable {b : Blueprint} {stem : String} {options : Options} {allocator : Allocator} {root : Nat}
variable {c : Compiled}

/-- A compilation that succeeds has passed all stages. -/
theorem stages_of_compile (h : (b.compile stem options allocator root).result = .ok c) :
    ∃ allocation m, (allocator b root).result = .ok allocation ∧
      b.checkGroups allocation.groups = .ok () ∧
      (b.assembly options allocation.groups stem root).complete = .ok m ∧
      c = (b.assembly options allocation.groups stem root).finish root m := by
  cases hoptions : options.check with
  | error e =>
    rw [compile_result_of_options _ _ _ _ _ hoptions] at h
    cases h
  | ok _ =>
    rw [compile_result _ _ _ _ _ hoptions] at h
    split at h
    · cases h
    · rename_i allocation hallocation
      split at h
      · cases h
      · cases h
      · rename_i hgroups _
        dsimp only at h
        cases hm : (b.assembly options allocation.groups stem root).complete with
        | error e =>
          rw [hm] at h
          cases h
        | ok m =>
          rw [hm] at h
          exact ⟨allocation, m, hallocation, hgroups, hm, (Except.ok.inj h).symm⟩

/-- **What a compilation has gone through** when it succeeds. -/
theorem compile_eq_ok (hb : b.Sound)
    (h : (b.compile stem options allocator root).result = .ok c) :
    ∃ allocation, (allocator b root).result = .ok allocation ∧
      b.Flawless allocation.groups root ∧
      c = (b.assembly options allocation.groups stem root).finish root
        (b.assembly options allocation.groups stem root).machine := by
  obtain ⟨allocation, m, hallocation, -, hm, rfl⟩ := stages_of_compile h
  obtain ⟨hflawless, rfl⟩ := (complete_eq_ok_iff hb).mp hm
  exact ⟨allocation, hallocation, hflawless, rfl⟩

/-- Only groups of spans that exist are compiled. -/
theorem checkGroups_of_compile {allocation : Allocation}
    (h : (b.compile stem options allocator root).result = .ok c)
    (hallocation : (allocator b root).result = .ok allocation) :
    b.checkGroups allocation.groups = .ok () := by
  obtain ⟨allocation', -, hallocation', hgroups, -⟩ := stages_of_compile h
  rwa [Except.ok.inj (hallocation'.symm.trans hallocation)] at hgroups

end Success

end Blueprint

end ByteMachine
