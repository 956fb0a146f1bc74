import ByteMachine.Proofs.Bypass

/-! # The slots of a state

`State.targets` reads where the edges of a state lead and `State.retarget` replaces it, each by
cases of its own on the kind of the state.  Redirection depends on the two agreeing: it computes
new targets in the order of the one and stores them in the order of the other, and a kind for
which they are out of step would have its edges swapped.

They agree for every kind and for any number of new targets (`retarget_views`).  For a single
edge this is a matter of three laws of reading and replacing a part (`Slot`), which the edges of
a kind inherit as a list; the otherwise edge stands in front of them in both views.  What an
update leaves alone is compared with the targets left out (`State.untargeted`), and nothing else
gets lost that way: a state is given by its targets and by what is left without them
(`State.ext_targets`). -/
namespace ByteMachine.Machine

/-! ## Lists of edges -/

/-- **A slot of an edge**: a part that can be read and replaced. -/
structure Slot {α : Type} (set : α → Nat → α) (get : α → Nat) : Prop where
  get_set : ∀ e t, get (set e t) = t
  set_get : ∀ e, set e (get e) = e
  set_set : ∀ e t u, set (set e t) u = set e u

section Slot
variable {α : Type} {set : α → Nat → α} {get : α → Nat}

/-- **What is handed out is read back**: the new targets as far as there are edges for them, then
the old targets of the edges that got none. -/
theorem Slot.map_assign (h : Slot set get) (edges : List α) (ts : List Nat) :
    (Kind.assign set edges ts).map get =
      ts.take edges.length ++ (edges.map get).drop ts.length := by
  induction edges generalizing ts with
  | nil => cases ts <;> rfl
  | cons e edges ih =>
    cases ts with
    | nil => rfl
    | cons t ts =>
      simp only [Kind.assign, List.map_cons, h.get_set, ih, List.length_cons, List.take_succ_cons,
        List.drop_succ_cons, List.cons_append]

/-- New targets are gone once they are replaced again. -/
theorem Slot.map_set_assign (h : Slot set get) (edges : List α) (ts : List Nat) (u : Nat) :
    (Kind.assign set edges ts).map (set · u) = edges.map (set · u) := by
  induction edges generalizing ts with
  | nil => cases ts <;> rfl
  | cons e edges ih =>
    cases ts with
    | nil => rfl
    | cons t ts => simp only [Kind.assign, List.map_cons, h.set_set, ih]

/-- An edge is given by its target and by what remains once the target is overwritten. -/
theorem Slot.ext (h : Slot set get) {e e' : α} {u : Nat} (hrest : set e u = set e' u)
    (htarget : get e = get e') : e = e' := by
  rw [← h.set_get e, ← h.set_set e u, hrest, h.set_set, htarget, h.set_get]

/-- The same for a list of edges, edge by edge. -/
theorem Slot.ext_list (h : Slot set get) {edges edges' : List α} {u : Nat}
    (hrest : edges.map (set · u) = edges'.map (set · u))
    (htargets : edges.map get = edges'.map get) : edges = edges' := by
  induction edges generalizing edges' with
  | nil => exact (List.map_eq_nil_iff.mp hrest.symm).symm
  | cons e edges ih =>
    cases edges' with
    | nil => cases hrest
    | cons e' edges' =>
      obtain ⟨he, hrest⟩ := List.cons.inj hrest
      obtain ⟨ht, htargets⟩ := List.cons.inj htargets
      rw [h.ext he ht, ih hrest htargets]

end Slot

theorem ReturnEdge.slot : Slot (fun (e : ReturnEdge) t => { e with target := t }) (·.target) :=
  ⟨fun _ _ => rfl, fun _ => rfl, fun _ _ _ => rfl⟩

theorem ByteEdge.slot : Slot (fun (e : ByteEdge) t => { e with target := t }) (·.target) :=
  ⟨fun _ _ => rfl, fun _ => rfl, fun _ _ _ => rfl⟩

theorem TableEdge.slot : Slot (fun (e : TableEdge) t => { e with target := t }) (·.target) :=
  ⟨fun _ _ => rfl, fun _ => rfl, fun _ _ _ => rfl⟩

theorem RunEdge.slot : Slot (fun (e : RunEdge) t => { e with target := t }) (·.target) :=
  ⟨fun _ _ => rfl, fun _ => rfl, fun _ _ _ => rfl⟩

/-- An otherwise edge has a slot like the edges of a kind. -/
theorem Fallback.slot : Slot (fun (o : Fallback) t => { o with target := t }) (·.target) :=
  ⟨fun _ _ => rfl, fun _ => rfl, fun _ _ _ => rfl⟩

/-! ## Kinds -/

namespace Kind

/-- The edges of a kind show their new targets, whichever kind it is. -/
theorem targets_retarget (kind : Kind) (ts : List Nat) :
    (kind.retarget ts).targets = ts.take kind.targets.length ++ kind.targets.drop ts.length := by
  cases kind with
  | invoke callback edges =>
    simp only [retarget, targets, ReturnEdge.slot.map_assign, List.length_map]
  | branch transform edges =>
    simp only [retarget, targets, ByteEdge.slot.map_assign, List.length_map]
  | run transform bytes edge =>
    cases edge with
    | none => simp [retarget, targets]
    | some edge => cases ts <;> simp [retarget, targets]
  | table transform edges =>
    simp only [retarget, targets, TableEdge.slot.map_assign, List.length_map]
  | _ => simp [retarget, targets]

/-- New targets are gone once all targets are overwritten: nothing but targets was replaced. -/
theorem mapTargets_retarget (kind : Kind) (ts : List Nat) (u : Nat) :
    (kind.retarget ts).mapTargets (fun _ => u) = kind.mapTargets fun _ => u := by
  cases kind with
  | invoke callback edges =>
    exact congrArg (invoke callback) (ReturnEdge.slot.map_set_assign edges ts u)
  | branch transform edges =>
    exact congrArg (branch transform) (ByteEdge.slot.map_set_assign edges ts u)
  | run transform bytes edge =>
    cases edge with
    | none => rfl
    | some edge => cases ts <;> rfl
  | table transform edges =>
    exact congrArg (table transform) (TableEdge.slot.map_set_assign edges ts u)
  | _ => rfl

/-- A kind is given by the targets of its edges and by what it says apart from them. -/
theorem ext_targets {kind kind' : Kind} {u : Nat}
    (hrest : kind.mapTargets (fun _ => u) = kind'.mapTargets fun _ => u)
    (htargets : kind.targets = kind'.targets) : kind = kind' := by
  cases kind with
  | invoke callback edges =>
    cases kind' with
    | invoke callback' edges' =>
      obtain ⟨hcallback, hedges⟩ := Kind.invoke.inj hrest
      rw [hcallback, ReturnEdge.slot.ext_list hedges htargets]
    | _ => cases hrest
  | branch transform edges =>
    cases kind' with
    | branch transform' edges' =>
      obtain ⟨htransform, hedges⟩ := Kind.branch.inj hrest
      rw [htransform, ByteEdge.slot.ext_list hedges htargets]
    | _ => cases hrest
  | run transform bytes edge =>
    cases kind' with
    | run transform' bytes' edge' =>
      obtain ⟨htransform, hbytes, hedge⟩ := Kind.run.inj hrest
      have hsame : edge = edge' := by
        cases edge with
        | none => exact (Option.map_eq_none_iff.mp hedge.symm).symm
        | some e =>
          cases edge' with
          | none => cases hedge
          | some e' =>
            have htarget := (List.cons.inj htargets).1
            exact congrArg some (RunEdge.slot.ext (Option.some.inj hedge) htarget)
      rw [htransform, hbytes, hsame]
    | _ => cases hrest
  | table transform edges =>
    cases kind' with
    | table transform' edges' =>
      obtain ⟨htransform, hedges⟩ := Kind.table.inj hrest
      rw [htransform, TableEdge.slot.ext_list hedges htargets]
    | _ => cases hrest
  | _ =>
    cases kind' with
    | invoke | branch | run | table => cases hrest
    | _ => exact hrest

end Kind

/-! ## States -/

namespace State

/-- **What a state says apart from where its edges lead**: its name and kind, the keys, codes,
bytes, flags and values of its edges, and whether it has an otherwise edge. -/
def untargeted (s : State) : State := s.mapTargets fun _ => 0

/-- A state is given by its targets and by what it says apart from them. -/
theorem ext_targets {s t : State} (hrest : s.untargeted = t.untargeted)
    (htargets : s.targets = t.targets) : s = t := by
  obtain ⟨label, kind, otherwise⟩ := s
  obtain ⟨label', kind', otherwise'⟩ := t
  obtain ⟨rfl, hkind, hotherwise⟩ := State.mk.inj hrest
  -- both states have an otherwise edge or neither, so the targets split at the same place
  cases otherwise with
  | none =>
    obtain rfl : otherwise' = none := Option.map_eq_none_iff.mp hotherwise.symm
    obtain rfl : kind = kind' := Kind.ext_targets hkind htargets
    rfl
  | some o =>
    cases otherwise' with
    | none => cases hotherwise
    | some o' =>
      obtain ⟨ho, hothers⟩ := List.cons.inj htargets
      obtain rfl : kind = kind' := Kind.ext_targets hkind hothers
      obtain rfl : o = o' := Fallback.slot.ext (Option.some.inj hotherwise) ho
      rfl

/-- The otherwise edge takes the first of the new targets, and the kind takes the others. -/
theorem targets_retarget (s : State) (ts : List Nat) :
    (s.retarget ts).targets = ts.take s.targets.length ++ s.targets.drop ts.length := by
  obtain ⟨label, kind, otherwise⟩ := s
  cases otherwise with
  | none => simpa [retarget, targets] using kind.targets_retarget ts
  | some o =>
    cases ts with
    | nil => simp [retarget]
    | cons t ts => simpa [retarget, targets] using kind.targets_retarget ts

/-- New targets leave everything else alone. -/
theorem untargeted_retarget (s : State) (ts : List Nat) :
    (s.retarget ts).untargeted = s.untargeted := by
  obtain ⟨label, kind, otherwise⟩ := s
  cases otherwise with
  | none => simp only [retarget, untargeted, mapTargets, Kind.mapTargets_retarget]
  | some o =>
    cases ts with
    | nil => rfl
    | cons t ts =>
      simp only [retarget, untargeted, mapTargets, Kind.mapTargets_retarget, Option.map_some]

/-- **The two views of the edges agree.**  Replacing targets shows the new ones in the places of
the old ones, followed by those for which there was no new one.  Nothing else about the state
changes, and there is one such state only. -/
theorem retarget_views (s : State) (ts : List Nat) :
    (s.retarget ts).targets = ts.take s.targets.length ++ s.targets.drop ts.length ∧
      (s.retarget ts).targets.length = s.targets.length ∧
      (s.retarget ts).untargeted = s.untargeted ∧
      ∀ t : State, t.untargeted = s.untargeted →
        t.targets = ts.take s.targets.length ++ s.targets.drop ts.length → t = s.retarget ts := by
  refine ⟨s.targets_retarget ts, ?_, s.untargeted_retarget ts, fun t hrest htargets => ?_⟩
  · rw [targets_retarget, List.length_append, List.length_take, List.length_drop]
    omega
  · exact ext_targets (hrest.trans (s.untargeted_retarget ts).symm)
      (htargets.trans (s.targets_retarget ts).symm)

end State

end ByteMachine.Machine
