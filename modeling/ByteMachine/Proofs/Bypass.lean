import ByteMachine.Machine.Wiring
import ByteMachine.Backend
import ByteMachine.Proofs.Walk

/-! # Redirecting edges

To redirect the edges of a state is to change each target where it stands
(`State.retarget_map`).  The destination of a position lies behind it on a chain of states
that merely pass on (`chain_destination`), and depends on nothing but where states pass on
to. -/
namespace ByteMachine.Machine

/-! ## New targets -/

namespace Kind

/-- Changes the targets of the edges that belong to the kind. -/
def mapTargets (f : Nat → Nat) : Kind → Kind
  | .invoke callback edges =>
    .invoke callback (edges.map fun e => { e with target := f e.target })
  | .branch transform edges =>
    .branch transform (edges.map fun e => { e with target := f e.target })
  | .run transform bytes edge =>
    .run transform bytes (edge.map fun e => { e with target := f e.target })
  | .table transform edges =>
    .table transform (edges.map fun e => { e with target := f e.target })
  | kind => kind

/-- Values handed out along a list of edges reach each edge in its place. -/
theorem assign_map {α : Type} (set : α → Nat → α) (get : α → Nat) (f : Nat → Nat) (edges : List α) :
    assign set edges ((edges.map get).map f) = edges.map fun e => set e (f (get e)) := by
  induction edges with
  | nil => rfl
  | cons e edges ih =>
    simp only [List.map_cons, assign]
    rw [ih]

/-- New targets for a kind, in the places of the old ones. -/
theorem retarget_map (kind : Kind) (f : Nat → Nat) :
    kind.retarget (kind.targets.map f) = kind.mapTargets f := by
  cases kind with
  | invoke callback edges =>
    simp only [retarget, targets, mapTargets]
    rw [assign_map]
  | branch transform edges =>
    simp only [retarget, targets, mapTargets]
    rw [assign_map]
  | run transform bytes edge =>
    cases edge with
    | none => rfl
    | some edge => rfl
  | table transform edges =>
    simp only [retarget, targets, mapTargets]
    rw [assign_map]
  | _ => rfl

theorem targets_mapTargets (kind : Kind) (f : Nat → Nat) :
    (kind.mapTargets f).targets = kind.targets.map f := by
  cases kind with
  | run transform bytes edge => cases edge <;> rfl
  | _ => simp [mapTargets, targets]

end Kind

namespace State

/-- Changes the targets of all edges. -/
def mapTargets (f : Nat → Nat) (s : State) : State :=
  { s with
    kind := s.kind.mapTargets f
    otherwise := s.otherwise.map fun o => { o with target := f o.target } }

/-- **New targets in the places of the old ones.** -/
theorem retarget_map (s : State) (f : Nat → Nat) :
    s.retarget (s.targets.map f) = s.mapTargets f := by
  obtain ⟨label, kind, otherwise⟩ := s
  cases otherwise with
  | none =>
    simp only [retarget, targets, mapTargets, Option.toList_none, List.map_nil, List.nil_append,
      Kind.retarget_map, Option.map_none]
  | some o =>
    simp only [retarget, targets, mapTargets, Option.toList_some, List.map_cons, List.map_nil,
      List.cons_append, List.nil_append, Kind.retarget_map, Option.map_some]

theorem targets_mapTargets (s : State) (f : Nat → Nat) :
    (s.mapTargets f).targets = s.targets.map f := by
  cases ho : s.otherwise <;> simp [mapTargets, targets, ho, Kind.targets_mapTargets]

/-- To keep every target is to keep the state. -/
theorem mapTargets_id (s : State) : s.mapTargets id = s := by
  obtain ⟨label, kind, otherwise⟩ := s
  cases kind <;> simp [mapTargets, Kind.mapTargets]

end State

/-! ## One state after the other -/

section Bypass
variable {m : Machine}

/-- One step of the pass changes one state, and there the targets. -/
theorem bypassAt_states (m : Machine) (i j : Nat) :
    (m.bypassAt i).states[j]? =
      if i = j then m.states[j]?.map (State.mapTargets m.destination) else m.states[j]? := by
  unfold bypassAt
  cases h : m.states[i]? with
  | none =>
    dsimp only
    by_cases hij : i = j
    · rw [if_pos hij, ← hij, h]
      rfl
    · rw [if_neg hij]
  | some s =>
    dsimp only
    rw [Array.getElem?_setIfInBounds, State.retarget_map]
    have hi := (Array.getElem?_eq_some_iff.mp h).1
    by_cases hij : i = j
    · rw [if_pos hij, if_pos hij, ← hij, h, if_pos hi]
      rfl
    · rw [if_neg hij, if_neg hij]

theorem bypassAt_callbacks (m : Machine) (i : Nat) : (m.bypassAt i).callbacks = m.callbacks := by
  unfold bypassAt
  split <;> rfl

theorem bypassAt_transforms (m : Machine) (i : Nat) :
    (m.bypassAt i).transforms = m.transforms := by
  unfold bypassAt
  split <;> rfl

theorem size_bypassAt (m : Machine) (i : Nat) : (m.bypassAt i).states.size = m.states.size := by
  unfold bypassAt
  split
  · exact Array.size_setIfInBounds
  · rfl

/-- **What each redirection keeps**, all of them together keep. -/
theorem bypass_induct {P : Machine → Prop} (root : Nat) (hm : P m)
    (hstep : ∀ m i, P m → P (m.bypassAt i)) : P (m.bypass root).1 := by
  show P ((m.reachable root).foldl bypassAt m)
  generalize m.reachable root = is
  induction is generalizing m with
  | nil => exact hm
  | cons i is ih => exact ih (hstep m i hm)

theorem bypass_callbacks (m : Machine) (root : Nat) :
    (m.bypass root).1.callbacks = m.callbacks :=
  bypass_induct (P := fun after => after.callbacks = m.callbacks) root rfl fun after i h =>
    (after.bypassAt_callbacks i).trans h

theorem size_bypass (m : Machine) (root : Nat) :
    (m.bypass root).1.states.size = m.states.size :=
  bypass_induct (P := fun after => after.states.size = m.states.size) root rfl fun after i h =>
    (after.size_bypassAt i).trans h

/-- **Redirecting edges changes their targets only.** -/
theorem map_bypass {α : Type} {g : State → α} (hg : ∀ f s, g (s.mapTargets f) = g s) (m : Machine)
    (root : Nat) : (m.bypass root).1.states.map g = m.states.map g := by
  refine bypass_induct (P := fun after => after.states.map g = m.states.map g) root rfl
    fun after i h => ?_
  rw [← h]
  apply Array.ext_getElem?
  intro j
  rw [Array.getElem?_map, Array.getElem?_map, bypassAt_states]
  split
  · rw [Option.map_map]
    exact congrArg (Option.map · _) (funext (hg _))
  · rfl

/-- What a state says apart from targets stays where it is. -/
theorem bind_bypass {α : Type} {g : State → Option α} (hg : ∀ f s, g (s.mapTargets f) = g s)
    (m : Machine) (root i : Nat) :
    (m.bypass root).1.states[i]?.bind g = m.states[i]?.bind g := by
  have hmap := congrArg (·[i]?) (map_bypass hg m root)
  simp only [Array.getElem?_map] at hmap
  have hjoin : ∀ state : Option State, state.bind g = (state.map g).join := by
    intro state
    cases state <;> rfl
  rw [hjoin, hjoin, hmap]

/-- States keep their names. -/
theorem map_name_bypass (m : Machine) (root : Nat) :
    (m.bypass root).1.states.map (·.name) = m.states.map (·.name) :=
  map_bypass (fun _ _ => rfl) m root

/-! ## Chains -/

/-- **A state that merely passes on**: it is empty, and its otherwise edge, to `j`, leaves the
next byte where it is. -/
def PassesOn (m : Machine) (i j : Nat) : Prop :=
  ∃ s value, m.states[i]? = some s ∧ s.kind = .empty ∧ s.otherwise = some ⟨j, true, value⟩

theorem State.passesTo?_eq_some_iff {s : State} {j : Nat} :
    s.passesTo? = some j ↔ s.kind = .empty ∧ ∃ value, s.otherwise = some ⟨j, true, value⟩ := by
  unfold passesTo?
  constructor
  · intro h
    split at h
    · rename_i target value hkind hotherwise
      exact ⟨hkind, value, Option.some.inj h ▸ hotherwise⟩
    · cases h
  · rintro ⟨hkind, value, hotherwise⟩
    rw [hkind, hotherwise]

/-- The search for a state that merely passes on finds it, and finds nothing else. -/
theorem passesTo?_eq_some_iff {i j : Nat} : m.passesTo? i = some j ↔ m.PassesOn i j := by
  rw [passesTo?, Option.bind_eq_some_iff]
  constructor
  · rintro ⟨s, hs, hpass⟩
    obtain ⟨hkind, value, hotherwise⟩ := State.passesTo?_eq_some_iff.mp hpass
    exact ⟨s, value, hs, hkind, hotherwise⟩
  · rintro ⟨s, value, hs, hkind, hotherwise⟩
    exact ⟨s, hs, State.passesTo?_eq_some_iff.mpr ⟨hkind, value, hotherwise⟩⟩

theorem isSome_passesTo?_iff {i : Nat} : (m.passesTo? i).isSome ↔ ∃ j, m.PassesOn i j := by
  rw [Option.isSome_iff_exists]
  exact exists_congr fun j => passesTo?_eq_some_iff

theorem passesTo?_eq_none_iff {i : Nat} : m.passesTo? i = none ↔ ∀ j, ¬ m.PassesOn i j := by
  rw [← not_exists, ← isSome_passesTo?_iff, Option.not_isSome_iff_eq_none]

/-- One position lies behind another on a chain of states that merely pass on. -/
def Chain (m : Machine) (i j : Nat) : Prop := Relation.ReflTransGen m.PassesOn i j

/-- What the count of steps finds lies on the chain. -/
theorem chain_of_chainEnd? {n i j : Nat} (h : m.chainEnd? n i = some j) : m.Chain i j := by
  induction n generalizing i with
  | zero =>
    unfold chainEnd? at h
    split at h
    · cases h
    · exact Option.some.inj h ▸ .refl
  | succ n ih =>
    unfold chainEnd? at h
    split at h
    · rename_i next hnext
      exact .head (passesTo?_eq_some_iff.mp hnext) (ih h)
    · exact Option.some.inj h ▸ .refl

/-- **A destination lies on the chain.** -/
theorem chain_destination (m : Machine) (i : Nat) : m.Chain i (m.destination i) := by
  unfold destination
  cases h : m.chainEnd? m.states.size i with
  | none => exact .refl
  | some j => exact chain_of_chainEnd? h

theorem chainEnd?_congr {m m' : Machine} (h : ∀ i, m.passesTo? i = m'.passesTo? i) (n i : Nat) :
    m.chainEnd? n i = m'.chainEnd? n i := by
  induction n generalizing i with
  | zero => simp only [chainEnd?, h]
  | succ n ih =>
    simp only [chainEnd?, h]
    cases m'.passesTo? i with
    | none => rfl
    | some j => exact ih j

/-- **Destinations depend on nothing but where states pass on to.** -/
theorem destination_congr {m m' : Machine} (h : ∀ i, m.passesTo? i = m'.passesTo? i)
    (hsize : m.states.size = m'.states.size) : m.destination = m'.destination := by
  funext i
  rw [destination, destination, hsize, chainEnd?_congr h]

end Bypass

end ByteMachine.Machine
