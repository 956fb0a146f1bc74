import ByteMachine.Proofs.Translator

/-! # The progress of a translation

Every step of a translation makes some sites, one after the other, and stops at the first of them
that has a defect.  `Yields` says this of one step, and steps that follow each other make the sites
of both (`Yields.bind`).  Where no defect is met, the states made before are kept and the new ones
are what they should be (`Advanced`).  A state that is still being given its edges is the exception
(`Building`), and it stops being one when it has them all (`Building.finish`).

To enter a node makes the sites that the node brings, in the order of the assembly (`Enters`).
From this follows what it comes to when the edges of a state are added one by one, each after
its target has been entered (`Enters.connect`, `Enters.leadOn`). -/
namespace ByteMachine.Translator

/-! ## What a step comes to -/

section Yields
variable {α β : Type} {a : Assembly} {news more : List Site} {s : Site} {t : Translator}

/-- **The outcome of a step that makes some sites**: the defect of the first of them that has one,
and otherwise a result for which `Q` holds. -/
def Yields (a : Assembly) (news : List Site) (x : Translation α) (t : Translator)
    (Q : α → Translator → Prop) : Prop :=
  match news.findSome? (a.outline.defect? a.blueprint a.groups) with
  | some e => x t = .error e
  | none => ∃ r t', x t = .ok (r, t') ∧ Q r t'

variable {x : Translation α} {f : α → Translation β} {P : α → Translator → Prop}
  {Q : β → Translator → Prop}

theorem Yields.of_ok {t' : Translator} {r : α} (h : x t = .ok (r, t')) (hP : P r t') :
    Yields a [] x t P := ⟨r, t', h, hP⟩

theorem Yields.mono {P' : α → Translator → Prop} (h : Yields a news x t P)
    (himp : ∀ r t', P r t' → P' r t') : Yields a news x t P' := by
  unfold Yields at h ⊢
  cases hdefect : news.findSome? (a.outline.defect? a.blueprint a.groups) with
  | some e => simpa only [hdefect] using h
  | none =>
    simp only [hdefect] at h ⊢
    obtain ⟨r, t', hok, hP⟩ := h
    exact ⟨r, t', hok, himp r t' hP⟩

theorem Yields.of_eq {y : Translation α} (hxy : x t = y t) (h : Yields a news y t P) :
    Yields a news x t P := by
  unfold Yields at h ⊢
  rw [hxy]
  exact h

/-- One step after another makes the sites of both. -/
theorem Yields.bind (h : Yields a news x t P)
    (hf : ∀ r t', P r t' → Yields a more (f r) t' Q) : Yields a (news ++ more) (x >>= f) t Q := by
  unfold Yields at h ⊢
  rw [List.findSome?_append]
  cases hdefect : news.findSome? (a.outline.defect? a.blueprint a.groups) with
  | some e =>
    simp only [hdefect] at h
    exact bind_of_error h
  | none =>
    simp only [hdefect] at h
    obtain ⟨r, t', hok, hP⟩ := h
    rw [Option.none_or, bind_of_ok hok]
    exact hf r t' hP

/-- A step that makes no sites comes first. -/
theorem Yields.after_ok {t' : Translator} {r : α} (h : x t = .ok (r, t'))
    (hf : Yields a more (f r) t' Q) : Yields a more (x >>= f) t Q := by
  unfold Yields at hf ⊢
  rw [bind_of_ok h]
  exact hf

/-- A step that makes no sites comes last. -/
theorem Yields.andThen (h : Yields a news x t P)
    (hf : ∀ r t', P r t' → Yields a [] (f r) t' Q) : Yields a news (x >>= f) t Q := by
  have hboth := h.bind hf
  rwa [List.append_nil] at hboth

/-- A site without a defect is made on the way. -/
theorem Yields.cons (hs : a.outline.defect? a.blueprint a.groups s = none)
    (h : Yields a news x t P) : Yields a (s :: news) x t P := by
  unfold Yields at h ⊢
  rw [List.findSome?_cons, hs]
  exact h

theorem Yields.of_defect {e : CompileError}
    (hs : a.outline.defect? a.blueprint a.groups s = some e) (h : x t = .error e) :
    Yields a (s :: news) x t P := by
  unfold Yields
  rw [List.findSome?_cons, hs]
  exact h

end Yields

/-! ## States in progress -/

section Filled
variable {a : Assembly} {goal : Nat → Option Machine.State} {made news more : List Site}
  {t t' t'' : Translator} {st st' : Machine.State}

/-- **Sites have been made** after others: the states of the others are kept, and the new ones
are as they should be. -/
structure Advanced (a : Assembly) (goal : Nat → Option Machine.State) (made news : List Site)
    (t t' : Translator) : Prop where
  counted : Counted a (made ++ news) t'
  referred : Referred a (made ++ news) t'
  kept : ∀ k < made.length, t'.machine.states[k]? = t.machine.states[k]?
  filled : ∀ k, made.length ≤ k → k < (made ++ news).length → t'.machine.states[k]? = goal k

theorem Advanced.of_states_eq {t₁ : Translator} (h : Advanced a goal made news t₁ t')
    (hstates : t₁.machine.states = t.machine.states) : Advanced a goal made news t t' :=
  ⟨h.counted, h.referred, hstates ▸ h.kept, h.filled⟩

/-- **A state is under way**: as `Advanced`, but the first new state is `st` so far. -/
structure Building (a : Assembly) (goal : Nat → Option Machine.State) (made news : List Site)
    (st : Machine.State) (t t' : Translator) : Prop where
  counted : Counted a (made ++ news) t'
  referred : Referred a (made ++ news) t'
  kept : ∀ k < made.length, t'.machine.states[k]? = t.machine.states[k]?
  here : t'.machine.states[made.length]? = some st
  filled : ∀ k, made.length < k → k < (made ++ news).length → t'.machine.states[k]? = goal k

theorem Building.lt (h : Building a goal made news st t t') :
    made.length < (made ++ news).length := by
  rw [← h.counted.size]
  exact (Array.getElem?_eq_some_iff.mp h.here).1

/-- More sites are made while a state is under way. -/
theorem Building.advance (h : Building a goal made news st t t') {now : List Site}
    (hnow : made ++ news = now) (h' : Advanced a goal now more t' t'') :
    Building a goal made (news ++ more) st t t'' := by
  subst hnow
  have hlt := h.lt
  refine ⟨?_, ?_, fun k hk => ?_, ?_, fun k hk hk' => ?_⟩
  · rw [← List.append_assoc]
    exact h'.counted
  · rw [← List.append_assoc]
    exact h'.referred
  · rw [h'.kept k (by omega), h.kept k hk]
  · rw [h'.kept _ hlt, h.here]
  · by_cases hnew : k < (made ++ news).length
    · rw [h'.kept k hnew, h.filled k hk hnew]
    · refine h'.filled k (by omega) ?_
      rw [List.append_assoc]
      exact hk'

theorem Building.put (h : Building a goal made news st t t') (hlabel : st'.label = st.label) :
    Building a goal made news st' t (t'.put made.length st') := by
  refine ⟨h.counted.put h.here hlabel, h.referred.put _ _, fun k hk => ?_, ?_, fun k hk hk' => ?_⟩
  · rw [states_put h.here, if_neg (by omega), h.kept k hk]
  · rw [states_put h.here, if_pos rfl]
  · rw [states_put h.here, if_neg (by omega), h.filled k hk hk']

/-- A state that is as it should be is no longer under way. -/
theorem Building.finish (h : Building a goal made news st t t')
    (hgoal : goal made.length = some st) : Advanced a goal made news t t' := by
  refine ⟨h.counted, h.referred, h.kept, fun k hk hk' => ?_⟩
  by_cases heq : k = made.length
  · rw [heq, h.here, hgoal]
  · exact h.filled k (by omega) hk'

/-- A state for a site is begun. -/
theorem building_addFor {s : Site} (h : Counted a made t) (hrefers : Referred a (made ++ [s]) t)
    (hs : s ∉ made) (hentered : s.path ≠ [] → Site.entry s.node ∈ made) (kind : Machine.Kind)
    (goal : Nat → Option Machine.State) :
    ∃ label t', addFor s.node (a.nameOf s) kind t = .ok (made.length, t') ∧
      Building a goal made [s] { label, kind } t t' ∧
      (a.upTo (made ++ [s])).labels = (a.upTo made).labels ++ [label] := by
  have hstates : ((t.push (a.nameOf s) kind).remember s.node t.machine.states.size).machine.states =
      t.machine.states.push { label := (t.stateNames.fresh (a.nameOf s)).1, kind } := by
    rw [remember_machine]
    rfl
  refine ⟨_, (t.push (a.nameOf s) kind).remember s.node t.machine.states.size, ?_, ?_,
    h.labels_append s⟩
  · rw [addFor, h.size]
  · refine ⟨h.addFor hs hentered kind, ?_, fun k hk => ?_, ?_, fun k hk hk' => ?_⟩
    · refine hrefers.congr ?_ ?_ ?_
      · rw [remember_machine]
        rfl
      · rw [remember_machine]
        rfl
      · rw [remember_callbackNames]
        rfl
    · rw [hstates, Array.getElem?_push_lt (by rw [h.size]; exact hk),
        Array.getElem?_eq_getElem (by rw [h.size]; exact hk)]
    · rw [hstates, ← h.size, Array.getElem?_push_size]
    · rw [List.length_append, List.length_singleton] at hk'
      omega

end Filled

/-! ## Entering nodes -/

/-- **Nodes are entered correctly** once the sites of `base` are made. -/
def Enters (a : Assembly) (goal : Nat → Option Machine.State) (enter : Nat → Translation Nat)
    (base : List Site) : Prop :=
  ∀ (m : Nat) (made : List Site) (t : Translator), base ⊆ made → Counted a made t →
    Referred a made t → made ++ a.ahead made [Site.entry m] <+: a.sites →
    Yields a (a.ahead made [Site.entry m]) (enter m) t fun i t' =>
      i = a.entry m ∧ Advanced a goal made (a.ahead made [Site.entry m]) t t'

section Enters
variable {a : Assembly} {goal : Nat → Option Machine.State} {enter : Nat → Translation Nat}
  {base made news : List Site} {root n : Nat} {t t' : Translator} {st st' : Machine.State}

/-- While a node is translated, the nodes that it leads to are entered for good. -/
theorem Enters.draft (h : a.Rooted root) (henter : Enters a a.finished enter base)
    (hn : Site.entry n ∈ base) : Enters a (a.draft n) enter base := by
  intro m made t hbase hcounted hreferred hsites
  refine (henter m made t hbase hcounted hreferred hsites).mono fun i t' hi => ⟨hi.1, ?_⟩
  refine ⟨hi.2.counted, hi.2.referred, hi.2.kept, fun k hk hk' => ?_⟩
  -- the sites that are made belong to other nodes, so their states are final at once
  obtain ⟨s, hs⟩ : ∃ s, (made ++ a.ahead made [Site.entry m])[k]? = some s :=
    ⟨_, List.getElem?_eq_getElem hk'⟩
  have hmem : s ∈ a.ahead made [Site.entry m] := by
    rw [List.getElem?_append_right hk] at hs
    exact List.mem_of_getElem? hs
  rw [hi.2.filled k hk hk', Assembly.draft_of_ne ?_
    (h.node_ne (by simp [Site.entry]) (hbase hn) hmem)]
  obtain ⟨rest, hrest⟩ := hsites
  rw [← hrest, List.getElem?_append_left hk', hs]

/-- A state under way gets edges, each when the node it leads to has been entered. -/
theorem Enters.connect (henter : Enters a goal enter base)
    {edges : List (Nat × (Nat → Machine.Wire))} {now : List Site} (hnow : made ++ news = now)
    (hbase : base ⊆ now) (h : Building a goal made news st t t')
    (hsites : now ++ a.ahead now (edges.map fun e => Site.entry e.1) <+: a.sites)
    (hwires : (edges.map fun e => e.2 (a.entry e.1)).foldlM Machine.State.wire st = .ok st') :
    Yields a (a.ahead now (edges.map fun e => Site.entry e.1))
      (Translator.connect enter made.length edges) t' fun _ t'' => Building a goal made
        (news ++ a.ahead now (edges.map fun e => Site.entry e.1)) st' t t'' := by
  induction edges generalizing news now st t' with
  | nil =>
    cases hwires
    rw [List.map_nil, Assembly.ahead_nil, List.append_nil]
    exact .of_ok rfl h
  | cons edge edges ih =>
    obtain ⟨target, edge⟩ := edge
    obtain ⟨st₁, hwire, hwires⟩ : ∃ st₁, st.wire (edge (a.entry target)) = .ok st₁ ∧
        (edges.map fun e => e.2 (a.entry e.1)).foldlM Machine.State.wire st₁ = .ok st' := by
      rw [List.map_cons, List.foldlM_cons] at hwires
      cases hfirst : st.wire (edge (a.entry target)) with
      | error e =>
        rw [hfirst] at hwires
        cases hwires
      | ok st₁ =>
        rw [hfirst] at hwires
        exact ⟨st₁, rfl, hwires⟩
    have hahead : a.ahead now (((target, edge) :: edges).map fun e => Site.entry e.1) =
        a.ahead now [Site.entry target] ++ a.ahead (now ++ a.ahead now [Site.entry target])
          (edges.map fun e => Site.entry e.1) := a.ahead_append now [Site.entry target] _
    rw [hahead, ← List.append_assoc] at hsites
    rw [hahead, ← List.append_assoc]
    -- entering the target makes sites, and the edge is then added to a state that was kept
    refine Yields.bind (P := fun _ t₁ =>
      Building a goal made (news ++ a.ahead now [Site.entry target]) st₁ t t₁) ?_ ?_
    · refine Yields.andThen (henter target now t' hbase (hnow ▸ h.counted) (hnow ▸ h.referred)
        ((List.prefix_append _ _).trans hsites)) ?_
      rintro _ t₁ ⟨rfl, hadvanced⟩
      have hbuilding := h.advance hnow hadvanced
      exact .of_ok (wire_eq hbuilding.here hwire) (hbuilding.put (label_wire hwire))
    · intro _ t₁ h₁
      refine ih ?_ (fun s hs => List.mem_append_left _ (hbase hs)) h₁ hsites hwires
      rw [← List.append_assoc, hnow]

/-- A state under way gets its otherwise edge when the node it leads to has been entered. -/
theorem Enters.leadOn (henter : Enters a goal enter base) {f : Option Machine.Fallback}
    {now : List Site} (hnow : made ++ news = now) (hbase : base ⊆ now)
    (h : Building a goal made news st t t') (hnone : st.otherwise = none)
    (hsites : now ++ a.ahead now (f.toList.map fun f => Site.entry f.target) <+: a.sites) :
    Yields a (a.ahead now (f.toList.map fun f => Site.entry f.target))
      (Translator.leadOn enter made.length f) t' fun _ t'' =>
        Building a goal made (news ++ a.ahead now (f.toList.map fun f => Site.entry f.target))
          { st with otherwise := f.map fun f => { f with target := a.entry f.target } } t t'' := by
  cases f with
  | none =>
    have hsame : { st with otherwise := none } = st := by rw [← hnone]
    rw [Option.toList_none, List.map_nil, Assembly.ahead_nil, List.append_nil, Option.map_none,
      hsame]
    exact .of_ok rfl h
  | some f =>
    refine Yields.andThen (henter f.target now t' hbase (hnow ▸ h.counted) (hnow ▸ h.referred)
      hsites) ?_
    rintro _ t₁ ⟨rfl, hadvanced⟩
    have hbuilding := h.advance hnow hadvanced
    exact .of_ok (setOtherwise_eq hbuilding.here) (hbuilding.put rfl)

end Enters

end ByteMachine.Translator
