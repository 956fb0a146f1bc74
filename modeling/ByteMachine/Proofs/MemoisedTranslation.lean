import ByteMachine.Proofs.TranslatedNodes

/-! # The memoised translation makes the assembly

The states of an assembly are numbered by a walk over sites, and its memo is read off that
numbering.  A translation knows nothing of sites: it numbers states as it makes them and looks nodes
up in a memo that it fills on the way.  Both come to the same.

A node that was entered is found in the memo and makes no site.  Another one is translated, and
while this is done fewer nodes are left to be entered (`unentered_entry_lt`), so a translation that
may go deeper than there are nodes never stops for want of depth (`enters_translate`).  From the
start it makes all sites of the assembly, and it stops at the first of them that has a defect
(`translation_of_defect`).  If there is none, it ends with the machine of the assembly, state by
state, and with its memo (`translation_of_no_defect`).  So a blueprint is compiled exactly as this
translation says (`complete_eq_translation`), and the memo that is left at the end mirrors the
blueprint in the machine (`faithful_translation`). -/
namespace ByteMachine.Translator

/-! ## Looking up and entering -/

section Translate
variable {a : Assembly} {base made : List Site} {root n : Nat} {t : Translator}

/-- The number of nodes that have not been entered. -/
def unentered (a : Assembly) (made : List Site) : Nat :=
  ((Finset.range a.blueprint.nodes.size).filter fun n => Site.entry n ∉ made).card

theorem unentered_le (a : Assembly) (made : List Site) :
    unentered a made ≤ a.blueprint.nodes.size := by
  refine (Finset.card_filter_le _ _).trans ?_
  rw [Finset.card_range]

/-- Entering a node leaves fewer. -/
theorem unentered_entry_lt (hn : n < a.blueprint.nodes.size) (hnew : Site.entry n ∉ made)
    (hbase : base ⊆ made) : unentered a (made ++ [Site.entry n]) < unentered a base := by
  refine Finset.card_lt_card (Finset.ssubset_iff_of_subset ?_ |>.mpr ⟨n, ?_, ?_⟩)
  · intro m hm
    rw [Finset.mem_filter] at hm ⊢
    exact ⟨hm.1, fun hmem => hm.2 (List.mem_append_left _ (hbase hmem))⟩
  · rw [Finset.mem_filter, Finset.mem_range]
    exact ⟨hn, fun hmem => hnew (hbase hmem)⟩
  · simp

variable {b : Blueprint} {options : Options} {groups : List (List Nat)} {depth : Nat}

theorem translate_of_lookup_eq_some {i : Nat} (h : t.memo.lookup n = some i) :
    translate b options groups depth n t = .ok (i, t) := by
  unfold translate
  rw [bind_get, h]
  rfl

theorem translate_of_lookup_eq_none (h : t.memo.lookup n = none) :
    translate b options groups (depth + 1) n t =
      visit (translate b options groups depth) b options groups n t := by
  rw [translate, bind_get, h]

/-- **The memoised translation enters nodes correctly** when it may go deeper than there are nodes
left. -/
theorem enters_translate (h : a.Rooted root) (hdepth : unentered a base < depth) :
    Enters a a.finished (translate a.blueprint a.options a.groups depth) base := by
  induction depth generalizing base with
  | zero => omega
  | succ depth ih =>
    intro n made t hbase hcounted hreferred hsites
    by_cases hn : Site.entry n ∈ made
    -- the memo has the node, and nothing is made
    · have hlookup : t.memo.lookup n = some (a.entry n) := by
        have hmade : made <+: a.sites := (List.prefix_append _ _).trans hsites
        rw [hcounted.memo, Assembly.memo?_upTo, if_pos hn, Assembly.idxOf_eq_position hmade hn]
        rfl
      rw [Assembly.ahead_of_mem hn]
      refine .of_ok (translate_of_lookup_eq_some hlookup) ⟨rfl, ?_⟩
      refine ⟨?_, ?_, fun _ _ => rfl, fun k hk hk' => ?_⟩
      · rw [List.append_nil]
        exact hcounted
      · rw [List.append_nil]
        exact hreferred
      · rw [List.append_nil] at hk'
        omega
    · have hlookup : t.memo.lookup n = none := by
        rw [hcounted.memo, Assembly.memo?_upTo, if_neg hn]
      refine Yields.of_eq (translate_of_lookup_eq_none hlookup) ?_
      cases hnode : a.blueprint.nodes[n]? with
      | none =>
        refine yields_of_missing h hnode hn ?_
        rw [visit, hnode]
        rfl
      | some node =>
        -- while the node is translated there is one node less that may be under way
        have hlt := (Array.getElem?_eq_some_iff.mp hnode).1
        have hless := unentered_entry_lt hlt hn hbase
        exact Enters.visit h hnode (ih (by omega)) hn hcounted hreferred hsites

end Translate

/-! ## Places for spans -/

/-- **A step uses some callbacks** in order and changes nothing else.  Its answer can be read off the
callbacks that it leaves, whatever follows them. -/
def Uses {β : Type} (x : Translation β) (cs : List (Callback (Option Bool)))
    (answer : List (Callback Bool) → β) : Prop :=
  ∀ (stem : String) (xs : List (Callback Bool)) (t : Translator), Named stem xs t →
    ∃ r ds names, x t = .ok (r, t.withCallbacks ds names) ∧
      Named stem (xs ++ cs.map Callback.resolve) (t.withCallbacks ds names) ∧
      t.machine.callbacks.toList <+: ds.toList ∧ ∀ es, ds.toList <+: es → r = answer es

theorem uses_useCallback (c : Callback (Option Bool)) :
    Uses (useCallback c) [c] fun es => Assembly.callbackIndex es c := by
  intro stem xs t h
  obtain ⟨ds, names, huse, hnamed, hkey, hds⟩ := h.useCallback c
  refine ⟨_, ds, names, huse, hnamed, hds, fun es hes => ?_⟩
  exact (Assembly.callbackIndex_of_known hes hkey).symm

/-- Steps that follow each other use their callbacks one after the other. -/
theorem Uses.mapM {α β : Type} {f : α → Translation β} {cs : α → List (Callback (Option Bool))}
    {answer : α → List (Callback Bool) → β} (h : ∀ x, Uses (f x) (cs x) (answer x))
    (xs : List α) : Uses (xs.mapM f) (xs.flatMap cs) fun es => xs.map fun x => answer x es := by
  induction xs with
  | nil =>
    intro stem used t hnamed
    refine ⟨[], t.machine.callbacks, t.callbackNames, rfl, ?_, List.prefix_refl _, fun _ _ => rfl⟩
    rw [List.flatMap_nil, List.map_nil, List.append_nil]
    exact hnamed
  | cons x xs ih =>
    intro stem used t hnamed
    obtain ⟨r, ds₁, names₁, hfirst, hnamed₁, hds₁, hr⟩ := h x stem used t hnamed
    obtain ⟨rs, ds, names, hrest, hnamed₂, hds, hrs⟩ := ih stem _ _ hnamed₁
    refine ⟨r :: rs, ds, names, ?_, ?_, hds₁.trans hds, fun es hes => ?_⟩
    · rw [List.mapM_cons, bind_of_ok hfirst, bind_of_ok hrest]
      rfl
    · rw [List.flatMap_cons, List.map_append, ← List.append_assoc]
      exact hnamed₂
    · rw [hr es (hds.trans hes), hrs es hes]
      rfl

/-- The spans of each place have their callbacks used in order. -/
theorem uses_assignPlaces (b : Blueprint) (groups : List (List Nat)) :
    Uses (assignPlaces b groups) (groups.flatMap fun group => group.filterMap b.spanCallback?)
      fun es => groups.map fun group =>
        (group.filterMap b.spanCallback?).map (Assembly.callbackIndex es) := by
  refine Uses.mapM (fun group => ?_) groups
  have hgroup := Uses.mapM uses_useCallback (group.filterMap b.spanCallback?)
  rwa [List.flatMap_singleton'] at hgroup

/-! ## The whole translation -/

/-- Nothing is made when only the spans have their places. -/
theorem exists_started (a : Assembly) :
    ∃ places t, assignPlaces a.blueprint a.groups (start a.stem) = .ok (places, t) ∧
      Counted a [] t ∧ Referred a [] t ∧
      ∀ es, t.machine.callbacks.toList <+: es → places = a.places es := by
  have hnamed : Named a.stem [] (start a.stem) := ⟨rfl, rfl⟩
  obtain ⟨places, ds, names, hrun, hnamed, -, hplaces⟩ :=
    uses_assignPlaces a.blueprint a.groups a.stem [] (start a.stem) hnamed
  refine ⟨places, _, hrun, ⟨rfl, rfl, fun _ => rfl⟩, ⟨?_, rfl⟩, hplaces⟩
  rw [List.nil_append] at hnamed
  have hdeclared : (a.upTo []).declared =
      a.groups.flatMap fun group => group.filterMap a.blueprint.spanCallback? := by
    refine (List.append_nil _).trans ?_
    rw [List.flatMap_def]
    exact List.filterMap_flatten
  rw [hdeclared]
  exact hnamed

/-- When all sites are made, the machine is that of the assembly. -/
theorem Advanced.machine_eq {a : Assembly} {t t' : Translator}
    (h : Advanced a a.finished [] a.sites t t') : t'.machine = a.machine := by
  have hstates : t'.machine.states = a.machine.states := by
    apply Array.ext_getElem?
    intro k
    by_cases hk : k < a.sites.length
    · exact h.filled k (Nat.zero_le k) hk
    · have hsize : t'.machine.states.size = a.sites.length := h.counted.size
      rw [Array.getElem?_eq_none (by omega), Array.getElem?_eq_none (by rw [a.size_states]; omega)]
  have hcallbacks : t'.machine.callbacks = a.machine.callbacks :=
    congrArg List.toArray h.referred.named.callbacks
  have htransforms : t'.machine.transforms = a.machine.transforms :=
    congrArg List.toArray h.referred.transforms
  calc t'.machine
      = ⟨t'.machine.states, t'.machine.callbacks, t'.machine.transforms⟩ := rfl
    _ = a.machine := by rw [hstates, hcallbacks, htransforms]

/-- **The translation comes to the assembly**: it finds the first defect, and otherwise makes the
machine of the assembly with its numbering, and its memo says where each node is entered. -/
theorem yields_translation {a : Assembly} {root : Nat} (h : a.Rooted root) :
    Yields a a.sites (translation a.blueprint a.options a.groups root) (start a.stem) fun r t =>
      r = (a.places a.callbacks, a.entry root) ∧ t.machine = a.machine ∧
        ∀ n, t.memo.lookup n = a.memo? n := by
  obtain ⟨places, t, hplaces, hcounted, hreferred, hindex⟩ := exists_started a
  have hsites : a.ahead [] [Site.entry root] = a.sites := h.sites.symm
  have henters := enters_translate h (Nat.lt_succ_of_le (unentered_le a []))
  have hroot := henters root [] t (List.Subset.refl _) hcounted hreferred
    (by rw [List.nil_append, hsites])
  rw [hsites] at hroot
  refine Yields.after_ok hplaces (Yields.andThen hroot ?_)
  rintro _ t' ⟨rfl, hadvanced⟩
  refine .of_ok rfl ⟨?_, hadvanced.machine_eq, hadvanced.counted.memo⟩
  have hbegin : t.machine.callbacks.toList <+: a.callbacks := by
    rw [hreferred.named.callbacks]
    exact Assembly.prefix_callbacks List.nil_prefix
  rw [hindex a.callbacks hbegin]

section Result
variable {b : Blueprint} {options : Options} {groups : List (List Nat)} {stem : String}
  {root : Nat}

/-- **A translation stops at the first defect** of the assembly. -/
theorem translation_of_defect {e : CompileError}
    (h : (b.assembly options groups stem root).defect? = some e) :
    translation b options groups root (start stem) = .error e := by
  have hrooted : (b.assembly options groups stem root).Rooted root := ⟨rfl, rfl⟩
  have hyields := yields_translation hrooted
  unfold Yields at hyields
  rw [show List.findSome? _ _ = some e from h] at hyields
  exact hyields

/-- **A translation that meets no defect makes the machine of the assembly**: its states have the
numbers that the sites have, and its memo says where each node is entered. -/
theorem translation_of_no_defect (h : (b.assembly options groups stem root).defect? = none) :
    ∃ t, translation b options groups root (start stem) =
        .ok (((b.assembly options groups stem root).places
            (b.assembly options groups stem root).callbacks,
          (b.assembly options groups stem root).entry root), t) ∧
      t.machine = (b.assembly options groups stem root).machine ∧
      ∀ n, t.memo.lookup n = (b.assembly options groups stem root).memo? n := by
  have hrooted : (b.assembly options groups stem root).Rooted root := ⟨rfl, rfl⟩
  have hyields := yields_translation hrooted
  unfold Yields at hyields
  rw [show List.findSome? _ _ = none from h] at hyields
  obtain ⟨r, t, hrun, rfl, hmachine, hmemo⟩ := hyields
  exact ⟨t, hrun, hmachine, hmemo⟩

/-- The nodes of a small blueprint in the order in which they are entered, the last one first. -/
example :
    (translation (Blueprint.run {} Blueprint.requestCalls) {} [[0]] 0 (start "parser")).map
        (fun r => r.2.memo) =
      .ok [(5, 7), (4, 6), (3, 5), (2, 4), (1, 3), (0, 0)] := by
  cbv

/-- **Compilation is the memoised translation** of a sound blueprint. -/
theorem complete_eq_translation (hb : b.Sound) :
    (b.assembly options groups stem root).complete =
      (translation b options groups root (start stem)).map fun r => r.2.machine := by
  cases hdefect : (b.assembly options groups stem root).defect? with
  | some e =>
    rw [translation_of_defect hdefect, Assembly.complete, hdefect]
    rfl
  | none =>
    obtain ⟨t, hrun, hmachine, -⟩ := translation_of_no_defect hdefect
    rw [hrun, (Blueprint.complete_eq_ok_iff hb).mpr
      ⟨(Blueprint.defect?_assembly_eq_none_iff hb).mp hdefect, hmachine⟩]
    rfl

/-- **The memo that a translation leaves mirrors the blueprint** in the machine that it makes. -/
theorem faithful_translation (hb : b.Sound) {r : (List (List Nat) × Nat) × Translator}
    (h : translation b options groups root (start stem) = .ok r) :
    Mirror.Faithful b groups root r.2.machine (fun n => r.2.memo.lookup n)
      (b.assembly options groups stem root).expansion := by
  cases hdefect : (b.assembly options groups stem root).defect? with
  | some e =>
    rw [translation_of_defect hdefect] at h
    cases h
  | none =>
    obtain ⟨t, hrun, hmachine, hmemo⟩ := translation_of_no_defect hdefect
    rw [hrun] at h
    cases h
    have hflawless := (Blueprint.defect?_assembly_eq_none_iff hb).mp hdefect
    rw [hmachine, show (fun n => t.memo.lookup n) = _ from funext hmemo]
    exact (hflawless.regular hb options stem).faithful

end Result

end ByteMachine.Translator
