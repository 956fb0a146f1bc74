import ByteMachine.Blueprint.Build

/-! # The rules of a blueprint

Whatever calls are made, refused ones included, the blueprint obeys the rules of its
graph (`Sound`, `sound_run`): the keys of a node differ, a node carries only edges
that belong to its kind, an error node goes nowhere, and the callbacks and spans
that nodes refer to exist.  Only the targets of edges are free, since a handle may
be used before its node exists.

`Change` says once what a call can do to a blueprint, and every rule is checked
against it. -/
namespace ByteMachine.Blueprint

/-! ## The rules -/

/-- The edges that belong to a kind of node.  A matching node leaves a byte only
behind a key of one byte, and passes no value along then. -/
def Kind.Admits : Kind → Edge → Prop
  | .matching _, e => ∃ bs, e.key = .bytes bs ∧ bs ≠ [] ∧
      (e.stay = true → bs.length = 1 ∧ e.value = none)
  | .invoke _, e => ∃ c, e.key = .code c ∧ e.stay = true ∧ e.value = none
  | _, _ => False

/-- The callback or span of the kind exists. -/
def Kind.Known (b : Blueprint) : Kind → Prop
  | .invoke c => c < b.callbacks.size
  | .spanStart s | .spanEnd s => s < b.spans.size
  | _ => True

/-- The rules for one node. -/
structure Node.Sound (node : Node) : Prop where
  distinct : (node.edges.map (·.key)).Nodup
  admitted : ∀ e ∈ node.edges, node.kind.Admits e
  terminal : node.isError = true → node.otherwise = none

/-- The rules of a blueprint. -/
structure Sound (b : Blueprint) : Prop where
  node : ∀ {n : Nat} {node : Node}, b.nodes[n]? = some node → node.Sound
  known : ∀ {n : Nat} {node : Node}, b.nodes[n]? = some node → node.kind.Known b
  span : ∀ {s c : Nat}, b.spans[s]? = some c →
    ∃ f, b.callbacks[c]? = some f ∧ f.signature = .span

/-! ## What a call can do -/

/-- What a call can do to a node that exists. -/
inductive Node.Edit (node : Node) : Node → Prop
  | edge {transform : Option String} {bs : List UInt8} {stay : Bool} {target : Nat}
      {value : Option Int} (hkind : node.kind = .matching transform) (hbs : bs ≠ [])
      (hstay : stay = true → bs.length = 1 ∧ value = none)
      (hnew : Key.bytes bs ∉ node.edges.map (·.key)) :
      Edit node { node with edges := node.edges ++ [⟨.bytes bs, stay, target, value⟩] }
  | otherwise {target : Nat} {stay : Bool} (hkind : node.isError = false)
      (hnone : node.otherwise = none) :
      Edit node { node with otherwise := some ⟨target, stay⟩ }
  | transform {old : Option String} {word : String} (hkind : node.kind = .matching old) :
      Edit node { node with kind := .matching (some word) }

/-- What a call can do to a blueprint. -/
inductive Change (b : Blueprint) : Blueprint → Prop
  | refused : Change b b
  | node {node : Node} (hsound : node.Sound) (hknown : node.kind.Known b) :
      Change b (b.addNode node)
  | edit {n : Nat} {node node' : Node} (hn : b.nodes[n]? = some node) (h : node.Edit node') :
      Change b { b with nodes := b.nodes.setIfInBounds n node' }
  | callback (f : Callback (Option Bool)) : Change b { b with callbacks := b.callbacks.push f }
  | span {c : Nat} {f : Callback (Option Bool)} (hc : b.callbacks[c]? = some f)
      (hf : f.signature = .span) : Change b { b with spans := b.spans.push c }
  | property (p : Property) : Change b { b with properties := b.properties.push p }

section Calls
variable {b : Blueprint}

/-- A node without edges obeys the rules. -/
theorem Node.sound_new (name : String) (kind : Kind) : Node.Sound { name, kind } :=
  ⟨List.nodup_nil, fun _ h => absurd h List.not_mem_nil, fun _ => rfl⟩

theorem nodup_map_key_append {edges : List Edge} {e : Edge} (h : (edges.map (·.key)).Nodup)
    (hnew : e.key ∉ edges.map (·.key)) : ((edges ++ [e]).map (·.key)).Nodup := by
  rw [List.map_append, List.nodup_append]
  refine ⟨h, by simp, ?_⟩
  intro k hk k' hk' heq
  rw [heq, List.mem_singleton.mp hk'] at hk
  exact hnew hk

/-- An edge that belongs to the kind and has a new key may be added. -/
theorem Node.Sound.append {node : Node} (hs : node.Sound) {e : Edge}
    (hnew : e.key ∉ node.edges.map (·.key)) (he : node.kind.Admits e) :
    Node.Sound { node with edges := node.edges ++ [e] } := by
  refine ⟨nodup_map_key_append hs.distinct hnew, fun e' he' => ?_, hs.terminal⟩
  rcases List.mem_append.mp he' with he' | he'
  · exact hs.admitted e' he'
  · exact List.mem_singleton.mp he' ▸ he

theorem Node.edit_of_addBytes {node node' : Node} {bs : List UInt8} {stay : Bool} {target : Nat}
    {value : Option Int} (hstay : stay = true → bs.length = 1 ∧ value = none)
    (h : node.addBytes bs stay target value = .ok node') : node.Edit node' := by
  unfold addBytes addEdge at h
  split at h
  · rename_i transform hkind
    split at h
    · cases h
    · rename_i hbs
      split at h
      · cases h
      · rename_i hnew
        cases h
        exact .edge hkind hbs hstay hnew
  · cases h

theorem Node.edit_of_setOtherwise {node node' : Node} {target : Nat} {stay : Bool}
    (h : node.setOtherwise target stay = .ok node') : node.Edit node' := by
  unfold setOtherwise at h
  split at h
  · cases h
  · rename_i herror
    split at h
    · cases h
    · rename_i hsome
      cases h
      exact .otherwise (by simpa using herror) (by simpa using hsome)

theorem Node.edit_of_setTransform {node node' : Node} {word : String}
    (h : node.setTransform word = .ok node') : node.Edit node' := by
  unfold setTransform at h
  split at h
  · cases h
    exact .transform ‹_›
  · cases h

/-- The edge for a returned code. -/
def returnEdge (r : Int × Nat) : Edge := ⟨.code r.1, true, r.2, none⟩

/-- **Edges for returned codes are added up to the first code that is taken**, and all of them
if there is none. -/
theorem Node.addReturns_cases {node : Node} (hdistinct : (node.edges.map (·.key)).Nodup)
    (returns : List (Int × Nat)) :
    ∃ front rest, returns = front ++ rest ∧
      ((node.edges ++ front.map returnEdge).map (·.key)).Nodup ∧
      (node.addReturns returns).1 = { node with edges := node.edges ++ front.map returnEdge } ∧
      (rest = [] ∧ (node.addReturns returns).2 = .ok () ∨
        ∃ r rest', rest = r :: rest' ∧
          Key.code r.1 ∈ (node.edges ++ front.map returnEdge).map (·.key) ∧
          (node.addReturns returns).2 = .error (.duplicateKey node.name (.code r.1))) := by
  induction returns generalizing node with
  | nil => exact ⟨[], [], rfl, by simpa using hdistinct, by simp [addReturns], .inl ⟨rfl, rfl⟩⟩
  | cons r returns ih =>
    by_cases htaken : Key.code r.1 ∈ node.edges.map (·.key)
    · have hstop : node.addReturns (r :: returns) =
          (node, .error (.duplicateKey node.name (.code r.1))) := by
        rw [addReturns, addEdge, if_pos htaken]
      refine ⟨[], r :: returns, rfl, by simpa using hdistinct, by simp [hstop], .inr ?_⟩
      exact ⟨r, returns, rfl, by simpa using htaken, by rw [hstop]⟩
    · have hstep : node.addReturns (r :: returns) =
          Node.addReturns { node with edges := node.edges ++ [returnEdge r] } returns := by
        rw [addReturns, addEdge, if_neg htaken]
        rfl
      obtain ⟨front, rest, rfl, hfront, hedges, hend⟩ :=
        @ih { node with edges := node.edges ++ [returnEdge r] }
          (nodup_map_key_append hdistinct htaken)
      have hjoin : node.edges ++ [returnEdge r] ++ front.map returnEdge =
          node.edges ++ (r :: front).map returnEdge := by simp
      rw [hstep]
      rw [hjoin] at hfront hedges hend
      exact ⟨r :: front, rest, rfl, hfront, hedges, hend⟩

/-- Adding edges for returned codes keeps the rules, wherever it stops. -/
theorem Node.sound_addReturns {node : Node} {c : Nat} (hs : node.Sound)
    (hkind : node.kind = .invoke c) (returns : List (Int × Nat)) :
    (node.addReturns returns).1.Sound ∧ (node.addReturns returns).1.kind = .invoke c := by
  obtain ⟨front, -, -, hfront, hedges, -⟩ := Node.addReturns_cases hs.distinct returns
  rw [hedges]
  refine ⟨⟨hfront, fun e he => ?_, hs.terminal⟩, hkind⟩
  rcases List.mem_append.mp he with he | he
  · exact hs.admitted e he
  · obtain ⟨r, -, rfl⟩ := List.mem_map.mp he
    rw [hkind]
    exact ⟨r.1, rfl, rfl, rfl⟩

/-! What a call that is not refused has done. -/

theorem updateNode_eq_ok {n : Nat} {f : Node → Except BuildError Node} {after : Blueprint}
    (h : b.updateNode n f = .ok after) :
    ∃ node node', b.nodes[n]? = some node ∧ f node = .ok node' ∧
      after = { b with nodes := b.nodes.setIfInBounds n node' } := by
  unfold updateNode at h
  split at h
  · rename_i node hn
    cases hr : f node with
    | error e =>
      rw [hr] at h
      cases h
    | ok node' =>
      rw [hr] at h
      exact ⟨node, node', hn, hr, (Except.ok.inj h).symm⟩
  · cases h

theorem addSpanNode_eq_ok {leading : String} {kind : Kind} {span : Nat} {after : Blueprint}
    (h : b.addSpanNode leading kind span = .ok after) :
    ∃ f, b.spanCallback? span = some f ∧ after = b.addNode { name := leading ++ f.name, kind } := by
  unfold addSpanNode at h
  split at h
  · rename_i f hf
    exact ⟨f, hf, (Except.ok.inj h).symm⟩
  · cases h

theorem addSpan_eq_ok {c : Nat} {after : Blueprint} (h : b.addSpan c = .ok after) :
    ∃ f, b.callbacks[c]? = some f ∧ f.signature = .span ∧
      after = { b with spans := b.spans.push c } := by
  unfold addSpan at h
  split at h
  · rename_i f hc
    split at h
    · rename_i hf
      exact ⟨f, hc, hf, (Except.ok.inj h).symm⟩
    · cases h
  · cases h

/-- A call that may be refused changes something only when it is not. -/
theorem change_attempt {added : Added} {r : Except BuildError Blueprint}
    (h : ∀ after, r = .ok after → b.Change after) : b.Change (b.attempt added r).1 := by
  cases r with
  | error e => exact .refused
  | ok after => exact h after rfl

theorem change_attempt_updateNode {n : Nat} {added : Added} {f : Node → Except BuildError Node}
    (hf : ∀ node node', f node = .ok node' → node.Edit node') :
    b.Change (b.attempt added (b.updateNode n f)).1 := by
  refine change_attempt fun after h => ?_
  obtain ⟨node, node', hn, hr, rfl⟩ := updateNode_eq_ok h
  exact .edit hn (hf node node' hr)

theorem change_attempt_addSpanNode {added : Added} {leading : String} {kind : Kind} {span : Nat}
    (hkind : span < b.spans.size → kind.Known b) :
    b.Change (b.attempt added (b.addSpanNode leading kind span)).1 := by
  refine change_attempt fun after h => ?_
  obtain ⟨f, hf, rfl⟩ := addSpanNode_eq_ok h
  obtain ⟨c, hc, -⟩ := Option.bind_eq_some_iff.mp hf
  exact .node (Node.sound_new _ _) (hkind (Array.getElem?_eq_some_iff.mp hc).1)

theorem change_attempt_addSpan {added : Added} {c : Nat} :
    b.Change (b.attempt added (b.addSpan c)).1 := by
  refine change_attempt fun after h => ?_
  obtain ⟨f, hc, hf, rfl⟩ := addSpan_eq_ok h
  exact .span hc hf

theorem change_addInvoke {c : Nat} {returns : List (Int × Nat)} :
    b.Change (b.addInvoke c returns).1 := by
  unfold addInvoke
  cases hc : b.callbacks[c]? with
  | none => exact .refused
  | some f =>
    obtain ⟨hsound, hkind⟩ :=
      Node.sound_addReturns (Node.sound_new ("invoke_" ++ f.name) (.invoke c)) rfl returns
    refine .node hsound ?_
    rw [hkind]
    exact (Array.getElem?_eq_some_iff.mp hc).1

/-- **Every call is one of these changes.** -/
theorem change_call (b : Blueprint) (call : Call) : b.Change (b.call call).1 := by
  cases call with
  | matchNode name => exact .node (Node.sound_new _ _) trivial
  | errorNode code reason => exact .node (Node.sound_new _ _) trivial
  | pauseNode code reason => exact .node (Node.sound_new _ _) trivial
  | consumeNode field => exact .node (Node.sound_new _ _) trivial
  | invokeNode c returns => exact change_addInvoke
  | spanStartNode span => exact change_attempt_addSpanNode id
  | spanEndNode span => exact change_attempt_addSpanNode id
  | callback f => exact .callback f
  | span c => exact change_attempt_addSpan
  | property p => exact .property p
  | matchBytes n key target =>
    exact change_attempt_updateNode fun _ _ => Node.edit_of_addBytes (by simp)
  | peek n byte target =>
    exact change_attempt_updateNode fun _ _ => Node.edit_of_addBytes (by simp)
  | select n key value target =>
    exact change_attempt_updateNode fun _ _ => Node.edit_of_addBytes (by simp)
  | otherwise n target =>
    exact change_attempt_updateNode fun _ _ => Node.edit_of_setOtherwise
  | skipTo n target =>
    exact change_attempt_updateNode fun _ _ => Node.edit_of_setOtherwise
  | setTransform n word =>
    exact change_attempt_updateNode fun _ _ => Node.edit_of_setTransform

end Calls

/-! ## The rules are kept -/

theorem Node.Edit.sound {node node' : Node} (h : node.Edit node') (hs : node.Sound) :
    node'.Sound := by
  cases h with
  | @edge _ bs stay target value hkind hbs hstay hnew =>
    refine hs.append hnew ?_
    rw [hkind]
    exact ⟨bs, rfl, hbs, hstay⟩
  | otherwise hkind hnone =>
    refine ⟨hs.distinct, hs.admitted, fun he => ?_⟩
    rw [show node.isError = true from he] at hkind
    cases hkind
  | transform hkind =>
    refine ⟨hs.distinct, fun e he => ?_, fun he => by cases he⟩
    have := hs.admitted e he
    rw [hkind] at this
    exact this

theorem Node.Edit.known {b : Blueprint} {node node' : Node} (h : node.Edit node')
    (hk : node.kind.Known b) : node'.kind.Known b := by
  cases h with
  | edge => exact hk
  | otherwise => exact hk
  | transform => trivial

/-- What exists still exists when there are more callbacks or spans. -/
theorem Kind.Known.mono {b b' : Blueprint} {kind : Kind} (h : kind.Known b)
    (hc : b.callbacks.size ≤ b'.callbacks.size) (hs : b.spans.size ≤ b'.spans.size) :
    kind.Known b' := by
  cases kind with
  | invoke c => exact Nat.lt_of_lt_of_le h hc
  | spanStart s => exact Nat.lt_of_lt_of_le h hs
  | spanEnd s => exact Nat.lt_of_lt_of_le h hs
  | _ => trivial

theorem sound_empty : Sound {} :=
  ⟨fun h => by simp at h, fun h => by simp at h, fun h => by simp at h⟩

/-- **A change keeps the rules.** -/
theorem Change.sound {b b' : Blueprint} (h : b.Change b') (hb : b.Sound) : b'.Sound := by
  cases h with
  | refused => exact hb
  | @node new hsound hknown =>
    -- a handle names the new node or a node from before
    have hcases : ∀ {n : Nat} {node : Node}, (b.addNode new).nodes[n]? = some node →
        node = new ∨ b.nodes[n]? = some node := by
      intro n node hn
      unfold addNode at hn
      rw [Array.getElem?_push] at hn
      split at hn
      · exact Or.inl (Option.some.inj hn).symm
      · exact Or.inr hn
    refine ⟨fun hn => ?_, fun hn => ?_, hb.span⟩
    · rcases hcases hn with rfl | hn
      · exact hsound
      · exact hb.node hn
    · rcases hcases hn with rfl | hn
      · exact hknown.mono (Nat.le_refl _) (Nat.le_refl _)
      · exact (hb.known hn).mono (Nat.le_refl _) (Nat.le_refl _)
  | @edit n old new hold hedit =>
    have hcases : ∀ {i : Nat} {node : Node}, (b.nodes.setIfInBounds n new)[i]? = some node →
        node = new ∨ b.nodes[i]? = some node := by
      intro i node hi
      rw [Array.getElem?_setIfInBounds] at hi
      split at hi
      · split at hi
        · exact Or.inl (Option.some.inj hi).symm
        · cases hi
      · exact Or.inr hi
    refine ⟨fun hi => ?_, fun hi => ?_, hb.span⟩
    · rcases hcases hi with rfl | hi
      · exact hedit.sound (hb.node hold)
      · exact hb.node hi
    · rcases hcases hi with rfl | hi
      · exact (hedit.known (hb.known hold)).mono (Nat.le_refl _) (Nat.le_refl _)
      · exact (hb.known hi).mono (Nat.le_refl _) (Nat.le_refl _)
  | callback f =>
    refine ⟨hb.node, fun hn => (hb.known hn).mono (by simp) (Nat.le_refl _), fun hs => ?_⟩
    obtain ⟨g, hg, hspan⟩ := hb.span hs
    refine ⟨g, ?_, hspan⟩
    obtain ⟨hlt, rfl⟩ := Array.getElem?_eq_some_iff.mp hg
    exact Array.getElem?_push_lt hlt
  | @span c f hc hf =>
    refine ⟨hb.node, fun hn => (hb.known hn).mono (Nat.le_refl _) (by simp), fun {s c'} hs => ?_⟩
    rw [Array.getElem?_push] at hs
    split at hs
    · obtain rfl := Option.some.inj hs
      exact ⟨f, hc, hf⟩
    · exact hb.span hs
  | property p =>
    exact ⟨hb.node, fun hn => (hb.known hn).mono (Nat.le_refl _) (Nat.le_refl _), hb.span⟩

theorem Sound.run {b : Blueprint} (hb : b.Sound) (calls : List Call) : (b.run calls).Sound := by
  induction calls generalizing b with
  | nil => exact hb
  | cons c calls ih => exact ih ((change_call b c).sound hb)

/-- **The rules hold of every blueprint that is built call by call.** -/
theorem sound_run (calls : List Call) : (run {} calls).Sound := sound_empty.run calls

/-- **What a user may rely on** after any calls, whether they were refused or not: keys differ,
a node carries only edges that belong to its kind, an error goes nowhere, and what nodes and
spans refer to exists. -/
theorem rules_run (calls : List Call) :
    (∀ (n : Nat) (node : Node), (run {} calls).nodes[n]? = some node →
      (node.edges.map (·.key)).Nodup ∧
      (∀ word, node.kind = .matching word → ∀ e ∈ node.edges, ∃ bs, e.key = .bytes bs ∧ bs ≠ [] ∧
        (e.stay = true → bs.length = 1 ∧ e.value = none)) ∧
      (∀ c, node.kind = .invoke c → c < (run {} calls).callbacks.size ∧
        ∀ e ∈ node.edges, ∃ code, e.key = .code code ∧ e.stay = true ∧ e.value = none) ∧
      ((∀ word, node.kind ≠ .matching word) → (∀ c, node.kind ≠ .invoke c) → node.edges = []) ∧
      (∀ code reason, node.kind = .error code reason → node.otherwise = none) ∧
      ∀ s, node.kind = .spanStart s ∨ node.kind = .spanEnd s → s < (run {} calls).spans.size) ∧
    ∀ s c : Nat, (run {} calls).spans[s]? = some c →
      ∃ f, (run {} calls).callbacks[c]? = some f ∧ f.signature = .span := by
  have hb := sound_run calls
  generalize run {} calls = b at hb ⊢
  refine ⟨fun n node hn => ?_, fun s c => hb.span⟩
  obtain ⟨hdistinct, hadmitted, hterminal⟩ := hb.node hn
  have hknown := hb.known hn
  refine ⟨hdistinct, ?matching, ?invoke, ?others, ?error, ?spans⟩
  case matching =>
    intro word hkind e he
    have := hadmitted e he
    rwa [hkind] at this
  case invoke =>
    intro c hkind
    rw [hkind] at hknown
    refine ⟨hknown, fun e he => ?_⟩
    have := hadmitted e he
    rwa [hkind] at this
  case others =>
    intro hmatching hinvoke
    refine List.eq_nil_iff_forall_not_mem.mpr fun e he => ?_
    have hadmits := hadmitted e he
    cases hkind : node.kind with
    | matching word => exact hmatching word hkind
    | invoke c => exact hinvoke c hkind
    | _ =>
      rw [hkind] at hadmits
      exact hadmits
  case error =>
    intro code reason hkind
    exact hterminal (by rw [Node.isError, hkind])
  case spans =>
    rintro s (hkind | hkind)
    · rwa [hkind] at hknown
    · rwa [hkind] at hknown

/-- Calls of which the last seven are refused, the first of these half-way: the node for the
callback is there, with the edges before the repeated code. -/
def refusedCalls : List Call :=
  [.callback ⟨"is_set", .test "flags" 1⟩, .matchNode "start", .errorNode 1 "stop", .peek 0 80 1,
    .invokeNode 0 [(1, 0), (0, 1), (1, 1), (7, 1)], .matchBytes 0 [] 1, .matchBytes 0 [80] 2,
    .otherwise 1 0, .otherwise 9 0, .span 0, .spanStartNode 0]

theorem rules_run_refused :
    ∃ node : Node, (run {} refusedCalls).nodes[2]? = some node ∧ node.kind = .invoke 0 ∧
      node.edges.map (·.key) = [.code 1, .code 0] ∧ 0 < (run {} refusedCalls).callbacks.size ∧
      ∀ e ∈ node.edges, ∃ code, e.key = .code code ∧ e.stay = true ∧ e.value = none := by
  have hn : (run {} refusedCalls).nodes[2]? =
      some ⟨"invoke_is_set", .invoke 0, [⟨.code 1, true, 0, none⟩, ⟨.code 0, true, 1, none⟩],
        none⟩ := by decide +kernel
  exact ⟨_, hn, rfl, rfl, ((rules_run refusedCalls).1 2 _ hn).2.2.1 0 rfl⟩

/-! ## A small blueprint -/

/-- Calls for a parser of requests: it waits for `GET`, passing a value along when only `G`
is there, hands the letters `a` that follow to a callback and starts again when a flag is
set.  Its nodes form a loop, and several lead to the same node. -/
def requestCalls : List Call :=
  [.callback ⟨"on_word", .external .span⟩, .callback ⟨"is_set", .test "flags" 1⟩, .span 0,
    .matchNode "start", .spanStartNode 0, .matchNode "word", .spanEndNode 0, .invokeNode 1 [(1, 0)],
    .errorNode 3 "expected a word", .matchBytes 0 [71, 69, 84] 1, .select 0 [71] 7 4, .peek 0 80 1,
    .otherwise 0 5, .otherwise 1 2, .matchBytes 2 [97] 2, .otherwise 2 3, .otherwise 3 4,
    .skipTo 4 5]

end ByteMachine.Blueprint
