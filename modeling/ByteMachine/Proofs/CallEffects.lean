import ByteMachine.Proofs.Calls
import Mathlib.Data.List.Nodup

/-! # What a call does to a blueprint

A call that is refused leaves the blueprint as it was.  One call can be refused half-way: a
node that invokes a callback is added before its edges, and keeps those before the first code
that is repeated.  A call that is not refused appends one object, whose handle it answers, or
it changes the node that it addresses: by one more edge behind the others, by an otherwise
edge where there was none, or by the transform of a matching node.  `Effect` says so in one
relation, with one case for each of the four.

Therefore a blueprint only **grows**, whatever calls follow (`ExtendsTo`): a handle names the
same node for ever, and what a node says about itself stays true, its transform excepted. -/
namespace ByteMachine.Blueprint

/-! ## One call -/

/-- The node that a call addresses; the other calls add something new. -/
def Call.addressed? : Call → Option Nat
  | .matchBytes n .. | .peek n .. | .select n .. | .otherwise n .. | .skipTo n ..
  | .setTransform n .. => some n
  | _ => none

/-- One object more, at the end of the nodes, callbacks, spans or properties, with the handle
that it gets. -/
inductive Appends (b : Blueprint) : Blueprint → Added → Prop
  | node (node : Node) :
      Appends b { b with nodes := b.nodes.push node } (.node b.nodes.size)
  | callback (f : Callback (Option Bool)) :
      Appends b { b with callbacks := b.callbacks.push f } (.callback b.callbacks.size)
  | span (c : Nat) : Appends b { b with spans := b.spans.push c } (.span b.spans.size)
  | property (p : Property) : Appends b { b with properties := b.properties.push p } .detail

/-- `front` is the longest beginning of `returns` in which no code is repeated. -/
structure LongestDistinct (front returns : List (Int × Nat)) : Prop where
  begins : front <+: returns
  distinct : (front.map (·.1)).Nodup
  longest : ∀ other, other <+: returns → (other.map (·.1)).Nodup → other <+: front

/-- **What a call can do**: the blueprint afterwards, with the answer. -/
inductive Effect (b : Blueprint) : Call → Blueprint → Except BuildError Added → Prop
  | refused {call : Call} {e : BuildError}
      (hwhole : ∀ c returns name key, call = .invokeNode c returns → e ≠ .duplicateKey name key) :
      Effect b call b (.error e)
  | halfway {c : Nat} {f : Callback (Option Bool)} {front rest : List (Int × Nat)} {r : Int × Nat}
      (hc : b.callbacks[c]? = some f) (hfront : (front.map (·.1)).Nodup)
      (hrepeated : r.1 ∈ front.map (·.1)) :
      Effect b (.invokeNode c (front ++ r :: rest))
        { b with
          nodes := b.nodes.push ⟨"invoke_" ++ f.name, .invoke c, front.map returnEdge, none⟩ }
        (.error (.duplicateKey ("invoke_" ++ f.name) (.code r.1)))
  | appended {call : Call} {after : Blueprint} {added : Added} (hcall : call.addressed? = none)
      (h : b.Appends after added) : Effect b call after (.ok added)
  | edited {call : Call} {n : Nat} {node node' : Node} (hcall : call.addressed? = some n)
      (hn : b.nodes[n]? = some node) (h : node.Edit node') :
      Effect b call { b with nodes := b.nodes.setIfInBounds n node' } (.ok .detail)

/-- A beginning without repeated codes is the longest when the code behind it is repeated. -/
theorem longestDistinct_of_repeated {front rest : List (Int × Nat)} {r : Int × Nat}
    (hdistinct : (front.map (·.1)).Nodup) (hr : r.1 ∈ front.map (·.1)) :
    LongestDistinct front (front ++ r :: rest) := by
  refine ⟨List.prefix_append _ _, hdistinct, fun other hother hnodup => ?_⟩
  rcases List.prefix_or_prefix_of_prefix hother (List.prefix_append front (r :: rest)) with
    hshort | ⟨more, rfl⟩
  · exact hshort
  · cases more with
    | nil => simp
    | cons s more =>
      -- the code behind the front is the repeated one
      have hs : s = r := by
        rw [List.prefix_append_right_inj, List.cons_prefix_cons] at hother
        exact hother.1
      rw [List.map_append, List.nodup_append] at hnodup
      exact absurd rfl (hnodup.2.2 _ hr _ (by simp [hs]))

section Calls
variable {b : Blueprint}

/-- A call that may be refused, but not half-way. -/
theorem effect_attempt {call : Call} {added : Added} {r : Except BuildError Blueprint}
    (hcall : ∀ c returns, call ≠ .invokeNode c returns)
    (h : ∀ after, r = .ok after → b.Effect call after (.ok added)) :
    b.Effect call (b.attempt added r).1 (b.attempt added r).2 := by
  cases r with
  | error e => exact .refused fun c returns _ _ heq => absurd heq (hcall c returns)
  | ok after => exact h after rfl

theorem effect_updateNode {call : Call} {n : Nat} {f : Node → Except BuildError Node}
    (hcall : call.addressed? = some n) (hf : ∀ node node', f node = .ok node' → node.Edit node') :
    b.Effect call (b.attempt .detail (b.updateNode n f)).1
      (b.attempt .detail (b.updateNode n f)).2 := by
  refine effect_attempt ?_ fun after h => ?_
  · rintro c returns rfl
    cases hcall
  · obtain ⟨node, node', hn, hr, rfl⟩ := updateNode_eq_ok h
    exact .edited hcall hn (hf node node' hr)

theorem effect_invokeNode {c : Nat} {returns : List (Int × Nat)} :
    b.Effect (.invokeNode c returns) (b.call (.invokeNode c returns)).1
      (b.call (.invokeNode c returns)).2 := by
  cases hc : b.callbacks[c]? with
  | none =>
    simp only [call, addInvoke, hc]
    exact .refused fun _ _ _ _ _ => by simp
  | some f =>
    obtain ⟨front, rest, rfl, hfront, hedges, hend⟩ :=
      @Node.addReturns_cases { name := "invoke_" ++ f.name, kind := .invoke c } List.nodup_nil
        returns
    have hcodes : ((front.map returnEdge).map (·.key)) = (front.map (·.1)).map Key.code := by
      rw [List.map_map, List.map_map]
      rfl
    rw [List.nil_append] at hfront hedges
    rw [hcodes] at hfront
    simp only [call, addInvoke, hc, hedges]
    rcases hend with ⟨rfl, hok⟩ | ⟨r, rest, rfl, htaken, herror⟩
    · rw [hok]
      exact .appended rfl (.node _)
    · rw [herror]
      rw [List.nil_append, hcodes] at htaken
      obtain ⟨code, hcode, heq⟩ := List.mem_map.mp htaken
      obtain rfl := Key.code.inj heq
      exact .halfway hc hfront.of_map hcode

/-- **Every call has one of these effects.** -/
theorem effect_call (b : Blueprint) (call : Call) :
    b.Effect call (b.call call).1 (b.call call).2 := by
  cases call with
  | matchNode name => exact .appended rfl (.node _)
  | errorNode code reason => exact .appended rfl (.node _)
  | pauseNode code reason => exact .appended rfl (.node _)
  | consumeNode field => exact .appended rfl (.node _)
  | invokeNode c returns => exact effect_invokeNode
  | spanStartNode span | spanEndNode span =>
    refine effect_attempt (by simp) fun after h => ?_
    obtain ⟨f, -, rfl⟩ := addSpanNode_eq_ok h
    exact .appended rfl (.node _)
  | callback f => exact .appended rfl (.callback f)
  | span c =>
    refine effect_attempt (by simp) fun after h => ?_
    obtain ⟨f, -, -, rfl⟩ := addSpan_eq_ok h
    exact .appended rfl (.span c)
  | property p => exact .appended rfl (.property p)
  | matchBytes n key target =>
    exact effect_updateNode rfl fun _ _ => Node.edit_of_addBytes (by simp)
  | peek n byte target =>
    exact effect_updateNode rfl fun _ _ => Node.edit_of_addBytes (by simp)
  | select n key value target =>
    exact effect_updateNode rfl fun _ _ => Node.edit_of_addBytes (by simp)
  | otherwise n target => exact effect_updateNode rfl fun _ _ => Node.edit_of_setOtherwise
  | skipTo n target => exact effect_updateNode rfl fun _ _ => Node.edit_of_setOtherwise
  | setTransform n word => exact effect_updateNode rfl fun _ _ => Node.edit_of_setTransform

end Calls

/-! ## Any number of calls -/

/-- The handles of callbacks, spans and properties name what they named before. -/
structure KeepsOthers (b b' : Blueprint) : Prop where
  callback : ∀ (c : Nat) (f : Callback (Option Bool)),
    b.callbacks[c]? = some f → b'.callbacks[c]? = some f
  span : ∀ s c : Nat, b.spans[s]? = some c → b'.spans[s]? = some c
  property : ∀ (i : Nat) (p : Property), b.properties[i]? = some p → b'.properties[i]? = some p

/-- All handles name what they named before. -/
structure Keeps (b b' : Blueprint) : Prop extends KeepsOthers b b' where
  node : ∀ (n : Nat) (node : Node), b.nodes[n]? = some node → b'.nodes[n]? = some node

/-- The kind of a node apart from its transform. -/
def Kind.bare : Kind → Kind
  | .matching _ => .matching none
  | kind => kind

/-- A node says all that it said before, its transform excepted: new edges stand behind the
old ones. -/
structure Node.ExtendsTo (node node' : Node) : Prop where
  name : node'.name = node.name
  kind : node'.kind.bare = node.kind.bare
  edges : node.edges <+: node'.edges
  otherwise : ∀ o, node.otherwise = some o → node'.otherwise = some o

/-- Nodes grow, and everything else stays. -/
structure ExtendsTo (b b' : Blueprint) : Prop extends KeepsOthers b b' where
  node : ∀ (n : Nat) (node : Node), b.nodes[n]? = some node →
    ∃ node', b'.nodes[n]? = some node' ∧ node.ExtendsTo node'

theorem Node.ExtendsTo.refl (node : Node) : node.ExtendsTo node :=
  ⟨rfl, rfl, List.prefix_refl _, fun _ h => h⟩

theorem Node.ExtendsTo.trans {node node' node'' : Node} (h : node.ExtendsTo node')
    (h' : node'.ExtendsTo node'') : node.ExtendsTo node'' :=
  ⟨h'.name.trans h.name, h'.kind.trans h.kind, h.edges.trans h'.edges,
    fun o ho => h'.otherwise o (h.otherwise o ho)⟩

theorem Node.Edit.extendsTo {node node' : Node} (h : node.Edit node') : node.ExtendsTo node' := by
  cases h with
  | edge => exact ⟨rfl, rfl, List.prefix_append _ _, fun _ ho => ho⟩
  | otherwise _ hnone =>
    refine ⟨rfl, rfl, List.prefix_refl _, fun o ho => ?_⟩
    rw [hnone] at ho
    cases ho
  | transform hkind =>
    refine ⟨rfl, ?_, List.prefix_refl _, fun _ ho => ho⟩
    rw [hkind]
    rfl

theorem getElem?_push_of_some {α : Type} {xs : Array α} {i : Nat} {x : α} (h : xs[i]? = some x)
    (y : α) : (xs.push y)[i]? = some x := by
  obtain ⟨hlt, rfl⟩ := Array.getElem?_eq_some_iff.mp h
  exact Array.getElem?_push_lt hlt

section Growth
variable {b b' b'' : Blueprint}

/-- Nodes may change as they like. -/
theorem keepsOthers_nodes (b : Blueprint) (nodes : Array Node) : b.KeepsOthers { b with nodes } :=
  ⟨fun _ _ h => h, fun _ _ h => h, fun _ _ h => h⟩

theorem KeepsOthers.trans (h : b.KeepsOthers b') (h' : b'.KeepsOthers b'') : b.KeepsOthers b'' :=
  ⟨fun c f hc => h'.callback c f (h.callback c f hc), fun s c hs => h'.span s c (h.span s c hs),
    fun i p hp => h'.property i p (h.property i p hp)⟩

theorem Keeps.extendsTo (h : b.Keeps b') : b.ExtendsTo b' :=
  ⟨h.toKeepsOthers, fun n node hn => ⟨node, h.node n node hn, .refl node⟩⟩

theorem ExtendsTo.refl (b : Blueprint) : b.ExtendsTo b :=
  ⟨keepsOthers_nodes b b.nodes, fun _ node hn => ⟨node, hn, .refl node⟩⟩

theorem ExtendsTo.trans (h : b.ExtendsTo b') (h' : b'.ExtendsTo b'') : b.ExtendsTo b'' := by
  refine ⟨h.toKeepsOthers.trans h'.toKeepsOthers, fun n node hn => ?_⟩
  obtain ⟨node', hn', hextends⟩ := h.node n node hn
  obtain ⟨node'', hn'', hextends'⟩ := h'.node n node' hn'
  exact ⟨node'', hn'', hextends.trans hextends'⟩

/-- What is appended moves nothing. -/
theorem Appends.keeps {added : Added} (h : b.Appends b' added) : b.Keeps b' := by
  cases h with
  | node new => exact ⟨keepsOthers_nodes b _, fun _ _ hn => getElem?_push_of_some hn new⟩
  | callback f =>
    refine ⟨⟨fun _ _ hc => getElem?_push_of_some hc f, ?_, ?_⟩, fun _ _ hn => hn⟩
    · exact fun _ _ hs => hs
    · exact fun _ _ hp => hp
  | span c =>
    refine ⟨⟨?_, fun _ _ hs => getElem?_push_of_some hs c, ?_⟩, fun _ _ hn => hn⟩
    · exact fun _ _ hc => hc
    · exact fun _ _ hp => hp
  | property p =>
    refine ⟨⟨?_, ?_, fun _ _ hp => getElem?_push_of_some hp p⟩, fun _ _ hn => hn⟩
    · exact fun _ _ hc => hc
    · exact fun _ _ hs => hs

/-- One call makes a blueprint grow, whatever it answers. -/
theorem Effect.extendsTo {call : Call} {answer : Except BuildError Added}
    (h : b.Effect call b' answer) : b.ExtendsTo b' := by
  cases h with
  | refused => exact .refl b
  | halfway => exact (Appends.node _).keeps.extendsTo
  | appended _ h => exact h.keeps.extendsTo
  | @edited _ n old new _ hold hedit =>
    refine ⟨keepsOthers_nodes b _, fun i node hi => ?_⟩
    rw [Array.getElem?_setIfInBounds]
    by_cases hin : n = i
    · subst hin
      obtain rfl : old = node := Option.some.inj (hold.symm.trans hi)
      have hlt := (Array.getElem?_eq_some_iff.mp hi).1
      rw [if_pos rfl, if_pos hlt]
      exact ⟨new, rfl, hedit.extendsTo⟩
    · rw [if_neg hin]
      exact ⟨node, hi, .refl node⟩

/-- **A blueprint only grows.** -/
theorem extendsTo_run (b : Blueprint) (calls : List Call) : b.ExtendsTo (b.run calls) := by
  induction calls generalizing b with
  | nil => exact .refl b
  | cons call calls ih => exact (b.effect_call call).extendsTo.trans (ih (b.call call).1)

end Growth

/-- **Calls are atomic and local, and a blueprint only grows.**  A call that is refused changes
nothing, unless it is refused half-way because a callback node repeats a code.  Any other call
appends one object, so that all handles keep their meaning, or edits the node it addresses. -/
theorem call_atomic (b : Blueprint) :
    (∀ call,
      (∀ e, (b.call call).2 = .error e →
        (∀ c returns name key, call = .invokeNode c returns → e ≠ .duplicateKey name key) →
        (b.call call).1 = b) ∧
      (∀ c returns name key, call = .invokeNode c returns →
        (b.call call).2 = .error (.duplicateKey name key) →
        ∃ f front, b.callbacks[c]? = some f ∧ LongestDistinct front returns ∧
          (b.call call).1 =
            { b with
              nodes := b.nodes.push ⟨"invoke_" ++ f.name, .invoke c, front.map returnEdge, none⟩ }) ∧
      ∀ added, (b.call call).2 = .ok added →
        (call.addressed? = none ∧ b.Appends (b.call call).1 added ∧ b.Keeps (b.call call).1) ∨
        ∃ n node node', call.addressed? = some n ∧ b.nodes[n]? = some node ∧ node.Edit node' ∧
          (b.call call).1 = { b with nodes := b.nodes.setIfInBounds n node' }) ∧
    ∀ calls, b.ExtendsTo (b.run calls) := by
  refine ⟨fun call => ?_, b.extendsTo_run⟩
  have heffect := b.effect_call call
  generalize (b.call call).1 = after at heffect ⊢
  generalize (b.call call).2 = answer at heffect ⊢
  refine ⟨fun e he hwhole => ?refused, fun c returns name key hcall he => ?halfway,
    fun added hok => ?done⟩
  case refused =>
    subst he
    cases heffect with
    | refused => rfl
    | halfway => exact absurd rfl (hwhole _ _ _ _ rfl)
  case halfway =>
    subst hcall he
    cases heffect with
    | refused hwhole => exact absurd rfl (hwhole _ _ _ _ rfl)
    | halfway hc hfront hrepeated =>
      exact ⟨_, _, hc, longestDistinct_of_repeated hfront hrepeated, rfl⟩
  case done =>
    subst hok
    cases heffect with
    | appended hcall h => exact .inl ⟨hcall, h, h.keeps⟩
    | edited hcall hn h => exact .inr ⟨_, _, _, hcall, hn, h, rfl⟩

/-- The first four of `refusedCalls`; the fifth is refused half-way and the ninth as a whole. -/
def startedCalls : List Call := refusedCalls.take 4

theorem call_atomic_refused :
    ((run {} startedCalls).call (.otherwise 9 0)).1 = run {} startedCalls ∧
      (∃ f front, (run {} startedCalls).callbacks[0]? = some f ∧
        LongestDistinct front [(1, 0), (0, 1), (1, 1), (7, 1)] ∧
        ((run {} startedCalls).call (.invokeNode 0 [(1, 0), (0, 1), (1, 1), (7, 1)])).1 =
          { run {} startedCalls with
            nodes := (run {} startedCalls).nodes.push
              ⟨"invoke_" ++ f.name, .invoke 0, front.map returnEdge, none⟩ }) ∧
      ∃ n node node', Call.addressed? (.otherwise 0 1) = some n ∧
        (run {} startedCalls).nodes[n]? = some node ∧ node.Edit node' ∧
        ((run {} startedCalls).call (.otherwise 0 1)).1 =
          { run {} startedCalls with
            nodes := (run {} startedCalls).nodes.setIfInBounds n node' } := by
  have hunknown : ((run {} startedCalls).call (.otherwise 9 0)).2 = .error .unknownHandle := by
    decide +kernel
  have hrepeated : ((run {} startedCalls).call
      (.invokeNode 0 [(1, 0), (0, 1), (1, 1), (7, 1)])).2 =
        .error (.duplicateKey "invoke_is_set" (.code 1)) := by decide +kernel
  have hok : ((run {} startedCalls).call (.otherwise 0 1)).2 = .ok .detail := by decide +kernel
  refine ⟨((call_atomic _).1 _).1 _ hunknown (by simp),
    ((call_atomic _).1 _).2.1 _ _ _ _ rfl hrepeated, ?_⟩
  rcases ((call_atomic _).1 _).2.2 _ hok with ⟨hnone, -⟩ | hedited
  · cases hnone
  · exact hedited

end ByteMachine.Blueprint
