import ByteMachine.Proofs.Bypass
import ByteMachine.Proofs.Compilation
import ByteMachine.Proofs.Translation
import ByteMachine.Proofs.UniqueNames
import Mathlib

/-! # Callbacks are shared exactly

A machine holds each callback once.  A node that calls back is entered at a state that refers
to the position of a callback which does the same, and two such states refer to one position
exactly when their nodes' callbacks are the same (`Shares`): operations on fields do the same,
and functions of the user are called alike as well.  The operations on fields get names of
their own, all different.

A position is found by the key of the callback alone, so all of this rests on keys being equal
for the same callbacks only.  Going past empty states changes no position
(`callback?_mapTargets`), so it holds of every machine that is compiled
(`shares_compile`). -/
namespace ByteMachine

namespace Machine

/-- The position of the callback that a state refers to. -/
def Kind.callback? : Kind → Option Nat
  | .spanStart _ callback | .spanEnd _ callback | .invoke callback _ => some callback
  | _ => none

theorem Kind.callback?_mapTargets (f : Nat → Nat) (kind : Kind) :
    (kind.mapTargets f).callback? = kind.callback? := by
  cases kind <;> rfl

/-- The position of the callback to which the state at `i` refers. -/
def callbackAt? (m : Machine) (i : Nat) : Option Nat := m.states[i]?.bind (·.kind.callback?)

/-- Going past empty states leaves every state its callback. -/
theorem callbackAt?_bypass (m : Machine) (root i : Nat) :
    (m.bypass root).1.callbackAt? i = m.callbackAt? i :=
  bind_bypass (fun f s => s.kind.callback?_mapTargets f) m root i

end Machine

/-! ## Exact sharing -/

namespace Blueprint

/-- The node calls back, for a span or for itself. -/
def Node.CallsBack (node : Node) : Prop :=
  (∃ c, node.kind = .invoke c) ∨ (∃ s, node.kind = .spanStart s) ∨ ∃ s, node.kind = .spanEnd s

end Blueprint

namespace Mirror

/-- A node that can be reached has the callback `f`, and the state at which it is entered
refers to position `k`. -/
structure Refers (b : Blueprint) (root : Nat) (m : Machine) (map : Nat → Option Nat) (n : Nat)
    (f : Callback (Option Bool)) (k : Nat) : Prop where
  reaches : b.digraph.Reaches root n
  callback : b.nodes[n]?.bind b.callbackOf? = some f
  state : (map n).bind m.callbackAt? = some k

/-- **Callbacks are shared exactly** among the states at which nodes are entered. -/
structure Shares (b : Blueprint) (root : Nat) (stem : String) (m : Machine)
    (map : Nat → Option Nat) : Prop where
  /-- No two callbacks have the same key. -/
  keys : (m.callbacks.toList.map Callback.key).Nodup
  /-- Every node that calls back refers to a callback. -/
  refers : ∀ {n : Nat} {node : Blueprint.Node}, b.digraph.Reaches root n →
    b.nodes[n]? = some node → node.CallsBack → ∃ f k, Refers b root m map n f k
  /-- It does what the callback of the node does, and a function of the user keeps its
  name. -/
  faithful : ∀ {n k : Nat} {f : Callback (Option Bool)}, Refers b root m map n f k →
    ∃ d, m.callbacks[k]? = some d ∧ d.operation = f.operation.resolve ∧
      (d.operation.isExternal = true → d.name = f.name)
  /-- Nodes refer to one position exactly if their callbacks do the same and, for functions
  of the user, have the same name. -/
  shared : ∀ {n n' k k' : Nat} {f f' : Callback (Option Bool)}, Refers b root m map n f k →
    Refers b root m map n' f' k' →
    (k = k' ↔ f.operation.resolve = f'.operation.resolve ∧
      (f.operation.resolve.isExternal = true → f.name = f'.name))
  /-- Operations on fields have names that begin alike. -/
  named : ∀ d ∈ m.callbacks, d.operation.isExternal = false →
    ∃ rest, d.name = stem ++ "__c_" ++ rest
  /-- No two of these names are equal. -/
  distinct : ((m.callbacks.toList.filter (!·.operation.isExternal)).map (·.name)).Nodup

/-- Sharing depends only on the callbacks and on the positions that states refer to. -/
theorem Shares.congr {b : Blueprint} {root : Nat} {stem : String} {m m' : Machine}
    {map : Nat → Option Nat} (hcallbacks : m'.callbacks = m.callbacks)
    (hstates : m'.callbackAt? = m.callbackAt?) (h : Shares b root stem m map) :
    Shares b root stem m' map := by
  have hrefers : ∀ {n k : Nat} {f : Callback (Option Bool)},
      Refers b root m' map n f k ↔ Refers b root m map n f k := by
    intro n k f
    constructor
    · rintro ⟨hreach, hf, hk⟩
      exact ⟨hreach, hf, hstates ▸ hk⟩
    · rintro ⟨hreach, hf, hk⟩
      exact ⟨hreach, hf, hstates ▸ hk⟩
  refine ⟨hcallbacks ▸ h.keys, ?_, ?_, ?_, hcallbacks ▸ h.named, hcallbacks ▸ h.distinct⟩
  · intro n node hreach hn hcalls
    obtain ⟨f, k, hk⟩ := h.refers hreach hn hcalls
    exact ⟨f, k, hrefers.mpr hk⟩
  · intro n k f hk
    rw [hcallbacks]
    exact h.faithful (hrefers.mp hk)
  · intro n n' k k' f f' hk hk'
    exact h.shared (hrefers.mp hk) (hrefers.mp hk')

end Mirror

/-! ## The positions of an assembly -/

/-- A node with a callback becomes a state that refers to its position. -/
theorem Assembly.callback?_kind {a : Assembly} {node : Blueprint.Node} {f : Callback (Option Bool)}
    (hf : a.blueprint.callbackOf? node = some f) (callbacks : List (Callback Bool))
    (transforms : List Transform) (s : Site) (part : Option Trie) :
    (a.kind callbacks transforms s node part).callback? = some (callbackIndex callbacks f) := by
  unfold kind
  rw [hf]
  unfold Blueprint.callbackOf? at hf
  cases hkind : node.kind with
  | spanStart | spanEnd | invoke => rfl
  | _ =>
    rw [hkind] at hf
    cases hf

namespace Assembly.Regular

section
variable {a : Assembly} {b : Blueprint} {groups : List (List Nat)} {root : Nat}
variable (h : a.Regular b groups root)
include h

/-- A node that calls back has a callback. -/
theorem exists_callbackOf? {n : Nat} {node : Blueprint.Node} (hreach : b.digraph.Reaches root n)
    (hn : b.nodes[n]? = some node) (hcalls : node.CallsBack) :
    ∃ f, b.callbackOf? node = some f := by
  have hfit := h.fit (h.entry_mem_iff.mpr hreach) hn
  unfold Blueprint.callbackOf?
  obtain ⟨c, hkind⟩ | ⟨s, hkind⟩ | ⟨s, hkind⟩ := hcalls
  · rw [hkind]
    exact hfit.callback hkind
  · rw [hkind]
    exact hfit.spanCallback (Blueprint.Node.span?_eq_some_iff.mpr (.inl hkind))
  · rw [hkind]
    exact hfit.spanCallback (Blueprint.Node.span?_eq_some_iff.mpr (.inr hkind))

/-- The state of a node with a callback refers to the position of that callback. -/
theorem callbackAt?_entry {n : Nat} {node : Blueprint.Node} {f : Callback (Option Bool)}
    (hreach : b.digraph.Reaches root n) (hn : b.nodes[n]? = some node)
    (hf : b.callbackOf? node = some f) :
    (a.memo? n).bind a.machine.callbackAt? = some (callbackIndex a.callbacks f) := by
  have hplain : ∀ word, node.kind ≠ .matching word := by
    intro word hkind
    rw [Blueprint.callbackOf?, hkind] at hf
    cases hf
  have hno : ∀ t, node.trie ≠ .ok (some t) := by simp [Blueprint.Node.trie_of_plain hplain]
  have hs := h.entry_mem_iff.mpr hreach
  obtain ⟨label, hstate⟩ := h.exists_state hs (Outline.part?_of_no_trie hn hno)
  rw [memo?_of_mem hs, Option.bind_some, Machine.callbackAt?, entry, hstate]
  exact callback?_kind (by rwa [h.blueprint]) a.callbacks a.transforms (Site.entry n) none

/-- A state refers to the position of its node's callback, where the same callback stands. -/
theorem of_refers {n k : Nat} {f : Callback (Option Bool)}
    (href : Mirror.Refers b root a.machine a.memo? n f k) :
    k = callbackIndex a.callbacks f ∧
      ∃ d, a.machine.callbacks[k]? = some d ∧ d.Same f.resolve := by
  obtain ⟨node, hn, hf⟩ := Option.bind_eq_some_iff.mp href.callback
  have hk : k = callbackIndex a.callbacks f := by
    have := href.state
    rw [h.callbackAt?_entry href.reaches hn hf] at this
    exact (Option.some.inj this).symm
  obtain ⟨d, hd, hsame, -⟩ := h.exists_callback (h.entry_mem_iff.mpr href.reaches) hn hf
  exact ⟨hk, d, hk ▸ hd, hsame⟩

/-- **An assembly shares callbacks exactly.** -/
theorem shares : Mirror.Shares b root a.stem a.machine a.memo? := by
  refine ⟨a.nodup_map_key_callbacks, ?refers, ?faithful, ?shared, ?named,
    a.nodup_map_name_callbacks⟩
  case refers =>
    intro n node hreach hn hcalls
    obtain ⟨f, hf⟩ := h.exists_callbackOf? hreach hn hcalls
    exact ⟨f, _, hreach, by rw [hn]; exact hf, h.callbackAt?_entry hreach hn hf⟩
  case faithful =>
    intro n k f href
    obtain ⟨-, d, hd, hsame⟩ := h.of_refers href
    exact ⟨d, hd, hsame.1, hsame.2⟩
  case shared =>
    intro n n' k k' f f' href href'
    obtain ⟨hk, d, hd, hsame⟩ := h.of_refers href
    obtain ⟨hk', d', hd', hsame'⟩ := h.of_refers href'
    constructor
    · rintro rfl
      obtain rfl : d = d' := Option.some.inj (hd.symm.trans hd')
      exact hsame.symm.trans hsame'
    · intro hboth
      -- equal callbacks have equal keys, and positions are found by key
      have hkey : f.resolve.key = f'.resolve.key := Callback.key_eq_of_same hboth
      rw [hk, hk', callbackIndex, callbackIndex, hkey]
  case named =>
    intro d hd hinternal
    exact exists_nameCallbacks_eq (List.mem_toArray.mp hd) hinternal

end

end Assembly.Regular

namespace Blueprint

/-- **Callbacks are shared exactly in every machine that is compiled**, whatever calls have
made the blueprint and however its spans get their places. -/
theorem shares_compile (calls : List Call) (stem : String) (options : Options)
    (allocator : Allocator) (root : Nat) (c : Compiled)
    (h : ((run {} calls).compile stem options allocator root).result = .ok c) :
    ∃ allocation, (allocator (run {} calls) root).result = .ok allocation ∧
      Mirror.Shares (run {} calls) root stem c.machine
        ((run {} calls).assembly options allocation.groups stem root).memo? := by
  have hb := sound_run calls
  obtain ⟨allocation, hallocation, hflawless, rfl⟩ := compile_eq_ok hb h
  have hshares := (hflawless.regular hb options stem).shares
  exact ⟨allocation, hallocation, hshares.congr (Machine.bypass_callbacks _ _)
    (funext (Machine.callbackAt?_bypass _ _))⟩

/-- Calls for nodes that update a field in two ways, under names that do not tell them apart,
and call one function of the user plainly, with a value and for a span. -/
def updateCalls : List Call :=
  [.callback ⟨"reset", .update "count" 0⟩, .callback ⟨"clear", .update "count" 0⟩,
    .callback ⟨"reset", .update "count" 1⟩, .callback ⟨"on_done", .external .plain⟩,
    .callback ⟨"on_done", .external .value⟩, .callback ⟨"on_done", .external .span⟩, .span 5,
    .invokeNode 0 [], .invokeNode 1 [], .invokeNode 2 [], .invokeNode 3 [], .invokeNode 4 [],
    .spanStartNode 0, .spanEndNode 0, .errorNode 1 "done", .otherwise 0 1, .otherwise 1 2,
    .otherwise 2 3, .otherwise 3 4, .otherwise 4 5, .otherwise 5 6, .otherwise 6 7]

theorem shares_compile_update :
    ∃ c allocation, ((run {} updateCalls).compile "parser" {} sharePlaces 0).result = .ok c ∧
      (sharePlaces (run {} updateCalls) 0).result = .ok allocation ∧
      (List.range 8).map c.machine.callbackAt? =
        [some 1, some 1, some 2, some 3, some 4, some 0, some 0, none] ∧
      Mirror.Shares (run {} updateCalls) 0 "parser" c.machine
        ((run {} updateCalls).assembly {} allocation.groups "parser" 0).memo? := by
  have hrefers : ((run {} updateCalls).compile "parser" {} sharePlaces 0).result.toOption.map
      (fun c => (List.range 8).map c.machine.callbackAt?) =
        some [some 1, some 1, some 2, some 3, some 4, some 0, some 0, none] := by cbv
  cases h : ((run {} updateCalls).compile "parser" {} sharePlaces 0).result with
  | ok c =>
    obtain ⟨allocation, hallocation, hshares⟩ :=
      shares_compile updateCalls "parser" {} sharePlaces 0 c h
    rw [h] at hrefers
    exact ⟨c, allocation, rfl, hallocation, Option.some.inj hrefers, hshares⟩
  | error e =>
    rw [h] at hrefers
    cases hrefers

end Blueprint

end ByteMachine
