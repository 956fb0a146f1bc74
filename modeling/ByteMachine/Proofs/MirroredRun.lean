import ByteMachine.Proofs.Run
import ByteMachine.Proofs.Translation

/-! # A machine that mirrors a blueprint runs like it

A step of a node that matches nothing is one step of its state.  A step of a matching node is
a walk through the states that depict its trie (`Depicts.walks`): each of them takes the
input to where the trie takes it, so that by the end of the walk the machine has concluded
what the node concludes from its keys.

Put together, the machine keeps up with the blueprint (`Faithful.simulates`). -/
namespace ByteMachine

/-! ## Mirrored stages -/

namespace Mirror

/-- A run of the machine is where the run of the blueprint is, and remembers the same. -/
inductive Mirrors (map : Nat → Option Nat) : Stage → Stage → Prop
  | ended (mem : Memory) : Mirrors map ⟨none, mem⟩ ⟨none, mem⟩
  | going {n i : Nat} (h : map n = some i) (mem : Memory) : Mirrors map ⟨some n, mem⟩ ⟨some i, mem⟩

section
variable {map : Nat → Option Nat} {w : World}

theorem Mirrors.memory_eq {s t : Stage} (h : Mirrors map s t) : s.memory = t.memory := by
  cases h with
  | ended => rfl
  | going => rfl

theorem Mirrors.goTo {n i : Nat} (h : map n = some i) (stay : Bool) (mem : Memory) :
    Mirrors map (w.goTo n stay mem) (w.goTo i stay mem) := by
  unfold World.goTo
  split
  · exact .going h mem
  · split
    · exact .ended _
    · exact .going h _

section Go
variable {go go' : Memory → Stage} (h : ∀ mem, Mirrors map (go mem) (go' mem))
include h

theorem Mirrors.consume (field : String) (mem : Memory) :
    Mirrors map (w.consume field go mem) (w.consume field go' mem) := by
  unfold World.consume
  dsimp only
  split
  · exact h _
  · exact .ended _

theorem Mirrors.startSpan (place : Option Nat) (callback : Option (Callback Bool)) (mem : Memory) :
    Mirrors map (w.startSpan place callback go mem) (w.startSpan place callback go' mem) := by
  unfold World.startSpan
  split
  · exact .ended _
  · exact h _

end Go

variable {node : Blueprint.Node} {s : Machine.State}

theorem Continues.mirrors (h : Continues map node s.otherwise) (mem : Memory) :
    Mirrors map (node.goOtherwise w mem) (s.goOtherwise w mem) := by
  unfold Continues at h
  unfold Blueprint.Node.goOtherwise Machine.State.goOtherwise
  cases ho : node.otherwise with
  | none =>
    rw [ho] at h
    rw [h]
    exact .ended mem
  | some o =>
    rw [ho] at h
    obtain ⟨i, hi, hf⟩ := h
    rw [hf]
    dsimp only
    rw [Memory.pass_none]
    exact .goTo hi o.stay mem

/-- The otherwise edge of a part of a trie concludes with its stop, or with no key. -/
theorem Falls.mirrors {stop : Option Leaf} (h : Falls map node stop s.otherwise) (mem : Memory) :
    Mirrors map (node.conclude w (stop.elim (.rejected 0) (.accepted 0)) mem)
      (s.goOtherwise w mem) := by
  cases stop with
  | none => exact Continues.mirrors h mem
  | some l =>
    obtain ⟨i, hi, hf⟩ := h
    unfold Machine.State.goOtherwise
    rw [hf]
    exact .going hi _

/-- A state that branches looks for the edge of the next byte, in a table or not. -/
theorem Branches.act_eq {m : Machine} {transform : Nat} {edges : List Machine.ByteEdge}
    (h : Branches s.kind transform edges) (mem : Memory) :
    m.act w s mem =
      m.look w transform (s.choose w fun byte => edges.find? (·.key = byte)) mem := by
  unfold Machine.act
  generalize s.kind = kind at h
  cases h with
  | branch => rfl
  | table hedges =>
    have hlookup : Machine.State.rowEdge? _ = _ := funext fun byte => (hedges.find? byte).symm
    dsimp only
    rw [hlookup]

end

/-! ## The walk through a trie -/

section Walk
variable {m : Machine} {map : Nat → Option Nat} {node : Blueprint.Node} {k : Nat}

/-- The edge for a byte leads to a state that depicts the child for this byte. -/
theorem DepictsAll.find? {children : List (UInt8 × Bool × Trie)} {edges : List Machine.ByteEdge}
    {used : List Nat} (h : DepictsAll m map node k children edges used) (byte : UInt8) :
    (Trie.childAt? byte children = none ∧ edges.find? (·.key = byte) = none) ∨
      ∃ stay child target used', (byte, stay, child) ∈ children ∧
        Trie.childAt? byte children = some (stay, child) ∧
        edges.find? (·.key = byte) = some ⟨byte, stay, target, child.value⟩ ∧
        Depicts m map node k child target used' := by
  induction children generalizing edges used with
  | nil =>
    cases h with
    | nil => exact .inl ⟨rfl, rfl⟩
  | cons head rest ih =>
    cases h with
    | @cons key stay child _ target edges used used' hchild hrest =>
      by_cases hkey : key = byte
      · refine .inr ⟨stay, child, target, used, ?_, ?_, ?_, hchild⟩
        · rw [hkey]
          exact List.mem_cons_self
        · simp [Trie.childAt?, hkey]
        · simp [hkey]
      · have hskip : Trie.childAt? byte ((key, stay, child) :: rest) = Trie.childAt? byte rest := by
          rw [Trie.childAt?, List.find?_cons_of_neg (by simpa using hkey)]
          rfl
        rw [hskip, List.find?_cons_of_neg (by simpa using hkey)]
        rcases ih hrest with hnone | ⟨stay', child', target', used'', hmem, hfound⟩
        · exact .inl hnone
        · exact .inr ⟨stay', child', target', used'', List.mem_cons_of_mem _ hmem, hfound⟩

/-- From a position the machine walks to what the trie concludes from the input.  The value
of a leaf is passed on by the edge that leads to it, so a walk that starts at a leaf is
finished, and has passed the value on before; any other walk takes a step. -/
def Walks (m : Machine) (map : Nat → Option Nat) (node : Blueprint.Node) (w : World)
    (transform : Transform) (t : Trie) (i : Nat) (mem : Memory) : Prop :=
  ∃ n, (n = 0 → ∃ l, t = .leaf l) ∧
    Mirrors map (node.conclude w (t.follow ((w.rest mem).map (w.transform transform.asked))) mem)
      ((m.process w).advance^[n] ⟨some i, mem.pass t.value⟩)

variable {w : World} {transform : Transform} (hk : m.transforms[k]? = some transform)
include hk

theorem look_eq (go : List UInt8 → Memory → Stage) (mem : Memory) :
    m.look w k go mem = go ((w.rest mem).map (w.transform transform.asked)) mem := by
  rw [Machine.look, hk]

/-- A branch takes one step, to its child for the next byte or to its stop. -/
theorem walks_branch {children : List (UInt8 × Bool × Trie)} {stop : Option Leaf} {i : Nat}
    {state : Machine.State} {edges : List Machine.ByteEdge} {used : List Nat}
    (hstate : m.states[i]? = some state) (hkind : Branches state.kind k edges)
    (hchildren : DepictsAll m map node k children edges used)
    (hfalls : Falls map node stop state.otherwise)
    (hwalks : ∀ child ∈ children, ∀ {i : Nat} {used : List Nat},
      Depicts m map node k child.2.2 i used → ∀ mem, Walks m map node w transform child.2.2 i mem)
    (mem : Memory) : Walks m map node w transform (.branch children stop) i mem := by
  have hstep : (m.process w).advance ⟨some i, mem⟩ =
      state.choose w (fun byte => edges.find? (·.key = byte))
        ((w.rest mem).map (w.transform transform.asked)) mem := by
    rw [Machine.advance_process hstate, hkind.act_eq]
    exact look_eq hk _ mem
  rw [Walks, show (Trie.branch children stop).value = none from rfl, Memory.pass_none]
  cases hrest : w.rest mem with
  | nil =>
    refine ⟨1, fun h => absurd h Nat.one_ne_zero, ?_⟩
    rw [Function.iterate_one, hstep, hrest]
    exact .ended _
  | cons byte input =>
    rw [List.map_cons, Trie.follow, Trie.followAny_eq]
    rw [hrest, List.map_cons, Machine.State.choose] at hstep
    rcases hchildren.find? (w.transform transform.asked byte) with
      ⟨hchild, hedge⟩ | ⟨stay, child, target, used', hmem, hchild, hedge, hdepicts⟩
    · refine ⟨1, fun h => absurd h Nat.one_ne_zero, ?_⟩
      rw [Function.iterate_one, hstep, hchild, hedge]
      have hmirrors := hfalls.mirrors (w := w) mem
      cases stop with
      | none => exact hmirrors
      | some l => exact hmirrors
    · rw [hedge] at hstep
      rw [hchild]
      cases stay with
      | true =>
        -- the child looks at the same byte again
        obtain ⟨n, -, hwalk⟩ := hwalks _ hmem hdepicts mem
        refine ⟨n + 1, fun h => absurd h n.succ_ne_zero, ?_⟩
        rw [Function.iterate_succ_apply, hstep]
        rw [hrest, List.map_cons] at hwalk
        exact hwalk
      | false =>
        obtain ⟨n, -, hwalk⟩ := hwalks _ hmem hdepicts (mem.skip 1)
        have hgo : w.goTo target false (mem.pass child.value) =
            ⟨some target, (mem.skip 1).pass child.value⟩ := by
          rw [World.goTo, World.rest_pass, hrest]
          rfl
        refine ⟨n + 1, fun h => absurd h n.succ_ne_zero, ?_⟩
        rw [Function.iterate_succ_apply, hstep.trans hgo]
        rw [World.rest_skip, hrest, List.drop_one, List.tail_cons, ← node.conclude_after] at hwalk
        exact hwalk

/-- A run of bytes takes one step, to what is behind it or to where the node continues. -/
theorem walks_run {bytes : List UInt8} {next : Trie} {i target : Nat} {state : Machine.State}
    (hstate : m.states[i]? = some state)
    (hkind : state.kind = .run k bytes (some ⟨target, next.value⟩))
    (hfalls : Falls map node none state.otherwise)
    (hwalks : ∀ mem, Walks m map node w transform next target mem) (mem : Memory) :
    Walks m map node w transform (.run bytes next) i mem := by
  have hstep : (m.process w).advance ⟨some i, mem⟩ =
      state.compare w bytes (some ⟨target, next.value⟩)
        ((w.rest mem).map (w.transform transform.asked)) mem := by
    rw [Machine.advance_process hstate]
    unfold Machine.act
    rw [hkind]
    exact look_eq hk _ mem
  rw [Walks, show (Trie.run bytes next).value = none from rfl, Memory.pass_none, Trie.follow,
    Trie.expect_eq]
  unfold Machine.State.compare at hstep
  dsimp only at hstep
  by_cases hall : (Trie.common bytes
      ((w.rest mem).map (w.transform transform.asked))).length = bytes.length
  · obtain ⟨n, -, hwalk⟩ := hwalks (mem.skip bytes.length)
    refine ⟨n + 1, fun h => absurd h n.succ_ne_zero, ?_⟩
    rw [if_pos hall, hall] at hstep
    rw [Function.iterate_succ_apply, hstep, if_pos hall, node.conclude_after, ← List.map_drop,
      ← World.rest_skip]
    exact hwalk
  · -- the input ends within the run, or departs from it
    refine ⟨1, fun h => absurd h Nat.one_ne_zero, ?_⟩
    rw [if_neg hall] at hstep ⊢
    rw [Function.iterate_one, hstep]
    split
    · exact .ended _
    · exact Continues.mirrors hfalls _

/-- **A walk through the states of a trie** concludes what the trie says about the input. -/
theorem Depicts.walks {t : Trie} {i : Nat} {used : List Nat} (h : Depicts m map node k t i used)
    (mem : Memory) : Walks m map node w transform t i mem := by
  induction t using Trie.induct generalizing i used mem with
  | leaf l =>
    cases h with
    | leaf htarget => exact ⟨0, fun _ => ⟨l, rfl⟩, .going htarget _⟩
  | branch children stop ih =>
    cases h with
    | branch hstate hkind hchildren hfalls =>
      exact walks_branch hk hstate hkind hchildren hfalls ih mem
  | run bytes next ih =>
    cases h with
    | run hstate hkind hnext hfalls =>
      exact walks_run hk hstate hkind hfalls (fun mem => ih hnext mem) mem

end Walk

/-! ## One step of a node -/

section Step
variable {b : Blueprint} {groups : List (List Nat)} {m : Machine} {map : Nat → Option Nat}
variable {node : Blueprint.Node} {s : Machine.State} {w : World}

/-- No two callbacks of the machine are the same. -/
def Distinct (m : Machine) : Prop := ∀ c ∈ m.callbacks, ∀ d ∈ m.callbacks, c.Same d → c = d

/-- A callback that is the same as a code of the machine becomes this code. -/
theorem Distinct.codeOf_eq (h : Distinct m) {i : Nat} {c : Callback (Option Bool)}
    {d : Callback Bool} (hd : m.callbacks[i]? = some d) (hsame : d.Same c.resolve) :
    m.codeOf c = d := by
  have hmem : d ∈ m.callbacks := Array.mem_of_getElem? hd
  unfold Machine.codeOf
  cases hfound : m.callbacks.find? (·.Same c.resolve) with
  | none => exact absurd hsame (by simpa using Array.find?_eq_none.mp hfound d hmem)
  | some d' =>
    have hsame' : d'.Same c.resolve := by simpa using Array.find?_some hfound
    exact h d' (Array.mem_of_find?_eq_some hfound) d hmem (hsame'.trans hsame.symm)

/-- The edges of a node and of its state for a returned code. -/
theorem find?_returns {edges : List Edge} {returns : List Machine.ReturnEdge}
    (h : List.Forall₂ (fun e r => e.key = .code r.code ∧ map e.target = some r.target)
      edges returns) (code : Int) :
    (edges.find? (·.key = .code code) = none ∧ returns.find? (·.code = code) = none) ∨
      ∃ e ∈ edges, ∃ r, edges.find? (·.key = .code code) = some e ∧
        returns.find? (·.code = code) = some r ∧ map e.target = some r.target := by
  induction h with
  | nil => exact .inl ⟨rfl, rfl⟩
  | @cons e r edges returns her _ ih =>
    obtain ⟨hkey, htarget⟩ := her
    by_cases hcode : r.code = code
    · refine .inr ⟨e, List.mem_cons_self, r, ?_, ?_, htarget⟩
      · simp [hkey, hcode]
      · simp [hcode]
    · have hne : e.key ≠ .code code := by simp [hkey, hcode]
      rw [List.find?_cons_of_neg (by simpa using hne),
        List.find?_cons_of_neg (by simpa using hcode)]
      rcases ih with hnone | ⟨e', he', hfound⟩
      · exact .inl hnone
      · exact .inr ⟨e', List.mem_cons_of_mem _ he', hfound⟩

/-- **A node that matches nothing** does what its state does. -/
theorem Payload.mirrors (h : Payload b groups m map node s.kind) (hnode : node.Sound)
    (hcontinues : Continues map node s.otherwise) (hcodes : Distinct m) (mem : Memory) :
    Mirrors map (b.act w groups m.codeOf node mem) (m.act w s mem) := by
  have hotherwise : ∀ mem, Mirrors map (node.goOtherwise w mem) (s.goOtherwise w mem) :=
    hcontinues.mirrors
  unfold Blueprint.act Machine.act
  generalize hs : s.kind = kind at h
  cases h with
  | error hkind =>
    rw [hkind]
    exact .ended _
  | pause hkind =>
    rw [hkind]
    exact hotherwise _
  | consume hkind =>
    rw [hkind]
    exact .consume hotherwise _ mem
  | spanStart hkind hplace hc hd hsame =>
    rw [hkind]
    dsimp only
    rw [hplace, hc, hd, Option.map_some, hcodes.codeOf_eq hd hsame]
    exact .startSpan hotherwise _ _ mem
  | spanEnd hkind hplace hc hd hsame =>
    rw [hkind]
    dsimp only
    rw [hplace, hc, hd, Option.map_some, hcodes.codeOf_eq hd hsame]
    exact hotherwise _
  | invoke hkind hc hd hsame hedges =>
    rw [hkind]
    dsimp only
    rw [hc, hd, Option.map_some, hcodes.codeOf_eq hd hsame]
    rcases find?_returns hedges (w.answer (mem.note (.invoked (some _) mem.value)).history) with
      ⟨hnone, hnone'⟩ | ⟨e, he, r, hsome, hsome', htarget⟩
    · rw [hnone, hnone']
      exact hotherwise _
    · have hadmits := hnode.admitted e he
      rw [hkind] at hadmits
      obtain ⟨-, -, hstay, hvalue⟩ := hadmits
      rw [hsome, hsome']
      dsimp only
      rw [hstay, hvalue, Memory.pass_none]
      exact .going htarget _

end Step

/-- **A machine that mirrors a blueprint keeps up with it.** -/
theorem Faithful.simulates {b : Blueprint} {groups : List (List Nat)} {root : Nat} {m : Machine}
    {map : Nat → Option Nat} {expansion : Nat → List Nat}
    (h : Faithful b groups root m map expansion) (hb : b.Sound) (hcodes : Distinct m) (w : World) :
    (b.process w groups m.codeOf).Simulates (m.process w) (Mirrors map) where
  history hst := congrArg Memory.history hst.memory_eq
  step := by
    rintro _ _ (mem | ⟨hi, mem⟩)
    · exact ⟨0, .ended mem⟩
    · rename_i n i
      obtain ⟨node, hn⟩ := h.node hi
      rw [Blueprint.advance_process hn]
      by_cases hplain : ∀ word, node.kind ≠ .matching word
      · obtain ⟨-, state, hstate, hpayload, hcontinues⟩ := h.plain hi hn hplain
        refine ⟨0, ?_⟩
        rw [Nat.zero_add, Function.iterate_one, Machine.advance_process hstate]
        exact hpayload.mirrors (hb.node hn) hcontinues hcodes mem
      · obtain ⟨word, hkind⟩ : ∃ word, node.kind = .matching word := by simpa using hplain
        unfold Blueprint.act
        rw [hkind]
        dsimp only
        by_cases hedges : node.edges = []
        · obtain ⟨-, state, hstate, hempty, hcontinues⟩ := h.empty hi hn hkind hedges
          refine ⟨0, ?_⟩
          rw [Nat.zero_add, Function.iterate_one, Machine.advance_process hstate]
          unfold Machine.act
          rw [hempty, Blueprint.Node.entries, hedges, List.filterMap_nil, Trie.byKeys_of_nil]
          exact hcontinues.mirrors mem
        · obtain ⟨t, transform, k, used, ht, htransform, hk, hdepicts, -⟩ :=
            h.trie hi hn hkind hedges
          obtain ⟨-, hentries⟩ := Blueprint.Node.trie_eq_some ht
          have hlawful := (hb.node hn).lawful hkind
          obtain ⟨steps, hpositive, hwalk⟩ := hdepicts.walks hk (w := w) mem
          rw [Trie.follow_eq_byKeys hentries hlawful.distinct hlawful.peek,
            Transform.asked_of_transformOf? htransform] at hwalk
          -- the trie of a node is no leaf: its walk takes a step, and has passed on no value before
          have hleaf := Blueprint.Node.trie_ne_leaf ht
          have hvalue : t.value = none := by
            cases t with
            | leaf l => exact absurd rfl (hleaf l)
            | branch children stop => rfl
            | run bytes next => rfl
          cases steps with
          | zero =>
            obtain ⟨l, hl⟩ := hpositive rfl
            exact absurd hl (hleaf l)
          | succ steps =>
            rw [hvalue, Memory.pass_none] at hwalk
            exact ⟨steps, hwalk⟩

end Mirror

end ByteMachine
