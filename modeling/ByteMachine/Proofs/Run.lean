import ByteMachine.Proofs.CallbackKeys
import ByteMachine.Proofs.TrieMatching
import Mathlib.Logic.Function.Iterate

/-! # Runs

Blueprints and machines run in the same **world**: an input, functions for the transforms,
and answers for the callbacks and for the fields that count bytes.  A run remembers how far
it has come, which value was passed on last, and all that could be **observed** of it.  Both
kinds of run are a `Process`, which takes one step after the other and whose traces are the
beginnings of what is observed.

A node of a blueprint matches by its keys, in one step (`Blueprint.act`).  A state of a
machine looks at one byte or at a run of bytes (`Machine.act`).  Neither says anything
about tries.

A process that takes one or more steps for each step of another one, and is related to it
again afterwards, has the same traces (`Process.Simulates.hasTrace_iff`). -/
namespace ByteMachine

/-! ## Worlds -/

/-- What the surroundings of a run can see. -/
inductive Act where
  /-- A callback is called with the value that was passed on last. -/
  | invoked (callback : Option (Callback Bool)) (value : Option Int)
  | spanStarted (place : Option Nat) (callback : Option (Callback Bool))
  | spanEnded (place : Option Nat) (callback : Option (Callback Bool))
  /-- As many bytes as a field says are skipped. -/
  | consuming (field : String)
  | paused (code : Int) (reason : String)
  | failed (code : Int) (reason : String)
  /-- The input has run out. -/
  | starved
deriving DecidableEq, Repr, Inhabited

/-- What is seen at a position of the input. -/
structure Observation where
  position : Nat
  act : Act
deriving DecidableEq, Repr, Inhabited

/-- The surroundings of a run.  They answer by all that they have seen so far. -/
structure World where
  input : List UInt8
  /-- What a named transform makes of a byte; a transform may have no name. -/
  transform : Option String → UInt8 → UInt8
  /-- The code that a callback returns. -/
  answer : List Observation → Int
  /-- The number of bytes that a field says. -/
  count : List Observation → Nat

/-- What a run remembers. -/
structure Memory where
  position : Nat := 0
  /-- The value that was passed on last. -/
  value : Option Int := none
  /-- All that was observed. -/
  history : List Observation := []
deriving DecidableEq, Repr, Inhabited

/-- How far a run has come, and where it goes on unless it has ended. -/
structure Stage where
  here : Option Nat
  memory : Memory
deriving DecidableEq, Repr, Inhabited

/-- The same stage with the place where the run goes on put elsewhere. -/
def Stage.redirect (f : Nat → Nat) (s : Stage) : Stage := { s with here := s.here.map f }

namespace Memory

def note (act : Act) (mem : Memory) : Memory :=
  { mem with history := mem.history ++ [⟨mem.position, act⟩] }

def skip (n : Nat) (mem : Memory) : Memory := { mem with position := mem.position + n }

/-- Passes a value on, if there is one. -/
def pass (value : Option Int) (mem : Memory) : Memory := { mem with value := value.or mem.value }

/-- Ends the run for lack of input. -/
def starve (mem : Memory) : Stage := ⟨none, mem.note .starved⟩

@[simp]
theorem skip_skip (m n : Nat) (mem : Memory) : (mem.skip m).skip n = mem.skip (m + n) := by
  simp only [skip, Nat.add_assoc]

@[simp]
theorem pass_none (mem : Memory) : mem.pass none = mem := by
  simp only [pass, Option.none_or]

theorem note_grows (act : Act) (mem : Memory) : mem.history <+: (mem.note act).history :=
  List.prefix_append _ _

end Memory

namespace World
variable (w : World)

/-- The input that is left. -/
def rest (mem : Memory) : List UInt8 := w.input.drop mem.position

/-- Goes on at a target, past one byte unless the byte is left. -/
def goTo (target : Nat) (stay : Bool) (mem : Memory) : Stage :=
  if stay then ⟨some target, mem⟩
  else if w.rest mem = [] then mem.starve
  else ⟨some target, mem.skip 1⟩

/-- Skips as many bytes as a field says and then goes on. -/
def consume (field : String) (go : Memory → Stage) (mem : Memory) : Stage :=
  let noted := mem.note (.consuming field)
  let count := w.count noted.history
  if count ≤ (w.rest mem).length then go (noted.skip count)
  else (noted.skip (w.rest mem).length).starve

/-- Starts a span, which takes some input, and then goes on. -/
def startSpan (place : Option Nat) (callback : Option (Callback Bool)) (go : Memory → Stage)
    (mem : Memory) : Stage :=
  if w.rest mem = [] then mem.starve else go (mem.note (.spanStarted place callback))

theorem rest_skip (n : Nat) (mem : Memory) : w.rest (mem.skip n) = (w.rest mem).drop n := by
  rw [rest, rest, List.drop_drop]
  rfl

@[simp]
theorem rest_pass (value : Option Int) (mem : Memory) : w.rest (mem.pass value) = w.rest mem := rfl

end World

/-! ## Processes -/

/-- Nothing that was observed is forgotten. -/
def Grows (go : Memory → Stage) : Prop := ∀ mem, mem.history <+: (go mem).memory.history

theorem grows_starve : Grows Memory.starve := Memory.note_grows .starved

namespace World
variable (w : World)

theorem grows_goTo (target : Nat) (stay : Bool) : Grows (w.goTo target stay) := by
  intro mem
  unfold goTo
  split
  · exact List.prefix_refl _
  · split
    · exact grows_starve mem
    · exact List.prefix_refl _

variable {go : Memory → Stage} (h : Grows go)
include h

theorem grows_consume (field : String) : Grows (w.consume field go) := by
  intro mem
  refine (mem.note_grows (.consuming field)).trans ?_
  unfold consume
  dsimp only
  split
  · exact h ((mem.note (.consuming field)).skip _)
  · exact grows_starve ((mem.note (.consuming field)).skip _)

theorem grows_startSpan (place : Option Nat) (callback : Option (Callback Bool)) :
    Grows (w.startSpan place callback go) := by
  intro mem
  unfold startSpan
  split
  · exact grows_starve mem
  · exact (mem.note_grows _).trans (h _)

end World

/-- A system that takes one step after the other. -/
structure Process where
  step : Nat → Memory → Stage
  grows : ∀ n, Grows (step n)

namespace Process

/-- One step, unless the run has ended. -/
def advance (p : Process) (s : Stage) : Stage :=
  match s.here with
  | some n => p.step n s.memory
  | none => s

/-- A trace is a beginning of what is observed in finitely many steps. -/
def HasTrace (p : Process) (s : Stage) (trace : List Observation) : Prop :=
  ∃ k, trace <+: (p.advance^[k] s).memory.history

@[simp]
theorem advance_at (p : Process) (n : Nat) (mem : Memory) :
    p.advance ⟨some n, mem⟩ = p.step n mem := rfl

theorem advance_grows (p : Process) (s : Stage) :
    s.memory.history <+: (p.advance s).memory.history := by
  obtain ⟨_ | n, mem⟩ := s
  · exact List.prefix_refl _
  · exact p.grows n mem

theorem iterate_grows (p : Process) (s : Stage) {k l : Nat} (h : k ≤ l) :
    (p.advance^[k] s).memory.history <+: (p.advance^[l] s).memory.history := by
  induction h with
  | refl => exact List.prefix_refl _
  | step _ ih =>
    refine ih.trans ?_
    rw [Function.iterate_succ_apply']
    exact p.advance_grows _

/-- **One process keeps up with another.**  Related stages have observed the same, and for
each step of the first process the second takes one or more steps and is related again. -/
structure Simulates (p q : Process) (R : Stage → Stage → Prop) : Prop where
  history : ∀ {s t : Stage}, R s t → s.memory.history = t.memory.history
  step : ∀ {s t : Stage}, R s t → ∃ k, R (p.advance s) (q.advance^[k + 1] t)

namespace Simulates
variable {p q : Process} {R : Stage → Stage → Prop} (h : p.Simulates q R)
include h

/-- The second process has always taken at least as many steps as the first. -/
theorem iterate {s t : Stage} (hst : R s t) (n : Nat) :
    ∃ k, n ≤ k ∧ R (p.advance^[n] s) (q.advance^[k] t) := by
  induction n with
  | zero => exact ⟨0, Nat.le_refl 0, hst⟩
  | succ n ih =>
    obtain ⟨k, hle, hrelated⟩ := ih
    obtain ⟨l, hstep⟩ := h.step hrelated
    refine ⟨l + 1 + k, by omega, ?_⟩
    rw [Function.iterate_succ_apply', Function.iterate_add_apply]
    exact hstep

/-- **Processes that keep up have the same traces.** -/
theorem hasTrace_iff {s t : Stage} (hst : R s t) (trace : List Observation) :
    p.HasTrace s trace ↔ q.HasTrace t trace := by
  constructor
  · rintro ⟨n, hn⟩
    obtain ⟨k, -, hrelated⟩ := h.iterate hst n
    exact ⟨k, h.history hrelated ▸ hn⟩
  · rintro ⟨n, hn⟩
    -- by the time the first process has taken `n` steps, the second has at least as many behind it
    obtain ⟨k, hle, hrelated⟩ := h.iterate hst n
    refine ⟨n, ?_⟩
    rw [h.history hrelated]
    exact hn.trans (q.iterate_grows t hle)

end Simulates

end Process

/-! ## Runs of a blueprint -/

namespace Blueprint
variable (w : World)

namespace Node
variable (node : Node)

def goOtherwise (mem : Memory) : Stage :=
  match node.otherwise with
  | some o => w.goTo o.target o.stay mem
  | none => ⟨none, mem⟩

/-- Goes on as matching has ended. -/
def conclude (verdict : Trie.Verdict) (mem : Memory) : Stage :=
  match verdict with
  | .starved n => (mem.skip n).starve
  | .accepted n leaf => ⟨some leaf.target, (mem.skip n).pass leaf.value⟩
  | .rejected n => node.goOtherwise w (mem.skip n)

theorem grows_goOtherwise : Grows (node.goOtherwise w) := by
  intro mem
  unfold goOtherwise
  split
  · exact w.grows_goTo _ _ mem
  · exact List.prefix_refl _

theorem grows_conclude (verdict : Trie.Verdict) : Grows (node.conclude w verdict) := by
  intro mem
  cases verdict with
  | starved n => exact grows_starve (mem.skip n)
  | accepted n leaf => exact List.prefix_refl _
  | rejected n => exact node.grows_goOtherwise w (mem.skip n)

/-- Bytes may be consumed before or by the verdict. -/
theorem conclude_after (n : Nat) (verdict : Trie.Verdict) (mem : Memory) :
    node.conclude w (verdict.after n) mem = node.conclude w verdict (mem.skip n) := by
  cases verdict with
  | starved k => simp only [conclude, Trie.Verdict.after, Memory.skip_skip]
  | accepted k leaf => simp only [conclude, Trie.Verdict.after, Memory.skip_skip]
  | rejected k => simp only [conclude, Trie.Verdict.after, Memory.skip_skip]

end Node

variable (b : Blueprint) (groups : List (List Nat))
  (codeOf : Callback (Option Bool) → Callback Bool)

/-- **What a node does.**  Callbacks are observed as the codes that are made of them, and
spans by the places that the groups give them. -/
def act (node : Node) (mem : Memory) : Stage :=
  match node.kind with
  | .error code reason => ⟨none, mem.note (.failed code reason)⟩
  | .pause code reason => node.goOtherwise w (mem.note (.paused code reason))
  | .consume field => w.consume field (node.goOtherwise w) mem
  | .spanStart span =>
    w.startSpan (Allocation.placeOf? groups span) ((b.spanCallback? span).map codeOf)
      (node.goOtherwise w) mem
  | .spanEnd span =>
    node.goOtherwise w <| mem.note <|
      .spanEnded (Allocation.placeOf? groups span) ((b.spanCallback? span).map codeOf)
  | .invoke callback =>
    let noted := mem.note (.invoked (b.callbacks[callback]?.map codeOf) mem.value)
    match node.edges.find? (·.key = .code (w.answer noted.history)) with
    | some e => w.goTo e.target e.stay (noted.pass e.value)
    | none => node.goOtherwise w noted
  | .matching word =>
    node.conclude w (Trie.byKeys node.entries ((w.rest mem).map (w.transform word))) mem

theorem grows_act (node : Node) : Grows (b.act w groups codeOf node) := by
  intro mem
  have hotherwise := node.grows_goOtherwise w
  unfold act
  cases node.kind with
  | error c reason => exact mem.note_grows _
  | pause c reason => exact (mem.note_grows _).trans (hotherwise _)
  | consume field => exact w.grows_consume hotherwise field mem
  | spanStart span => exact w.grows_startSpan hotherwise _ _ mem
  | spanEnd span => exact (mem.note_grows _).trans (hotherwise _)
  | invoke callback =>
    refine (mem.note_grows (.invoked (b.callbacks[callback]?.map codeOf) mem.value)).trans ?_
    dsimp only
    split
    · exact w.grows_goTo _ _ ((mem.note _).pass _)
    · exact hotherwise _
  | matching word => exact node.grows_conclude w _ mem

/-- The runs of a blueprint. -/
def process : Process where
  step n mem :=
    match b.nodes[n]? with
    | some node => b.act w groups codeOf node mem
    | none => ⟨none, mem⟩
  grows n mem := by
    dsimp only
    split
    · exact b.grows_act w groups codeOf _ mem
    · exact List.prefix_refl _

variable {w b groups codeOf}

theorem advance_process {n : Nat} {node : Node} (h : b.nodes[n]? = some node) (mem : Memory) :
    (b.process w groups codeOf).advance ⟨some n, mem⟩ = b.act w groups codeOf node mem := by
  rw [Process.advance_at, process]
  dsimp only
  rw [h]

end Blueprint

/-! ## Runs of a machine -/

/-- How a transform is asked for. -/
def Transform.asked : Transform → Option String
  | .identity => none
  | .toLowerUnsafe => some "to_lower_unsafe"

theorem Transform.asked_of_transformOf? {word : Option String} {t : Transform}
    (h : Blueprint.transformOf? word = some t) : t.asked = word := by
  cases word with
  | none => exact Option.some.inj h ▸ rfl
  | some word =>
    rw [Blueprint.transformOf?, ofWord?.eq_def] at h
    split at h
    · exact Option.some.inj h ▸ rfl
    · cases h

namespace Machine
variable (m : Machine) (w : World)

/-- The code that is made of a callback: the first one that is the same but for its name. -/
def codeOf (c : Callback (Option Bool)) : Callback Bool :=
  (m.callbacks.find? (·.Same c.resolve)).getD c.resolve

/-- Looks at the input that is left through a transform. -/
def look (transform : Nat) (go : List UInt8 → Memory → Stage) (mem : Memory) : Stage :=
  match m.transforms[transform]? with
  | some t => go ((w.rest mem).map (w.transform t.asked)) mem
  | none => ⟨none, mem⟩

theorem grows_look (transform : Nat) {go : List UInt8 → Memory → Stage}
    (h : ∀ input, Grows (go input)) : Grows (m.look w transform go) := by
  intro mem
  unfold look
  split
  · exact h _ mem
  · exact List.prefix_refl _

namespace State
variable (s : State)

def goOtherwise (mem : Memory) : Stage :=
  match s.otherwise with
  | some f => w.goTo f.target f.stay (mem.pass f.value)
  | none => ⟨none, mem⟩

/-- Takes the edge for the next byte, if there is one. -/
def choose (edge? : UInt8 → Option ByteEdge) (input : List UInt8) (mem : Memory) : Stage :=
  match input with
  | [] => mem.starve
  | byte :: _ =>
    match edge? byte with
    | some e => w.goTo e.target e.stay (mem.pass e.value)
    | none => s.goOtherwise w mem

/-- Goes on behind a run of bytes, or where the input departs from it. -/
def compare (bytes : List UInt8) (edge : Option RunEdge) (input : List UInt8) (mem : Memory) :
    Stage :=
  let n := (Trie.common bytes input).length
  if n = bytes.length then ⟨edge.map (·.target), (mem.skip n).pass (edge.bind (·.value))⟩
  else if n = input.length then (mem.skip n).starve
  else s.goOtherwise w (mem.skip n)

/-- The edge of a table for a byte. -/
def rowEdge? (rows : List TableEdge) (byte : UInt8) : Option ByteEdge :=
  (rows.find? (byte ∈ ·.keys)).map fun row => ⟨byte, row.stay, row.target, none⟩

theorem grows_goOtherwise : Grows (s.goOtherwise w) := by
  intro mem
  unfold goOtherwise
  split
  · exact w.grows_goTo _ _ (mem.pass _)
  · exact List.prefix_refl _

theorem grows_choose (edge? : UInt8 → Option ByteEdge) (input : List UInt8) :
    Grows (s.choose w edge? input) := by
  intro mem
  unfold choose
  split
  · exact grows_starve mem
  · split
    · exact w.grows_goTo _ _ (mem.pass _)
    · exact s.grows_goOtherwise w mem

theorem grows_compare (bytes : List UInt8) (edge : Option RunEdge) (input : List UInt8) :
    Grows (s.compare w bytes edge input) := by
  intro mem
  unfold compare
  dsimp only
  split
  · exact List.prefix_refl _
  · split
    · exact grows_starve (mem.skip _)
    · exact s.grows_goOtherwise w (mem.skip _)

end State

/-- **What a state does.** -/
def act (s : State) (mem : Memory) : Stage :=
  match s.kind with
  | .empty => s.goOtherwise w mem
  | .error code reason => ⟨none, mem.note (.failed code reason)⟩
  | .pause code reason => s.goOtherwise w (mem.note (.paused code reason))
  | .consume field => w.consume field (s.goOtherwise w) mem
  | .spanStart place callback =>
    w.startSpan (some place) m.callbacks[callback]? (s.goOtherwise w) mem
  | .spanEnd place callback =>
    s.goOtherwise w (mem.note (.spanEnded (some place) m.callbacks[callback]?))
  | .invoke callback edges =>
    let noted := mem.note (.invoked m.callbacks[callback]? mem.value)
    match edges.find? (·.code = w.answer noted.history) with
    | some e => ⟨some e.target, noted⟩
    | none => s.goOtherwise w noted
  | .branch transform edges =>
    m.look w transform (s.choose w fun byte => edges.find? (·.key = byte)) mem
  | .run transform bytes edge => m.look w transform (s.compare w bytes edge) mem
  | .table transform rows => m.look w transform (s.choose w (State.rowEdge? rows)) mem

theorem grows_act (s : State) : Grows (m.act w s) := by
  intro mem
  have hotherwise := s.grows_goOtherwise w
  unfold act
  cases s.kind with
  | empty => exact hotherwise mem
  | error code reason => exact mem.note_grows _
  | pause code reason => exact (mem.note_grows _).trans (hotherwise _)
  | consume field => exact w.grows_consume hotherwise field mem
  | spanStart place callback => exact w.grows_startSpan hotherwise _ _ mem
  | spanEnd place callback => exact (mem.note_grows _).trans (hotherwise _)
  | invoke callback edges =>
    refine (mem.note_grows (.invoked m.callbacks[callback]? mem.value)).trans ?_
    dsimp only
    split
    · exact List.prefix_refl _
    · exact hotherwise _
  | branch transform edges => exact m.grows_look w transform (s.grows_choose w _) mem
  | run transform bytes edge => exact m.grows_look w transform (s.grows_compare w bytes edge) mem
  | table transform rows => exact m.grows_look w transform (s.grows_choose w _) mem

/-- The runs of a machine. -/
def process : Process where
  step i mem :=
    match m.states[i]? with
    | some s => m.act w s mem
    | none => ⟨none, mem⟩
  grows i mem := by
    dsimp only
    split
    · exact m.grows_act w _ mem
    · exact List.prefix_refl _

variable {m w}

theorem advance_process {i : Nat} {s : State} (h : m.states[i]? = some s) (mem : Memory) :
    (m.process w).advance ⟨some i, mem⟩ = m.act w s mem := by
  rw [Process.advance_at, process]
  dsimp only
  rw [h]

end Machine

end ByteMachine
