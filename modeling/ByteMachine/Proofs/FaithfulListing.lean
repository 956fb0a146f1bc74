import ByteMachine.Proofs.ListingLines
import ByteMachine.Proofs.Walk
import Mathlib

/-! # Listings are faithful

A listing shows no positions: states and callbacks appear by name, and transforms by what they
do.  Nothing else that a state does is lost.  When two machines have the same listing, the states
that they reach are **counterparts**, one by one (`listing_faithful`): they agree in everything
but the positions that they refer to, and there they agree in names (`State.Counterpart`).  Only
what a state was called before its name was made unique cannot be seen.

For this a machine must be **legible** (`Legible`): names of states hold no blanks, and whatever
is shown as it stands holds no line breaks.  Reasons, keys and runs of bytes may hold anything,
since they are escaped.  A listing then falls into lines, the lines into blocks that begin where a
line is not indented, and a block gives back its state (`State.counterpart_of_stateLines`). -/
namespace ByteMachine.Machine

open Text

/-! ## States that differ in positions only -/

/-- **Kinds of two machines that differ in positions only**: everything else is the same, and the
callbacks, transforms and states that they refer to have the same names. -/
inductive Kind.Counterpart (m m' : Machine) : Kind → Kind → Prop
  | empty : Counterpart m m' .empty .empty
  | error (code : Int) (reason : String) :
      Counterpart m m' (.error code reason) (.error code reason)
  | pause (code : Int) (reason : String) :
      Counterpart m m' (.pause code reason) (.pause code reason)
  | consume (field : String) : Counterpart m m' (.consume field) (.consume field)
  | spanStart (place : Nat) {callback callback' : Nat}
      (hcallback : m.callbackName callback = m'.callbackName callback') :
      Counterpart m m' (.spanStart place callback) (.spanStart place callback')
  | spanEnd (place : Nat) {callback callback' : Nat}
      (hcallback : m.callbackName callback = m'.callbackName callback') :
      Counterpart m m' (.spanEnd place callback) (.spanEnd place callback')
  | invoke {callback callback' : Nat} {edges edges' : List ReturnEdge}
      (hcallback : m.callbackName callback = m'.callbackName callback')
      (hedges : List.Forall₂ (fun e e' => e.code = e'.code ∧
        m.stateName e.target = m'.stateName e'.target) edges edges') :
      Counterpart m m' (.invoke callback edges) (.invoke callback' edges')
  | branch {transform transform' : Nat} {edges edges' : List ByteEdge}
      (htransform : m.transforms[transform]? = m'.transforms[transform']?)
      (hedges : List.Forall₂ (fun e e' => (e.key = e'.key ∧ e.stay = e'.stay ∧ e.value = e'.value) ∧
        m.stateName e.target = m'.stateName e'.target) edges edges') :
      Counterpart m m' (.branch transform edges) (.branch transform' edges')
  | run (bytes : List UInt8) {transform transform' : Nat} {edge edge' : Option RunEdge}
      (htransform : m.transforms[transform]? = m'.transforms[transform']?)
      (hedge : Option.Rel (fun e e' => e.value = e'.value ∧
        m.stateName e.target = m'.stateName e'.target) edge edge') :
      Counterpart m m' (.run transform bytes edge) (.run transform' bytes edge')
  | table {transform transform' : Nat} {edges edges' : List TableEdge}
      (htransform : m.transforms[transform]? = m'.transforms[transform']?)
      (hedges : List.Forall₂ (fun e e' => (e.keys = e'.keys ∧ e.stay = e'.stay) ∧
        m.stateName e.target = m'.stateName e'.target) edges edges') :
      Counterpart m m' (.table transform edges) (.table transform' edges')

/-- **States of two machines that differ in positions only.** -/
structure State.Counterpart (m m' : Machine) (s s' : State) : Prop where
  name : s.name = s'.name
  kind : s.kind.Counterpart m m' s'.kind
  otherwise : Option.Rel (fun o o' => (o.stay = o'.stay ∧ o.value = o'.value) ∧
    m.stateName o.target = m'.stateName o'.target) s.otherwise s'.otherwise

/-- **A machine whose listing can be read**: what can be reached is there, names of states have no
blanks, and nothing that is shown as it is breaks a line. -/
structure Legible (m : Machine) (root : Nat) : Prop where
  states : ∀ i, m.digraph.Reaches root i → i < m.states.size
  transforms : ∀ s ∈ m.states, ∀ i, s.kind.transform? = some i → i < m.transforms.size
  names : ∀ s ∈ m.states, ' ' ∉ s.name.toList ∧ '\n' ∉ s.name.toList
  callbacks : ∀ c ∈ m.callbacks, '\n' ∉ c.name.toList
  fields : ∀ s ∈ m.states, ∀ field, s.kind = .consume field → '\n' ∉ field.toList

/-- When every edge leads to a state, so does every path. -/
theorem lt_size_of_reaches {m : Machine} {root i : Nat} (hroot : root < m.states.size)
    (htargets : ∀ s ∈ m.states, ∀ t ∈ s.targets, t < m.states.size)
    (h : m.digraph.Reaches root i) : i < m.states.size := by
  refine h.closed (P := (· < m.states.size)) hroot fun a b _ ha hb => ?_
  have hnext : m.digraph.next a = m.states[a].targets := by
    simp [digraph, next, Array.getElem?_eq_getElem ha]
  exact htargets _ (Array.getElem_mem ha) b (hnext ▸ hb)

section Legible
variable {m : Machine} {root : Nat} (h : m.Legible root)
include h

theorem Legible.stateName (i : Nat) :
    ' ' ∉ (m.stateName i).toList ∧ '\n' ∉ (m.stateName i).toList := by
  unfold Machine.stateName
  cases hs : m.states[i]? with
  | none => exact ⟨by decide, by decide⟩
  | some s => exact h.names s (Array.mem_of_getElem? hs)

theorem Legible.callbackName (i : Nat) : '\n' ∉ (m.callbackName i).toList := by
  unfold Machine.callbackName
  cases hc : m.callbacks[i]? with
  | none => decide
  | some c => exact h.callbacks c (Array.mem_of_getElem? hc)

theorem Legible.oneLine_kindText {s : State} (hs : s ∈ m.states) :
    '\n' ∉ (m.kindText s.kind).toList := by
  cases hkind : s.kind with
  | error code reason | pause code reason =>
    simp only [kindText, not_mem_append]
    exact ⟨⟨⟨by decide, not_mem_toString (by decide) code⟩, by decide⟩,
      newline_not_mem_quote reason⟩
  | consume field => exact not_mem_append.mpr ⟨by decide, h.fields s hs field hkind⟩
  | spanStart place callback | spanEnd place callback =>
    simp only [kindText, not_mem_append]
    exact ⟨⟨⟨by decide, not_mem_toString (by decide) place⟩, by decide⟩,
      h.callbackName callback⟩
  | invoke callback edges => exact not_mem_append.mpr ⟨by decide, h.callbackName callback⟩
  | run transform bytes edge =>
    simp only [kindText, not_mem_append]
    exact ⟨⟨by decide, newline_not_mem_escapeBytes bytes⟩, by decide⟩
  | empty | branch transform edges | table transform edges => exact List.not_mem_nil

/-- Every line for a state is one line. -/
theorem Legible.oneLine_stateLines {s : State} (hs : s ∈ m.states) :
    ∀ line ∈ m.stateLines s, '\n' ∉ line.toList := by
  have hedge : ∀ {label : String}, '\n' ∉ label.toList → ∀ target,
      '\n' ∉ (m.edgeLine label target).toList := by
    intro label hlabel target
    simp only [edgeLine, not_mem_append]
    exact ⟨⟨⟨by decide, hlabel⟩, by decide⟩, (h.stateName target).2⟩
  intro line hline
  rcases List.mem_append.mp hline with hline | hline
  · rcases List.mem_cons.mp hline with rfl | hline
    · simp only [not_mem_append]
      exact ⟨⟨⟨⟨(h.names s hs).2, by decide⟩, (plain_word s.kind).2⟩, h.oneLine_kindText hs⟩,
        newline_not_mem_transformText m s.kind⟩
    · obtain ⟨label, target, hlabel, rfl⟩ := mem_edgeLines hline
      exact hedge hlabel.oneLine target
  · obtain ⟨o, -, rfl⟩ := List.mem_map.mp hline
    have hlabel : '\n' ∉ o.label.toList :=
      not_mem_append.mpr ⟨by cases o.stay <;> decide, newline_not_mem_flagText _ _⟩
    exact hedge hlabel o.target

end Legible

/-! ## Reading a state -/

theorem forall₂_of_map_eq {α β γ : Type} {f : α → γ} {g : β → γ} {xs : List α} {ys : List β}
    (h : xs.map f = ys.map g) : List.Forall₂ (fun x y => f x = g y) xs ys := by
  rwa [← List.forall₂_eq_eq_eq, List.forall₂_map_left_iff, List.forall₂_map_right_iff] at h

theorem rel_of_forall₂ {α : Type} {R : α → α → Prop} {o o' : Option α}
    (h : List.Forall₂ R o.toList o'.toList) : Option.Rel R o o' := by
  cases o with
  | none =>
    cases o' with
    | none => exact .none
    | some x' => cases h
  | some x =>
    cases o' with
    | none => cases h
    | some x' =>
      cases h with
      | cons hx _ => exact .some hx

section Reading
variable {m m' : Machine}

/-- Edges with the same lines agree one by one in what their labels say and in the names of their
targets. -/
theorem forall₂_of_lines {α : Type} (label : α → String) (target : α → Nat) {R : α → α → Prop}
    (hm : ∀ t, ' ' ∉ (m.stateName t).toList) (hm' : ∀ t, ' ' ∉ (m'.stateName t).toList)
    (hlabel : ∀ {e e'}, label e = label e' → R e e') {edges edges' : List α}
    (h : (edges.map fun e => m.edgeLine (label e) (target e)) =
      edges'.map fun e => m'.edgeLine (label e) (target e)) :
    List.Forall₂ (fun e e' => R e e' ∧ m.stateName (target e) = m'.stateName (target e'))
      edges edges' := by
  refine (forall₂_of_map_eq h).imp fun e e' hline => ?_
  obtain ⟨hlabels, hnames⟩ := edgeLine_inj (hm _) (hm' _) hline
  exact ⟨hlabel hlabels, hnames⟩

/-- **A kind is read back** from its word, what follows the word, and the lines of its edges. -/
theorem Kind.counterpart_of_texts {k k' : Kind} (hm : ∀ t, ' ' ∉ (m.stateName t).toList)
    (hm' : ∀ t, ' ' ∉ (m'.stateName t).toList)
    (ht : ∀ i, k.transform? = some i → i < m.transforms.size)
    (ht' : ∀ i, k'.transform? = some i → i < m'.transforms.size) (hword : k.word = k'.word)
    (hdetails : m.kindText k ++ m.transformText k = m'.kindText k' ++ m'.transformText k')
    (hlines : m.edgeLines k = m'.edgeLines k') : k.Counterpart m m' k' := by
  -- kinds with the same word have the same constructor; only a run shows both a text of its own
  -- and a transform
  cases k with
  | empty =>
    cases k' with
    | empty => exact .empty
    | _ => simp [Kind.word] at hword
  | error code reason =>
    cases k' with
    | error code' reason' =>
      rw [details_of_none m rfl, details_of_none m' rfl] at hdetails
      obtain ⟨rfl, rfl⟩ := report_inj hdetails
      exact .error code reason
    | _ => simp [Kind.word] at hword
  | pause code reason =>
    cases k' with
    | pause code' reason' =>
      rw [details_of_none m rfl, details_of_none m' rfl] at hdetails
      obtain ⟨rfl, rfl⟩ := report_inj hdetails
      exact .pause code reason
    | _ => simp [Kind.word] at hword
  | consume field =>
    cases k' with
    | consume field' =>
      rw [details_of_none m rfl, details_of_none m' rfl] at hdetails
      obtain rfl : field = field' := append_cancel hdetails
      exact .consume field
    | _ => simp [Kind.word] at hword
  | spanStart place callback =>
    cases k' with
    | spanStart place' callback' =>
      rw [details_of_none m rfl, details_of_none m' rfl] at hdetails
      obtain ⟨rfl, hcallback⟩ := mark_inj hdetails
      exact .spanStart place hcallback
    | _ => simp [Kind.word] at hword
  | spanEnd place callback =>
    cases k' with
    | spanEnd place' callback' =>
      rw [details_of_none m rfl, details_of_none m' rfl] at hdetails
      obtain ⟨rfl, hcallback⟩ := mark_inj hdetails
      exact .spanEnd place hcallback
    | _ => simp [Kind.word] at hword
  | invoke callback edges =>
    cases k' with
    | invoke callback' edges' =>
      rw [details_of_none m rfl, details_of_none m' rfl] at hdetails
      exact .invoke (append_cancel hdetails)
        (forall₂_of_lines ReturnEdge.label ReturnEdge.target hm hm' ReturnEdge.label_inj hlines)
    | _ => simp [Kind.word] at hword
  | branch transform edges =>
    cases k' with
    | branch transform' edges' =>
      exact .branch (transforms_eq rfl rfl (ht _ rfl) (ht' _ rfl) (append_cancel hdetails))
        (forall₂_of_lines ByteEdge.label ByteEdge.target hm hm' ByteEdge.label_inj hlines)
    | _ => simp [Kind.word] at hword
  | run transform bytes edge =>
    cases k' with
    | run transform' bytes' edge' =>
      obtain ⟨rfl, htransform⟩ := run_inj hdetails
      exact .run bytes (transforms_eq rfl rfl (ht _ rfl) (ht' _ rfl) htransform)
        (rel_of_forall₂
          (forall₂_of_lines RunEdge.label RunEdge.target hm hm' RunEdge.label_inj hlines))
    | _ => simp [Kind.word] at hword
  | table transform edges =>
    cases k' with
    | table transform' edges' =>
      exact .table (transforms_eq rfl rfl (ht _ rfl) (ht' _ rfl) (append_cancel hdetails))
        (forall₂_of_lines TableEdge.label TableEdge.target hm hm' TableEdge.label_inj hlines)
    | _ => simp [Kind.word] at hword

/-- **A state is read back** from its lines. -/
theorem State.counterpart_of_stateLines {root root' : Nat} {s s' : State} (h : m.Legible root)
    (h' : m'.Legible root') (hs : s ∈ m.states) (hs' : s' ∈ m'.states)
    (heq : m.stateLines s = m'.stateLines s') : s.Counterpart m m' s' := by
  obtain ⟨hheader, hrest⟩ := List.cons.inj heq
  obtain ⟨hname, hword, hdetails⟩ := header_inj (h.names s hs).1 (h'.names s' hs').1 hheader
  -- the line for the otherwise edge, if any, is the first that says so
  have hedges : ∀ (m : Machine) (s : State), ∀ line ∈ m.edgeLines s.kind,
      (!isOtherwiseLine line) = true := by
    intro m s line hline
    rw [isOtherwiseLine_edgeLines hline, Bool.not_false]
  have hlast : ∀ (m : Machine) (s : State),
      ∀ line ∈ (s.otherwise.toList.map m.otherwiseLine).head?, (!isOtherwiseLine line) = false := by
    intro m s line hline
    obtain ⟨o, -, rfl⟩ := List.mem_map.mp (List.mem_of_mem_head? hline)
    rw [isOtherwiseLine_otherwiseLine, Bool.not_true]
  obtain ⟨hlines, hotherwise⟩ :=
    split_where (hedges m s) (hlast m s) (hedges m' s') (hlast m' s') hrest
  refine ⟨hname, ?_, ?_⟩
  · exact Kind.counterpart_of_texts (fun t => (h.stateName t).1) (fun t => (h'.stateName t).1)
      (h.transforms s hs) (h'.transforms s' hs') hword hdetails hlines
  · exact rel_of_forall₂ (forall₂_of_lines Fallback.label Fallback.target
      (fun t => (h.stateName t).1) (fun t => (h'.stateName t).1) Fallback.label_inj hotherwise)

end Reading

/-! ## Reading a listing -/

/-- The lines for the state at a position. -/
def block (m : Machine) (i : Nat) : List String :=
  match m.states[i]? with
  | some s => m.stateLines s
  | none => []

theorem listing_eq (m : Machine) (root : Nat) :
    m.listing root = String.join ((("root = " ++ m.stateName root) :: "" ::
      ((m.reachable root).map m.block).flatten).map (· ++ "\n")) := rfl

section Listing
variable {m : Machine} {root : Nat} (h : m.Legible root)
include h

theorem Legible.exists_state {i : Nat} (hi : i ∈ m.reachable root) :
    ∃ s ∈ m.states, m.states[i]? = some s ∧ m.block i = m.stateLines s := by
  have hlt := h.states i (Digraph.mem_preorder_iff.mp hi)
  have hget := Array.getElem?_eq_getElem hlt
  exact ⟨m.states[i], Array.getElem_mem hlt, hget, by rw [block, hget]⟩

theorem Legible.isBlock_stateLines {s : State} (hs : s ∈ m.states) :
    IsBlock isIndented (m.stateLines s) := by
  refine ⟨_, _, rfl, ?_, ?_⟩
  · have hblank := (h.names s hs).1
    cases hname : s.name.toList with
    | nil => simp [isIndented, hname]
    | cons c rest =>
      rw [hname] at hblank
      simp only [isIndented, String.toList_append, hname]
      exact decide_eq_false fun hc => hblank (by simp_all)
  · intro line hline
    rcases List.mem_append.mp hline with hline | hline
    · obtain ⟨label, target, -, rfl⟩ := mem_edgeLines hline
      exact isIndented_edgeLine m label target
    · obtain ⟨o, -, rfl⟩ := List.mem_map.mp hline
      exact isIndented_edgeLine m _ o.target

theorem Legible.isBlock : ∀ block ∈ (m.reachable root).map m.block, IsBlock isIndented block := by
  intro block hblock
  obtain ⟨i, hi, rfl⟩ := List.mem_map.mp hblock
  obtain ⟨s, hs, -, hlines⟩ := h.exists_state hi
  rw [hlines]
  exact h.isBlock_stateLines hs

theorem Legible.oneLine : ∀ line ∈ ("root = " ++ m.stateName root) :: "" ::
    ((m.reachable root).map m.block).flatten, '\n' ∉ line.toList := by
  intro line hline
  rcases List.mem_cons.mp hline with rfl | hline
  · exact not_mem_append.mpr ⟨by decide, (h.stateName root).2⟩
  · rcases List.mem_cons.mp hline with rfl | hline
    · exact List.not_mem_nil
    · obtain ⟨block, hblock, hline⟩ := List.mem_flatten.mp hline
      obtain ⟨i, hi, rfl⟩ := List.mem_map.mp hblock
      obtain ⟨s, hs, -, hlines⟩ := h.exists_state hi
      exact h.oneLine_stateLines hs line (hlines ▸ hline)

end Listing

/-- **Listings are faithful.**  Machines with the same listing reach the same number of states, and
these differ, position by position, in nothing but the positions they refer to. -/
theorem listing_faithful {m m' : Machine} {root root' : Nat} (h : m.Legible root)
    (h' : m'.Legible root') (heq : m.listing root = m'.listing root') :
    List.Forall₂ (fun i i' => ∃ s s', m.states[i]? = some s ∧ m'.states[i']? = some s' ∧
      s.Counterpart m m' s') (m.reachable root) (m'.reachable root') := by
  rw [listing_eq, listing_eq] at heq
  have hlines := lines_inj h.oneLine h'.oneLine heq
  have hflat := (List.cons.inj (List.cons.inj hlines).2).2
  have hblocks := forall₂_of_map_eq (blocks_inj h.isBlock h'.isBlock hflat)
  obtain ⟨hlength, hzip⟩ := List.forall₂_iff_zip.mp hblocks
  refine List.forall₂_iff_zip.mpr ⟨hlength, fun {i i'} hmem => ?_⟩
  obtain ⟨hi, hi'⟩ := List.of_mem_zip hmem
  obtain ⟨s, hs, hget, hblock⟩ := h.exists_state hi
  obtain ⟨s', hs', hget', hblock'⟩ := h'.exists_state hi'
  have hsame : m.stateLines s = m'.stateLines s' := by rw [← hblock, ← hblock', hzip hmem]
  exact ⟨s, s', hget, hget', State.counterpart_of_stateLines h h' hs hs' hsame⟩

/-- Letters are counted in either case, and anything else is refused. -/
def letters : Machine where
  states := #[
    ⟨⟨"start", "start"⟩, .branch 0 [⟨97, false, 1, some 7⟩], some ⟨2, true, none⟩⟩,
    ⟨⟨"count", "count"⟩, .invoke 0 [⟨-1, 2⟩], some ⟨0, true, none⟩⟩,
    ⟨⟨"refuse", "refuse"⟩, .error 3 "\"] => start\n", none⟩]
  callbacks := #[⟨"on_letter", .external .value⟩]
  transforms := #[.toLowerUnsafe]

/-- The same, in another order, with a state that is never reached. -/
def lettersReordered : Machine where
  states := #[
    ⟨⟨"refuse", "refuse"⟩, .error 3 "\"] => start\n", none⟩,
    ⟨⟨"unused", "unused"⟩, .pause 1 "", some ⟨0, false, none⟩⟩,
    ⟨⟨"count", "count"⟩, .invoke 1 [⟨-1, 0⟩], some ⟨3, true, none⟩⟩,
    ⟨⟨"start", "start"⟩, .branch 1 [⟨97, false, 2, some 7⟩], some ⟨0, true, none⟩⟩]
  callbacks := #[⟨"other", .load "field"⟩, ⟨"on_letter", .external .value⟩]
  transforms := #[.identity, .toLowerUnsafe]

theorem legible_letters : letters.Legible 0 where
  states _ := lt_size_of_reaches (by decide) (by decide)
  transforms := by decide
  names := by decide
  callbacks := by decide
  fields := by simp [letters]

theorem legible_lettersReordered : lettersReordered.Legible 3 where
  states _ := lt_size_of_reaches (by decide) (by decide)
  transforms := by decide
  names := by decide
  callbacks := by decide
  fields := by simp [lettersReordered]

/-- Two arrangements of one machine: the second state that either of them reaches is at position 2
in the one and at position 0 in the other. -/
theorem listing_faithful_letters :
    letters.Legible 0 ∧ lettersReordered.Legible 3 ∧
      letters.listing 0 = lettersReordered.listing 3 ∧
      List.Forall₂ (fun i i' => ∃ s s', letters.states[i]? = some s ∧
        lettersReordered.states[i']? = some s' ∧ s.Counterpart letters lettersReordered s')
        (letters.reachable 0) (lettersReordered.reachable 3) := by
  have hlisting : letters.listing 0 = lettersReordered.listing 3 := by cbv
  exact ⟨legible_letters, legible_lettersReordered, hlisting,
    listing_faithful legible_letters legible_lettersReordered hlisting⟩

end ByteMachine.Machine
