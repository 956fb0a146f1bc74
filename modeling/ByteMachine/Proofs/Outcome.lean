import ByteMachine.Proofs.Compilation
import ByteMachine.Proofs.OpenSpans
import Mathlib

/-! # When a compilation succeeds

`Blames` lists what can be wrong with a node of a blueprint, together with the error that
says so: the end of a span that no path reaches with the span open, no otherwise edge, a
callback for spans that is invoked, a transform that does not exist, and a byte that is
left by one key and begins a longer one.  With the usual places for spans a compilation
fails exactly when a reachable node is to blame, and its error is that of such a node
(`compile_outcome`).  Before all this a handle that names nothing is noticed. -/
namespace ByteMachine

/-- A handle names nothing. -/
def CompileError.IsPanic (e : CompileError) : Prop :=
  e = .unknownHandle ∨ e = .allocation .unknownHandle

namespace Blueprint

/-- What is wrong with a node, given the root, and the error that says so. -/
inductive Blames (b : Blueprint) (root n : Nat) (node : Node) : CompileError → Prop
  | unmatchedEnd {span : Nat} (hkind : node.kind = .spanEnd span)
      (hclosed : ¬ Along b root span n true) :
      Blames b root n node (.allocation (.unmatchedEnd node.name))
  | missingOtherwise (herror : node.isError = false) (hnone : node.otherwise = none) :
      Blames b root n node (.missingOtherwise node.name)
  | spanCallbackInvoked {c : Nat} {f : Callback (Option Bool)} (hkind : node.kind = .invoke c)
      (hc : b.callbacks[c]? = some f) (hf : f.signature = .span) :
      Blames b root n node (.spanCallbackInvoked f.name node.name)
  | unsupportedTransform {word : String} (hkind : node.kind = .matching (some word))
      (hword : word ≠ "to_lower_unsafe") :
      Blames b root n node (.unsupportedTransform word node.name)
  | conflictingPeek {word : Option String} {byte second : UInt8} {bytes : List UInt8}
      {peek long : Edge} (hkind : node.kind = .matching word) (hpeek : peek ∈ node.edges)
      (hstay : peek.stay = true) (hbyte : peek.key = .bytes [byte]) (hlong : long ∈ node.edges)
      (hbytes : long.key = .bytes (byte :: second :: bytes)) :
      Blames b root n node (.trie node.name (.conflictingPeek [byte]))

section Flaws
variable {b : Blueprint} {root n : Nat} {node : Node} {groups : List (List Nat)}

/-- The spans that nodes refer to exist, and so do their callbacks. -/
theorem Sound.exists_spanCallback (hb : b.Sound) (hn : b.nodes[n]? = some node) {span : Nat}
    (hspan : node.span? = some span) : ∃ c, b.spanCallback? span = some c := by
  have hknown : span < b.spans.size := by
    have := hb.known hn
    rcases Node.span?_eq_some_iff.mp hspan with hkind | hkind
    · rwa [hkind] at this
    · rwa [hkind] at this
  obtain ⟨f, hf, -⟩ := hb.span (Array.getElem?_eq_getElem hknown)
  refine ⟨f, ?_⟩
  rw [spanCallback?, Array.getElem?_eq_getElem hknown]
  exact hf

section Places
variable (hb : b.Sound) (hn : b.nodes[n]? = some node)
  (hplaces : ∀ span, node.span? = some span → span ∈ groups.flatten)
include hb hn

include hplaces in
/-- When all spans have places, a flaw is something to blame the node for. -/
theorem blames_of_flaw {e : CompileError} (h : node.Flaw b groups e) : Blames b root n node e := by
  cases h with
  | missingOtherwise herror hnone => exact .missingOtherwise herror hnone
  | unsupportedTransform hkind hword =>
    refine .unsupportedTransform hkind ?_
    rintro rfl
    cases hword
  | trie hkind htrie =>
    rw [Node.trie, hkind] at htrie
    obtain ⟨byte, rfl, hconflict, -⟩ :=
      Trie.ofEntries_error ((hb.node hn).lawful hkind) htrie
    obtain ⟨⟨peek, hpeek, hstay, hbyte⟩, long, hlong, second, bytes, hbytes⟩ :=
      conflictAt_filterMap_entryOf?.mp hconflict
    exact .conflictingPeek hkind hpeek hstay hbyte hlong hbytes
  | spanCallbackInvoked hkind hc hf => exact .spanCallbackInvoked hkind hc hf
  | unallocatedSpan hspan hplace =>
    obtain ⟨p, hp⟩ := Allocation.placeOf?_isSome (hplaces _ hspan)
    rw [hp] at hplace
    cases hplace
  | unknownSpan hspan hc =>
    obtain ⟨c, hsome⟩ := hb.exists_spanCallback hn hspan
    rw [hsome] at hc
    cases hc
  | @unknownCallback c hkind hc =>
    have hknown : c < b.callbacks.size := by
      have := hb.known hn
      rwa [hkind] at this
    rw [Array.getElem?_eq_getElem hknown] at hc
    cases hc

/-- What a node is to blame for is a flaw, apart from ends of spans. -/
theorem flaw_of_blames {e : CompileError} (h : Blames b root n node e)
    (hends : ∀ span, node.kind = .spanEnd span → Along b root span n true) :
    ∃ e, node.Flaw b groups e := by
  cases h with
  | unmatchedEnd hkind hclosed => exact absurd (hends _ hkind) hclosed
  | missingOtherwise herror hnone => exact ⟨_, .missingOtherwise herror hnone⟩
  | spanCallbackInvoked hkind hc hf => exact ⟨_, .spanCallbackInvoked hkind hc hf⟩
  | unsupportedTransform hkind hword =>
    refine ⟨_, .unsupportedTransform hkind ?_⟩
    unfold Transform.ofWord?
    split
    · exact absurd rfl hword
    · rfl
  | conflictingPeek hkind hpeek hstay hbyte hlong hbytes =>
    have hconflict := conflictAt_filterMap_entryOf?.mpr
      ⟨⟨_, hpeek, hstay, hbyte⟩, _, hlong, _, _, hbytes⟩
    cases htrie : node.trie with
    | error cause => exact ⟨_, .trie hkind htrie⟩
    | ok t =>
      rw [Node.trie, hkind] at htrie
      exact absurd hconflict (Trie.not_conflictAt_of_ok ((hb.node hn).lawful hkind) htrie _)

end Places

end Flaws

section Outcome
variable {b : Blueprint} {stem : String} {options : Options} {root : Nat}
variable (hb : b.Sound) (hoptions : options.check = .ok ())

include hoptions in
theorem compile_of_unknown {n : Nat} (hn : b.digraph.Reaches root n) (hnone : b.nodes[n]? = none) :
    (b.compile stem options sharePlaces root).result = .error (.allocation .unknownHandle) := by
  rw [compile_result _ _ _ _ _ hoptions, sharePlaces_result, allocate_of_unknown hn hnone]

include hb hoptions in
/-- **Once all reachable nodes exist**, a compilation fails because of a reachable node that
is to blame, or there is none. -/
theorem compile_cases
    (hexists : ∀ n, b.digraph.Reaches root n → ∃ node, b.nodes[n]? = some node) :
    (∃ n node e, b.digraph.Reaches root n ∧ b.nodes[n]? = some node ∧ Blames b root n node e ∧
        (b.compile stem options sharePlaces root).result = .error e) ∨
      ((∀ n node e, b.digraph.Reaches root n → b.nodes[n]? = some node →
          ¬ Blames b root n node e) ∧
        ∃ c, (b.compile stem options sharePlaces root).result = .ok c) := by
  rw [compile_result _ _ _ _ _ hoptions, sharePlaces_result]
  rcases allocate_cases hexists with
    ⟨n, node, span, hreach, hn, hkind, hclosed, herror⟩ | ⟨hends, allocation, hok, hshare⟩
  · refine .inl ⟨n, node, _, hreach, hn, .unmatchedEnd hkind hclosed, ?_⟩
    rw [herror]
  · have hspans : ∀ s, s ∈ allocation.groups.flatten ↔ s ∈ b.spansOf (b.reachable root) := by
      intro s
      rw [hshare]
      exact (Allocation.flatten_firstFit_perm _ _).mem_iff
    have hplaces : ∀ {n : Nat} {node : Node}, b.digraph.Reaches root n → b.nodes[n]? = some node →
        ∀ span, node.span? = some span → span ∈ allocation.groups.flatten := by
      intro n node hreach hn span hspan
      exact (hspans span).mpr (mem_spansOf.mpr ⟨n, mem_reachable.mpr hreach, node, hn, hspan⟩)
    have hgroups : b.checkGroups allocation.groups = .ok () := by
      refine if_pos (List.all_eq_true.mpr fun span hspan => ?_)
      obtain ⟨n, -, node, hn, hspan⟩ := mem_spansOf.mp ((hspans span).mp hspan)
      obtain ⟨c, hc⟩ := hb.exists_spanCallback hn hspan
      rw [hc]
      rfl
    obtain ⟨node, hnode⟩ := hexists root (.refl _)
    have hroot : b.getNode root = .ok node := by rw [getNode, hnode]
    rw [hok]
    simp only [hgroups, hroot]
    cases hcomplete : (b.assembly options allocation.groups stem root).complete with
    | ok m =>
      -- what a node is to blame for would be a flaw, since all ends of spans are matched
      have hflawless := ((complete_eq_ok_iff hb).mp hcomplete).1
      refine .inr ⟨?_, _, rfl⟩
      intro n node e hreach hn hblames
      obtain ⟨node', hn', hfit⟩ := hflawless n hreach
      obtain rfl : node = node' := Option.some.inj (hn.symm.trans hn')
      have hflaw : ∃ e, node.Flaw b allocation.groups e :=
        flaw_of_blames hb hn hblames fun span => hends n node span hreach hn
      obtain ⟨e', hflaw⟩ := hflaw
      exact hfit e' hflaw
    | error e =>
      -- the first defect is a flaw of its node, and all spans have places
      obtain ⟨s, hs, hdefect⟩ := List.exists_of_findSome?_eq_some (complete_eq_error hb hcomplete)
      have hreach := Outline.reaches_node (Outline.mem_sites.mp hs)
      obtain ⟨node, hn⟩ := hexists s.node hreach
      replace hdefect : (Outline.ofBlueprint b).defect? b allocation.groups s = some e := hdefect
      rw [defect?_site hn] at hdefect
      refine .inl ⟨s.node, node, e, hreach, hn, ?_, rfl⟩
      exact blames_of_flaw hb hn (hplaces hreach hn) (flaw_of_defect? hdefect)

end Outcome

theorem Blames.not_isPanic {b : Blueprint} {root n : Nat} {node : Node} {e : CompileError}
    (h : Blames b root n node e) : ¬ e.IsPanic := by
  cases h <;> simp [CompileError.IsPanic]

/-- **The outcome of a compilation** with the usual places for spans.  It runs into a handle
that names nothing exactly when one can be reached.  Otherwise it succeeds exactly when no
reachable node is to blame for anything, and else fails with the error of such a node. -/
theorem compile_outcome (calls : List Call) (stem : String) (options : Options) (root : Nat)
    (hoptions : options.check = .ok ()) :
    ((∃ e, ((run {} calls).compile stem options sharePlaces root).result = .error e ∧
        e.IsPanic) ↔
      ∃ n, (run {} calls).digraph.Reaches root n ∧ (run {} calls).nodes[n]? = none) ∧
    ((∀ n, (run {} calls).digraph.Reaches root n → ∃ node, (run {} calls).nodes[n]? = some node) →
      ((∃ c, ((run {} calls).compile stem options sharePlaces root).result = .ok c) ↔
        ∀ n node e, (run {} calls).digraph.Reaches root n → (run {} calls).nodes[n]? = some node →
          ¬ Blames (run {} calls) root n node e) ∧
      ∀ e, ((run {} calls).compile stem options sharePlaces root).result = .error e →
        ∃ n node, (run {} calls).digraph.Reaches root n ∧ (run {} calls).nodes[n]? = some node ∧
          Blames (run {} calls) root n node e) := by
  have hb := sound_run calls
  generalize run {} calls = b at hb ⊢
  refine ⟨⟨?_, ?_⟩, ?_⟩
  · rintro ⟨e, herror, hpanic⟩
    refine Classical.byContradiction fun hnone => ?_
    have hexists : ∀ n, b.digraph.Reaches root n → ∃ node, b.nodes[n]? = some node := by
      intro n hn
      exact Option.ne_none_iff_exists'.mp fun h => hnone ⟨n, hn, h⟩
    rcases @compile_cases b stem options root hb hoptions hexists with
      ⟨n, node, e', -, -, hblames, herror'⟩ | ⟨-, c, hok⟩
    · rw [herror] at herror'
      exact hblames.not_isPanic (Except.error.inj herror' ▸ hpanic)
    · rw [herror] at hok
      cases hok
  · rintro ⟨n, hn, hnone⟩
    exact ⟨_, compile_of_unknown hoptions hn hnone, .inr rfl⟩
  · intro hexists
    rcases @compile_cases b stem options root hb hoptions hexists with
      ⟨n, node, e, hreach, hn, hblames, herror⟩ | ⟨hclean, c, hok⟩
    · rw [herror]
      refine ⟨⟨nofun, fun hclean => absurd hblames (hclean n node e hreach hn)⟩, ?_⟩
      rintro e' ⟨⟩
      exact ⟨n, node, hreach, hn, hblames⟩
    · rw [hok]
      exact ⟨⟨fun _ => hclean, fun _ => ⟨c, rfl⟩⟩, nofun⟩

/-- The blueprint for requests compiles, so that none of its nodes is to blame. -/
theorem compile_outcome_request :
    ({} : Options).check = .ok () ∧
      (∃ c, ((run {} requestCalls).compile "parser" {} sharePlaces 0).result = .ok c) ∧
      ∀ n node e, (run {} requestCalls).digraph.Reaches 0 n →
        (run {} requestCalls).nodes[n]? = some node →
        ¬ Blames (run {} requestCalls) 0 n node e := by
  obtain ⟨hpanic, houtcome⟩ := compile_outcome requestCalls "parser" {} 0 rfl
  have hok : ∃ c, ((run {} requestCalls).compile "parser" {} sharePlaces 0).result = .ok c := by
    have hsome :
        ((run {} requestCalls).compile "parser" {} sharePlaces 0).result.toBool = true := by cbv
    cases h : ((run {} requestCalls).compile "parser" {} sharePlaces 0).result with
    | ok c => exact ⟨c, rfl⟩
    | error e => simp [h, Except.toBool] at hsome
  refine ⟨rfl, hok, (houtcome ?_).1.mp hok⟩
  intro n hn
  refine Option.ne_none_iff_exists'.mp fun hnone => ?_
  obtain ⟨e, herror, -⟩ := hpanic.mpr ⟨n, hn, hnone⟩
  obtain ⟨c, hc⟩ := hok
  rw [herror] at hc
  cases hc

end Blueprint

end ByteMachine
