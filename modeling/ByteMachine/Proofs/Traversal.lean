import ByteMachine.Blueprint.Basic
import ByteMachine.Machine.Basic
import ByteMachine.Proofs.Walk

/-! # The recursive traversal

A walk keeps what is still to be looked at on a stack, where a vertex may wait several times
until it is looked at for the first time.  The textbook traversal needs no stack: to visit a
vertex is to list it and to visit its successors in order, and a vertex visited before is
skipped (`traverse`).  Both list the same vertices in the same order (`walk_eq_traverse`).

The reason is what the stack stands for.  Whatever lies on top is worked off, with all that is
reached through it, before anything below is looked at; by then all that it has reached counts
as seen (`walk_append`).  So the successors of a vertex, put on top of the rest, are a recursive
call, and the rest is what follows the call. -/
namespace ByteMachine

namespace Digraph

variable {V : Type} [DecidableEq V] (g : Digraph V)

theorem unseen_anti {seen more : List V} (h : seen ⊆ more) : g.unseen more ≤ g.unseen seen :=
  List.countP_mono_left fun v _ hv => by
    have hmore : v ∉ more := by simpa using hv
    simpa using fun hs => hmore (h hs)

/-- **The recursive traversal** of some vertices one after the other.  A vertex visited before is
skipped.  A new one is listed, followed by what the traversal of its successors visits, and none
of these is visited again. -/
def traverse (visited : List V) : List V → List V
  | [] => []
  | v :: rest =>
    if v ∈ visited then traverse visited rest
    else
      let below := traverse (v :: visited) (g.next v)
      v :: below ++ traverse (below ++ v :: visited) rest
termination_by vs => (g.unseen visited, vs.length)
decreasing_by
  · exact Prod.Lex.right _ (Nat.lt_succ_self _)
  · rename_i hv
    by_cases hnext : g.next v = []
    · rcases Nat.lt_or_eq_of_le (g.unseen_cons_le v visited) with h | h
      · exact Prod.Lex.left _ _ h
      · rw [h, hnext]
        exact Prod.Lex.right _ (Nat.succ_pos _)
    · exact Prod.Lex.left _ _ (g.unseen_cons_lt hnext hv)
  · have hle : g.unseen (below ++ v :: visited) ≤ g.unseen visited :=
      g.unseen_anti fun u hu => List.mem_append_right _ (List.mem_cons_of_mem _ hu)
    rcases Nat.lt_or_eq_of_le hle with h | h
    · exact Prod.Lex.left _ _ h
    · rw [h]
      exact Prod.Lex.right _ (Nat.lt_succ_self _)

variable {g}

/-! ## What a stack stands for -/

/-- In which order vertices were seen does not matter. -/
theorem walk_congr_seen {stack seen seen' : List V} (h : ∀ v, v ∈ seen ↔ v ∈ seen') :
    g.walk stack seen = g.walk stack seen' := by
  fun_induction g.walk stack seen generalizing seen' with
  | case1 seen => rw [walk_nil]
  | case2 seen v rest hv ih => rw [walk_cons_of_mem g ((h v).mp hv), ih h]
  | case3 seen v rest hv ih =>
    rw [walk_cons_of_not_mem g fun hv' => hv ((h v).mpr hv')]
    refine congrArg _ (ih fun u => ?_)
    rw [List.mem_cons, List.mem_cons, h]

/-- **What lies on top comes first**, and what it reaches is seen when the rest is looked at. -/
theorem walk_append (top rest seen : List V) :
    g.walk (top ++ rest) seen = g.walk top seen ++ g.walk rest (g.walk top seen ++ seen) := by
  fun_induction g.walk top seen with
  | case1 seen => rfl
  | case2 seen v top hv ih => rw [List.cons_append, walk_cons_of_mem g hv, ih]
  | case3 seen v top hv ih =>
    rw [List.cons_append, walk_cons_of_not_mem g hv, ← List.append_assoc, ih, List.cons_append]
    refine congrArg (v :: _ ++ ·) (walk_congr_seen fun u => ?_)
    simp only [List.mem_append, List.mem_cons]
    exact or_left_comm.trans or_assoc.symm

/-- **The walk is the recursive traversal.** -/
theorem walk_eq_traverse (visited vs : List V) : g.walk vs visited = g.traverse visited vs := by
  fun_induction g.traverse visited vs with
  | case1 visited => rw [walk_nil]
  | case2 visited v rest hv ih => rw [walk_cons_of_mem g hv, ih]
  | case3 visited v rest hv below hbelow hrest =>
    rw [walk_cons_of_not_mem g hv, walk_append, hbelow, hrest, List.cons_append]

/-! ## Enumerations -/

/-- **A depth-first enumeration** of what can be reached from a root. -/
structure Enumerates (g : Digraph V) (root : V) (vs : List V) : Prop where
  reached : ∀ v, v ∈ vs ↔ g.Reaches root v
  once : vs.Nodup
  first : vs.head? = some root
  order : vs = g.traverse [] [root]

theorem enumerates_preorder (g : Digraph V) (root : V) : g.Enumerates root (g.preorder root) where
  reached _ := mem_preorder_iff
  once := nodup_preorder root
  first := by rw [preorder, walk_cons_of_not_mem g List.not_mem_nil, List.head?_cons]
  order := walk_eq_traverse [] [root]

end Digraph

/-- **States and nodes are enumerated by the recursive traversal**: those of a machine along all
edges of a state, the otherwise edge first, and those of a blueprint along all edges of a node,
the otherwise edge last. -/
theorem reachable_enumerates :
    (∀ (m : Machine) (root : Nat), m.digraph.Enumerates root (m.reachable root)) ∧
      ∀ (b : Blueprint) (root : Nat), b.digraph.Enumerates root (b.reachable root) :=
  ⟨fun m root => m.digraph.enumerates_preorder root,
    fun b root => b.digraph.enumerates_preorder root⟩

end ByteMachine
