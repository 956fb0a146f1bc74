/-! # Depth-first order

Blueprints, machines and the sites of a compilation are all directed graphs: every vertex
has a list of successors, and only finitely many vertices have any.  `Digraph.walk` lists the
vertices reachable from a stack of starts in depth-first preorder: each vertex comes before
what is first reached through it, and successors are followed in their order.

The walk keeps the vertices still to be looked at on a stack.  A vertex seen before is
dropped; a new one is listed and its successors are put in front.  It ends because each
vertex with successors is expanded only once. -/
namespace ByteMachine

/-- A directed graph by its successor lists. -/
structure Digraph (V : Type) where
  next : V → List V
  /-- Only finitely many vertices have successors. -/
  finite : ∃ vs : List V, ∀ v, next v ≠ [] → v ∈ vs

namespace Digraph

variable {V : Type} [DecidableEq V] (g : Digraph V)

/-- The number of vertices with successors that are not seen yet, repetitions of a listing
counted. -/
noncomputable def unseen (seen : List V) : Nat := g.finite.choose.countP (· ∉ seen)

theorem unseen_cons_le (v : V) (seen : List V) : g.unseen (v :: seen) ≤ g.unseen seen :=
  List.countP_mono_left (by simp)

/-- To see a vertex that has successors leaves fewer to be seen, which is why a walk ends. -/
theorem unseen_cons_lt {v : V} {seen : List V} (hv : g.next v ≠ []) (hs : v ∉ seen) :
    g.unseen (v :: seen) < g.unseen seen := by
  obtain ⟨before, after, h⟩ := List.append_of_mem (g.finite.choose_spec v hv)
  have hb : before.countP (· ∉ v :: seen) ≤ before.countP (· ∉ seen) :=
    List.countP_mono_left (by simp)
  have ha : after.countP (· ∉ v :: seen) ≤ after.countP (· ∉ seen) :=
    List.countP_mono_left (by simp)
  have hin : (v :: after).countP (· ∉ v :: seen) = after.countP (· ∉ v :: seen) :=
    List.countP_cons_of_neg (by simp)
  have hout : (v :: after).countP (· ∉ seen) = after.countP (· ∉ seen) + 1 :=
    List.countP_cons_of_pos (by simp [hs])
  unfold unseen
  rw [h, List.countP_append, List.countP_append, hin, hout]
  omega

/-- The vertices reachable from the stack without passing one that was seen, in depth-first
preorder. -/
def walk (stack seen : List V) : List V :=
  match stack with
  | [] => []
  | v :: rest =>
    if v ∈ seen then walk rest seen
    else v :: walk (g.next v ++ rest) (v :: seen)
termination_by (g.unseen seen, stack.length)
decreasing_by
  · exact Prod.Lex.right _ (Nat.lt_succ_self _)
  · rename_i hs
    by_cases hv : g.next v = []
    · rcases Nat.lt_or_eq_of_le (g.unseen_cons_le v seen) with h | h
      · exact Prod.Lex.left _ _ h
      · rw [h, hv]
        exact Prod.Lex.right _ (Nat.lt_succ_self _)
    · exact Prod.Lex.left _ _ (g.unseen_cons_lt hv hs)

/-! ### One step of the walk -/

@[simp]
theorem walk_nil (seen : List V) : g.walk [] seen = [] := by
  rw [walk]

theorem walk_cons_of_mem {v : V} {seen : List V} (h : v ∈ seen) (rest : List V) :
    g.walk (v :: rest) seen = g.walk rest seen := by
  rw [walk, if_pos h]

theorem walk_cons_of_not_mem {v : V} {seen : List V} (h : v ∉ seen) (rest : List V) :
    g.walk (v :: rest) seen = v :: g.walk (g.next v ++ rest) (v :: seen) := by
  rw [walk, if_neg h]

/-- The vertices reachable from one vertex, in depth-first preorder. -/
def preorder (root : V) : List V := g.walk [root] []

end Digraph

end ByteMachine
