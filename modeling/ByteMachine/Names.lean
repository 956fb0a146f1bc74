/-! # Unique names

Different nodes of a blueprint may carry the same name, while the states of a machine are
told apart by theirs.  `Names` hands out names under one stem: the name asked for when it is
still free, and otherwise that name with the smallest number `_1`, `_2`, … that is.

Names are never given back.  So once the first variants of a name are found used, the search
need not look at them again: the pool remembers where to go on. -/
namespace ByteMachine

/-- A name handed out, with the name that was asked for. -/
structure Label where
  text : String
  origin : String
deriving DecidableEq, Repr, Inhabited

/-- A pool of names under one stem. -/
structure Names where
  /-- Begins every name of the pool. -/
  stem : String
  /-- The names handed out, the latest first. -/
  used : List String := []
  /-- For a name that was given a number, the number after it; all smaller ones are used.  The
  latest entry for a name stands first. -/
  following : List (String × Nat) := []
deriving DecidableEq, Repr, Inhabited

namespace Names

/-- The `k`-th variant of a name. -/
def numbered (base : String) (k : Nat) : String := s!"{base}_{k}"

/-- The number of the first variant from the `k`-th on that is not used, where at most `n` of
them are tried and found used.  With as many attempts as used names one of the variants is
free, since all variants differ. -/
def firstFree (used : List String) (base : String) : (n k : Nat) → Nat
  | 0, k => k
  | n + 1, k => if numbered base k ∈ used then firstFree used base n (k + 1) else k

/-- Hands out a name. -/
def fresh (names : Names) (origin : String) : Label × Names :=
  let base := names.stem ++ origin
  if base ∈ names.used then
    let start := (names.following.lookup base).getD 1
    let k := firstFree names.used base names.used.length start
    (⟨numbered base k, origin⟩,
      { names with
        used := numbered base k :: names.used
        following := (base, k + 1) :: names.following })
  else (⟨base, origin⟩, { names with used := base :: names.used })

/-- Hands out a name for each of a list, in order. -/
def freshAll (names : Names) : List String → List Label
  | [] => []
  | origin :: rest =>
    let (label, names) := names.fresh origin
    label :: names.freshAll rest

end Names

end ByteMachine
