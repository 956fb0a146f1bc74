import ByteMachine.Text

/-! # Tries

A node that matches bytes decides by the next bytes of the input which of its keys it has
seen.  A **trie** is that decision as a tree: a *branch* looks at one byte, a *run* expects
several bytes in a row, and a *leaf* says where a completed key leads.  A branch may hold a
leaf itself, its *stop*, for a key that ends where longer keys go on.

The bytes on the way from the root to a part of a trie are the **path** of that part.  They
tell the parts of a trie apart. -/
namespace ByteMachine

/-- Where a completed key leads, and the value that it passes on. -/
structure Leaf where
  target : Nat
  value : Option Int
deriving DecidableEq, Repr, Inhabited

/-- A decision on the next bytes of the input. -/
inductive Trie where
  | leaf (leaf : Leaf)
  /-- Looks at one byte.  A child is given by its byte, by whether the byte is left for what
  follows, and by its trie; the stop is where a key ends here. -/
  | branch (children : List (UInt8 × Bool × Trie)) (stop : Option Leaf)
  /-- Expects the bytes one after the other. -/
  | run (bytes : List UInt8) (next : Trie)
deriving Repr, Inhabited

namespace Trie

/-- The value that is passed on when the trie is entered: a leaf passes its own. -/
def value : Trie → Option Int
  | .leaf l => l.value
  | _ => none

mutual

/-- The branches and runs of a trie that stands at `path`, with their paths: each before the
parts below it, and these in order. -/
def inner (path : List UInt8) : Trie → List (List UInt8 × Trie)
  | .leaf _ => []
  | .branch children stop => (path, .branch children stop) :: innerOf path children
  | .run bytes next => (path, .run bytes next) :: inner (path ++ bytes) next

/-- The branches and runs below the children of a branch that stands at `path`. -/
def innerOf (path : List UInt8) : List (UInt8 × Bool × Trie) → List (List UInt8 × Trie)
  | [] => []
  | (byte, _, child) :: rest => inner (path ++ [byte]) child ++ innerOf path rest

end

/-- The children of a branch are looked at one by one. -/
theorem innerOf_eq_flatMap (path : List UInt8) (children : List (UInt8 × Bool × Trie)) :
    innerOf path children =
      children.flatMap fun (byte, _, child) => inner (path ++ [byte]) child := by
  induction children with
  | nil => rfl
  | cons child rest ih =>
    obtain ⟨byte, stay, child⟩ := child
    rw [innerOf, ih, List.flatMap_cons]

/-! ## Building a trie

The keys of a node are sorted, so that keys with a common beginning stand side by side, and
entries repeated word for word are dropped.  From then on the trie is built level by level:

* when all keys share at least two bytes, these bytes are a run;
* otherwise the keys are grouped by their first byte, one child for each group, and a key
  with no bytes left is the stop of the branch;
* a single key with no bytes left is a leaf.

Keys that cannot be told apart are refused, and so are keys that disagree on whether a byte
is consumed. -/

/-- A key of a node with where it leads. -/
structure Entry where
  key : List UInt8
  /-- The byte that completes the key is left for what follows. -/
  stay : Bool
  target : Nat
  value : Option Int
deriving DecidableEq, Repr, Inhabited

/-- Why there is no trie for some entries.  Paths are the bytes before the conflict. -/
inductive BuildError where
  /-- A key without bytes. -/
  | emptyRoot
  /-- Two entries for one key. -/
  | duplicate (path : List UInt8)
  /-- A byte is consumed by one entry and left by another. -/
  | conflictingPeek (path : List UInt8)
  /-- A byte inside a run would be left. -/
  | peekInRun
deriving DecidableEq, Repr, Inhabited

namespace BuildError

/-- The wording of an error in the trie of a node. -/
def message (node : String) : BuildError → String
  | .emptyRoot => s!"empty root entry at `{node}`"
  | .duplicate path =>
    s!"duplicate entries in `{node}` at: [ " ++ Text.escapeBytes path ++ " ]"
  | .conflictingPeek path =>
    s!"conflicting `.peek()` and `.match()` entries in `{node}` at: [ " ++
      Text.escapeBytes path ++ " ]"
  | .peekInRun => s!"`.peek()` can't be part of a multi-byte sequence in `{node}`"

end BuildError

/-! ### Entries in order -/

/-- Entries sorted by key, those with equal keys in their given order, without immediate
repetitions. -/
def arrange (entries : List Entry) : List Entry :=
  (entries.mergeSort fun a b => a.key ≤ b.key).eraseReps

/-- The bytes with which both keys begin. -/
def common : List UInt8 → List UInt8 → List UInt8
  | a :: as, b :: bs => if a = b then a :: common as bs else []
  | _, _ => []

/-- The bytes with which all keys of sorted entries begin: those of the first and the last. -/
def shared (entries : List Entry) : List UInt8 :=
  match entries.head?, entries.getLast? with
  | some first, some last => common first.key last.key
  | _, _ => []

/-- The entry for a key without its first `n` bytes. -/
def Entry.drop (n : Nat) (e : Entry) : Entry := { e with key := e.key.drop n }

/-- Groups entries by the first byte of their keys, which is dropped.  Entries of one group
stand side by side; an entry with no bytes left is in no group. -/
def groups : List Entry → List (UInt8 × List Entry)
  | [] => []
  | e :: rest =>
    match e.key with
    | [] => groups rest
    | byte :: _ =>
      match groups rest with
      | (other, group) :: more =>
        if byte = other then (byte, e.drop 1 :: group) :: more
        else (byte, [e.drop 1]) :: (other, group) :: more
      | [] => [(byte, [e.drop 1])]

/-- Whether the entries leave their last byte, when they agree on it. -/
def stay? : List Entry → Option Bool
  | [] => none
  | e :: rest => if rest.all (·.stay = e.stay) then some e.stay else none

/-- Where the key ends that has no bytes left; it comes first when entries are sorted. -/
def stop (path : List UInt8) : List Entry → Except BuildError (Option Leaf)
  | ⟨[], _, target, value⟩ :: rest =>
    if path = [] then .error .emptyRoot
    else
      match rest with
      | ⟨[], _, _, _⟩ :: _ => .error (.duplicate path)
      | _ => .ok (some ⟨target, value⟩)
  | _ => .ok none

/-! ### Level by level -/

/-- The trie of sorted entries that stands at `path`, where no key has more than the given
number of bytes. -/
def level : Nat → List UInt8 → List Entry → Except BuildError Trie
  | 0, path, entries => do
    match ← stop path entries with
    | some l => return .leaf l
    | none => return .branch [] none
  | bound + 1, path, entries =>
    let bytes := shared entries
    if 1 < bytes.length then
      if entries.any (·.stay) then .error .peekInRun
      else do
        let next ← level bound (path ++ bytes) (entries.map (·.drop bytes.length))
        return .run bytes next
    else do
      match ← stop path entries, groups entries with
      | some l, [] => return .leaf l
      | ending, parts =>
        let children ← parts.mapM fun (byte, group) =>
          match stay? group with
          | some stay => do
            let child ← level bound (path ++ [byte]) group
            return (byte, stay, child)
          | none => .error (.conflictingPeek (path ++ [byte]))
        return .branch children ending

/-- The number of bytes of the longest key. -/
def longest (entries : List Entry) : Nat := entries.foldr (fun e n => max e.key.length n) 0

/-- The trie of some entries; no entries have none. -/
def ofEntries (entries : List Entry) : Except BuildError (Option Trie) :=
  if entries = [] then .ok none
  else some <$> level (longest entries) [] (arrange entries)

end Trie

end ByteMachine
