import ByteMachine.Proofs.TrieEntries

/-! # Reading a trie back

A trie can be read: each of its leaves stands for the key that is spelled on the way to
it.  Reading the trie of some entries gives the entries again, in order
(`Built.read`), so that a trie neither loses nor invents a key.

What is built is moreover **proper**: branches have children whose bytes ascend, and runs
have at least two bytes.  And when only keys of one byte may leave their byte, as calls
ensure, it is **steady**: a byte is left only right before a leaf, at the root. -/
namespace ByteMachine.Trie

/-- A trie is a leaf, a branch over tries or a run before a trie. -/
@[elab_as_elim]
theorem induct {motive : Trie → Prop} (leaf : ∀ l, motive (.leaf l))
    (branch : ∀ children stop, (∀ child ∈ children, motive child.2.2) →
      motive (.branch children stop))
    (run : ∀ bytes next, motive next → motive (.run bytes next)) (t : Trie) : motive t := by
  match t with
  | .leaf l => exact leaf l
  | .branch children stop =>
    exact branch children stop fun child _ => induct leaf branch run child.2.2
  | .run bytes next => exact run bytes next (induct leaf branch run next)
termination_by sizeOf t
decreasing_by
  · rename_i hchild
    obtain ⟨byte, stay, child⟩ := child
    have := List.sizeOf_lt_of_mem hchild
    simp only [Trie.branch.sizeOf_spec, Prod.mk.sizeOf_spec] at this ⊢
    omega
  · simp only [Trie.run.sizeOf_spec]
    omega

/-! ## Reading -/

mutual

/-- The entries of a trie, those of a leaf or stop before those of children.  Whether the
last byte is left is known on arrival. -/
def read (stay : Bool) : Trie → List Entry
  | .leaf l => [⟨[], stay, l.target, l.value⟩]
  | .branch children stop =>
    stop.toList.map (fun l => ⟨[], stay, l.target, l.value⟩) ++ readAll children
  | .run bytes next => (read false next).map (Entry.under bytes)

/-- The entries of the children of a branch. -/
def readAll : List (UInt8 × Bool × Trie) → List Entry
  | [] => []
  | (byte, stay, child) :: rest => (read stay child).map (Entry.under [byte]) ++ readAll rest

end

theorem readAll_eq_flatMap (children : List (UInt8 × Bool × Trie)) :
    readAll children =
      children.flatMap fun (byte, stay, child) => (read stay child).map (Entry.under [byte]) := by
  induction children with
  | nil => rfl
  | cons child rest ih =>
    obtain ⟨byte, stay, child⟩ := child
    rw [readAll, ih, List.flatMap_cons]

theorem mem_readAll {e : Entry} {children : List (UInt8 × Bool × Trie)} :
    e ∈ readAll children ↔
      ∃ child ∈ children, ∃ e' ∈ read child.2.1 child.2.2, e'.under [child.1] = e := by
  simp [readAll_eq_flatMap]

theorem exists_of_forall₂ {α β : Type} {R : α → β → Prop} {xs : List α} {ys : List β}
    (h : List.Forall₂ R xs ys) {y : β} (hy : y ∈ ys) : ∃ x ∈ xs, R x y := by
  induction h with
  | nil => cases hy
  | cons hxy _ ih =>
    rcases List.mem_cons.mp hy with rfl | hy
    · exact ⟨_, List.mem_cons_self, hxy⟩
    · obtain ⟨x, hx, hr⟩ := ih hy
      exact ⟨x, List.mem_cons_of_mem _ hx, hr⟩

/-- The entries of children are those of the groups that the children are made for. -/
theorem readAll_eq_ungroup {parts : List (UInt8 × List Entry)}
    {children : List (UInt8 × Bool × Trie)}
    (h : List.Forall₂ (fun part child => child.1 = part.1 ∧ read child.2.1 child.2.2 = part.2)
      parts children) : readAll children = ungroup parts := by
  induction h with
  | nil => rfl
  | @cons part child parts children hhead _ ih =>
    obtain ⟨byte, stay, child⟩ := child
    obtain ⟨rfl, hread⟩ := hhead
    rw [readAll, ih, hread]
    rfl

/-- **Reading gives back what a trie is built from.** -/
theorem Built.read {path : List UInt8} {entries : List Entry} {t : Trie}
    (h : Built path entries t) :
    ∀ stay, (∀ e ∈ entries, e.key = [] → e.stay = stay) → t.read stay = entries := by
  refine Built.induct ?leaf ?run ?branch h
  case leaf =>
    intro path e hpath hkey stay hstay
    obtain ⟨key, stay', target, value⟩ := e
    obtain rfl : key = [] := hkey
    obtain rfl : stay' = stay := hstay _ (List.mem_singleton_self _) rfl
    rfl
  case run =>
    intro path bytes entries next hbytes hfalse _ ih stay _
    rw [Trie.read, ih false fun e he _ => hfalse e he]
  case branch =>
    intro path last parts children hne hlast hbytes hparts stay hstay
    have hchildren : readAll children = ungroup parts := by
      refine readAll_eq_ungroup (hparts.imp ?_)
      rintro part child ⟨hbyte, hagree, -, ih⟩
      exact ⟨hbyte, ih _ fun e he _ => hagree e he⟩
    rw [Trie.read, hchildren]
    congr 1
    cases last with
    | none => rfl
    | some e =>
      obtain ⟨key, stay', target, value⟩ := e
      obtain rfl : key = [] := (hlast _ rfl).2
      obtain rfl : stay' = stay := hstay _ List.mem_cons_self rfl
      rfl

/-- A key without bytes has no place at the root. -/
theorem Built.key_ne_nil {path : List UInt8} {entries : List Entry} {t : Trie}
    (h : Built path entries t) : path = [] → ∀ e ∈ entries, e.key ≠ [] := by
  refine Built.induct ?leaf ?run ?branch h
  case leaf =>
    intro path e hpath _ hroot
    exact absurd hroot hpath
  case run =>
    intro path bytes entries next hbytes _ _ _ _ e he
    obtain ⟨e', -, rfl⟩ := List.mem_map.mp he
    refine List.append_ne_nil_of_left_ne_nil ?_ _
    rintro rfl
    cases hbytes
  case branch =>
    intro path last parts children _ hlast _ _ hroot e he
    rcases List.mem_append.mp he with he | he
    · exact absurd hroot (hlast e (by simpa using he)).1
    · obtain ⟨part, -, he⟩ := List.mem_flatMap.mp he
      obtain ⟨e', -, rfl⟩ := List.mem_map.mp he
      exact List.cons_ne_nil _ _

theorem Built.read_root {entries : List Entry} {t : Trie} (h : Built [] entries t) :
    t.read false = entries :=
  h.read false fun e he hkey => absurd hkey (h.key_ne_nil rfl e he)

/-- The trie of all entries of a node is no leaf. -/
theorem Built.ne_leaf {entries : List Entry} {t : Trie} (h : Built [] entries t) (l : Leaf) :
    t ≠ .leaf l := by
  rintro rfl
  have hmem : ⟨[], false, l.target, l.value⟩ ∈ entries := by
    rw [← h.read_root]
    simp [Trie.read]
  exact h.key_ne_nil rfl _ hmem rfl

/-- No key ends where the trie of all entries of a node begins. -/
theorem Built.stop_eq_none {entries : List Entry} {children : List (UInt8 × Bool × Trie)}
    {stop : Option Leaf} (h : Built [] entries (.branch children stop)) : stop = none := by
  cases stop with
  | none => rfl
  | some l =>
    have hmem : ⟨[], false, l.target, l.value⟩ ∈ entries := by
      rw [← h.read_root]
      simp [Trie.read]
    exact absurd rfl (h.key_ne_nil rfl _ hmem)

/-! ## Shape -/

/-- Branches have children, whose bytes ascend, and runs have at least two bytes. -/
inductive Proper : Trie → Prop
  | leaf {l : Leaf} : Proper (.leaf l)
  | branch {children : List (UInt8 × Bool × Trie)} {stop : Option Leaf} (hne : children ≠ [])
      (hbytes : (children.map (·.1)).Pairwise (· < ·))
      (hchildren : ∀ child ∈ children, Proper child.2.2) : Proper (.branch children stop)
  | run {bytes : List UInt8} {next : Trie} (hbytes : 1 < bytes.length) (hnext : Proper next) :
      Proper (.run bytes next)

/-- No byte is left for what follows. -/
inductive Calm : Trie → Prop
  | leaf {l : Leaf} : Calm (.leaf l)
  | branch {children : List (UInt8 × Bool × Trie)} {stop : Option Leaf}
      (hstay : ∀ child ∈ children, child.2.1 = false)
      (hchildren : ∀ child ∈ children, Calm child.2.2) : Calm (.branch children stop)
  | run {bytes : List UInt8} {next : Trie} (hnext : Calm next) : Calm (.run bytes next)

/-- A byte is left for what follows at most by the first branch, right before a leaf. -/
inductive Steady : Trie → Prop
  | leaf {l : Leaf} : Steady (.leaf l)
  | branch {children : List (UInt8 × Bool × Trie)} {stop : Option Leaf}
      (hchildren : ∀ child ∈ children, (child.2.1 = true ∧ ∃ l, child.2.2 = .leaf l) ∨
        (child.2.1 = false ∧ Calm child.2.2)) : Steady (.branch children stop)
  | run {bytes : List UInt8} {next : Trie} (hnext : Calm next) : Steady (.run bytes next)

theorem Built.proper {path : List UInt8} {entries : List Entry} {t : Trie}
    (h : Built path entries t) : Proper t := by
  refine Built.induct ?leaf ?run ?branch h
  case leaf =>
    intro path e _ _
    exact .leaf
  case run =>
    intro path bytes entries next hbytes _ _ ih
    exact .run hbytes ih
  case branch =>
    intro path last parts children hne hlast hbytes hparts
    have hfst : children.map (·.1) = parts.map (·.1) := by
      clear hne hbytes
      induction hparts with
      | nil => rfl
      | cons hhead _ ih => rw [List.map_cons, List.map_cons, ih, hhead.1]
    refine .branch ?_ (hfst ▸ hbytes) ?_
    · rintro rfl
      exact hne (List.forall₂_nil_right_iff.mp hparts)
    · intro child hchild
      obtain ⟨part, -, hpart⟩ := exists_of_forall₂ hparts hchild
      exact hpart.2.2.2

theorem Built.calm {path : List UInt8} {entries : List Entry} {t : Trie}
    (h : Built path entries t) : (∀ e ∈ entries, e.stay = false) → Calm t := by
  refine Built.induct ?leaf ?run ?branch h
  case leaf =>
    intro path e _ _ _
    exact .leaf
  case run =>
    intro path bytes entries next hbytes hfalse _ ih _
    exact .run (ih hfalse)
  case branch =>
    intro path last parts children hne hlast hbytes hparts hfalse
    have hpart : ∀ part ∈ parts, ∀ e ∈ part.2, e.stay = false := by
      intro part hpart e he
      exact hfalse (e.under [part.1]) (List.mem_append_right _ (mem_ungroup_of_mem hpart he))
    refine .branch ?_ ?_
    · intro child hchild
      obtain ⟨part, hmem, -, hagree, hbuilt, -⟩ := exists_of_forall₂ hparts hchild
      obtain ⟨e, he⟩ := List.exists_mem_of_ne_nil _ hbuilt.nonempty
      rw [← hagree e he, hpart part hmem e he]
    · intro child hchild
      obtain ⟨part, hmem, -, -, -, ih⟩ := exists_of_forall₂ hparts hchild
      exact ih (hpart part hmem)

/-- Every part of a proper trie stands for a key. -/
theorem Proper.read_ne_nil {t : Trie} (h : Proper t) (stay : Bool) : t.read stay ≠ [] := by
  induction h generalizing stay with
  | leaf => simp [Trie.read]
  | @branch children stop hne _ _ ih =>
    obtain ⟨child, hchild⟩ := List.exists_mem_of_ne_nil _ hne
    obtain ⟨e, he⟩ := List.exists_mem_of_ne_nil _ (ih child hchild child.2.1)
    rw [Trie.read]
    have hmem : e.under [child.1] ∈ readAll children := mem_readAll.mpr ⟨child, hchild, e, he, rfl⟩
    exact List.append_ne_nil_of_right_ne_nil _ (List.ne_nil_of_mem hmem)
  | run _ _ ih => simpa [Trie.read] using ih false

/-- A proper trie whose keys have no bytes is a leaf. -/
theorem Proper.eq_leaf {t : Trie} (h : Proper t) (stay : Bool)
    (hkeys : ∀ e ∈ t.read stay, e.key = []) : ∃ l, t = .leaf l := by
  cases h with
  | @leaf l => exact ⟨l, rfl⟩
  | @branch children stop hne _ hchildren =>
    obtain ⟨child, hchild⟩ := List.exists_mem_of_ne_nil _ hne
    obtain ⟨e, he⟩ := List.exists_mem_of_ne_nil _ ((hchildren child hchild).read_ne_nil child.2.1)
    have hmem : e.under [child.1] ∈ (Trie.branch children stop).read stay := by
      rw [Trie.read]
      exact List.mem_append_right _ (mem_readAll.mpr ⟨child, hchild, e, he, rfl⟩)
    exact absurd (hkeys _ hmem) (List.cons_ne_nil _ _)
  | @run bytes next hbytes hnext =>
    obtain ⟨e, he⟩ := List.exists_mem_of_ne_nil _ (hnext.read_ne_nil false)
    have hkey := hkeys _ (List.mem_map_of_mem he)
    obtain ⟨rfl, -⟩ := List.append_eq_nil_iff.mp hkey
    cases hbytes

/-- **Only a key of one byte leaves its byte**, and so only the first branch does, right
before a leaf. -/
theorem Built.steady {entries : List Entry} {path : List UInt8} {t : Trie}
    (h : Built path entries t) :
    (∀ e ∈ entries, e.stay = true → e.key.length = 1) → Steady t := by
  refine Built.induct ?leaf ?run ?branch h
  case leaf =>
    intro path e _ _ _
    exact .leaf
  case run =>
    intro path bytes entries next hbytes hfalse hbuilt _ _
    exact .run (hbuilt.calm hfalse)
  case branch =>
    intro path last parts children hne hlast hbytes hparts hpeek
    refine .branch fun child hchild => ?_
    obtain ⟨part, hmem, -, hagree, hbuilt, -⟩ := exists_of_forall₂ hparts hchild
    cases hstay : child.2.1 with
    | false => exact Or.inr ⟨rfl, hbuilt.calm fun e he => (hagree e he).trans hstay⟩
    | true =>
      refine Or.inl ⟨rfl, hbuilt.proper.eq_leaf true ?_⟩
      rw [hbuilt.read true fun e he _ => (hagree e he).trans hstay]
      intro e he
      have := hpeek _ (List.mem_append_right _ (mem_ungroup_of_mem hmem he))
        ((hagree e he).trans hstay)
      simpa [Entry.under] using this

/-! ## The trie of some entries -/

theorem le_longest {entries : List Entry} {e : Entry} (h : e ∈ entries) :
    e.key.length ≤ longest entries := by
  induction entries with
  | nil => cases h
  | cons a rest ih =>
    simp only [longest, List.foldr_cons]
    rcases List.mem_cons.mp h with rfl | h
    · exact Nat.le_max_left _ _
    · exact Nat.le_trans (ih h) (Nat.le_max_right _ _)

theorem built_of_ofEntries {entries : List Entry} {t : Trie}
    (h : ofEntries entries = .ok (some t)) : Built [] (arrange entries) t := by
  unfold ofEntries at h
  split at h
  · cases h
  · rename_i hne
    obtain ⟨t', ht', heq⟩ := except_map_eq_ok h
    obtain rfl := Option.some.inj heq
    refine ⟨ordered_arrange entries, ?_, longest entries, ?_, ht'⟩
    · intro hnil
      obtain ⟨e, he⟩ := List.exists_mem_of_ne_nil _ hne
      rw [← mem_arrange, hnil] at he
      cases he
    · intro e he
      exact le_longest (mem_arrange.mp he)

theorem eq_nil_of_ofEntries {entries : List Entry} (h : ofEntries entries = .ok none) :
    entries = [] := by
  unfold ofEntries at h
  split at h
  · assumption
  · obtain ⟨t, -, heq⟩ := except_map_eq_ok h
    cases heq

end ByteMachine.Trie
