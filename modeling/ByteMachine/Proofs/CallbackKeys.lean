import ByteMachine.Compile.Assembly
import ByteMachine.Proofs.TextReading
import Mathlib.Data.List.Nodup

/-! # The callbacks of a machine

The key of a callback is one text, yet two callbacks have the same key exactly when they
are the same: they do the same, and functions of the user also have the same name
(`key_eq_iff`).  The word at the front of a key tells what is done, and the numbers behind
the last underscores cannot swallow a part of the name of a field, since they hold no
underscore.

So the callbacks of a machine can be told apart by their keys alone: the position at which a
state refers to its callback holds the right one (`exists_of_callbackIndex`). -/
namespace ByteMachine.Callback

open Text

/-- Both callbacks do the same; functions of the user also share their name. -/
def Same (c d : Callback Bool) : Prop :=
  c.operation = d.operation ∧ (c.operation.isExternal = true → c.name = d.name)

instance (c d : Callback Bool) : Decidable (Same c d) :=
  inferInstanceAs (Decidable (_ ∧ _))

theorem Same.symm {c d : Callback Bool} (h : Same c d) : Same d c :=
  ⟨h.1.symm, fun hd => (h.2 (h.1 ▸ hd)).symm⟩

theorem Same.trans {c d e : Callback Bool} (h : Same c d) (h' : Same d e) : Same c e :=
  ⟨h.1.trans h'.1, fun hc => (h.2 hc).trans (h'.2 (h.1 ▸ hc))⟩

/-! ## Texts with underscores -/

/-- What stands behind the last underscore is determined. -/
theorem split_underscore {s t u v : String} (hu : '_' ∉ u.toList) (hv : '_' ∉ v.toList)
    (h : s ++ "_" ++ u = t ++ "_" ++ v) : s = t ∧ u = v := by
  have hlist := congrArg String.toList h
  simp only [String.toList_append, List.append_assoc] at hlist
  obtain ⟨hfirst, hlast⟩ := split_last hu hv hlist
  exact ⟨String.toList_inj.mp hfirst, String.toList_inj.mp hlast⟩

theorem underscore_not_mem_toString (n : Int) : '_' ∉ (toString n).toList := by
  intro h
  rcases mem_toString h with h | h
  · exact absurd h (by decide)
  · exact absurd h (by decide)

/-! ## Keys -/

/-- The text for the maximum of a multiply-and-add. -/
def maxText : Option Int → String
  | some m => toString m
  | none => "none"

theorem underscore_not_mem_maxText (max : Option Int) : '_' ∉ (maxText max).toList := by
  cases max with
  | none => decide
  | some m => exact underscore_not_mem_toString m

theorem maxText_inj {max max' : Option Int} (h : maxText max = maxText max') : max = max' := by
  have hnone : ∀ m : Int, toString m ≠ "none" := by
    intro m hm
    have hmem : 'n' ∈ (toString m).toList := by
      rw [hm]
      decide
    rcases mem_toString hmem with h | h
    · exact absurd h (by decide)
    · exact absurd h (by decide)
  cases max with
  | none =>
    cases max' with
    | none => rfl
    | some m => exact absurd h.symm (hnone m)
  | some m =>
    cases max' with
    | none => exact absurd h (hnone m)
    | some m' => rw [toString_inj h]

/-- The letter with which the key of an operation begins. -/
def initial : Operation Bool → Char
  | .isEqual .. => 'i'
  | .load .. => 'l'
  | .mulAdd .. => 'm'
  | .or .. => 'o'
  | .store .. => 's'
  | .test .. => 't'
  | .update .. => 'u'
  | .external .. => 'e'

theorem head?_key (c : Callback Bool) : c.key.toList.head? = some (initial c.operation) := by
  obtain ⟨name, operation⟩ := c
  cases operation <;> simp [key, initial, String.toList_append, toString]

/-- The name of a field and a number can be read off behind a word. -/
theorem field_value_inj {word f f' : String} {v v' : Int}
    (h : word ++ f ++ "_" ++ toString v = word ++ f' ++ "_" ++ toString v') : f = f' ∧ v = v' := by
  obtain ⟨hfield, hvalue⟩ :=
    split_underscore (underscore_not_mem_toString v) (underscore_not_mem_toString v') h
  exact ⟨append_cancel hfield, toString_inj hvalue⟩

theorem mulAdd_inj {f f' : String} {base base' : Int} {max max' : Option Int}
    {signed signed' : Bool}
    (h : "mul_add_" ++ f ++ "_" ++ toString base ++ "_" ++ maxText max ++ "_" ++ toString signed =
      "mul_add_" ++ f' ++ "_" ++ toString base' ++ "_" ++ maxText max' ++ "_" ++ toString signed') :
    f = f' ∧ base = base' ∧ max = max' ∧ signed = signed' := by
  have hbool : ∀ s : Bool, '_' ∉ (toString s).toList := by decide
  obtain ⟨h, hsigned⟩ := split_underscore (hbool signed) (hbool signed') h
  obtain ⟨h, hmax⟩ :=
    split_underscore (underscore_not_mem_maxText max) (underscore_not_mem_maxText max') h
  obtain ⟨hf, hbase⟩ := field_value_inj h
  refine ⟨hf, hbase, maxText_inj hmax, ?_⟩
  revert hsigned
  cases signed <;> cases signed' <;> decide

theorem external_inj {w w' : Signature} {n n' : String}
    (h : "external_" ++ w.word ++ "_" ++ n = "external_" ++ w'.word ++ "_" ++ n') :
    w = w' ∧ n = n' := by
  have hword : ∀ w : Signature, '_' ∉ w.word.toList := by
    intro w
    cases w <;> decide
  have hlist := congrArg String.toList h
  simp only [String.toList_append, List.append_assoc] at hlist
  obtain ⟨hw, hn⟩ := split_first (hword w) (hword w') (List.append_cancel_left hlist)
  refine ⟨?_, String.toList_inj.mp hn⟩
  revert hw
  cases w <;> cases w' <;> decide

/-- **Equal keys mean equal callbacks.** -/
theorem same_of_key_eq {c d : Callback Bool} (h : c.key = d.key) : Same c d := by
  have hinitial : initial c.operation = initial d.operation := by
    have := congrArg (fun w => w.toList.head?) h
    simpa only [head?_key, Option.some.injEq] using this
  obtain ⟨n, o⟩ := c
  obtain ⟨n', o'⟩ := d
  -- the first letter tells the operations apart, and the rest is read off from the underscores
  cases o with
  | isEqual f v =>
    cases o' with
    | isEqual f' v' =>
      obtain ⟨rfl, rfl⟩ := field_value_inj h
      exact ⟨rfl, nofun⟩
    | _ => simp [initial] at hinitial
  | load f =>
    cases o' with
    | load f' =>
      obtain rfl := append_cancel h
      exact ⟨rfl, nofun⟩
    | _ => simp [initial] at hinitial
  | mulAdd f base max signed =>
    cases o' with
    | mulAdd f' base' max' signed' =>
      obtain ⟨rfl, rfl, rfl, rfl⟩ := mulAdd_inj h
      exact ⟨rfl, nofun⟩
    | _ => simp [initial] at hinitial
  | or f v =>
    cases o' with
    | or f' v' =>
      obtain ⟨rfl, rfl⟩ := field_value_inj h
      exact ⟨rfl, nofun⟩
    | _ => simp [initial] at hinitial
  | store f =>
    cases o' with
    | store f' =>
      obtain rfl := append_cancel h
      exact ⟨rfl, nofun⟩
    | _ => simp [initial] at hinitial
  | test f v =>
    cases o' with
    | test f' v' =>
      obtain ⟨rfl, rfl⟩ := field_value_inj h
      exact ⟨rfl, nofun⟩
    | _ => simp [initial] at hinitial
  | update f v =>
    cases o' with
    | update f' v' =>
      obtain ⟨rfl, rfl⟩ := field_value_inj h
      exact ⟨rfl, nofun⟩
    | _ => simp [initial] at hinitial
  | external w =>
    cases o' with
    | external w' =>
      obtain ⟨rfl, rfl⟩ := external_inj h
      exact ⟨rfl, fun _ => rfl⟩
    | _ => simp [initial] at hinitial

/-- A name counts only for functions of the user. -/
theorem key_eq_of_same {c d : Callback Bool} (h : Same c d) : c.key = d.key := by
  obtain ⟨n, o⟩ := c
  obtain ⟨n', o'⟩ := d
  obtain ⟨rfl : o = o', hname⟩ := h
  cases o with
  | external w =>
    obtain rfl : n = n' := hname rfl
    rfl
  | _ => rfl

theorem key_eq_iff {c d : Callback Bool} : c.key = d.key ↔ Same c d :=
  ⟨same_of_key_eq, key_eq_of_same⟩

/-- **A key tells exactly what a callback does**, whatever texts its fields and names are.
Callbacks as declared get the same key exactly when their operations come to the same once
the sign is decided and, for functions of the user, the names are equal. -/
theorem key_resolve_eq_iff (o₁ o₂ : Operation (Option Bool)) (n₁ n₂ : String) :
    key ⟨n₁, o₁.resolve⟩ = key ⟨n₂, o₂.resolve⟩ ↔
      o₁.resolve = o₂.resolve ∧ (o₁.resolve.isExternal = true → n₁ = n₂) := by
  constructor
  · intro hkey
    obtain ⟨hoperation, hname⟩ := same_of_key_eq hkey
    exact ⟨hoperation, hname⟩
  · rintro ⟨hoperation, hname⟩
    exact key_eq_of_same ⟨hoperation, hname⟩

/-- A field may be called like the numbers behind it. -/
example : key ⟨"hex", .mulAdd "len_16" 255 none true⟩ = "mul_add_len_16_255_none_true" ∧
    key ⟨"hex", .mulAdd "len" 16 (some 255) true⟩ = "mul_add_len_16_255_true" := by decide

/-! ## Each callback once -/

theorem exists_mem_go {c : Callback Bool} {cs : List (Callback Bool)} {seen : List String}
    (h : c ∈ cs) (hkey : c.key ∉ seen) : ∃ d ∈ distinct.go seen cs, d.key = c.key := by
  induction cs generalizing seen with
  | nil => cases h
  | cons e cs ih =>
    rw [distinct.go]
    rcases List.mem_cons.mp h with rfl | htail
    · rw [if_neg hkey]
      exact ⟨c, List.mem_cons_self, rfl⟩
    · split
      · exact ih htail hkey
      · by_cases hsame : e.key = c.key
        · exact ⟨e, List.mem_cons_self, hsame⟩
        · have hfresh : c.key ∉ e.key :: seen := by simp [hkey, Ne.symm hsame]
          obtain ⟨d, hd, hdkey⟩ := ih htail hfresh
          exact ⟨d, List.mem_cons_of_mem _ hd, hdkey⟩

theorem nodup_map_key_go (seen : List String) (cs : List (Callback Bool)) :
    ((distinct.go seen cs).map key).Nodup ∧ ∀ d ∈ distinct.go seen cs, d.key ∉ seen := by
  induction cs generalizing seen with
  | nil => exact ⟨List.nodup_nil, nofun⟩
  | cons c cs ih =>
    rw [distinct.go]
    split
    · exact ih seen
    · rename_i hfresh
      obtain ⟨hnodup, hunseen⟩ := ih (c.key :: seen)
      refine ⟨List.nodup_cons.mpr ⟨?_, hnodup⟩, ?_⟩
      · intro hmem
        obtain ⟨d, hd, hkey⟩ := List.mem_map.mp hmem
        exact hunseen d hd (hkey ▸ List.mem_cons_self)
      · intro d hd
        rcases List.mem_cons.mp hd with rfl | hd
        · exact hfresh
        · exact fun hseen => hunseen d hd (List.mem_cons_of_mem _ hseen)

end ByteMachine.Callback

namespace ByteMachine.Assembly

open Callback

variable {a : Assembly}

/-- Naming changes no key. -/
theorem map_key_nameCallbacks (names : Names) (cs : List (Callback Bool)) :
    (nameCallbacks names cs).map key = cs.map key := by
  induction cs generalizing names with
  | nil => rfl
  | cons c cs ih =>
    rw [nameCallbacks]
    split
    · rw [List.map_cons, List.map_cons, ih]
    · rename_i hexternal
      have hkey : Callback.key { c with name := (names.fresh c.name).1.text } = c.key :=
        key_eq_of_same ⟨rfl, fun h => absurd h hexternal⟩
      rw [List.map_cons, List.map_cons, ih, hkey]

theorem nodup_map_key_callbacks (a : Assembly) : (a.callbacks.map key).Nodup := by
  rw [callbacks, map_key_nameCallbacks]
  exact (nodup_map_key_go [] _).1

/-- **No two callbacks of a machine are the same.** -/
theorem eq_of_same {c d : Callback Bool} (hc : c ∈ a.callbacks) (hd : d ∈ a.callbacks)
    (h : Same c d) : c = d :=
  List.inj_on_of_nodup_map a.nodup_map_key_callbacks hc hd (key_eq_of_same h)

/-- The callbacks that the nodes and spans of an assembly declare. -/
def declared (a : Assembly) : List (Callback (Option Bool)) :=
  a.groups.flatten.filterMap a.blueprint.spanCallback? ++ a.nodes.filterMap a.blueprint.callbackOf?

theorem exists_callback {c : Callback (Option Bool)} (h : c ∈ a.declared) :
    ∃ d ∈ a.callbacks, d.key = c.resolve.key := by
  obtain ⟨d, hd, hkey⟩ := exists_mem_go (List.mem_map_of_mem (f := Callback.resolve) h)
    (List.not_mem_nil)
  have hmem : d.key ∈ a.callbacks.map key := by
    rw [callbacks, map_key_nameCallbacks]
    exact List.mem_map_of_mem hd
  obtain ⟨d', hd', hkey'⟩ := List.mem_map.mp hmem
  exact ⟨d', hd', hkey'.trans hkey⟩

/-- **The position of a callback** that is declared holds the same callback, and is the
first position that does. -/
theorem exists_of_callbackIndex {c : Callback (Option Bool)} (h : c ∈ a.declared) :
    ∃ d, a.callbacks[callbackIndex a.callbacks c]? = some d ∧ Same d c.resolve ∧
      a.callbacks.find? (fun d => Same d c.resolve) = some d := by
  obtain ⟨d, hd, hkey⟩ := exists_callback h
  have hlt : a.callbacks.findIdx (fun d => d.key = c.resolve.key) < a.callbacks.length :=
    List.findIdx_lt_length_of_exists ⟨d, hd, by simpa using hkey⟩
  have hfound := List.findIdx_getElem (w := hlt)
  refine ⟨_, List.getElem?_eq_getElem hlt, key_eq_iff.mp (by simpa using hfound), ?_⟩
  have hpred : (fun d : Callback Bool => decide (Same d c.resolve)) =
      fun d => decide (d.key = c.resolve.key) := by
    funext d
    exact decide_eq_decide.mpr key_eq_iff.symm
  rw [hpred, List.find?_eq_getElem?_findIdx]
  exact List.getElem?_eq_getElem hlt

end ByteMachine.Assembly
