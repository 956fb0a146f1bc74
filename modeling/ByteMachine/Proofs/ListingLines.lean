import ByteMachine.Machine.Listing
import ByteMachine.Proofs.TextReading

/-! # Lines of listings

What a line of a listing shows can be read back from it.  The line for an edge is read from its
end: the name of a state holds no blank, so the last blank stands before the target, and what is
left is the label of the edge (`edgeLine_inj`).  A label says all that its edge holds besides the
target (`ByteEdge.label_inj` and its like), and its first letter tells the otherwise edge from the
edges that belong to the kind (`isOtherwiseLine`).

The first line of a state is read from its beginning (`header_inj`): the first blank ends the
name, and the next one the word for the kind.  What follows depends on the word. -/
namespace ByteMachine.Machine

open Text

/-! ## Labels of edges -/

theorem toList_byteText (b : UInt8) :
    (byteText b).toList = '\'' :: (escapeByte b).toList ++ ['\''] := by
  simp [byteText, String.toList_append]

/-- The quote behind a byte ends it: the byte itself shows its own end before it. -/
theorem selfDelimiting_byteText : SelfDelimiting fun b => (byteText b).toList := by
  intro a b r r' h
  simp only [toList_byteText, List.cons_append, List.append_assoc] at h
  obtain ⟨hbyte, hrest⟩ := selfDelimiting_escapeByte (List.cons.inj h).2
  exact ⟨hbyte, (List.cons.inj hrest).2⟩

theorem newline_not_mem_byteText (b : UInt8) : '\n' ∉ (byteText b).toList := by
  simp [toList_byteText, newline_not_mem_escapeByte]

/-- The remark on the value that is passed on. -/
def valueText : Option Int → String
  | some v => " value=" ++ toString v
  | none => ""

/-- The two remarks on an edge stand side by side. -/
theorem flagText_eq (stay : Bool) (value : Option Int) :
    flagText stay value = (if stay then " (peek)" else "") ++ valueText value := by
  cases value <;> rfl

/-- The remark on a value tells the value, and its absence that there is none. -/
theorem valueText_inj {value value' : Option Int} (h : valueText value = valueText value') :
    value = value' := by
  cases value with
  | none =>
    cases value' with
    | none => rfl
    | some v' => simpa [valueText] using congrArg String.toList h
  | some v =>
    cases value' with
    | none => simpa [valueText] using congrArg String.toList h
    | some v' => rw [toString_inj (append_cancel h)]

/-- **Remarks are read back.** -/
theorem flagText_inj {stay stay' : Bool} {value value' : Option Int}
    (h : flagText stay value = flagText stay' value') : stay = stay' ∧ value = value' := by
  -- the second character tells whether the byte is left
  have hpeek : ∀ stay value, (flagText stay value).toList[1]? = some '(' ↔ stay = true := by
    intro stay value
    cases stay <;> cases value <;> simp [flagText_eq, valueText]
  have hstay : stay = stay' := by
    rw [Bool.eq_iff_iff, ← hpeek stay value, h, hpeek]
  rw [flagText_eq, flagText_eq, hstay] at h
  exact ⟨hstay, valueText_inj (append_cancel h)⟩

theorem newline_not_mem_flagText (stay : Bool) (value : Option Int) :
    '\n' ∉ (flagText stay value).toList := by
  rw [flagText_eq, not_mem_append]
  refine ⟨by cases stay <;> decide, ?_⟩
  cases value with
  | none => decide
  | some v => exact not_mem_append.mpr ⟨by decide, not_mem_toString (by decide) v⟩

/-! ### Keys of a table -/

/-- Behind the first key of a table each further one brings its comma along. -/
theorem toList_keys (k : UInt8) (keys : List UInt8) :
    (", ".intercalate ((k :: keys).map byteText)).toList =
      (byteText k).toList ++ keys.flatMap fun k => ", ".toList ++ (byteText k).toList := by
  rw [String.toList_intercalate]
  induction keys generalizing k with
  | nil => simp
  | cons k' keys ih =>
    simp only [List.map_cons, List.intercalate_cons_cons] at ih ⊢
    rw [ih, List.flatMap_cons, List.append_assoc, List.append_assoc]

/-- The keys of a table are read back up to the bracket behind them. -/
theorem keys_split {keys keys' : List UInt8} {r r' : List Char}
    (h : (", ".intercalate (keys.map byteText)).toList ++ ']' :: r =
      (", ".intercalate (keys'.map byteText)).toList ++ ']' :: r') : keys = keys' ∧ r = r' := by
  have hfurther : SelfDelimiting fun k => ", ".toList ++ (byteText k).toList := by
    intro a b r r' hab
    simp only [List.append_assoc] at hab
    exact selfDelimiting_byteText (List.append_cancel_left hab)
  have hbracket : ∀ (k : UInt8) (keys : List UInt8) (r r' : List Char),
      (", ".intercalate ((k :: keys).map byteText)).toList ++ r ≠ ']' :: r' := by
    intro k keys r r' hk
    rw [toList_keys, toList_byteText] at hk
    exact absurd (List.cons.inj hk).1 (by decide)
  cases keys with
  | nil =>
    cases keys' with
    | nil => exact ⟨rfl, (List.cons.inj h).2⟩
    | cons k' keys' => exact absurd h.symm (hbracket k' keys' _ _)
  | cons k keys =>
    cases keys' with
    | nil => exact absurd h (hbracket k keys _ _)
    | cons k' keys' =>
      rw [toList_keys, toList_keys, List.append_assoc, List.append_assoc] at h
      obtain ⟨rfl, hrest⟩ := selfDelimiting_byteText h
      obtain ⟨rfl, hr⟩ := hfurther.list (fun k => ⟨',', rfl, by decide⟩) hrest
      exact ⟨rfl, hr⟩

theorem newline_not_mem_keys (keys : List UInt8) :
    '\n' ∉ (", ".intercalate (keys.map byteText)).toList := by
  cases keys with
  | nil => decide
  | cons k keys =>
    rw [toList_keys]
    simp [newline_not_mem_byteText]

/-! ### What stands before the arrow of an edge -/

/-- What the edge for a returned code shows: the code. -/
def ReturnEdge.label (e : ReturnEdge) : String := toString e.code

/-- What the edge for a byte shows: the byte and the remarks. -/
def ByteEdge.label (e : ByteEdge) : String := byteText e.key ++ flagText e.stay e.value

/-- What the edge behind a run shows; the bytes stand in the first line of the state. -/
def RunEdge.label (e : RunEdge) : String := "match" ++ flagText false e.value

/-- What an edge of a table shows: all its keys in one pair of brackets. -/
def TableEdge.label (e : TableEdge) : String :=
  "[" ++ ", ".intercalate (e.keys.map byteText) ++ "]" ++ flagText e.stay none

/-- What an otherwise edge shows; the word tells whether it leaves the byte. -/
def Fallback.label (o : Fallback) : String :=
  (if o.stay then "otherwise" else "skip_to") ++ flagText false o.value

theorem ReturnEdge.label_inj {e e' : ReturnEdge} (h : e.label = e'.label) : e.code = e'.code :=
  toString_inj h

/-- The label of an edge for a byte tells all but the target. -/
theorem ByteEdge.label_inj {e e' : ByteEdge} (h : e.label = e'.label) :
    e.key = e'.key ∧ e.stay = e'.stay ∧ e.value = e'.value := by
  have hlist := congrArg String.toList h
  rw [label, label, String.toList_append, String.toList_append] at hlist
  obtain ⟨hkey, hflags⟩ := selfDelimiting_byteText hlist
  exact ⟨hkey, flagText_inj (String.toList_inj.mp hflags)⟩

theorem RunEdge.label_inj {e e' : RunEdge} (h : e.label = e'.label) : e.value = e'.value :=
  (flagText_inj (append_cancel h)).2

/-- The label of an edge of a table tells all but the target. -/
theorem TableEdge.label_inj {e e' : TableEdge} (h : e.label = e'.label) :
    e.keys = e'.keys ∧ e.stay = e'.stay := by
  have hlist := congrArg String.toList h
  simp only [label, String.toList_append, List.append_assoc] at hlist
  obtain ⟨hkeys, hflags⟩ := keys_split (List.append_cancel_left hlist)
  exact ⟨hkeys, (flagText_inj (String.toList_inj.mp hflags)).1⟩

/-- One letter tells an otherwise edge that stays from one that advances. -/
theorem Fallback.head?_label (o : Fallback) :
    o.label.toList.head? = some (if o.stay then 'o' else 's') := by
  cases hstay : o.stay <;> simp [label, hstay]

/-- The label of an otherwise edge tells all but the target. -/
theorem Fallback.label_inj {o o' : Fallback} (h : o.label = o'.label) :
    o.stay = o'.stay ∧ o.value = o'.value := by
  have hstay : o.stay = o'.stay := by
    have hhead := o.head?_label
    rw [h, o'.head?_label] at hhead
    cases hs : o.stay <;> cases hs' : o'.stay <;> simp_all
  rw [label, label, hstay] at h
  exact ⟨hstay, (flagText_inj (append_cancel h)).2⟩

/-- **A label of an edge that belongs to a kind** is one line and no label of an otherwise edge. -/
structure EdgeLabel (label : String) : Prop where
  oneLine : '\n' ∉ label.toList
  head : ∃ c, label.toList.head? = some c ∧ c ≠ 'o' ∧ c ≠ 's'

/-- A code begins with a digit or a sign. -/
theorem ReturnEdge.edgeLabel (e : ReturnEdge) : EdgeLabel e.label := by
  refine ⟨not_mem_toString (by decide) e.code, ?_⟩
  cases hlist : e.label.toList with
  | nil =>
    rw [label, toList_toString] at hlist
    exact absurd (List.append_eq_nil_iff.mp hlist).2 Nat.toDigits_ne_nil
  | cons c rest =>
    refine ⟨c, rfl, ?_⟩
    have hmem : c ∈ (toString e.code).toList := hlist ▸ List.mem_cons_self
    rcases mem_toString hmem with rfl | hdigit
    · decide
    · constructor <;> (rintro rfl; exact absurd hdigit (by decide))

/-- A byte begins with a quote. -/
theorem ByteEdge.edgeLabel (e : ByteEdge) : EdgeLabel e.label where
  oneLine := not_mem_append.mpr ⟨newline_not_mem_byteText _, newline_not_mem_flagText _ _⟩
  head := ⟨'\'', by simp [label, toList_byteText], by decide⟩

theorem RunEdge.edgeLabel (e : RunEdge) : EdgeLabel e.label where
  oneLine := not_mem_append.mpr ⟨by decide, newline_not_mem_flagText _ _⟩
  head := ⟨'m', by simp [label], by decide⟩

/-- The keys of a table begin with a bracket. -/
theorem TableEdge.edgeLabel (e : TableEdge) : EdgeLabel e.label where
  oneLine := by
    simp only [label, not_mem_append]
    exact ⟨⟨⟨by decide, newline_not_mem_keys _⟩, by decide⟩, newline_not_mem_flagText _ _⟩
  head := ⟨'[', by simp [label], by decide⟩

/-! ## Lines of edges -/

section Lines
variable {m m' : Machine}

theorem toList_edgeLine (m : Machine) (label : String) (target : Nat) :
    (m.edgeLine label target).toList =
      ' ' :: ' ' :: label.toList ++ [' ', '=', '>'] ++ ' ' :: (m.stateName target).toList := by
  simp [edgeLine]

/-- **An edge is read back**: the last blank stands before the name of the target. -/
theorem edgeLine_inj {label label' : String} {t t' : Nat} (h : ' ' ∉ (m.stateName t).toList)
    (h' : ' ' ∉ (m'.stateName t').toList) (heq : m.edgeLine label t = m'.edgeLine label' t') :
    label = label' ∧ m.stateName t = m'.stateName t' := by
  have hlist := congrArg String.toList heq
  rw [toList_edgeLine, toList_edgeLine] at hlist
  obtain ⟨hlabel, hname⟩ := split_last h h' hlist
  have hlabel : label.toList = label'.toList := by simpa using hlabel
  exact ⟨String.toList_inj.mp hlabel, String.toList_inj.mp hname⟩

/-- Every line for an edge of a kind is made from such a label. -/
theorem mem_edgeLines {kind : Kind} {line : String} (h : line ∈ m.edgeLines kind) :
    ∃ label target, EdgeLabel label ∧ line = m.edgeLine label target := by
  cases kind with
  | invoke callback edges =>
    obtain ⟨e, -, rfl⟩ := List.mem_map.mp h
    exact ⟨_, _, e.edgeLabel, rfl⟩
  | branch transform edges =>
    obtain ⟨e, -, rfl⟩ := List.mem_map.mp h
    exact ⟨_, _, e.edgeLabel, rfl⟩
  | run transform bytes edge =>
    obtain ⟨e, -, rfl⟩ := List.mem_map.mp h
    exact ⟨_, _, e.edgeLabel, rfl⟩
  | table transform edges =>
    obtain ⟨e, -, rfl⟩ := List.mem_map.mp h
    exact ⟨_, _, e.edgeLabel, rfl⟩
  | _ => cases h

/-- Lines below the first line of a state are indented. -/
def isIndented (line : String) : Bool := line.toList.head? = some ' '

theorem isIndented_edgeLine (m : Machine) (label : String) (target : Nat) :
    isIndented (m.edgeLine label target) = true := by
  simp [isIndented, toList_edgeLine]

/-- A line for an otherwise edge is known by the letter behind the indentation. -/
def isOtherwiseLine (line : String) : Bool :=
  line.toList[2]? = some 'o' || line.toList[2]? = some 's'

/-- The first letter of a label is the third of its line. -/
theorem getElem?_edgeLine {label : String} {c : Char} (h : label.toList.head? = some c)
    (m : Machine) (target : Nat) : (m.edgeLine label target).toList[2]? = some c := by
  cases hlist : label.toList with
  | nil => simp [hlist] at h
  | cons d rest =>
    rw [hlist] at h
    simp [toList_edgeLine, hlist, Option.some.inj h]

/-- No line for an edge of a kind is taken for the otherwise edge. -/
theorem isOtherwiseLine_edgeLines {kind : Kind} {line : String} (h : line ∈ m.edgeLines kind) :
    isOtherwiseLine line = false := by
  obtain ⟨label, target, hlabel, rfl⟩ := mem_edgeLines h
  obtain ⟨c, hc, ho, hs⟩ := hlabel.head
  simp [isOtherwiseLine, getElem?_edgeLine hc, ho, hs]

/-- The line for an otherwise edge is known as such. -/
theorem isOtherwiseLine_otherwiseLine (o : Fallback) :
    isOtherwiseLine (m.otherwiseLine o) = true := by
  have hletter : (m.otherwiseLine o).toList[2]? = some (if o.stay then 'o' else 's') :=
    getElem?_edgeLine o.head?_label m o.target
  cases hstay : o.stay <;> simp [isOtherwiseLine, hletter, hstay]

end Lines

/-! ## First lines of states -/

section FirstLines
variable {m m' : Machine}

theorem plain_word (k : Kind) : ' ' ∉ k.word.toList ∧ '\n' ∉ k.word.toList := by
  cases k <;> simp [Kind.word]

/-- A transform between brackets, unless it is the identity or missing. -/
def bracketed : Option Transform → String
  | none | some .identity => ""
  | some .toLowerUnsafe => " [to_lower_unsafe]"

theorem transformText_eq (m : Machine) (k : Kind) :
    m.transformText k = bracketed (k.transform?.bind (m.transforms[·]?)) := by
  unfold transformText
  cases k.transform?.bind (m.transforms[·]?) with
  | none => rfl
  | some t => cases t <;> rfl

/-- Transforms are told apart: the identity alone is not shown. -/
theorem bracketed_inj {t t' : Transform} (h : bracketed (some t) = bracketed (some t')) :
    t = t' := by
  cases t <;> cases t' <;> first | rfl | exact absurd h (by decide)

theorem newline_not_mem_transformText (m : Machine) (k : Kind) :
    '\n' ∉ (m.transformText k).toList := by
  rw [transformText_eq]
  rcases k.transform?.bind (m.transforms[·]?) with _ | _ | _ <;> decide

theorem details_of_none {k : Kind} (m : Machine) (h : k.transform? = none) :
    m.kindText k ++ m.transformText k = m.kindText k := by
  rw [transformText_eq, h]
  exact String.append_empty

/-- What follows the word for a kind begins with a blank, if anything follows. -/
theorem head?_details (m : Machine) (k : Kind) :
    ∀ c ∈ (m.kindText k ++ m.transformText k).toList.head?, c = ' ' := by
  have hkind : ∀ c ∈ (m.kindText k).toList.head?, c = ' ' := by
    cases k <;> simp [kindText]
  have htransform : ∀ c ∈ (m.transformText k).toList.head?, c = ' ' := by
    rw [transformText_eq]
    rcases k.transform?.bind (m.transforms[·]?) with _ | _ | _ <;> simp [bracketed]
  intro c hc
  rw [String.toList_append, List.head?_append] at hc
  rcases Option.or_eq_some_iff.mp hc with hc | ⟨-, hc⟩
  · exact hkind c hc
  · exact htransform c hc

/-- The first blank ends the name of a state, and the next one, if any, its word. -/
theorem header_inj {s s' : State} (hs : ' ' ∉ s.name.toList) (hs' : ' ' ∉ s'.name.toList)
    (h : s.name ++ ": " ++ s.kind.word ++ m.kindText s.kind ++ m.transformText s.kind =
      s'.name ++ ": " ++ s'.kind.word ++ m'.kindText s'.kind ++ m'.transformText s'.kind) :
    s.name = s'.name ∧ s.kind.word = s'.kind.word ∧
      m.kindText s.kind ++ m.transformText s.kind =
        m'.kindText s'.kind ++ m'.transformText s'.kind := by
  have hlist : (s.name.toList ++ [':']) ++ ' ' :: (s.kind.word.toList ++
        (m.kindText s.kind ++ m.transformText s.kind).toList) =
      (s'.name.toList ++ [':']) ++ ' ' :: (s'.kind.word.toList ++
        (m'.kindText s'.kind ++ m'.transformText s'.kind).toList) := by
    simpa using congrArg String.toList h
  obtain ⟨hname, hrest⟩ := split_first (by simpa using hs) (by simpa using hs') hlist
  obtain ⟨hword, hdetails⟩ := split_before (plain_word _).1 (plain_word _).1
    (head?_details m _) (head?_details m' _) hrest
  exact ⟨String.toList_inj.mp (List.append_cancel_right hname), String.toList_inj.mp hword,
    String.toList_inj.mp hdetails⟩

/-- What an error or a pause shows is read back: a code holds no blank. -/
theorem report_inj {code code' : Int} {reason reason' : String}
    (h : " " ++ toString code ++ " " ++ quote reason =
      " " ++ toString code' ++ " " ++ quote reason') : code = code' ∧ reason = reason' := by
  have hlist := congrArg String.toList h
  simp only [String.toList_append, List.append_assoc] at hlist
  obtain ⟨hcode, hreason⟩ := split_first (not_mem_toString (by decide) code)
    (not_mem_toString (by decide) code') (List.append_cancel_left hlist)
  exact ⟨toString_inj (String.toList_inj.mp hcode), quote_inj (String.toList_inj.mp hreason)⟩

/-- What the start or the end of a span shows is read back: a place holds no blank. -/
theorem mark_inj {place place' : Nat} {callback callback' : String}
    (h : " #" ++ toString place ++ " " ++ callback = " #" ++ toString place' ++ " " ++ callback') :
    place = place' ∧ callback = callback' := by
  have hlist := congrArg String.toList h
  simp only [String.toList_append, List.append_assoc] at hlist
  obtain ⟨hplace, hcallback⟩ := split_first (not_mem_toString (by decide) place)
    (not_mem_toString (by decide) place') (List.append_cancel_left hlist)
  exact ⟨Int.ofNat.inj (toString_inj (String.toList_inj.mp hplace)), String.toList_inj.mp hcallback⟩

/-- The bytes of a run are read back up to the quote behind them. -/
theorem run_inj {bytes bytes' : List UInt8} {t t' : String}
    (h : " \"" ++ escapeBytes bytes ++ "\"" ++ t = " \"" ++ escapeBytes bytes' ++ "\"" ++ t') :
    bytes = bytes' ∧ t = t' := by
  have hlist := congrArg String.toList h
  simp only [String.toList_append, List.append_assoc] at hlist
  obtain ⟨hbytes, ht⟩ := escapeBytes_split (List.append_cancel_left hlist)
  exact ⟨hbytes, String.toList_inj.mp ht⟩

/-- Transforms that are shown alike are alike, in whatever places they are kept. -/
theorem transforms_eq {k k' : Kind} {i i' : Nat} (hk : k.transform? = some i)
    (hk' : k'.transform? = some i') (hi : i < m.transforms.size) (hi' : i' < m'.transforms.size)
    (h : m.transformText k = m'.transformText k') : m.transforms[i]? = m'.transforms[i']? := by
  rw [transformText_eq, transformText_eq, hk, hk', Option.bind_some, Option.bind_some,
    Array.getElem?_eq_getElem hi, Array.getElem?_eq_getElem hi'] at h
  rw [Array.getElem?_eq_getElem hi, Array.getElem?_eq_getElem hi', bracketed_inj h]

end FirstLines

end ByteMachine.Machine
