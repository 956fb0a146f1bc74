import ByteMachine.Text
import Mathlib.Data.List.Chain

/-! # Reading texts back

A text that is put together from parts can be read back when it is certain where each part ends.
There are two ways to make it certain.  A part may hold no character of some kind, so that the
next such character ends it (`split_where`): numbers hold no blanks, and lines no line breaks.  Or
a part shows its own end, whatever follows (`SelfDelimiting`), as every escaped byte and every
quoted character does.  Whole texts are read line by line (`lines_inj`), and lines block by block
when each block has a first line unlike the others (`blocks_inj`).

Bytes and quoted characters share their manner of writing (`Written`): a character stands for
itself, or a backslash and a letter stand for it, or a backslash and a mark with the digits of its
code.  Which of the three it is shows in the first two characters, so no such text begins
another one (`Written.unique`). -/
namespace ByteMachine.Text

/-! ## Where a text splits -/

section Split
variable {α : Type} {p : α → Bool} {xs ys xs' ys' : List α}

theorem takeWhile_append_eq (hxs : ∀ x ∈ xs, p x = true) (hys : ∀ y ∈ ys.head?, p y = false) :
    (xs ++ ys).takeWhile p = xs := by
  rw [List.takeWhile_append_of_pos hxs]
  cases ys with
  | nil => exact List.append_nil xs
  | cons y ys => rw [List.takeWhile_cons_of_neg (by simp [hys y rfl]), List.append_nil]

/-- **A list splits where a property ends.** -/
theorem split_where (hxs : ∀ x ∈ xs, p x = true) (hys : ∀ y ∈ ys.head?, p y = false)
    (hxs' : ∀ x ∈ xs', p x = true) (hys' : ∀ y ∈ ys'.head?, p y = false)
    (h : xs ++ ys = xs' ++ ys') : xs = xs' ∧ ys = ys' := by
  obtain rfl : xs = xs' := by
    rw [← takeWhile_append_eq hxs hys, h, takeWhile_append_eq hxs' hys']
  exact ⟨rfl, List.append_cancel_left h⟩

end Split

section Splits
variable {c : Char} {u v x y : List Char}

/-- What stands before the first of some characters is determined, also when none comes. -/
theorem split_before (hu : c ∉ u) (hv : c ∉ v) (hx : ∀ d ∈ x.head?, d = c)
    (hy : ∀ d ∈ y.head?, d = c) (h : u ++ x = v ++ y) : u = v ∧ x = y := by
  have hother : ∀ w : List Char, c ∉ w → ∀ d ∈ w, decide (d ≠ c) = true := by
    intro w hw d hd
    exact decide_eq_true fun hdc => hw (hdc ▸ hd)
  refine split_where (hother u hu) ?_ (hother v hv) ?_ h
  · exact fun d hd => decide_eq_false fun hne => hne (hx d hd)
  · exact fun d hd => decide_eq_false fun hne => hne (hy d hd)

/-- What stands before the first occurrence of a character is determined. -/
theorem split_first (hu : c ∉ u) (hv : c ∉ v) (h : u ++ c :: x = v ++ c :: y) : u = v ∧ x = y := by
  obtain ⟨hfirst, hrest⟩ := split_before hu hv (by simp) (by simp) h
  exact ⟨hfirst, (List.cons.inj hrest).2⟩

/-- What stands behind the last occurrence of a character is determined. -/
theorem split_last (hx : c ∉ x) (hy : c ∉ y) (h : u ++ c :: x = v ++ c :: y) : u = v ∧ x = y := by
  have hrev : x.reverse ++ c :: u.reverse = y.reverse ++ c :: v.reverse := by
    simpa using congrArg List.reverse h
  obtain ⟨hlast, hfirst⟩ := split_first (by simpa using hx) (by simpa using hy) hrev
  exact ⟨List.reverse_inj.mp hfirst, List.reverse_inj.mp hlast⟩

end Splits

theorem append_cancel {w s t : String} (h : w ++ s = w ++ t) : s = t := by
  have := congrArg String.toList h
  rw [String.toList_append, String.toList_append] at this
  exact String.toList_inj.mp (List.append_cancel_left this)

theorem not_mem_append {c : Char} {s t : String} :
    c ∉ (s ++ t).toList ↔ c ∉ s.toList ∧ c ∉ t.toList := by
  rw [String.toList_append, List.mem_append, not_or]

/-! ## Numbers -/

/-- The digits of a number, behind a sign when it is negative. -/
theorem toList_toString (n : Int) :
    (toString n).toList = (if n < 0 then ['-'] else []) ++ Nat.toDigits 10 n.natAbs := by
  cases n with
  | ofNat m =>
    have hsign : ¬ Int.ofNat m < 0 := Int.not_lt.mpr (Int.natCast_nonneg m)
    show (Nat.repr m).toList = _
    rw [Nat.toList_repr, if_neg hsign]
    rfl
  | negSucc m =>
    show ("-" ++ Nat.repr (m + 1)).toList = _
    rw [String.toList_append, Nat.toList_repr, if_pos (Int.negSucc_lt_zero m)]
    rfl

theorem mem_toString {n : Int} {c : Char} (h : c ∈ (toString n).toList) :
    c = '-' ∨ c.isDigit = true := by
  rw [toList_toString] at h
  rcases List.mem_append.mp h with h | h
  · split at h
    · exact .inl (List.mem_singleton.mp h)
    · cases h
  · exact .inr (Nat.isDigit_of_mem_toDigits (by decide) (by decide) h)

theorem not_mem_toString {c : Char} (h : ¬ (c = '-' ∨ c.isDigit = true)) (n : Int) :
    c ∉ (toString n).toList :=
  fun hmem => h (mem_toString hmem)

theorem toString_inj {m n : Int} (h : toString m = toString n) : m = n := by
  have hdigits : ∀ {k l : Nat}, Nat.toDigits 10 k = Nat.toDigits 10 l → k = l := by
    intro k l hkl
    have := congrArg (Nat.ofDigitChars 10 · 0) hkl
    simpa only [Nat.ofDigitChars_ten_toDigits] using this
  have hsign : ∀ {k l : Nat}, '-' :: Nat.toDigits 10 k ≠ Nat.toDigits 10 l := by
    intro k l hkl
    have hmem : '-' ∈ Nat.toDigits 10 l := by simp [← hkl]
    have := Nat.isDigit_of_mem_toDigits (by decide) (by decide) hmem
    revert this
    decide
  replace h := congrArg String.toList h
  rw [toList_toString, toList_toString] at h
  by_cases hm : m < 0
  · by_cases hn : n < 0
    · rw [if_pos hm, if_pos hn] at h
      have := hdigits (List.append_cancel_left h)
      omega
    · rw [if_pos hm, if_neg hn] at h
      exact absurd h hsign
  · by_cases hn : n < 0
    · rw [if_neg hm, if_pos hn] at h
      exact absurd h.symm hsign
    · rw [if_neg hm, if_neg hn] at h
      have := hdigits (List.append_cancel_left h)
      omega

/-- The characters of a hexadecimal number are digits. -/
theorem mem_hexDigits {n : Nat} {c : Char} (h : c ∈ Nat.toDigits 16 n) :
    ∃ d < 16, c = Nat.digitChar d := by
  induction n using Nat.strongRecOn with
  | ind n ih =>
    rw [Nat.toDigits_eq_if (by decide)] at h
    split at h
    · rename_i hn
      exact ⟨n, hn, List.mem_singleton.mp h⟩
    · rcases List.mem_append.mp h with h | h
      · exact ih (n / 16) (by omega) h
      · exact ⟨n % 16, Nat.mod_lt _ (by decide), List.mem_singleton.mp h⟩

theorem digitChar_inj : ∀ a < 16, ∀ b < 16, Nat.digitChar a = Nat.digitChar b → a = b := by
  decide

theorem hexDigits_inj {m n : Nat} (h : Nat.toDigits 16 m = Nat.toDigits 16 n) : m = n := by
  have hlong : ∀ (k : Nat) (c d : Char), [c] ≠ Nat.toDigits 16 k ++ [d] := by
    intro k c d hk
    have hlength := congrArg List.length hk
    have hpos := Nat.length_toDigits_pos (b := 16) (n := k)
    simp only [List.length_cons, List.length_nil, List.length_append] at hlength
    omega
  induction m using Nat.strongRecOn generalizing n with
  | ind m ih =>
    rw [Nat.toDigits_eq_if (by decide), Nat.toDigits_eq_if (b := 16) (n := n) (by decide)] at h
    by_cases hm : m < 16
    · by_cases hn : n < 16
      · rw [if_pos hm, if_pos hn] at h
        exact digitChar_inj m hm n hn (List.cons.inj h).1
      · rw [if_pos hm, if_neg hn] at h
        exact absurd h (hlong _ _ _)
    · by_cases hn : n < 16
      · rw [if_neg hm, if_pos hn] at h
        exact absurd h.symm (hlong _ _ _)
      · rw [if_neg hm, if_neg hn] at h
        obtain ⟨hinit, hlast⟩ := List.append_inj' h rfl
        have hdiv := ih (m / 16) (by omega) hinit
        have hmod := digitChar_inj (m % 16) (by omega) (n % 16) (by omega) (List.cons.inj hlast).1
        omega

/-! ## Texts that show their own end -/

/-- **A text shows its own end**: whatever follows, it can be told where the text ends and what it
says. -/
def SelfDelimiting {α : Type} (text : α → List Char) : Prop :=
  ∀ ⦃a b : α⦄ ⦃r r' : List Char⦄, text a ++ r = text b ++ r' → a = b ∧ r = r'

/-- So does a list of such texts, up to a character that begins none of them. -/
theorem SelfDelimiting.list {α : Type} {text : α → List Char} (h : SelfDelimiting text)
    {stop : Char} (hstop : ∀ a, ∃ c, (text a).head? = some c ∧ c ≠ stop) {as bs : List α}
    {r r' : List Char} (heq : as.flatMap text ++ stop :: r = bs.flatMap text ++ stop :: r') :
    as = bs ∧ r = r' := by
  have hnot : ∀ (a : α) (rest tail : List Char), text a ++ rest ≠ stop :: tail := by
    intro a rest tail htext
    obtain ⟨c, hc, hne⟩ := hstop a
    have hhead := congrArg List.head? htext
    rw [List.head?_append, hc] at hhead
    exact hne (Option.some.inj hhead)
  induction as generalizing bs with
  | nil =>
    cases bs with
    | nil => exact ⟨rfl, (List.cons.inj heq).2⟩
    | cons b bs =>
      rw [List.flatMap_cons, List.append_assoc] at heq
      exact absurd heq.symm (hnot b _ _)
  | cons a as ih =>
    rw [List.flatMap_cons, List.append_assoc] at heq
    cases bs with
    | nil => exact absurd heq (hnot a _ _)
    | cons b bs =>
      rw [List.flatMap_cons, List.append_assoc] at heq
      obtain ⟨hfirst, hothers⟩ := h heq
      obtain ⟨hrest, hr⟩ := ih hothers
      exact ⟨by rw [hfirst, hrest], hr⟩

/-! ## Escapes -/

/-- What a letter behind a backslash stands for, by its code. -/
def unescape : Char → Nat
  | '0' => 0x00
  | 't' => 0x09
  | 'n' => 0x0A
  | 'r' => 0x0D
  | c => c.toNat

/-- **How a code is written** on one line: as its character, with a backslash and a letter, or with
a backslash, a mark and digits. -/
inductive Written (mark : Char) (digits : Nat → List Char) : Nat → List Char → Prop
  | plain {c : Char} (hescape : c ≠ '\\') (hquote : c ≠ '"') (hline : c ≠ '\n') :
      Written mark digits c.toNat [c]
  | short {c : Char} (hmark : c ≠ mark) (hline : c ≠ '\n') :
      Written mark digits (unescape c) ['\\', c]
  | long (n : Nat) : Written mark digits n ('\\' :: mark :: digits n)

section Written
variable {mark : Char} {digits : Nat → List Char} {m n : Nat} {t t' r r' : List Char}

/-- **No written code begins another one**, when their digits do not. -/
theorem Written.unique (h : Written mark digits m t) (h' : Written mark digits n t')
    (hdigits : ∀ {r r'}, digits m ++ r = digits n ++ r' → m = n) (heq : t ++ r = t' ++ r') :
    m = n := by
  obtain ⟨hfirst, hrest⟩ : t.head? = t'.head? ∧ t.tail ++ r = t'.tail ++ r' := by
    cases h <;> cases h' <;> simpa using heq
  cases h with
  | plain hescape =>
    cases h' with
    | plain => rw [Option.some.inj hfirst]
    | short | long => exact absurd (Option.some.inj hfirst) hescape
  | short hmark =>
    cases h' with
    | plain hescape => exact absurd (Option.some.inj hfirst).symm hescape
    | short => rw [(List.cons.inj hrest).1]
    | long => exact absurd (List.cons.inj hrest).1 hmark
  | long =>
    cases h' with
    | plain hescape => exact absurd (Option.some.inj hfirst).symm hescape
    | short hmark => exact absurd (List.cons.inj hrest).1.symm hmark
    | long => exact hdigits (List.cons.inj hrest).2

theorem Written.head? (h : Written mark digits n t) : ∃ c, t.head? = some c ∧ c ≠ '"' := by
  cases h with
  | plain _ hquote => exact ⟨_, rfl, hquote⟩
  | short | long => exact ⟨_, rfl, by decide⟩

theorem Written.newline_not_mem (h : Written mark digits n t) (hmark : mark ≠ '\n')
    (hdigits : '\n' ∉ digits n) : '\n' ∉ t := by
  cases h with
  | plain _ _ hline => simp [hline.symm]
  | short _ hline => simp [hline.symm]
  | long => simp [hmark.symm, hdigits]

end Written

/-- The two digits of a byte. -/
def byteDigits (n : Nat) : List Char := [Nat.digitChar (n / 16), Nat.digitChar (n % 16)]

theorem written_escapeByte (b : UInt8) :
    Written 'x' byteDigits b.toNat (escapeByte b).toList := by
  unfold escapeByte
  split
  case h_1 h => exact h ▸ .short (c := 't') (by decide) (by decide)
  case h_2 h => exact h ▸ .short (c := 'n') (by decide) (by decide)
  case h_3 h => exact h ▸ .short (c := 'r') (by decide) (by decide)
  case h_4 h => exact h ▸ .short (c := '"') (by decide) (by decide)
  case h_5 h => exact h ▸ .short (c := '\'') (by decide) (by decide)
  case h_6 h => exact h ▸ .short (c := '\\') (by decide) (by decide)
  case h_7 hline _ hquote _ hescape =>
    split
    · rename_i hrange
      have hcode : (Char.ofNat b.toNat).toNat = b.toNat := by
        rw [Char.ofNat, dif_pos (Or.inl (by omega))]
        rfl
      have hne : ∀ c : Char, b.toNat ≠ c.toNat → Char.ofNat b.toNat ≠ c := by
        rintro _ hne rfl
        exact hne hcode.symm
      have hplain : Written 'x' byteDigits (Char.ofNat b.toNat).toNat [Char.ofNat b.toNat] :=
        .plain (hne '\\' hescape) (hne '"' hquote) (hne '\n' hline)
      rwa [hcode, ← String.toList_singleton] at hplain
    · simp only [String.toList_append, String.toList_ofList]
      exact .long _

/-- The digits of a code between braces. -/
def bracedDigits (n : Nat) : List Char := '{' :: Nat.toDigits 16 n ++ ['}']

theorem written_quoteChar (c : Char) :
    Written 'u' bracedDigits c.toNat (quoteChar c).toList := by
  unfold quoteChar
  split
  case h_1 h => exact h ▸ .short (c := '0') (by decide) (by decide)
  case h_2 h => exact h ▸ .short (c := 't') (by decide) (by decide)
  case h_3 h => exact h ▸ .short (c := 'n') (by decide) (by decide)
  case h_4 h => exact h ▸ .short (c := 'r') (by decide) (by decide)
  case h_5 h => exact h ▸ .short (c := '"') (by decide) (by decide)
  case h_6 h => exact h ▸ .short (c := '\\') (by decide) (by decide)
  case h_7 _ _ hline _ hquote hescape =>
    split
    · simp only [String.toList_append, String.toList_ofList]
      exact .long _
    · rw [String.toList_singleton]
      exact .plain (fun h => hescape (h ▸ rfl)) (fun h => hquote (h ▸ rfl))
        fun h => hline (h ▸ rfl)

/-! ## Unprintable characters -/

/-- In ascending ranges the search misses nothing: behind the range at which it stops, all
ranges begin beyond the number. -/
theorem Unprintable.covers_iff {rs : List (Nat × Nat)} (h : rs.Pairwise fun r s => r.1 < s.1)
    {n : Nat} : covers rs n = true ↔ ∃ r ∈ rs, r.1 ≤ n ∧ n ≤ r.2 := by
  induction rs with
  | nil => simp [covers]
  | cons r rs ih =>
    obtain ⟨hfirst, hrest⟩ := List.pairwise_cons.mp h
    rw [covers, List.exists_mem_cons_iff, ← ih hrest]
    by_cases hn : n < r.1
    · have hnone : ¬ covers rs n = true := by
        rw [ih hrest]
        rintro ⟨s, hs, hlow, -⟩
        have := hfirst s hs
        omega
      simp [hn, hnone, Nat.not_le.mpr hn]
    · simp [hn, Nat.le_of_not_lt hn]

theorem Unprintable.ranges_ascend : ranges.Pairwise fun r s => r.1 < s.1 := by
  -- neighbours decide it; comparing every two of the ranges would take minutes
  have hchain : ranges.IsChain fun r s => r.1 < s.1 := by decide +kernel
  have : IsTrans (Nat × Nat) fun r s => r.1 < s.1 := ⟨fun _ _ _ => Nat.lt_trans⟩
  exact List.isChain_iff_pairwise.mp hchain

/-- **Unprintable characters** are the control characters of ASCII and those in the ranges. -/
theorem isUnprintable_iff {c : Char} :
    isUnprintable c = true ↔
      (c.toNat < 0x20 ∨ c.toNat = 0x7F) ∨
        0x80 ≤ c.toNat ∧ ∃ r ∈ Unprintable.ranges, r.1 ≤ c.toNat ∧ c.toNat ≤ r.2 := by
  rw [← Unprintable.covers_iff Unprintable.ranges_ascend]
  unfold isUnprintable
  by_cases hc : c.toNat < 0x80
  · simp [hc, Nat.not_le.mpr hc]
  · have hlow : ¬ (c.toNat < 0x20 ∨ c.toNat = 0x7F) := by omega
    simp [hc, hlow, Nat.le_of_not_lt hc]

/-! ## Bytes and quoted texts -/

theorem byteDigits_inj {m n : Nat} (hm : m < 256) (hn : n < 256) {r r' : List Char}
    (h : byteDigits m ++ r = byteDigits n ++ r') : m = n := by
  obtain ⟨hhigh, hrest⟩ := List.cons.inj h
  have hdiv := digitChar_inj (m / 16) (by omega) (n / 16) (by omega) hhigh
  have hmod := digitChar_inj (m % 16) (by omega) (n % 16) (by omega) (List.cons.inj hrest).1
  omega

/-- **An escaped byte shows its own end.** -/
theorem selfDelimiting_escapeByte : SelfDelimiting fun b => (escapeByte b).toList := by
  intro a b r r' h
  obtain rfl : a = b := UInt8.toNat_inj.mp <| (written_escapeByte a).unique (written_escapeByte b)
    (byteDigits_inj a.toNat_lt b.toNat_lt) h
  exact ⟨rfl, List.append_cancel_left h⟩

theorem toList_escapeBytes (bs : List UInt8) :
    (escapeBytes bs).toList = bs.flatMap fun b => (escapeByte b).toList := by
  rw [escapeBytes, String.toList_join, List.flatMap_map]

/-- A run of bytes is read back up to the quote behind it. -/
theorem escapeBytes_split {bs bs' : List UInt8} {r r' : List Char}
    (h : (escapeBytes bs).toList ++ '"' :: r = (escapeBytes bs').toList ++ '"' :: r') :
    bs = bs' ∧ r = r' := by
  rw [toList_escapeBytes, toList_escapeBytes] at h
  exact selfDelimiting_escapeByte.list (fun b => (written_escapeByte b).head?) h

theorem digitChar_ne_newline {d : Nat} (h : d < 16) : Nat.digitChar d ≠ '\n' := by
  revert d
  decide

theorem newline_not_mem_escapeByte (b : UInt8) : '\n' ∉ (escapeByte b).toList := by
  refine (written_escapeByte b).newline_not_mem (by decide) ?_
  have hb := b.toNat_lt
  have hhigh := digitChar_ne_newline (d := b.toNat / 16) (by omega)
  have hlow := digitChar_ne_newline (d := b.toNat % 16) (by omega)
  simp [byteDigits, hhigh.symm, hlow.symm]

theorem newline_not_mem_escapeBytes (bs : List UInt8) : '\n' ∉ (escapeBytes bs).toList := by
  simp [toList_escapeBytes, newline_not_mem_escapeByte]

theorem bracedDigits_inj {m n : Nat} {r r' : List Char}
    (h : bracedDigits m ++ r = bracedDigits n ++ r') : m = n := by
  have hbrace : ∀ k, '}' ∉ Nat.toDigits 16 k := by
    intro k hk
    obtain ⟨d, hd, heq⟩ := mem_hexDigits hk
    revert d
    decide
  simp only [bracedDigits, List.cons_append, List.append_assoc, List.nil_append] at h
  exact hexDigits_inj (split_first (hbrace m) (hbrace n) (List.cons.inj h).2).1

/-- **A quoted character shows its own end.** -/
theorem selfDelimiting_quoteChar : SelfDelimiting fun c => (quoteChar c).toList := by
  intro a b r r' h
  obtain rfl : a = b := Char.toNat_inj.mp <| (written_quoteChar a).unique (written_quoteChar b)
    bracedDigits_inj h
  exact ⟨rfl, List.append_cancel_left h⟩

theorem toList_quote (s : String) :
    (quote s).toList = '"' :: (s.toList.flatMap fun c => (quoteChar c).toList) ++ ['"'] := by
  simp only [quote, String.toList_append, String.toList_join, List.flatMap_map]
  rfl

/-- **A quoted text says what it quotes.** -/
theorem quote_inj {s t : String} (h : quote s = quote t) : s = t := by
  have hlist := congrArg String.toList h
  rw [toList_quote, toList_quote] at hlist
  exact String.toList_inj.mp (selfDelimiting_quoteChar.list
    (fun c => (written_quoteChar c).head?) (List.cons.inj hlist).2).1

theorem newline_not_mem_quote (s : String) : '\n' ∉ (quote s).toList := by
  have hchar : ∀ c, '\n' ∉ (quoteChar c).toList := by
    intro c
    refine (written_quoteChar c).newline_not_mem (by decide) fun h => ?_
    simp only [bracedDigits, List.cons_append, List.mem_cons, List.mem_append] at h
    obtain ⟨d, hd, heq⟩ := mem_hexDigits (c := '\n') (by simpa using h)
    exact digitChar_ne_newline hd heq.symm
  rw [toList_quote]
  simp [hchar]

/-! ## Lines and blocks -/

/-- A text of whole lines says what its lines are. -/
theorem lines_inj {lines lines' : List String} (h : ∀ l ∈ lines, '\n' ∉ l.toList)
    (h' : ∀ l ∈ lines', '\n' ∉ l.toList)
    (heq : String.join (lines.map (· ++ "\n")) = String.join (lines'.map (· ++ "\n"))) :
    lines = lines' := by
  replace heq := congrArg String.toList heq
  simp only [String.toList_join, List.flatMap_map, String.toList_append] at heq
  induction lines generalizing lines' with
  | nil =>
    cases lines' with
    | nil => rfl
    | cons l' lines' => simp at heq
  | cons l lines ih =>
    cases lines' with
    | nil => simp at heq
    | cons l' lines' =>
      obtain ⟨hl, hlines⟩ := List.forall_mem_cons.mp h
      obtain ⟨hl', hlines'⟩ := List.forall_mem_cons.mp h'
      simp only [List.flatMap_cons, List.append_assoc] at heq
      obtain ⟨hfirst, hrest⟩ := split_first hl hl' heq
      rw [String.toList_inj.mp hfirst, ih hlines hlines' hrest]

/-- A block: one item that opens it and others that do not. -/
def IsBlock {α : Type} (inside : α → Bool) (block : List α) : Prop :=
  ∃ x xs, block = x :: xs ∧ inside x = false ∧ ∀ y ∈ xs, inside y = true

/-- A list of blocks says where each of them begins. -/
theorem blocks_inj {α : Type} {inside : α → Bool} {blocks blocks' : List (List α)}
    (h : ∀ block ∈ blocks, IsBlock inside block) (h' : ∀ block ∈ blocks', IsBlock inside block)
    (heq : blocks.flatten = blocks'.flatten) : blocks = blocks' := by
  have hhead : ∀ bs : List (List α), (∀ block ∈ bs, IsBlock inside block) →
      ∀ y ∈ bs.flatten.head?, inside y = false := by
    intro bs hbs y hy
    cases bs with
    | nil => cases hy
    | cons block bs =>
      obtain ⟨x, xs, rfl, hx, -⟩ := hbs block List.mem_cons_self
      obtain rfl : x = y := Option.some.inj hy
      exact hx
  induction blocks generalizing blocks' with
  | nil =>
    cases blocks' with
    | nil => rfl
    | cons block' blocks' =>
      obtain ⟨x, xs, rfl, -⟩ := h' block' List.mem_cons_self
      cases heq
  | cons block blocks ih =>
    obtain ⟨hblock, hblocks⟩ := List.forall_mem_cons.mp h
    obtain ⟨x, xs, rfl, -, hxs⟩ := hblock
    cases blocks' with
    | nil => cases heq
    | cons block' blocks' =>
      obtain ⟨hblock', hblocks'⟩ := List.forall_mem_cons.mp h'
      obtain ⟨x', xs', rfl, -, hxs'⟩ := hblock'
      obtain ⟨rfl, htail⟩ := List.cons.inj heq
      obtain ⟨rfl, hrest⟩ :=
        split_where hxs (hhead blocks hblocks) hxs' (hhead blocks' hblocks') htail
      rw [ih hblocks hblocks' hrest]

end ByteMachine.Text
