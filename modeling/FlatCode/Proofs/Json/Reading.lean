import FlatCode.Json.Number
import FlatCode.Json.Printer
import FlatCode.Json.Reader
import Mathlib.Data.List.TakeDrop

/-! Reading takes back what printing writes, for every value whose numbers are integers and whose texts are all there.
    What is printed of a value is read up to its end, whatever follows it, as long as that cannot prolong a number. -/

namespace FlatCode.Json

/-! ### The first character -/

variable {c : Char} {j v : Json} {cs ds rest : List Char} {l : List Json} {level m : Nat}

/-- What starts with a digit or a sign is a number. -/
theorem value?_number {n : Nat} (h : skipSpace cs = c :: rest) (hc : c = '-' ∨ isDigit c = true) :
    value? (n + 1) cs = (numberLiteral (c :: rest)).map fun (l, r) => (.number (String.ofList l), r) := by
  have hne : c ≠ 'n' ∧ c ≠ 't' ∧ c ≠ 'f' ∧ c ≠ '"' ∧ c ≠ '[' ∧ c ≠ '\x7b' := by
    refine ⟨?_, ?_, ?_, ?_, ?_, ?_⟩ <;> rintro rfl <;> exact absurd hc (by decide)
  rw [value?, h]
  simp [hne, hc]

/-- What starts with a quote is a text. -/
theorem value?_quote {n : Nat} (h : skipSpace cs = '"' :: rest) :
    value? (n + 1) cs = (stringTail {} rest).map fun (t, r) => (.string t, r) := by
  rw [value?, h]
  rfl

/-! ### Numbers -/

def EndsNumber (rest : List Char) : Prop :=
  ∀ c ∈ rest.head?, isDigit c = false ∧ c ≠ '.' ∧ c ≠ 'e' ∧ c ≠ 'E'

theorem endsNumber_cons (h : isDigit c = false ∧ c ≠ '.' ∧ c ≠ 'e' ∧ c ≠ 'E') : EndsNumber (c :: rest) := by
  intro d hd
  obtain rfl : c = d := by simpa using hd
  exact h

theorem span_digits (hds : ∀ c ∈ ds, isDigit c = true) (hrest : EndsNumber rest) :
    (ds ++ rest).span isDigit = (ds, rest) := by
  have hstop : rest.takeWhile isDigit = [] ∧ rest.dropWhile isDigit = rest := by
    cases rest with
    | nil => exact ⟨rfl, rfl⟩
    | cons c rest => simp [(hrest c rfl).1]
  rw [List.span_eq_takeWhile_dropWhile, List.takeWhile_append_of_pos hds, List.dropWhile_append_of_pos hds, hstop.1,
    hstop.2, List.append_nil]

theorem digits1_append (hne : ds ≠ []) (hds : ∀ c ∈ ds, isDigit c = true)
    (hrest : EndsNumber rest) : digits1 (ds ++ rest) = .ok (ds, rest) := by
  unfold digits1
  rw [span_digits hds hrest]
  cases ds with
  | nil => exact absurd rfl hne
  | cons d ds => rfl

theorem isDigit_toDigits (n : Nat) : ∀ c ∈ Nat.toDigits 10 n, isDigit c = true :=
  fun _ hc => Nat.isDigit_of_mem_toDigits (by decide) (by decide) hc

/-- Only zero is written with a zero in front. -/
theorem eq_zero_of_toDigits {n : Nat} (h : Nat.toDigits 10 n = '0' :: ds) : n = 0 := by
  induction n using Nat.strongRecOn generalizing ds with
  | ind n ih =>
    by_cases hn : n < 10
    · rw [Nat.toDigits_of_lt_base hn] at h
      exact Nat.digitChar_eq_zero.mp (List.cons.inj h).1
    · rw [Nat.toDigits_of_base_le (by decide) (Nat.le_of_not_lt hn)] at h
      cases hdiv : Nat.toDigits 10 (n / 10) with
      | nil => exact absurd hdiv Nat.toDigits_ne_nil
      | cons d rest =>
        rw [hdiv] at h
        obtain rfl : d = '0' := (List.cons.inj h).1
        have := ih (n / 10) (by omega) hdiv
        omega

theorem wholePart_toDigits (n : Nat) (hrest : EndsNumber rest) :
    wholePart (Nat.toDigits 10 n ++ rest) = .ok (Nat.toDigits 10 n, rest) := by
  by_cases hn : n = 0
  · subst hn
    have hnone : rest.head?.any isDigit = false := by
      cases rest with
      | nil => rfl
      | cons c rest => exact (hrest c rfl).1
    simp [wholePart, hnone]
  · have hdigits := digits1_append Nat.toDigits_ne_nil (isDigit_toDigits n) hrest
    cases hds : Nat.toDigits 10 n with
    | nil => exact absurd hds Nat.toDigits_ne_nil
    | cons d ds =>
      rw [hds] at hdigits
      have hd : d ≠ '0' := fun hd => hn (eq_zero_of_toDigits (hd ▸ hds))
      simpa [wholePart, hd] using hdigits

/-- Digits are a number without a fraction and an exponent. -/
theorem unsignedNumber_toDigits (n : Nat) (hrest : EndsNumber rest) :
    unsignedNumber (Nat.toDigits 10 n ++ rest) = .ok (Nat.toDigits 10 n, rest) := by
  have hfraction : fractionPart rest = .ok ([], rest) := by
    cases rest with
    | nil => rfl
    | cons c rest => simp [fractionPart, (hrest c rfl).2.1]
  have hexponent : exponentPart rest = .ok ([], rest) := by
    cases rest with
    | nil => rfl
    | cons c rest => simp [exponentPart, (hrest c rfl).2.2.1, (hrest c rfl).2.2.2]
  simp [unsignedNumber, wholePart_toDigits n hrest, hfraction, hexponent, bind, Except.bind, pure, Except.pure]

theorem head_toDigits (n : Nat) : ∃ d ds, Nat.toDigits 10 n = d :: ds ∧ isDigit d = true := by
  cases hds : Nat.toDigits 10 n with
  | nil => exact absurd hds Nat.toDigits_ne_nil
  | cons d ds => exact ⟨d, ds, rfl, isDigit_toDigits n d (by simp [hds])⟩

theorem toList_intLiteral (n : Int) :
    (intLiteral n).toList = if n < 0 then '-' :: Nat.toDigits 10 n.natAbs else Nat.toDigits 10 n.natAbs := by
  unfold intLiteral
  split <;> simp

theorem head_intLiteral (n : Int) : ∃ c cs, (intLiteral n).toList = c :: cs ∧ (c = '-' ∨ isDigit c = true) := by
  obtain ⟨d, ds, hds, hd⟩ := head_toDigits n.natAbs
  rw [toList_intLiteral, hds]
  split
  · exact ⟨_, _, rfl, .inl rfl⟩
  · exact ⟨_, _, rfl, .inr hd⟩

theorem numberLiteral_intLiteral (n : Int) (hrest : EndsNumber rest) :
    numberLiteral ((intLiteral n).toList ++ rest) = .ok ((intLiteral n).toList, rest) := by
  have hdigits := unsignedNumber_toDigits n.natAbs hrest
  rw [toList_intLiteral]
  split
  · simp [numberLiteral, hdigits, Except.map]
  · obtain ⟨d, ds, hds, hd⟩ := head_toDigits n.natAbs
    have hminus : d ≠ '-' := by
      rintro rfl
      exact absurd hd (by decide)
    rw [hds] at hdigits ⊢
    simpa [numberLiteral, hminus] using hdigits

theorem hex4?_control (n : Nat) (h : n < 0x20) :
    hex4? '0' '0' (Nat.digitChar (n / 16)) (Nat.digitChar (n % 16)) = some n := by
  revert n
  decide

/-- A written character is read as itself. -/
theorem stringTail_escapeChar (c : Char) (cs rest : List Char) :
    stringTail { chars := some cs } (escapeChar c ++ rest) = stringTail { chars := some (c :: cs) } rest := by
  unfold escapeChar
  split
  · subst_vars
    rfl
  split
  · subst_vars
    rfl
  split
  · subst_vars
    rfl
  split
  · subst_vars
    rfl
  split
  · subst_vars
    rfl
  split
  · subst_vars
    rfl
  split
  · subst_vars
    rfl
  split
  case isTrue hcontrol =>
    have hunit : Reading.unit { chars := some cs } c.toNat = { chars := some (c :: cs) } := by
      have hhigh : isHighSurrogate c.toNat = false := by
        simp only [isHighSurrogate, Bool.and_eq_false_iff, decide_eq_false_iff_not]
        omega
      have hlow : isLowSurrogate c.toNat = false := by
        simp only [isLowSurrogate, Bool.and_eq_false_iff, decide_eq_false_iff_not]
        omega
      simp [Reading.unit, hhigh, hlow, Reading.char, Char.ofNat_toNat]
    simp only [List.cons_append, List.nil_append, stringTail, hex4?_control _ hcontrol, hunit]
  case isFalse _ hbackslash _ _ _ _ _ hcontrol =>
    simp [stringTail, hbackslash, hcontrol, Reading.char]

theorem stringTail_flatMap (text cs rest : List Char) :
    stringTail { chars := some cs } (text.flatMap escapeChar ++ '"' :: rest) =
      .ok (some (String.ofList (cs.reverse ++ text)), rest) := by
  induction text generalizing cs with
  | nil => simp [stringTail, Reading.text]
  | cons c text ih =>
    rw [List.flatMap_cons, List.append_assoc, stringTail_escapeChar, ih]
    simp

/-- A written text is read as itself, after its opening quote. -/
theorem stringTail_text (s : String) (rest : List Char) :
    stringTail {} (s.toList.flatMap escapeChar ++ '"' :: rest) = .ok (some s, rest) := by
  rw [stringTail_flatMap]
  simp

/-- A written text, with what follows it. -/
theorem literalText_append (s : String) (rest : List Char) :
    literalText (some s) ++ rest = '"' :: (s.toList.flatMap escapeChar ++ '"' :: rest) := by
  simp [literalText]

/-! ### White space -/

theorem skipSpace_newLine (level : Nat) (cs : List Char) : skipSpace (newLine level ++ cs) = skipSpace cs := by
  have hblank : ∀ c ∈ newLine level, isSpace c = true := by
    intro c hc
    rcases List.mem_cons.mp hc with rfl | hc
    · rfl
    · rw [List.eq_of_mem_replicate hc]
      rfl
  exact List.dropWhile_append_of_pos hblank

theorem skipSpace_cons (h : isSpace c = false) (cs : List Char) : skipSpace (c :: cs) = c :: cs := by
  simp [skipSpace, h]

theorem isSpace_of_isDigit (h : isDigit c = true) : isSpace c = false := by
  simp only [isSpace, Bool.or_eq_false_iff, decide_eq_false_iff_not]
  refine ⟨⟨⟨?_, ?_⟩, ?_⟩, ?_⟩ <;> rintro rfl <;> exact absurd h (by decide)

/-! ### Values -/

mutual

def Integral : Json → Prop
  | .null => True
  | .bool _ => True
  | .number literal => ∃ n, literal = intLiteral n
  | .string text => text.isSome = true
  | .array l => AllIntegral l
  | .object l => FieldsIntegral l

def AllIntegral : List Json → Prop
  | [] => True
  | v :: l => Integral v ∧ AllIntegral l

def FieldsIntegral : List (JsonText × Json) → Prop
  | [] => True
  | (k, v) :: l => k.isSome = true ∧ Integral v ∧ FieldsIntegral l

end

/-- Nothing that is printed starts with white space or a closing bracket. -/
theorem head_chars (hj : Integral j) (level : Nat) :
    ∃ c cs, chars level j = c :: cs ∧ isSpace c = false ∧ c ≠ ']' := by
  cases j with
  | null => exact ⟨_, _, rfl, by decide⟩
  | bool b => cases b <;> exact ⟨_, _, rfl, by decide⟩
  | number literal =>
    obtain ⟨n, rfl⟩ := hj
    obtain ⟨c, cs, hcs, hc⟩ := head_intLiteral n
    refine ⟨c, cs, hcs, ?_⟩
    rcases hc with rfl | hc
    · decide
    · refine ⟨isSpace_of_isDigit hc, ?_⟩
      rintro rfl
      exact absurd hc (by decide)
  | string text =>
    obtain ⟨s, rfl⟩ := Option.isSome_iff_exists.mp hj
    exact ⟨_, _, rfl, by decide⟩
  | array l =>
    cases l with
    | nil => exact ⟨_, _, rfl, by decide⟩
    | cons v l => exact ⟨_, _, by rw [chars]; rfl, by decide⟩
  | object l =>
    cases l with
    | nil => exact ⟨_, _, rfl, by decide⟩
    | cons f l => exact ⟨_, _, by rw [chars]; rfl, by decide⟩

theorem skipSpace_chars (hj : Integral j) (level : Nat) (rest : List Char) :
    skipSpace (chars level j ++ rest) = chars level j ++ rest := by
  obtain ⟨c, cs, hcs, hc, -⟩ := head_chars hj level
  rw [hcs]
  exact skipSpace_cons hc _

theorem length_newLine (level : Nat) : (newLine level).length = 2 * level + 1 := by simp [newLine]

def Reads (level : Nat) (j : Json) : Prop :=
  ∀ (n : Nat) (cs rest : List Char), EndsNumber rest → skipSpace cs = chars level j ++ rest →
    (chars level j).length < n → value? n cs = .ok (j, rest)

theorem reads_number (level : Nat) (i : Int) : Reads level (.number (intLiteral i)) := by
  intro n cs rest hrest hcs hn
  obtain ⟨n, rfl⟩ := Nat.exists_eq_succ_of_ne_zero (Nat.ne_zero_of_lt hn)
  obtain ⟨c, ds, hds, hc⟩ := head_intLiteral i
  have hnumber := numberLiteral_intLiteral i hrest
  rw [hds, List.cons_append] at hnumber
  rw [chars, hds, List.cons_append] at hcs
  rw [value?_number hcs hc, hnumber]
  simp [Except.map, ← hds]

theorem reads_string (level : Nat) (s : String) : Reads level (.string (some s)) := by
  intro n cs rest hrest hcs hn
  obtain ⟨n, rfl⟩ := Nat.exists_eq_succ_of_ne_zero (Nat.ne_zero_of_lt hn)
  rw [chars, literalText_append] at hcs
  rw [value?_quote hcs]
  simp [stringTail_text, Except.map]

/-- The elements of an array are read up to its closing bracket. -/
theorem elements?_chars (hv : Reads level v)
    (hl : ∀ w ∈ l, Integral w ∧ Reads level w) {n : Nat}
    (hcs : skipSpace cs = chars level v ++ (elementChars level l ++ (newLine m ++ ']' :: rest)))
    (hn : (chars level v).length + (elementChars level l).length + 1 < n) : elements? n cs = .ok (v :: l, rest) := by
  induction l generalizing v n cs with
  | nil =>
    obtain ⟨n, rfl⟩ := Nat.exists_eq_succ_of_ne_zero (Nat.ne_zero_of_lt hn)
    have hvalue : value? n cs = .ok (v, newLine m ++ ']' :: rest) :=
      hv _ _ _ (endsNumber_cons (by decide)) hcs (by omega)
    rw [elements?, hvalue]
    simp [skipSpace_newLine, skipSpace_cons (c := ']') rfl]
  | cons w l ih =>
    obtain ⟨n, rfl⟩ := Nat.exists_eq_succ_of_ne_zero (Nat.ne_zero_of_lt hn)
    obtain ⟨⟨hw, hwreads⟩, hl⟩ := List.forall_mem_cons.mp hl
    rw [elementChars] at hcs hn
    simp only [List.length_append, List.length_cons, length_newLine] at hn
    have hvalue := hv n _ _ (endsNumber_cons (by decide)) hcs (by omega)
    have hrest : elements? n (newLine level ++ (chars level w ++ (elementChars level l ++
        (newLine m ++ ']' :: rest)))) = .ok (w :: l, rest) :=
      ih hwreads hl (by rw [skipSpace_newLine, skipSpace_chars hw]) (by omega)
    rw [elements?, hvalue]
    simp [skipSpace_cons (c := ',') rfl, hrest, Except.map]

theorem reads_array (hl : ∀ w ∈ l, Integral w ∧ Reads (level + 1) w) : Reads level (.array l) := by
  intro n cs rest hrest hcs hn
  obtain ⟨n, rfl⟩ := Nat.exists_eq_succ_of_ne_zero (Nat.ne_zero_of_lt hn)
  cases l with
  | nil =>
    rw [value?, hcs]
    rfl
  | cons v l =>
    obtain ⟨⟨hv, hvreads⟩, hl⟩ := List.forall_mem_cons.mp hl
    obtain ⟨c, ds, hds, hspace, hc⟩ := head_chars hv (level + 1)
    simp only [chars, List.length_append, List.length_cons, length_newLine] at hn
    have hread : elements? n (chars (level + 1) v ++ (elementChars (level + 1) l ++ (newLine level ++ ']' :: rest))) =
        .ok (v :: l, rest) := elements?_chars (m := level) hvreads hl (skipSpace_chars hv _ _) (by omega)
    simp only [chars, List.cons_append, List.append_assoc, List.nil_append] at hcs
    rw [hds, List.cons_append] at hread
    rw [value?, hcs]
    simp [skipSpace_newLine, hds, skipSpace_cons hspace, hc, hread, Except.map]

/-- The fields of an object are read up to its closing brace. -/
theorem fields?_chars {k : String} {l : List (JsonText × Json)} (hv : Reads level v)
    (hintegral : Integral v) (hl : ∀ f ∈ l, f.1.isSome = true ∧ Integral f.2 ∧ Reads level f.2) {n : Nat}
    (hcs : skipSpace cs = literalText (some k) ++ (':' :: ' ' :: (chars level v ++ (fieldChars level l ++
      (newLine m ++ '\x7d' :: rest)))))
    (hn : (chars level v).length + (fieldChars level l).length + 1 < n) :
    fields? n cs = .ok ((some k, v) :: l, rest) := by
  induction l generalizing k v n cs with
  | nil =>
    obtain ⟨n, rfl⟩ := Nat.exists_eq_succ_of_ne_zero (Nat.ne_zero_of_lt hn)
    have hvalue : value? n (' ' :: (chars level v ++ (newLine m ++ '\x7d' :: rest))) =
        .ok (v, newLine m ++ '\x7d' :: rest) :=
      hv _ _ _ (endsNumber_cons (by decide)) (skipSpace_chars hintegral level _) (by omega)
    rw [literalText_append] at hcs
    rw [fields?, hcs]
    simp [stringTail_text, skipSpace_cons (c := ':') rfl, fieldChars, hvalue, skipSpace_newLine,
      skipSpace_cons (c := '\x7d') rfl]
  | cons f l ih =>
    obtain ⟨n, rfl⟩ := Nat.exists_eq_succ_of_ne_zero (Nat.ne_zero_of_lt hn)
    obtain ⟨key, w⟩ := f
    obtain ⟨⟨hkey, hw, hwreads⟩, htail⟩ := List.forall_mem_cons.mp hl
    obtain ⟨key, rfl⟩ := Option.isSome_iff_exists.mp hkey
    rw [fieldChars] at hcs hn
    simp only [List.length_append, List.length_cons, length_newLine] at hn
    have hvalue : value? n (' ' :: (chars level v ++ (',' :: (newLine level ++ (literalText (some key) ++ (':' :: ' ' ::
        (chars level w ++ (fieldChars level l ++ (newLine m ++ '\x7d' :: rest))))))))) =
        .ok (v, ',' :: (newLine level ++ (literalText (some key) ++ (':' :: ' ' ::
          (chars level w ++ (fieldChars level l ++ (newLine m ++ '\x7d' :: rest))))))) :=
      hv _ _ _ (endsNumber_cons (by decide)) (skipSpace_chars hintegral level _) (by omega)
    have hrest : fields? n (newLine level ++ (literalText (some key) ++ (':' :: ' ' ::
        (chars level w ++ (fieldChars level l ++ (newLine m ++ '\x7d' :: rest)))))) = .ok ((some key, w) :: l, rest) :=
      by
      refine ih hwreads hw htail ?_ (by dsimp only; omega)
      rw [skipSpace_newLine, literalText_append, skipSpace_cons (c := '"') rfl]
    rw [literalText_append] at hcs
    rw [fields?, hcs]
    simp only [List.append_assoc, List.cons_append, List.nil_append] at hvalue hrest ⊢
    simp [stringTail_text, skipSpace_cons (c := ':') rfl, hvalue, skipSpace_cons (c := ',') rfl, hrest, Except.map]

theorem reads_object {l : List (JsonText × Json)}
    (hl : ∀ f ∈ l, f.1.isSome = true ∧ Integral f.2 ∧ Reads (level + 1) f.2) : Reads level (.object l) := by
  intro n cs rest hrest hcs hn
  obtain ⟨n, rfl⟩ := Nat.exists_eq_succ_of_ne_zero (Nat.ne_zero_of_lt hn)
  cases l with
  | nil =>
    rw [value?, hcs]
    rfl
  | cons f l =>
    obtain ⟨key, v⟩ := f
    obtain ⟨⟨hkey, hv, hvreads⟩, htail⟩ := List.forall_mem_cons.mp hl
    obtain ⟨key, rfl⟩ := Option.isSome_iff_exists.mp hkey
    simp only [chars, List.length_append, List.length_cons, length_newLine] at hn
    have hread : fields? n (literalText (some key) ++ (':' :: ' ' :: (chars (level + 1) v ++
        (fieldChars (level + 1) l ++ (newLine level ++ '\x7d' :: rest))))) = .ok ((some key, v) :: l, rest) := by
      refine fields?_chars (m := level) hvreads hv htail ?_ (by dsimp only; omega)
      rw [literalText_append, skipSpace_cons (c := '"') rfl]
    simp only [chars, List.cons_append, List.append_assoc, List.nil_append] at hcs
    rw [literalText_append] at hcs hread
    rw [value?, hcs]
    simp [skipSpace_newLine, skipSpace_cons (c := '"') rfl, hread, Except.map]

mutual

/-- Every value of integers and texts is read as itself. -/
theorem reads_of_integral : (j : Json) → Integral j → ∀ level, Reads level j
  | .null, _, level => by
    intro n cs rest hrest hcs hn
    obtain ⟨n, rfl⟩ := Nat.exists_eq_succ_of_ne_zero (Nat.ne_zero_of_lt hn)
    rw [value?, hcs]
    rfl
  | .bool b, _, level => by
    intro n cs rest hrest hcs hn
    obtain ⟨n, rfl⟩ := Nat.exists_eq_succ_of_ne_zero (Nat.ne_zero_of_lt hn)
    cases b <;> rw [value?, hcs] <;> rfl
  | .number _, ⟨i, hi⟩, level => hi ▸ reads_number level i
  | .string (some s), _, level => reads_string level s
  | .array l, hl, level => reads_array (reads_of_allIntegral l hl (level + 1))
  | .object l, hl, level => reads_object (reads_of_fieldsIntegral l hl (level + 1))

theorem reads_of_allIntegral : (l : List Json) → AllIntegral l → ∀ level, ∀ w ∈ l, Integral w ∧ Reads level w
  | [], _, _ => nofun
  | v :: l, hl, level =>
    List.forall_mem_cons.mpr ⟨⟨hl.1, reads_of_integral v hl.1 level⟩, reads_of_allIntegral l hl.2 level⟩

theorem reads_of_fieldsIntegral : (l : List (JsonText × Json)) → FieldsIntegral l →
    ∀ level, ∀ f ∈ l, f.1.isSome = true ∧ Integral f.2 ∧ Reads level f.2
  | [], _, _ => nofun
  | (_, v) :: l, hl, level =>
    List.forall_mem_cons.mpr ⟨⟨hl.1, hl.2.1, reads_of_integral v hl.2.1 level⟩, reads_of_fieldsIntegral l hl.2.2 level⟩

end

end FlatCode.Json
