import Mathlib
import StackToolchain.Text.Numeral

/-! Text that is cut up or read as a number gives back what it was put together from.
Rows become lines again, words between spaces become words again, and decimal numerals become numbers again; a name
is no numeral. -/
namespace StackToolchain.Text

/-- A character that may stand in a word of a listing: neither a blank nor the beginning of a comment. -/
def isPlain (c : Char) : Bool :=
  !isBlank c && c != ';'

variable {c : Char}

private theorem isPlain_of_range (h : 0x21 ≤ c.toNat) (h' : c.toNat ≤ 0x7E) (hc : c ≠ ';') : isPlain c = true := by
  have hb : isBlank c = false := by
    simp [isBlank]
    omega
  simp [isPlain, hb, hc]

theorem isNameStart_iff : isNameStart c = true ↔
    (0x41 ≤ c.toNat ∧ c.toNat ≤ 0x5A ∨ 0x61 ≤ c.toNat ∧ c.toNat ≤ 0x7A) ∨ c.toNat = 0x5F := by
  have hu : c = '_' ↔ c.toNat = 0x5F := by
    rw [← Char.toNat_inj]
    rfl
  simp only [isNameStart, Char.isAlpha, Char.isUpper, Char.isLower, Bool.or_eq_true, Bool.and_eq_true,
    decide_eq_true_eq, beq_iff_eq, hu, ge_iff_le, UInt32.le_iff_toNat_le]
  rfl

theorem isNameChar_iff : isNameChar c = true ↔ isNameStart c = true ∨ c.isDigit = true := by
  simp only [isNameChar, isNameStart, Char.isAlphanum, Bool.or_eq_true]
  tauto

theorem isPlain_of_isNameChar (h : isNameChar c = true) : isPlain c = true := by
  have hrange : 0x30 ≤ c.toNat ∧ c.toNat ≤ 0x39 ∨
      (0x41 ≤ c.toNat ∧ c.toNat ≤ 0x5A ∨ 0x61 ≤ c.toNat ∧ c.toNat ≤ 0x7A) ∨ c.toNat = 0x5F := by
    rcases isNameChar_iff.mp h with hs | hd
    · exact .inr (isNameStart_iff.mp hs)
    · exact .inl (Char.isDigit_iff_toNat.mp hd)
  refine isPlain_of_range (by omega) (by omega) ?_
  rintro rfl
  exact absurd h (by decide)

theorem all_isNameChar_of_isName {word : List Char} (h : isName word = true) : word.all isNameChar = true := by
  cases word with
  | nil => rfl
  | cons c rest =>
    rw [isName, Bool.and_eq_true] at h
    rw [List.all_cons, isNameChar_iff.mpr (.inl h.1), h.2]
    rfl

theorem isName_append {word more : List Char} (h : isName word = true) (hmore : more.all isNameChar = true) :
    isName (word ++ more) = true := by
  cases word with
  | nil => cases h
  | cons c rest =>
    rw [isName, Bool.and_eq_true] at h
    rw [List.cons_append, isName, h.1, List.all_append, h.2, hmore]
    rfl

private theorem splitAtNewlines_append {row : List Char} (h : '\n' ∉ row) (current rest : List Char) :
    splitAtNewlines current (row ++ '\n' :: rest) = (current.reverse ++ row) :: splitAtNewlines [] rest := by
  induction row generalizing current with
  | nil => simp [splitAtNewlines]
  | cons c row ih =>
    rw [List.mem_cons, not_or] at h
    rw [List.cons_append, splitAtNewlines, if_neg (Ne.symm h.1), ih h.2]
    simp

/-- A row that is a line: it has no newline, and no carriage return at its end. -/
def IsRow (row : List Char) : Prop :=
  '\n' ∉ row ∧ row.getLast? ≠ some '\r'

private theorem pieces_rows {rows : List (List Char)} (h : ∀ row ∈ rows, IsRow row) :
    pieces (rows.flatMap (· ++ ['\n'])) = rows ++ [[]] := by
  induction rows with
  | nil => rfl
  | cons row rows ih =>
    have hrow := (h row List.mem_cons_self).1
    rw [List.flatMap_cons, List.append_assoc, List.singleton_append, pieces, splitAtNewlines_append hrow]
    exact congrArg (row :: ·) (ih fun r hr => h r (List.mem_cons_of_mem row hr))

private theorem endLines_rows {rows : List (List Char)} (h : ∀ row ∈ rows, IsRow row) :
    endLines (rows ++ [[]]) = rows := by
  induction rows with
  | nil => rfl
  | cons row rows ih =>
    have hrow : dropReturn row = row := if_neg (h row List.mem_cons_self).2
    have hne : rows ++ [[]] ≠ [] := by simp
    obtain ⟨next, more, hmore⟩ := List.exists_cons_of_ne_nil hne
    rw [List.cons_append, hmore, endLines, hrow, ← hmore, ih fun r hr => h r (List.mem_cons_of_mem row hr)]
    simp

theorem lines_unlines {rows : List String} (h : ∀ row ∈ rows, IsRow row.toList) :
    lines (unlines rows).toList = rows.map String.toList := by
  have hlist : (unlines rows).toList = (rows.map String.toList).flatMap (· ++ ['\n']) := by
    simp [unlines, String.toList_join, List.flatMap_map]
  have hrows : ∀ row ∈ rows.map String.toList, IsRow row := by simpa using h
  rw [hlist, lines, pieces_rows hrows, endLines_rows hrows]

private theorem splitAtBlanks_append {word : List Char} (h : ∀ c ∈ word, isBlank c = false) (current rest : List Char) :
    splitAtBlanks current (word ++ rest) = splitAtBlanks (word.reverse ++ current) rest := by
  induction word generalizing current with
  | nil => rfl
  | cons c word ih =>
    rw [List.cons_append, splitAtBlanks, if_neg (by simp [h c List.mem_cons_self]),
      ih fun d hd => h d (List.mem_cons_of_mem c hd)]
    simp

theorem words_cons_blank (h : isBlank c = true) (text : List Char) : words (c :: text) = words text := by
  simp [words, splitAtBlanks, h]

def isWord (word : List Char) : Bool :=
  !word.isEmpty && word.all isPlain

private theorem isBlank_of_isWord {word : List Char} (h : isWord word = true) : ∀ c ∈ word, isBlank c = false := by
  simp only [isWord, isPlain, Bool.and_eq_true, List.all_eq_true, Bool.not_eq_true'] at h
  exact fun c hc => (h.2 c hc).1

/-- Words with a space before each of them are the words of their text. -/
theorem words_spaced {ws : List (List Char)} (h : ∀ word ∈ ws, isWord word = true) :
    words (ws.flatMap (' ' :: ·)) = ws := by
  induction ws with
  | nil => rfl
  | cons word ws ih =>
    have hword := h word List.mem_cons_self
    have hne : word ≠ [] := by
      rintro rfl
      cases hword
    have hrest := ih fun w hw => h w (List.mem_cons_of_mem word hw)
    rw [List.flatMap_cons, List.cons_append, words_cons_blank (by decide), words,
      splitAtBlanks_append (isBlank_of_isWord hword), List.append_nil]
    -- the next space, or the end, closes the word
    cases ws with
    | nil => simp [splitAtBlanks, hne]
    | cons next ws =>
      rw [List.flatMap_cons, List.cons_append] at hrest ⊢
      rw [words_cons_blank (by decide), words] at hrest
      rw [splitAtBlanks, if_pos (by decide), if_neg (by simpa using hne), hrest, List.reverse_reverse]

theorem words_word {word : List Char} (h : isWord word = true) : words word = [word] := by
  have hs : words (' ' :: word) = [word] := by simpa using words_spaced (List.forall_mem_singleton.mpr h)
  rwa [words_cons_blank (by decide)] at hs

section
variable {limit : Nat}

private theorem readOnto_append (radix value : Nat) (xs ys : List Char) :
    readOnto radix limit value (xs ++ ys) = readOnto radix limit value xs >>= fun v => readOnto radix limit v ys := by
  induction xs generalizing value with
  | nil => rfl
  | cons x xs ih =>
    simp only [List.cons_append, readOnto]
    split
    · rfl
    · split
      · exact ih _
      · rfl

private theorem digitValue?_digitChar {d : Nat} (h : d < 10) : digitValue? 10 (Nat.digitChar d) = some d := by
  interval_cases d <;> rfl

/-- A number is read back from its digits, in whatever form the digits are written. -/
theorem readOnto_map_toDigits {radix n : Nat} {f : Char → Char} (hradix : 1 < radix)
    (hf : ∀ d < radix, digitValue? radix (f (Nat.digitChar d)) = some d) (h : n < limit) :
    readOnto radix limit 0 ((Nat.toDigits radix n).map f) = .ok n := by
  induction n using Nat.strongRecOn with
  | _ n ih =>
    rcases Nat.lt_or_ge n radix with hn | hn
    · simp [Nat.toDigits_of_lt_base hn, readOnto, hf n hn, h]
    · have hless : n / radix < n := Nat.div_lt_self (by omega) hradix
      have hlast : n / radix * radix + n % radix = n := Nat.div_add_mod' n radix
      rw [Nat.toDigits_of_base_le hradix hn, List.map_append, readOnto_append, ih (n / radix) hless (by omega)]
      simp [readOnto, hf (n % radix) (Nat.mod_lt n (by omega)), bind, Except.bind, hlast, h]

private theorem readOnto_toDigits {n : Nat} (h : n < limit) : readOnto 10 limit 0 (Nat.toDigits 10 n) = .ok n := by
  simpa using readOnto_map_toDigits (f := id) (by omega) (fun _ => digitValue?_digitChar) h

theorem readDigits_toDigits {n : Nat} (h : n < limit) : readDigits 10 limit (Nat.toDigits 10 n) = .ok n := by
  rw [readDigits, if_neg (by simp), readOnto_toDigits h]

end

/-- What begins with a digit has no sign in front of it. -/
theorem dropPlus_of_ne {text : List Char} (h : text.head? ≠ some '+') : dropPlus text = text := by
  unfold dropPlus
  split
  · simp at h
  · rfl

theorem isDigit_of_mem_toDigits {n : Nat} (h : c ∈ Nat.toDigits 10 n) : c.isDigit = true :=
  Nat.isDigit_of_mem_toDigits (by omega) (by omega) h

private theorem dropPlus_toDigits (n : Nat) : dropPlus (Nat.toDigits 10 n) = Nat.toDigits 10 n := by
  refine dropPlus_of_ne fun h => ?_
  exact absurd (isDigit_of_mem_toDigits (List.mem_of_head? h)) (by decide)

private theorem announcedRadix_toDigits (n : Nat) : announcedRadix (Nat.toDigits 10 n) = (10, Nat.toDigits 10 n) := by
  unfold announcedRadix
  split
  · rename_i rest h
    exact absurd (isDigit_of_mem_toDigits (n := n) (c := 'x') (by simp [h])) (by decide)
  · rename_i rest h
    exact absurd (isDigit_of_mem_toDigits (n := n) (c := 'b') (by simp [h])) (by decide)
  · rfl

theorem toList_toString_nat (n : Nat) : (toString n).toList = Nat.toDigits 10 n :=
  Nat.toList_repr

theorem toList_toString_ofNat (n : Nat) : (toString (Int.ofNat n)).toList = Nat.toDigits 10 n :=
  Nat.toList_repr

theorem toList_toString_negSucc (n : Nat) : (toString (Int.negSucc n)).toList = '-' :: Nat.toDigits 10 (n + 1) := by
  change ("-" ++ Nat.repr (n + 1)).toList = _
  simp

/-- A word is read back from its decimal numeral. -/
theorem readWord?_toString (v : UInt16) : readWord? (toString v.toNat).toList = some v := by
  rw [toList_toString_nat, readWord?, announcedRadix_toDigits]
  simp [dropPlus_toDigits, readDigits_toDigits v.toNat_lt]

private theorem readSignedByte?_natural {n : Nat} (h : n < 0x80) :
    readSignedByte? (Nat.toDigits 10 n) = some (Int8.ofNat n) := by
  unfold readSignedByte?
  split
  · rename_i rest heq
    exact absurd (isDigit_of_mem_toDigits (n := n) (c := '-') (by simp [heq])) (by decide)
  · simp [dropPlus_toDigits, readDigits_toDigits h]

private theorem readSignedByte?_negative {n : Nat} (h : n < 0x81) :
    readSignedByte? ('-' :: Nat.toDigits 10 n) = some (Int8.ofInt (-n)) := by
  simp [readSignedByte?, readDigits_toDigits h]

/-- A signed byte is read back from its decimal numeral. -/
theorem readSignedByte?_toString (v : Int8) : readSignedByte? (toString v.toInt).toList = some v := by
  have hlo : -128 ≤ v.toInt := v.le_toInt
  have hhi : v.toInt < 128 := v.toInt_lt
  cases hv : v.toInt with
  | ofNat n =>
    have hn : n < 0x80 := by
      rw [hv] at hhi
      exact Int.ofNat_lt.mp hhi
    have hback : Int8.ofInt (Int.ofNat n) = v := by rw [← hv, v.ofInt_toInt]
    rw [toList_toString_ofNat, readSignedByte?_natural hn, ← Int8.ofInt_eq_ofNat]
    exact congrArg some hback
  | negSucc n =>
    have hn : n + 1 < 0x81 := by
      rw [hv] at hlo
      omega
    have hback : Int8.ofInt (Int.negSucc n) = v := by rw [← hv, v.ofInt_toInt]
    rw [toList_toString_negSucc, readSignedByte?_negative hn]
    exact congrArg some hback

/-- Letters count from ten. -/
theorem digitValue?_of_isNameStart (h : isNameStart c = true) : digitValue? 10 c = none := by
  have hrange := isNameStart_iff.mp h
  have hd : c.isDigit = false := by
    rw [Bool.eq_false_iff, ne_eq, Char.isDigit_iff_toNat]
    change ¬ (48 ≤ c.toNat ∧ c.toNat ≤ 57)
    omega
  have hl : c.isLower = true → 97 ≤ c.toNat := by
    simp only [Char.isLower, Bool.and_eq_true, decide_eq_true_eq, ge_iff_le, UInt32.le_iff_toNat_le]
    exact fun hl => hl.1
  have hvalue : ¬ (if c.isLower then c.toNat - 87 else if c.isUpper then c.toNat - 55 else 10) < 10 := by
    split_ifs with hlower
    · have := hl hlower
      omega
    · omega
    · omega
  simp only [digitValue?, hd, Bool.false_eq_true, if_false]
  exact if_neg hvalue

/-- A name is no number, because it does not begin with a digit. -/
theorem readWord?_of_isName {word : List Char} (h : isName word = true) : readWord? word = none := by
  cases word with
  | nil => cases h
  | cons c rest =>
    rw [isName, Bool.and_eq_true] at h
    have hzero : c ≠ '0' := by
      rintro rfl
      exact absurd h.1 (by decide)
    have hplus : c ≠ '+' := by
      rintro rfl
      exact absurd h.1 (by decide)
    have hradix : announcedRadix (c :: rest) = (10, c :: rest) := by
      unfold announcedRadix
      split <;> simp_all
    have hdrop : dropPlus (c :: rest) = c :: rest := dropPlus_of_ne (by simpa using hplus)
    rw [readWord?, hradix]
    simp [hdrop, readDigits, readOnto, digitValue?_of_isNameStart h.1]

end StackToolchain.Text
