import StackToolchain.Proofs.Text.Reading

/-! Columns of hexadecimal numbers.
A number below a power of sixteen takes as many digits as its column has places and is read back from them. Words with
single spaces between them are found again, also when spaces fill the column up behind them. -/
namespace StackToolchain.Text

section
variable {limit : Nat}

private theorem toList_hex (width n : Nat) :
    (hex width n).toList = List.replicate (width - (Nat.toDigits 16 n).length) '0' ++
      (Nat.toDigits 16 n).map Char.toUpper := by
  simp [hex, padLeft, repeated]

theorem length_hex {width n : Nat} (hwidth : 0 < width) (h : n < 16 ^ width) : (hex width n).length = width := by
  have hle := (Nat.length_toDigits_le_iff (by omega) hwidth).mpr h
  rw [← String.length_toList, toList_hex, List.length_append, List.length_replicate, List.length_map]
  omega

private theorem readOnto_zeros {radix : Nat} (hradix : 0 < radix) (hlimit : 0 < limit) (k : Nat) (text : List Char) :
    readOnto radix limit 0 (List.replicate k '0' ++ text) = readOnto radix limit 0 text := by
  have hzero : digitValue? radix '0' = some 0 := by simp [digitValue?, hradix]
  induction k with
  | zero => rfl
  | succ k ih => simpa [List.replicate_succ, readOnto, hzero, hlimit] using ih

private theorem digitValue?_toUpper_digitChar {d : Nat} (h : d < 16) :
    digitValue? 16 (Nat.digitChar d).toUpper = some d := by
  interval_cases d <;> rfl

private theorem readOnto_hex {width n : Nat} (h : n < limit) : readOnto 16 limit 0 (hex width n).toList = .ok n := by
  rw [toList_hex, readOnto_zeros (by omega) (by omega)]
  exact readOnto_map_toDigits (by omega) (fun _ => digitValue?_toUpper_digitChar) h

private theorem hex_ne_nil (width n : Nat) : (hex width n).toList ≠ [] := by
  simp [toList_hex]

/-- A number is read back from its hexadecimal numeral. -/
theorem readDigits_hex {width n : Nat} (h : n < limit) : readDigits 16 limit (hex width n).toList = .ok n := by
  rw [readDigits, if_neg (by simpa using hex_ne_nil width n), readOnto_hex h]

private theorem isNameChar_of_digitValue? {radix d : Nat} {c : Char} (h : digitValue? radix c = some d) :
    isNameChar c = true := by
  simp only [digitValue?, Option.ite_none_right_eq_some, Option.some.injEq] at h
  obtain ⟨hlt, -⟩ := h
  split_ifs at hlt with hdigit hlower hupper
  · simp [isNameChar, Char.isAlphanum, hdigit]
  · simp [isNameChar, Char.isAlphanum, Char.isAlpha, hlower]
  · simp [isNameChar, Char.isAlphanum, Char.isAlpha, hupper]
  · omega

private theorem isNameChar_of_readOnto {radix value n : Nat} {text : List Char}
    (h : readOnto radix limit value text = .ok n) : text.all isNameChar = true := by
  fun_induction readOnto radix limit value text with
  | case1 => rfl
  | case2 => cases h
  | case3 value c rest d hd hlt ih =>
    rw [List.all_cons, isNameChar_of_digitValue? hd, ih h]
    rfl
  | case4 => cases h

end

private theorem all_isNameChar_hex (width n : Nat) : (hex width n).toList.all isNameChar = true :=
  isNameChar_of_readOnto (readOnto_hex (Nat.lt_succ_self n))

theorem isWord_hex (width n : Nat) : isWord (hex width n).toList = true := by
  have hplain : (hex width n).toList.all isPlain = true := by
    rw [List.all_eq_true]
    intro c hc
    exact isPlain_of_isNameChar (List.all_eq_true.mp (all_isNameChar_hex width n) c hc)
  rw [isWord, hplain, Bool.and_true]
  simpa using hex_ne_nil width n

private theorem splitAtBlanks_spaces (current : List Char) (k : Nat) :
    splitAtBlanks current (List.replicate k ' ') = splitAtBlanks current [] := by
  induction k generalizing current with
  | zero => rfl
  | succ k ih =>
    have hblank : isBlank ' ' = true := by decide
    simp [List.replicate_succ, splitAtBlanks, hblank, ih]

private theorem splitAtBlanks_append_spaces (current text : List Char) (k : Nat) :
    splitAtBlanks current (text ++ List.replicate k ' ') = splitAtBlanks current text := by
  induction text generalizing current with
  | nil => exact splitAtBlanks_spaces current k
  | cons c text ih => simp only [List.cons_append, splitAtBlanks, ih]

theorem words_append_spaces (text : List Char) (k : Nat) : words (text ++ List.replicate k ' ') = words text :=
  splitAtBlanks_append_spaces [] text k

private theorem append_intercalate (sep part : List Char) (parts : List (List Char)) :
    sep ++ sep.intercalate (part :: parts) = (part :: parts).flatMap (sep ++ ·) := by
  induction parts generalizing part with
  | nil => simp
  | cons next parts ih =>
    rw [List.intercalate_cons_cons, List.flatMap_cons, ← ih next]
    simp

theorem mem_intercalate {c : Char} {sep : List Char} {parts : List (List Char)} (h : c ∈ sep.intercalate parts) :
    c ∈ sep ∨ ∃ part ∈ parts, c ∈ part := by
  cases parts with
  | nil => simp at h
  | cons part parts =>
    have hall : c ∈ sep ++ sep.intercalate (part :: parts) := List.mem_append_right sep h
    rw [append_intercalate] at hall
    obtain ⟨w, hw, hc⟩ := List.mem_flatMap.mp hall
    rcases List.mem_append.mp hc with hsep | hpart
    · exact .inl hsep
    · exact .inr ⟨w, hw, hpart⟩

theorem length_intercalate {parts : List (List Char)} {k : Nat} (h : ∀ part ∈ parts, part.length = k) :
    ([' '].intercalate parts).length = (k + 1) * parts.length - 1 := by
  cases parts with
  | nil => rfl
  | cons part parts =>
    have hlen := congrArg List.length (append_intercalate [' '] part parts)
    have hsum : ((part :: parts).map fun w => ([' '] ++ w).length).sum = (part :: parts).length * (k + 1) := by
      refine (List.sum_eq_card_nsmul _ (k + 1) ?_).trans (by simp)
      simpa using h
    rw [List.length_append, List.length_singleton, List.length_flatMap, hsum] at hlen
    rw [Nat.mul_comm, ← hlen, Nat.add_sub_cancel_left]

theorem words_intercalate {ws : List (List Char)} (h : ∀ word ∈ ws, isWord word = true) :
    words ([' '].intercalate ws) = ws := by
  cases ws with
  | nil => rfl
  | cons word ws =>
    have hspaced : words ([' '] ++ [' '].intercalate (word :: ws)) = word :: ws := by
      rw [append_intercalate]
      exact words_spaced h
    rwa [List.singleton_append, words_cons_blank (by decide)] at hspaced

section
variable {mark : Char} {sep : List Char} {parts parts' : List (List Char)}

/-- A part ends where the mark begins the next separator. -/
theorem takeWhile_part {part : List Char} (h : mark ∉ part) (parts : List (List Char)) :
    (part ++ parts.flatMap (mark :: sep ++ ·)).takeWhile (· != mark) = part := by
  have hpart : ∀ c ∈ part, (c != mark) = true := fun c hc => bne_iff_ne.mpr fun heq => h (heq ▸ hc)
  rw [List.takeWhile_append_of_pos hpart]
  cases parts <;> simp

private theorem flatMap_separated_inj (h : ∀ part ∈ parts, mark ∉ part) (h' : ∀ part ∈ parts', mark ∉ part)
    (heq : parts.flatMap (mark :: sep ++ ·) = parts'.flatMap (mark :: sep ++ ·)) : parts = parts' := by
  induction parts generalizing parts' with
  | nil =>
    cases parts' with
    | nil => rfl
    | cons part' parts' => simp at heq
  | cons part parts ih =>
    cases parts' with
    | nil => simp at heq
    | cons part' parts' =>
      rw [List.forall_mem_cons] at h h'
      rw [List.flatMap_cons, List.flatMap_cons, List.append_assoc, List.append_assoc, List.append_cancel_left_eq] at heq
      have hpart : part = part' := by rw [← takeWhile_part h.1 parts, heq, takeWhile_part h'.1]
      rw [hpart, List.append_cancel_left_eq] at heq
      rw [hpart, ih h.2 h'.2 heq]

/-- Parts that are not empty and do not hold the mark are found again between separators. -/
theorem intercalate_inj (h : ∀ part ∈ parts, part ≠ [] ∧ mark ∉ part) (h' : ∀ part ∈ parts', part ≠ [] ∧ mark ∉ part)
    (heq : (mark :: sep).intercalate parts = (mark :: sep).intercalate parts') : parts = parts' := by
  have hempty {part : List Char} {parts : List (List Char)} (hpart : part ≠ []) :
      (mark :: sep).intercalate (part :: parts) ≠ [] := by
    cases parts <;> simp [List.intercalate_cons_cons, hpart]
  cases parts with
  | nil =>
    cases parts' with
    | nil => rfl
    | cons part' parts' => exact absurd heq.symm (hempty (h' part' List.mem_cons_self).1)
  | cons part parts =>
    cases parts' with
    | nil => exact absurd heq (hempty (h part List.mem_cons_self).1)
    | cons part' parts' =>
      have hmarked : (part :: parts).flatMap (mark :: sep ++ ·) = (part' :: parts').flatMap (mark :: sep ++ ·) := by
        rw [← append_intercalate, heq, append_intercalate]
      exact flatMap_separated_inj (fun w hw => (h w hw).2) (fun w hw => (h' w hw).2) hmarked

end

end StackToolchain.Text
