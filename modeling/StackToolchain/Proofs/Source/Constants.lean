import StackToolchain.Proofs.Source.Respelling

/-! Constants are exact.
What a word that begins with a digit is worth is said without a bound: its radix, the digits that are left without the
underscores, and the number they stand for. The lexer makes a token of it if the number is a word of the machine, and
otherwise refuses it. -/
namespace StackToolchain.Source

open Text (isBlank isNameChar byteWidth)

/-- A character is a digit of a radix, with its value. Letters follow the ten digits, in either case. -/
def DigitOf (radix : Nat) (c : Char) (value : Nat) : Prop :=
  value < radix ∧ (c = Nat.digitChar value ∨ c = (Nat.digitChar value).toUpper)

inductive Announces : List Char → Nat → List Char → Prop
  | hexadecimal {text} : Announces ('0' :: 'x' :: text) 16 text
  | binary {text} : Announces ('0' :: 'b' :: text) 2 text
  | decimal {word} : ¬['0', 'x'] <+: word → ¬['0', 'b'] <+: word → Announces word 10 word

/-- A word spells a number: without underscores there are digits of its radix left, and they stand for the number. -/
def SpellsNumber (word : List Char) (n : Nat) : Prop :=
  ∃ radix text values, Announces word radix text ∧ values ≠ [] ∧
    List.Forall₂ (DigitOf radix) (text.filter (· != '_')) values ∧ Nat.ofDigits radix values.reverse = n

private theorem toNat_digitChar_letter {value : Nat} (h : 10 ≤ value) (h' : value < 16) :
    (Nat.digitChar value).toNat = value + 87 ∧ (Nat.digitChar value).toUpper.toNat = value + 55 := by
  interval_cases value <;> exact ⟨rfl, rfl⟩

private theorem digitValue?_eq_some {radix value : Nat} {c : Char} (hradix : radix ≤ 16) :
    Text.digitValue? radix c = some value ↔ DigitOf radix c value := by
  constructor
  · intro h
    have hlt := digitValue?_lt h
    refine ⟨hlt, ?_⟩
    simp only [Text.digitValue?, Option.ite_none_right_eq_some, Option.some.injEq] at h
    obtain ⟨-, hvalue⟩ := h
    rw [← Char.toNat_inj, ← Char.toNat_inj]
    split_ifs at hvalue with hdigit hlower hupper
    · obtain ⟨hlo, hhi⟩ : 48 ≤ c.toNat ∧ c.toNat ≤ 57 := Char.isDigit_iff_toNat.mp hdigit
      rw [Nat.toNat_digitChar_of_lt_ten (by omega)]
      omega
    · simp only [Char.isLower, Bool.and_eq_true, decide_eq_true_eq, ge_iff_le, UInt32.le_iff_toNat_le] at hlower
      have hlo : 97 ≤ c.toNat := hlower.1
      rw [(toNat_digitChar_letter (by omega) (by omega)).1]
      omega
    · simp only [Char.isUpper, decide_eq_true_eq, ge_iff_le, UInt32.le_iff_toNat_le] at hupper
      have hlo : 65 ≤ c.toNat := hupper.1
      rw [(toNat_digitChar_letter (by omega) (by omega)).2]
      omega
    · omega
  · rintro ⟨hlt, hc⟩
    have hvalue : value < 16 := by omega
    interval_cases value <;> rcases hc with rfl | rfl <;> simp [Text.digitValue?, Nat.digitChar, hlt]

private theorem map_digitValue?_eq {radix : Nat} {digits : List Char} {values : List Nat} (hradix : radix ≤ 16) :
    digits.map (Text.digitValue? radix) = values.map some ↔ List.Forall₂ (DigitOf radix) digits values := by
  rw [← List.forall₂_eq_eq_eq, List.forall₂_map_left_iff, List.forall₂_map_right_iff]
  simp only [digitValue?_eq_some hradix]

private theorem announces_iff {word text : List Char} {radix : Nat} :
    Announces word radix text ↔ Text.announcedRadix word = (radix, text) := by
  unfold Text.announcedRadix
  constructor
  · intro h
    cases h with
    | hexadecimal => rfl
    | binary => rfl
    | decimal hhex hbinary =>
      split
      · exact absurd ⟨_, rfl⟩ hhex
      · exact absurd ⟨_, rfl⟩ hbinary
      · rfl
  · intro h
    split at h <;> cases h
    · exact .hexadecimal
    · exact .binary
    · rename_i hhex hbinary
      refine .decimal ?_ ?_
      · rintro ⟨text, rfl⟩
        exact hhex text rfl
      · rintro ⟨text, rfl⟩
        exact hbinary text rfl

private theorem Announces.radix_le {word text : List Char} {radix : Nat} (h : Announces word radix text) :
    radix ≤ 16 := by
  cases h <;> decide

private theorem spellsNumber_iff {word : List Char} {n : Nat} : SpellsNumber word n ↔ Numeral word n := by
  constructor
  · rintro ⟨radix, text, values, hradix, hne, hvalues, rfl⟩
    refine announcedRadix_numeral ?_
    rw [announces_iff.mp hradix]
    exact ⟨values, hne, (map_digitValue?_eq hradix.radix_le).mpr hvalues, rfl⟩
  · intro h
    obtain ⟨values, hne, hvalues, rfl⟩ := h.denotes_announced
    have hradix : Announces word (Text.announcedRadix word).1 (Text.announcedRadix word).2 := announces_iff.mpr rfl
    exact ⟨_, _, values, hradix, hne, (map_digitValue?_eq hradix.radix_le).mp hvalues, rfl⟩

private theorem readInteger_error {word : List Char} {fault : SyntaxFault} (h : readInteger word = .error fault) :
    fault = .literalRange ∨ fault = .literal (String.ofList word) := by
  unfold readInteger at h
  simp only at h
  split at h
  · cases h
    exact .inr rfl
  · cases h
    exact .inl rfl
  · split at h <;> cases h
    exact .inl rfl

/-- A word that begins with a digit is lexed alone as it is read. -/
theorem lex_digits {c : Char} {more : List Char} (hdigit : c.isDigit = true) (hmore : more.all isNameChar = true) :
    (∀ n, readInteger (c :: more) = .ok n →
        lex (c :: more) = .ok [⟨.number n, 0⟩, ⟨.endOfInput, byteWidth (c :: more)⟩]) ∧
      ∀ fault, readInteger (c :: more) = .error fault → lex (c :: more) = .error ⟨0, fault⟩ := by
  have hblank : isBlank c = false := isBlank_of_isNameChar (Text.isNameChar_iff.mpr (.inr hdigit))
  have htoken := @readToken_digit c more [] hdigit hmore (by simp)
  rw [List.append_nil] at htoken
  constructor
  · intro n hread
    rw [lex, lexFrom, hblank, htoken, hread]
    show lexFrom (0 + byteWidth (c :: more.take more.length)) [⟨.number n, 0⟩] (more.drop more.length) = _
    rw [List.take_length, List.drop_length, lexFrom, Nat.zero_add]
    rfl
  · intro fault hread
    rw [lex, lexFrom, hblank, htoken, hread]
    rfl

/-- A word of letters, digits and underscores that begins with a digit is lexed as the number that it spells, if that is
a word of the machine. In all other cases it is refused where it begins. -/
theorem constants_are_exact {word : String} {c : Char} {more : List Char} (hword : word.toList = c :: more)
    (hdigit : c.isDigit = true) (hmore : ∀ d ∈ more, isNameChar d = true) :
    (∀ n : Nat, (∃ k : UInt16, k.toNat = n ∧
        lex word.toList = .ok [⟨.number k, 0⟩, ⟨.endOfInput, word.utf8ByteSize⟩]) ↔
          SpellsNumber word.toList n ∧ n ≤ 65535) ∧
      ((¬∃ n ≤ 65535, SpellsNumber word.toList n) → ∃ fault, lex word.toList = .error ⟨0, fault⟩ ∧
        (fault = .literalRange ∨ fault = .literal word)) := by
  obtain ⟨hok, herror⟩ := lex_digits hdigit (List.all_eq_true.mpr hmore)
  rw [← hword] at hok herror
  rw [Text.byteWidth_toList] at hok
  have hspells {k : UInt16} : readInteger word.toList = .ok k ↔ SpellsNumber word.toList k.toNat := by
    rw [readInteger_eq_ok, spellsNumber_iff]
  refine ⟨fun n => ⟨?_, ?_⟩, fun hnone => ?_⟩
  · rintro ⟨k, rfl, hk⟩
    refine ⟨hspells.mp ?_, Nat.le_of_lt_succ k.toNat_lt⟩
    cases hread : readInteger word.toList with
    | ok k' =>
      rw [hok k' hread] at hk
      cases hk
      rfl
    | error fault =>
      rw [herror fault hread] at hk
      cases hk
  · rintro ⟨hn, hle⟩
    have hk : n.toUInt16.toNat = n := by
      rw [Nat.toUInt16_eq, UInt16.toNat_ofNat_of_lt' (Nat.lt_succ_of_le hle)]
    exact ⟨n.toUInt16, hk, hok _ (hspells.mpr (hk.symm ▸ hn))⟩
  · cases hread : readInteger word.toList with
    | ok k => exact absurd ⟨k.toNat, Nat.le_of_lt_succ k.toNat_lt, hspells.mp hread⟩ hnone
    | error fault =>
      have hfault := readInteger_error hread
      rw [String.ofList_toList] at hfault
      exact ⟨fault, herror fault hread, hfault⟩

theorem constants_are_exact_at_limit :
    lex "0x_0000_FFff".toList = .ok [⟨.number 65535, 0⟩, ⟨.endOfInput, 12⟩] ∧
      ∃ fault, lex "000065536".toList = .error ⟨0, fault⟩ := by
  constructor
  · have hdigits : List.Forall₂ (DigitOf 16) ['0', '0', '0', '0', 'F', 'F', 'f', 'f'] [0, 0, 0, 0, 15, 15, 15, 15] := by
      simp only [List.forall₂_cons, List.forall₂_nil_left_iff, DigitOf]
      decide
    have hspells : SpellsNumber "0x_0000_FFff".toList 65535 :=
      ⟨16, "_0000_FFff".toList, _, .hexadecimal, List.cons_ne_nil _ _, hdigits, by decide⟩
    have hnames : ∀ d ∈ "x_0000_FFff".toList, isNameChar d = true := List.all_eq_true.mp rfl
    obtain ⟨k, hk, hlex⟩ := ((@constants_are_exact "0x_0000_FFff" '0' _ rfl rfl hnames).1 65535).mpr ⟨hspells, le_rfl⟩
    obtain rfl : k = 65535 := UInt16.toNat_inj.mp hk
    exact hlex
  · have hnone : ¬∃ n ≤ 65535, SpellsNumber "000065536".toList n := by
      rintro ⟨n, hle, hspells⟩
      obtain ⟨values, -, hvalues, rfl⟩ := (spellsNumber_iff.mp hspells).denotes_announced
      have hsome := List.map_injective_iff.mpr (Option.some_injective Nat)
      obtain rfl : [0, 0, 0, 0, 6, 5, 5, 3, 6] = values := hsome hvalues
      exact absurd hle (by decide)
    have hnames : ∀ d ∈ "00065536".toList, isNameChar d = true := List.all_eq_true.mp rfl
    obtain ⟨fault, hlex, -⟩ := (@constants_are_exact "000065536" '0' "00065536".toList rfl rfl hnames).2 hnone
    exact ⟨fault, hlex⟩

end StackToolchain.Source
