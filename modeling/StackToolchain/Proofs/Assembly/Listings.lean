import StackToolchain.Assembly.Listing
import StackToolchain.Proofs.Assembly.Encoding
import StackToolchain.Proofs.Text.Reading

/-! Listings are read back.
The text of an operand is one word that only the operand's own field takes for it: numerals are numbers, names are
labels. The bytes that an opcode leaves unused are not printed, and the reader puts them in again. -/
namespace StackToolchain

open Text (isPlain isWord isName IsRow)

/-- Lines whose text can be read: operands fill their fields, references are names, and labels are plain. -/
def Line.canonical : Line → Bool
  | .label name => name.toList.all isPlain
  | .inst i => decide i.WellFormed && i.refs.all fun name => isName name.toList

def Operand.canonical : Operand → Bool
  | .ref name => isName name.toList
  | _ => true

private theorem isWord_of_all_isNameChar {word : List Char} (hne : word ≠ []) (h : word.all Text.isNameChar = true) :
    isWord word = true := by
  rw [List.all_eq_true] at h
  simp only [isWord, Bool.and_eq_true, List.all_eq_true]
  exact ⟨by simpa using hne, fun c hc => Text.isPlain_of_isNameChar (h c hc)⟩

theorem all_isNameChar_toDigits (n : Nat) : (Nat.toDigits 10 n).all Text.isNameChar = true :=
  List.all_eq_true.mpr fun _ hc => Text.isNameChar_iff.mpr (.inr (Text.isDigit_of_mem_toDigits hc))

private theorem isWord_toDigits (n : Nat) : isWord (Nat.toDigits 10 n) = true :=
  isWord_of_all_isNameChar Nat.toDigits_ne_nil (all_isNameChar_toDigits n)

section
variable {arg : Operand}

private theorem Operand.isWord_text (hp : arg ≠ .pad) (h : arg.canonical = true) : isWord arg.text.toList = true := by
  cases arg with
  | reg r => cases r <;> decide
  | imm8 v =>
    rw [Operand.text]
    cases v.toInt with
    | ofNat n =>
      rw [Text.toList_toString_ofNat]
      exact isWord_toDigits n
    | negSucc n =>
      have hsign : isPlain '-' = true := by decide
      have hdigits := isWord_toDigits (n + 1)
      rw [isWord, Bool.and_eq_true] at hdigits
      rw [Text.toList_toString_negSucc, isWord, List.all_cons, hsign, hdigits.2]
      rfl
  | imm16 v =>
    rw [Operand.text, Text.toList_toString_nat]
    exact isWord_toDigits v.toNat
  | ref name =>
    refine isWord_of_all_isNameChar ?_ (Text.all_isNameChar_of_isName h)
    intro hnil
    rw [Operand.canonical, show name.toList = [] from hnil] at h
    cases h
  | pad => exact absurd rfl hp

/-- The field of an operand reads its text as this operand. -/
theorem Operand.parse_text (hp : arg ≠ .pad) (h : arg.canonical = true) :
    Operand.parse arg.slot arg.text.toList = .ok arg := by
  cases arg with
  | reg r => simp [Operand.parse, Operand.slot, Operand.text]
  | imm8 v => simp only [Operand.parse, Operand.slot, Operand.text, Text.readSignedByte?_toString]
  | imm16 v => simp only [Operand.parse, Operand.slot, Operand.text, Text.readWord?_toString]
  | ref name =>
    have hn : isName name.toList = true := h
    simp [Operand.parse, Operand.slot, Operand.text, Text.readWord?_of_isName hn, hn]
  | pad => exact absurd rfl hp

end

/-- Operands are read back from the words of those that are printed. -/
theorem Operand.parseAll_text (op : Opcode) {args : List Operand} (h : ∀ arg ∈ args, arg.canonical = true) :
    Operand.parseAll op (args.map Operand.slot) ((args.filter (· ≠ .pad)).map (·.text.toList)) = .ok args := by
  induction args with
  | nil => rfl
  | cons arg args ih =>
    have hrest := ih fun a ha => h a (List.mem_cons_of_mem arg ha)
    by_cases hp : arg = .pad
    · subst hp
      rw [List.filter_cons_of_neg (by simp), List.map_cons, Operand.slot, Operand.parseAll, hrest]
      rfl
    · have hparse := Operand.parse_text hp (h arg List.mem_cons_self)
      rw [List.filter_cons_of_pos (by simpa using hp), List.map_cons, List.map_cons, Operand.parseAll, hparse, hrest]
      · rfl
      · cases arg <;> simp [Operand.slot] at hp ⊢

private theorem Opcode.isWord_name (op : Opcode) : isWord op.name.toList = true := by
  cases op with
  | alu op => cases op <;> decide
  | _ => decide

private theorem Opcode.labelName?_name (op : Opcode) : labelName? op.name.toList = none := by
  cases op with
  | alu op => cases op <;> decide
  | _ => decide

private theorem Instruction.canonical_args {i : Instruction} (h : ∀ name ∈ i.refs, isName name.toList = true) :
    ∀ arg ∈ i.args, arg.canonical = true := by
  intro arg harg
  cases arg with
  | ref name => exact h name (List.mem_filterMap.mpr ⟨_, harg, rfl⟩)
  | _ => rfl

private def Instruction.textWords (i : Instruction) : List (List Char) :=
  i.op.name.toList :: i.operands.map (·.text.toList)

private theorem Instruction.isWord_textWords {i : Instruction} (h : ∀ arg ∈ i.args, arg.canonical = true) :
    ∀ word ∈ i.textWords, isWord word = true := by
  intro word hword
  rcases List.mem_cons.mp hword with rfl | hword
  · exact i.op.isWord_name
  · obtain ⟨arg, harg, rfl⟩ := List.mem_map.mp hword
    obtain ⟨hmem, hp⟩ := List.mem_filter.mp harg
    exact Operand.isWord_text (by simpa using hp) (h arg hmem)

theorem Line.canonical_inst {i : Instruction} (h : (Line.inst i).canonical = true) :
    i.WellFormed ∧ ∀ arg ∈ i.args, arg.canonical = true := by
  simp only [Line.canonical, Bool.and_eq_true, decide_eq_true_eq, List.all_eq_true] at h
  exact ⟨h.1, Instruction.canonical_args h.2⟩

private theorem Line.toList_text_inst (i : Instruction) :
    (Line.inst i).text.toList = ' ' :: ' ' :: ' ' :: i.textWords.flatMap (' ' :: ·) := by
  simp [Line.text, Instruction.text, Instruction.textWords, String.toList_join, List.flatMap_map]

/-- Plain characters and spaces make a row without a comment. -/
theorem isRow_of_plain {text : List Char} (h : ∀ c ∈ text, c = ' ' ∨ isPlain c = true) :
    IsRow text ∧ text.takeWhile (· != ';') = text := by
  have hno : ∀ d, Text.isBlank d = true ∨ d = ';' → d ≠ ' ' → d ∉ text := by
    intro d hd hs hm
    rcases h d hm with rfl | hp
    · exact hs rfl
    · rcases hd with hd | rfl
      · simp [isPlain, hd] at hp
      · simp [isPlain] at hp
  refine ⟨⟨hno '\n' (.inl (by decide)) (by decide), fun hr => ?_⟩, ?_⟩
  · exact hno '\r' (.inl (by decide)) (by decide) (List.mem_of_getLast? hr)
  · refine List.takeWhile_eq_self_iff.mpr fun c hc => ?_
    rw [bne_iff_ne]
    rintro rfl
    exact hno ';' (.inr rfl) (by decide) hc

section
variable {line : Line}

private theorem Line.plain_text (h : line.canonical = true) : ∀ c ∈ line.text.toList, c = ' ' ∨ isPlain c = true := by
  intro c hc
  cases line with
  | label name =>
    have hc' : c ∈ name.toList ∨ c = ':' := by simpa [Line.text] using hc
    rcases hc' with hc' | rfl
    · exact .inr (List.all_eq_true.mp h c hc')
    · exact .inr (by decide)
  | inst i =>
    rw [Line.toList_text_inst] at hc
    have hc' : c = ' ' ∨ ∃ word ∈ i.textWords, c ∈ word := by
      simp only [List.mem_cons, List.mem_flatMap] at hc
      rcases hc with hc | hc | hc | ⟨word, hword, hc | hc⟩
      · exact .inl hc
      · exact .inl hc
      · exact .inl hc
      · exact .inl hc
      · exact .inr ⟨word, hword, hc⟩
    rcases hc' with hc' | ⟨word, hword, hc'⟩
    · exact .inl hc'
    · have := Instruction.isWord_textWords (Line.canonical_inst h).2 word hword
      rw [isWord, Bool.and_eq_true, List.all_eq_true] at this
      exact .inr (this.2 c hc')

private theorem Line.parse_text (h : line.canonical = true) : Line.parse line.text.toList = .ok (some line) := by
  have hcut := (isRow_of_plain (Line.plain_text h)).2
  rw [Line.parse, hcut]
  cases line with
  | label name =>
    have hlist : (Line.label name).text.toList = name.toList ++ [':'] := by simp [Line.text]
    have hword : isWord (name.toList ++ [':']) = true := by
      have hall : name.toList.all isPlain = true := h
      rw [isWord, List.all_append, hall]
      simp
      decide
    rw [hlist, Text.words_word hword]
    simp [labelName?]
  | inst i =>
    obtain ⟨hwf, hargs⟩ := Line.canonical_inst h
    have hwords : Text.words (Line.inst i).text.toList = i.textWords := by
      rw [Line.toList_text_inst, Text.words_cons_blank (by decide), Text.words_cons_blank (by decide),
        Text.words_cons_blank (by decide), Text.words_spaced (Instruction.isWord_textWords hargs)]
    have hparse := Operand.parseAll_text i.op hargs
    rw [show i.args.map Operand.slot = i.op.layout from hwf] at hparse
    rw [hwords, Instruction.textWords]
    simp only [i.op.labelName?_name, String.ofList_toList, Opcode.ofName?_name, Instruction.operands, hparse]
    rfl

end

private theorem Program.parseLines_text {p : Program} (h : ∀ line ∈ p, line.canonical = true) (n : Nat)
    (done : List Line) : Program.parseLines n done (p.map (·.text.toList)) = .ok (done.reverse ++ p) := by
  induction p generalizing n done with
  | nil => simp [Program.parseLines]
  | cons line p ih =>
    rw [List.map_cons, Program.parseLines, Line.parse_text (h line List.mem_cons_self)]
    simpa using ih (fun l hl => h l (List.mem_cons_of_mem line hl)) (n + 1) (line :: done)

/-- The listing of canonical lines is read as these lines. -/
theorem Program.parse_listing {p : Program} (h : ∀ line ∈ p, line.canonical = true) :
    Program.parse p.listing = .ok p := by
  have hrows : ∀ row ∈ p.map Line.text, IsRow row.toList := by
    intro row hrow
    obtain ⟨line, hline, rfl⟩ := List.mem_map.mp hrow
    exact (isRow_of_plain (Line.plain_text (h line hline))).1
  rw [Program.parse, Program.listing, Text.lines_unlines hrows, List.map_map]
  exact Program.parseLines_text h 0 []

end StackToolchain
