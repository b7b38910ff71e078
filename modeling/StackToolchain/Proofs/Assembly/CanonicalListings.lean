import StackToolchain.Proofs.Assembly.Listings

/-! What reading a listing gives.
Words have neither blanks nor semicolons in them, and an operand is read for a field only if it fills the field. So
the lines that are read are canonical, whatever the spelling, and the canonical programs are those that their own
listings give back. -/
namespace StackToolchain

open Text (isPlain isWord isName)

namespace Text

private theorem isWord_of_mem_splitAtBlanks {text current word : List Char} (hcurrent : ∀ c ∈ current, isPlain c = true)
    (htext : ∀ c ∈ text, c ≠ ';') (h : word ∈ splitAtBlanks current text) : isWord word = true := by
  have hclosed : ∀ {current : List Char}, (∀ c ∈ current, isPlain c = true) → current.isEmpty = false →
      isWord current.reverse = true := by
    intro current hplain hne
    simp only [isWord, List.isEmpty_reverse, hne, List.all_reverse, List.all_eq_true.mpr hplain]
    rfl
  induction text generalizing current with
  | nil =>
    rw [splitAtBlanks] at h
    split_ifs at h with hempty
    · cases h
    · obtain rfl := List.mem_singleton.mp h
      exact hclosed hcurrent (by simpa using hempty)
  | cons c text ih =>
    have hrest : ∀ d ∈ text, d ≠ ';' := fun d hd => htext d (List.mem_cons_of_mem c hd)
    rw [splitAtBlanks] at h
    split_ifs at h with hblank hempty
    · exact ih (by simp) hrest h
    · rcases List.mem_cons.mp h with rfl | h
      · exact hclosed hcurrent (by simpa using hempty)
      · exact ih (by simp) hrest h
    · have hc : isPlain c = true := by simp [isPlain, hblank, htext c List.mem_cons_self]
      exact ih (List.forall_mem_cons.mpr ⟨hc, hcurrent⟩) hrest h

/-- The words before a comment are words of a listing. -/
theorem isWord_of_mem_words {line word : List Char} (h : word ∈ words (line.takeWhile (· != ';'))) :
    isWord word = true := by
  refine isWord_of_mem_splitAtBlanks (by simp) (fun c hc => ?_) h
  simpa using List.mem_takeWhile_imp hc

end Text

private theorem Operand.canonical_of_parse {slot : Slot} {word : List Char} {arg : Operand}
    (h : Operand.parse slot word = .ok arg) : arg.slot = slot ∧ arg.canonical = true := by
  cases slot with
  | reg =>
    simp only [Operand.parse] at h
    split at h
    · cases h
      exact ⟨rfl, rfl⟩
    · cases h
  | imm8 =>
    simp only [Operand.parse] at h
    split at h
    · cases h
      exact ⟨rfl, rfl⟩
    · cases h
  | imm16 =>
    simp only [Operand.parse] at h
    split at h
    · cases h
      exact ⟨rfl, rfl⟩
    · split_ifs at h with hname
      cases h
      exact ⟨rfl, by simpa [Operand.canonical] using hname⟩
  | pad =>
    cases h
    exact ⟨rfl, rfl⟩

private theorem Operand.canonical_of_parseAll {op : Opcode} {slots : List Slot} {words : List (List Char)}
    {args : List Operand} (h : Operand.parseAll op slots words = .ok args) :
    args.map Operand.slot = slots ∧ ∀ arg ∈ args, arg.canonical = true := by
  fun_induction Operand.parseAll op slots words generalizing args with
  | case1 =>
    cases h
    exact ⟨rfl, by simp⟩
  | case2 => cases h
  | case3 slots words ih =>
    obtain ⟨rest, hrest, rfl⟩ := bind_pure_eq_ok.mp h
    obtain ⟨hslots, hcanonical⟩ := ih hrest
    exact ⟨by rw [List.map_cons, hslots]; rfl, List.forall_mem_cons.mpr ⟨rfl, hcanonical⟩⟩
  | case4 => cases h
  | case5 slot slots word words hpad ih =>
    obtain ⟨arg, harg, h⟩ := bind_eq_ok.mp h
    obtain ⟨rest, hrest, rfl⟩ := bind_pure_eq_ok.mp h
    obtain ⟨hslot, hc⟩ := Operand.canonical_of_parse harg
    obtain ⟨hslots, hcanonical⟩ := ih hrest
    exact ⟨by rw [List.map_cons, hslot, hslots], List.forall_mem_cons.mpr ⟨hc, hcanonical⟩⟩

private theorem Line.canonical_of_args {i : Instruction} (wf : i.WellFormed)
    (h : ∀ arg ∈ i.args, arg.canonical = true) : (Line.inst i).canonical = true := by
  simp only [Line.canonical, Bool.and_eq_true, decide_eq_true_eq, List.all_eq_true]
  refine ⟨wf, fun name hname => ?_⟩
  obtain ⟨arg, harg, hname⟩ := List.mem_filterMap.mp hname
  cases arg <;> cases hname
  exact h _ harg

private theorem Line.canonical_of_parse {text : List Char} {line : Line} (h : Line.parse text = .ok (some line)) :
    line.canonical = true := by
  have hwords : ∀ word ∈ Text.words (text.takeWhile (· != ';')), isWord word = true :=
    fun word hword => Text.isWord_of_mem_words hword
  rw [Line.parse] at h
  split at h
  · cases h
  · rename_i head rest hsplit
    split at h
    · rename_i name hlabel
      split_ifs at h
      cases h
      -- the name is the first word without its colon
      have hhead := hwords head (by simp [hsplit])
      rw [labelName?] at hlabel
      split_ifs at hlabel
      cases hlabel
      simp only [isWord, Bool.and_eq_true, List.all_eq_true] at hhead
      simp only [Line.canonical, String.toList_ofList, List.all_eq_true]
      exact fun c hc => hhead.2 c (List.mem_of_mem_dropLast hc)
    · split at h
      · cases h
      · rename_i op hop
        obtain ⟨args, hargs, h⟩ := bind_pure_eq_ok.mp h
        cases h
        obtain ⟨wf, hcanonical⟩ := Operand.canonical_of_parseAll hargs
        exact Line.canonical_of_args wf hcanonical

private theorem Program.canonical_of_parseLines {n : Nat} {done : List Line} {texts : List (List Char)} {p : Program}
    (hdone : ∀ line ∈ done, line.canonical = true) (h : Program.parseLines n done texts = .ok p) :
    ∀ line ∈ p, line.canonical = true := by
  induction texts generalizing n done with
  | nil =>
    cases h
    simpa using hdone
  | cons text texts ih =>
    rw [Program.parseLines] at h
    split at h
    · cases h
    · exact ih hdone h
    · rename_i line hline
      exact ih (List.forall_mem_cons.mpr ⟨Line.canonical_of_parse hline, hdone⟩) h

/-- A program is given back by its listing exactly if its lines are canonical, and every program that is read from a
text has canonical lines. -/
theorem listing_gives_program_back_iff :
    (∀ p : Program, Program.parse p.listing = .ok p ↔ ∀ line ∈ p, line.canonical = true) ∧
      ∀ text p, Program.parse text = .ok p →
        (∀ line ∈ p, line.canonical = true) ∧ Program.parse p.listing = .ok p := by
  have hread : ∀ {text p}, Program.parse text = .ok p → ∀ line ∈ p, line.canonical = true :=
    fun h => Program.canonical_of_parseLines (by simp) h
  refine ⟨fun p => ⟨hread, Program.parse_listing⟩, fun text p h => ?_⟩
  exact ⟨hread h, Program.parse_listing (hread h)⟩

/-- Case, radix, blanks and comments are free in a text, and the listing has one way to write them. -/
theorem listing_gives_program_back_of_loose_text :
    let p : Program := [.label "a:b", .inst (.imm .r2 16), .inst (.memr .rsb (-6) .rret), .inst (.jmp "a_1")]
    Program.parse "a:b:;\n\timm r2 0x10\r\n\n  Memr\trsb -6 rret ; load\njmp a_1" = .ok p ∧
      (∀ line ∈ p, line.canonical = true) ∧ Program.parse p.listing = .ok p := by
  have hparse : Program.parse "a:b:;\n\timm r2 0x10\r\n\n  Memr\trsb -6 rret ; load\njmp a_1" =
      .ok [.label "a:b", .inst (.imm .r2 16), .inst (.memr .rsb (-6) .rret), .inst (.jmp "a_1")] := by
    simp only [Program.parse, String.reduceToList]
    rfl
  exact ⟨hparse, listing_gives_program_back_iff.2 _ _ hparse⟩

end StackToolchain
