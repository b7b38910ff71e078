import StackToolchain.Proofs.Assembly.Listings
import StackToolchain.Proofs.Compiler.Safety
import StackToolchain.Proofs.Source.Names

/-! The listing and the image of a source are the same program.
Every label of generated code is a name, because it is made from a name of the source or from a number, and so the
listing is read back line by line. -/
namespace StackToolchain

open Source (Token Tree Grammar functionNames globalNames)
open Text (isName isName_append all_isNameChar_of_isName)

/-- A name stays one with a stem in front of it. -/
theorem isName_stem_append {stem name : String} (hs : isName stem.toList = true) (h : isName name.toList = true) :
    isName (stem ++ name).toList = true := by
  rw [String.toList_append]
  exact isName_append hs (all_isNameChar_of_isName h)

private theorem isName_numberedLabel {stem : String} (h : stem ∈ stems) (id : Nat) :
    isName (numberedLabel stem id).toList = true := by
  have hstem : ∀ stem ∈ stems, isName (stem ++ "_").toList = true := by decide
  rw [numberedLabel, String.toList_append, Text.toList_toString_nat]
  exact isName_append (hstem stem h) (all_isNameChar_toDigits id)

section
variable {tree : Tree} {g : Generated}

private theorem isName_of_declared (hn : ∀ decl ∈ tree, isName decl.name.toList = true) {name : String}
    (h : name ∈ functionNames tree ∨ name ∈ globalNames tree) : isName name.toList = true := by
  rcases h with h | h
  all_goals
    obtain ⟨decl, hdecl, h⟩ := List.mem_filterMap.mp h
    cases decl <;> cases h
    exact hn _ hdecl

/-- The labels of generated code are names if the declarations have names. -/
theorem generate_isName (hn : ∀ decl ∈ tree, isName decl.name.toList = true) (h : generate tree = .ok g)
    {label : String} (hl : .label label ∈ g.code) : isName label.toList = true := by
  obtain ⟨st, hs, -, hc⟩ := generate_sound h
  obtain ⟨numbered, hperm, -, hnum⟩ := hs.labels
  simp only [hc, List.mem_cons, Line.label.injEq, reduceCtorEq, false_or, List.mem_reverse] at hl
  rcases hl with rfl | hl
  · exact isName_numberedLabel (by simp [stems]) st.ids.next
  · have hmem := hperm.mem_iff.mp (Program.mem_labelNames.mpr hl)
    simp only [List.mem_append, List.mem_map] at hmem
    rcases hmem with (⟨name, hname, rfl⟩ | ⟨name, hname, rfl⟩) | ⟨name, hname, rfl⟩ | hmem
    · exact isName_stem_append (by decide) (isName_of_declared hn (.inl hname))
    · exact isName_stem_append (by decide) (isName_of_declared hn (.inl hname))
    · exact isName_stem_append (by decide) (isName_of_declared hn (.inr hname))
    · obtain ⟨stem, hstem, id, -, -, rfl⟩ := hnum label hmem
      exact isName_numberedLabel hstem id

private theorem generate_canonical (hn : ∀ decl ∈ tree, isName decl.name.toList = true) (h : generate tree = .ok g) :
    ∀ line ∈ g.code, line.canonical = true := by
  intro line hline
  cases line with
  | label name =>
    have hname := all_isNameChar_of_isName (generate_isName hn h hline)
    rw [List.all_eq_true] at hname
    exact List.all_eq_true.mpr fun c hc => Text.isPlain_of_isNameChar (hname c hc)
  | inst i =>
    have hrefs : ∀ name ∈ i.refs, isName name.toList = true :=
      fun name hr => generate_isName hn h (generate_refs h i hline name hr)
    simp only [Line.canonical, Bool.and_eq_true, decide_eq_true_eq, List.all_eq_true]
    exact ⟨generate_wellFormed h i hline, hrefs⟩

end

section
variable {source : String} {g : Generated} {compiled : Compiled}

private theorem parseSource_isName {tree : Tree} (h : parseSource .standard source = .ok tree) :
    ∀ decl ∈ tree, isName decl.name.toList = true := by
  obtain ⟨tokens, htokens, htree⟩ := bind_eq_ok.mp h
  obtain ⟨text, -, hlex⟩ := bind_eq_ok.mp htokens
  exact Source.parse_isName (Source.lex_named (mapError_eq_ok.mp hlex)) (mapError_eq_ok.mp htree)

/-- The listing of generated code is read as this code. -/
theorem generateSource_listing (h : generateSource .standard source = .ok g) :
    Program.parse g.code.listing = .ok g.code := by
  obtain ⟨tree, htree, hg⟩ := bind_eq_ok.mp h
  exact Program.parse_listing (generate_canonical (parseSource_isName htree) hg)

private theorem finish_text (h : g.finish .text = .ok compiled) :
    ∃ labels, Labels.collect g.code = .ok labels ∧ compiled = ⟨.text g.code.listing, labels, g.frames⟩ := by
  obtain ⟨labels, hl, h⟩ := bind_eq_ok.mp h
  exact ⟨labels, mapError_eq_ok.mp hl, (Except.ok.inj h).symm⟩

private theorem finish_binary (h : g.finish .binary = .ok compiled) :
    ∃ labels bytes, Labels.collect g.code = .ok labels ∧ g.code.encode labels = .ok bytes ∧
      compiled = ⟨.binary bytes, labels, g.frames⟩ := by
  obtain ⟨labels, hl, h⟩ := bind_eq_ok.mp h
  obtain ⟨bytes, hb, h⟩ := bind_eq_ok.mp h
  exact ⟨labels, bytes, mapError_eq_ok.mp hl, mapError_eq_ok.mp hb, (Except.ok.inj h).symm⟩

end

/-- The listing of a source is read as the code that was generated for it, that code assembles to the image of the
source, and its labels are those of the symbol map. -/
theorem listing_agrees_with_image {source : String} {text binary : Compiled}
    (ht : compile .text source = .ok text) (hb : compile .binary source = .ok binary) :
    ∃ g listing bytes, generateSource .standard source = .ok g ∧ text.artifact = .text listing ∧
      binary.artifact = .binary bytes ∧ Program.parse listing = .ok g.code ∧ g.code.assemble = .ok bytes ∧
        Labels.collect g.code = .ok text.symbols.labels ∧ binary.symbols = text.symbols := by
  obtain ⟨g, hg, ht⟩ := bind_eq_ok.mp ht
  obtain ⟨g', hg', hb⟩ := bind_eq_ok.mp hb
  cases hg.symm.trans hg'
  obtain ⟨labels, hl, rfl⟩ := finish_text ht
  obtain ⟨labels', bytes, hl', he, rfl⟩ := finish_binary hb
  cases hl.symm.trans hl'
  have hassemble : g.code.assemble = .ok bytes := bind_eq_ok.mpr ⟨labels, hl, he⟩
  exact ⟨g, g.code.listing, bytes, hg, rfl, rfl, generateSource_listing hg, hassemble, hl, rfl⟩

theorem listing_agrees_with_image_sample :
    ∃ text, compile .text sampleSource = .ok text ∧ ∃ listing, text.artifact = .text listing ∧
      Program.parse listing = .ok sampleProgram.code ∧ sampleProgram.code.assemble = .ok sampleImage ∧
        Labels.collect sampleProgram.code = .ok text.symbols.labels := by
  obtain ⟨hparse, hbinary⟩ := compile_sample
  have hg : generateSource .standard sampleSource = .ok sampleProgram :=
    bind_eq_ok.mpr ⟨sampleTree, hparse, generate_sample⟩
  have htext : compile .text sampleSource =
      .ok ⟨.text sampleProgram.code.listing, sampleLabels, sampleProgram.frames⟩ :=
    bind_eq_ok.mpr ⟨sampleProgram, hg, rfl⟩
  obtain ⟨g, listing, bytes, hg', hlisting, hbytes, hread, hassemble, hlabels, -⟩ :=
    listing_agrees_with_image htext hbinary
  cases hg.symm.trans hg'
  cases hbytes
  exact ⟨_, htext, listing, hlisting, hread, hassemble, hlabels⟩

end StackToolchain
