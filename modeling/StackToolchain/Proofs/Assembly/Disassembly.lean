import StackToolchain.Proofs.Assembly.Listings
import StackToolchain.Proofs.Machine.Linked

/-! Disassembly and assembly undo each other.
What was assembled comes apart into its instructions again, with addresses in the place of labels. What comes apart
can be assembled again from its listing: all bytes return but those that no field of an instruction holds, and these
are zero. -/
namespace StackToolchain

namespace Program

def instructions (p : Program) : List Instruction :=
  p.filterMap fun
    | .label _ => none
    | .inst i => some i

@[simp] theorem instructions_nil : instructions [] = [] := rfl

@[simp] theorem instructions_label (name : String) (p : Program) :
    instructions (.label name :: p) = instructions p := rfl

@[simp] theorem instructions_inst (i : Instruction) (p : Program) :
    instructions (.inst i :: p) = i :: instructions p := rfl

theorem mem_instructions {p : Program} {i : Instruction} : i ∈ p.instructions ↔ .inst i ∈ p := by
  induction p with
  | nil => simp
  | cons line p ih => cases line <;> simp [ih]

variable {labels : Labels}

private theorem length_resolvedFrom (start : Nat) (p : Program) :
    (p.resolvedFrom labels start).length = p.instructions.length := by
  induction p generalizing start with
  | nil => rfl
  | cons line p ih => cases line <;> simp [resolvedFrom, ih]

/-- An instruction is found at the sum of the sizes of those before it. -/
theorem getElem?_resolvedFrom {p : Program} {k : Nat} {i : Instruction} (h : p.instructions[k]? = some i)
    (start : Nat) : (p.resolvedFrom labels start)[k]? =
      some ((start + ((p.instructions.take k).map Instruction.size).sum).toUInt16, i.resolve labels.get?) := by
  induction p generalizing start k with
  | nil => simp at h
  | cons line p ih =>
    cases line with
    | label name => exact ih h start
    | inst j =>
      cases k with
      | zero =>
        cases h
        rfl
      | succ k =>
        rw [instructions_inst, List.getElem?_cons_succ] at h
        rw [resolvedFrom, List.getElem?_cons_succ, ih h, instructions_inst, List.take_succ_cons, List.map_cons,
          List.sum_cons, Nat.add_assoc]

private theorem sum_take_lt {p : Program} {k : Nat} {i : Instruction} (h : p.instructions[k]? = some i) :
    ((p.instructions.take k).map Instruction.size).sum < Program.size p := by
  induction p generalizing k with
  | nil => simp at h
  | cons line p ih =>
    cases line with
    | label name => simpa [Line.size] using ih h
    | inst j =>
      have hpos := j.size_pos
      cases k with
      | zero => simpa [Line.size] using Nat.lt_add_right _ hpos
      | succ k =>
        have := ih (k := k) (by simpa using h)
        simpa [Line.size] using this

/-- Lines begin with an instruction at their first address, or they take no room. -/
theorem resolvedFrom_start (start : Nat) (p : Program) :
    (∃ i, (start.toUInt16, i) ∈ p.resolvedFrom labels start) ∨ Program.size p = 0 := by
  induction p with
  | nil => exact .inr rfl
  | cons line p ih =>
    cases line with
    | label name => simpa [resolvedFrom, Line.size] using ih
    | inst i => exact .inl ⟨_, List.mem_cons_self⟩

/-- A label has the address of an instruction, or it stands behind all of them. -/
theorem address_of_mem_labelsFrom {p : Program} {start : Nat} {name : String} {a : UInt16} (hfits : p.FitsFrom start)
    (h : (name, a) ∈ p.labelsFrom start) :
    (∃ i, (a, i) ∈ p.resolvedFrom labels start) ∨ a.toNat = start + Program.size p := by
  induction p generalizing start with
  | nil => cases h
  | cons line p ih =>
    cases line with
    | label other =>
      rcases List.mem_cons.mp h with h | h
      · obtain ⟨-, rfl⟩ := Prod.mk.inj h
        rcases resolvedFrom_start start p with hfirst | hnone
        · exact .inl hfirst
        · refine .inr ?_
          rw [toNat_toUInt16 hfits.1, size_cons, hnone]
          rfl
      · simpa [resolvedFrom, Line.size] using ih hfits.2 h
    | inst i =>
      rcases ih hfits.2 h with ⟨j, hj⟩ | hend
      · exact .inl ⟨j, List.mem_cons_of_mem _ hj⟩
      · refine .inr ?_
        rw [hend, size_cons, Line.size, Nat.add_assoc]

private theorem address_of_encode {p : Program} {bytes : List UInt8} {i : Instruction} (h : p.encode labels = .ok bytes)
    (hi : .inst i ∈ p) : ∀ name ∈ i.refs, ∃ v, labels.get? name = some v := by
  intro name hname
  obtain ⟨before, after, rfl⟩ := List.append_of_mem hi
  obtain ⟨_, _, -, htail, -⟩ := encode_append.mp h
  obtain ⟨_, _, himage, -, -⟩ := (encode_inst i after).mp htail
  obtain ⟨body, hbody, -, -⟩ := Instruction.image_eq_ok.mp himage
  obtain ⟨arg, harg, hname⟩ := List.mem_filterMap.mp hname
  cases arg <;> cases hname
  exact Operand.address_of_encodeAll hbody name harg

end Program

/-- The image of a program of well-formed instructions comes apart into one entry for every instruction, at the sum
of the sizes before it and with addresses in the place of its labels. Every label has the address of an entry, or
that of the end of the image. -/
theorem disassembly_undoes_assembly {p : Program} {bytes : List UInt8} (wf : ∀ i, .inst i ∈ p → i.WellFormed)
    (h : p.assemble = .ok bytes) :
    ∃ labels entries, Labels.collect p = .ok labels ∧ disassemble bytes = .ok entries ∧
      entries.length = p.instructions.length ∧
      (∀ k i, p.instructions[k]? = some i →
        (∃ a, entries[k]? = some (a, i.resolve labels.get?) ∧
          a.toNat = ((p.instructions.take k).map Instruction.size).sum) ∧
        ∀ name ∈ i.refs, ∃ v, labels.get? name = some v) ∧
      ∀ name a, (name, a) ∈ labels.entries → (∃ i, (a, i) ∈ entries) ∨ a.toNat = bytes.length := by
  obtain ⟨labels, hl, he⟩ := bind_eq_ok.mp h
  obtain ⟨hfits, -, rfl⟩ := Labels.collect_eq_ok.mp hl
  have hsize := hfits.size_le
  refine ⟨_, _, hl, Program.disassemble_encode wf he, p.length_resolvedFrom 0, fun k i hi => ⟨?_, ?_⟩,
    fun name a ha => ?_⟩
  · have hlt := Program.sum_take_lt hi
    refine ⟨_, by rw [Program.getElem?_resolvedFrom hi 0, Nat.zero_add], ?_⟩
    exact toNat_toUInt16 (by omega)
  · exact Program.address_of_encode he (Program.mem_instructions.mp (List.mem_of_getElem? hi))
  · rw [Program.length_encode he, ← Nat.zero_add (Program.size p)]
    exact Program.address_of_mem_labelsFrom hfits ha

def jumpSample : Program :=
  [.label "top", .inst (.jmp "end"), .inst .halt, .inst (.immLabel .raddr "top"), .label "end"]

theorem disassembly_undoes_assembly_of_jumps :
    ∃ bytes labels entries, jumpSample.assemble = .ok bytes ∧ Labels.collect jumpSample = .ok labels ∧
      disassemble bytes = .ok entries ∧ entries.length = 3 ∧
        (∃ a, entries[2]? = some (a, .imm .raddr 0) ∧ a.toNat = 6) ∧
          ((∃ i, (10, i) ∈ entries) ∨ (10 : UInt16).toNat = bytes.length) := by
  have wf : ∀ i, .inst i ∈ jumpSample → i.WellFormed := by
    intro i hi
    simp only [jumpSample, List.mem_cons, List.not_mem_nil, or_false, Line.inst.injEq, reduceCtorEq, false_or] at hi
    rcases hi with rfl | rfl | rfl <;> rfl
  have hassemble : jumpSample.assemble = .ok [0x17, 10, 0, 0, 0, 0, 0x12, 1, 0, 0] := rfl
  obtain ⟨labels, entries, hl, hd, hlen, heach, haddress⟩ := disassembly_undoes_assembly wf hassemble
  have hl' : Labels.collect jumpSample = .ok ⟨[("top", 0), ("end", 10)]⟩ := rfl
  cases hl.symm.trans hl'
  exact ⟨_, _, entries, hassemble, hl, hd, hlen, (heach 2 (.immLabel .raddr "top") rfl).1,
    haddress "end" 10 (by simp)⟩

def cleared (unused : List Bool) (bytes : List UInt8) : List UInt8 :=
  List.zipWith (fun mark b => if mark then 0 else b) unused bytes

private theorem Register.code_of_ofCode? {b : UInt8} {r : Register} (h : ofCode? b = some r) : r.code = b := by
  have hall : ∀ k : Fin all.length, (all.get k).code.toNat = k := by decide
  obtain ⟨hlt, rfl⟩ := List.getElem?_eq_some_iff.mp h
  exact UInt8.toNat_inj.mp (hall ⟨b.toNat, hlt⟩)

theorem Opcode.code_of_ofCode? {b : UInt8} {op : Opcode} (h : ofCode? b = some op) : op.code = b := by
  have hall : ∀ k : Fin all.length, (all.get k).code.toNat = k := by decide
  obtain ⟨hlt, rfl⟩ := List.getElem?_eq_some_iff.mp h
  exact UInt8.toNat_inj.mp (hall ⟨b.toNat, hlt⟩)

private theorem cleared_append {marks marks' : List Bool} {front rest : List UInt8} (h : marks.length = front.length) :
    cleared (marks ++ marks') (front ++ rest) = cleared marks front ++ cleared marks' rest :=
  List.zipWith_append h

def Slot.unused (slot : Slot) : List Bool :=
  List.replicate slot.size (slot == .pad)

namespace Operand

variable {addr : Nat} {op : Opcode} {slot : Slot} {slots : List Slot} {bytes : List UInt8} {args : List Operand}

/-- The first field is read off the first bytes. Its operand is no label, and it has these bytes unless the field is
unused. -/
theorem decodeAll_cons (h : decodeAll addr op (slot :: slots) bytes = .ok args) :
    ∃ arg others front rest, args = arg :: others ∧ bytes = front ++ rest ∧ front.length = slot.size ∧
      arg.slot = slot ∧ (∀ label, arg ≠ .ref label) ∧
        (∀ address, arg.encode address = .ok (cleared slot.unused front)) ∧
          decodeAll addr op slots rest = .ok others := by
  cases slot with
  | reg =>
    cases bytes with
    | nil => cases h
    | cons b rest =>
      rw [decodeAll] at h
      split at h
      · cases h
      · rename_i r hr
        obtain ⟨others, ho, rfl⟩ := bind_pure_eq_ok.mp h
        exact ⟨.reg r, others, [b], rest, rfl, rfl, rfl, rfl, by simp,
          fun _ => by rw [encode, Register.code_of_ofCode? hr]; rfl, ho⟩
  | imm8 =>
    cases bytes with
    | nil => cases h
    | cons b rest =>
      obtain ⟨others, ho, rfl⟩ := bind_pure_eq_ok.mp h
      exact ⟨.imm8 b.toInt8, others, [b], rest, rfl, rfl, rfl, rfl, by simp, fun _ => rfl, ho⟩
  | imm16 =>
    cases bytes with
    | nil => cases h
    | cons lo bytes =>
      cases bytes with
      | nil => cases h
      | cons hi rest =>
        obtain ⟨others, ho, rfl⟩ := bind_pure_eq_ok.mp h
        have hbytes : wordBytes (wordOfBytes lo hi) = [lo, hi] := by simp [wordBytes]
        exact ⟨.imm16 (wordOfBytes lo hi), others, [lo, hi], rest, rfl, rfl, rfl, rfl, by simp,
          fun _ => by rw [encode, hbytes]; rfl, ho⟩
  | pad =>
    cases bytes with
    | nil => cases h
    | cons b rest =>
      obtain ⟨others, ho, rfl⟩ := bind_pure_eq_ok.mp h
      exact ⟨.pad, others, [b], rest, rfl, rfl, rfl, rfl, by simp, fun _ => rfl, ho⟩

/-- Operands that were read off bytes fill their fields, are no labels, and have these bytes with zeros in the unused
ones. -/
theorem encodeAll_of_decodeAll (h : decodeAll addr op slots bytes = .ok args)
    (hlen : bytes.length = (slots.map Slot.size).sum) :
    args.map Operand.slot = slots ∧ (∀ label, .ref label ∉ args) ∧
      ∀ address, encodeAll address args = .ok (cleared (slots.flatMap Slot.unused) bytes) := by
  induction slots generalizing bytes args with
  | nil =>
    cases h
    exact ⟨rfl, by simp, fun _ => rfl⟩
  | cons slot slots ih =>
    obtain ⟨arg, others, front, rest, rfl, rfl, hfront, hslot, hno, hencode, hrest⟩ := decodeAll_cons h
    simp only [List.length_append, List.map_cons, List.sum_cons] at hlen
    obtain ⟨hslots, hnone, hothers⟩ := ih hrest (by omega)
    have hmarks : slot.unused.length = front.length := by rw [hfront, Slot.unused, List.length_replicate]
    refine ⟨by rw [List.map_cons, hslot, hslots], fun label hl => ?_, fun address => ?_⟩
    · rcases List.mem_cons.mp hl with hl | hl
      · exact hno label hl.symm
      · exact hnone label hl
    · rw [encodeAll, hencode, hothers, List.flatMap_cons, cleared_append hmarks]
      rfl

end Operand

namespace Instruction

def unused (i : Instruction) : List Bool :=
  false :: i.op.layout.flatMap Slot.unused

theorem length_unused (i : Instruction) : i.unused.length = i.size := by
  simp [unused, size, Opcode.size_eq_layout, List.length_flatMap, Slot.unused, Nat.add_comm]

/-- An instruction that was read off the front of bytes takes as many of them as it declares, and has them with zeros
in the unused ones. -/
theorem decode_eq_ok {addr : Nat} {bytes : List UInt8} {i : Instruction} (h : decode addr bytes = .ok i) :
    ∃ front rest, bytes = front ++ rest ∧ front.length = i.size ∧ i.WellFormed ∧ (∀ label, .ref label ∉ i.args) ∧
      ∀ labels, i.image labels = .ok (cleared i.unused front) := by
  cases bytes with
  | nil => cases h
  | cons code bytes =>
    rw [decode] at h
    split at h
    · cases h
    · rename_i op hop
      dsimp only at h
      split_ifs at h with hshort
      obtain ⟨args, hargs, rfl⟩ := bind_pure_eq_ok.mp h
      have hlen : (bytes.take (op.size - 1)).length = op.size - 1 := by
        rw [List.length_take] at hshort ⊢
        omega
      have hsize := op.size_eq_layout
      have hfront : (code :: bytes.take (op.size - 1)).length = size ⟨op, args⟩ := by
        rw [List.length_cons, hlen, show size ⟨op, args⟩ = op.size from rfl]
        omega
      obtain ⟨wf, hnone, hencode⟩ := Operand.encodeAll_of_decodeAll hargs (by omega)
      refine ⟨code :: bytes.take (op.size - 1), bytes.drop (op.size - 1), ?_, hfront, wf, hnone, fun labels => ?_⟩
      · rw [List.cons_append, List.take_append_drop]
      · refine image_eq_ok.mpr ⟨_, hencode _, ?_, ?_⟩
        · rw [Opcode.code_of_ofCode? hop]
          rfl
        · rw [cleared, List.length_zipWith, length_unused, hfront, min_self]

end Instruction

/-- Instructions that were read off bytes one after the other, the first of them at an address. -/
inductive Spelled : Nat → List UInt8 → List (UInt16 × Instruction) → Prop
  | nil {addr} : Spelled addr [] []
  | cons {addr i front rest entries} : front.length = i.size → i.WellFormed → (∀ label, .ref label ∉ i.args) →
      (∀ labels, i.image labels = .ok (cleared i.unused front)) → Spelled (addr + i.size) rest entries →
        Spelled addr (front ++ rest) ((addr.toUInt16, i) :: entries)

private theorem disassembleOnto_spelled {addr : Nat} {done entries : List (UInt16 × Instruction)} {bytes : List UInt8}
    (h : disassembleOnto addr done bytes = .ok entries) :
    ∃ more, entries = done.reverse ++ more ∧ Spelled addr bytes more := by
  fun_induction disassembleOnto addr done bytes with
  | case1 addr done =>
    cases h
    exact ⟨[], by simp, .nil⟩
  | case2 addr done b rest e hd => cases h
  | case3 addr done b rest i hd ih =>
    obtain ⟨front, back, hbytes, hlen, wf, hnone, himage⟩ := Instruction.decode_eq_ok hd
    have hpos := i.size_pos
    have hback : rest.drop (i.size - 1) = back := by
      have := congrArg (List.drop i.size) hbytes
      rwa [← hlen, List.drop_left, hlen, show i.size = i.size - 1 + 1 by omega, List.drop_succ_cons] at this
    obtain ⟨more, rfl, hmore⟩ := ih h
    rw [hback] at hmore
    refine ⟨(addr.toUInt16, i) :: more, by simp, ?_⟩
    rw [hbytes]
    exact .cons hlen wf hnone himage hmore

private theorem disassemble_spelled {bytes : List UInt8} {entries : List (UInt16 × Instruction)}
    (h : disassemble bytes = .ok entries) : Spelled 0 bytes entries := by
  obtain ⟨more, rfl, hmore⟩ := disassembleOnto_spelled h
  exact hmore

private def linesOf (entries : List (UInt16 × Instruction)) : Program :=
  entries.map (.inst ·.2)

def unusedOf (entries : List (UInt16 × Instruction)) : List Bool :=
  entries.flatMap (·.2.unused)

/-- A byte of an image that the instruction there leaves unused. -/
def UnusedByte (entries : List (UInt16 × Instruction)) (k : Nat) : Prop :=
  ∃ entry ∈ entries, ∃ d, k = entry.1.toNat + d ∧ entry.2.unused[d]? = some true

namespace Spelled

variable {addr : Nat} {bytes : List UInt8} {entries : List (UInt16 × Instruction)}

private theorem length_unusedOf (h : Spelled addr bytes entries) : (unusedOf entries).length = bytes.length := by
  induction h with
  | nil => rfl
  | @cons addr i front rest entries hlen _ _ _ _ ih =>
    rw [unusedOf, List.flatMap_cons, ← unusedOf, List.length_append, ih, List.length_append, hlen, i.length_unused]

private theorem encode_linesOf (h : Spelled addr bytes entries) (labels : Labels) :
    (linesOf entries).encode labels = .ok (cleared (unusedOf entries) bytes) := by
  induction h with
  | nil => rfl
  | @cons addr i front rest entries hlen _ _ himage _ ih =>
    refine (Program.encode_inst i (linesOf entries)).mpr ⟨_, _, himage labels, ih, ?_⟩
    exact cleared_append (i.length_unused.trans hlen.symm)

private theorem resolvedFrom_linesOf (h : Spelled addr bytes entries) (labels : Labels) :
    (linesOf entries).resolvedFrom labels addr = entries := by
  induction h with
  | nil => rfl
  | @cons addr i front rest entries _ _ hnone _ _ ih =>
    have hargs : i.args.map (Operand.resolve labels.get?) = i.args := by
      refine (List.map_congr_left fun arg harg => ?_).trans (List.map_id _)
      cases arg with
      | ref label => exact absurd harg (hnone label)
      | _ => rfl
    rw [linesOf, List.map_cons, ← linesOf, Program.resolvedFrom, ih, Instruction.resolve, hargs]

private theorem canonical_linesOf (h : Spelled addr bytes entries) :
    ∀ line ∈ linesOf entries, line.canonical = true := by
  induction h with
  | nil => simp [linesOf]
  | @cons addr i front rest entries _ wf hnone _ _ ih =>
    refine List.forall_mem_cons.mpr ⟨?_, ih⟩
    have hrefs : i.refs = [] := by
      refine List.filterMap_eq_nil_iff.mpr fun arg harg => ?_
      cases arg with
      | ref label => exact absurd harg (hnone label)
      | _ => rfl
    simp [Line.canonical, hrefs, wf]

private theorem le_address (h : Spelled addr bytes entries) (hfits : addr + bytes.length ≤ 0x10000) :
    ∀ entry ∈ entries, addr ≤ entry.1.toNat := by
  induction h with
  | nil => simp
  | @cons addr i front rest entries hlen _ _ _ _ ih =>
    have hpos := i.size_pos
    rw [List.length_append, hlen] at hfits
    refine List.forall_mem_cons.mpr ⟨(toNat_toUInt16 (by omega)).ge, fun entry hentry => ?_⟩
    have := ih (by omega) entry hentry
    omega

/-- The marks of unused bytes stand where the instructions with these bytes are. -/
theorem unusedOf_iff (h : Spelled addr bytes entries) (hfits : addr + bytes.length ≤ 0x10000) (k : Nat) :
    (unusedOf entries)[k]? = some true ↔ UnusedByte entries (addr + k) := by
  induction h generalizing k with
  | nil => simp [unusedOf, UnusedByte]
  | @cons addr i front rest entries hlen _ _ _ hrest ih =>
    have hpos := i.size_pos
    rw [List.length_append, hlen] at hfits
    have hfits' : addr + i.size + rest.length ≤ 0x10000 := by omega
    have haddr : addr.toUInt16.toNat = addr := toNat_toUInt16 (by omega)
    have hcons : UnusedByte ((addr.toUInt16, i) :: entries) (addr + k) ↔
        i.unused[k]? = some true ∨ UnusedByte entries (addr + k) := by
      simp only [UnusedByte, List.mem_cons, exists_eq_or_imp, haddr, Nat.add_right_inj, exists_eq_left']
    rw [hcons, unusedOf, List.flatMap_cons, ← unusedOf]
    rcases Nat.lt_or_ge k i.size with hk | hk
    · rw [List.getElem?_append_left (by rwa [i.length_unused])]
      refine (or_iff_left ?_).symm
      rintro ⟨entry, hentry, d, hd, -⟩
      have := hrest.le_address hfits' entry hentry
      omega
    · have hnone : i.unused[k]? = none := List.getElem?_eq_none (by rwa [i.length_unused])
      rw [List.getElem?_append_right (by rwa [i.length_unused]), i.length_unused, hnone, ih hfits',
        show addr + i.size + (k - i.size) = addr + k by omega]
      simp

private theorem fitsFrom_linesOf (h : Spelled addr bytes entries) (hfits : addr + bytes.length ≤ 0x10000) :
    (linesOf entries).FitsFrom addr := by
  induction h with
  | nil => exact hfits
  | @cons addr i front rest entries hlen _ _ _ _ ih =>
    have hpos := i.size_pos
    rw [List.length_append, hlen] at hfits
    exact ⟨by omega, ih (by omega)⟩

end Spelled

private theorem labelsFrom_linesOf (addr : Nat) (entries : List (UInt16 × Instruction)) :
    (linesOf entries).labelsFrom addr = [] := by
  induction entries generalizing addr with
  | nil => rfl
  | cons entry entries ih => exact ih (addr + entry.2.size)

private theorem Spelled.assemble_linesOf {bytes : List UInt8} {entries : List (UInt16 × Instruction)}
    (h : Spelled 0 bytes entries) (hfits : bytes.length ≤ 0x10000) :
    (linesOf entries).assemble = .ok (cleared (unusedOf entries) bytes) := by
  have hlabels := labelsFrom_linesOf 0 entries
  have hnames : (linesOf entries).labelNames = [] := by
    rw [← Program.map_fst_labelsFrom 0, hlabels, List.map_nil]
  refine bind_eq_ok.mpr ⟨⟨[]⟩, Labels.collect_eq_ok.mpr ⟨?_, ?_, ?_⟩, h.encode_linesOf _⟩
  · exact h.fitsFrom_linesOf (by omega)
  · rw [hnames]
    exact List.nodup_nil
  · rw [hlabels]

theorem getElem?_cleared {marks : List Bool} {bytes : List UInt8} {k : Nat} {b : UInt8}
    (hlen : marks.length = bytes.length) (hb : bytes[k]? = some b) :
    (cleared marks bytes)[k]? = some (if marks[k]? = some true then 0 else b) := by
  have hk : k < marks.length := by
    rw [hlen]
    exact (List.getElem?_eq_some_iff.mp hb).1
  rw [cleared, List.getElem?_zipWith, hb, List.getElem?_eq_getElem hk]
  simp

/-- The instructions that an image comes apart into are a source of it: their listing is read and assembled to an
image of the same length, which comes apart into the same instructions. A byte that holds an opcode, a register or a
constant is as it was, and a byte that its instruction leaves unused is zero. -/
theorem disassembly_gives_faithful_source {bytes : List UInt8} {entries : List (UInt16 × Instruction)}
    (hfits : bytes.length ≤ 0x10000) (h : disassemble bytes = .ok entries) :
    ∃ p image, Program.parse (Program.listing (entries.map (.inst ·.2))) = .ok p ∧ p.assemble = .ok image ∧
      image.length = bytes.length ∧
      (∀ k b, bytes[k]? = some b →
        (UnusedByte entries k → image[k]? = some 0) ∧ (¬ UnusedByte entries k → image[k]? = some b)) ∧
      disassemble image = .ok entries := by
  have hs := disassemble_spelled h
  have hassemble := hs.assemble_linesOf hfits
  have hlen := hs.length_unusedOf
  refine ⟨linesOf entries, _, Program.parse_listing hs.canonical_linesOf, hassemble, ?_, fun k b hb => ?_, ?_⟩
  · rw [cleared, List.length_zipWith, hlen, min_self]
  · have hk := hs.unusedOf_iff (by omega) k
    rw [Nat.zero_add] at hk
    rw [getElem?_cleared hlen hb, ← hk]
    exact ⟨fun hu => by rw [if_pos hu], fun hu => by rw [if_neg hu]⟩
  · have wf : ∀ i, .inst i ∈ linesOf entries → i.WellFormed := fun i hi =>
      (Line.canonical_inst (hs.canonical_linesOf _ hi)).1
    rw [Program.disassemble_encode wf (hs.encode_linesOf .empty), hs.resolvedFrom_linesOf]

/-- Garbage in the unused bytes of a stop and a jump is gone after the detour through text. -/
theorem disassembly_gives_faithful_source_of_garbage :
    let bytes : List UInt8 := [0x00, 0xAA, 0x17, 0x02, 0x00, 0xBB]
    ∃ entries p image, disassemble bytes = .ok entries ∧
      Program.parse (Program.listing (entries.map (.inst ·.2))) = .ok p ∧ p.assemble = .ok image ∧
        image.length = bytes.length ∧ image[1]? = some 0 ∧ image[3]? = some 0x02 ∧ disassemble image = .ok entries := by
  have h : disassemble [0x00, 0xAA, 0x17, 0x02, 0x00, 0xBB] =
      .ok [(0, .halt), (2, ⟨.jmp, [.imm16 2, .pad]⟩)] := by
    have hhalt : Instruction.decode 0 [0x00, 0xAA, 0x17, 0x02, 0x00, 0xBB] = .ok .halt := rfl
    have hjump : Instruction.decode 2 [0x17, 0x02, 0x00, 0xBB] = .ok ⟨.jmp, [.imm16 2, .pad]⟩ := rfl
    simp [disassemble, disassembleOnto, hhalt, hjump, Instruction.size, Instruction.halt, Opcode.size]
  obtain ⟨p, image, hparse, hassemble, hlen, hbytes, hagain⟩ := disassembly_gives_faithful_source (by decide) h
  refine ⟨_, p, image, h, hparse, hassemble, hlen, ?_, ?_, hagain⟩
  · exact (hbytes 1 0xAA rfl).1 ⟨(0, .halt), by simp, 1, rfl, rfl⟩
  · refine (hbytes 3 0x02 rfl).2 ?_
    rintro ⟨entry, hentry, d, hd, hunused⟩
    rcases List.mem_pair.mp hentry with rfl | rfl
    · obtain rfl : d = 3 := by simpa using hd.symm
      cases hunused
    · obtain rfl : d = 1 := Nat.add_left_cancel (n := 2) hd.symm
      cases hunused

end StackToolchain
