import StackToolchain.Proofs.Assembly.Disassembly

/-! Which programs are assembled, and what to.
The first pass counts the bytes that instructions declare, the second puts together the bytes that they have. Both come
to the same addresses, because an instruction with another number of bytes is refused. What is asked of a program and
what its table and its image are is said here by the ways to cut the program at a line. -/
namespace StackToolchain

/-- The cuts of a list at an entry: the first entry, or a cut of the rest. -/
theorem forall_cut_cons {α : Type} {P : List α → α → Prop} {a : α} {l : List α} :
    (∀ before x after, a :: l = before ++ x :: after → P before x) ↔
      P [] a ∧ ∀ before x after, l = before ++ x :: after → P (a :: before) x := by
  constructor
  · intro h
    refine ⟨h [] a l rfl, fun before x after hl => ?_⟩
    exact h (a :: before) x after (by rw [hl, List.cons_append])
  · rintro ⟨hfirst, hrest⟩ before x after hcut
    cases before with
    | nil =>
      obtain ⟨rfl, -⟩ := List.cons.inj hcut
      exact hfirst
    | cons b before =>
      obtain ⟨rfl, hl⟩ := List.cons.inj hcut
      exact hrest before x after hl

/-- What assembly asks of a program. A line begins at the size of the lines before it. -/
structure Program.Assemblable (p : Program) : Prop where
  distinct : p.labelNames.Nodup
  begins : ∀ before line after, p = before ++ line :: after → Program.size before ≤ 0xFFFF
  ends : Program.size p ≤ 0x10000
  refers : ∀ i, .inst i ∈ p → ∀ name, .ref name ∈ i.args → .label name ∈ p
  /-- every instruction has as many bytes as it declares, whatever the addresses of labels are -/
  declares : ∀ i, .inst i ∈ p → ∀ address bytes, i.encode address = .ok bytes → bytes.length = i.size

structure Labels.Lists (labels : Labels) (p : Program) : Prop where
  names : labels.entries.map Prod.fst = p.labelNames
  addresses : ∀ before name after, p = before ++ .label name :: after →
    ∃ addr, labels.entries[before.labelNames.length]? = some (name, addr) ∧ addr.toNat = Program.size before

/-- An image is as long as a program and has the bytes of every instruction at its address. -/
structure Program.Imaged (p : Program) (labels : Labels) (image : List UInt8) : Prop where
  length : image.length = Program.size p
  bytes : ∀ before i after, p = before ++ .inst i :: after →
    i.encode labels.get? = .ok ((image.drop (Program.size before)).take i.size)

namespace Program

theorem fitsFrom_iff {p : Program} {addr : Nat} :
    p.FitsFrom addr ↔ (∀ before line after, p = before ++ line :: after → addr + Program.size before ≤ 0xFFFF) ∧
      addr + Program.size p ≤ 0x10000 := by
  induction p generalizing addr with
  | nil => simp [FitsFrom]
  | cons line p ih =>
    rw [FitsFrom, ih, forall_cut_cons]
    simp only [size_nil, size_cons, Nat.add_zero, Nat.add_assoc, Nat.lt_succ_iff, and_assoc]

private theorem getElem?_labelsFrom (before after : Program) (name : String) (addr : Nat) :
    (labelsFrom addr (before ++ .label name :: after))[before.labelNames.length]? =
      some (name, (addr + Program.size before).toUInt16) := by
  induction before generalizing addr with
  | nil => rfl
  | cons line before ih =>
    cases line with
    | label other => simpa [labelsFrom, Line.size] using ih addr
    | inst i =>
      have := ih (addr + i.size)
      simpa [labelsFrom, Line.size, Nat.add_assoc] using this

end Program

private theorem Labels.collect_lists {p : Program} {labels : Labels} (h : collect p = .ok labels) : labels.Lists p := by
  obtain ⟨hfits, -, rfl⟩ := collect_eq_ok.mp h
  refine ⟨Program.map_fst_labelsFrom 0 p, ?_⟩
  rintro before name after rfl
  have hbegins := (Program.fitsFrom_iff.mp hfits).1 before (.label name) after rfl
  refine ⟨_, Program.getElem?_labelsFrom before after name 0, ?_⟩
  rw [toNat_toUInt16 (by omega), Nat.zero_add]

private theorem Labels.exists_get?_iff {p : Program} {labels : Labels} (h : collect p = .ok labels) (name : String) :
    (∃ v, labels.get? name = some v) ↔ .label name ∈ p := by
  rw [← Option.isSome_iff_exists, show (labels.get? name).isSome = labels.contains name from rfl, Table.contains_iff,
    (collect_lists h).names, Program.mem_labelNames]

theorem Instruction.image_iff {labels : Labels} {i : Instruction} {bytes : List UInt8} :
    i.image labels = .ok bytes ↔ i.encode labels.get? = .ok bytes ∧ bytes.length = i.size := by
  unfold image
  cases i.encode labels.get? with
  | error name => simp
  | ok front =>
    dsimp only
    split <;> grind

/-- The addresses of labels decide the bytes of an instruction, but not their number. -/
theorem Instruction.length_encode {address : String → Option UInt16} {i : Instruction} {bytes : List UInt8}
    (h : i.encode address = .ok bytes) : bytes.length = 1 + (i.args.map (Slot.size ∘ Operand.slot)).sum := by
  obtain ⟨body, hbody, rfl⟩ := bind_pure_eq_ok.mp h
  rw [List.length_cons, Operand.length_encodeAll hbody, Nat.add_comm]

namespace Program

variable {labels : Labels}

/-- Two passes, one image: the bytes of an instruction begin where the lines before it end. -/
theorem encode_eq_ok {p : Program} {image : List UInt8} : p.encode labels = .ok image ↔ p.Imaged labels image := by
  constructor
  · intro h
    refine ⟨length_encode h, ?_⟩
    rintro before i after rfl
    obtain ⟨front, back, hfront, hback, rfl⟩ := encode_append.mp h
    obtain ⟨bytes, rest, hbytes, -, rfl⟩ := (encode_inst i after).mp hback
    obtain ⟨hencode, hlen⟩ := Instruction.image_iff.mp hbytes
    rw [← length_encode hfront, List.drop_left, ← hlen, List.take_left]
    exact hencode
  · rintro ⟨hlen, hbytes⟩
    induction p generalizing image with
    | nil =>
      obtain rfl := List.length_eq_zero_iff.mp hlen
      rfl
    | cons line p ih =>
      have hrest (before : Program) (i : Instruction) (after : Program) (hp : p = before ++ .inst i :: after) :
          i.encode labels.get? = .ok (((image.drop line.size).drop (Program.size before)).take i.size) := by
        rw [List.drop_drop, ← size_cons line before]
        exact hbytes (line :: before) i after (by rw [hp, List.cons_append])
      rw [size_cons] at hlen
      have htail : encode p labels = .ok (image.drop line.size) :=
        ih (by rw [List.length_drop]; omega) hrest
      cases line with
      | label name => exact htail
      | inst i =>
        refine (encode_inst i p).mpr ⟨image.take i.size, image.drop i.size, ?_, htail, ?_⟩
        · refine Instruction.image_iff.mpr ⟨hbytes [] i p rfl, ?_⟩
          rw [Line.size] at hlen
          rw [List.length_take]
          omega
        · rw [List.take_append_drop]

private theorem exists_encode_iff {p : Program} :
    (∃ image, p.encode labels = .ok image) ↔ ∀ i, .inst i ∈ p → ∃ bytes, i.image labels = .ok bytes := by
  induction p with
  | nil => exact ⟨by simp, fun _ => ⟨[], rfl⟩⟩
  | cons line p ih =>
    cases line with
    | label name =>
      simp only [List.mem_cons, reduceCtorEq, false_or]
      exact ih
    | inst i =>
      simp only [encode_inst, List.mem_cons, Line.inst.injEq, forall_eq_or_imp, ← ih]
      constructor
      · rintro ⟨_, front, back, hfront, hback, -⟩
        exact ⟨⟨front, hfront⟩, back, hback⟩
      · rintro ⟨⟨front, hfront⟩, back, hback⟩
        exact ⟨front ++ back, front, back, hfront, hback, rfl⟩

end Program

/-- An instruction has an image exactly if its labels have addresses and it has as many bytes as it declares. -/
theorem Instruction.exists_image_iff {labels : Labels} {i : Instruction} :
    (∃ bytes, i.image labels = .ok bytes) ↔
      (∀ name, .ref name ∈ i.args → ∃ v, labels.get? name = some v) ∧
        ∀ address bytes, i.encode address = .ok bytes → bytes.length = i.size := by
  constructor
  · rintro ⟨bytes, h⟩
    obtain ⟨hencode, hlen⟩ := image_iff.mp h
    obtain ⟨body, hbody, -⟩ := image_eq_ok.mp h
    refine ⟨Operand.address_of_encodeAll hbody, fun address other hother => ?_⟩
    rw [length_encode hother, ← length_encode hencode, hlen]
  · rintro ⟨hrefs, hdeclares⟩
    obtain ⟨body, hbody⟩ := Operand.exists_encodeAll hrefs
    have hencode : i.encode labels.get? = .ok (i.op.code :: body) := bind_pure_eq_ok.mpr ⟨body, hbody, rfl⟩
    exact ⟨_, image_iff.mpr ⟨hencode, hdeclares _ _ hencode⟩⟩

namespace Program

theorem assemble_eq_ok {p : Program} {image : List UInt8} :
    p.assemble = .ok image ↔ ∃ labels, Labels.collect p = .ok labels ∧ p.Imaged labels image := by
  simp only [assemble, bind_eq_ok, encode_eq_ok]

private theorem assemblable_iff {p : Program} : p.Assemblable ↔ ∃ image, p.assemble = .ok image := by
  constructor
  · intro h
    have hfits : p.FitsFrom 0 := by
      refine fitsFrom_iff.mpr ⟨?_, by simpa using h.ends⟩
      simpa using h.begins
    have hcollect : Labels.collect p = .ok ⟨p.labelsFrom 0⟩ := Labels.collect_eq_ok.mpr ⟨hfits, h.distinct, rfl⟩
    have himages (i : Instruction) (hi : .inst i ∈ p) : ∃ bytes, i.image ⟨p.labelsFrom 0⟩ = .ok bytes := by
      refine Instruction.exists_image_iff.mpr ⟨fun name hname => ?_, h.declares i hi⟩
      exact (Labels.exists_get?_iff hcollect name).mpr (h.refers i hi name hname)
    obtain ⟨image, himage⟩ := exists_encode_iff.mpr himages
    exact ⟨image, assemble_eq_ok.mpr ⟨_, hcollect, encode_eq_ok.mp himage⟩⟩
  · rintro ⟨image, h⟩
    obtain ⟨labels, hcollect, himaged⟩ := assemble_eq_ok.mp h
    obtain ⟨hfits, hdistinct, -⟩ := Labels.collect_eq_ok.mp hcollect
    obtain ⟨hbegins, hends⟩ := fitsFrom_iff.mp hfits
    have himages (i : Instruction) (hi : .inst i ∈ p) :=
      Instruction.exists_image_iff.mp (exists_encode_iff.mp ⟨image, encode_eq_ok.mpr himaged⟩ i hi)
    refine ⟨hdistinct, by simpa using hbegins, by simpa using hends, fun i hi name hname => ?_, fun i hi => ?_⟩
    · exact (Labels.exists_get?_iff hcollect name).mp ((himages i hi).1 name hname)
    · exact (himages i hi).2

end Program

/-- A program is assembled exactly if it meets what assembly asks of it. It is then assembled to the one image that has
the bytes of every instruction at its address, under the table that gives every label the address of its line. -/
theorem assembly_is_exact (p : Program) :
    (p.Assemblable ↔ ∃ image, p.assemble = .ok image) ∧
      ∀ image, p.assemble = .ok image ↔
        p.Assemblable ∧ ∃ labels, Labels.collect p = .ok labels ∧ labels.Lists p ∧ p.Imaged labels image := by
  refine ⟨Program.assemblable_iff, fun image => ⟨fun h => ?_, ?_⟩⟩
  · obtain ⟨labels, hcollect, himaged⟩ := Program.assemble_eq_ok.mp h
    exact ⟨Program.assemblable_iff.mpr ⟨image, h⟩, labels, hcollect, Labels.collect_lists hcollect, himaged⟩
  · rintro ⟨-, labels, hcollect, -, himaged⟩
    exact Program.assemble_eq_ok.mpr ⟨labels, hcollect, himaged⟩

end StackToolchain
