import Mathlib
import StackToolchain.Assembly.Image

/-! Instructions with addresses in the place of labels, and the reading back of encoded instructions.
A well-formed instruction that has bytes is read back from them, whatever follows. -/
namespace StackToolchain

/-- Two steps in a row succeed exactly when the first does and the second does on its value. -/
theorem bind_eq_ok {ε α β : Type} {x : Except ε α} {f : α → Except ε β} {b : β} :
    x >>= f = .ok b ↔ ∃ a, x = .ok a ∧ f a = .ok b := by
  rcases x with e | a <;> simp [bind, Except.bind]

/-- A pure last step gives its value exactly when the step before it gives one. -/
theorem bind_pure_eq_ok {ε α β : Type} {x : Except ε α} {f : α → β} {b : β} :
    (x >>= fun a => pure (f a)) = .ok b ↔ ∃ a, x = .ok a ∧ f a = b := by
  simp [bind_eq_ok, pure, Except.pure]

theorem mapError_eq_ok {ε ε' α : Type} {f : ε → ε'} {x : Except ε α} {a : α} : x.mapError f = .ok a ↔ x = .ok a := by
  cases x <;> simp [Except.mapError]

/-- An encoded instruction is its opcode and the fields of its layout. -/
theorem Opcode.size_eq_layout (op : Opcode) : op.size = 1 + (op.layout.map Slot.size).sum := by
  cases op <;> rfl

theorem Opcode.size_le (op : Opcode) : op.size ≤ 4 := by
  cases op <;> simp [size]

def Operand.resolve (address : String → Option UInt16) : Operand → Operand
  | .ref label => (address label).elim (.ref label) .imm16
  | arg => arg

def Instruction.resolve (address : String → Option UInt16) (i : Instruction) : Instruction :=
  ⟨i.op, i.args.map (Operand.resolve address)⟩

@[simp] theorem Instruction.op_resolve (address : String → Option UInt16) (i : Instruction) :
    (i.resolve address).op = i.op := rfl

def Instruction.refs (i : Instruction) : List String :=
  i.args.filterMap fun
    | .ref label => some label
    | _ => none

namespace Operand

variable {address : String → Option UInt16}

private theorem length_encode {arg : Operand} {bytes : List UInt8} (h : arg.encode address = .ok bytes) :
    bytes.length = arg.slot.size := by
  cases arg with
  | ref label =>
    simp only [encode] at h
    split at h
    · cases h; rfl
    · cases h
  | _ => cases h; rfl

theorem length_encodeAll {args : List Operand} {bytes : List UInt8}
    (h : encodeAll address args = .ok bytes) : bytes.length = (args.map (Slot.size ∘ slot)).sum := by
  induction args generalizing bytes with
  | nil => cases h; rfl
  | cons arg args ih =>
    obtain ⟨front, hf, h⟩ := bind_eq_ok.mp h
    obtain ⟨others, ho, rfl⟩ := bind_pure_eq_ok.mp h
    simp [length_encode hf, ih ho]

/-- One encoded operand is read back as the operand with its label resolved. -/
private theorem decodeAll_encode (addr : Nat) (op : Opcode) {arg : Operand} {bytes : List UInt8}
    (h : arg.encode address = .ok bytes) (slots : List Slot) (rest : List UInt8) :
    decodeAll addr op (arg.slot :: slots) (bytes ++ rest) =
      (decodeAll addr op slots rest).map (arg.resolve address :: ·) := by
  cases arg with
  | reg r =>
    cases h
    cases hd : decodeAll addr op slots rest <;> simp [decodeAll, slot, resolve, hd, Except.map, bind, Except.bind,
      pure, Except.pure]
  | ref label =>
    simp only [encode] at h
    split at h
    · rename_i v hv
      cases h
      cases hd : decodeAll addr op slots rest <;> simp [decodeAll, slot, resolve, hv, wordBytes, hd, Except.map,
        bind, Except.bind, pure, Except.pure]
    · cases h
  | _ =>
    cases h
    cases hd : decodeAll addr op slots rest <;> simp [decodeAll, slot, resolve, wordBytes, hd, Except.map, bind,
      Except.bind, pure, Except.pure]

private theorem decodeAll_encodeAll (addr : Nat) (op : Opcode) {args : List Operand} {bytes : List UInt8}
    (h : encodeAll address args = .ok bytes) (rest : List UInt8) :
    decodeAll addr op (args.map slot) (bytes ++ rest) = .ok (args.map (resolve address)) := by
  induction args generalizing bytes with
  | nil => rfl
  | cons arg args ih =>
    obtain ⟨front, hf, h⟩ := bind_eq_ok.mp h
    obtain ⟨others, ho, rfl⟩ := bind_pure_eq_ok.mp h
    rw [List.map_cons, List.append_assoc, decodeAll_encode addr op hf, ih ho]
    rfl

/-- Operands whose labels all have addresses have bytes. -/
theorem exists_encodeAll {args : List Operand}
    (h : ∀ label, .ref label ∈ args → ∃ v, address label = some v) :
    ∃ bytes, encodeAll address args = .ok bytes := by
  induction args with
  | nil => exact ⟨[], rfl⟩
  | cons arg args ih =>
    obtain ⟨others, ho⟩ := ih fun label hl => h label (.tail _ hl)
    have front : ∃ bytes, arg.encode address = .ok bytes := by
      cases arg with
      | ref label =>
        obtain ⟨v, hv⟩ := h label (.head _)
        exact ⟨wordBytes v, by simp [encode, hv]⟩
      | _ => exact ⟨_, rfl⟩
    obtain ⟨bytes, hb⟩ := front
    exact ⟨bytes ++ others, by simp [encodeAll, hb, ho, bind, Except.bind, pure, Except.pure]⟩

end Operand

namespace Instruction

variable {labels : Labels} {i : Instruction} {bytes : List UInt8}

theorem size_pos (i : Instruction) : 0 < i.size := by
  obtain ⟨op, args⟩ := i
  cases op <;> simp [size, Opcode.size]

theorem size_le (i : Instruction) : i.size ≤ 4 :=
  i.op.size_le

/-- The bytes of an instruction are its opcode and the bytes of its operands, as many as it declares. -/
theorem image_eq_ok : i.image labels = .ok bytes ↔
    ∃ body, Operand.encodeAll labels.get? i.args = .ok body ∧ bytes = i.op.code :: body ∧
      bytes.length = i.size := by
  unfold image encode
  cases h : Operand.encodeAll labels.get? i.args with
  | error e => simp [bind, Except.bind]
  | ok body =>
    simp only [bind, Except.bind, pure, Except.pure, Except.ok.injEq, exists_eq_left']
    split
    · rename_i hl
      constructor
      · rintro ⟨⟩
        exact ⟨rfl, hl⟩
      · rintro ⟨rfl, -⟩
        rfl
    · rename_i hl
      constructor
      · rintro ⟨⟩
      · rintro ⟨rfl, hl'⟩
        exact absurd hl' hl

theorem length_image (h : i.image labels = .ok bytes) : bytes.length = i.size := by
  obtain ⟨_, _, _, hl⟩ := image_eq_ok.mp h
  exact hl

/-- A well-formed instruction is read back from its bytes with its labels resolved. -/
theorem decode_image (addr : Nat) (wf : i.WellFormed) (h : i.image labels = .ok bytes) (rest : List UInt8) :
    decode addr (bytes ++ rest) = .ok (i.resolve labels.get?) := by
  obtain ⟨body, hb, rfl, hl⟩ := image_eq_ok.mp h
  have hlen : body.length = i.op.size - 1 := by
    simp only [List.length_cons, size] at hl
    omega
  have htake : (body ++ rest).take (i.op.size - 1) = body ++ [] := by
    rw [← hlen, List.take_left, List.append_nil]
  have hd := Operand.decodeAll_encodeAll addr i.op hb []
  rw [show i.args.map Operand.slot = i.op.layout from wf] at hd
  simp only [List.cons_append, decode, Opcode.ofCode?_code, htake, hd]
  rw [if_neg (by simp [hlen])]
  rfl

/-- A well-formed instruction whose labels all have addresses has bytes. -/
theorem exists_image (wf : i.WellFormed) (h : ∀ label ∈ i.refs, ∃ v, labels.get? label = some v) :
    ∃ bytes, i.image labels = .ok bytes := by
  have hrefs : ∀ label, .ref label ∈ i.args → ∃ v, labels.get? label = some v := by
    intro label hl
    exact h label (List.mem_filterMap.mpr ⟨_, hl, rfl⟩)
  obtain ⟨body, hb⟩ := Operand.exists_encodeAll hrefs
  refine ⟨i.op.code :: body, image_eq_ok.mpr ⟨body, hb, rfl, ?_⟩⟩
  have hl := Operand.length_encodeAll hb
  rw [← List.map_map, show i.args.map Operand.slot = i.op.layout from wf] at hl
  rw [List.length_cons, hl, size, Opcode.size_eq_layout, Nat.add_comm]

end Instruction

end StackToolchain
