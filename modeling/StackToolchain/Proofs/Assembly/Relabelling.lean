import Mathlib
import StackToolchain.Assembly.Image

/-! Programs with other labels.
Renaming labels apart from each other moves nothing: every label keeps its address and every instruction its bytes,
and a program that does not assemble fails for the same reason under the new names. -/
namespace StackToolchain

namespace Table

variable {α β : Type} {m : String → String} {f : α → β}

def rename (m : String → String) (f : α → β) (t : Table α) : Table β :=
  ⟨t.entries.map fun entry => (m entry.1, f entry.2)⟩

theorem get?_rename (hm : Function.Injective m) (t : Table α) (name : String) :
    (t.rename m f).get? (m name) = (t.get? name).map f := by
  obtain ⟨entries⟩ := t
  simp only [get?, rename]
  induction entries with
  | nil => rfl
  | cons entry rest ih =>
    obtain ⟨key, a⟩ := entry
    by_cases h : name = key
    · simp [h]
    · have hk : (name == key) = false := by simpa using h
      have hk' : (m name == m key) = false := by simpa using hm.ne h
      simp only [List.map_cons, List.lookup_cons, hk, hk', ih]

private theorem contains_rename (hm : Function.Injective m) (t : Table α) (name : String) :
    (t.rename m f).contains (m name) = t.contains name := by
  simp [contains, get?_rename hm]

private theorem push_rename (t : Table α) (name : String) (a : α) :
    (t.rename m f).push (m name) (f a) = (t.push name a).rename m f := by
  simp [push, rename]

theorem insert_rename (hm : Function.Injective m) (t : Table α) (name : String) (a : α) :
    (t.rename m f).insert (m name) (f a) = (t.insert name a).rename m f := by
  obtain ⟨entries⟩ := t
  simp only [insert, rename, Table.mk.injEq]
  induction entries with
  | nil => rfl
  | cons entry rest ih =>
    by_cases h : entry.1 = name
    · simp [setEntry, h]
    · simp [setEntry, h, hm.ne h, ih]

end Table

variable {ρ : String → String}

def Operand.rename (ρ : String → String) : Operand → Operand
  | .ref label => .ref (ρ label)
  | arg => arg

def Instruction.rename (ρ : String → String) (i : Instruction) : Instruction :=
  ⟨i.op, i.args.map (Operand.rename ρ)⟩

def Line.rename (ρ : String → String) : Line → Line
  | .label name => .label (ρ name)
  | .inst i => .inst (i.rename ρ)

def Program.rename (ρ : String → String) (p : Program) : Program :=
  p.map (Line.rename ρ)

def AssemblyError.rename (ρ : String → String) : AssemblyError → AssemblyError
  | .undefinedLabel name => .undefinedLabel (ρ name)
  | .redefinedLabel name => .redefinedLabel (ρ name)
  | .lengthMismatch i actual => .lengthMismatch (i.rename ρ) actual
  | .programTooLarge bytes => .programTooLarge bytes

private theorem Labels.define_rename (hρ : Function.Injective ρ) (labels : Labels) (name : String) (addr : UInt16) :
    Labels.define (labels.rename ρ id) (ρ name) addr =
      ((labels.define name addr).map (Table.rename ρ id)).mapError (.rename ρ) := by
  unfold Labels.define
  rw [Table.contains_rename hρ]
  split
  · rfl
  · exact congrArg Except.ok (Table.push_rename labels name addr)

private theorem Labels.collectFrom_rename (hρ : Function.Injective ρ) (p : Program) (addr : Nat) (labels : Labels) :
    Labels.collectFrom addr (labels.rename ρ id) (p.rename ρ) =
      ((Labels.collectFrom addr labels p).map (Table.rename ρ id)).mapError (.rename ρ) := by
  induction p generalizing addr labels with
  | nil =>
    simp only [Program.rename, List.map_nil, Labels.collectFrom]
    split <;> rfl
  | cons line p ih =>
    rw [Program.rename] at ih ⊢
    by_cases haddr : addr < 0x10000
    · cases line with
      | inst i =>
        simp only [List.map_cons, Line.rename, Labels.collectFrom, haddr, if_true]
        exact ih (addr + i.size) labels
      | label name =>
        simp only [List.map_cons, Line.rename, Labels.collectFrom, haddr, if_true, Labels.define_rename hρ]
        cases labels.define name addr.toUInt16 with
        | error e => rfl
        | ok entered => exact ih addr entered
    · simp only [List.map_cons, Labels.collectFrom, haddr, if_false]
      rfl

/-- The labels of a renamed program have the addresses of the labels in whose place they stand. -/
theorem Labels.collect_rename (hρ : Function.Injective ρ) (p : Program) :
    Labels.collect (p.rename ρ) = ((Labels.collect p).map (Table.rename ρ id)).mapError (.rename ρ) :=
  Labels.collectFrom_rename hρ p 0 .empty

section
variable {address address' : String → Option UInt16} (h : ∀ label, address' (ρ label) = address label)
include h

private theorem Operand.encode_rename (arg : Operand) :
    (arg.rename ρ).encode address' = (arg.encode address).mapError ρ := by
  cases arg with
  | ref label =>
    simp only [Operand.rename, Operand.encode, h]
    cases address label <;> rfl
  | _ => rfl

private theorem Operand.encodeAll_rename (args : List Operand) :
    Operand.encodeAll address' (args.map (Operand.rename ρ)) = (Operand.encodeAll address args).mapError ρ := by
  induction args with
  | nil => rfl
  | cons arg rest ih =>
    rw [List.map_cons, Operand.encodeAll, Operand.encodeAll, Operand.encode_rename h, ih]
    cases arg.encode address with
    | error label => rfl
    | ok bytes => cases Operand.encodeAll address rest <;> rfl

private theorem Instruction.encode_rename (i : Instruction) :
    (i.rename ρ).encode address' = (i.encode address).mapError ρ := by
  simp only [Instruction.encode, Instruction.rename, Operand.encodeAll_rename h]
  cases Operand.encodeAll address i.args <;> rfl

end

section
variable (hρ : Function.Injective ρ) (labels : Labels)
include hρ

private theorem Instruction.image_rename (i : Instruction) :
    (i.rename ρ).image (labels.rename ρ id) = (i.image labels).mapError (.rename ρ) := by
  have haddress : ∀ label, (labels.rename ρ id).get? (ρ label) = labels.get? label := by
    simp [Table.get?_rename hρ]
  have hsize : (i.rename ρ).size = i.size := rfl
  simp only [Instruction.image, Instruction.encode_rename haddress, hsize]
  cases i.encode labels.get? with
  | error label => rfl
  | ok bytes =>
    by_cases hlen : bytes.length = i.size
    · simp only [Except.mapError, hlen, if_true]
    · simp only [Except.mapError, hlen, if_false]
      rfl

private theorem Program.encodeOnto_rename (p : Program) (done : List UInt8) :
    Program.encodeOnto (labels.rename ρ id) done (p.rename ρ) =
      (Program.encodeOnto labels done p).mapError (.rename ρ) := by
  induction p generalizing done with
  | nil => rfl
  | cons line p ih =>
    rw [Program.rename] at ih ⊢
    cases line with
    | label name => exact ih done
    | inst i =>
      simp only [List.map_cons, Line.rename, Program.encodeOnto, Instruction.image_rename hρ]
      cases i.image labels with
      | error e => rfl
      | ok bytes => exact ih (bytes.reverse ++ done)

end

/-- A renamed program has the same image, or fails for the same reason under the new names. -/
theorem Program.assemble_rename (hρ : Function.Injective ρ) (p : Program) :
    (p.rename ρ).assemble = p.assemble.mapError (.rename ρ) := by
  rw [Program.assemble, Program.assemble, Labels.collect_rename hρ]
  cases Labels.collect p with
  | error e => rfl
  | ok labels => exact Program.encodeOnto_rename hρ labels p []

end StackToolchain
