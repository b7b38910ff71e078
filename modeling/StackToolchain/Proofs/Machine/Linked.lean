import StackToolchain.Compiler.Frame
import StackToolchain.Proofs.Assembly.Placement
import StackToolchain.Proofs.Machine.Stepping

/-! Linked programs in memory.
A program that takes at most the lower half of memory stands there unchanged, the cells of its global variables
apart. Then the instruction at an address is the one that the program has there. -/
namespace StackToolchain

namespace Operand

variable {address : String → Option UInt16}

@[simp] theorem slot_resolve (arg : Operand) : (arg.resolve address).slot = arg.slot := by
  cases arg with
  | ref label => cases h : address label <;> simp [resolve, slot, h]
  | _ => rfl

theorem address_of_encodeAll {args : List Operand} {bytes : List UInt8} (h : encodeAll address args = .ok bytes) :
    ∀ label, .ref label ∈ args → ∃ v, address label = some v := by
  induction args generalizing bytes with
  | nil => simp
  | cons arg args ih =>
    obtain ⟨front, hf, h⟩ := bind_eq_ok.mp h
    obtain ⟨others, ho, rfl⟩ := bind_pure_eq_ok.mp h
    intro label hl
    rcases List.mem_cons.mp hl with rfl | hl
    · simp only [encode] at hf
      split at hf
      · rename_i v hv
        exact ⟨v, hv⟩
      · cases hf
    · exact ih ho label hl

end Operand

namespace Instruction

variable {address : String → Option UInt16} {i : Instruction}

private theorem WellFormed.resolve (wf : i.WellFormed) : (i.resolve address).WellFormed := by
  simpa [WellFormed, Instruction.resolve, Function.comp_def] using wf

private theorem refs_resolve (h : ∀ label, .ref label ∈ i.args → ∃ v, address label = some v) :
    (i.resolve address).refs = [] := by
  rw [refs, List.filterMap_eq_nil_iff]
  intro arg ha
  obtain ⟨orig, ho, rfl⟩ := List.mem_map.mp ha
  cases orig with
  | ref label =>
    obtain ⟨v, hv⟩ := h label ho
    simp [Operand.resolve, hv]
  | _ => rfl

end Instruction

/-- Instructions do not overlap. -/
theorem Program.add_size_le_of_instAt {p : Program} {a b : Nat} {i j : Instruction} (ha : p.instAt a = some i)
    (hb : p.instAt b = some j) (hab : a < b) : a + i.size ≤ b := by
  induction p generalizing a b with
  | nil => simp [instAt] at ha
  | cons line p ih =>
    cases line with
    | label name => exact ih ha hb hab
    | inst first =>
      have hb0 : b ≠ 0 := by omega
      simp only [instAt, hb0, if_false] at ha hb
      split at hb
      · cases hb
      · split at ha
        · cases ha
          omega
        · split at ha
          · cases ha
          · have := ih ha hb (by omega)
            omega

/-- A program with its labels and its image, in the lower half of memory. -/
structure Linked where
  code : Program
  labels : Labels
  bytes : List UInt8
  collected : Labels.collect code = .ok labels
  encoded : code.encode labels = .ok bytes
  wellFormed : ∀ i, .inst i ∈ code → i.WellFormed
  small : bytes.length ≤ 0x8000

namespace Linked

variable (L : Linked)

private theorem length_bytes : L.bytes.length = Program.size L.code :=
  Program.length_encode L.encoded

private theorem size_le : Program.size L.code ≤ 0x8000 :=
  L.length_bytes ▸ L.small

def Record (g : String) (a : Nat) : Prop :=
  L.code.Placed a [.label (globalLabel g), .inst (.word 0)]

def Cell (k : Nat) : Prop :=
  ∃ g a, L.Record g a ∧ (k = a + 2 ∨ k = a + 3)

/-- The image stands in memory, the words of global variables apart. -/
def Intact (m : Machine) : Prop :=
  ∀ k (h : k < L.bytes.length), ¬ L.Cell k → m.mem.byte k.toUInt16 = L.bytes[k]

variable {L} {m : Machine}

theorem address_of_placed {a : Nat} {label : String} {rest : Program}
    (h : L.code.Placed a (.label label :: rest)) : L.labels.get? label = some a.toUInt16 ∧ a.toUInt16.toNat = a := by
  have hle := h.add_size_le
  have hsize := L.size_le
  exact ⟨Labels.get?_of_placed L.collected h, toNat_toUInt16 (by omega)⟩

theorem add_size_le {a : Nat} {i : Instruction} (h : L.code.instAt a = some i) : a + i.size ≤ L.bytes.length := by
  have hle := (Program.placed_of_instAt h).add_size_le
  rw [L.length_bytes]
  simpa [Line.size] using hle

theorem Record.instAt {g : String} {a : Nat} (h : L.Record g a) : L.code.instAt a = some (.word 0) :=
  (show L.code.Placed a [.inst (.word 0)] from h.tail).instAt_eq

/-- No byte of an executable instruction lies in a data record. -/
theorem not_cell {a k : Nat} {i : Instruction} (h : L.code.instAt a = some i) (hop : i.op ≠ .word) (hlo : a ≤ k)
    (hhi : k < a + i.size) : ¬ L.Cell k := by
  rintro ⟨g, b, hb, hk⟩
  have hsize : (Instruction.word 0).size = 4 := rfl
  rcases Nat.lt_trichotomy a b with hab | rfl | hab
  · have := Program.add_size_le_of_instAt h hb.instAt hab
    omega
  · rw [hb.instAt] at h
    cases h
    exact hop rfl
  · have := Program.add_size_le_of_instAt hb.instAt h hab
    omega

/-- The instruction that the machine fetches is the one that stands at its program counter. -/
theorem Intact.fetch (hm : L.Intact m) {i : Instruction} (h : L.code.instAt m.pc.toNat = some i)
    (hop : i.op ≠ .word) : m.fetch = .ok (i.resolve L.labels.get?) := by
  have hp := Program.placed_of_instAt h
  obtain ⟨before, image, after, hbytes, hlen, himage⟩ := hp.image_at L.encoded
  have hsize := Instruction.length_image himage
  have hfit := add_size_le h
  have hsmall := L.small
  have hfour := i.size_le
  obtain ⟨rest, hwin⟩ := m.mem.window_eq m.pc image (by omega) (by omega) fun k hk => by
    rw [hm (m.pc.toNat + k) (by omega) (not_cell h hop (by omega) (by omega))]
    simp only [hbytes, ← hlen]
    rw [List.getElem_append_right (by omega), List.getElem_append_left (by omega)]
    congr 1
    omega
  rw [Machine.fetch, hwin, Instruction.decode_image m.pc.toNat (L.wellFormed i hp.mem) himage]

/-- What stands at the program counter can be executed, a division by zero apart. -/
theorem Intact.exec (hm : L.Intact m) {i : Instruction} (h : L.code.instAt m.pc.toNat = some i)
    (hop : i.op ≠ .word) :
    (∃ m', m.exec = (.ok (i.resolve L.labels.get?), m')) ∨ m.exec = (.error (.divisionByZero m.pc), m) := by
  have hp := Program.placed_of_instAt h
  obtain ⟨_, image, _, -, -, himage⟩ := hp.image_at L.encoded
  obtain ⟨body, hbody, -, -⟩ := Instruction.image_eq_ok.mp himage
  have hrefs := Instruction.refs_resolve (Operand.address_of_encodeAll hbody)
  have hf := hm.fetch h hop
  rcases (L.wellFormed i hp.mem).resolve.effect hrefs hop m with ⟨e, he⟩ | he
  · exact .inl ⟨_, Machine.exec_of_effect hf he⟩
  · exact .inr (Machine.exec_of_fault hf he)

structure Fresh (L : Linked) (m : Machine) : Prop where
  bytes : ∀ a : UInt16, m.mem.byte a = L.bytes.getD a.toNat 0
  pc : m.pc = 0
  rsp : m.reg .rsp = 0x8000
  rsb : m.reg .rsb = 0x8000
  rret : m.reg .rret = 0
  running : m.halted = false

theorem exists_load (L : Linked) : ∃ m, Machine.load L.bytes = .ok m ∧ L.Fresh m := by
  have hsmall := L.small
  have hfits : L.bytes.length ≤ 0x10000 := by omega
  refine ⟨.start (.ofImage L.bytes hfits), by simp [Machine.load, hfits], fun a => ?_, rfl, rfl, rfl, rfl, rfl⟩
  have := Memory.byte_ofImage hfits a.toNat_lt
  rwa [Nat.toUInt16, UInt16.ofNat_toNat] at this

theorem Fresh.intact (h : L.Fresh m) : L.Intact m := by
  intro k hk _
  have hsmall := L.small
  rw [h.bytes, toNat_toUInt16 (by omega), List.getD_eq_getElem _ _ hk]

end Linked

end StackToolchain
