import StackToolchain.Proofs.Assembly.Disassembly
import StackToolchain.Proofs.Machine.Rules

/-! Code that stands anywhere in memory.
The code need not be a whole program, and nothing is asked of the memory around it. As long as its bytes stay where
they are, the machine goes through straight code with one step for every instruction. -/
namespace StackToolchain

namespace Memory

variable {m m' : Memory} {a : Nat}

structure Holds (m : Memory) (a : Nat) (bytes : List UInt8) : Prop where
  fits : a + bytes.length ≤ 0x10000
  byte_eq : ∀ k (hk : k < bytes.length), m.byte (a + k).toUInt16 = bytes[k]

namespace Holds

variable {front back bytes : List UInt8}

private theorem left (h : m.Holds a (front ++ back)) : m.Holds a front := by
  have hlen : (front ++ back).length = front.length + back.length := List.length_append
  have hfits := h.fits
  refine ⟨by omega, fun k hk => ?_⟩
  rw [h.byte_eq k (by omega), List.getElem_append_left hk]

private theorem right (h : m.Holds a (front ++ back)) : m.Holds (a + front.length) back := by
  have hlen : (front ++ back).length = front.length + back.length := List.length_append
  have hfits := h.fits
  refine ⟨by omega, fun k hk => ?_⟩
  rw [Nat.add_assoc, h.byte_eq (front.length + k) (by omega), List.getElem_append_right (Nat.le_add_right _ _)]
  congr 1
  omega

private theorem of_same (h : m.Holds a bytes) (hsame : m.Same a (a + bytes.length) m') : m'.Holds a bytes := by
  have hfits := h.fits
  refine ⟨hfits, fun k hk => ?_⟩
  have hk' : (a + k).toUInt16.toNat = a + k := toNat_toUInt16 (by omega)
  rw [hsame _ (by omega) (by omega), h.byte_eq k hk]

end Holds

def HoldsCode (m : Memory) (labels : Labels) (a : Nat) (code : Program) : Prop :=
  ∃ bytes, code.encode labels = .ok bytes ∧ m.Holds a bytes

namespace HoldsCode

variable {labels : Labels} {code rest : Program}

private theorem left (h : m.HoldsCode labels a (code ++ rest)) : m.HoldsCode labels a code := by
  obtain ⟨bytes, hbytes, hheld⟩ := h
  obtain ⟨front, back, hfront, -, rfl⟩ := Program.encode_append.mp hbytes
  exact ⟨front, hfront, hheld.left⟩

private theorem right (h : m.HoldsCode labels a (code ++ rest)) : m.HoldsCode labels (a + Program.size code) rest := by
  obtain ⟨bytes, hbytes, hheld⟩ := h
  obtain ⟨front, back, hfront, hback, rfl⟩ := Program.encode_append.mp hbytes
  exact ⟨back, hback, Program.length_encode hfront ▸ hheld.right⟩

private theorem of_same (h : m.HoldsCode labels a code) (hsame : m.Same a (a + Program.size code) m') :
    m'.HoldsCode labels a code := by
  obtain ⟨bytes, hbytes, hheld⟩ := h
  rw [← Program.length_encode hbytes] at hsame
  exact ⟨bytes, hbytes, hheld.of_same hsame⟩

end HoldsCode

end Memory

theorem Program.instructions_append (p q : Program) : (p ++ q).instructions = p.instructions ++ q.instructions :=
  List.filterMap_append

namespace Machine

/-- The machine goes through code with one step for every instruction, and then stands behind it. -/
structure Passes (m : Machine) (code : Program) (m' : Machine) : Prop where
  steps : m.after code.instructions.length = some m'
  pc : m'.pc = m.pc + (Program.size code).toUInt16
  halted : m'.halted = m.halted

theorem Passes.trans {m m' m'' : Machine} {code rest : Program} (h : m.Passes code m') (h' : m'.Passes rest m'') :
    m.Passes (code ++ rest) m'' where
  steps := by rw [Program.instructions_append, List.length_append, after_add h.steps, h'.steps]
  pc := by
    rw [h'.pc, h.pc, Program.size_append, Nat.toUInt16_eq, Nat.toUInt16_eq, Nat.toUInt16_eq, UInt16.ofNat_add,
      UInt16.add_assoc]
  halted := h'.halted.trans h.halted

structure StandsAt (m : Machine) (labels : Labels) (a : Nat) (code : Program) : Prop where
  pc : m.pc = a.toUInt16
  held : m.mem.HoldsCode labels a code

namespace StandsAt

variable {m m' : Machine} {labels : Labels} {a : Nat} {code rest : Program} {i : Instruction}

theorem left (h : m.StandsAt labels a (code ++ rest)) : m.StandsAt labels a code :=
  ⟨h.pc, h.held.left⟩

theorem advance (h : m.StandsAt labels a (code ++ rest)) (hp : m.Passes code m')
    (hsame : m.mem.Same (a + Program.size code) (a + Program.size code + Program.size rest) m'.mem) :
    m'.StandsAt labels (a + Program.size code) rest where
  pc := by rw [hp.pc, h.pc, Nat.toUInt16_eq, Nat.toUInt16_eq, Nat.toUInt16_eq, UInt16.ofNat_add]
  held := h.held.right.of_same hsame

theorem next {line : Line} (h : m.StandsAt labels a (line :: rest)) (hp : m.Passes [line] m')
    (hmem : m'.mem = m.mem) : m'.StandsAt labels (a + Program.size [line]) rest :=
  (show m.StandsAt labels a ([line] ++ rest) from h).advance hp (.of_eq hmem)

private theorem fetch (h : m.StandsAt labels a (.inst i :: rest)) (wf : i.WellFormed) :
    m.fetch = .ok (i.resolve labels.get?) := by
  obtain ⟨bytes, hbytes, hheld⟩ := h.held
  obtain ⟨front, back, hfront, -, rfl⟩ := (Program.encode_inst i rest).mp hbytes
  have hfits := hheld.left.fits
  have hlen := Instruction.length_image hfront
  have hpos := i.size_pos
  have hfour := i.size_le
  have hpc : m.pc.toNat = a := by rw [h.pc, toNat_toUInt16 (by omega)]
  obtain ⟨more, hwindow⟩ := m.mem.window_eq m.pc front (by omega) (by omega) fun k hk => by
    rw [hpc, hheld.left.byte_eq k hk]
  rw [Machine.fetch, hwindow, Instruction.decode_image m.pc.toNat wf hfront]

private theorem passes (h : m.StandsAt labels a (.inst i :: rest)) (wf : i.WellFormed) {e : Effect}
    (he : m.effect (i.resolve labels.get?) = .ok e) (hnext : e.next = m.pc + i.size.toUInt16)
    (hhalts : e.halts = false) : m.Passes [.inst i] (m.apply e) where
  steps := after_succ (exec_of_effect (h.fetch wf) he) 0
  pc := hnext
  halted := by rw [halted_apply, hhalts, Bool.or_false]

/-- An instruction that sets one register. -/
theorem sets (h : m.StandsAt labels a (.inst i :: rest)) (wf : i.WellFormed) {r : Register} {v : UInt16}
    (he : m.effect (i.resolve labels.get?) = .ok { next := m.pc + i.size.toUInt16, sets := [(r, v)] }) :
    ∃ m', m.Passes [.inst i] m' ∧ m.Sets r v m' :=
  ⟨_, h.passes wf he rfl rfl, m.sets_apply _ r v⟩

theorem immLabel {save : Register} {label : String} (h : m.StandsAt labels a (.inst (.immLabel save label) :: rest)) :
    ∃ v m', labels.get? label = some v ∧ m.Passes [.inst (.immLabel save label)] m' ∧ m.Sets save v m' := by
  obtain ⟨bytes, hbytes, -⟩ := h.held
  obtain ⟨front, back, hfront, -, -⟩ := (Program.encode_inst _ rest).mp hbytes
  obtain ⟨body, hbody, -⟩ := Instruction.image_eq_ok.mp hfront
  obtain ⟨v, hv⟩ := Operand.address_of_encodeAll hbody label (by simp [Instruction.immLabel])
  obtain ⟨m', hp, hs⟩ := h.sets rfl (r := save) (v := v) (by
    simp [Instruction.immLabel, Instruction.resolve, Operand.resolve, hv, effect, Instruction.size])
  exact ⟨v, m', hv, hp, hs⟩

theorem alu {op : AluOp} {x y save : Register} {v : UInt16} (h : m.StandsAt labels a (.inst (.alu op x y save) :: rest))
    (hv : op.eval (m.reg x) (m.reg y) = some v) :
    ∃ m', m.Passes [.inst (.alu op x y save)] m' ∧ m.Sets save v m' := by
  refine h.sets rfl ?_
  simp [Instruction.alu, Instruction.resolve, Operand.resolve, effect, hv, Instruction.size]

theorem faults {op : AluOp} {x y save : Register} (h : m.StandsAt labels a (.inst (.alu op x y save) :: rest))
    (hv : op.eval (m.reg x) (m.reg y) = none) : m.exec = (.error (.divisionByZero m.pc), m) := by
  refine exec_of_fault (h.fetch rfl) ?_
  simp [Instruction.alu, Instruction.resolve, Operand.resolve, effect, hv]

theorem push {src : Register} (h : m.StandsAt labels a (.inst (.push src) :: rest)) :
    ∃ m', m.Passes [.inst (.push src)] m' ∧ m'.mem = m.mem.store (m.reg .rsp) (m.reg src) ∧
      m'.reg .rsp = m.reg .rsp + 2 ∧ ∀ r, r ≠ .rsp → m'.reg r = m.reg r := by
  refine ⟨_, h.passes rfl rfl rfl rfl, ?_, ?_, fun r hr => ?_⟩
  · simp
  · simp
  · simp [hr.symm]

theorem pop {save : Register} (h : m.StandsAt labels a (.inst (.pop save) :: rest)) (hsave : save ≠ .rsp) :
    ∃ m', m.Passes [.inst (.pop save)] m' ∧ m'.mem = m.mem ∧ m'.reg .rsp = m.reg .rsp - 2 ∧
      m'.reg save = m.mem.load (m.reg .rsp - 2) ∧ ∀ r, r ≠ .rsp → r ≠ save → m'.reg r = m.reg r := by
  refine ⟨_, h.passes rfl rfl rfl rfl, ?_, ?_, ?_, fun r hr hs => ?_⟩
  · simp
  · simp [hsave]
  · simp
  · simp [hr.symm, hs.symm]

end StandsAt

end Machine

end StackToolchain
