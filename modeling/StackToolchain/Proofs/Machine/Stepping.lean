import Mathlib
import StackToolchain.Machine.Setup
import StackToolchain.Proofs.Assembly.Encoding

/-! Steps of the machine.
What a store leaves alone, which bytes an instruction is read from, and what the registers, the memory and the
program counter are after an effect. A run is a number of steps none of which faults. -/
namespace StackToolchain

theorem toNat_add_one {a : UInt16} (h : a.toNat + 1 < 0x10000) : (a + 1).toNat = a.toNat + 1 := by
  rw [UInt16.toNat_add]
  exact Nat.mod_eq_of_lt h

theorem toNat_toUInt16 {n : Nat} (h : n < 0x10000) : n.toUInt16.toNat = n := by
  rw [Nat.toUInt16, UInt16.toNat_ofNat']
  exact Nat.mod_eq_of_lt h

namespace Memory

def Same (lo hi : Nat) (m m' : Memory) : Prop :=
  ∀ a : UInt16, lo ≤ a.toNat → a.toNat < hi → m'.byte a = m.byte a

namespace Same

variable {lo hi : Nat} {m m' m'' : Memory}

theorem of_eq (h : m' = m) : Same lo hi m m' :=
  fun a _ _ => by rw [h]

theorem trans (h : Same lo hi m m') (h' : Same lo hi m' m'') : Same lo hi m m'' :=
  fun a hlo hhi => (h' a hlo hhi).trans (h a hlo hhi)

theorem mono {lo' hi' : Nat} (h : Same lo hi m m') (hlo : lo ≤ lo') (hhi : hi' ≤ hi) : Same lo' hi' m m' :=
  fun a ha hb => h a (hlo.trans ha) (hb.trans_le hhi)

/-- A word whose bytes lie in the range is the same. -/
theorem load {a : UInt16} (h : Same lo hi m m') (hlo : lo ≤ a.toNat) (hhi : a.toNat + 1 < hi)
    (hfit : a.toNat + 1 < 0x10000) : m'.load a = m.load a := by
  have hs := toNat_add_one hfit
  rw [Memory.load, Memory.load, h a hlo (by omega), h (a + 1) (by omega) (by omega)]

/-- A word stored outside the range leaves it alone. -/
theorem store {a : UInt16} (m : Memory) (w : UInt16) (hfit : a.toNat + 1 < 0x10000)
    (h : hi ≤ a.toNat ∨ a.toNat + 1 < lo) : Same lo hi m (m.store a w) := by
  intro b hlo hhi
  have hs := toNat_add_one hfit
  have h1 : a + 1 ≠ b := by
    rintro rfl
    omega
  have h2 : a ≠ b := by
    rintro rfl
    omega
  rw [byte_store, if_neg h1, if_neg h2]

end Same

theorem getElem?_bytes (m : Memory) {k : Nat} (h : k < 0x10000) : m.bytes[k]? = some (m.byte k.toUInt16) := by
  have hk : (k.toUInt16.toFin : Nat) = k := toNat_toUInt16 h
  rw [Vector.getElem?_eq_getElem h]
  simp only [byte, Fin.getElem_fin, hk]

/-- The bytes read at an address begin with those that stand there. -/
theorem window_eq (m : Memory) (addr : UInt16) (image : List UInt8) (hlen : image.length ≤ 4)
    (hfit : addr.toNat + image.length ≤ 0x10000)
    (h : ∀ k (hk : k < image.length), m.byte (addr.toNat + k).toUInt16 = image[k]) :
    ∃ rest, m.window addr = image ++ rest := by
  have hfront : (List.range image.length).filterMap (fun k => m.bytes[addr.toNat + k]?) = image := by
    have hmap : ∀ k ∈ List.range image.length, m.bytes[addr.toNat + k]? = some (image.getD k 0) := by
      intro k hk
      have hk := List.mem_range.mp hk
      rw [getElem?_bytes m (by omega), h k hk, List.getD_eq_getElem image 0 hk]
    rw [List.filterMap_congr hmap, List.filterMap_eq_map']
    apply List.ext_getElem
    · simp
    · intro k h1 h2
      simp [h2]
  obtain ⟨more, hmore⟩ := Nat.exists_eq_add_of_le hlen
  refine ⟨((List.range more).map (image.length + ·)).filterMap fun k => m.bytes[addr.toNat + k]?, ?_⟩
  rw [window, hmore, List.range_add, List.filterMap_append, hfront]

theorem byte_ofImage {image : List UInt8} (fits : image.length ≤ 0x10000) {k : Nat} (hk : k < 0x10000) :
    (ofImage image fits).byte k.toUInt16 = image.getD k 0 := by
  have hv : (k.toUInt16.toFin : Nat) = k := toNat_toUInt16 hk
  simp only [ofImage, byte, Fin.getElem_fin, hv, Vector.getElem_mk, List.getElem_toArray]
  by_cases h : k < image.length
  · rw [List.getElem_append_left h, List.getD_eq_getElem image 0 h]
  · rw [List.getElem_append_right (by omega), List.getElem_replicate, List.getD_eq_default image 0 (by omega)]

end Memory

namespace Machine

variable {m m' : Machine} {i : Instruction} {e : Effect}

@[simp] theorem pc_apply (m : Machine) (e : Effect) : (m.apply e).pc = e.next := rfl

private theorem foldl_setReg (sets : List (Register × UInt16)) (m : Machine) :
    (sets.foldl (fun m (r, v) => m.setReg r v) m).mem = m.mem ∧
      (sets.foldl (fun m (r, v) => m.setReg r v) m).halted = m.halted ∧
      ∀ s, (sets.foldl (fun m (r, v) => m.setReg r v) m).reg s =
        sets.foldl (fun old (r, v) => if r = s then v else old) (m.reg s) := by
  induction sets generalizing m with
  | nil => simp
  | cons set sets ih =>
    obtain ⟨r, v⟩ := set
    obtain ⟨hm, hh, hr⟩ := ih (m.setReg r v)
    refine ⟨hm, hh, fun s => ?_⟩
    rw [List.foldl_cons, hr, reg_setReg, List.foldl_cons]

@[simp] theorem mem_apply (m : Machine) (e : Effect) :
    (m.apply e).mem = e.store.elim m.mem fun (a, v) => m.mem.store a v := by
  simp only [apply, (foldl_setReg e.sets _).1]
  cases e.store <;> rfl

/-- Of the values that an effect gives a register the last one counts. -/
@[simp] theorem reg_apply (m : Machine) (e : Effect) (s : Register) :
    (m.apply e).reg s = e.sets.foldl (fun old (r, v) => if r = s then v else old) (m.reg s) := by
  refine ((foldl_setReg e.sets _).2.2 s).trans ?_
  cases e.store <;> rfl

theorem halted_apply (m : Machine) (e : Effect) : (m.apply e).halted = (m.halted || e.halts) := by
  simp only [apply, (foldl_setReg e.sets _).2.1]
  cases e.store <;> rfl

theorem exec_of_effect (hf : m.fetch = .ok i) (he : m.effect i = .ok e) : m.exec = (.ok i, m.apply e) := by
  simp only [exec, hf, he]

theorem exec_of_fault {fault : Fault} (hf : m.fetch = .ok i) (he : m.effect i = .error fault) :
    m.exec = (.error fault, m) := by
  simp only [exec, hf, he]

private theorem exec_eq_ok : m.exec = (.ok i, m') ↔ ∃ e, m.fetch = .ok i ∧ m.effect i = .ok e ∧ m' = m.apply e := by
  constructor
  · intro h
    unfold exec at h
    split at h
    · cases h
    · rename_i j hf
      split at h
      · cases h
      · rename_i e he
        cases h
        exact ⟨e, hf, he, rfl⟩
  · rintro ⟨e, hf, he, rfl⟩
    exact exec_of_effect hf he

/-- Only the instruction for it stops the machine. -/
theorem halted_exec (h : m.exec = (.ok i, m')) (hop : i.op ≠ .halt) : m'.halted = m.halted := by
  obtain ⟨e, -, he, rfl⟩ := exec_eq_ok.mp h
  have halts : e.halts = false := by
    unfold effect at he
    split at he
    case h_1 heq => exact absurd heq hop
    case h_2 =>
      split at he
      · cases he
        rfl
      · cases he
    all_goals cases he <;> rfl
  rw [halted_apply, halts, Bool.or_false]

/-- The machine after a number of steps, if none of them faults. -/
def after : Nat → Machine → Option Machine
  | 0, m => some m
  | n + 1, m =>
    match m.exec with
    | (.ok _, m') => after n m'
    | (.error _, _) => none

theorem after_succ (h : m.exec = (.ok i, m')) (n : Nat) : m.after (n + 1) = m'.after n := by
  simp only [after, h]

theorem after_succ_eq_some {n : Nat} (h : m.after (n + 1) = some m') :
    ∃ i next, m.exec = (.ok i, next) ∧ next.after n = some m' := by
  simp only [after] at h
  split at h
  · rename_i i next hx
    exact ⟨i, next, hx, h⟩
  · cases h

theorem after_add {n : Nat} (h : m.after n = some m') (k : Nat) : m.after (n + k) = m'.after k := by
  induction n generalizing m with
  | zero =>
    cases h
    rw [Nat.zero_add]
  | succ n ih =>
    obtain ⟨i, next, hx, h⟩ := after_succ_eq_some h
    rw [Nat.add_right_comm, after_succ hx, ih h]

theorem exec_halt (h : m.fetch = .ok .halt) : m.exec = (.ok .halt, { m with halted := true }) := by
  have he : m.effect .halt = .ok { next := m.pc, halts := true } := rfl
  rw [exec_of_effect h he]
  simp [apply]

/-- A machine that has come to its end stays there. -/
theorem after_halt {n : Nat} (h : m.fetch = .ok .halt) (hrun : m.after n = some m') :
    m' = m ∨ m' = { m with halted := true } := by
  induction n generalizing m with
  | zero => exact .inl (Option.some.inj hrun).symm
  | succ n ih =>
    have hstays : ({ m with halted := true } : Machine).fetch = .ok .halt := h
    rw [after_succ (exec_halt h)] at hrun
    rcases ih hstays hrun with rfl | rfl
    · exact .inr rfl
    · exact .inr rfl

theorem run_succ (h : m.exec = (.ok i, m')) (running : m.halted = false) (n : Nat) : m.run (n + 1) = m'.run n := by
  simp [run, running, h]

end Machine

namespace Instruction

private theorem slot_eq_reg {arg : Operand} : arg.slot = .reg ↔ ∃ r, arg = .reg r := by
  cases arg <;> simp [Operand.slot]

private theorem slot_eq_imm8 {arg : Operand} : arg.slot = .imm8 ↔ ∃ v, arg = .imm8 v := by
  cases arg <;> simp [Operand.slot]

private theorem slot_eq_imm16 {arg : Operand} :
    arg.slot = .imm16 ↔ (∃ v, arg = .imm16 v) ∨ ∃ label, arg = .ref label := by
  cases arg <;> simp [Operand.slot]

private theorem slot_eq_pad {arg : Operand} : arg.slot = .pad ↔ arg = .pad := by
  cases arg <;> simp [Operand.slot]

/-- An instruction whose operands fit, and whose labels are resolved, can be executed unless it is a data
record. Only a division may fault. -/
theorem WellFormed.effect {i : Instruction} (wf : i.WellFormed) (hrefs : i.refs = []) (hop : i.op ≠ .word)
    (m : Machine) : (∃ e, m.effect i = .ok e) ∨ m.effect i = .error (.divisionByZero m.pc) := by
  obtain ⟨op, args⟩ := i
  simp only [WellFormed] at wf
  simp only [refs] at hrefs
  cases op <;> simp only [Opcode.layout, List.map_eq_cons_iff, List.map_eq_nil_iff, slot_eq_reg, slot_eq_imm8,
    slot_eq_imm16, slot_eq_pad] at wf
  case halt => exact .inl ⟨_, rfl⟩
  case word => exact absurd rfl hop
  case alu op =>
    obtain ⟨_, _, rfl, ⟨a, rfl⟩, _, _, rfl, ⟨b, rfl⟩, _, _, rfl, ⟨save, rfl⟩, rfl⟩ := wf
    cases hv : op.eval (m.reg a) (m.reg b) with
    | none => exact .inr (by simp [Machine.effect, hv])
    | some v => exact .inl (by simp [Machine.effect, hv])
  case mov =>
    obtain ⟨_, _, rfl, ⟨src, rfl⟩, _, _, rfl, rfl, _, _, rfl, ⟨save, rfl⟩, rfl⟩ := wf
    exact .inl ⟨_, rfl⟩
  case memr | memw =>
    obtain ⟨_, _, rfl, ⟨addr, rfl⟩, _, _, rfl, ⟨_, rfl⟩, _, _, rfl, ⟨_, rfl⟩, rfl⟩ := wf
    exact .inl ⟨_, rfl⟩
  case push =>
    obtain ⟨_, _, rfl, rfl, _, _, rfl, ⟨src, rfl⟩, _, _, rfl, rfl, rfl⟩ := wf
    exact .inl ⟨_, rfl⟩
  case pop =>
    obtain ⟨_, _, rfl, rfl, _, _, rfl, rfl, _, _, rfl, ⟨save, rfl⟩, rfl⟩ := wf
    exact .inl ⟨_, rfl⟩
  case jmpr =>
    obtain ⟨_, _, rfl, ⟨target, rfl⟩, _, _, rfl, rfl, _, _, rfl, rfl, rfl⟩ := wf
    exact .inl ⟨_, rfl⟩
  case imm | jmpif =>
    obtain ⟨_, _, rfl, ⟨_, rfl⟩, _, _, rfl, ⟨_, rfl⟩ | ⟨_, rfl⟩, rfl⟩ := wf
    · exact .inl ⟨_, rfl⟩
    · simp at hrefs
  case jmp =>
    obtain ⟨_, _, rfl, ⟨_, rfl⟩ | ⟨_, rfl⟩, _, _, rfl, rfl, rfl⟩ := wf
    · exact .inl ⟨_, rfl⟩
    · simp at hrefs

end Instruction

end StackToolchain
