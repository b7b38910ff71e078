import StackToolchain.Proofs.Assembly.Exactness

/-! Why a step fails.
A step fails because the bytes at the program counter are no instruction, because they are a data record, or because
they divide by zero. The causes are told from the registers and the bytes of memory alone. Whatever is decoded fits its
opcode, so that there are no other causes. -/
namespace StackToolchain

namespace Memory

private theorem toUInt16_add (addr : UInt16) (k : Nat) : (addr.toNat + k).toUInt16 = addr + k.toUInt16 := by
  apply UInt16.toNat_inj.mp
  simp

/-- The bytes read at an address: as many as there are, and four at most. -/
theorem window_eq_map (m : Memory) (addr : UInt16) :
    m.window addr = (List.range (min 4 (0x10000 - addr.toNat))).map fun k => m.byte (addr + k.toUInt16) := by
  obtain ⟨there, hthere⟩ : ∃ there, there = min 4 (0x10000 - addr.toNat) := ⟨_, rfl⟩
  obtain ⟨missing, hmissing⟩ := Nat.exists_eq_add_of_le (show there ≤ 4 by omega)
  have hfront : ∀ k ∈ List.range there, m.bytes[addr.toNat + k]? = some (m.byte (addr + k.toUInt16)) := by
    intro k hk
    have hk := List.mem_range.mp hk
    rw [getElem?_bytes m (by omega), toUInt16_add]
  have hback : ∀ k ∈ (List.range missing).map (there + ·), m.bytes[addr.toNat + k]? = none := by
    intro k hk
    obtain ⟨j, hj, rfl⟩ := List.mem_map.mp hk
    have hj := List.mem_range.mp hj
    exact Vector.getElem?_eq_none (by omega)
  rw [← hthere, window, hmissing, List.range_add, List.filterMap_append, List.filterMap_congr hfront,
    List.filterMap_congr hback, List.filterMap_eq_map']
  simp

@[simp] theorem length_window (m : Memory) (addr : UInt16) :
    (m.window addr).length = min 4 (0x10000 - addr.toNat) := by
  simp [window_eq_map]

private theorem getElem?_window (m : Memory) (addr : UInt16) {k : Nat} (hk : k < (m.window addr).length) :
    (m.window addr)[k]? = some (m.byte (addr + k.toUInt16)) := by
  rw [length_window] at hk
  rw [window_eq_map, List.getElem?_map, List.getElem?_range hk]
  rfl

end Memory

private theorem Opcode.ofCode?_eq_some {b : UInt8} {op : Opcode} : ofCode? b = some op ↔ b = op.code := by
  constructor
  · intro h
    exact (code_of_ofCode? h).symm
  · rintro rfl
    exact ofCode?_code op

private theorem Opcode.code_inj {op op' : Opcode} : op.code = op'.code ↔ op = op' := by
  constructor
  · intro h
    have h' := ofCode?_code op
    rw [h, ofCode?_code] at h'
    exact (Option.some.inj h').symm
  · rintro rfl
    rfl

private theorem Register.code_inj {r r' : Register} : r.code = r'.code ↔ r = r' := by
  constructor
  · intro h
    have h' := ofCode?_code r
    rw [h, ofCode?_code] at h'
    exact (Option.some.inj h').symm
  · rintro rfl
    rfl

private theorem Register.ofCode?_eq_none {b : UInt8} : ofCode? b = none ↔ 7 < b := by
  rw [ofCode?, List.getElem?_eq_none_iff, UInt8.lt_iff_toNat_lt]
  exact Nat.succ_le_iff

private theorem exists_bind_pure_iff {ε α β : Type} {x : Except ε α} {f : α → β} :
    (∃ b, (x >>= fun a => pure (f a)) = .ok b) ↔ ∃ a, x = .ok a := by
  simp only [bind_pure_eq_ok]
  grind

/-- Operands are read off enough bytes unless a register field holds a byte that is no register. -/
theorem Operand.exists_decodeAll_iff {addr : Nat} {op : Opcode} {slots : List Slot} {bytes : List UInt8}
    (hlen : bytes.length = (slots.map Slot.size).sum) :
    (∃ args, decodeAll addr op slots bytes = .ok args) ↔
      ∀ before slot after, slots = before ++ slot :: after →
        slot = .reg → ∀ b, bytes[(before.map Slot.size).sum]? = some b → b ≤ 7 := by
  induction slots generalizing bytes with
  | nil => simp [decodeAll]
  | cons slot slots ih =>
    rw [List.map_cons, List.sum_cons] at hlen
    -- the bytes of the first field, and those of the others
    obtain ⟨front, rest, rfl, hfront⟩ : ∃ front rest, bytes = front ++ rest ∧ front.length = slot.size :=
      ⟨bytes.take slot.size, bytes.drop slot.size, (List.take_append_drop _ _).symm, by
        rw [List.length_take]
        omega⟩
    have hrest : rest.length = (slots.map Slot.size).sum := by
      rw [List.length_append] at hlen
      omega
    have hshift (before : List Slot) : (front ++ rest)[((slot :: before).map Slot.size).sum]? =
        rest[(before.map Slot.size).sum]? := by
      rw [List.map_cons, List.sum_cons, List.getElem?_append_right (by omega)]
      congr 1
      omega
    rw [forall_cut_cons]
    simp only [hshift, ← ih hrest]
    cases slot with
    | reg =>
      obtain ⟨b, rfl⟩ := List.length_eq_one_iff.mp hfront
      simp only [List.cons_append, List.nil_append, decodeAll, List.map_nil, List.sum_nil, List.getElem?_cons_zero,
        Option.some.injEq, forall_eq', forall_const]
      cases hr : Register.ofCode? b with
      | none =>
        have hb := Register.ofCode?_eq_none.mp hr
        simp [UInt8.not_le.mpr hb]
      | some r =>
        have hb : b ≤ 7 := by
          rw [← UInt8.not_lt, ← Register.ofCode?_eq_none, hr]
          exact Option.some_ne_none r
        simp only [exists_bind_pure_iff, hb, true_and]
    | imm8 | pad =>
      obtain ⟨b, rfl⟩ := List.length_eq_one_iff.mp hfront
      simp only [List.cons_append, List.nil_append, decodeAll, exists_bind_pure_iff, reduceCtorEq, false_implies,
        true_and]
    | imm16 =>
      obtain ⟨lo, hi, rfl⟩ := List.length_eq_two.mp hfront
      simp only [List.cons_append, List.nil_append, decodeAll, exists_bind_pure_iff, reduceCtorEq, false_implies,
        true_and]

private theorem Instruction.exists_decode_iff {addr : Nat} {code : UInt8} {rest : List UInt8} :
    (∃ i, decode addr (code :: rest) = .ok i) ↔ ∃ op : Opcode, code = op.code ∧ op.size ≤ rest.length + 1 ∧
      ∃ args, Operand.decodeAll addr op op.layout (rest.take (op.size - 1)) = .ok args := by
  rw [decode]
  cases hop : Opcode.ofCode? code with
  | none =>
    have hno (op : Opcode) : code ≠ op.code := by
      intro h
      rw [Opcode.ofCode?_eq_some.mpr h] at hop
      cases hop
    simp [hno]
  | some op =>
    obtain rfl := Opcode.ofCode?_eq_some.mp hop
    simp only [Opcode.code_inj, exists_eq_left', List.length_take]
    split
    · rename_i hshort
      constructor
      · rintro ⟨_, ⟨⟩⟩
      · rintro ⟨hsize, -⟩
        omega
    · rename_i hlong
      have hsize : op.size ≤ rest.length + 1 := by omega
      simp only [exists_bind_pure_iff, hsize, true_and]

namespace Machine

variable {m : Machine} {i : Instruction}

/-- The byte of a field behind an opcode at the program counter. The fields before it are given. -/
def fieldByte (m : Machine) (before : List Slot) : UInt8 :=
  m.mem.byte (m.pc + (1 + (before.map Slot.size).sum).toUInt16)

inductive Undecodable (m : Machine) : Prop
  | noOpcode : (∀ op : Opcode, m.mem.byte m.pc ≠ op.code) → Undecodable m
  | pastEnd {op : Opcode} : m.mem.byte m.pc = op.code → 0xFFFF < m.pc.toNat + (op.size - 1) → Undecodable m
  | noRegister {op : Opcode} {before after : List Slot} : m.mem.byte m.pc = op.code →
      op.layout = before ++ .reg :: after → 7 < m.fieldByte before → Undecodable m

def AtData (m : Machine) : Prop :=
  m.mem.byte m.pc = Opcode.word.code

/-- The opcode at the program counter is that of a division or a remainder, and the second register that is named there
holds zero. -/
def DividesByZero (m : Machine) : Prop :=
  ∃ op : AluOp, (op = .div ∨ op = .mod) ∧ m.mem.byte m.pc = (Opcode.alu op).code ∧
    ∃ r : Register, m.fieldByte [.reg] = r.code ∧ m.reg r = 0

private theorem window_eq_cons (m : Machine) : m.mem.window m.pc = m.mem.byte m.pc :: (m.mem.window m.pc).tail := by
  have hlt := m.pc.toNat_lt
  have hfirst := m.mem.getElem?_window m.pc (k := 0) (by rw [Memory.length_window]; omega)
  rw [← List.head?_eq_getElem?] at hfirst
  refine List.eq_cons_of_mem_head? ?_
  simpa using hfirst

/-- The byte of a field is among those that follow the opcode. -/
theorem getElem?_field {op : Opcode} {before after : List Slot} {slot : Slot}
    (hlayout : op.layout = before ++ slot :: after) (hsize : op.size ≤ (m.mem.window m.pc).length) :
    ((m.mem.window m.pc).tail.take (op.size - 1))[(before.map Slot.size).sum]? = some (m.fieldByte before) := by
  have hpos : 0 < slot.size := by cases slot <;> simp [Slot.size]
  have hsum := op.size_eq_layout
  rw [hlayout, List.map_append, List.sum_append, List.map_cons, List.sum_cons] at hsum
  rw [List.getElem?_take_of_lt (by omega), List.getElem?_tail, m.mem.getElem?_window m.pc (by omega), fieldByte,
    Nat.add_comm]

private theorem exists_fetch_iff : (∃ i, m.fetch = .ok i) ↔ ¬m.Undecodable := by
  have hlength : (m.mem.window m.pc).tail.length + 1 = (m.mem.window m.pc).length := by
    rw [← List.length_cons, ← window_eq_cons]
  have hlt := m.pc.toNat_lt
  -- an opcode whose bytes are all there leaves only the registers to be judged
  have hregisters (op : Opcode) (hsize : op.size ≤ (m.mem.window m.pc).length) :
      (∃ args, Operand.decodeAll m.pc.toNat op op.layout ((m.mem.window m.pc).tail.take (op.size - 1)) = .ok args) ↔
        ∀ before after, op.layout = before ++ .reg :: after → m.fieldByte before ≤ 7 := by
    have hsum := op.size_eq_layout
    rw [Operand.exists_decodeAll_iff (by rw [List.length_take]; omega)]
    constructor
    · intro h before after hlayout
      exact h before .reg after hlayout rfl _ (getElem?_field hlayout hsize)
    · rintro h before slot after hlayout rfl b hb
      rw [getElem?_field hlayout hsize] at hb
      cases hb
      exact h before after hlayout
  rw [fetch, window_eq_cons, Instruction.exists_decode_iff, hlength]
  constructor
  · rintro ⟨op, hop, hsize, hargs⟩ hno
    cases hno with
    | noOpcode h => exact h op hop
    | @pastEnd op' hop' hpast =>
      obtain rfl := Opcode.code_inj.mp (hop.symm.trans hop')
      rw [Memory.length_window] at hsize
      omega
    | @noRegister op' before after hop' hlayout hbyte =>
      obtain rfl := Opcode.code_inj.mp (hop.symm.trans hop')
      exact UInt8.not_le.mpr hbyte ((hregisters op hsize).mp hargs before after hlayout)
  · intro h
    obtain ⟨op, hop⟩ : ∃ op : Opcode, m.mem.byte m.pc = op.code := by
      by_contra hnone
      exact h (.noOpcode (not_exists.mp hnone))
    have hsize : op.size ≤ (m.mem.window m.pc).length := by
      have hfits : ¬0xFFFF < m.pc.toNat + (op.size - 1) := fun hpast => h (.pastEnd hop hpast)
      have hle := op.size_le
      rw [Memory.length_window]
      omega
    refine ⟨op, hop, hsize, (hregisters op hsize).mpr fun before after hlayout => ?_⟩
    exact UInt8.not_lt.mp fun hbyte => h (.noRegister hop hlayout hbyte)

private theorem wellFormed_of_fetch (h : m.fetch = .ok i) : i.WellFormed ∧ i.refs = [] := by
  obtain ⟨-, -, -, -, wf, hnone, -⟩ := Instruction.decode_eq_ok h
  refine ⟨wf, List.filterMap_eq_nil_iff.mpr fun arg harg => ?_⟩
  cases arg with
  | ref label => exact absurd harg (hnone label)
  | _ => rfl

/-- The bytes that a fetched instruction uses stand in memory at the program counter. -/
theorem byte_of_fetch (h : m.fetch = .ok i) {labels : Labels} {bytes : List UInt8} (himage : i.image labels = .ok bytes)
    {k : Nat} {b : UInt8} (hb : bytes[k]? = some b) (hused : i.unused[k]? ≠ some true) :
    m.mem.byte (m.pc + k.toUInt16) = b := by
  obtain ⟨front, rest, hwindow, hlen, -, -, hcleared⟩ := Instruction.decode_eq_ok h
  cases himage.symm.trans (hcleared labels)
  have hk : k < front.length := by
    have hk := (List.getElem?_eq_some_iff.mp hb).1
    rw [cleared, List.length_zipWith] at hk
    omega
  have hbyte := m.mem.getElem?_window m.pc (k := k) (by rw [hwindow, List.length_append]; omega)
  rw [hwindow, List.getElem?_append_left hk] at hbyte
  rw [getElem?_cleared (i.length_unused.trans hlen.symm) hbyte, if_neg hused] at hb
  exact Option.some.inj hb

private theorem code_of_fetch (h : m.fetch = .ok i) : m.mem.byte m.pc = i.op.code := by
  obtain ⟨_, _, -, -, -, -, himage⟩ := Instruction.decode_eq_ok h
  obtain ⟨body, -, hcode, -⟩ := Instruction.image_eq_ok.mp (himage .empty)
  have hbyte := byte_of_fetch h (himage .empty) (k := 0) (b := i.op.code) (by rw [hcode]; rfl)
    (by simp [Instruction.unused])
  simpa using hbyte

/-- The second register of a fetched operation is the one that the second field names. -/
theorem register_of_fetch {op : AluOp} {a b save : Register} (h : m.fetch = .ok (.alu op a b save)) :
    m.fieldByte [.reg] = b.code := by
  have himage : (Instruction.alu op a b save).image .empty =
      .ok [(Opcode.alu op).code, a.code, b.code, save.code] := rfl
  have hunused : (Instruction.alu op a b save).unused = [false, false, false, false] := rfl
  refine byte_of_fetch h himage (k := 2) rfl ?_
  rw [hunused]
  decide

end Machine

namespace AluOp

private theorem toInt16_eq_zero {w : UInt16} : w.toInt16 = 0 ↔ w = 0 := by
  constructor
  · intro h
    rw [← UInt16.toUInt16_toInt16 w, h]
    rfl
  · rintro rfl
    rfl

/-- Where a division overflows, what is given for a divisor of minus one stands in for its result. -/
theorem checked_orElse {v w result fallback : Int16} (h : v = .minValue → w = -1 → fallback = result) :
    (checked v w result <|> if w = -1 then some fallback else none) = if w = 0 then none else some result := by
  by_cases hzero : w = 0
  · subst hzero
    rfl
  · by_cases hover : v = .minValue ∧ w = -1
    · simp [checked, hover.1, hover.2, h hover.1 hover.2]
    · simp [checked, hzero, hover]

/-- The division that overflows gives what the quotient of signed words wraps to. -/
theorem eval_div (a b : UInt16) :
    AluOp.div.eval a b = if b = 0 then none else some (a.toInt16 / b.toInt16).toUInt16 := by
  have hover : a.toInt16 = .minValue → b.toInt16 = -1 → -a.toInt16 = a.toInt16 / b.toInt16 := by
    intro ha hb
    rw [ha, hb]
    rfl
  simp only [eval]
  rw [checked_orElse hover, apply_ite (Option.map _)]
  simp [toInt16_eq_zero]

theorem eval_mod (a b : UInt16) :
    AluOp.mod.eval a b = if b = 0 then none else some (a.toInt16 % b.toInt16).toUInt16 := by
  have hover : a.toInt16 = .minValue → b.toInt16 = -1 → 0 = a.toInt16 % b.toInt16 := by
    intro ha hb
    rw [ha, hb]
    rfl
  simp only [eval]
  rw [checked_orElse hover, apply_ite (Option.map _)]
  simp [toInt16_eq_zero]

theorem eval_eq_none {op : AluOp} {a b : UInt16} : op.eval a b = none ↔ (op = .div ∨ op = .mod) ∧ b = 0 := by
  cases op with
  | div => simp [eval_div]
  | mod => simp [eval_mod]
  | _ => simp [eval]

end AluOp

private theorem Instruction.WellFormed.eq_alu {i : Instruction} {op : AluOp} (wf : i.WellFormed)
    (hop : i.op = .alu op) : ∃ a b save, i = .alu op a b save := by
  obtain ⟨_, args⟩ := i
  obtain rfl := hop
  obtain ⟨x, y, z, rfl⟩ : ∃ x y z, args = [x, y, z] := by
    have hlen := congrArg List.length wf
    rw [List.length_map] at hlen
    exact List.length_eq_three.mp hlen
  simp only [WellFormed, Opcode.layout, List.map_cons, List.map_nil, List.cons.injEq, and_true] at wf
  obtain ⟨hx, hy, hz⟩ := wf
  cases x <;> cases hx
  cases y <;> cases hy
  cases z <;> cases hz
  exact ⟨_, _, _, rfl⟩

namespace Machine

variable {m : Machine} {i : Instruction}

private theorem op_of_divisionByZero {pc : UInt16} (h : m.effect i = .error (.divisionByZero pc)) :
    ∃ op, i.op = .alu op := by
  unfold effect at h
  split at h
  case h_2 op _ _ _ hop _ => exact ⟨op, hop⟩
  all_goals cases h

/-- A fetched instruction fails to have an effect exactly if it is a data record or divides by zero. -/
theorem effect_eq_error {fault : Fault} (h : m.fetch = .ok i) :
    m.effect i = .error fault ↔
      m.AtData ∧ fault = .executedData m.pc ∨ m.DividesByZero ∧ fault = .divisionByZero m.pc := by
  obtain ⟨wf, hrefs⟩ := wellFormed_of_fetch h
  have hcode := code_of_fetch h
  constructor
  · intro herror
    by_cases hword : i.op = .word
    · refine .inl ⟨by rw [AtData, hcode, hword], ?_⟩
      obtain ⟨op, args⟩ := i
      obtain rfl := hword
      simpa [effect, eq_comm] using herror
    · rcases wf.effect hrefs hword m with ⟨e, hok⟩ | hzero
      · rw [hok] at herror
        cases herror
      · obtain ⟨op, hop⟩ := op_of_divisionByZero hzero
        obtain ⟨a, b, save, rfl⟩ := wf.eq_alu hop
        have hnone : op.eval (m.reg a) (m.reg b) = none := by
          cases hv : op.eval (m.reg a) (m.reg b) with
          | none => rfl
          | some v => simp [effect, Instruction.alu, hv] at hzero
        obtain ⟨hdiv, hb⟩ := AluOp.eval_eq_none.mp hnone
        rw [hzero] at herror
        cases herror
        exact .inr ⟨⟨op, hdiv, hcode, b, register_of_fetch h, hb⟩, rfl⟩
  · rintro (⟨hdata, rfl⟩ | ⟨⟨op, hdiv, hop, r, hr, hzero⟩, rfl⟩)
    · have hword : i.op = .word := Opcode.code_inj.mp (hcode.symm.trans hdata)
      obtain ⟨op, args⟩ := i
      obtain rfl := hword
      rfl
    · obtain ⟨a, b, save, rfl⟩ := wf.eq_alu (Opcode.code_inj.mp (hcode.symm.trans hop))
      obtain rfl := Register.code_inj.mp ((register_of_fetch h).symm.trans hr)
      have hnone : op.eval (m.reg a) (m.reg b) = none := AluOp.eval_eq_none.mpr ⟨hdiv, hzero⟩
      simp [effect, Instruction.alu, hnone]

private theorem exec_eq_error {fault : Fault} :
    m.exec.1 = .error fault ↔ (∃ e, m.fetch = .error e ∧ fault = .decode e) ∨
      ¬m.Undecodable ∧ (m.AtData ∧ fault = .executedData m.pc ∨ m.DividesByZero ∧ fault = .divisionByZero m.pc) := by
  rw [← exists_fetch_iff, exec]
  cases hfetch : m.fetch with
  | error e => simp [eq_comm]
  | ok i =>
    simp only [reduceCtorEq, false_and, exists_false, false_or, Except.ok.injEq, exists_eq', true_and,
      ← effect_eq_error hfetch]
    cases m.effect i <;> simp

theorem exec_snd_of_error {fault : Fault} (h : m.exec.1 = .error fault) : m.exec.2 = m := by
  unfold exec at h ⊢
  split
  · rfl
  · rename_i i hfetch
    simp only [hfetch] at h
    split
    · rfl
    · rename_i e heffect
      simp [heffect] at h

end Machine

/-- A step that fails changes nothing. It fails exactly if the bytes at the program counter are no instruction, if they
are a data record, or if they divide by zero, and the fault says which; that the operands do not fit is never one. -/
theorem step_fails_only_for_cause (m : Machine) :
    (∀ fault, m.exec.1 = .error fault → m.exec.2 = m) ∧
      (∀ pc, m.exec.1 ≠ .error (.malformed pc)) ∧
      ((∃ fault, m.exec.1 = .error fault) ↔ m.Undecodable ∨ m.AtData ∨ m.DividesByZero) ∧
      ((∃ e, m.exec.1 = .error (.decode e)) ↔ m.Undecodable) ∧
      (∀ pc, m.exec.1 = .error (.executedData pc) ↔ ¬m.Undecodable ∧ m.AtData ∧ pc = m.pc) ∧
      ∀ pc, m.exec.1 = .error (.divisionByZero pc) ↔ ¬m.Undecodable ∧ m.DividesByZero ∧ pc = m.pc := by
  have hundecodable : (∃ e, m.fetch = .error e) ↔ m.Undecodable := by
    rw [← not_not (a := m.Undecodable), ← Machine.exists_fetch_iff]
    cases m.fetch <;> simp
  refine ⟨fun fault => Machine.exec_snd_of_error, fun pc => ?_, ?_, ?_, fun pc => ?_, fun pc => ?_⟩
  · rw [ne_eq, Machine.exec_eq_error]
    simp
  · simp only [Machine.exec_eq_error]
    rw [← hundecodable]
    grind
  · simp only [Machine.exec_eq_error, ← hundecodable]
    simp
  · rw [Machine.exec_eq_error]
    simp
  · rw [Machine.exec_eq_error]
    simp

end StackToolchain
