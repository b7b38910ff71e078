import StackToolchain.Proofs.Machine.Leads

/-! A rule for every instruction of compiled code.
Each says what a run comes to from the state before an instruction, if it comes to it from the state after. The
state after is known by what it has in its registers and its memory. -/
namespace StackToolchain

def Instruction.Plain (i : Instruction) : Prop :=
  i.op ≠ .word ∧ i.op ≠ .halt ∧ i.isCall = false ∧ i.isReturn = false

structure Machine.Sets (m : Machine) (r : Register) (v : UInt16) (m' : Machine) : Prop where
  mem : m'.mem = m.mem
  reg : m'.reg r = v
  others : ∀ s, s ≠ r → m'.reg s = m.reg s

theorem Machine.sets_apply (m : Machine) (next : UInt16) (r : Register) (v : UInt16) :
    m.Sets r v (m.apply { next, sets := [(r, v)] }) where
  mem := by simp
  reg := by simp
  others s hs := by simp [hs.symm]

/-- The address of the word on top of the stack. -/
theorem Machine.toNat_rsp_sub_two {m : Machine} (h : 2 ≤ m.sp) : (m.reg .rsp - 2).toNat + 2 = m.sp := by
  have hle : (2 : UInt16) ≤ m.reg .rsp := UInt16.le_iff_toNat_le.mpr h
  rw [UInt16.toNat_sub_of_le _ _ hle]
  exact Nat.sub_add_cancel h

theorem Machine.rsp_sub_two {m m' : Machine} (h : m'.sp = m.sp + 2) : m'.reg .rsp - 2 = m.reg .rsp := by
  apply UInt16.toNat_inj.mp
  have := m'.toNat_rsp_sub_two (by omega)
  rw [h] at this
  exact Nat.add_right_cancel this

namespace Linked

/-- The machine is in order and stands at lines of the code, which lie in a part of it. -/
structure At (L : Linked) (lo hi a : Nat) (lines : Program) (m : Machine) : Prop where
  pc : m.pc.toNat = a
  placed : L.code.Placed a lines
  ready : L.Ready m
  lo_le : lo ≤ a
  le_hi : a + Program.size lines ≤ hi

def Free (L : Linked) (addr : UInt16) : Prop :=
  addr.toNat + 1 < 0x10000 ∧ (L.bytes.length ≤ addr.toNat ∨ L.Cell addr.toNat ∧ L.Cell (addr.toNat + 1))

variable {L : Linked} {lo hi a : Nat} {m m' : Machine} {rest : Program} {i : Instruction}

theorem At.label {name : String} (h : L.At lo hi a (.label name :: rest) m) : L.At lo hi a rest m where
  pc := h.pc
  placed := h.placed.tail
  ready := h.ready
  lo_le := h.lo_le
  le_hi := by simpa [Line.size] using h.le_hi

/-- The machine at the same place after a change that leaves it in order. -/
theorem At.moved {part : Program} (h : L.At lo hi a (part ++ rest) m) (hpc : m'.pc.toNat = a + Program.size part)
    (hr : L.Ready m') : L.At lo hi (a + Program.size part) rest m' where
  pc := hpc
  placed := h.placed.right
  ready := hr
  lo_le := by have := h.lo_le; omega
  le_hi := by have := h.le_hi; rw [Program.size_append] at this; omega

theorem Ready.of_mem_eq (hr : L.Ready m) (hmem : m'.mem = m.mem) (hsp : m'.reg .rsp = m.reg .rsp) : L.Ready m' where
  intact k hk hc := by rw [hmem, hr.intact k hk hc]
  above := by rw [Machine.sp, hsp]; exact hr.above
  even := by rw [Machine.sp, hsp]; exact hr.even

private theorem Intact.store (hm : L.Intact m) {addr : UInt16} (v : UInt16) (hfree : L.Free addr)
    (hmem : m'.mem = m.mem.store addr v) : L.Intact m' := by
  intro k hk hc
  have hsmall := L.small
  obtain ⟨hfit, hfree⟩ := hfree
  have hk' : k.toUInt16.toNat = k := toNat_toUInt16 (by omega)
  have hne : k ≠ addr.toNat ∧ k ≠ addr.toNat + 1 := by
    rcases hfree with h | ⟨h, h'⟩
    · omega
    · exact ⟨fun he => hc (he ▸ h), fun he => hc (he ▸ h')⟩
  have hsame : Memory.Same k (k + 1) m.mem (m.mem.store addr v) := .store m.mem v hfit (by omega)
  rw [hmem, hsame _ (by omega) (by omega), hm k hk hc]

end Linked

open Linked Machine

namespace Leads

variable {L : Linked} {lo hi a : Nat} {Q : Machine → Prop} {b : Budget} {m : Machine} {rest : Program}
  {i : Instruction}

/-- A plain instruction goes on from its effect. The step counts against the budget. -/
theorem inst {e : Effect} (h : L.At lo hi a (.inst i :: rest) m) (plain : i.Plain)
    (he : m.effect (i.resolve L.labels.get?) = .ok e)
    (next : b ≠ some 0 → Leads L lo hi Q b.spend 0 (m.apply e)) : Leads L lo hi Q b 0 m := by
  have hi' : L.code.instAt m.pc.toNat = some i := h.pc ▸ h.placed.instAt_eq
  have hsize := i.size_pos
  have hlo := h.lo_le
  have hhi := h.le_hi
  simp only [Program.size_cons, Line.size] at hhi
  have poised : L.Poised lo hi 0 m :=
    ⟨h.ready, ⟨i, hi', plain.1, plain.2.1⟩, .inr (h.pc ▸ ⟨hlo, by omega⟩)⟩
  have hx := Machine.exec_of_effect (h.ready.intact.fetch hi' plain.1) he
  by_cases hb : b = some 0
  · subst hb
    exact .cut poised
  · refine .step poised hx ?_ (next hb)
    simp [Program.calling, Program.returning, hi', plain.2.2.1, plain.2.2.2]

/-- An instruction that goes on to the next line. -/
theorem advance {e : Effect} (h : L.At lo hi a (.inst i :: rest) m) (plain : i.Plain) (hsize : i.size = 4)
    (he : m.effect (i.resolve L.labels.get?) = .ok e) (hnext : e.next = m.pc + (4 : Nat).toUInt16)
    (hready : (m.apply e).sp < 0x8000 ∨ L.Ready (m.apply e))
    (next : L.At lo hi (a + 4) rest (m.apply e) → Leads L lo hi Q b 0 (m.apply e)) : Leads L lo hi Q b 0 m := by
  refine inst h plain he fun _ => ?_
  rcases hready with hw | hr
  · exact .wrapped hw
  · have hle := Linked.add_size_le h.placed.instAt_eq
    have hsmall := L.small
    have hpc : (m.pc + (4 : Nat).toUInt16).toNat = a + 4 := by
      rw [UInt16.toNat_add, h.pc]
      exact Nat.mod_eq_of_lt (by simp; omega)
    have hline : Program.size [.inst i] = 4 := hsize
    have hat : L.At lo hi (a + Program.size [.inst i]) rest (m.apply e) :=
      At.moved h (by rw [hline, pc_apply, hnext, hpc]) hr
    rw [hline] at hat
    exact (next hat).spend

/-- An instruction that sets a register other than the stack pointer. -/
theorem sets {r : Register} {v : UInt16} (h : L.At lo hi a (.inst i :: rest) m) (plain : i.Plain)
    (hsize : i.size = 4)
    (he : m.effect (i.resolve L.labels.get?) = .ok { next := m.pc + (4 : Nat).toUInt16, sets := [(r, v)] })
    (hsp : r ≠ .rsp) (next : ∀ m', m.Sets r v m' → L.At lo hi (a + 4) rest m' → Leads L lo hi Q b 0 m') :
    Leads L lo hi Q b 0 m := by
  have hs := m.sets_apply (m.pc + (4 : Nat).toUInt16) r v
  exact advance h plain hsize he rfl (.inr (h.ready.of_mem_eq hs.mem (hs.others _ hsp.symm))) (next _ hs)

theorem mov {src save : Register} (h : L.At lo hi a (.inst (.mov src save) :: rest) m) (hsp : save ≠ .rsp)
    (next : ∀ m', m.Sets save (m.reg src) m' → L.At lo hi (a + 4) rest m' → Leads L lo hi Q b 0 m') :
    Leads L lo hi Q b 0 m :=
  sets h ⟨nofun, nofun, rfl, rfl⟩ rfl rfl hsp next

theorem imm {save : Register} {v : UInt16} (h : L.At lo hi a (.inst (.imm save v) :: rest) m) (hsp : save ≠ .rsp)
    (next : ∀ m', m.Sets save v m' → L.At lo hi (a + 4) rest m' → Leads L lo hi Q b 0 m') : Leads L lo hi Q b 0 m :=
  sets h ⟨nofun, nofun, rfl, rfl⟩ rfl rfl hsp next

theorem immLabel {save : Register} {label : String} {t : Nat} {target : Program}
    (h : L.At lo hi a (.inst (.immLabel save label) :: rest) m) (hsp : save ≠ .rsp)
    (ht : L.code.Placed t (.label label :: target))
    (next : ∀ m', m.Sets save t.toUInt16 m' → L.At lo hi (a + 4) rest m' → Leads L lo hi Q b 0 m') :
    Leads L lo hi Q b 0 m := by
  refine sets h ⟨nofun, nofun, rfl, rfl⟩ rfl ?_ hsp next
  simp [Instruction.immLabel, Instruction.resolve, Operand.resolve, (address_of_placed ht).1, effect,
    Instruction.size, Opcode.size]

theorem memr {addr save : Register} {off : Int8} (h : L.At lo hi a (.inst (.memr addr off save) :: rest) m)
    (hsp : save ≠ .rsp)
    (next : ∀ m', m.Sets save (m.mem.load (m.reg addr + signedOffset off)) m' → L.At lo hi (a + 4) rest m' →
      Leads L lo hi Q b 0 m') : Leads L lo hi Q b 0 m :=
  sets h ⟨nofun, nofun, rfl, rfl⟩ rfl rfl hsp next

/-- An operation on two registers. A division by zero ends a run with a budget. -/
theorem alu {op : AluOp} {x y save : Register} (h : L.At lo hi a (.inst (.alu op x y save) :: rest) m)
    (hsp : save ≠ .rsp) (hv : b = none → op.eval (m.reg x) (m.reg y) ≠ none)
    (next : ∀ v m', op.eval (m.reg x) (m.reg y) = some v → m.Sets save v m' → L.At lo hi (a + 4) rest m' →
      Leads L lo hi Q b 0 m') : Leads L lo hi Q b 0 m := by
  cases heval : op.eval (m.reg x) (m.reg y) with
  | some v =>
    refine sets h ⟨nofun, nofun, rfl, rfl⟩ rfl ?_ hsp fun m' => next v m' heval
    simp [Instruction.alu, Instruction.resolve, Operand.resolve, effect, heval, Instruction.size, Opcode.size]
  | none =>
    have hi' : L.code.instAt m.pc.toNat = some (.alu op x y save) := h.pc ▸ h.placed.instAt_eq
    have hlo := h.lo_le
    have hhi := h.le_hi
    have hsize : Instruction.size (.alu op x y save) = 4 := rfl
    simp only [Program.size_cons, Line.size] at hhi
    have hf := h.ready.intact.fetch hi' nofun
    have he : m.effect (Instruction.resolve L.labels.get? (.alu op x y save)) = .error (.divisionByZero m.pc) := by
      simp [Instruction.alu, Instruction.resolve, Operand.resolve, effect, heval]
    cases b with
    | none => exact absurd heval (hv rfl)
    | some n =>
      exact .stop ⟨h.ready, ⟨_, hi', nofun, nofun⟩, .inr (h.pc ▸ ⟨hlo, by omega⟩)⟩
        (.inl (by rw [exec_of_fault hf he]))

/-- A register is put on the stack, unless the stack wraps. What was below the stack pointer stays. -/
theorem push {src : Register} (h : L.At lo hi a (.inst (.push src) :: rest) m)
    (next : ∀ m', m'.mem = m.mem.store (m.reg .rsp) (m.reg src) → m'.sp = m.sp + 2 →
      (∀ s, s ≠ .rsp → m'.reg s = m.reg s) → L.At lo hi (a + 4) rest m' → Leads L lo hi Q b 0 m') :
    Leads L lo hi Q b 0 m := by
  have habove := h.ready.above
  have heven := h.ready.even
  have hlt := (m.reg .rsp).toNat_lt
  have hsmall := L.small
  let e : Effect := ⟨m.pc + (4 : Nat).toUInt16, some (m.reg .rsp, m.reg src), [(.rsp, m.reg .rsp + 2)], false⟩
  have hmem : (m.apply e).mem = m.mem.store (m.reg .rsp) (m.reg src) := by simp [e]
  have hsp : (m.apply e).sp = (m.sp + 2) % 0x10000 := by simp [e, sp, UInt16.toNat_add]
  simp only [sp] at habove heven
  refine advance (e := e) h ⟨nofun, nofun, rfl, rfl⟩ rfl rfl rfl ?_ fun hat => ?_
  · by_cases hw : m.sp + 2 < 0x10000
    · refine .inr ⟨h.ready.intact.store (m.reg src) ⟨?_, .inl ?_⟩ hmem, ?_, ?_⟩
      · simp only [sp] at hw
        omega
      · omega
      · rw [hsp, Nat.mod_eq_of_lt hw]
        simp only [sp]
        omega
      · rw [hsp, Nat.mod_eq_of_lt hw]
        simp only [sp]
        omega
    · left
      rw [hsp]
      simp only [sp] at hw ⊢
      omega
  · refine next _ hmem ?_ (fun s hs => ?_) hat
    · have := hat.ready.above
      rw [hsp] at this ⊢
      simp only [sp] at this ⊢
      omega
    · simp [e, hs.symm]

/-- A register is taken from the stack. -/
theorem pop {save : Register} (h : L.At lo hi a (.inst (.pop save) :: rest) m) (hs : save ≠ .rsp)
    (hdeep : 0x8002 ≤ m.sp)
    (next : ∀ m', m'.mem = m.mem → m'.sp + 2 = m.sp → m'.reg save = m.mem.load (m.reg .rsp - 2) →
      (∀ s, s ≠ .rsp → s ≠ save → m'.reg s = m.reg s) → L.At lo hi (a + 4) rest m' → Leads L lo hi Q b 0 m') :
    Leads L lo hi Q b 0 m := by
  have heven := h.ready.even
  have hsub := m.toNat_rsp_sub_two (by omega)
  let e : Effect :=
    ⟨m.pc + (4 : Nat).toUInt16, none, [(.rsp, m.reg .rsp - 2), (save, m.mem.load (m.reg .rsp - 2))], false⟩
  have hmem : (m.apply e).mem = m.mem := by simp [e]
  have hsp : (m.apply e).sp + 2 = m.sp := by simpa [e, sp, hs] using hsub
  refine advance (e := e) h ⟨nofun, nofun, rfl, rfl⟩ rfl rfl rfl (.inr ⟨?_, by omega, by omega⟩)
    (next _ hmem hsp ?_ ?_)
  · intro k hk hc
    rw [hmem, h.ready.intact k hk hc]
  · simp [e]
  · intro s h1 h2
    simp [e, h1.symm, h2.symm]

/-- A word is stored where the code is not. -/
theorem memw {addr value : Register} {off : Int8} (h : L.At lo hi a (.inst (.memw addr value off) :: rest) m)
    (hfree : L.Free (m.reg addr + signedOffset off))
    (next : ∀ m', m'.mem = m.mem.store (m.reg addr + signedOffset off) (m.reg value) → m'.reg = m.reg →
      L.At lo hi (a + 4) rest m' → Leads L lo hi Q b 0 m') : Leads L lo hi Q b 0 m := by
  let e : Effect := ⟨m.pc + (4 : Nat).toUInt16, some (m.reg addr + signedOffset off, m.reg value), [], false⟩
  have hmem : (m.apply e).mem = m.mem.store (m.reg addr + signedOffset off) (m.reg value) := by simp [e]
  have hreg : (m.apply e).reg = m.reg := by
    funext s
    simp [e]
  have hsp : (m.apply e).sp = m.sp := congrArg UInt16.toNat (congrFun hreg .rsp)
  exact advance (e := e) h ⟨nofun, nofun, rfl, rfl⟩ rfl rfl rfl
    (.inr ⟨h.ready.intact.store _ hfree hmem, hsp ▸ h.ready.above, hsp ▸ h.ready.even⟩) (next _ hmem hreg)

/-- The store of a statement that writes memory. A store elsewhere ends a run with a budget. -/
theorem memwFree (h : L.At lo hi a (.inst (.memw .rexpr .rret 0) :: rest) m)
    (hknown : b = none → L.bytes.length ≤ (m.reg .rexpr).toNat ∧ (m.reg .rexpr).toNat ≤ 0x7FFE)
    (next : ∀ m', L.bytes.length ≤ (m.reg .rexpr).toNat → (m.reg .rexpr).toNat ≤ 0x7FFE →
      m'.mem = m.mem.store (m.reg .rexpr) (m.reg .rret) → m'.reg = m.reg → L.At lo hi (a + 4) rest m' →
        Leads L lo hi Q b 0 m') : Leads L lo hi Q b 0 m := by
  have hzero : m.reg .rexpr + signedOffset 0 = m.reg .rexpr := by
    simp [show signedOffset 0 = 0 from rfl]
  by_cases hrange : L.bytes.length ≤ (m.reg .rexpr).toNat ∧ (m.reg .rexpr).toNat ≤ 0x7FFE
  · refine memw h ?_ fun m' hmem => next m' hrange.1 hrange.2 (hzero ▸ hmem)
    rw [hzero]
    exact ⟨by omega, .inl hrange.1⟩
  · cases b with
    | none => exact absurd (hknown rfl) hrange
    | some n =>
      have hi' : L.code.instAt m.pc.toNat = some (.memw .rexpr .rret 0) := h.pc ▸ h.placed.instAt_eq
      have hsize : Instruction.size (.memw .rexpr .rret 0) = 4 := rfl
      have hlo := h.lo_le
      have hhi := h.le_hi
      simp only [Program.size_cons, Line.size] at hhi
      have hword : (Instruction.memw .rexpr .rret 0).op ≠ .word := by decide
      have hhalt : (Instruction.memw .rexpr .rret 0).op ≠ .halt := by decide
      exact .stop ⟨h.ready, ⟨_, hi', hword, hhalt⟩, .inr (h.pc ▸ ⟨hlo, by omega⟩)⟩
        (.inr fun hw => hrange (hw (h.ready.intact.fetch hi' hword)))

/-- An instruction that sets the stack pointer to an even number, or makes it wrap. -/
theorem setsSp {v : UInt16} (h : L.At lo hi a (.inst i :: rest) m) (plain : i.Plain) (hsize : i.size = 4)
    (he : m.effect (i.resolve L.labels.get?) = .ok { next := m.pc + (4 : Nat).toUInt16, sets := [(.rsp, v)] })
    (heven : v.toNat % 2 = 0)
    (next : ∀ m', m.Sets .rsp v m' → L.At lo hi (a + 4) rest m' → Leads L lo hi Q b 0 m') :
    Leads L lo hi Q b 0 m := by
  have hs := m.sets_apply (m.pc + (4 : Nat).toUInt16) .rsp v
  have hv : (m.apply ⟨m.pc + (4 : Nat).toUInt16, none, [(.rsp, v)], false⟩).sp = v.toNat :=
    congrArg UInt16.toNat hs.reg
  refine advance h plain hsize he rfl ?_ (next _ hs)
  by_cases hw : v.toNat < 0x8000
  · exact .inl (hv ▸ hw)
  · refine .inr ⟨fun k hk hc => ?_, ?_, hv ▸ heven⟩
    · rw [hs.mem, h.ready.intact k hk hc]
    · rw [hv]
      omega

/-- A jump that is not a call. The step counts against the budget, so that loops can be followed. -/
theorem jmp {label : String} {t : Nat} {target : Program} (h : L.At lo hi a (.inst (.jmp label) :: rest) m)
    (hlabel : initial label ≠ some 'f') (ht : L.code.Placed t (.label label :: target))
    (next : b ≠ some 0 → ∀ m', m'.pc.toNat = t → m'.mem = m.mem → m'.reg = m.reg → L.Ready m' →
      Leads L lo hi Q b.spend 0 m') : Leads L lo hi Q b 0 m := by
  obtain ⟨hget, hval⟩ := address_of_placed ht
  let e : Effect := ⟨t.toUInt16, none, [], false⟩
  have he : m.effect (Instruction.resolve L.labels.get? (.jmp label)) = .ok e := by
    simp [Instruction.jmp, Instruction.resolve, Operand.resolve, hget, effect, e]
  have hreg : (m.apply e).reg = m.reg := by
    funext s
    simp [e]
  have plain : (Instruction.jmp label).Plain :=
    ⟨by simp [Instruction.jmp], by simp [Instruction.jmp], Instruction.isCall_jmp hlabel, rfl⟩
  refine inst h plain he fun hb => next hb _ hval (by simp [e]) hreg ?_
  exact h.ready.of_mem_eq (by simp [e]) (congrFun hreg _)

/-- A conditional jump: taken if the register is not zero. -/
theorem jmpif {cond : Register} {label : String} {t : Nat} {target : Program}
    (h : L.At lo hi a (.inst (.jmpif cond label) :: rest) m) (ht : L.code.Placed t (.label label :: target))
    (taken : m.reg cond ≠ 0 → ∀ m', m'.pc.toNat = t → m'.mem = m.mem → m'.reg = m.reg → L.Ready m' →
      Leads L lo hi Q b 0 m')
    (fall : m.reg cond = 0 → ∀ m', m'.mem = m.mem → m'.reg = m.reg → L.At lo hi (a + 4) rest m' →
      Leads L lo hi Q b 0 m') : Leads L lo hi Q b 0 m := by
  obtain ⟨hget, hval⟩ := address_of_placed ht
  have plain : (Instruction.jmpif cond label).Plain :=
    ⟨by simp [Instruction.jmpif], by simp [Instruction.jmpif], rfl, rfl⟩
  by_cases hz : m.reg cond = 0
  · let e : Effect := ⟨m.pc + (4 : Nat).toUInt16, none, [], false⟩
    have he : m.effect (Instruction.resolve L.labels.get? (.jmpif cond label)) = .ok e := by
      simp [Instruction.jmpif, Instruction.resolve, Operand.resolve, hget, effect, hz, e, Instruction.size,
        Opcode.size]
    have hreg : (m.apply e).reg = m.reg := by
      funext s
      simp [e]
    exact advance h plain rfl he rfl
      (.inr (h.ready.of_mem_eq (by simp [e]) (congrFun hreg _))) (fall hz _ (by simp [e]) hreg)
  · let e : Effect := ⟨t.toUInt16, none, [], false⟩
    have he : m.effect (Instruction.resolve L.labels.get? (.jmpif cond label)) = .ok e := by
      simp [Instruction.jmpif, Instruction.resolve, Operand.resolve, hget, effect, hz, e]
    have hreg : (m.apply e).reg = m.reg := by
      funext s
      simp [e]
    exact inst h plain he fun _ => (taken hz _ hval (by simp [e]) hreg
      (h.ready.of_mem_eq (by simp [e]) (congrFun hreg _))).spend

/-- The jump of a call: from then on one call is pending. -/
theorem call {name : String} {t : Nat} {target : Program}
    (h : L.At lo hi a (.inst (.jmp (functionLabel name)) :: rest) m)
    (ht : L.code.Placed t (.label (functionLabel name) :: target))
    (next : b ≠ some 0 → ∀ m', m'.pc.toNat = t → m'.mem = m.mem → m'.reg = m.reg → L.Ready m' →
      Leads L lo hi Q b.spend 1 m') : Leads L lo hi Q b 0 m := by
  obtain ⟨hget, hval⟩ := address_of_placed ht
  have hi' : L.code.instAt m.pc.toNat = some (.jmp (functionLabel name)) := h.pc ▸ h.placed.instAt_eq
  have hsize : Instruction.size (.jmp (functionLabel name)) = 4 := rfl
  have hlo := h.lo_le
  have hhi := h.le_hi
  simp only [Program.size_cons, Line.size] at hhi
  have hword : (Instruction.jmp (functionLabel name)).op ≠ .word := by simp [Instruction.jmp]
  have hhalt : (Instruction.jmp (functionLabel name)).op ≠ .halt := by simp [Instruction.jmp]
  have poised : L.Poised lo hi 0 m := ⟨h.ready, ⟨_, hi', hword, hhalt⟩, .inr (h.pc ▸ ⟨hlo, by omega⟩)⟩
  let e : Effect := ⟨t.toUInt16, none, [], false⟩
  have he : m.effect (Instruction.resolve L.labels.get? (.jmp (functionLabel name))) = .ok e := by
    simp [Instruction.jmp, Instruction.resolve, Operand.resolve, hget, effect, e]
  have hreg : (m.apply e).reg = m.reg := by
    funext s
    simp [e]
  by_cases hb : b = some 0
  · subst hb
    exact .cut poised
  · refine .step poised (exec_of_effect (h.ready.intact.fetch hi' hword) he) ?_
      (next hb _ hval (by simp [e]) hreg (h.ready.of_mem_eq (by simp [e]) (congrFun hreg _)))
    have hno : (Instruction.jmp (functionLabel name)).isReturn = false := rfl
    simp [Program.calling, Program.returning, hi', hno]

/-- The jump of a return: the pending call is over. -/
theorem jmpr {target : Register} (hpc : m.pc.toNat = a) (hp : L.code.Placed a (.inst (.jmpr target) :: rest))
    (hr : L.Ready m)
    (next : ∀ m', m'.pc = m.reg target → m'.mem = m.mem → m'.reg = m.reg → L.Ready m' → Leads L lo hi Q b 0 m') :
    Leads L lo hi Q b 1 m := by
  have hi' : L.code.instAt m.pc.toNat = some (.jmpr target) := hpc ▸ hp.instAt_eq
  let e : Effect := ⟨m.reg target, none, [], false⟩
  have hreg : (m.apply e).reg = m.reg := by
    funext s
    simp [e]
  have hx := exec_of_effect (e := e) (hr.intact.fetch hi' nofun) rfl
  refine .step ⟨hr, ⟨_, hi', nofun, nofun⟩, .inl Nat.one_pos⟩ hx ?_
    (next _ rfl (by simp [e]) hreg (hr.of_mem_eq (by simp [e]) (congrFun hreg _))).spend
  simp [Program.calling, Program.returning, hi', show (Instruction.jmpr target).isReturn = true from rfl,
    show (Instruction.jmpr target).isCall = false from rfl]

end Leads

end StackToolchain
