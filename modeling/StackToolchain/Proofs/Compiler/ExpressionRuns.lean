import StackToolchain.Proofs.Compiler.Frames

/-! Runs of the code of expressions.
The code of an expression leaves the stack as it was and its value in a register. There is one rule for every
shape of code. A rule is about runs with any budget; only without one does it say what the value is. -/
namespace StackToolchain

open Source Machine Linked

variable {L : Linked} {b : Budget} {params vars : Nat} {locals : Activation} {κ κ₁ κ₂ : Store}

/-- The code of an expression can be run: what follows is run from a state with the same stack, and without a
budget the machine then holds the state after the evaluation. -/
def ExprRuns (L : Linked) (b : Budget) (params vars : Nat) (locals : Activation) (code : Program) (κ κ' : Store) :
    Prop :=
  ∀ ⦃lo hi a : Nat⦄ ⦃rest : Program⦄ ⦃Q : Machine → Prop⦄ ⦃m : Machine⦄, L.At lo hi a (code ++ rest) m →
    (b = none → Knows L params vars locals κ m) →
    (∀ m', L.At lo hi (a + Program.size code) rest m' → m.Kept m' → (b = none → Knows L params vars locals κ' m') →
      Leads L lo hi Q b 0 m') → Leads L lo hi Q b 0 m

namespace Machine.Sets

variable {m m' : Machine} {r : Register} {w : UInt16}

theorem sp (h : m.Sets r w m') (hr : r ≠ .rsp) : m'.sp = m.sp :=
  congrArg UInt16.toNat (h.others _ hr.symm)

private theorem kept (h : m.Sets r w m') (hsp : r ≠ .rsp) (hsb : r ≠ .rsb) : m.Kept m' :=
  ⟨h.sp hsp, h.others _ hsb.symm, .of_eq h.mem⟩

/-- A new value is the last one. -/
theorem knows_rret (h : m.Sets .rret w m') (hk : Knows L params vars locals κ m) :
    Knows L params vars locals { κ with last := w } m' :=
  hk.of_same (h.sp nofun ▸ hk.frame.room) (.of_eq h.mem) (h.others _ nofun) h.reg

/-- Nothing is known of scratch registers. -/
theorem knows (h : m.Sets r w m') (hsp : r ≠ .rsp) (hsb : r ≠ .rsb) (hret : r ≠ .rret)
    (hk : Knows L params vars locals κ m) : Knows L params vars locals κ m' :=
  hk.of_same (h.sp hsp ▸ hk.frame.room) (.of_eq h.mem) (h.others _ hsb.symm)
    ((h.others _ hret.symm).trans hk.store.last)

end Machine.Sets

theorem imm_runs (n : UInt16) : ExprRuns L b params vars locals [.inst (.imm .rret n)] κ { κ with last := n } := by
  intro lo hi a rest Q m hat hk next
  refine Leads.imm hat nofun fun m' hs hat' => ?_
  exact next m' hat' (hs.kept nofun nofun) fun hb => hs.knows_rret (hk hb)

/-- A variable of the frame is read. -/
theorem load_frame_runs {v : LocalVar} {w : UInt16} (hv : b = none → locals v = some w) :
    ExprRuns L b params vars locals (Cell.frame (Int8.ofInt (v.offset params))).load κ { κ with last := w } := by
  intro lo hi a rest Q m hat hk next
  refine Leads.memr hat nofun fun m' hs hat' => ?_
  refine next m' hat' (hs.kept nofun nofun) fun hb => ?_
  rw [← (hk hb).locals v w (hv hb) |>.2]
  exact hs.knows_rret (hk hb)

/-- A global variable is read from its record. -/
theorem load_record_runs {g : String} {t : Nat} (hg : L.Record g t) :
    ExprRuns L b params vars locals (Cell.record (globalLabel g)).load κ { κ with last := κ.globals g } := by
  intro lo hi a rest Q m hat hk next
  refine Leads.immLabel hat nofun hg fun m₁ hs₁ hat₁ => ?_
  refine Leads.memr hat₁ nofun fun m₂ hs₂ hat₂ => ?_
  rw [hs₁.reg, hg.cellOffset, hs₁.mem] at hs₂
  refine next m₂ hat₂ ((hs₁.kept nofun nofun).trans (hs₂.kept nofun nofun)) fun hb => ?_
  rw [← (hk hb).store.globals g t hg]
  exact hs₂.knows_rret (hs₁.knows nofun nofun nofun (hk hb))

section
variable {m m₁ m₂ : Machine} {w : UInt16}

/-- A word that was pushed is on top again after code that keeps the stack. -/
theorem load_top (hm : 0x8000 ≤ m.sp) (hmem : m₁.mem = m.mem.store (m.reg .rsp) w) (hsp : m₁.sp = m.sp + 2)
    (hkept : m₁.Kept m₂) : m₂.mem.load (m₂.reg .rsp - 2) = w := by
  have hlt : m₁.sp < 0x10000 := (m₁.reg .rsp).toNat_lt
  have hback : m₂.reg .rsp - 2 = m.reg .rsp := rsp_sub_two (hkept.sp.trans hsp)
  rw [hback, hkept.stack.load hm (by rw [hsp, sp]; omega) (by simp only [sp] at hsp hlt; omega), hmem,
    Memory.load_store]

/-- Pushing changes nothing that is known. -/
theorem Knows.push (hk : Knows L params vars locals κ m) (hfit : m₁.sp = m.sp + 2)
    (hmem : m₁.mem = m.mem.store (m.reg .rsp) w) (hreg : ∀ s, s ≠ .rsp → m₁.reg s = m.reg s) :
    Knows L params vars locals κ m₁ := by
  have hroom := hk.frame.room
  have hlt : m₁.sp < 0x10000 := (m₁.reg .rsp).toNat_lt
  refine hk.of_same (by omega) ?_ (hreg .rsb nofun) ((hreg .rret nofun).trans hk.store.last)
  rw [hmem]
  exact .store _ _ (by simp only [sp] at *; omega) (.inl hroom)

/-- Nor does popping, above the frame. -/
theorem Knows.pop (hk : Knows L params vars locals κ m) (hroom : m.sb + 2 * vars ≤ m₁.sp) (hmem : m₁.mem = m.mem)
    (hrsb : m₁.reg .rsb = m.reg .rsb) (hret : m₁.reg .rret = m.reg .rret) : Knows L params vars locals κ m₁ :=
  hk.of_same hroom (.of_eq hmem) hrsb (hret.trans hk.store.last)

end

/-- The left value waits on the stack while the right one is computed. -/
theorem binaryCode_runs {op : AluOp} {l r : Program} {v : UInt16} (hl : ExprRuns L b params vars locals l κ κ₁)
    (hr : ExprRuns L b params vars locals r κ₁ κ₂) (hv : b = none → op.eval κ₁.last κ₂.last = some v) :
    ExprRuns L b params vars locals (binaryCode op l r) κ { κ₂ with last := v } := by
  intro lo hi a rest Q m hat hk next
  simp only [binaryCode, List.append_assoc, List.cons_append, List.nil_append] at hat
  refine hl hat hk fun m₁ hat₁ hkept₁ hk₁ => ?_
  refine Leads.mov hat₁ (by simp) fun m₂ hs₂ hat₂ => ?_
  refine Leads.push hat₂ fun m₃ hmem₃ hsp₃ hreg₃ hat₃ => ?_
  have hk₂ : b = none → Knows L params vars locals κ₁ m₂ := fun hb => hs₂.knows (by simp) (by simp) (by simp) (hk₁ hb)
  refine hr hat₃ (fun hb => (hk₂ hb).push hsp₃ hmem₃ hreg₃) fun m₄ hat₄ hkept₄ hk₄ => ?_
  have habove := hat₂.ready.above
  have hsp₄ := hkept₄.sp
  have hsp₂ := hs₂.sp (by simp)
  have htop := load_top habove hmem₃ hsp₃ hkept₄
  refine Leads.pop hat₄ (by simp) (by omega) fun m₅ hmem₅ hsp₅ htop₅ hreg₅ hat₅ => ?_
  -- both operands are in their registers
  have hleft : m₅.reg .rexpr = m₁.reg .rret := by rw [htop₅, htop, hs₂.reg]
  have hright : m₅.reg .rret = m₄.reg .rret := hreg₅ _ (by simp) (by simp)
  have heval : b = none → op.eval (m₅.reg .rexpr) (m₅.reg .rret) = some v := by
    intro hb
    rw [hleft, hright, (hk₁ hb).store.last, (hk₄ hb).store.last, hv hb]
  refine Leads.alu hat₅ (by simp) (fun hb => by rw [heval hb]; simp) fun u m₆ hu hs₆ hat₆ => ?_
  have hrsb : m₅.reg .rsb = m₁.reg .rsb := by
    rw [hreg₅ .rsb (by simp) (by simp), hkept₄.rsb, hreg₃ .rsb (by simp), hs₂.others .rsb (by simp)]
  have hstack : m₁.mem.Same 0x8000 m₁.sp m₅.mem := by
    have hlt : m₃.sp < 0x10000 := (m₃.reg .rsp).toNat_lt
    have hpush : m₂.mem.Same 0x8000 m₁.sp m₃.mem := by
      rw [hmem₃]
      exact .store _ _ (by simp only [sp] at *; omega) (.inl (by rw [← hsp₂]; exact le_rfl))
    rw [hmem₅, ← hs₂.mem]
    exact hpush.trans (hkept₄.stack.mono le_rfl (by omega))
  have hkept₅ : m₁.Kept m₅ := ⟨by omega, hrsb, hstack⟩
  refine next m₆ ?_ ((hkept₁.trans hkept₅).trans (hs₆.kept (by simp) (by simp))) fun hb => ?_
  · have hsize : a + Program.size (binaryCode op l r) = a + Program.size l + 4 + 4 + Program.size r + 4 + 4 := by
      simp [binaryCode, Line.size, Instruction.mov, Instruction.push, Instruction.pop, Instruction.alu,
        Instruction.size, Opcode.size]
      omega
    rw [hsize]
    exact hat₆
  · obtain rfl : u = v := Option.some.inj (hu.symm.trans (heval hb))
    have hroom := (hk₁ hb).frame.room
    refine hs₆.knows_rret ((hk₄ hb).pop ?_ hmem₅ (hreg₅ .rsb (by simp) (by simp)) hright)
    have hsb₄ : m₄.sb = m₁.sb := by
      rw [sb, sb, ← hrsb, hreg₅ .rsb (by simp) (by simp)]
    omega

def argsCode (codes : List Program) : Program :=
  codes.flatMap (· ++ [.inst (.push .rret)])

def ArgsRuns (L : Linked) (b : Budget) (params vars : Nat) (locals : Activation) (codes : List Program) (κ : Store)
    (values : List UInt16) (κ' : Store) : Prop :=
  ∀ ⦃lo hi a : Nat⦄ ⦃rest : Program⦄ ⦃Q : Machine → Prop⦄ ⦃m : Machine⦄, L.At lo hi a (argsCode codes ++ rest) m →
    (b = none → Knows L params vars locals κ m) →
    (∀ m', L.At lo hi (a + Program.size (argsCode codes)) rest m' → m'.sp = m.sp + 2 * codes.length →
      m'.reg .rsb = m.reg .rsb → m.mem.Same 0x8000 m.sp m'.mem →
      (b = none → Knows L params vars locals κ' m' ∧
        ∀ i w, values[i]? = some w → m'.mem.load (m.sp + 2 * i).toUInt16 = w) →
      Leads L lo hi Q b 0 m') → Leads L lo hi Q b 0 m

theorem argsCode_nil_runs : ArgsRuns L b params vars locals [] κ [] κ := by
  intro lo hi a rest Q m hat hk next
  exact next m hat rfl rfl (.of_eq rfl) fun hb => ⟨hk hb, nofun⟩

theorem argsCode_cons_runs {c : Program} {cs : List Program} {values : List UInt16}
    (hc : ExprRuns L b params vars locals c κ κ₁) (hcs : ArgsRuns L b params vars locals cs κ₁ values κ₂) :
    ArgsRuns L b params vars locals (c :: cs) κ (κ₁.last :: values) κ₂ := by
  intro lo hi a rest Q m hat hk next
  simp only [argsCode, List.flatMap_cons, List.append_assoc, List.cons_append, List.nil_append] at hat
  refine hc hat hk fun m₁ hat₁ hkept₁ hk₁ => ?_
  refine Leads.push hat₁ fun m₂ hmem₂ hsp₂ hreg₂ hat₂ => ?_
  refine hcs hat₂ (fun hb => (hk₁ hb).push hsp₂ hmem₂ hreg₂) fun m₃ hat₃ hsp₃ hrsb₃ hstack₃ hk₃ => ?_
  have habove := hat₁.ready.above
  have hsp₁ := hkept₁.sp
  have hlt : m₂.sp < 0x10000 := (m₂.reg .rsp).toNat_lt
  have hpush : m₁.mem.Same 0x8000 m₁.sp m₂.mem := by
    rw [hmem₂]
    exact .store _ _ (by simp only [sp] at *; omega) (.inl le_rfl)
  refine next m₃ ?_ ?_ ?_ ?_ fun hb => ⟨(hk₃ hb).1, fun i w hw => ?_⟩
  · have hsize : a + Program.size (argsCode (c :: cs)) = a + Program.size c + 4 + Program.size (argsCode cs) := by
      simp [argsCode, Line.size, Instruction.push, Instruction.size, Opcode.size]
      omega
    rw [hsize]
    exact hat₃
  · rw [hsp₃, hsp₂, hsp₁, List.length_cons]
    omega
  · rw [hrsb₃, hreg₂ .rsb (by simp), hkept₁.rsb]
  · exact (hkept₁.stack.trans (hsp₁ ▸ hpush)).trans (hstack₃.mono le_rfl (by omega))
  · cases i with
    | zero =>
      -- the first word lies below what the other arguments use
      obtain rfl : κ₁.last = w := by simpa using hw
      have htop : (m.sp + 2 * 0).toUInt16 = m₁.reg .rsp := by
        apply UInt16.toNat_inj.mp
        rw [toNat_toUInt16 (by omega)]
        exact hsp₁.symm
      rw [htop, hstack₃.load habove (by rw [hsp₂, sp]; omega) (by simp only [sp] at *; omega), hmem₂,
        Memory.load_store, (hk₁ hb).store.last]
    | succ i =>
      have := (hk₃ hb).2 i w (by simpa using hw)
      rwa [hsp₂, hsp₁, show m.sp + 2 + 2 * i = m.sp + 2 * (i + 1) by omega] at this

/-- A function is about to go back: the return address is in its register, and the stack is as at the call,
parameters and return address apart. -/
structure Returning (L : Linked) (b : Budget) (n : Nat) (κ : Store) (m m' : Machine) : Prop where
  jump : L.code.Placed m'.pc.toNat [.inst (.jmpr .raddr)]
  ready : L.Ready m'
  address : m'.reg .raddr = m.mem.load (m.reg .rsp - 2)
  sp : m'.sp + 2 = m.sp
  rsb : m'.reg .rsb = m.reg .rsb
  stack : m.mem.Same 0x8000 (m.sp - 2 - 2 * n) m'.mem
  store : b = none → Holds L κ m'

def FunctionRuns (L : Linked) (b : Budget) (entry n : Nat) (values : List UInt16) (κ κ' : Store) : Prop :=
  ∀ ⦃m : Machine⦄, m.pc.toNat = entry → L.Ready m → 0x8002 + 2 * n ≤ m.sp →
    (b = none → Holds L κ m ∧ values.length = n ∧
      ∀ i w, values[i]? = some w → m.mem.load (m.sp - 2 - 2 * (n - i)).toUInt16 = w) →
    Leads L 0 (Program.size L.code) (Returning L b n κ' m) b 0 m

/-- After a call the arguments are taken off. -/
theorem Leads.pops {n lo hi a : Nat} {rest : Program} {Q : Machine → Prop} {m : Machine}
    (h : L.At lo hi a (List.replicate n (.inst (.pop .raddr)) ++ rest) m) (hdeep : 0x8000 + 2 * n ≤ m.sp)
    (next : ∀ m', m'.mem = m.mem → m'.sp + 2 * n = m.sp → (∀ s, s ≠ .rsp → s ≠ .raddr → m'.reg s = m.reg s) →
      L.At lo hi (a + 4 * n) rest m' → Leads L lo hi Q b 0 m') : Leads L lo hi Q b 0 m := by
  induction n generalizing a m with
  | zero => exact next m rfl rfl (fun _ _ _ => rfl) h
  | succ n ih =>
    refine Leads.pop h nofun (by omega) fun m₁ hmem₁ hsp₁ _ hreg₁ hat₁ => ?_
    refine ih hat₁ (by omega) fun m₂ hmem₂ hsp₂ hreg₂ hat₂ => ?_
    refine next m₂ (hmem₂.trans hmem₁) (by omega) (fun s h1 h2 => (hreg₂ s h1 h2).trans (hreg₁ s h1 h2)) ?_
    rwa [show a + 4 * (n + 1) = a + 4 + 4 * n by omega]

/-- A function is called when the arguments are on the stack, and they are taken off again. The function is run
with a smaller budget. -/
theorem Leads.callFunction {n lo hi a entry : Nat} {name ret : String} {body rest : Program} {values : List UInt16}
    {Q : Machine → Prop} {m : Machine}
    (h : L.At lo hi a ([.inst (.immLabel .raddr ret), .inst (.push .raddr), .inst (.jmp (functionLabel name))] ++
      .label ret :: (List.replicate n (.inst (.pop .raddr)) ++ rest)) m)
    (hentry : L.code.Placed entry (.label (functionLabel name) :: body)) (hdeep : 0x8000 + 2 * n ≤ m.sp)
    (hf : b ≠ some 0 → FunctionRuns L b.spend entry n values κ κ₁)
    (hk : b = none → Holds L κ m ∧ values.length = n ∧
      ∀ i w, values[i]? = some w → m.mem.load (m.sp - 2 * (n - i)).toUInt16 = w)
    (next : ∀ m', L.At lo hi (a + 12 + 4 * n) rest m' → m'.sp + 2 * n = m.sp → m'.reg .rsb = m.reg .rsb →
      m.mem.Same 0x8000 m'.sp m'.mem → (b = none → Holds L κ₁ m') → Leads L lo hi Q b 0 m') :
    Leads L lo hi Q b 0 m := by
  have hback : L.code.Placed (a + 12) (.label ret :: (List.replicate n (.inst (.pop .raddr)) ++ rest)) :=
    h.placed.right
  refine Leads.immLabel h (by simp) hback fun m₁ hs₁ hat₁ => ?_
  refine Leads.push hat₁ fun m₂ hmem₂ hsp₂ hreg₂ hat₂ => ?_
  refine Leads.call hat₂ hentry fun hb m₃ hpc₃ hmem₃ hreg₃ hready₃ => ?_
  have hsp₁ := hs₁.sp (by simp)
  have hsp₃ : m₃.sp = m.sp + 2 := by
    rw [sp, hreg₃, ← sp, hsp₂, hsp₁]
  have hlt : m₃.sp < 0x10000 := (m₃.reg .rsp).toNat_lt
  -- only the return address is new in memory
  have hpush : ∀ {lo hi}, hi ≤ m.sp → m.mem.Same lo hi m₃.mem := by
    intro lo hi hle
    rw [hmem₃, hmem₂, hs₁.mem]
    exact .store _ _ (by simp only [sp] at *; omega) (.inl (by simp only [sp] at *; omega))
  have hcallee : b.spend = none → Holds L κ m₃ ∧ values.length = n ∧
      ∀ i w, values[i]? = some w → m₃.mem.load (m₃.sp - 2 - 2 * (n - i)).toUInt16 = w := by
    intro hnone
    obtain ⟨hstore, hlen, hvals⟩ := hk (Budget.spend_eq_none.mp hnone)
    have hlast : m₃.reg .rret = κ.last := by
      rw [hreg₃, hreg₂ .rret (by simp), hs₁.others .rret (by simp), hstore.last]
    refine ⟨hstore.of_same (hpush (by omega)) hlast, hlen, fun i w hw => ?_⟩
    have hi : i < n := hlen ▸ (List.getElem?_eq_some_iff.mp hw).1
    have hnat : (m.sp - 2 * (n - i)).toUInt16.toNat = m.sp - 2 * (n - i) := toNat_toUInt16 (by omega)
    have hsame : m.mem.Same 0x8000 m.sp m₃.mem := hpush le_rfl
    rw [hsp₃, Nat.add_sub_cancel, hsame.load (by omega) (by omega) (by omega), hvals i w hw]
  refine ((hf hb) hpc₃ hready₃ (by omega) hcallee).bind Nat.one_pos fun m₄ hret => ?_
  refine Leads.jmpr rfl hret.jump hret.ready fun m₅ hpc₅ hmem₅ hreg₅ hready₅ => ?_
  -- the callee goes back to the label after the jump
  have htop : m₃.mem.load (m₃.reg .rsp - 2) = m₁.reg .raddr :=
    load_top hat₁.ready.above hmem₂ hsp₂ ⟨by rw [sp, hreg₃, sp], by rw [hreg₃], .of_eq hmem₃⟩
  have hpc : m₅.pc.toNat = a + 12 := by
    rw [hpc₅, hret.address, htop, hs₁.reg, (address_of_placed hback).2]
  have hsp₅ : m₅.sp = m.sp := by
    have := hret.sp
    rw [sp, hreg₅, ← sp]
    omega
  refine (Leads.pops (h.moved hpc hready₅).label (by omega) fun m₆ hmem₆ hsp₆ hreg₆ hat₆ => ?_).spend
  have hrsb : m₆.reg .rsb = m.reg .rsb := by
    rw [hreg₆ .rsb (by simp) (by simp), hreg₅, hret.rsb, hreg₃, hreg₂ .rsb (by simp), hs₁.others .rsb (by simp)]
  have hstack : m.mem.Same 0x8000 m₆.sp m₆.mem := by
    rw [hmem₆, hmem₅]
    exact (hpush (by omega)).trans (hret.stack.mono le_rfl (by omega))
  refine next m₆ hat₆ (by omega) hrsb hstack fun hn => ?_
  have hstore := hret.store (Budget.spend_eq_none.mpr hn)
  have hlast : m₆.reg .rret = κ₁.last := by
    rw [hreg₆ .rret (by simp) (by simp), hreg₅, hstore.last]
  exact hstore.of_same (.of_eq (hmem₆.trans hmem₅)) hlast

/-- A call puts the arguments on the stack and leaves the stack as it was. -/
theorem callCode_runs {name : String} {codes : List Program} {ids : LabelSupply} {entry : Nat} {body : Program}
    {values : List UInt16} (hentry : L.code.Placed entry (.label (functionLabel name) :: body))
    (hargs : ArgsRuns L b params vars locals codes κ values κ₁) (hlen : b = none → values.length = codes.length)
    (hf : b ≠ some 0 → FunctionRuns L b.spend entry codes.length values κ₁ κ₂) :
    ExprRuns L b params vars locals (callCode name codes ids).1 κ κ₂ := by
  intro lo hi a rest Q m hat hk next
  have hcode : (callCode name codes ids).1 ++ rest = argsCode codes ++
      ([.inst (.immLabel .raddr (ids.fresh "call_ret").1), .inst (.push .raddr), .inst (.jmp (functionLabel name))] ++
        .label (ids.fresh "call_ret").1 :: (List.replicate codes.length (.inst (.pop .raddr)) ++ rest)) := by
    simp [callCode_eq, argsCode]
  have hsize : Program.size (callCode name codes ids).1 = Program.size (argsCode codes) + 12 + 4 * codes.length := by
    simp [callCode_eq, argsCode, Program.size, Line.size, Instruction.immLabel, Instruction.push, Instruction.jmp,
      Instruction.pop, Instruction.size, Opcode.size]
    omega
  rw [hcode] at hat
  refine hargs hat hk fun m₁ hat₁ hsp₁ hrsb₁ hstack₁ hk₁ => ?_
  have habove := hat.ready.above
  have hvals : b = none → Holds L κ₁ m₁ ∧ values.length = codes.length ∧
      ∀ i w, values[i]? = some w → m₁.mem.load (m₁.sp - 2 * (codes.length - i)).toUInt16 = w := by
    intro hb
    refine ⟨(hk₁ hb).1.store, hlen hb, fun i w hw => ?_⟩
    have hi : i < codes.length := hlen hb ▸ (List.getElem?_eq_some_iff.mp hw).1
    rw [show m₁.sp - 2 * (codes.length - i) = m.sp + 2 * i by omega, (hk₁ hb).2 i w hw]
  refine Leads.callFunction hat₁ hentry (by omega) hf hvals fun m₂ hat₂ hsp₂ hrsb₂ hstack₂ hstore₂ => ?_
  have hsp : m₂.sp = m.sp := by omega
  have hrsb : m₂.reg .rsb = m.reg .rsb := hrsb₂.trans hrsb₁
  have hstack : m.mem.Same 0x8000 m.sp m₂.mem := hstack₁.trans (hsp ▸ hstack₂)
  refine next m₂ ?_ ⟨hsp, hrsb, hstack⟩ fun hb => ?_
  · rw [hsize, ← Nat.add_assoc, ← Nat.add_assoc]
    exact hat₂
  · have hroom := (hk hb).frame.room
    exact (hk hb).of_holds (hstore₂ hb) (by omega) (hstack.mono le_rfl hroom) hrsb

end StackToolchain
