import StackToolchain.Proofs.Compiler.ExpressionRuns

/-! Runs of the code of statements.
A statement ends where its code ends or at the code that leaves the function. It changes the variables of its
frame, but not the links of the frame and nothing below. -/
namespace StackToolchain

open Source Machine Linked

variable {L : Linked} {b : Budget} {params vars ret : Nat} {locals locals₁ locals' : Activation} {κ κ₁ κ₂ κ' : Store}
  {flow flow₁ : Flow}

/-- The code of a statement can be run: what follows is run from where the statement ends. Without a budget it is
known how it ends. -/
def StmtRuns (L : Linked) (b : Budget) (params vars ret : Nat) (code : Program) (locals : Activation) (κ : Store)
    (flow : Flow) (locals' : Activation) (κ' : Store) : Prop :=
  ∀ ⦃lo hi a : Nat⦄ ⦃rest : Program⦄ ⦃Q : Machine → Prop⦄ ⦃m : Machine⦄, L.At lo hi a (code ++ rest) m →
    m.InFrame params vars → (b = none → Knows L params vars locals κ m) →
    ((b = none → flow = .next) → ∀ m', L.At lo hi (a + Program.size code) rest m' → m.Frozen params m' →
      (b = none → Knows L params vars locals' κ' m') → Leads L lo hi Q b 0 m') →
    ((b = none → flow = .leave) → ∀ m', m'.pc.toNat = ret → L.Ready m' → m.Frozen params m' →
      (b = none → Knows L params vars locals' κ' m') → Leads L lo hi Q b 0 m') → Leads L lo hi Q b 0 m

theorem nil_runs : StmtRuns L b params vars ret [] locals κ .next locals κ := by
  intro lo hi a rest Q m hat hin hk next _
  exact next (fun _ => rfl) m hat ⟨rfl, rfl, .of_eq rfl, .of_eq rfl⟩ hk

/-- Statements one after the other. -/
theorem append_runs {c cs : Program} (hc : StmtRuns L b params vars ret c locals κ flow₁ locals₁ κ₁)
    (hnext : (b = none → flow₁ = .next) → StmtRuns L b params vars ret cs locals₁ κ₁ flow locals' κ')
    (hleave : b = none → flow₁ = .leave → flow = .leave ∧ locals' = locals₁ ∧ κ' = κ₁) :
    StmtRuns L b params vars ret (c ++ cs) locals κ flow locals' κ' := by
  intro lo hi a rest Q m hat hin hk next leave
  rw [List.append_assoc] at hat
  refine hc hat hin hk (fun hf m₁ hat₁ hfr₁ hk₁ => ?_) (fun hf m₁ hpc₁ hr₁ hfr₁ hk₁ => ?_)
  · refine hnext hf hat₁ (hfr₁.inFrame hin) hk₁ (fun hf' m₂ hat₂ hfr₂ => ?_) (fun hf' m₂ hpc₂ hr₂ hfr₂ => ?_)
    · refine next hf' m₂ ?_ (hfr₁.trans hfr₂)
      rwa [Program.size_append, ← Nat.add_assoc]
    · exact leave hf' m₂ hpc₂ hr₂ (hfr₁.trans hfr₂)
  · exact leave (fun hb => (hleave hb (hf hb)).1) m₁ hpc₁ hr₁ hfr₁ fun hb => by
      rw [(hleave hb (hf hb)).2.1, (hleave hb (hf hb)).2.2]
      exact hk₁ hb

/-- An expression as a statement. -/
theorem ExprRuns.stmt {c : Program} (hc : ExprRuns L b params vars locals c κ κ₁) :
    StmtRuns L b params vars ret c locals κ .next locals κ₁ := by
  intro lo hi a rest Q m hat hin hk next _
  exact hc hat hk fun m₁ hat₁ hkept₁ hk₁ => next (fun _ => rfl) m₁ hat₁ (hkept₁.frozen hin) hk₁

/-- A variable of the frame is given the last value. -/
theorem store_frame_runs {v : LocalVar} (hv : v.Within params vars) :
    StmtRuns L b params vars ret (Cell.frame (Int8.ofInt (v.offset params))).store locals κ .next
      (Function.update locals v (some κ.last)) κ := by
  intro lo hi a rest Q m hat hin hk next _
  obtain ⟨-, hlo, hbelow, hhi, hlinks⟩ := hin.toNat_place hv
  have hroom := hin.room
  have hsmall := L.small
  have hlt : m.sp < 0x10000 := (m.reg .rsp).toNat_lt
  refine Leads.memw hat ⟨by rw [← place]; omega, .inl (by rw [← place]; omega)⟩ fun m₁ hmem₁ hreg₁ hat₁ => ?_
  rw [← place] at hmem₁
  refine next (fun _ => rfl) m₁ hat₁ ⟨by rw [sp, hreg₁, sp], by rw [hreg₁], ?_, ?_⟩ fun hb => ?_
  · rw [hmem₁]
    exact .store _ _ (by omega) (.inl hbelow)
  · rw [hmem₁]
    exact .store _ _ (by omega) (by omega)
  · rw [(hk hb).store.last] at hmem₁
    exact (hk hb).local_store hv hmem₁ hreg₁

/-- A global variable is given the last value. -/
theorem store_record_runs {g : String} {t : Nat} (hg : L.Record g t) :
    StmtRuns L b params vars ret (Cell.record (globalLabel g)).store locals κ .next locals
      { κ with globals := Function.update κ.globals g κ.last } := by
  intro lo hi a rest Q m hat hin hk next _
  refine Leads.immLabel hat (by simp) hg fun m₁ hs₁ hat₁ => ?_
  have haddr : m₁.reg .raddr + signedOffset cellOffset = (t + 2).toUInt16 := by rw [hs₁.reg, hg.cellOffset]
  have hnat := hg.toNat
  have hle := hg.add_four_le
  have hsmall := L.small
  have hbelow := hin.below
  have hroom := hin.room
  refine Leads.memw hat₁ ?_ fun m₂ hmem₂ hreg₂ hat₂ => ?_
  · rw [haddr]
    exact ⟨by omega, .inr (by rw [hnat]; exact hg.cell)⟩
  · rw [haddr, hs₁.others .rret (by simp)] at hmem₂
    have hstack : m₁.mem.Same 0x8000 m.sp m₂.mem := by
      rw [hmem₂]
      exact .store _ _ (by omega) (by omega)
    have hkept : m.Kept m₂ := by
      refine ⟨?_, ?_, hs₁.mem ▸ hstack⟩
      · rw [sp, hreg₂, ← sp, hs₁.sp (by simp)]
      · rw [hreg₂, hs₁.others .rsb (by simp)]
    refine next (fun _ => rfl) m₂ hat₂ (hkept.frozen hin) fun hb => ?_
    have hk₁ := hs₁.knows (by simp) (by simp) (by simp) (hk hb)
    rw [(hk hb).store.last] at hmem₂
    have hstore := hk₁.store.globals_store hg hmem₂ (by rw [hreg₂])
    exact (hk hb).of_holds hstore (by rw [hkept.sp]; exact hroom) (hkept.stack.mono le_rfl hroom) hkept.rsb

/-- A word of memory is written. The address waits on the stack while the value is computed. -/
theorem writeCode_runs {x v : Program} (hx : ExprRuns L b params vars locals x κ κ₁)
    (hv : ExprRuns L b params vars locals v κ₁ κ₂)
    (hfree : b = none → L.bytes.length ≤ κ₁.last.toNat ∧ κ₁.last.toNat ≤ 0x7FFE) :
    StmtRuns L b params vars ret (writeCode x v) locals κ .next locals
      { κ₂ with writes := (κ₁.last, κ₂.last) :: κ₂.writes } := by
  intro lo hi a rest Q m hat hin hk next _
  simp only [writeCode, List.append_assoc, List.cons_append, List.nil_append] at hat
  refine hx hat hk fun m₁ hat₁ hkept₁ hk₁ => ?_
  refine Leads.push hat₁ fun m₂ hmem₂ hsp₂ hreg₂ hat₂ => ?_
  refine hv hat₂ (fun hb => (hk₁ hb).push hsp₂ hmem₂ hreg₂) fun m₃ hat₃ hkept₃ hk₃ => ?_
  have habove := hat₁.ready.above
  have hsp₁ := hkept₁.sp
  have hsp₃ := hkept₃.sp
  have hlt : m₂.sp < 0x10000 := (m₂.reg .rsp).toNat_lt
  refine Leads.pop hat₃ nofun (by omega) fun m₄ hmem₄ hsp₄ htop₄ hreg₄ hat₄ => ?_
  have haddr : m₄.reg .rexpr = m₁.reg .rret := by rw [htop₄, load_top habove hmem₂ hsp₂ hkept₃]
  have hvalue : m₄.reg .rret = m₃.reg .rret := hreg₄ .rret nofun nofun
  refine Leads.memwFree hat₄ (fun hb => ?_) fun m₅ hlo hhi hmem₅ hreg₅ hat₅ => ?_
  · rw [haddr, (hk₁ hb).store.last]
    exact hfree hb
  have hrsb : m₅.reg .rsb = m.reg .rsb := by
    rw [hreg₅, hreg₄ .rsb nofun nofun, hkept₃.rsb, hreg₂ .rsb nofun, hkept₁.rsb]
  have hsp : m₅.sp = m.sp := by
    rw [sp, hreg₅, ← sp]
    omega
  have hstack : m.mem.Same 0x8000 m.sp m₅.mem := by
    have hpush : m₁.mem.Same 0x8000 m.sp m₂.mem := by
      rw [hmem₂]
      exact .store _ _ (by simp only [Machine.sp] at *; omega) (.inl (by rw [← hsp₁]; exact le_rfl))
    have hwrite : m₃.mem.Same 0x8000 m.sp m₅.mem := by
      rw [hmem₅, hmem₄]
      exact .store _ _ (by omega) (by omega)
    exact ((hkept₁.stack.trans hpush).trans (hkept₃.stack.mono le_rfl (by omega))).trans hwrite
  have hkept : m.Kept m₅ := ⟨hsp, hrsb, hstack⟩
  refine next (fun _ => rfl) m₅ ?_ (hkept.frozen hin) fun hb => ?_
  · have hsize : a + Program.size (writeCode x v) = a + Program.size x + 4 + Program.size v + 4 + 4 := by
      simp [writeCode, Line.size, Instruction.push, Instruction.pop, Instruction.memw, Instruction.size, Opcode.size]
      omega
    rw [hsize]
    exact hat₅
  · rw [haddr, hvalue, (hk₁ hb).store.last, (hk₃ hb).store.last, hmem₄] at hmem₅
    rw [haddr, (hk₁ hb).store.last] at hlo hhi
    have hret : m₅.reg .rret = m₃.reg .rret := by rw [hreg₅, hvalue]
    have hroom := hin.room
    exact (hk hb).of_holds ((hk₃ hb).store.heap_store hlo hhi hmem₅ hret) (by omega) (hstack.mono le_rfl hroom) hrsb

/-- A state with the same registers and the same memory. -/
private theorem Knows.jumped {m m' : Machine} (hk : Knows L params vars locals κ m) (hmem : m'.mem = m.mem)
    (hreg : m'.reg = m.reg) : Knows L params vars locals κ m' :=
  hk.pop (by rw [sp, hreg]; exact hk.frame.room) hmem (by rw [hreg]) (by rw [hreg])

private theorem frozen_of_jump {m m' : Machine} (hmem : m'.mem = m.mem) (hreg : m'.reg = m.reg) :
    m.Frozen params m' :=
  ⟨by rw [sp, hreg, sp], by rw [hreg], .of_eq hmem, .of_eq hmem⟩

/-- The code that leaves the function is jumped to. -/
theorem ret_runs {label : String} {tail : Program} (hlabel : initial label ≠ some 'f')
    (hret : L.code.Placed ret (.label label :: tail)) :
    StmtRuns L b params vars ret [.inst (.jmp label)] locals κ .leave locals κ := by
  intro lo hi a rest Q m hat hin hk _ leave
  refine Leads.jmp hat hlabel hret fun _ m₁ hpc₁ hmem₁ hreg₁ hr₁ => ?_
  exact (leave (fun _ => rfl) m₁ hpc₁ hr₁ (frozen_of_jump hmem₁ hreg₁) fun hb => (hk hb).jumped hmem₁ hreg₁).spend

/-- Jumping inside a part of the code. -/
private theorem at_jump {lo hi a t : Nat} {lines before after : Program} {m m' : Machine} (h : L.At lo hi a lines m)
    (hlines : lines = before ++ after) (ht : t = a + Program.size before) (hpc : m'.pc.toNat = t) (hr : L.Ready m') :
    L.At lo hi t after m' := by
  subst hlines ht
  exact h.moved hpc hr

/-- A statement is done if a test holds. -/
theorem condCode_runs {yes done : String} {t c : Program} (hdone : initial done ≠ some 'f')
    (ht : ExprRuns L b params vars locals t κ κ₁)
    (hc : (b = none → κ₁.last ≠ 0) → StmtRuns L b params vars ret c locals κ₁ flow locals' κ')
    (hskip : b = none → κ₁.last = 0 → flow = .next ∧ locals' = locals ∧ κ' = κ₁) :
    StmtRuns L b params vars ret (condCode yes done t c) locals κ flow locals' κ' := by
  intro lo hi a rest Q m hat hin hk next leave
  simp only [condCode, List.append_assoc, List.cons_append, List.nil_append] at hat
  have hsize : a + Program.size (condCode yes done t c) = a + Program.size t + 8 + Program.size c := by
    simp [condCode, Line.size, Instruction.jmpif, Instruction.jmp, Instruction.size, Opcode.size]
    omega
  rw [hsize] at next
  refine ht hat hk fun m₁ hat₁ hkept₁ hk₁ => ?_
  have hfr₁ := hkept₁.frozen hin
  have hyes : L.code.Placed (a + Program.size t + 8) (.label yes :: (c ++ .label done :: rest)) :=
    hat₁.placed.tail.tail
  have hend : L.code.Placed (a + Program.size t + 8 + Program.size c) (.label done :: rest) := hyes.tail.right
  refine Leads.jmpif hat₁ hyes (fun hz m₂ hpc₂ hmem₂ hreg₂ hr₂ => ?_) (fun hz m₂ hmem₂ hreg₂ hat₂ => ?_)
  · have hat₂ : L.At lo hi (a + Program.size t + 8) (.label yes :: (c ++ .label done :: rest)) m₂ :=
      at_jump hat₁ (show _ = [_, _] ++ _ from rfl) rfl hpc₂ hr₂
    have hfr₂ := hfr₁.trans (frozen_of_jump hmem₂ hreg₂)
    have hnz : b = none → κ₁.last ≠ 0 := fun hb => (hk₁ hb).store.last ▸ hz
    refine hc hnz hat₂.label (hfr₂.inFrame hin) (fun hb => (hk₁ hb).jumped hmem₂ hreg₂)
      (fun hf m₃ hat₃ hfr₃ => ?_) (fun hf m₃ hpc₃ hr₃ hfr₃ => leave hf m₃ hpc₃ hr₃ (hfr₂.trans hfr₃))
    exact next hf m₃ hat₃.label (hfr₂.trans hfr₃)
  · refine Leads.jmp hat₂ hdone hend fun _ m₃ hpc₃ hmem₃ hreg₃ hr₃ => ?_
    have hat₃ : L.At lo hi (a + Program.size t + 8 + Program.size c) (.label done :: rest) m₃ :=
      at_jump hat₂ (show _ = (_ :: _ :: c) ++ _ from rfl)
        (by simp [Line.size, Instruction.jmp, Instruction.size, Opcode.size]; omega) hpc₃ hr₃
    have hfr₃ := hfr₁.trans ((frozen_of_jump hmem₂ hreg₂).trans (frozen_of_jump hmem₃ hreg₃))
    have hzero : b = none → κ₁.last = 0 := fun hb => (hk₁ hb).store.last ▸ hz
    refine (next (fun hb => (hskip hb (hzero hb)).1) m₃ hat₃.label hfr₃ fun hb => ?_).spend
    rw [(hskip hb (hzero hb)).2.1, (hskip hb (hzero hb)).2.2]
    exact ((hk₁ hb).jumped hmem₂ hreg₂).jumped hmem₃ hreg₃

/-- A statement is done as long as a test holds. A round is followed by the same loop, with a smaller budget. -/
theorem loopCode_runs {head yes done : String} {t c : Program} (hhead : initial head ≠ some 'f')
    (hdone : initial done ≠ some 'f') (ht : ExprRuns L b params vars locals t κ κ₁)
    (hc : (b = none → κ₁.last ≠ 0) → StmtRuns L b params vars ret c locals κ₁ flow₁ locals₁ κ₂)
    (hagain : b ≠ some 0 → (b = none → κ₁.last ≠ 0 ∧ flow₁ = .next) →
      StmtRuns L b.spend params vars ret (loopCode head yes done t c) locals₁ κ₂ flow locals' κ')
    (hleave : b = none → κ₁.last ≠ 0 → flow₁ = .leave → flow = .leave ∧ locals' = locals₁ ∧ κ' = κ₂)
    (hskip : b = none → κ₁.last = 0 → flow = .next ∧ locals' = locals ∧ κ' = κ₁) :
    StmtRuns L b params vars ret (loopCode head yes done t c) locals κ flow locals' κ' := by
  intro lo hi a rest Q m hat₀ hin hk next leave
  have hat := hat₀
  simp only [loopCode, List.append_assoc, List.cons_append, List.nil_append] at hat
  have hsize : a + Program.size (loopCode head yes done t c) = a + Program.size t + 8 + Program.size c + 4 := by
    simp [loopCode, Line.size, Instruction.jmpif, Instruction.jmp, Instruction.size, Opcode.size]
    omega
  rw [hsize] at next
  refine ht hat.label hk fun m₁ hat₁ hkept₁ hk₁ => ?_
  have hfr₁ := hkept₁.frozen hin
  have hyes : L.code.Placed (a + Program.size t + 8)
      (.label yes :: (c ++ .inst (.jmp head) :: .label done :: rest)) := hat₁.placed.tail.tail
  have hend : L.code.Placed (a + Program.size t + 8 + Program.size c + 4) (.label done :: rest) := hyes.tail.right.tail
  refine Leads.jmpif hat₁ hyes (fun hz m₂ hpc₂ hmem₂ hreg₂ hr₂ => ?_) (fun hz m₂ hmem₂ hreg₂ hat₂ => ?_)
  · have hat₂ : L.At lo hi (a + Program.size t + 8)
        (.label yes :: (c ++ .inst (.jmp head) :: .label done :: rest)) m₂ :=
      at_jump hat₁ (show _ = [_, _] ++ _ from rfl) rfl hpc₂ hr₂
    have hfr₂ := hfr₁.trans (frozen_of_jump hmem₂ hreg₂)
    have hnz : b = none → κ₁.last ≠ 0 := fun hb => (hk₁ hb).store.last ▸ hz
    refine hc hnz hat₂.label (hfr₂.inFrame hin) (fun hb => (hk₁ hb).jumped hmem₂ hreg₂)
      (fun hf m₃ hat₃ hfr₃ hk₃ => ?_) (fun hf m₃ hpc₃ hr₃ hfr₃ hk₃ => ?_)
    · refine Leads.jmp hat₃ hhead hat.placed fun hb m₄ hpc₄ hmem₄ hreg₄ hr₄ => ?_
      have hat₄ : L.At lo hi a (loopCode head yes done t c ++ rest) m₄ :=
        ⟨hpc₄, hat₀.placed, hr₄, hat₀.lo_le, hat₀.le_hi⟩
      have hfr₄ := (hfr₂.trans hfr₃).trans (frozen_of_jump hmem₄ hreg₄)
      refine hagain hb (fun hn => ⟨hnz hn, hf hn⟩) hat₄ (hfr₄.inFrame hin)
        (fun hn => (hk₃ (Budget.spend_eq_none.mp hn)).jumped hmem₄ hreg₄)
        (fun hf' m₅ hat₅ hfr₅ hk₅ => ?_) (fun hf' m₅ hpc₅ hr₅ hfr₅ hk₅ => ?_)
      · rw [hsize] at hat₅
        exact (next (fun hn => hf' (Budget.spend_eq_none.mpr hn)) m₅ hat₅ (hfr₄.trans hfr₅)
          fun hn => hk₅ (Budget.spend_eq_none.mpr hn)).spend
      · exact (leave (fun hn => hf' (Budget.spend_eq_none.mpr hn)) m₅ hpc₅ hr₅ (hfr₄.trans hfr₅)
          fun hn => hk₅ (Budget.spend_eq_none.mpr hn)).spend
    · refine leave (fun hb => (hleave hb (hnz hb) (hf hb)).1) m₃ hpc₃ hr₃ (hfr₂.trans hfr₃) fun hb => ?_
      rw [(hleave hb (hnz hb) (hf hb)).2.1, (hleave hb (hnz hb) (hf hb)).2.2]
      exact hk₃ hb
  · refine Leads.jmp hat₂ hdone hend fun _ m₃ hpc₃ hmem₃ hreg₃ hr₃ => ?_
    have hlines : Line.inst (.jmp done) :: .label yes :: (c ++ .inst (.jmp head) :: .label done :: rest) =
        (.inst (.jmp done) :: .label yes :: (c ++ [.inst (.jmp head)])) ++ .label done :: rest := by simp
    have hat₃ : L.At lo hi (a + Program.size t + 8 + Program.size c + 4) (.label done :: rest) m₃ :=
      at_jump hat₂ hlines (by simp [Line.size, Instruction.jmp, Instruction.size, Opcode.size]; omega) hpc₃ hr₃
    have hfr₃ := hfr₁.trans ((frozen_of_jump hmem₂ hreg₂).trans (frozen_of_jump hmem₃ hreg₃))
    have hzero : b = none → κ₁.last = 0 := fun hb => (hk₁ hb).store.last ▸ hz
    refine (next (fun hb => (hskip hb (hzero hb)).1) m₃ hat₃.label hfr₃ fun hb => ?_).spend
    rw [(hskip hb (hzero hb)).2.1, (hskip hb (hzero hb)).2.2]
    exact ((hk₁ hb).jumped hmem₂ hreg₂).jumped hmem₃ hreg₃

section
variable {n entry : Nat} {values : List UInt16} {m : Machine}

/-- The parameters of a function are where the caller has put the arguments. -/
theorem Knows.enter {m₄ : Machine} (hin : m₄.InFrame n vars) (hreach : n ≤ 62) (hstore : Holds L κ m₄)
    (hsb : m₄.sb = m.sp + 2) (hsame : m.mem.Same 0x8000 m.sp m₄.mem) (hdeep : 0x8002 + 2 * n ≤ m.sp)
    (hlen : values.length = n)
    (hvalues : ∀ i w, values[i]? = some w → m.mem.load (m.sp - 2 - 2 * (n - i)).toUInt16 = w) :
    Knows L n vars (.ofArgs values) κ m₄ := by
  refine ⟨hin, hstore, fun v w hv => ?_⟩
  cases v with
  | var k => cases hv
  | param i =>
    have hi : i < n := hlen ▸ (List.getElem?_eq_some_iff.mp hv).1
    have hw : (LocalVar.param i).Within n vars := by
      refine ⟨hi, ?_⟩
      simp only [LocalVar.offset]
      omega
    have hlt : m.sp < 0x10000 := (m.reg .rsp).toNat_lt
    have hnat := (hin.toNat_place hw).1
    have hplace : m₄.place n (.param i) = (m.sp - 2 - 2 * (n - i)).toUInt16 := by
      apply UInt16.toNat_inj.mp
      rw [toNat_toUInt16 (by omega)]
      simp only [LocalVar.offset] at hnat
      omega
    have hnat' : (m.sp - 2 - 2 * (n - i)).toUInt16.toNat = m.sp - 2 - 2 * (n - i) := toNat_toUInt16 (by omega)
    refine ⟨hw, ?_⟩
    rw [hplace, hsame.load (by omega) (by omega) (by omega)]
    exact hvalues i w hv

/-- The frame of a function is taken off, and the links are put back into their registers. Here `m` is the machine
when the function was entered and `m₄` when its frame was made. -/
theorem epilogue_runs {name : String} {a : Nat} {m₄ m₅ : Machine}
    (hat : L.At 0 (Program.size L.code) a (epilogue name) m₅) (hfr : m₄.Frozen n m₅) (hsb₄ : m₄.sb = m.sp + 2)
    (hmem₄ : m₄.mem = m.mem.store (m.reg .rsp) (m.reg .rsb)) (hr : L.Ready m) (hdeep : 0x8002 + 2 * n ≤ m.sp)
    (hfit : m.sp + 1 < 0x10000) (hk : b = none → Holds L κ' m₅) :
    Leads L 0 (Program.size L.code) (Returning L b n κ' m) b 0 m₅ := by
  have heven := hr.even
  have hsb₅ : (m₅.reg .rsb).toNat = m.sp + 2 := hfr.sb.trans hsb₄
  have plain : (Instruction.mov .rsb .rsp).Plain := ⟨by decide, by decide, rfl, rfl⟩
  refine Leads.setsSp hat.label plain rfl rfl (by omega) fun m₆ hs₆ hat₆ => ?_
  have hsp₆ : m₆.sp = m.sp + 2 := by rw [sp, hs₆.reg, hsb₅]
  refine Leads.pop hat₆ (by simp) (by omega) fun m₇ hmem₇ hsp₇ htop₇ hreg₇ hat₇ => ?_
  refine Leads.pop hat₇ (by simp) (by omega) fun m₈ hmem₈ hsp₈ htop₈ hreg₈ hat₈ => ?_
  have hmem : m₈.mem = m₅.mem := by rw [hmem₈, hmem₇, hs₆.mem]
  -- the links lie right below the base
  have hsp₇' : m₇.reg .rsp = m.reg .rsp := by
    apply UInt16.toNat_inj.mp
    show m₇.sp = m.sp
    omega
  have hbase : m₆.reg .rsp - 2 = m.reg .rsp := rsp_sub_two hsp₆
  have hback := m.toNat_rsp_sub_two (by omega)
  have hrsb : m₈.reg .rsb = m.reg .rsb := by
    rw [hreg₈ .rsb (by simp) (by simp), htop₇, hbase, hs₆.mem,
      hfr.links.load (by rw [hsb₄, sp]; omega) (by rw [hsb₄, sp]; omega) hfit, hmem₄, Memory.load_store]
  have hkeep : m.mem.Same 0 m.sp m₄.mem := by
    rw [hmem₄]
    exact .store _ _ hfit (.inl le_rfl)
  have haddr : m₈.reg .raddr = m.mem.load (m.reg .rsp - 2) := by
    rw [htop₈, hsp₇', hmem₇, hs₆.mem, hfr.links.load (by omega) (by omega) (by omega),
      hkeep.load (by omega) (by omega) (by omega)]
  refine .done ⟨hat₈.pc ▸ hat₈.placed.head, hat₈.ready, haddr, by omega, hrsb, ?_, fun hb => ?_⟩
  · rw [hmem]
    exact (hkeep.mono (Nat.zero_le _) (by omega)).trans (hfr.below.mono le_rfl (by omega))
  · refine (hk hb).of_same (.of_eq hmem) ?_
    rw [hreg₈ .rret (by simp) (by simp), hreg₇ .rret (by simp) (by simp), hs₆.others .rret (by simp), (hk hb).last]

/-- A function saves the base of its caller, begins a new frame, runs its body and takes the frame off again. -/
theorem function_runs {name : String} {c : Program} {size : UInt16} (hsize : size.toNat = 2 * vars) (hvars : vars ≤ 64)
    (hreach : n ≤ 62) (hplaced : L.code.Placed entry (prologue name size ++ (c ++ epilogue name)))
    (hbody : StmtRuns L b n vars (entry + 16 + Program.size c) c (.ofArgs values) κ flow locals' κ') :
    FunctionRuns L b entry n values κ κ' := by
  intro m hpc hr hdeep hknown
  have hat : L.At 0 (Program.size L.code) entry (prologue name size ++ (c ++ epilogue name)) m :=
    ⟨hpc, hplaced, hr, Nat.zero_le _, hplaced.add_size_le⟩
  have heven := hr.even
  refine Leads.push hat.label fun m₁ hmem₁ hsp₁ hreg₁ hat₁ => ?_
  refine Leads.mov hat₁ (by simp) fun m₂ hs₂ hat₂ => ?_
  refine Leads.imm hat₂ (by simp) fun m₃ hs₃ hat₃ => ?_
  have hsb₃ : (m₃.reg .rsb).toNat = m.sp + 2 := by
    rw [hs₃.others .rsb (by simp), hs₂.reg]
    exact hsp₁
  have hsum : (m₃.reg .rsb + m₃.reg .r2).toNat = (m.sp + 2 + 2 * vars) % 0x10000 := by
    rw [UInt16.toNat_add, hs₃.reg, hsize, hsb₃]
  have plain : (Instruction.alu .add .rsb .r2 .rsp).Plain := ⟨by decide, by decide, rfl, rfl⟩
  refine Leads.setsSp hat₃ plain rfl rfl (by omega) fun m₄ hs₄ hat₄ => ?_
  -- the frame is on the stack
  have hlt : m₁.sp < 0x10000 := (m₁.reg .rsp).toNat_lt
  have habove := hat₄.ready.above
  have hsp₄ : m₄.sp = m.sp + 2 + 2 * vars := by
    have : m₄.sp = (m.sp + 2 + 2 * vars) % 0x10000 := by rw [sp, hs₄.reg, hsum]
    omega
  have hsb₄ : m₄.sb = m.sp + 2 := by rw [sb, hs₄.others .rsb (by simp), hsb₃]
  have hin₄ : m₄.InFrame n vars := ⟨by omega, by omega⟩
  have hmem₄ : m₄.mem = m.mem.store (m.reg .rsp) (m.reg .rsb) := by rw [hs₄.mem, hs₃.mem, hs₂.mem, hmem₁]
  have hbelow₄ : m.mem.Same 0 m.sp m₄.mem := by
    rw [hmem₄]
    exact .store _ _ (by simp only [sp] at *; omega) (.inl le_rfl)
  have hk₄ : b = none → Knows L n vars (.ofArgs values) κ m₄ := by
    intro hb
    obtain ⟨hstore, hlen, hvalues⟩ := hknown hb
    have hret : m₄.reg .rret = κ.last := by
      rw [hs₄.others .rret (by simp), hs₃.others .rret (by simp), hs₂.others .rret (by simp), hreg₁ .rret (by simp),
        hstore.last]
    exact Knows.enter hin₄ hreach (hstore.of_same (hbelow₄.mono le_rfl (by omega)) hret) hsb₄
      (hbelow₄.mono (Nat.zero_le _) le_rfl) hdeep hlen hvalues
  have hfit : m.sp + 1 < 0x10000 := by omega
  refine hbody hat₄ hin₄ hk₄ (fun _ m₅ hat₅ hfr₅ hk₅ => ?_) (fun _ m₅ hpc₅ hr₅ hfr₅ hk₅ => ?_)
  · exact epilogue_runs hat₅ hfr₅ hsb₄ hmem₄ hr hdeep hfit fun hb => (hk₅ hb).store
  · have hat₄' : L.At 0 (Program.size L.code) (entry + 16) (c ++ epilogue name) m₄ := hat₄
    exact epilogue_runs (hat₄'.moved hpc₅ hr₅) hfr₅ hsb₄ hmem₄ hr hdeep hfit fun hb => (hk₅ hb).store

end

end StackToolchain
