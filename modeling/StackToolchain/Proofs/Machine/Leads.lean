import StackToolchain.Proofs.Compiler.Fragments
import StackToolchain.Proofs.Machine.Linked

/-! Runs of linked code.
`Leads` says what a run from a state comes to. With a budget of steps it is followed that far, and stops early at
a division by zero or at a store outside the free memory; without a budget it must arrive. Either way every
state on the path has the code intact, and calls are counted against returns. -/
namespace StackToolchain

namespace Machine

def sp (m : Machine) : Nat := (m.reg .rsp).toNat

def sb (m : Machine) : Nat := (m.reg .rsb).toNat

def count (p : Machine → Bool) : Nat → Machine → Nat
  | 0, _ => 0
  | n + 1, m => (p m).toNat + count p n m.exec.2

theorem count_add {p : Machine → Bool} {n : Nat} {m m' : Machine} (h : m.after n = some m') (k : Nat) :
    m.count p (n + k) = m.count p n + m'.count p k := by
  induction n generalizing m with
  | zero =>
    cases h
    rw [Nat.zero_add, count, Nat.zero_add]
  | succ n ih =>
    obtain ⟨i, next, hx, h⟩ := after_succ_eq_some h
    have hnext : m.exec.2 = next := congrArg Prod.snd hx
    rw [Nat.add_right_comm, count, count, hnext, ih h, Nat.add_assoc]

/-- If the next instruction is the store of a statement that writes memory, it stores between the program and the
stack. -/
def WritesFree (low : Nat) (m : Machine) : Prop :=
  m.fetch = .ok (.memw .rexpr .rret 0) → low ≤ (m.reg .rexpr).toNat ∧ (m.reg .rexpr).toNat ≤ 0x7FFE

/-- In a number of steps the stack does not wrap, and statements write memory only between the program and the
stack. -/
structure Behaves (low n : Nat) (m : Machine) : Prop where
  above : ∀ k ≤ n, ∀ x, m.after k = some x → 0x8000 ≤ x.sp
  writes : ∀ k < n, ∀ x, m.after k = some x → x.WritesFree low

theorem Behaves.mono {low n k : Nat} {m : Machine} (h : m.Behaves low n) (hk : k ≤ n) : m.Behaves low k where
  above j hj := h.above j (hj.trans hk)
  writes j hj := h.writes j (hj.trans_le hk)

/-- What comes later in a run behaves as well. -/
theorem Behaves.after {low n k : Nat} {m m' : Machine} (h : m.Behaves low (n + k)) (hrun : m.after n = some m') :
    m'.Behaves low k where
  above j hj x hx := h.above (n + j) (by omega) x (after_add hrun j ▸ hx)
  writes j hj x hx := h.writes (n + j) (by omega) x (after_add hrun j ▸ hx)

end Machine

def Instruction.isCall (i : Instruction) : Bool :=
  decide (i.op = .jmp) && i.args.any fun
    | .ref label => "func_".toList.isPrefixOf label.toList
    | _ => false

def Instruction.isReturn (i : Instruction) : Bool :=
  decide (i.op = .jmpr)

def Program.calling (p : Program) (m : Machine) : Bool :=
  (p.instAt m.pc.toNat).any Instruction.isCall

def Program.returning (p : Program) (m : Machine) : Bool :=
  (p.instAt m.pc.toNat).any Instruction.isReturn

@[simp] theorem Instruction.isCall_jmp_functionLabel (name : String) : (jmp (functionLabel name)).isCall = true := by
  simp [isCall, jmp, functionLabel]

theorem Instruction.isCall_jmp {label : String} (h : initial label ≠ some 'f') : (jmp label).isCall = false := by
  have hno : ¬ "func_".toList <+: label.toList := by
    rintro ⟨rest, hr⟩
    simp [initial, ← hr] at h
  rw [← List.isPrefixOf_iff_prefix, Bool.not_eq_true] at hno
  simpa [isCall, jmp] using hno

namespace Linked

structure Ready (L : Linked) (m : Machine) : Prop where
  intact : L.Intact m
  above : 0x8000 ≤ m.sp
  even : m.sp % 2 = 0

/-- A state at an instruction of the code, inside a part of it unless calls are pending. -/
structure Poised (L : Linked) (lo hi k : Nat) (m : Machine) : Prop where
  ready : L.Ready m
  inst : ∃ i, L.code.instAt m.pc.toNat = some i ∧ i.op ≠ .word ∧ i.op ≠ .halt
  within : 0 < k ∨ lo ≤ m.pc.toNat ∧ m.pc.toNat < hi

/-- Inside a pending call a run may be anywhere. -/
theorem Poised.below {L : Linked} {lo hi lo' hi' k d : Nat} {m : Machine} (h : L.Poised lo hi k m) (hd : 0 < d) :
    L.Poised lo' hi' (k + d) m :=
  ⟨h.ready, h.inst, .inl (by omega)⟩

end Linked

abbrev Budget := Option Nat

def Budget.spend (b : Budget) : Budget := b.map Nat.pred

@[simp] theorem Budget.spend_eq_none {b : Budget} : b.spend = none ↔ b = none := by
  simp [Budget.spend]

/-- A run inside a part of the code comes to a state with a property and without pending calls, or the stack
wraps, or the budget ends, or the run stops early. -/
inductive Leads (L : Linked) (lo hi : Nat) (Q : Machine → Prop) : Budget → Nat → Machine → Prop
  | done {b m} : Q m → Leads L lo hi Q b 0 m
  | wrapped {b k m} : m.sp < 0x8000 → Leads L lo hi Q b k m
  -- the budget is used up here
  | cut {k m} : L.Poised lo hi k m → Leads L lo hi Q (some 0) k m
  -- the next instruction faults, or stores where it must not
  | stop {n k m} : L.Poised lo hi k m →
      m.exec.1 = .error (.divisionByZero m.pc) ∨ ¬ m.WritesFree L.bytes.length → Leads L lo hi Q (some n) k m
  -- the number of pending calls follows calls and returns
  | step {b k k' i m m'} : L.Poised lo hi k m → m.exec = (.ok i, m') →
      k + (L.code.calling m).toNat = k' + (L.code.returning m).toNat → Leads L lo hi Q b.spend k' m' →
        Leads L lo hi Q b k m

namespace Leads

variable {L : Linked} {lo hi a k : Nat} {Q : Machine → Prop} {b : Budget} {m m' : Machine} {rest : Program}

/-- What holds for a budget holds for a smaller one. -/
theorem spend (h : Leads L lo hi Q b k m) : Leads L lo hi Q b.spend k m := by
  induction h with
  | done hq => exact .done hq
  | wrapped hw => exact .wrapped hw
  | cut hp => exact .cut hp
  | stop hp hs => exact .stop hp hs
  | step hp hx hk _ ih => exact .step hp hx hk ih

/-- A run inside pending calls is continued where it arrives. -/
theorem bind {lo' hi' d : Nat} {R : Machine → Prop} (h : Leads L lo hi Q b k m) (hd : 0 < d)
    (cont : ∀ m', Q m' → Leads L lo' hi' R b d m') : Leads L lo' hi' R b (k + d) m := by
  induction h with
  | done hq =>
    rw [Nat.zero_add]
    exact cont _ hq
  | wrapped hw => exact .wrapped hw
  | cut hp => exact .cut (hp.below hd)
  | stop hp hs => exact .stop (hp.below hd) hs
  | step hp hx hk _ ih => exact .step (hp.below hd) hx (by omega) (ih fun m' hq => (cont m' hq).spend)

/-- A run within a budget has arrived, or it is still under way. -/
theorem reach {n : Nat} (h : Leads L lo hi Q (some n) k m) (hrun : m.after n = some m')
    (hb : m.Behaves L.bytes.length n) :
    (∃ j ≤ n, ∃ x, m.after j = some x ∧ Q x ∧ k + m.count L.code.calling j = m.count L.code.returning j) ∨
      ∃ k', L.Poised lo hi k' m' ∧ k + m.count L.code.calling n = k' + m.count L.code.returning n := by
  generalize hn : some n = b at h
  induction h generalizing n with
  | done hq => exact .inl ⟨0, Nat.zero_le n, _, rfl, hq, rfl⟩
  | wrapped hw =>
    have := hb.above 0 (Nat.zero_le n) _ rfl
    omega
  | cut hp =>
    cases hn
    cases hrun
    exact .inr ⟨_, hp, rfl⟩
  | @stop _ k m hp hs =>
    cases n with
    | zero =>
      cases hrun
      exact .inr ⟨k, hp, rfl⟩
    | succ n =>
      obtain ⟨i, next, hx, -⟩ := Machine.after_succ_eq_some hrun
      rcases hs with hs | hs
      · simp [hx] at hs
      · exact absurd (hb.writes 0 (Nat.succ_pos n) m rfl) hs
  | @step _ k k' i m next hp hx hk _ ih =>
    subst hn
    cases n with
    | zero =>
      cases hrun
      exact .inr ⟨k, hp, rfl⟩
    | succ n =>
      have hafter : ∀ j, m.after (j + 1) = next.after j := Machine.after_succ hx
      have hcount : ∀ p j, m.count p (j + 1) = (p m).toNat + next.count p j := by
        intro p j
        simp only [Machine.count, hx]
      have hb' : next.Behaves L.bytes.length n := Machine.Behaves.after (n.add_comm 1 ▸ hb) (hafter 0)
      rw [hafter] at hrun
      rcases ih hrun hb' rfl with ⟨j, hj, x, h, hq, hd⟩ | ⟨k'', hp', hd⟩
      · exact .inl ⟨j + 1, by omega, x, hafter j ▸ h, hq, by rw [hcount, hcount]; omega⟩
      · exact .inr ⟨k'', hp', by rw [hcount, hcount]; omega⟩

/-- A run without a limit arrives, unless the stack wraps. -/
theorem arrive (h : Leads L lo hi Q none k m) (running : m.halted = false) :
    ∃ n, (∃ j ≤ n, ∃ x, m.after j = some x ∧ x.sp < 0x8000) ∨
      ∃ x, m.after n = some x ∧ Q x ∧ x.halted = false ∧ ∀ t, m.run (n + t) = x.run t := by
  generalize hb : none = b at h
  induction h with
  | @done _ m hq => exact ⟨0, .inr ⟨m, rfl, hq, running, fun t => by rw [Nat.zero_add]⟩⟩
  | @wrapped _ _ m hw => exact ⟨0, .inl ⟨0, le_rfl, m, rfl, hw⟩⟩
  | cut => cases hb
  | stop => cases hb
  | @step _ k k' i m next hp hx hk _ ih =>
    subst hb
    obtain ⟨j, hj, hop, hnh⟩ := hp.inst
    obtain rfl : i = j.resolve L.labels.get? := by
      rcases hp.ready.intact.exec hj hop with ⟨x, he⟩ | he <;> rw [hx] at he <;> cases he
      rfl
    have hrun := (Machine.halted_exec hx hnh).trans running
    obtain ⟨n, ⟨j, hj, x, h, hw⟩ | ⟨x, h, hq, hh, ht⟩⟩ := ih hrun rfl
    · exact ⟨n + 1, .inl ⟨j + 1, by omega, x, (Machine.after_succ hx j).trans h, hw⟩⟩
    · refine ⟨n + 1, .inr ⟨x, (Machine.after_succ hx n).trans h, hq, hh, fun t => ?_⟩⟩
      rw [Nat.add_right_comm, Machine.run_succ hx running, ht]

end Leads

end StackToolchain
