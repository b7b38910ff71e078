import StackToolchain.Proofs.Machine.Faults

/-! Signed division of words.
Registers hold unsigned words; division and remainder read them as signed numbers. The truncated quotient of two signed
words is a signed word again but for one pair: the least number divided by minus one wraps to itself. -/
namespace StackToolchain

/-- A word read as a signed number in two's complement. -/
def signedValue (w : UInt16) : Int :=
  if w.toNat < 0x8000 then w.toNat else w.toNat - 0x10000

private theorem signedValue_eq_toInt (w : UInt16) : signedValue w = w.toInt16.toInt := by
  have hcond : w.toInt16.toInt = if 2 * w.toNat < 2 ^ 16 then (w.toNat : Int) else w.toNat - (2 ^ 16 : Nat) :=
    BitVec.toInt_eq_toNat_cond w.toBitVec
  rw [hcond, signedValue]
  split_ifs <;> omega

private theorem signedValue_toUInt16 (v : Int16) : signedValue v.toUInt16 = v.toInt := by
  rw [signedValue_eq_toInt, Int16.toInt16_toUInt16]

private theorem signedValue_eq_zero_iff {w : UInt16} : signedValue w = 0 ↔ w = 0 := by
  have hlt := w.toNat_lt
  rw [← UInt16.toNat_inj, signedValue]
  change _ ↔ w.toNat = 0
  split_ifs <;> omega

section
variable {v w : Int16}

/-- Quotient and remainder give the dividend back, also where the quotient wraps. -/
theorem quotient_mul_add_remainder : v / w * w + v % w = v := by
  apply Int16.toInt_inj.mp
  calc (v / w * w + v % w).toInt
      = (v.toInt.tdiv w.toInt * w.toInt + v.toInt.tmod w.toInt).bmod (2 ^ 16) := by
        rw [Int16.toInt_add, Int16.toInt_mul, Int16.toInt_div, Int16.toInt_mod, Int.bmod_mul_bmod, Int.bmod_add_bmod]
    _ = v.toInt.bmod (2 ^ 16) := by rw [Int.tdiv_mul_add_tmod]
    _ = v.toInt := Int.bmod_eq_of_le v.le_toInt v.toInt_lt

private theorem abs_remainder_lt (h : w.toInt ≠ 0) : |(v % w).toInt| < |w.toInt| := by
  rw [Int16.toInt_mod, Int.abs_eq_natAbs, Int.abs_eq_natAbs, Int.natAbs_tmod]
  exact Int.ofNat_lt.mpr (Nat.mod_lt _ (Int.natAbs_pos.mpr h))

private theorem remainder_sign : (v % w).toInt = 0 ∨ (v % w).toInt.sign = v.toInt.sign := by
  rw [Int16.toInt_mod]
  by_cases hd : w.toInt ∣ v.toInt
  · exact .inl (Int.tmod_eq_zero_of_dvd hd)
  · exact .inr (by rw [Int.sign_tmod, if_neg hd])

/-- The quotient is truncated toward zero where that is a signed word. -/
theorem quotient_truncates (h : ¬ (v.toInt = -32768 ∧ w.toInt = -1)) :
    (v / w).toInt = v.toInt.tdiv w.toInt := by
  by_cases hw : w = -1
  · refine Int16.toInt_div_of_ne_left v w fun hv => h ⟨?_, ?_⟩
    · rw [hv]
      rfl
    · rw [hw]
      rfl
  · exact Int16.toInt_div_of_ne_right v w hw

/-- The least number divided by minus one gives itself, and nothing remains. -/
theorem quotient_wraps (hv : v.toInt = -32768) (hw : w.toInt = -1) : v / w = v ∧ v % w = 0 := by
  obtain rfl : v = .minValue := Int16.toInt_inj.mp hv
  obtain rfl : w = -1 := Int16.toInt_inj.mp hw
  exact ⟨Int16.minValue_div_neg_one, rfl⟩

end

/-- Division and remainder have no value exactly if the divisor is zero. Otherwise quotient and remainder give the
dividend back; the remainder is smaller than the divisor and is zero or has the sign of the dividend; and the quotient
is truncated toward zero, except that the least number divided by minus one gives itself and nothing remains. -/
theorem division_is_exact (a b : UInt16) :
    (Opcode.eval (.alu .div) a b = none ↔ b = 0) ∧ (Opcode.eval (.alu .mod) a b = none ↔ b = 0) ∧
      (b ≠ 0 → ∃ q r, Opcode.eval (.alu .div) a b = some q ∧ Opcode.eval (.alu .mod) a b = some r ∧
        q * b + r = a ∧ |signedValue r| < |signedValue b| ∧
          (r = 0 ∨ (signedValue r).sign = (signedValue a).sign) ∧
            if signedValue a = -32768 ∧ signedValue b = -1 then signedValue q = -32768 ∧ r = 0
            else signedValue q = (signedValue a).tdiv (signedValue b)) := by
  refine ⟨by simp [Opcode.eval, AluOp.eval_eq_none], by simp [Opcode.eval, AluOp.eval_eq_none], fun hb => ?_⟩
  refine ⟨_, _, (AluOp.eval_div a b).trans (if_neg hb), (AluOp.eval_mod a b).trans (if_neg hb), ?_, ?_, ?_, ?_⟩
  · calc (a.toInt16 / b.toInt16).toUInt16 * b + (a.toInt16 % b.toInt16).toUInt16
        = (a.toInt16 / b.toInt16 * b.toInt16 + a.toInt16 % b.toInt16).toUInt16 := by
          rw [Int16.toUInt16_add, Int16.toUInt16_mul, UInt16.toUInt16_toInt16]
      _ = a := by rw [quotient_mul_add_remainder, UInt16.toUInt16_toInt16]
  · have hne : b.toInt16.toInt ≠ 0 := by
      rw [← signedValue_eq_toInt]
      exact fun hz => hb (signedValue_eq_zero_iff.mp hz)
    rw [signedValue_toUInt16, signedValue_eq_toInt b]
    exact abs_remainder_lt hne
  · rw [← signedValue_eq_zero_iff, signedValue_toUInt16, signedValue_eq_toInt a]
    exact remainder_sign
  · rw [← signedValue_eq_zero_iff, signedValue_toUInt16 (a.toInt16 / b.toInt16),
      signedValue_toUInt16 (a.toInt16 % b.toInt16), signedValue_eq_toInt a, signedValue_eq_toInt b]
    split_ifs with hlimit
    · obtain ⟨hq, hr⟩ := quotient_wraps hlimit.1 hlimit.2
      rw [hq, hr]
      exact ⟨hlimit.1, rfl⟩
    · exact quotient_truncates hlimit

theorem division_is_exact_at_limit :
    (0xFFFF : UInt16) ≠ 0 ∧ signedValue 0x8000 = -32768 ∧ signedValue 0xFFFF = -1 ∧
      ∃ q r, Opcode.eval (.alu .div) 0x8000 0xFFFF = some q ∧ Opcode.eval (.alu .mod) 0x8000 0xFFFF = some r ∧
        q * 0xFFFF + r = 0x8000 ∧ signedValue q = -32768 ∧ r = 0 := by
  obtain ⟨q, r, hq, hr, hlaw, -, -, hlimit⟩ := (division_is_exact 0x8000 0xFFFF).2.2 (by decide)
  rw [if_pos (by decide)] at hlimit
  exact ⟨by decide, by decide, by decide, q, r, hq, hr, hlaw, hlimit⟩

end StackToolchain
