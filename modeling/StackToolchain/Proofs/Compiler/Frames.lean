import StackToolchain.Proofs.Compiler.Declarations
import StackToolchain.Proofs.Machine.Rules

/-! Frames, and what the machine holds of an evaluation.
A frame has the parameters below its base, then the return address and the saved base, and the other variables
from the base up. Runs without a budget carry the state of an evaluation in registers and memory. -/
namespace StackToolchain

open Source Machine

private theorem toNat_signedOffset (v : Int8) : ((signedOffset v).toNat : Int) = v.toInt % 0x10000 := by
  have h : (signedOffset v).toNat = (v.toBitVec.signExtend 16).toNat := rfl
  have hv : v.toInt = v.toBitVec.toInt := rfl
  rw [h, hv, ← BitVec.toInt_signExtend_of_le (v := 16) (by omega : 8 ≤ 16), BitVec.toInt_eq_toNat_cond]
  have := (BitVec.signExtend 16 v.toBitVec).isLt
  split <;> omega

/-- An offset reaches what it should as long as it stays in memory. -/
theorem toNat_add_signedOffset {x : UInt16} {n : Int} (hlo : -128 ≤ n) (hhi : n ≤ 127) (h0 : 0 ≤ x.toNat + n)
    (h1 : x.toNat + n < 0x10000) : ((x + signedOffset (Int8.ofInt n)).toNat : Int) = x.toNat + n := by
  have hoff := toNat_signedOffset (Int8.ofInt n)
  rw [Int8.toInt_ofInt_of_le (by simpa using hlo) (by omega)] at hoff
  rw [UInt16.toNat_add]
  omega

namespace Machine

structure InFrame (params vars : Nat) (m : Machine) : Prop where
  below : 0x8004 + 2 * params ≤ m.sb
  room : m.sb + 2 * vars ≤ m.sp

structure Kept (m m' : Machine) : Prop where
  sp : m'.sp = m.sp
  rsb : m'.reg .rsb = m.reg .rsb
  stack : m.mem.Same 0x8000 m.sp m'.mem

theorem Kept.trans {m m' m'' : Machine} (h : m.Kept m') (h' : m'.Kept m'') : m.Kept m'' :=
  ⟨h'.sp.trans h.sp, h'.rsb.trans h.rsb, h.stack.trans (h.sp ▸ h'.stack)⟩

/-- The stack pointer and the base are the same again. On the stack, only the variables of a frame with a number
of parameters have changed. -/
structure Frozen (params : Nat) (m m' : Machine) : Prop where
  sp : m'.sp = m.sp
  rsb : m'.reg .rsb = m.reg .rsb
  below : m.mem.Same 0x8000 (m.sb - 4 - 2 * params) m'.mem
  links : m.mem.Same (m.sb - 4) m.sb m'.mem

namespace Frozen

variable {params : Nat} {m m' m'' : Machine}

theorem sb (h : m.Frozen params m') : m'.sb = m.sb :=
  congrArg UInt16.toNat h.rsb

theorem trans (h : m.Frozen params m') (h' : m'.Frozen params m'') : m.Frozen params m'' :=
  ⟨h'.sp.trans h.sp, h'.rsb.trans h.rsb, h.below.trans (h.sb ▸ h'.below), h.links.trans (h.sb ▸ h'.links)⟩

theorem inFrame {vars : Nat} (h : m.Frozen params m') (hm : m.InFrame params vars) : m'.InFrame params vars :=
  ⟨h.sb ▸ hm.below, h.sb ▸ h.sp ▸ hm.room⟩

end Frozen

theorem Kept.frozen {params vars : Nat} {m m' : Machine} (h : m.Kept m') (hm : m.InFrame params vars) :
    m.Frozen params m' := by
  have hbelow := hm.below
  have hroom := hm.room
  exact ⟨h.sp, h.rsb, h.stack.mono le_rfl (by omega), h.stack.mono (by omega) (by omega)⟩

end Machine

def Machine.place (m : Machine) (params : Nat) (v : LocalVar) : UInt16 :=
  m.reg .rsb + signedOffset (Int8.ofInt (v.offset params))

/-- Variables of a frame have their words apart from the links and from each other. -/
theorem Machine.InFrame.toNat_place {params vars : Nat} {m : Machine} (hm : m.InFrame params vars) {v : LocalVar}
    (hv : v.Within params vars) : ((m.place params v).toNat : Int) = m.sb + v.offset params ∧
      0x8000 ≤ (m.place params v).toNat ∧ m.sb - 4 - 2 * params ≤ (m.place params v).toNat ∧
        (m.place params v).toNat + 1 < m.sb + 2 * vars ∧
          ((m.place params v).toNat + 1 < m.sb - 4 ∨ m.sb ≤ (m.place params v).toNat) := by
  obtain ⟨hin, hlo, hhi⟩ := hv
  have hbelow := hm.below
  have hroom := hm.room
  have hlt : m.sp < 0x10000 := (m.reg .rsp).toNat_lt
  have hnat : ((m.place params v).toNat : Int) = m.sb + v.offset params := by
    refine toNat_add_signedOffset hlo hhi ?_ ?_ <;> cases v <;>
      simp only [LocalVar.offset, Machine.sb] at hin hbelow hroom ⊢ <;> omega
  refine ⟨hnat, ?_⟩
  cases v <;> simp only [LocalVar.offset] at hin hnat <;> omega

/-- Different variables of a frame have different words. -/
theorem Machine.InFrame.place_apart {params vars : Nat} {m : Machine} (hm : m.InFrame params vars) {v w : LocalVar}
    (hv : v.Within params vars) (hw : w.Within params vars) (hne : v ≠ w) :
    (m.place params v).toNat + 1 < (m.place params w).toNat ∨
      (m.place params w).toNat + 1 < (m.place params v).toNat := by
  have hv' := (hm.toNat_place hv).1
  have hw' := (hm.toNat_place hw).1
  have hin := hv.1
  have hin' := hw.1
  cases v <;> cases w <;> simp only [LocalVar.offset, ne_eq, LocalVar.param.injEq, LocalVar.var.injEq] at * <;> omega

namespace Program

private theorem label_eq_of_append {before mid after after' : Program} {l l' : String} {i i' : Instruction}
    (h : Line.label l :: .inst i :: after = mid ++ .label l' :: .inst i' :: after')
    (hsize : size before = size (before ++ mid)) : l = l' := by
  match mid with
  | [] => simpa using (List.cons.inj h).1
  | [x] => simp at h
  | x :: y :: mid =>
    simp only [List.cons_append, List.cons.injEq] at h
    obtain ⟨rfl, rfl, -⟩ := h
    have := i.size_pos
    simp only [size_append, size_cons, Line.size] at hsize
    omega

/-- An instruction has at most one label right before it. -/
theorem Placed.label_eq {p : Program} {a : Nat} {l l' : String} {i i' : Instruction}
    (h : p.Placed a [.label l, .inst i]) (h' : p.Placed a [.label l', .inst i']) : l = l' := by
  obtain ⟨before, after, hp, hs⟩ := h
  obtain ⟨before', after', hp', hs'⟩ := h'
  rw [hp] at hp'
  simp only [List.cons_append, List.nil_append] at hp'
  rcases List.append_eq_append_iff.mp hp' with ⟨mid, rfl, hm⟩ | ⟨mid, rfl, hm⟩
  · exact label_eq_of_append hm (hs.trans hs'.symm)
  · exact (label_eq_of_append hm (hs'.trans hs.symm)).symm

end Program

namespace Linked

variable {L : Linked} {g g' : String} {a a' : Nat}

theorem Record.add_four_le (h : L.Record g a) : a + 4 ≤ L.bytes.length :=
  add_size_le h.instAt

theorem Record.cell (h : L.Record g a) : L.Cell (a + 2) ∧ L.Cell (a + 3) :=
  ⟨⟨g, a, h, .inl rfl⟩, ⟨g, a, h, .inr rfl⟩⟩

theorem Record.toNat (h : L.Record g a) : (a + 2).toUInt16.toNat = a + 2 := by
  have := h.add_four_le
  have := L.small
  exact toNat_toUInt16 (by omega)

/-- The word of a record is reached from its label. -/
theorem Record.cellOffset (h : L.Record g a) : a.toUInt16 + signedOffset cellOffset = (a + 2).toUInt16 := by
  have hle := h.add_four_le
  have hsmall := L.small
  have htwo : (signedOffset StackToolchain.cellOffset).toNat = 2 := rfl
  apply UInt16.toNat_inj.mp
  rw [h.toNat, UInt16.toNat_add, toNat_toUInt16 (by omega), htwo]
  exact Nat.mod_eq_of_lt (by omega)

/-- A global variable has one record. -/
theorem Record.unique (h : L.Record g a) (h' : L.Record g a') : a = a' := by
  obtain ⟨hget, hnat⟩ := address_of_placed h
  obtain ⟨hget', hnat'⟩ := address_of_placed h'
  rw [hget] at hget'
  rw [← hnat, Option.some.inj hget', hnat']

/-- Different global variables have different records. -/
theorem Record.apart (h : L.Record g a) (h' : L.Record g' a') (hne : g ≠ g') : a + 4 ≤ a' ∨ a' + 4 ≤ a := by
  rcases Nat.lt_trichotomy a a' with hlt | rfl | hlt
  · exact .inl (Program.add_size_le_of_instAt h.instAt h'.instAt hlt)
  · exact absurd (globalLabel_inj (Program.Placed.label_eq h h')) hne
  · exact .inr (Program.add_size_le_of_instAt h'.instAt h.instAt hlt)

end Linked

/-- The machine holds the state that functions share: global variables in their records, written words between
program and stack, and the last value in a register. -/
structure Holds (L : Linked) (κ : Store) (m : Machine) : Prop where
  globals : ∀ g a, L.Record g a → m.mem.load (a + 2).toUInt16 = κ.globals g
  heap : ∀ x : UInt16, L.bytes.length ≤ x.toNat → x.toNat < 0x8000 → m.mem.byte x = κ.heap.byte x
  last : m.reg .rret = κ.last

structure Knows (L : Linked) (params vars : Nat) (locals : Activation) (κ : Store) (m : Machine) : Prop where
  frame : m.InFrame params vars
  store : Holds L κ m
  locals : ∀ v w, locals v = some w → v.Within params vars ∧ m.mem.load (m.place params v) = w

section
variable {L : Linked} {κ : Store} {m m' : Machine} {w : UInt16}

theorem Holds.of_same (h : Holds L κ m) (hmem : m.mem.Same 0 0x8000 m'.mem) (hret : m'.reg .rret = w) :
    Holds L { κ with last := w } m' where
  globals g a hg := by
    have hle := hg.add_four_le
    have hsmall := L.small
    have hnat := hg.toNat
    rw [hmem.load (Nat.zero_le _) (by omega) (by omega)]
    exact h.globals g a hg
  heap x hlo hhi := (hmem x (Nat.zero_le _) hhi).trans (h.heap x hlo hhi)
  last := hret

theorem Holds.globals_store (h : Holds L κ m) {g : String} {a : Nat} (hg : L.Record g a)
    (hmem : m'.mem = m.mem.store (a + 2).toUInt16 κ.last) (hret : m'.reg .rret = m.reg .rret) :
    Holds L { κ with globals := Function.update κ.globals g κ.last } m' where
  globals g' a' hg' := by
    have hnat := hg.toNat
    have hnat' := hg'.toNat
    have hle := hg.add_four_le
    have hle' := hg'.add_four_le
    have hsmall := L.small
    by_cases hne : g' = g
    · subst hne
      obtain rfl := hg.unique hg'
      show m'.mem.load _ = Function.update κ.globals g' κ.last g'
      rw [hmem, Memory.load_store, Function.update_self]
    · have hsame : m.mem.Same (a' + 2) (a' + 4) m'.mem := by
        rw [hmem]
        have := hg.apart hg' (Ne.symm hne)
        exact .store _ _ (by omega) (by omega)
      show m'.mem.load _ = Function.update κ.globals g κ.last g'
      rw [Function.update_of_ne hne, hsame.load (by omega) (by omega) (by omega)]
      exact h.globals g' a' hg'
  heap x hlo hhi := by
    have hnat := hg.toNat
    have hle := hg.add_four_le
    have hsmall := L.small
    have hsame : m.mem.Same L.bytes.length 0x8000 m'.mem := by
      rw [hmem]
      exact .store _ _ (by omega) (by omega)
    exact (hsame x hlo hhi).trans (h.heap x hlo hhi)
  last := hret.trans h.last

theorem Holds.heap_store (h : Holds L κ m) {x : UInt16} (hlo : L.bytes.length ≤ x.toNat) (hhi : x.toNat ≤ 0x7FFE)
    (hmem : m'.mem = m.mem.store x κ.last) (hret : m'.reg .rret = m.reg .rret) :
    Holds L { κ with writes := (x, κ.last) :: κ.writes } m' where
  globals g a hg := by
    have hle := hg.add_four_le
    have hnat := hg.toNat
    have hsame : m.mem.Same 0 L.bytes.length m'.mem := by
      rw [hmem]
      exact .store _ _ (by omega) (by omega)
    rw [hsame.load (Nat.zero_le _) (by omega) (by omega)]
    exact h.globals g a hg
  heap y hy hy' := by
    have := h.heap y hy hy'
    rw [hmem, show Store.heap { κ with writes := (x, κ.last) :: κ.writes } = κ.heap.store x κ.last from rfl,
      Memory.byte_store, Memory.byte_store, this]
  last := hret.trans h.last

variable {params vars : Nat} {locals : Activation}

/-- A variable of the frame is given the last value. -/
theorem Knows.local_store (h : Knows L params vars locals κ m) {v : LocalVar} (hv : v.Within params vars)
    (hmem : m'.mem = m.mem.store (m.place params v) κ.last) (hreg : m'.reg = m.reg) :
    Knows L params vars (Function.update locals v (some κ.last)) κ m' := by
  have hsb : m'.sb = m.sb := by rw [sb, hreg, sb]
  have hsp : m'.sp = m.sp := by rw [sp, hreg, sp]
  have hroom := h.frame.room
  have hlt : m.sp < 0x10000 := (m.reg .rsp).toNat_lt
  obtain ⟨-, hlo, -, hhi, -⟩ := h.frame.toNat_place hv
  have hsame : m.mem.Same 0 0x8000 m'.mem := by
    rw [hmem]
    exact .store _ _ (by omega) (by omega)
  refine ⟨⟨hsb ▸ h.frame.below, hsb ▸ hsp ▸ hroom⟩, h.store.of_same hsame (by rw [hreg, h.store.last]), ?_⟩
  intro u w hu
  have hplace : m'.place params u = m.place params u := by rw [place, hreg, place]
  rw [hplace]
  by_cases hne : u = v
  · subst hne
    rw [Function.update_self] at hu
    cases hu
    exact ⟨hv, by rw [hmem, Memory.load_store]⟩
  · rw [Function.update_of_ne hne] at hu
    obtain ⟨hw, hload⟩ := h.locals u w hu
    obtain ⟨-, -, -, hhi', -⟩ := h.frame.toNat_place hw
    have happart := h.frame.place_apart hw hv hne
    have hkeep : m.mem.Same (m.place params u).toNat ((m.place params u).toNat + 2) m'.mem := by
      rw [hmem]
      exact .store _ _ (by omega) (by omega)
    exact ⟨hw, by rw [hkeep.load (by omega) (by omega) (by omega), hload]⟩

/-- Variables of the frame stay known when the shared state changes. -/
theorem Knows.of_holds {κ' : Store} (h : Knows L params vars locals κ m) (hstore : Holds L κ' m')
    (hroom : m.sb + 2 * vars ≤ m'.sp) (hmem : m.mem.Same 0x8000 (m.sb + 2 * vars) m'.mem)
    (hrsb : m'.reg .rsb = m.reg .rsb) : Knows L params vars locals κ' m' := by
  have hsb : m'.sb = m.sb := congrArg UInt16.toNat hrsb
  have hlt : m'.sp < 0x10000 := (m'.reg .rsp).toNat_lt
  refine ⟨⟨hsb ▸ h.frame.below, hsb ▸ hroom⟩, hstore, fun v w hv => ?_⟩
  obtain ⟨hw, hload⟩ := h.locals v w hv
  obtain ⟨-, hlo, -, hhi, -⟩ := h.frame.toNat_place hw
  refine ⟨hw, ?_⟩
  rw [place, hrsb, ← place, hmem.load hlo (by omega) (by omega), hload]

/-- What is known stays known, a new last value apart, as long as the frame and what lies below it stay. -/
theorem Knows.of_same (h : Knows L params vars locals κ m) (hroom : m.sb + 2 * vars ≤ m'.sp)
    (hmem : m.mem.Same 0 (m.sb + 2 * vars) m'.mem) (hrsb : m'.reg .rsb = m.reg .rsb) (hret : m'.reg .rret = w) :
    Knows L params vars locals { κ with last := w } m' := by
  have hbelow := h.frame.below
  exact h.of_holds (h.store.of_same (hmem.mono le_rfl (by omega)) hret) hroom (hmem.mono (Nat.zero_le _) le_rfl) hrsb

end

end StackToolchain
