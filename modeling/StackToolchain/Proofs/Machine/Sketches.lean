import StackToolchain.Proofs.Machine.Faults

/-! Runs that can be worked out.
The memory of a machine is a vector of all its bytes, and what is stored far up is not found again by evaluation. A
sketch keeps the words that were written over an image, the last one first. It shows a machine, and takes the same
steps. -/
namespace StackToolchain

structure Sketch where
  regs : Vector UInt16 8
  image : List UInt8
  words : List (UInt16 × UInt16)
  pc : UInt16

namespace Sketch

private def byteOver (image : List UInt8) : List (UInt16 × UInt16) → UInt16 → UInt8
  | [], a => image.getD a.toNat 0
  | (b, w) :: rest, a => if b + 1 = a then (w >>> 8).toUInt8 else if b = a then w.toUInt8 else byteOver image rest a

def byte (s : Sketch) : UInt16 → UInt8 :=
  byteOver s.image s.words

def load (s : Sketch) (a : UInt16) : UInt16 :=
  wordOfBytes (s.byte a) (s.byte (a + 1))

def window (s : Sketch) : List UInt8 :=
  (List.range (min 4 (0x10000 - s.pc.toNat))).map fun k => s.byte (s.pc + k.toUInt16)

def fetch (s : Sketch) : Except DecodeError Instruction :=
  Instruction.decode s.pc.toNat s.window

def processor (s : Sketch) : Machine :=
  ⟨s.regs, .zero, s.pc, false⟩

/-- Only two instructions read words of memory. -/
def effect (s : Sketch) : Instruction → Except Fault Effect
  | ⟨.memr, [.reg addr, .imm8 off, .reg save]⟩ =>
    .ok { next := s.pc + 4, sets := [(save, s.load (s.processor.reg addr + signedOffset off))] }
  | ⟨.pop, [.pad, .pad, .reg save]⟩ =>
    let top := s.processor.reg .rsp - 2
    .ok { next := s.pc + 4, sets := [(.rsp, top), (save, s.load top)] }
  | i => s.processor.effect i

def apply (s : Sketch) (e : Effect) : Sketch :=
  { s with regs := (s.processor.apply { e with store := none }).regs, words := e.store.toList ++ s.words, pc := e.next }

def exec? (s : Sketch) : Option Sketch :=
  match s.fetch with
  | .error _ => none
  | .ok i =>
    match s.effect i with
    | .error _ => none
    | .ok e => some (s.apply e)

def after? : Nat → Sketch → Option Sketch
  | 0, s => some s
  | n + 1, s => s.exec?.bind (after? n)

structure Shows (s : Sketch) (m : Machine) : Prop where
  reg : ∀ r, m.reg r = s.processor.reg r
  byte : ∀ a, m.mem.byte a = s.byte a
  pc : m.pc = s.pc

namespace Shows

variable {s s' : Sketch} {m : Machine}

theorem start {image : List UInt8} (fits : image.length ≤ 0x10000) :
    Shows ⟨(Machine.start .zero).regs, image, [], 0⟩ (.start (.ofImage image fits)) where
  reg r := rfl
  byte a := by
    have h := Memory.byte_ofImage fits a.toNat_lt
    rwa [Nat.toUInt16_eq, UInt16.ofNat_toNat] at h
  pc := rfl

private theorem load (h : s.Shows m) (a : UInt16) : m.mem.load a = s.load a := by
  rw [Memory.load, h.byte, h.byte]
  rfl

theorem fetch (h : s.Shows m) : m.fetch = s.fetch := by
  rw [Machine.fetch, Memory.window_eq_map, h.pc]
  simp only [h.byte]
  rfl

private theorem effect (h : s.Shows m) (i : Instruction) : m.effect i = s.effect i := by
  unfold Sketch.effect
  split
  · simp only [Machine.effect, h.reg, h.pc, h.load]
    rfl
  · simp only [Machine.effect, h.reg, h.pc, h.load]
    rfl
  · rename_i hmemr hpop
    obtain ⟨op, args⟩ := i
    have hpc : m.pc = s.processor.pc := h.pc
    simp only [Machine.effect, h.reg, hpc]
    split
    case h_5 addr off save => exact (hmemr addr off save rfl).elim
    case h_8 save => exact (hpop save rfl).elim
    all_goals rfl

private theorem apply (h : s.Shows m) (e : Effect) : (s.apply e).Shows (m.apply e) where
  reg r := by
    have hr : (s.apply e).processor.reg r = (s.processor.apply { e with store := none }).reg r := rfl
    rw [hr, Machine.reg_apply, Machine.reg_apply, h.reg]
  byte a := by
    rw [Machine.mem_apply]
    cases hs : e.store with
    | none => simpa [Sketch.apply, Sketch.byte, hs] using h.byte a
    | some store =>
      simp only [Option.elim_some, Memory.byte_store, h.byte]
      simp [Sketch.apply, Sketch.byte, hs, byteOver]
  pc := rfl

private theorem exec (h : s.Shows m) (hs : s.exec? = some s') : ∃ i m', m.exec = (.ok i, m') ∧ s'.Shows m' := by
  unfold exec? at hs
  split at hs
  · cases hs
  · rename_i i hf
    split at hs
    · cases hs
    · rename_i e he
      cases hs
      exact ⟨i, m.apply e, Machine.exec_of_effect (h.fetch.trans hf) ((h.effect i).trans he), h.apply e⟩

private theorem after (h : s.Shows m) {n : Nat} (hs : s.after? n = some s') :
    ∃ m', m.after n = some m' ∧ s'.Shows m' := by
  induction n generalizing s m with
  | zero =>
    cases hs
    exact ⟨m, rfl, h⟩
  | succ n ih =>
    obtain ⟨mid, hmid, hrest⟩ := Option.bind_eq_some_iff.mp hs
    obtain ⟨i, next, hexec, hnext⟩ := h.exec hmid
    rw [Machine.after_succ hexec]
    exact ih hnext hrest

/-- What is checked of a sketch after some steps is known of the machine that it shows. -/
theorem checked (h : s.Shows m) {n : Nat} {p : Sketch → Bool} (hp : (s.after? n).any p = true) :
    ∃ s' m', m.after n = some m' ∧ s'.Shows m' ∧ p s' = true := by
  obtain ⟨s', hs, hp'⟩ := (Option.any_eq_true _ _).mp hp
  obtain ⟨m', hm, hshows⟩ := h.after hs
  exact ⟨s', m', hm, hshows, hp'⟩

end Shows

end Sketch

end StackToolchain
