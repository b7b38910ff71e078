import StackToolchain.Command.Emulate
import StackToolchain.Proofs.Machine.Faults

/-! Watching a run changes nothing.
A run asks before every step whether the machine has stopped, and a watched run only after a step. From a machine that
is running both take the same steps, and a run can be interrupted and resumed at any of them. -/
namespace StackToolchain

namespace Machine

variable {m : Machine}

private theorem run_of_halted (h : m.halted = true) (steps : Nat) : m.run steps = (.ok .halted, m) := by
  cases steps <;> simp [run, h]

private theorem run_of_exec_error {fault : Fault} (running : m.halted = false) (h : m.exec.1 = .error fault)
    (steps : Nat) : m.run (steps + 1) = (.error fault, m) := by
  have hexec : m.exec = (.error fault, m) := Prod.ext h (exec_snd_of_error h)
  simp [run, running, hexec]

/-- A run that is interrupted after some steps goes on as if it had not been. -/
theorem run_add (m : Machine) (first rest : Nat) :
    (∀ fault, (m.run first).1 = .error fault → m.run (first + rest) = m.run first) ∧
      ∀ exit, (m.run first).1 = .ok exit → m.run (first + rest) = (m.run first).2.run rest := by
  induction first generalizing m with
  | zero => simp [run]
  | succ first ih =>
    by_cases hhalted : m.halted = true
    · simp [run_of_halted hhalted]
    · have running : m.halted = false := by simpa using hhalted
      rw [Nat.add_right_comm]
      cases hexec : m.exec.1 with
      | error fault => simp [run_of_exec_error running hexec]
      | ok i =>
        have hstep : m.exec = (.ok i, m.exec.2) := Prod.ext hexec rfl
        rw [run_succ hstep running, run_succ hstep running]
        exact ih m.exec.2

/-- A run leaves a stopped machine exactly where it ends because the machine stopped. -/
theorem halted_run (m : Machine) (steps : Nat) : (m.run steps).2.halted = true ↔ (m.run steps).1 = .ok .halted := by
  induction steps generalizing m with
  | zero => cases h : m.halted <;> simp [run, h]
  | succ steps ih =>
    by_cases hhalted : m.halted = true
    · simp [run_of_halted hhalted, hhalted]
    · have running : m.halted = false := by simpa using hhalted
      cases hexec : m.exec.1 with
      | error fault => simp [run_of_exec_error running hexec, running]
      | ok i =>
        rw [run_succ (Prod.ext hexec rfl) running]
        exact ih m.exec.2

private theorem halted_of_load {image : List UInt8} (h : load image = .ok m) : m.halted = false := by
  unfold load at h
  split at h <;> cases h
  rfl

end Machine

namespace WatchList

private def exitOf : Option Nat → Machine.Exit
  | none => .timeout
  | some _ => .halted

private theorem watch_eq_run (w : WatchList) {m : Machine} (running : m.halted = false) (steps time : Nat)
    (output errors : String) (dir : Directory) :
    ((w.watch steps time m).playOnto output errors dir).result.1.map exitOf = (m.run steps).1 ∧
      ((w.watch steps time m).playOnto output errors dir).result.2 = (m.run steps).2 := by
  induction steps generalizing m time output with
  | zero => simp [watch, Script.playOnto, Machine.run, running, Except.map, exitOf]
  | succ steps ih =>
    cases hexec : m.exec.1 with
    | error fault =>
      have hstep : m.exec = (.error fault, m) := Prod.ext hexec (Machine.exec_snd_of_error hexec)
      simp [watch, hstep, Script.playOnto, Machine.run_of_exec_error running hexec, Except.map]
    | ok i =>
      have hstep : m.exec = (.ok i, m.exec.2) := Prod.ext hexec rfl
      rw [Machine.run_succ hstep running, watch, hstep]
      simp only [Script.playOnto]
      -- the watched run stops here already, the other one before its next step
      by_cases hhalted : m.exec.2.halted = true
      · rw [if_pos hhalted, Machine.run_of_halted hhalted]
        exact ⟨rfl, rfl⟩
      · rw [if_neg hhalted]
        exact ih (by simpa using hhalted) _ _

private theorem session_eq_run (w : WatchList) {m : Machine} (running : m.halted = false) (steps : Nat)
    (dir : Directory) : ((w.session steps m).play dir).result.1.map exitOf = (m.run steps).1 ∧
      ((w.session steps m).play dir).result.2 = (m.run steps).2 :=
  w.watch_eq_run running steps 0 ("" ++ w.intro) "" dir

/-- The addresses that are visited from one on, word by word, up to the top of the stack. Addresses wrap. -/
inductive Visits (top : UInt16) : UInt16 → List UInt16 → Prop
  | stop {addr} : ¬addr < top → Visits top addr []
  | step {addr rest} : addr < top → Visits top (addr + 2) rest → Visits top addr (addr :: rest)

private theorem visits_range {top : UInt16} (htop : top ≠ 0xFFFF) {first count : Nat} (hfirst : first ≤ 0xFFFF)
    (hcount : (top.toNat - first + 1) / 2 = count) :
    Visits top first.toUInt16 ((List.range count).map fun k => (first + 2 * k).toUInt16) := by
  have hlast : top.toNat < 0xFFFF :=
    Nat.lt_of_le_of_ne (Nat.le_of_lt_succ top.toNat_lt) fun h => htop (UInt16.toNat_inj.mp h)
  induction count generalizing first with
  | zero =>
    refine .stop ?_
    rw [UInt16.lt_iff_toNat_lt, toNat_toUInt16 (by omega)]
    omega
  | succ count ih =>
    have hbelow : first < top.toNat := by omega
    have hnext : first.toUInt16 + 2 = (first + 2).toUInt16 := by
      apply UInt16.toNat_inj.mp
      simp
    have hshift : (fun k => (first + 2 * k).toUInt16) ∘ Nat.succ = fun k => (first + 2 + 2 * k).toUInt16 := by
      funext k
      rw [Function.comp_apply, Nat.mul_succ, Nat.add_right_comm, Nat.add_assoc]
    rw [List.range_succ_eq_map, List.map_cons, List.map_map, hshift]
    refine .step ?_ ?_
    · rwa [UInt16.lt_iff_toNat_lt, toNat_toUInt16 (by omega)]
    · rw [hnext]
      exact ih (by omega) (by omega)

/-- The frame that is printed is visited to its end, unless the top of the stack is the last address. -/
theorem visits_frameAddresses {m : Machine} (h : m.reg .rsp ≠ 0xFFFF) :
    Visits (m.reg .rsp) ((m.reg .rsb).toNat - 6).toUInt16 (frameAddresses m) := by
  have hrsb := (m.reg .rsb).toNat_lt
  exact visits_range h (by omega) rfl

end WatchList

/-- From an image that fits, and whatever the registers hold, a watched run leaves the machine that the run without a
watch list leaves. It ends with the same fault, and it has stopped the machine exactly where the other one has. A run
can be interrupted after any of its steps. The frames that are printed are visited to their end, unless the stack
reaches up to the last address. -/
theorem watching_disturbs_nothing {image : List UInt8} {loaded : Machine} (hload : Machine.load image = .ok loaded)
    (regs : Vector UInt16 8) (w : WatchList) (dir : Directory) (steps : Nat) :
    let m : Machine := { loaded with regs }
    let watched := (w.session steps m).play dir
    watched.result.2 = (m.run steps).2 ∧
      (∀ fault, watched.result.1 = .error fault ↔ (m.run steps).1 = .error fault) ∧
      (watched.result.2.halted = true ↔ (m.run steps).1 = .ok .halted) ∧
      (∀ first rest, first + rest = steps →
        (∀ fault, (m.run first).1 = .error fault → m.run steps = m.run first) ∧
          ∀ exit, (m.run first).1 = .ok exit → m.run steps = (m.run first).2.run rest) ∧
      ∀ x : Machine, x.reg .rsp ≠ 0xFFFF →
        WatchList.Visits (x.reg .rsp) ((x.reg .rsb).toNat - 6).toUInt16 (WatchList.frameAddresses x) := by
  intro m watched
  have running : m.halted = false := show loaded.halted = false from Machine.halted_of_load hload
  obtain ⟨hexit, hmachine⟩ := w.session_eq_run running steps dir
  refine ⟨hmachine, fun fault => ?_, ?_, ?_, fun x => WatchList.visits_frameAddresses⟩
  · rw [← hexit]
    cases hresult : watched.result.1 <;> simp [Except.map]
  · rw [hmachine]
    exact m.halted_run steps
  · rintro first rest rfl
    exact m.run_add first rest

def pushImage : List UInt8 :=
  [0x15, 0x00, 0x02, 0x00, 0x00]

def pushWatch : WatchList :=
  { points := [(0, { stack := true, heap := [0x8000] })] }

theorem watching_disturbs_nothing_at_push :
    ∃ m, Machine.load pushImage = .ok m ∧
      ((pushWatch.session 5 { m with regs := #v[0, 0, 7, 0, 0, 0, 0x8000, 0x8000] }).play {}).result.2.halted
        = true := by
  have hload : Machine.load pushImage = .ok (.start (.ofImage pushImage (by decide))) := rfl
  obtain ⟨-, -, hhalted, -⟩ :=
    watching_disturbs_nothing hload #v[0, 0, 7, 0, 0, 0, 0x8000, 0x8000] pushWatch {} 5
  refine ⟨_, hload, hhalted.mpr ((Machine.halted_run _ 5).mp ?_)⟩
  decide +kernel

end StackToolchain
