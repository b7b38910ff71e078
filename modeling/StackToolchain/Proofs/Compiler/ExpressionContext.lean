import StackToolchain.Proofs.Machine.HeldCode

/-! The code of an expression in any context.
Code without calls computes the value of its expression wherever it stands and whatever the rest of memory holds. It
uses two bytes of the stack for every left operand that waits, and no more. -/
namespace StackToolchain

/-- The outcome of an operation after its operands: a value, or the number of operations done before the first one that
has none. The operands have a number of operations each, and those of the left one are done first. -/
def AluOp.outcome (op : AluOp) (n k : Nat) : Except Nat UInt16 → Except Nat UInt16 → Except Nat UInt16
  | .error done, _ => .error done
  | .ok _, .error done => .error (n + done)
  | .ok a, .ok b =>
    match op.eval a b with
    | some v => .ok v
    | none => .error (n + k)

namespace Source.Expr

def callFree : Expr → Bool
  | .int _ => true
  | .var _ _ => true
  | .call _ _ _ => false
  | .paren inner => inner.callFree
  | .binary left _ right => left.callFree && right.callFree

/-- The greatest number of left operands that wait at the same time for their right ones. -/
def pending : Expr → Nat
  | .paren inner => inner.pending
  | .binary left _ right => max left.pending (right.pending + 1)
  | _ => 0

def reads : Expr → List String
  | .var name _ => [name]
  | .paren inner => inner.reads
  | .binary left _ right => left.reads ++ right.reads
  | _ => []

/-- The operations of an expression in the order in which they are done: those of the left operand, those of the
right one, then their own. -/
def operators : Expr → List AluOp
  | .paren inner => inner.operators
  | .binary left op right => left.operators ++ right.operators ++ [op]
  | _ => []

/-- The value of an expression without calls, from left to right; or, where an operation has no value, the number of
operations done before it. -/
def outcome (value : String → UInt16) : Expr → Except Nat UInt16
  | .int n => .ok n
  | .var name _ => .ok (value name)
  | .call _ _ _ => .error 0
  | .paren inner => inner.outcome value
  | .binary left op right =>
    op.outcome left.operators.length right.operators.length (left.outcome value) (right.outcome value)

theorem pending_left (e e' : Expr) (op : AluOp) : e.pending ≤ (binary e op e').pending :=
  le_max_left _ _

theorem pending_right (e e' : Expr) (op : AluOp) : e'.pending + 1 ≤ (binary e op e').pending :=
  le_max_right _ _

end Source.Expr

def Scope.address (scope : Scope) (labels : Labels) (base : UInt16) (name : String) : UInt16 :=
  match scope.get? name with
  | some (.slot offset) => base + signedOffset offset
  | some (.global label) => (labels.get? label).getD 0 + 2
  | _ => 0

def Program.operators (p : Program) : List AluOp :=
  p.instructions.filterMap fun i =>
    match i.op with
    | .alu op => some op
    | _ => none

open Source (Expr)

private theorem Program.operators_append (p q : Program) : (p ++ q).operators = p.operators ++ q.operators := by
  rw [operators, instructions_append, List.filterMap_append]
  rfl

private theorem operators_compileExpr {scope : Scope} : {e : Expr} → ∀ {ids ids' : LabelSupply} {code : Program},
    e.callFree = true → compileExpr scope e ids = .ok (code, ids') → code.operators = e.operators
  | .int n, ids, ids', code, _, h => by
    obtain ⟨rfl, -⟩ := compileExpr_int.mp h
    rfl
  | .var name offset, ids, ids', code, _, h => by
    obtain ⟨cell, -, rfl, -⟩ := compileExpr_var.mp h
    cases cell <;> rfl
  | .paren inner, ids, ids', code, hfree, h => operators_compileExpr (e := inner) hfree (compileExpr_paren.mp h)
  | .binary left op right, ids, ids', code, hfree, h => by
    obtain ⟨l, mid, r, hl, hr, rfl⟩ := compileExpr_binary.mp h
    obtain ⟨hfl, hfr⟩ := Bool.and_eq_true_iff.mp hfree
    rw [binaryCode, Expr.operators, ← operators_compileExpr hfl hl, ← operators_compileExpr hfr hr,
      Program.operators_append, List.append_assoc]
    exact congrArg _ (Program.operators_append r _)
  | .call name args offset, ids, ids', code, hfree, h => by cases hfree

namespace Machine

def Spare (m : Machine) (d : Nat) (b : UInt16) : Prop :=
  m.sp ≤ b.toNat ∧ b.toNat < m.sp + 2 * d

/-- There is room on the stack for the operands of an expression that wait: it does not wrap, and it holds neither the
code at an address nor a variable that the expression reads. -/
structure Room (m : Machine) (scope : Scope) (labels : Labels) (a : Nat) (code : Program) (e : Expr) : Prop where
  fits : m.sp + 2 * e.pending ≤ 0x10000
  code_apart : ∀ b : UInt16, a ≤ b.toNat → b.toNat < a + Program.size code → ¬m.Spare e.pending b
  cells_apart : ∀ name ∈ e.reads, ¬m.Spare e.pending (scope.address labels (m.reg .rsb) name) ∧
    ¬m.Spare e.pending (scope.address labels (m.reg .rsb) name + 1)

/-- What code for an expression leaves: its value, and all the rest as it was, but for two scratch registers and the
stack in use. -/
structure Leaves (m : Machine) (code : Program) (d : Nat) (v : UInt16) (m' : Machine) : Prop where
  passes : m.Passes code m'
  value : m'.reg .rret = v
  kept : ∀ r, r ≠ .rret → r ≠ .raddr → r ≠ .rexpr → m'.reg r = m.reg r
  bytes : ∀ b, ¬m.Spare d b → m'.mem.byte b = m.mem.byte b

/-- The machine goes through code up to an operation, after a number of others, and stops there at a division by
zero. -/
def Traps (m : Machine) (code : Program) (k : Nat) : Prop :=
  ∃ before op after x, code = before ++ .inst (.alu op .rexpr .rret .rret) :: after ∧
    before.operators.length = k ∧ m.Passes before x ∧
    x.exec = (.error (.divisionByZero (m.pc + (Program.size before).toUInt16)), x)

def Ends (m : Machine) (code : Program) (d : Nat) : Except Nat UInt16 → Prop
  | .ok v => ∃ m', m.Leaves code d v m'
  | .error k => m.Traps code k

variable {m m' : Machine} {scope : Scope} {labels : Labels} {a : Nat} {code : Program} {e : Expr}

private theorem Room.same (h : m.Room scope labels a code e)
    (hbytes : ∀ b, ¬m.Spare e.pending b → m'.mem.byte b = m.mem.byte b) :
    m.mem.Same a (a + Program.size code) m'.mem :=
  fun b hlo hhi => hbytes b (h.code_apart b hlo hhi)

private theorem Spare.mono {d k : Nat} {b : UInt16} (h : m.Spare d b) (hdk : d ≤ k) : m.Spare k b :=
  ⟨h.1, by have := h.2; omega⟩

private theorem Leaves.mono {d k : Nat} {v : UInt16} (h : m.Leaves code d v m') (hdk : d ≤ k) : m.Leaves code k v m' :=
  ⟨h.passes, h.value, h.kept, fun b hb => h.bytes b fun hs => hb (hs.mono hdk)⟩

private theorem sp_push (hrsp : m'.reg .rsp = m.reg .rsp + 2) : m'.sp = (m.sp + 2) % 0x10000 := by
  rw [sp, hrsp, UInt16.toNat_add]
  rfl

/-- What is spare after a push lies above the word that was pushed. -/
theorem Spare.of_push {k : Nat} {b : UInt16} (h : m'.Spare k b) (hrsp : m'.reg .rsp = m.reg .rsp + 2)
    (hfits : m.sp + 2 * (k + 1) ≤ 0x10000) : m.sp + 2 ≤ b.toNat ∧ b.toNat < m.sp + 2 * (k + 1) := by
  obtain ⟨hlo, hhi⟩ := h
  have hsp : m'.sp = m.sp + 2 := (sp_push hrsp).trans (Nat.mod_eq_of_lt (by omega))
  omega

/-- Code that sets nothing but the result. -/
theorem Sets.leaves {v : UInt16} (h : m.Sets .rret v m') (hp : m.Passes code m') (d : Nat) : m.Leaves code d v m' where
  passes := hp
  value := h.reg
  kept r hret _ _ := h.others r hret
  bytes b _ := by rw [h.mem]

private theorem load_leaves {name : String} {offset : Option Nat} {cell : Cell}
    (hcell : scope.cell name offset = .ok cell) (h : m.StandsAt labels a cell.load) (d : Nat) :
    ∃ m', m.Leaves cell.load d (m.mem.load (scope.address labels (m.reg .rsb) name)) m' := by
  rcases Scope.cell_eq_ok.mp hcell with ⟨off, hget, rfl⟩ | ⟨label, hget, rfl⟩
  · have haddress : scope.address labels (m.reg .rsb) name = m.reg .rsb + signedOffset off := by
      rw [Scope.address, hget]
    obtain ⟨m', hp, hs⟩ := h.sets rfl rfl
    rw [haddress]
    exact ⟨m', hs.leaves hp d⟩
  · obtain ⟨v, m₁, hv, hp₁, hs₁⟩ := h.immLabel
    have haddress : scope.address labels (m.reg .rsb) name = m₁.reg .raddr + signedOffset cellOffset := by
      rw [Scope.address, hget, hs₁.reg]
      show (labels.get? label).getD 0 + 2 = _
      rw [hv]
      rfl
    have hat := h.next hp₁ hs₁.mem
    obtain ⟨m₂, hp₂, hs₂⟩ := hat.sets rfl rfl
    refine ⟨m₂, hp₁.trans hp₂, ?_, ?_, ?_⟩
    · rw [hs₂.reg, haddress, hs₁.mem]
    · intro r hret haddr _
      rw [hs₂.others r hret, hs₁.others r haddr]
    · intro b _
      rw [hs₂.mem, hs₁.mem]

structure Waits (m : Machine) (d : Nat) (v : UInt16) (m' : Machine) : Prop where
  rsp : m'.reg .rsp = m.reg .rsp + 2
  top : m'.mem.load (m.reg .rsp) = v
  kept : ∀ r, r ≠ .rret → r ≠ .raddr → r ≠ .rexpr → r ≠ .rsp → m'.reg r = m.reg r
  bytes : ∀ b, ¬m.Spare d b → m'.mem.byte b = m.mem.byte b

private theorem Leaves.waits {l rest : Program} {d : Nat} {v : UInt16} (h : m.Leaves l d v m') (hd : 0 < d)
    (hfits : m.sp + 2 * d ≤ 0x10000)
    (hat : m'.StandsAt labels a (.inst (.mov .rret .rexpr) :: .inst (.push .rexpr) :: rest)) :
    ∃ m'', m'.Passes [.inst (.mov .rret .rexpr), .inst (.push .rexpr)] m'' ∧ m.Waits d v m'' := by
  obtain ⟨m₁, hp₁, hs₁⟩ := hat.sets rfl rfl
  have hat₁ := hat.next hp₁ hs₁.mem
  obtain ⟨m₂, hp₂, hmem, hrsp, hothers⟩ := hat₁.push
  have htop : m₁.reg .rsp = m.reg .rsp := by
    rw [hs₁.others _ (by decide), h.kept _ (by decide) (by decide) (by decide)]
  refine ⟨m₂, hp₁.trans hp₂, ?_, ?_, ?_, ?_⟩
  · rw [hrsp, htop]
  · rw [hmem, htop, Memory.load_store, hs₁.reg, h.value]
  · intro r hret haddr hexpr hsp
    rw [hothers r hsp, hs₁.others r hexpr, h.kept r hret haddr hexpr]
  · intro b hb
    have hone : (m.reg .rsp + 1).toNat = m.sp + 1 := toNat_add_one (by rw [sp] at hfits; omega)
    have hfirst : m.reg .rsp ≠ b := by
      rintro rfl
      exact hb ⟨le_rfl, by rw [sp]; omega⟩
    have hsecond : m.reg .rsp + 1 ≠ b := by
      rintro rfl
      exact hb ⟨by omega, by omega⟩
    rw [hmem, htop, Memory.byte_store, if_neg hsecond, if_neg hfirst, hs₁.mem, h.bytes b hb]

structure Joins (m : Machine) (d : Nat) (v w : UInt16) (m' : Machine) : Prop where
  left : m'.reg .rexpr = v
  right : m'.reg .rret = w
  kept : ∀ r, r ≠ .rret → r ≠ .raddr → r ≠ .rexpr → m'.reg r = m.reg r
  bytes : ∀ b, ¬m.Spare d b → m'.mem.byte b = m.mem.byte b

private theorem Waits.joins {x : Machine} {r rest : Program} {d k : Nat} {v w : UInt16} (h : m.Waits d v m')
    (hx : m'.Leaves r k w x) (hk : k + 1 ≤ d) (hfits : m.sp + 2 * d ≤ 0x10000)
    (hat : x.StandsAt labels a (.inst (.pop .rexpr) :: rest)) :
    ∃ y, x.Passes [.inst (.pop .rexpr)] y ∧ m.Joins d v w y ∧ y.mem = x.mem := by
  have hspare {b : UInt16} (hb : m'.Spare k b) : m.sp + 2 ≤ b.toNat ∧ b.toNat < m.sp + 2 * (k + 1) :=
    hb.of_push h.rsp (by omega)
  have hone : (m.reg .rsp + 1).toNat = m.sp + 1 := toNat_add_one (by rw [sp] at hfits; omega)
  have hrsp : x.reg .rsp - 2 = m.reg .rsp := by
    rw [hx.kept _ (by decide) (by decide) (by decide), h.rsp, UInt16.add_sub_cancel]
  have htop : x.mem.load (m.reg .rsp) = v := by
    -- the operand that waits is below what the right one uses
    have hfirst : ¬m'.Spare k (m.reg .rsp) := fun hb => by
      have := hspare hb
      rw [sp] at this
      omega
    have hsecond : ¬m'.Spare k (m.reg .rsp + 1) := fun hb => by
      have := hspare hb
      omega
    rw [← h.top, Memory.load, Memory.load, hx.bytes _ hfirst, hx.bytes _ hsecond]
  obtain ⟨y, hp, hmem, hsp, hexpr, hothers⟩ := hat.pop (by decide)
  refine ⟨y, hp, ⟨?_, ?_, ?_, ?_⟩, hmem⟩
  · rw [hexpr, hrsp, htop]
  · rw [hothers _ (by decide) (by decide), hx.value]
  · intro r hret haddr hr
    by_cases hrsp' : r = .rsp
    · rw [hrsp', hsp, hrsp]
    · rw [hothers r hrsp' hr, hx.kept r hret haddr hr, h.kept r hret haddr hr hrsp']
  · intro b hb
    have hb' : ¬m'.Spare k b := fun hs => by
      have := hspare hs
      exact hb ⟨by omega, by omega⟩
    rw [hmem, hx.bytes b hb', h.bytes b hb]

private theorem Traps.append {k : Nat} (h : m.Traps code k) (rest : Program) : m.Traps (code ++ rest) k := by
  obtain ⟨before, op, after, x, rfl, hk, hp, hx⟩ := h
  exact ⟨before, op, after ++ rest, x, by simp, hk, hp, hx⟩

private theorem Traps.after {first : Program} {k : Nat} (hp : m.Passes first m') (h : m'.Traps code k) :
    m.Traps (first ++ code) (first.operators.length + k) := by
  obtain ⟨before, op, after, x, rfl, rfl, hp', hx⟩ := h
  refine ⟨first ++ before, op, after, x, by simp, ?_, hp.trans hp', ?_⟩
  · rw [Program.operators_append, List.length_append]
  · rw [hx, ← hp'.pc, ← (hp.trans hp').pc]

/-- Operands are joined to a value, or there is none. -/
theorem Joins.ends {first : Program} {d n k : Nat} {v w : UInt16} {op : AluOp} (h : m.Joins d v w m')
    (hp : m.Passes first m') (hat : m'.StandsAt labels a [.inst (.alu op .rexpr .rret .rret)])
    (hlength : first.operators.length = n + k) :
    m.Ends (first ++ [.inst (.alu op .rexpr .rret .rret)]) d (op.outcome n k (.ok v) (.ok w)) := by
  rw [AluOp.outcome]
  cases hu : op.eval v w with
  | some u =>
    rw [← h.left, ← h.right] at hu
    obtain ⟨x, hp', hs⟩ := hat.alu hu
    refine ⟨x, hp.trans hp', hs.reg, ?_, ?_⟩
    · intro r hret haddr hexpr
      rw [hs.others r hret, h.kept r hret haddr hexpr]
    · intro b hb
      rw [hs.mem, h.bytes b hb]
  | none =>
    rw [← h.left, ← h.right] at hu
    refine ⟨first, op, [], m', rfl, hlength, hp, ?_⟩
    rw [hat.faults hu, hp.pc]

end Machine

open Machine

def Machine.Reads (m : Machine) (scope : Scope) (labels : Labels) (value : String → UInt16) (e : Expr) : Prop :=
  ∀ name ∈ e.reads, m.mem.load (scope.address labels (m.reg .rsb) name) = value name

def EndsAnywhere (scope : Scope) (labels : Labels) (value : String → UInt16) (code : Program)
    (e : Expr) : Prop :=
  ∀ ⦃m : Machine⦄ ⦃a : Nat⦄, m.StandsAt labels a code → m.Room scope labels a code e → m.Reads scope labels value e →
    m.Ends code e.pending (e.outcome value)

private def waitCode (l : Program) : Program :=
  l ++ [.inst (.mov .rret .rexpr), .inst (.push .rexpr)]

private def joinCode (op : AluOp) : Program :=
  [.inst (.pop .rexpr), .inst (.alu op .rexpr .rret .rret)]

private theorem binaryCode_eq (op : AluOp) (l r : Program) : binaryCode op l r = waitCode l ++ (r ++ joinCode op) := by
  simp [binaryCode, waitCode, joinCode]

section
variable {scope : Scope} {labels : Labels} {value : String → UInt16} {m m' : Machine} {a d : Nat} {e e' : Expr}
  {op : AluOp} {l r code : Program}

namespace Machine

private theorem Room.leftOperand (h : m.Room scope labels a (binaryCode op l r) (.binary e op e')) :
    m.Room scope labels a l e where
  fits := by
    have hfits := h.fits
    have hle := Expr.pending_left e e' op
    omega
  code_apart b hlo hhi hb := by
    refine h.code_apart b hlo ?_ (hb.mono (Expr.pending_left e e' op))
    rw [binaryCode, Program.size_append]
    omega
  cells_apart name hname := by
    obtain ⟨hfirst, hsecond⟩ := h.cells_apart name (List.mem_append_left _ hname)
    have hle := Expr.pending_left e e' op
    exact ⟨fun hb => hfirst (hb.mono hle), fun hb => hsecond (hb.mono hle)⟩

section
variable {v : UInt16} (h : m.Room scope labels a (binaryCode op l r) (.binary e op e'))
  (hw : m.Waits (Expr.binary e op e').pending v m')
include h hw

private theorem Room.spare {b : UInt16} (hb : m'.Spare e'.pending b) : m.Spare (Expr.binary e op e').pending b := by
  have hfits := h.fits
  have hle := Expr.pending_right e e' op
  have hrange := hb.of_push hw.rsp (by omega)
  exact ⟨by omega, by omega⟩

private theorem Room.rightOperand : m'.Room scope labels (a + Program.size (waitCode l)) (r ++ joinCode op) e' where
  fits := by
    have hfits := h.fits
    have hle := Expr.pending_right e e' op
    have hsp : m'.sp ≤ m.sp + 2 := (sp_push hw.rsp).trans_le (Nat.mod_le _ _)
    omega
  code_apart b hlo hhi hb := by
    refine h.code_apart b (by omega) ?_ (h.spare hw hb)
    rw [binaryCode_eq, Program.size_append]
    omega
  cells_apart name hname := by
    obtain ⟨hfirst, hsecond⟩ := h.cells_apart name (List.mem_append_right _ hname)
    rw [hw.kept .rsb (by decide) (by decide) (by decide) (by decide)]
    exact ⟨fun hb => hfirst (h.spare hw hb), fun hb => hsecond (h.spare hw hb)⟩

private theorem Room.reads (hreads : m.Reads scope labels value (.binary e op e')) :
    m'.Reads scope labels value e' := by
  intro name hname
  have hmem : name ∈ (Expr.binary e op e').reads := List.mem_append_right _ hname
  obtain ⟨hfirst, hsecond⟩ := h.cells_apart name hmem
  rw [← hreads name hmem, hw.kept .rsb (by decide) (by decide) (by decide) (by decide), Memory.load, Memory.load,
    hw.bytes _ hfirst, hw.bytes _ hsecond]

end

private theorem Room.front {rest : Program} (h : m.Room scope labels a (code ++ rest) e) :
    m.Room scope labels a code e where
  fits := h.fits
  code_apart b hlo hhi := h.code_apart b hlo (by rw [Program.size_append]; omega)
  cells_apart := h.cells_apart

private theorem Leaves.waits_at {v : UInt16} (h : m.Leaves l e.pending v m')
    (hat : m.StandsAt labels a (binaryCode op l r))
    (hroom : m.Room scope labels a (binaryCode op l r) (.binary e op e')) :
    ∃ x, m.Passes (waitCode l) x ∧ m.Waits (Expr.binary e op e').pending v x ∧
      x.StandsAt labels (a + Program.size (waitCode l)) (r ++ joinCode op) := by
  have hleaves := h.mono (Expr.pending_left e e' op)
  have hle := Expr.pending_right e e' op
  have hat' := StandsAt.advance hat h.passes ((hroom.same hleaves.bytes).mono (by omega) (by simp [binaryCode]; omega))
  obtain ⟨x, hp, hw⟩ := hleaves.waits (by omega) hroom.fits hat'
  have hpass : m.Passes (waitCode l) x := h.passes.trans hp
  rw [binaryCode_eq] at hat hroom
  refine ⟨x, hpass, hw, hat.advance hpass ?_⟩
  exact (hroom.same hw.bytes).mono (by omega) (by simp only [Program.size_append]; omega)

private theorem Waits.ends {v : UInt16} {outcome : Except Nat UInt16} (hw : m.Waits (Expr.binary e op e').pending v m')
    (hp : m.Passes (waitCode l) m')
    (hat : m'.StandsAt labels (a + Program.size (waitCode l)) (r ++ joinCode op))
    (hroom : m.Room scope labels a (binaryCode op l r) (.binary e op e'))
    (hends : m'.Ends r e'.pending outcome) :
    m.Ends (binaryCode op l r) (Expr.binary e op e').pending
      (op.outcome l.operators.length r.operators.length (.ok v) outcome) := by
  have hoperators : (waitCode l).operators = l.operators := by
    rw [waitCode, Program.operators_append]
    exact List.append_nil _
  rw [binaryCode_eq]
  cases outcome with
  | error k =>
    have htraps := Traps.after hp (hends.append (joinCode op))
    rw [hoperators] at htraps
    exact htraps
  | ok w =>
    obtain ⟨x, hx⟩ := hends
    have hright := hroom.rightOperand hw
    have hat' := hat.advance hx.passes
      ((hright.same hx.bytes).mono (by omega) (by simp only [Program.size_append]; omega))
    obtain ⟨y, hp', hjoins, hmem⟩ := hw.joins hx (Expr.pending_right e e' op) hroom.fits hat'
    have hpass := hp.trans (hx.passes.trans hp')
    have hlength : (Program.operators (waitCode l ++ (r ++ [.inst (.pop .rexpr)]))).length =
        l.operators.length + r.operators.length := by
      rw [Program.operators_append, Program.operators_append, hoperators, List.length_append, List.length_append]
      rfl
    have hends := hjoins.ends hpass (hat'.next hp' hmem) hlength
    rw [List.append_assoc, List.append_assoc] at hends
    exact hends

end Machine

/-- Code for an expression without calls ends as the expression does. -/
theorem compileExpr_ends {scope : Scope} : {e : Expr} → ∀ {ids ids' : LabelSupply} {code : Program},
    e.callFree = true → compileExpr scope e ids = .ok (code, ids') → EndsAnywhere scope labels value code e
  | .int n, ids, ids', code, _, h => by
    obtain ⟨rfl, -⟩ := compileExpr_int.mp h
    intro m a hat _ _
    obtain ⟨m', hp, hs⟩ := hat.sets rfl rfl
    exact ⟨m', hs.leaves hp 0⟩
  | .var name offset, ids, ids', code, _, h => by
    obtain ⟨cell, hcell, rfl, -⟩ := compileExpr_var.mp h
    intro m a hat _ hreads
    obtain ⟨m', hleaves⟩ := load_leaves hcell hat 0
    rw [hreads name (List.mem_singleton_self name)] at hleaves
    exact ⟨m', hleaves⟩
  | .paren inner, ids, ids', code, hfree, h => by
    intro m a hat hroom hreads
    have hinner : m.Room scope labels a code inner := ⟨hroom.fits, hroom.code_apart, hroom.cells_apart⟩
    exact compileExpr_ends (e := inner) hfree (compileExpr_paren.mp h) hat hinner hreads
  | .binary left op right, ids, ids', code, hfree, h => by
    obtain ⟨l, mid, r, hl, hr, rfl⟩ := compileExpr_binary.mp h
    obtain ⟨hfl, hfr⟩ := Bool.and_eq_true_iff.mp hfree
    intro m a hat hroom hreads
    have hleft := compileExpr_ends hfl hl hat.left hroom.leftOperand fun name hname =>
      hreads name (List.mem_append_left _ hname)
    rw [Expr.outcome, ← operators_compileExpr hfl hl, ← operators_compileExpr hfr hr]
    cases hlo : left.outcome value with
    | error k =>
      rw [hlo] at hleft
      exact hleft.append _
    | ok v =>
      rw [hlo] at hleft
      obtain ⟨m₁, hleaves⟩ := hleft
      obtain ⟨m₂, hp, hw, hat₂⟩ := hleaves.waits_at hat hroom
      have hright := compileExpr_ends hfr hr hat₂.left (hroom.rightOperand hw).front (hroom.reads hw hreads)
      exact hw.ends hp hat₂ hroom hright
  | .call name args offset, ids, ids', code, hfree, h => by cases hfree

end

/-- Code for an expression without calls computes its value anywhere in memory, as long as labels have addresses and
there is room on the stack for the operands that wait. It leaves all else as it was, or stops at the first operation
that divides by zero. -/
theorem expression_code_ends_as_expression {scope : Scope} {e : Expr} {ids ids' : LabelSupply} {code : Program}
    {labels : Labels} (hfree : e.callFree = true) (hcode : compileExpr scope e ids = .ok (code, ids'))
    (hcovers : ∀ i, .inst i ∈ code → ∀ label ∈ i.refs, ∃ v, labels.get? label = some v) :
    ∃ bytes, code.encode labels = .ok bytes ∧ code.operators = e.operators ∧
      ∀ m : Machine, m.mem.Holds m.pc.toNat bytes → m.Room scope labels m.pc.toNat code e →
        m.Ends code e.pending (e.outcome fun name => m.mem.load (scope.address labels (m.reg .rsb) name)) := by
  have hfragment : Fragment ids.next ids'.next (fun _ => True) code := compileExpr_fragment (fun _ _ => trivial) e hcode
  obtain ⟨bytes, hbytes⟩ := Program.exists_encode hfragment.wellFormed hcovers
  refine ⟨bytes, hbytes, operators_compileExpr hfree hcode, fun m hheld hroom => ?_⟩
  have hpc : m.pc = m.pc.toNat.toUInt16 := by rw [Nat.toUInt16_eq, UInt16.ofNat_toNat]
  exact compileExpr_ends hfree hcode ⟨hpc, bytes, hbytes, hheld⟩ hroom fun name _ => rfl

def mixedScope : Scope := ⟨[("x", .slot (-6)), ("g", .global "var_g")]⟩

def mixedLabels : Labels := ⟨[("var_g", 0x200)]⟩

def mixedExpr (op : AluOp) : Expr :=
  .binary (.paren (.binary (.var "x" 0) .add (.int 3))) .add (.paren (.binary (.var "g" 0) op (.var "x" 0)))

def mixedCode (op : AluOp) : Program :=
  binaryCode .add (binaryCode .add (Cell.frame (-6)).load [.inst (.imm .rret 3)])
    (binaryCode op (Cell.record "var_g").load (Cell.frame (-6)).load)

private theorem mixedCode_covered (op : AluOp) :
    ∀ i, .inst i ∈ mixedCode op → ∀ label ∈ i.refs, ∃ v, mixedLabels.get? label = some v := by
  intro i hi label hlabel
  have hmem : label ∈ (mixedCode op).instructions.flatMap Instruction.refs :=
    List.mem_flatMap.mpr ⟨i, Program.mem_instructions.mpr hi, hlabel⟩
  have hrefs : (mixedCode op).instructions.flatMap Instruction.refs = ["var_g"] := rfl
  rw [hrefs] at hmem
  obtain rfl := List.mem_singleton.mp hmem
  exact ⟨0x200, by decide⟩

private theorem size_mixedCode (op : AluOp) : Program.size (mixedCode op) = 68 := by
  simp [mixedCode, binaryCode, Cell.load, Line.size, Instruction.size, Instruction.memr, Instruction.imm,
    Instruction.mov, Instruction.push, Instruction.pop, Instruction.alu, Instruction.immLabel, Opcode.size]

private theorem mixed_address {op : AluOp} {name : String} (h : name ∈ (mixedExpr op).reads) :
    mixedScope.address mixedLabels 0x8000 name = 0x7FFA ∨ mixedScope.address mixedLabels 0x8000 name = 0x202 := by
  have hname : name = "x" ∨ name = "g" ∨ name = "x" := by simpa [mixedExpr, Expr.reads] using h
  rcases hname with rfl | rfl | rfl
  · exact .inl (by decide)
  · exact .inr (by decide)
  · exact .inl (by decide)

private theorem mixed_room {m : Machine} (hrsp : m.reg .rsp = 0x8000) (hrsb : m.reg .rsb = 0x8000) (op : AluOp) :
    m.Room mixedScope mixedLabels 0 (mixedCode op) (mixedExpr op) := by
  have hsp : m.sp = 0x8000 := congrArg UInt16.toNat hrsp
  have hpending : (mixedExpr op).pending = 2 := rfl
  refine ⟨by omega, fun b _ hhi hb => ?_, fun name hname => ?_⟩
  · rw [size_mixedCode] at hhi
    have hlo := hb.1
    omega
  · rw [hrsb]
    rcases mixed_address hname with heq | heq
    · rw [heq]
      exact ⟨fun hb => absurd (hsp ▸ hb.1) (by decide), fun hb => absurd (hsp ▸ hb.1) (by decide)⟩
    · rw [heq]
      exact ⟨fun hb => absurd (hsp ▸ hb.1) (by decide), fun hb => absurd (hsp ▸ hb.1) (by decide)⟩

/-- A machine with bytes at the beginning of memory and zeros after them. -/
theorem exists_mixed_machine {bytes : List UInt8} (hlen : bytes.length = 68) (op : AluOp) :
    ∃ m : Machine, m.pc = 0 ∧ m.reg .rsp = 0x8000 ∧ m.reg .rsb = 0x8000 ∧ m.mem.Holds 0 bytes ∧
      m.Reads mixedScope mixedLabels (fun _ => 0) (mixedExpr op) := by
  have hfits : bytes.length ≤ 0x10000 := by omega
  have hload {a : Nat} (hlo : 68 ≤ a) (hhi : a + 1 < 0x10000) : (Memory.ofImage bytes hfits).load a.toUInt16 = 0 := by
    have hnext : a.toUInt16 + 1 = (a + 1).toUInt16 := by simp [Nat.toUInt16_eq]
    rw [Memory.load, hnext, Memory.byte_ofImage hfits (by omega), Memory.byte_ofImage hfits hhi,
      List.getD_eq_default _ _ (by omega), List.getD_eq_default _ _ (by omega)]
    decide
  refine ⟨.start (.ofImage bytes hfits), rfl, rfl, rfl, ⟨by omega, fun k hk => ?_⟩, fun name hname => ?_⟩
  · rw [Nat.zero_add]
    exact (Memory.byte_ofImage hfits (by omega)).trans (List.getD_eq_getElem bytes 0 hk)
  · show (Memory.ofImage bytes hfits).load (mixedScope.address mixedLabels 0x8000 name) = 0
    rcases mixed_address hname with heq | heq
    · rw [heq]
      exact @hload 0x7FFA (by omega) (by omega)
    · rw [heq]
      exact @hload 0x202 (by omega) (by omega)

/-- Where all variables are zero, a difference has a value and a remainder has none. -/
theorem expression_code_ends_as_expression_mixed :
    (∃ m m' : Machine, m.mem.HoldsCode mixedLabels 0 (mixedCode .sub) ∧ m.Leaves (mixedCode .sub) 2 3 m') ∧
      ∃ m : Machine, m.mem.HoldsCode mixedLabels 0 (mixedCode .mod) ∧ m.Traps (mixedCode .mod) 1 := by
  have hends (op : AluOp) : ∃ m : Machine, m.mem.HoldsCode mixedLabels 0 (mixedCode op) ∧
      m.Ends (mixedCode op) 2 (AluOp.add.outcome 1 1 (.ok 3) (op.outcome 0 0 (.ok 0) (.ok 0))) := by
    have hcode : compileExpr mixedScope (mixedExpr op) ⟨0⟩ = .ok (mixedCode op, ⟨0⟩) := rfl
    obtain ⟨bytes, hbytes, -, hm⟩ := expression_code_ends_as_expression rfl hcode (mixedCode_covered op)
    have hlen : bytes.length = 68 := (Program.length_encode hbytes).trans (size_mixedCode op)
    obtain ⟨m, hpc, hrsp, hrsb, hheld, hreads⟩ := exists_mixed_machine hlen op
    have hends := hm m (by rw [hpc]; exact hheld) (by rw [hpc]; exact mixed_room hrsp hrsb op)
    have hx := hreads "x" (by simp [mixedExpr, Expr.reads])
    have hg := hreads "g" (by simp [mixedExpr, Expr.reads])
    simp only [mixedExpr, Expr.outcome, hx, hg] at hends
    exact ⟨m, ⟨bytes, hbytes, hheld⟩, hends⟩
  obtain ⟨m, hheld, m', hleaves⟩ := hends .sub
  obtain ⟨x, hheld', htraps⟩ := hends .mod
  exact ⟨⟨m, m', hheld, hleaves⟩, x, hheld', htraps⟩

end StackToolchain
