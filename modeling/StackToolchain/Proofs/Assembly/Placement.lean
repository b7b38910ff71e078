import StackToolchain.Proofs.Assembly.Encoding

/-! Where the lines of a program come to stand.
The address of a line is the size of the lines before it. The label table of a program gives every label the
address of its line; the image of a program holds the bytes of every instruction at its address, and
disassembly finds each of them again. -/
namespace StackToolchain

def Program.size (p : Program) : Nat :=
  (p.map Line.size).sum

namespace Program

@[simp] theorem size_nil : Program.size [] = 0 := rfl

@[simp] theorem size_cons (line : Line) (p : Program) : Program.size (line :: p) = line.size + Program.size p := by
  simp [Program.size]

@[simp] theorem size_append (p q : Program) : Program.size (p ++ q) = Program.size p + Program.size q := by
  simp [Program.size]

/-- The lines of `part` stand one after the other in `p`, the first of them at an address. -/
def Placed (p : Program) (addr : Nat) (part : Program) : Prop :=
  ∃ before after, p = before ++ (part ++ after) ∧ Program.size before = addr

def instAt : Program → Nat → Option Instruction
  | [], _ => none
  | .label _ :: rest, addr => instAt rest addr
  | .inst i :: rest, addr =>
    if addr = 0 then some i else if addr < i.size then none else instAt rest (addr - i.size)

namespace Placed

variable {p part rest : Program} {addr : Nat}

theorem left (h : Placed p addr (part ++ rest)) : Placed p addr part := by
  obtain ⟨before, after, rfl, rfl⟩ := h
  exact ⟨before, rest ++ after, by simp, rfl⟩

theorem right (h : Placed p addr (part ++ rest)) : Placed p (addr + Program.size part) rest := by
  obtain ⟨before, after, rfl, rfl⟩ := h
  exact ⟨before ++ part, after, by simp, by simp⟩

theorem head {line : Line} (h : Placed p addr (line :: rest)) : Placed p addr [line] :=
  (show Placed p addr ([line] ++ rest) from h).left

theorem tail {line : Line} (h : Placed p addr (line :: rest)) : Placed p (addr + line.size) rest := by
  simpa using (show Placed p addr ([line] ++ rest) from h).right

/-- Placing is transitive: a part of a part stands where its own offset puts it. -/
theorem trans {inner : Program} {offset : Nat} (h : Placed p addr part) (hi : Placed part offset inner) :
    Placed p (addr + offset) inner := by
  obtain ⟨before, after, rfl, rfl⟩ := h
  obtain ⟨front, back, rfl, rfl⟩ := hi
  exact ⟨before ++ front, back ++ after, by simp, by simp⟩

theorem add_size_le (h : Placed p addr part) : addr + Program.size part ≤ Program.size p := by
  obtain ⟨before, after, rfl, rfl⟩ := h
  simp only [size_append]
  omega

theorem mem {line : Line} (h : Placed p addr (line :: rest)) : line ∈ p := by
  obtain ⟨before, after, rfl, -⟩ := h
  simp

end Placed

private theorem instAt_append (p q : Program) (addr : Nat) :
    instAt (p ++ q) (Program.size p + addr) = instAt q addr := by
  induction p with
  | nil => simp
  | cons line p ih =>
    cases line with
    | label name => simpa [instAt, Line.size] using ih
    | inst i =>
      have hpos := i.size_pos
      simp only [List.cons_append, instAt, size_cons, Line.size]
      rw [if_neg (by omega), if_neg (by omega)]
      rw [show i.size + Program.size p + addr - i.size = Program.size p + addr by omega, ih]

theorem Placed.instAt_eq {p rest : Program} {addr : Nat} {i : Instruction}
    (h : Placed p addr (.inst i :: rest)) : p.instAt addr = some i := by
  obtain ⟨before, after, rfl, rfl⟩ := h
  have := instAt_append before (.inst i :: rest ++ after) 0
  simpa [instAt] using this

theorem placed_of_instAt {p : Program} {addr : Nat} {i : Instruction} (h : p.instAt addr = some i) :
    Placed p addr [.inst i] := by
  induction p generalizing addr with
  | nil => simp [instAt] at h
  | cons line p ih =>
    have under : ∀ {offset}, Placed p offset [.inst i] → Placed (line :: p) (line.size + offset) [.inst i] := by
      rintro offset ⟨before, after, rfl, rfl⟩
      exact ⟨line :: before, after, by simp, by simp⟩
    cases line with
    | label name => simpa [Line.size] using under (ih h)
    | inst j =>
      simp only [instAt] at h
      split at h
      · rename_i hz
        cases h
        exact ⟨[], p, rfl, by simp [hz]⟩
      · split at h
        · cases h
        · have := under (ih h)
          rwa [Line.size, Nat.add_sub_cancel' (by omega)] at this

end Program

namespace Program

def labelNames (p : Program) : List String :=
  p.filterMap fun
    | .label name => some name
    | .inst _ => none

@[simp] theorem labelNames_append (p q : Program) : labelNames (p ++ q) = labelNames p ++ labelNames q := by
  simp [labelNames]

@[simp] theorem labelNames_nil : labelNames [] = [] := rfl

@[simp] theorem labelNames_label (name : String) (p : Program) :
    labelNames (.label name :: p) = name :: labelNames p := rfl

@[simp] theorem labelNames_inst (i : Instruction) (p : Program) : labelNames (.inst i :: p) = labelNames p := rfl

theorem mem_labelNames {p : Program} {name : String} : name ∈ p.labelNames ↔ .label name ∈ p := by
  constructor
  · intro h
    obtain ⟨line, hl, hn⟩ := List.mem_filterMap.mp h
    cases line with
    | label other =>
      cases hn
      exact hl
    | inst i => cases hn
  · intro h
    exact List.mem_filterMap.mpr ⟨_, h, rfl⟩

def labelsFrom (addr : Nat) : Program → List (String × UInt16)
  | [] => []
  | .label name :: rest => (name, addr.toUInt16) :: labelsFrom addr rest
  | .inst i :: rest => labelsFrom (addr + i.size) rest

theorem map_fst_labelsFrom (addr : Nat) (p : Program) : (p.labelsFrom addr).map Prod.fst = p.labelNames := by
  induction p generalizing addr with
  | nil => rfl
  | cons line p ih => cases line <;> simp [labelsFrom, ih]

/-- Every line begins below the end of the address space, and the last does not reach past it. -/
def FitsFrom (addr : Nat) : Program → Prop
  | [] => addr ≤ 0x10000
  | line :: rest => addr < 0x10000 ∧ FitsFrom (addr + line.size) rest

theorem FitsFrom.size_le {p : Program} {addr : Nat} (h : p.FitsFrom addr) : addr + Program.size p ≤ 0x10000 := by
  induction p generalizing addr with
  | nil => exact h
  | cons line p ih =>
    have := ih h.2
    simp only [size_cons]
    omega

/-- A program whose last line is an instruction fits as soon as its size does: only a label could stand at the
very end of the address space. -/
theorem fitsFrom_of_size_le {p : Program} {addr : Nat} {i : Instruction}
    (h : addr + Program.size (p ++ [.inst i]) ≤ 0x10000) : FitsFrom addr (p ++ [.inst i]) := by
  induction p generalizing addr with
  | nil =>
    have := i.size_pos
    simp only [List.nil_append, size_cons, size_nil, Line.size] at h
    exact ⟨by omega, by simpa [FitsFrom, Line.size] using h⟩
  | cons line p ih =>
    have := i.size_pos
    simp only [List.cons_append, size_cons, size_append, size_nil, Line.size] at h
    refine ⟨by omega, ih ?_⟩
    simp only [size_append, size_cons, size_nil, Line.size]
    omega

private theorem Placed.mem_labelsFrom {p : Program} {addr : Nat} {name : String} {rest : Program}
    (h : Placed p addr (.label name :: rest)) (start : Nat) :
    (name, (start + addr).toUInt16) ∈ p.labelsFrom start := by
  obtain ⟨before, after, rfl, rfl⟩ := h
  induction before generalizing start with
  | nil => simp [labelsFrom]
  | cons line before ih =>
    cases line with
    | label other =>
      simp only [List.cons_append, labelsFrom, size_cons, Line.size, Nat.zero_add]
      exact .tail _ (ih start)
    | inst i =>
      have := ih (start + i.size)
      simp only [List.cons_append, labelsFrom, size_cons, Line.size]
      rwa [Nat.add_assoc] at this

end Program

theorem Table.contains_iff {α : Type} (t : Table α) (name : String) :
    t.contains name ↔ name ∈ t.entries.map Prod.fst := by
  obtain ⟨entries⟩ := t
  simp only [Table.contains, Table.get?]
  induction entries with
  | nil => simp
  | cons entry entries ih =>
    obtain ⟨key, a⟩ := entry
    by_cases h : name = key
    · simp [h]
    · have hk : (name == key) = false := by simpa using h
      simp only [List.lookup_cons, hk, ih]
      simp [h]

private theorem Table.get?_of_mem {α : Type} {t : Table α} {name : String} {a : α}
    (nodup : (t.entries.map Prod.fst).Nodup) (h : (name, a) ∈ t.entries) : t.get? name = some a := by
  obtain ⟨entries⟩ := t
  simp only [Table.get?]
  induction entries with
  | nil => simp at h
  | cons entry entries ih =>
    obtain ⟨key, b⟩ := entry
    simp only [List.map_cons, List.nodup_cons] at nodup
    rcases List.mem_cons.mp h with he | hin
    · cases he
      simp
    · have hk : (name == key) = false := by
        have hne : name ≠ key := by
          rintro rfl
          exact nodup.1 (List.mem_map_of_mem (f := Prod.fst) hin)
        simpa using hne
      simp only [List.lookup_cons, hk]
      exact ih nodup.2 hin

namespace Labels

open Program

/-- The first pass succeeds exactly on lines that fit and whose labels are new and all different, and it adds
them in order with the addresses of their lines. -/
theorem collectFrom_eq_ok {p : Program} {addr : Nat} {t t' : Labels} :
    collectFrom addr t p = .ok t' ↔
      p.FitsFrom addr ∧ p.labelNames.Nodup ∧ (∀ name ∈ p.labelNames, name ∉ t.entries.map Prod.fst) ∧
        t' = ⟨t.entries ++ p.labelsFrom addr⟩ := by
  induction p generalizing addr t with
  | nil =>
    simp only [collectFrom, FitsFrom, labelNames_nil, labelsFrom, List.append_nil]
    split <;> simp_all [eq_comm]
  | cons line p ih =>
    simp only [collectFrom, FitsFrom]
    split
    · rename_i hlt
      cases line with
      | inst i => simp [ih, Line.size, labelsFrom, hlt]
      | label name =>
        simp only [define, Table.contains_iff]
        split
        · rename_i hmem
          simp only [bind, Except.bind, labelNames_label, List.mem_cons, forall_eq_or_imp]
          constructor
          · rintro ⟨⟩
          · rintro ⟨-, -, ⟨hnew, -⟩, -⟩
            exact absurd hmem hnew
        · rename_i hmem
          simp only [bind, Except.bind, ih, labelNames_label, List.nodup_cons, Line.size, Nat.add_zero, labelsFrom,
            Table.push, List.map_append, List.map_cons, List.map_nil, List.mem_append, List.mem_cons,
            List.not_mem_nil, or_false, forall_eq_or_imp, List.append_assoc, List.cons_append, List.nil_append]
          constructor
          · rintro ⟨hfit, hnd, hnew, rfl⟩
            exact ⟨⟨hlt, hfit⟩, ⟨fun h => hnew name h (.inr rfl), hnd⟩,
              ⟨hmem, fun other h hin => hnew other h (.inl hin)⟩, rfl⟩
          · rintro ⟨⟨-, hfit⟩, ⟨hfresh, hnd⟩, ⟨-, hnew⟩, rfl⟩
            refine ⟨hfit, hnd, fun other h hin => ?_, rfl⟩
            rcases hin with hin | rfl
            · exact hnew other h hin
            · exact hfresh h
    · rename_i hlt
      simp [hlt]

theorem collect_eq_ok {p : Program} {labels : Labels} :
    collect p = .ok labels ↔ p.FitsFrom 0 ∧ p.labelNames.Nodup ∧ labels = ⟨p.labelsFrom 0⟩ := by
  simp [collect, collectFrom_eq_ok, Table.empty]

/-- A label has the address of its line. -/
theorem get?_of_placed {p rest : Program} {labels : Labels} {addr : Nat} {name : String}
    (hc : collect p = .ok labels) (h : Placed p addr (.label name :: rest)) :
    labels.get? name = some addr.toUInt16 := by
  obtain ⟨-, hnd, rfl⟩ := collect_eq_ok.mp hc
  apply Table.get?_of_mem
  · simpa [map_fst_labelsFrom] using hnd
  · simpa using h.mem_labelsFrom 0

end Labels

namespace Program

variable {labels : Labels}

private theorem encodeOnto_eq (done : List UInt8) (p : Program) :
    encodeOnto labels done p = (p.encode labels).map (done.reverse ++ ·) := by
  induction p generalizing done with
  | nil => simp [encode, encodeOnto, Except.map]
  | cons line p ih =>
    cases line with
    | label name => simpa [encode, encodeOnto] using ih done
    | inst i =>
      simp only [encode, encodeOnto]
      cases i.image labels with
      | error e => rfl
      | ok bytes =>
        simp only [bind, Except.bind, ih, Except.map]
        cases encode p labels <;> simp

theorem encode_inst (i : Instruction) (p : Program) {bytes : List UInt8} :
    encode (.inst i :: p) labels = .ok bytes ↔
      ∃ front back, i.image labels = .ok front ∧ p.encode labels = .ok back ∧ bytes = front ++ back := by
  rw [show encode (.inst i :: p) labels = i.image labels >>= fun front => encodeOnto labels (front.reverse ++ []) p
    from rfl, bind_eq_ok]
  constructor
  · rintro ⟨front, hf, h⟩
    rw [encodeOnto_eq] at h
    cases hb : encode p labels with
    | error e => simp [hb, Except.map] at h
    | ok back => exact ⟨front, back, hf, rfl, by simpa [hb, Except.map, eq_comm] using h⟩
  · rintro ⟨front, back, hf, hb, rfl⟩
    exact ⟨front, hf, by simp [encodeOnto_eq, hb, Except.map]⟩

theorem encode_append {p q : Program} {bytes : List UInt8} :
    encode (p ++ q) labels = .ok bytes ↔
      ∃ front back, p.encode labels = .ok front ∧ q.encode labels = .ok back ∧ bytes = front ++ back := by
  induction p generalizing bytes with
  | nil => simp [encode, encodeOnto]
  | cons line p ih =>
    cases line with
    | label name => exact ih
    | inst i =>
      simp only [List.cons_append, encode_inst, ih]
      constructor
      · rintro ⟨front, _, hf, ⟨mid, back, hm, hb, rfl⟩, rfl⟩
        exact ⟨front ++ mid, back, ⟨front, mid, hf, hm, rfl⟩, hb, by simp⟩
      · rintro ⟨_, back, ⟨front, mid, hf, hm, rfl⟩, hb, rfl⟩
        exact ⟨front, mid ++ back, hf, ⟨mid, back, hm, hb, rfl⟩, by simp⟩

/-- An image is as long as its program. -/
theorem length_encode {p : Program} {bytes : List UInt8} (h : p.encode labels = .ok bytes) :
    bytes.length = Program.size p := by
  induction p generalizing bytes with
  | nil => cases h; rfl
  | cons line p ih =>
    cases line with
    | label name => simpa [Line.size] using ih h
    | inst i =>
      obtain ⟨front, back, hf, hb, rfl⟩ := (encode_inst i p).mp h
      simp [Instruction.length_image hf, ih hb, Line.size]

/-- A program has an image if its instructions are well-formed and its labels have addresses. -/
theorem exists_encode {p : Program} (wf : ∀ i, .inst i ∈ p → i.WellFormed)
    (refs : ∀ i, .inst i ∈ p → ∀ label ∈ i.refs, ∃ v, labels.get? label = some v) :
    ∃ bytes, p.encode labels = .ok bytes := by
  induction p with
  | nil => exact ⟨[], rfl⟩
  | cons line p ih =>
    obtain ⟨back, hb⟩ := ih (fun i hi => wf i (.tail _ hi)) (fun i hi => refs i (.tail _ hi))
    cases line with
    | label name => exact ⟨back, hb⟩
    | inst i =>
      obtain ⟨front, hf⟩ := Instruction.exists_image (wf i (.head _)) (refs i (.head _))
      exact ⟨front ++ back, (encode_inst i p).mpr ⟨front, back, hf, hb, rfl⟩⟩

/-- The image of a program holds the bytes of every instruction at its address. -/
theorem Placed.image_at {p : Program} {addr : Nat} {i : Instruction} {rest : Program} {bytes : List UInt8}
    (h : Placed p addr (.inst i :: rest)) (he : p.encode labels = .ok bytes) :
    ∃ before image after, bytes = before ++ (image ++ after) ∧ before.length = addr ∧
      i.image labels = .ok image := by
  obtain ⟨front, back, rfl, rfl⟩ := h
  obtain ⟨before, tail, hb, ht, rfl⟩ := encode_append.mp he
  obtain ⟨image, after, hi, -, rfl⟩ := (encode_inst i (rest ++ back)).mp ht
  exact ⟨before, image, after, rfl, length_encode hb, hi⟩

def resolvedFrom (labels : Labels) (addr : Nat) : Program → List (UInt16 × Instruction)
  | [] => []
  | .label _ :: rest => resolvedFrom labels addr rest
  | .inst i :: rest => (addr.toUInt16, i.resolve labels.get?) :: resolvedFrom labels (addr + i.size) rest

theorem Placed.mem_resolvedFrom {p : Program} {addr : Nat} {i : Instruction} {rest : Program}
    (h : Placed p addr (.inst i :: rest)) (start : Nat) :
    ((start + addr).toUInt16, i.resolve labels.get?) ∈ p.resolvedFrom labels start := by
  obtain ⟨before, after, rfl, rfl⟩ := h
  induction before generalizing start with
  | nil => simp [resolvedFrom]
  | cons line before ih =>
    cases line with
    | label other => simpa [resolvedFrom, Line.size] using ih start
    | inst j =>
      have := ih (start + j.size)
      simp only [List.cons_append, resolvedFrom, size_cons, Line.size]
      rw [Nat.add_assoc] at this
      exact .tail _ this

/-- Disassembly finds the instructions of a program again, with their labels resolved. -/
theorem disassembleOnto_encode {p : Program} {addr : Nat} {done : List (UInt16 × Instruction)} {bytes : List UInt8}
    (wf : ∀ i, .inst i ∈ p → i.WellFormed) (h : p.encode labels = .ok bytes) :
    disassembleOnto addr done bytes = .ok (done.reverse ++ p.resolvedFrom labels addr) := by
  induction p generalizing addr done bytes with
  | nil =>
    cases h
    rw [disassembleOnto.eq_def]
    simp [resolvedFrom]
  | cons line p ih =>
    have wf' : ∀ i, .inst i ∈ p → i.WellFormed := fun i hi => wf i (.tail _ hi)
    cases line with
    | label name => exact ih wf' h
    | inst i =>
      obtain ⟨front, back, hf, hb, rfl⟩ := (encode_inst i p).mp h
      have hd := Instruction.decode_image addr (wf i (.head _)) hf back
      have hlen := Instruction.length_image hf
      have hpos := i.size_pos
      obtain ⟨b, tail, rfl⟩ : ∃ b tail, front = b :: tail := by
        cases front with
        | nil => simp at hlen; omega
        | cons b tail => exact ⟨b, tail, rfl⟩
      have hdrop : (tail ++ back).drop (i.size - 1) = back := by
        simp only [List.length_cons] at hlen
        rw [← hlen, Nat.add_sub_cancel, List.drop_left]
      rw [List.cons_append] at hd ⊢
      rw [disassembleOnto.eq_def]
      simp only [hd]
      rw [show (i.resolve labels.get?).size = i.size from rfl, hdrop, ih wf' hb]
      simp [resolvedFrom]

theorem disassemble_encode {p : Program} {bytes : List UInt8} (wf : ∀ i, .inst i ∈ p → i.WellFormed)
    (h : p.encode labels = .ok bytes) : disassemble bytes = .ok (p.resolvedFrom labels 0) := by
  rw [disassemble, disassembleOnto_encode wf h]
  rfl

end Program

end StackToolchain
