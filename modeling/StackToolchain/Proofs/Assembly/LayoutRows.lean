import StackToolchain.Assembly.Layout
import StackToolchain.Proofs.Assembly.Exactness
import StackToolchain.Proofs.Text.Columns

/-! The layout table shows the image.
The table is made by a walk of its own, in which addresses wrap and an instruction without bytes is no error. For a
program that is assembled the walk keeps step with both passes of assembly: every row shows the address of its
instruction and the bytes that the image has there. -/
namespace StackToolchain

namespace Layout

open Text (hex padRight isWord)

def shownAddress (row : String) : Option Nat :=
  (Text.readDigits 16 0x10000 ((row.toList.drop 1).take 4)).toOption

/-- The bytes in the eleven characters of a row before its bar; a word that is no byte shows as nothing. -/
def shownBytes (row : String) : List (Option UInt8) :=
  (Text.words ((row.toList.drop 7).take 11)).map fun word =>
    (Text.readDigits 16 0x100 word).toOption.map Nat.toUInt8

def rowOf (addr : Nat) (bytes : List UInt8) (i : Instruction) : String :=
  "[" ++ hex 4 addr ++ "] " ++ padRight 11 (byteColumn bytes) ++ " |     " ++ i.colouredText

section
variable {addr : Nat} {bytes : List UInt8} {i : Instruction}

private theorem toList_byteColumn (bytes : List UInt8) :
    (byteColumn bytes).toList = [' '].intercalate (bytes.map fun b => (hex 2 b.toNat).toList) := by
  simp [byteColumn, Function.comp_def]

private theorem length_byteColumn (bytes : List UInt8) : (byteColumn bytes).length = 3 * bytes.length - 1 := by
  rw [← String.length_toList, toList_byteColumn, Text.length_intercalate (k := 2), List.length_map]
  simp only [List.mem_map, forall_exists_index, and_imp]
  rintro _ b _ rfl
  rw [String.length_toList, Text.length_hex (by omega) b.toNat_lt]

/-- The text of a row behind its address. -/
theorem toList_rowOf (addr : Nat) (bytes : List UInt8) (i : Instruction) :
    ∃ more, (rowOf addr bytes i).toList = '[' :: ((hex 4 addr).toList ++ (']' :: ' ' ::
      ((byteColumn bytes).toList ++ List.replicate (11 - (byteColumn bytes).length) ' ' ++ more))) :=
  ⟨(" |     " ++ i.colouredText).toList, by simp [rowOf, padRight, Text.repeated]⟩

private theorem length_address (haddr : addr < 0x10000) : (hex 4 addr).toList.length = 4 := by
  rw [String.length_toList, Text.length_hex (by omega) haddr]

private theorem drop_rowOf (haddr : addr < 0x10000) (bytes : List UInt8) (i : Instruction) :
    ∃ more, (rowOf addr bytes i).toList.drop 7 =
      (byteColumn bytes).toList ++ List.replicate (11 - (byteColumn bytes).length) ' ' ++ more := by
  obtain ⟨more, hmore⟩ := toList_rowOf addr bytes i
  refine ⟨more, ?_⟩
  rw [hmore, List.drop_succ_cons, List.drop_append, length_address haddr,
    List.drop_eq_nil_of_le (by rw [length_address haddr]; omega)]
  rfl

private theorem shownAddress_rowOf (haddr : addr < 0x10000) : shownAddress (rowOf addr bytes i) = some addr := by
  obtain ⟨more, hmore⟩ := toList_rowOf addr bytes i
  rw [shownAddress, hmore, List.drop_succ_cons, List.drop_zero, List.take_left' (length_address haddr),
    Text.readDigits_hex haddr]
  rfl

private theorem shownBytes_rowOf (haddr : addr < 0x10000) (hbytes : bytes.length ≤ 4) :
    shownBytes (rowOf addr bytes i) = bytes.map some := by
  obtain ⟨more, hmore⟩ := drop_rowOf haddr bytes i
  have hcolumn : ((byteColumn bytes).toList ++ List.replicate (11 - (byteColumn bytes).length) ' ').length = 11 := by
    rw [List.length_append, List.length_replicate, String.length_toList, length_byteColumn]
    omega
  have hwords : ∀ word ∈ bytes.map fun b => (hex 2 b.toNat).toList, isWord word = true := by
    simp [Text.isWord_hex]
  rw [shownBytes, hmore, List.take_left' hcolumn, Text.words_append_spaces, toList_byteColumn,
    Text.words_intercalate hwords, List.map_map]
  refine List.map_congr_left fun b _ => ?_
  rw [Function.comp_apply, Text.readDigits_hex b.toNat_lt]
  simp [Except.toOption]

private theorem shownBytes_labelRow (name : String) : shownBytes (labelRow name) = [] := by
  have hspaces : ((labelRow name).toList.drop 7).take 11 = List.replicate 11 ' ' := by simp [labelRow, Text.repeated]
  rw [shownBytes, hspaces]
  rfl

/-- A row with the mark of an unknown label in the place of bytes shows a word that is no byte. -/
theorem shownBytes_of_unresolved {row : String} (h : unresolved.toList <+: row.toList.drop 7) :
    shownBytes row = [none] := by
  obtain ⟨more, hmore⟩ := h
  rw [shownBytes, ← hmore, List.take_append_of_le_length (by decide)]
  decide

end

section
variable {labels : Labels} {p : Program} {image : List UInt8}

private theorem length_rows (labels : Labels) (addr : UInt16) (p : Program) :
    (rows labels addr p).length = p.length := by
  induction p generalizing addr with
  | nil => rfl
  | cons line p ih => cases line <;> simp [rows, ih]

/-- The walk reaches a line at the size of the lines before it, modulo the size of the address space. -/
theorem rows_append (labels : Labels) (addr : UInt16) (p q : Program) :
    rows labels addr (p ++ q) = rows labels addr p ++ rows labels (addr + (Program.size p).toUInt16) q := by
  induction p generalizing addr with
  | nil => simp [rows]
  | cons line p ih =>
    cases line with
    | label name => simp [rows, ih, Line.size]
    | inst i => simp [rows, ih, Line.size, UInt16.add_assoc]

private theorem getElem?_rows (labels : Labels) (before : Program) (line : Line) (after : Program) :
    (rows labels 0 (before ++ line :: after))[before.length]? =
      (rows labels (Program.size before).toUInt16 [line])[0]? := by
  rw [rows_append, UInt16.zero_add, List.getElem?_append_right (by rw [length_rows]), length_rows, Nat.sub_self]
  cases line <;> rfl

private theorem instRow_eq {addr : UInt16} {i : Instruction} {bytes : List UInt8}
    (h : i.encode labels.get? = .ok bytes) : instRow labels addr i = rowOf addr.toNat bytes i := by
  rw [instRow, h, rowOf]

private theorem shownBytes_rows (h : p.encode labels = .ok image) (addr : UInt16) :
    (rows labels addr p).flatMap shownBytes = image.map some := by
  induction p generalizing addr image with
  | nil =>
    cases h
    rfl
  | cons line p ih =>
    cases line with
    | label name =>
      rw [rows, List.flatMap_cons, shownBytes_labelRow]
      exact ih h addr
    | inst i =>
      obtain ⟨front, back, hfront, hback, rfl⟩ := (Program.encode_inst i p).mp h
      obtain ⟨hencode, hlen⟩ := Instruction.image_iff.mp hfront
      have hsize : front.length ≤ 4 := hlen ▸ i.size_le
      rw [rows, List.flatMap_cons, instRow_eq hencode, shownBytes_rowOf addr.toNat_lt hsize, ih hback, List.map_append]

private theorem unresolved_not_in_rows (h : p.encode labels = .ok image) (addr : UInt16) :
    ∀ row ∈ rows labels addr p, ¬ unresolved.toList <+: row.toList.drop 7 := by
  intro row hrow hmark
  have hnone : none ∈ (rows labels addr p).flatMap shownBytes := by
    refine List.mem_flatMap.mpr ⟨row, hrow, ?_⟩
    rw [shownBytes_of_unresolved hmark]
    exact List.mem_singleton_self none
  rw [shownBytes_rows h addr] at hnone
  simp at hnone

end

/-- Rows show a program and its image: a row for each line in order. The row of an instruction has its address, which is
the size of the lines before it, and as many bytes of the image from there on as the instruction declares. -/
structure Shows (rows : List String) (p : Program) (image : List UInt8) : Prop where
  count : rows.length = p.length
  label : ∀ before name after, p = before ++ .label name :: after → rows[before.length]? = some (labelRow name)
  inst : ∀ before i after, p = before ++ .inst i :: after →
    ∃ row slice, rows[before.length]? = some row ∧ slice = (image.drop (Program.size before)).take i.size ∧
      slice.length = i.size ∧ row = rowOf (Program.size before) slice i ∧
        shownAddress row = some (Program.size before) ∧ shownBytes row = slice.map some
  spells : rows.flatMap shownBytes = image.map some
  resolved : ∀ row ∈ rows, ¬ unresolved.toList <+: row.toList.drop 7

end Layout

/-- The layout table of a program that is assembled, under the labels of the program, has between its two rulers the
rows that show the program and its image. -/
theorem layout_shows_image {p : Program} {image : List UInt8} (h : p.assemble = .ok image) :
    ∃ labels rows, Labels.collect p = .ok labels ∧
      p.layout labels = Text.unlines (Layout.ruler :: rows ++ [Layout.ruler]) ∧ Layout.Shows rows p image := by
  obtain ⟨labels, hcollect, himaged⟩ := Program.assemble_eq_ok.mp h
  have hencode := Program.encode_eq_ok.mpr himaged
  have hbegins := (Program.fitsFrom_iff.mp (Labels.collect_eq_ok.mp hcollect).1).1
  refine ⟨labels, Layout.rows labels 0 p, hcollect, rfl, Layout.length_rows labels 0 p, ?_, ?_,
    Layout.shownBytes_rows hencode 0, Layout.unresolved_not_in_rows hencode 0⟩
  · rintro before name after rfl
    rw [Layout.getElem?_rows]
    rfl
  · rintro before i after rfl
    have hbytes := himaged.bytes before i after rfl
    have haddr : Program.size before < 0x10000 := by
      have := hbegins before (.inst i) after rfl
      omega
    have hlen : ((image.drop (Program.size before)).take i.size).length = i.size := by
      rw [List.length_take, List.length_drop, himaged.length, Program.size_append, Program.size_cons, Line.size]
      omega
    have hrow : Layout.instRow labels (Program.size before).toUInt16 i =
        Layout.rowOf (Program.size before) ((image.drop (Program.size before)).take i.size) i := by
      rw [Layout.instRow_eq hbytes, toNat_toUInt16 haddr]
    refine ⟨_, _, ?_, rfl, hlen, rfl, Layout.shownAddress_rowOf haddr,
      Layout.shownBytes_rowOf haddr (hlen.trans_le i.size_le)⟩
    rw [Layout.getElem?_rows, ← hrow]
    rfl

def skippingProgram : Program :=
  [.inst (.jmp "end"), .label "data", .inst (.word 0xABCD), .label "end", .inst .halt]

theorem layout_shows_image_of_skipping :
    skippingProgram.assemble = .ok [0x17, 8, 0, 0, 0x1A, 0, 0xCD, 0xAB, 0, 0] ∧
      ∃ labels rows, Labels.collect skippingProgram = .ok labels ∧
        skippingProgram.layout labels = Text.unlines (Layout.ruler :: rows ++ [Layout.ruler]) ∧
          Layout.Shows rows skippingProgram [0x17, 8, 0, 0, 0x1A, 0, 0xCD, 0xAB, 0, 0] :=
  ⟨rfl, layout_shows_image rfl⟩

end StackToolchain
