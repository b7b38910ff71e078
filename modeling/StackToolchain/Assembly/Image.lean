import StackToolchain.Assembly.Labels

/-! Program images: the second pass of assembly, and the reading of an image back into instructions. -/
namespace StackToolchain

def Instruction.image (labels : Labels) (i : Instruction) : Except AssemblyError (List UInt8) :=
  match i.encode labels.get? with
  | .error name => .error (.undefinedLabel name)
  | .ok bytes => if bytes.length = i.size then .ok bytes else .error (.lengthMismatch i bytes.length)

def Program.encodeOnto (labels : Labels) (done : List UInt8) : Program → Except AssemblyError (List UInt8)
  | [] => .ok done.reverse
  | .label _ :: rest => encodeOnto labels done rest
  | .inst i :: rest => do
    let bytes ← i.image labels
    encodeOnto labels (bytes.reverse ++ done) rest

def Program.encode (p : Program) (labels : Labels) : Except AssemblyError (List UInt8) :=
  Program.encodeOnto labels [] p

def Program.assemble (p : Program) : Except AssemblyError (List UInt8) := do
  let labels ← Labels.collect p
  p.encode labels

def disassembleOnto (addr : Nat) (done : List (UInt16 × Instruction)) (bytes : List UInt8) :
    Except DecodeError (List (UInt16 × Instruction)) :=
  match bytes with
  | [] => .ok done.reverse
  | b :: rest =>
    match Instruction.decode addr (b :: rest) with
    | .error e => .error e
    | .ok i => disassembleOnto (addr + i.size) ((addr.toUInt16, i) :: done) (rest.drop (i.size - 1))
termination_by bytes.length
decreasing_by simp only [List.length_drop, List.length_cons]; omega

def disassemble (bytes : List UInt8) : Except DecodeError (List (UInt16 × Instruction)) :=
  disassembleOnto 0 [] bytes

end StackToolchain
