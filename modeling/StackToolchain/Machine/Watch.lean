import StackToolchain.Machine.Basic
import StackToolchain.Text.Quoted

/-! Watching a run: a watch list names program counters, and what to print when one of them executes. -/
namespace StackToolchain

structure WatchPoint where
  stack : Bool := false
  heap : List UInt16 := []
  deriving DecidableEq, Repr

structure WatchList where
  file : Option String := none
  all : Bool := false
  points : List (UInt16 × WatchPoint) := []

namespace WatchList

def at? (w : WatchList) (pc : UInt16) : Option WatchPoint :=
  w.points.lookup pc

def instRow (time : Nat) (addr : UInt16) (i : Instruction) : String :=
  "[" ++ Text.padLeft 6 '0' (toString time) ++ "] " ++ Style.blue (Text.hex 4 addr.toNat) ++ " " ++
    i.colouredText

def registerRuler : String :=
  " +-------------+-------------+-------------+-------------+"

def registerCell (m : Machine) (r : Register) : String :=
  Text.padLeft 6 ' ' r.name ++ ": " ++ Text.hex 4 (m.reg r).toNat ++ " |"

def registerRows (m : Machine) : List String :=
  [ registerRuler,
    " |" ++ String.join ([Register.rret, .raddr, .r2, .r3].map (registerCell m)),
    " |" ++ String.join ([Register.r4, .rexpr, .rsb, .rsp].map (registerCell m)),
    registerRuler ]

def wordRuler : String :=
  " +-------------------------------------------------------+"

def wordRow (m : Machine) (addr : UInt16) (mark : String) : String :=
  " | " ++ Text.hex 4 addr.toNat ++ " : " ++ Text.hex 4 (m.mem.load addr).toNat ++ " " ++ Text.padRight 40 mark ++
    "|"

/-- The addresses of the words of the current frame: from three words below the base, which hold the saved base,
the return address and the last argument, up to the top of the stack. A walk that adds two in sixteen bits differs
where the top is 0xFFFF and the base is even: it passes from 0xFFFE to 0 and does not end, and this list ends at
0xFFFE. -/
def frameAddresses (m : Machine) : List UInt16 :=
  let first := (m.reg .rsb).toNat - 6
  let count := ((m.reg .rsp).toNat - first + 1) / 2
  (List.range count).map fun k => (first + 2 * k).toUInt16

def stackRows (m : Machine) : List String :=
  (frameAddresses m).map (fun addr => wordRow m addr (if addr = m.reg .rsb then "<- RSB" else "")) ++ [wordRuler]

def heapRows (m : Machine) (addrs : List UInt16) : List String :=
  if addrs.isEmpty then [] else addrs.map (wordRow m · "") ++ [wordRuler]

def intro (w : WatchList) : String :=
  let all := if w.all then [" * Dump all"] else []
  let file := w.file.elim [] fun name => [" * Dump[" ++ toString w.points.length ++ "] " ++ Text.quoted name]
  Text.unlines (all ++ file)

def rows (w : WatchList) (time : Nat) (addr : UInt16) (i : Instruction) (m : Machine) : List String :=
  match w.at? addr with
  | some point =>
    instRow time addr i :: registerRows m ++ (if point.stack then stackRows m else []) ++ heapRows m point.heap
  | none => if w.all then instRow time addr i :: registerRows m else []

end WatchList

end StackToolchain
