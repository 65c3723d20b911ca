import OsSim.Os
import OsSim.Scanf

/-! load of loader.c on the text of a process file. It looks at no result of fscanf: what a
scan does not store keeps what was in memory, and the buffer for an opcode its last word.
MALLOC goes on into the scan of FREE, which has to fail on whatever comes next. -/
namespace OsSim
open Scanf

def optCalc : List Char := ['c', 'a', 'l', 'c']
def optAlloc : List Char := ['a', 'l', 'l', 'o', 'c']
def optFree : List Char := ['f', 'r', 'e', 'e']
def optRead : List Char := ['r', 'e', 'a', 'd']
def optWrite : List Char := ['w', 'r', 'i', 't', 'e']
def optMalloc : List Char := ['m', 'a', 'l', 'l', 'o', 'c']

/-- What ends load before it returns: exit(1), or a word that overruns `opcode[10]`. -/
inductive LoadFault where
  | unknownOpcode
  | opcodeOverrun
  deriving DecidableEq

def getOpcode (opt : List Char) : Except LoadFault Opcode :=
  if opt = optCalc then .ok .calc
  else if opt = optAlloc then .ok .alloc
  else if opt = optMalloc then .ok .malloc
  else if opt = optFree then .ok .free
  else if opt = optRead then .ok .read
  else if opt = optWrite then .ok .write
  else .error .unknownOpcode

/-- What load leaves to chance: the memory that malloc returns, and its opcode buffer. -/
structure Uninit where
  priority : BitVec 32
  size : BitVec 32
  text : Nat → Inst
  opcode : List Char

/-- The process that load returns; `text` has as many instructions as `size` says. -/
structure Loaded where
  priority : BitVec 32
  pc : Nat
  size : BitVec 32
  text : List Inst
  deriving DecidableEq

namespace Inst

/-- The numbers that one scan has stored, from arg_0 on. -/
def store (ins : Inst) : List (BitVec 32) → Inst
  | [] => ins
  | [a] => { ins with arg0 := a }
  | [a, b] => { ins with arg0 := a, arg1 := b }
  | a :: b :: c :: _ => { ins with arg0 := a, arg1 := b, arg2 := c }

/-- One fscanf of `n` numbers into the arguments. -/
def scanArgs (n : Nat) (ins : Inst) (t : List Char) : Inst × List Char :=
  (ins.store (scanf (uints n) t).1, (scanf (uints n) t).2)

/-- The switch of load. -/
def loadArgs (ins : Inst) (t : List Char) : Inst × List Char :=
  match ins.opcode with
  | .calc => (ins, t)
  | .alloc => ins.scanArgs 2 t
  | .malloc =>
      let (ins, t) := ins.scanArgs 2 t
      ins.scanArgs 1 t
  | .free => ins.scanArgs 1 t
  | .read => ins.scanArgs 3 t
  | .write => ins.scanArgs 3 t

end Inst

/-- `fscanf(file, "%s", opcode)`. -/
def scanOpcode (opcode t : List Char) : Except LoadFault (List Char × List Char) :=
  match scanS t with
  | (none, t) => .ok (opcode, t)
  | (some w, t) => if 10 ≤ w.length then .error .opcodeOverrun else .ok (w, t)

/-- The loop of load from instruction `i` on, for the rounds left. -/
def loadLoop (text : Nat → Inst) (i : Nat) :
    (left : Nat) → (opcode t : List Char) → Except LoadFault (List Inst)
  | 0, _, _ => .ok []
  | left + 1, opcode, t => do
      let (opcode, t) ← scanOpcode opcode t
      let op ← getOpcode opcode
      let (ins, t) := { text i with opcode := op }.loadArgs t
      let rest ← loadLoop text (i + 1) left opcode t
      return ins :: rest

def load (u : Uninit) (t : List Char) : Except LoadFault Loaded := do
  let (header, t) := scanf [.u, .space, .u] t
  let size := header[1]?.getD u.size
  let text ← loadLoop u.text 0 size.toNat u.opcode t
  return ⟨header[0]?.getD u.priority, 0, size, text⟩

end OsSim
