import Lowering.Operation
/-!
The short names of the operations that a method can be built from.
-/
namespace Lowering

inductive Mnemonic where
  | combine (op : Ternary)
  | transform (op : Binary)
  | convert (op : Binary)
  | barrier (op : Nullary)
  | branch (op : Ternary)
  deriving DecidableEq, Repr

namespace Mnemonic

def spelled (name : String) : String :=
  .ofList ((name.toList.flatMap fun c => if c.isUpper then ['_', c.toLower] else [c]).drop 1)

def branch? (s : String) : Option Mnemonic :=
  (Ternary.all.find? fun op => op.isBranch && spelled op.name == s).map .branch

def ofName? : String → Option Mnemonic
  | "add" => some (.combine .add)
  | "sub" => some (.combine .subtract)
  | "mul" => some (.combine .multiply)
  | "div" => some (.combine .divide)
  | "rem" => some (.combine .remainder)
  | "and" => some (.combine .and)
  | "or" => some (.combine .or)
  | "xor" => some (.combine .xor)
  | "shl" => some (.combine .shiftLeft)
  | "shr" => some (.combine .shiftRight)
  | "ushr" => some (.combine .unsignedShiftRight)
  | "fadd" => some (.combine .floatAdd)
  | "fsub" => some (.combine .floatSubtract)
  | "fmul" => some (.combine .floatMultiply)
  | "fdiv" => some (.combine .floatDivide)
  | "frem" => some (.combine .floatRemainder)
  | "neg" => some (.transform .negate)
  | "abs" => some (.transform .absolute)
  | "fneg" => some (.transform .floatNegate)
  | "fabs" => some (.transform .floatAbsolute)
  | "fsqrt" => some (.transform .floatSquareRoot)
  | "f2f" => some (.convert .float2Float)
  | "f2i" => some (.convert .float2Int)
  | "i2f" => some (.convert .int2Float)
  | "load_barrier" => some (.barrier .loadBarrier)
  | "store_store_barrier" => some (.barrier .storeStoreBarrier)
  | "store_load_barrier" => some (.barrier .storeLoadBarrier)
  | s => branch? s

end Mnemonic

end Lowering
