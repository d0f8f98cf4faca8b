import Lowering.Method.Operands
/-!
Operations on values. An operation with a result answers the value of it.
-/
namespace Lowering.Method

def withResult (kind : ValueKind) (act : ValueId → Build Unit) : Build ValueId := do
  let result ← modifyGet (·.newValue kind)
  act result
  return result

def memory (base : ValueId) (kind : ValueKind) (displacement : Int) (index : Option ValueId)
    (scale : Nat) : Build ValueId :=
  withResult kind fun result => Append.memory { base, displacement, index, scale, result }

/-- Calls an address with arguments placed by the calling convention. -/
def call (address : ValueId) (flags : CallFlags) (trace : Option TraceId) (resultSize : Nat)
    (kind : ValueKind) (arguments : List ValueId) : Build ValueId :=
  withResult kind fun result => Append.call address flags trace result resultSize arguments 0

/-- Calls an address with the topmost words of the stack as arguments. -/
def stackCall (address : ValueId) (flags : CallFlags) (trace : Option TraceId) (resultSize : Nat)
    (kind : ValueKind) (footprint : Nat) : Build ValueId :=
  withResult kind fun result => Append.call address flags trace result resultSize [] footprint

def leave (value : Option ValueId) : Build Unit := Append.leave value

/-- Calls the handler unless the index is at least zero and below the length that is kept at an
offset in the object. -/
def checkBounds (object : ValueId) (lengthOffset : Nat) (index : ValueId) (handler : Int) :
    Build Unit :=
  Append.boundsCheck { object, lengthOffset, index, handler }

def store (size : Nat) (src : ValueId) (dstSize : Nat) (dst : ValueId) : Build Unit :=
  Append.move { op := .move, size, src, dstSize, dst }

def load (op : Binary) (size : Nat) (src : ValueId) (dstSize : Nat) : Build ValueId := do
  withResult ((← get).value src).kind fun dst => Append.move { op, size, src, dstSize, dst }

def branch (op : Ternary) (size : Nat) (a b address : ValueId) : Build Unit :=
  Append.branch { op, size, first := a, second := b, address }

def jump (address : ValueId) : Build Unit :=
  Append.jump { op := .jump, address, exit := false, cleanLocals := false }

def exit (address : ValueId) : Build Unit :=
  Append.jump { op := .jump, address, exit := true, cleanLocals := false }

def isShift : Ternary → Bool
  | .shiftLeft | .shiftRight | .unsignedShiftRight => true
  | _ => false

def combinedKind (op : Ternary) (a b : ValueKind) : ValueKind :=
  match op with
  | .floatAdd | .floatSubtract | .floatMultiply | .floatDivide | .floatRemainder => .float
  | op => if isShift op then b else a

def combine (op : Ternary) (size : Nat) (a b : ValueId) : Build ValueId := do
  let s ← get
  let firstSize := if isShift op then wordSize else size
  withResult (combinedKind op (s.value a).kind (s.value b).kind) fun result =>
    Append.combine ⟨op, firstSize, a, size, b, size, result⟩

def convertedKind (op : Binary) (a : ValueKind) : ValueKind :=
  match op with
  | .float2Float | .int2Float => .float
  | .float2Int => .general
  | _ => a

def convert (op : Binary) (size resultSize : Nat) (a : ValueId) : Build ValueId := do
  withResult (convertedKind op ((← get).value a).kind) fun result =>
    Append.convert { op, valueSize := size, value := a, resultSize, result }

end Lowering.Method
