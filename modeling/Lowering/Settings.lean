/-!
Tunables of one compilation.
-/
namespace Lowering

structure Settings where
  stealReserve : Nat := 2
  resolveReserve : Nat := 2
  tailCalls : Bool := false
  framePointer : Bool := true
  maxFrameMapPasses : Option Nat := none
  deriving DecidableEq, Repr

end Lowering
