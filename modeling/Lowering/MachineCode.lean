import Lowering.Promise
/-!
Finished machine code, before its promises are resolved.
-/
namespace Lowering

structure Patch where
  offset : Nat
  promise : PromiseId
  deriving DecidableEq, Repr

structure MachineCode where
  bytes : List UInt8
  targets : TargetMap
  patches : List Patch
  deriving DecidableEq, Repr

end Lowering
