import Lowering.Operation
import Lowering.Operand
/-!
Requests: what the allocator asks an emitter to do.

Operations come with the size of each operand in bytes. The remaining requests build and take
down frames and bind code targets to the current position.
-/
namespace Lowering

inductive Request where
  | nullary (op : Nullary)
  | unary (op : Unary) (size : Nat) (a : Operand)
  | binary (op : Binary) (aSize : Nat) (a : Operand) (bSize : Nat) (b : Operand)
  | ternary (op : Ternary) (aSize : Nat) (a : Operand) (bSize : Nat) (b : Operand)
    (cSize : Nat) (c : Operand)
  | stackCheck (handler : Int) (limitOffset : Nat)
  | allocateFrame (words : Nat)
  | adjustFrame (words : Nat)
  /-- Take down the frame before a jump, leaving room for `offset` more argument words. The
  surrogates hold what belongs in the slots of return address and frame pointer. -/
  | popFrame (footprint : Nat) (offset : Int) (returnAddress framePointer : Option Register)
  | leave (footprint arguments : Nat)
  | bind (target : CodeTarget)
  deriving DecidableEq, Repr

namespace Request

def operands : Request → List Operand
  | .unary _ _ a => [a]
  | .binary _ _ a _ b => [a, b]
  | .ternary _ _ a _ b _ c => [a, b, c]
  | _ => []

def recordText (name : String) (parts : List (String × String)) : String :=
  name ++ " \x7b " ++ String.intercalate ", " (parts.map fun (k, v) => k ++ ": " ++ v) ++ " \x7d"

def text : Request → String
  | .nullary op => "Nullary(" ++ op.name ++ ")"
  | .unary op size a =>
    recordText "Unary" [("op", op.name), ("size", toString size), ("a", a.text)]
  | .binary op aSize a bSize b =>
    recordText "Binary" [("op", op.name), ("a_size", toString aSize), ("a", a.text),
      ("b_size", toString bSize), ("b", b.text)]
  | .ternary op aSize a bSize b cSize c =>
    recordText "Ternary" [("op", op.name), ("a_size", toString aSize), ("a", a.text),
      ("b_size", toString bSize), ("b", b.text), ("c_size", toString cSize), ("c", c.text)]
  | .stackCheck handler limit =>
    recordText "StackCheck" [("handler", toString handler),
      ("stack_limit_offset", toString limit)]
  | .allocateFrame words => handleText "AllocateFrame" words
  | .adjustFrame words => handleText "AdjustFrame" words
  | .popFrame footprint offset returnAddress framePointer =>
    recordText "PopFrameForTailCall" [("footprint", toString footprint),
      ("offset", toString offset),
      ("return_address_surrogate", optionText toString returnAddress),
      ("frame_pointer_surrogate", optionText toString framePointer)]
  | .leave footprint arguments =>
    recordText "Return" [("footprint", toString footprint),
      ("argument_footprint", toString arguments)]
  | .bind t => "Bind(" ++ t.text ++ ")"

end Request

end Lowering
