import Lowering.Operation
import Lowering.Operand
import Lowering.Text.Digits
/-!
Why a method cannot be compiled. Each cause is a constructor; `Error.message` is the one place
that words them.
-/
namespace Lowering

inductive OperandFault where
  | mixedArguments
  | helperMissing (op : Operation)
  | moveNotInline (op : Binary) (size : Nat)
  | noIntegerForm (op : Ternary)
  | jumpNotInline (op : Unary)
  | footprint (n : Nat)
  | localRange (index count : Nat)
  | registerNotChosen (site : SiteId) (mask : RegisterSet)
  | notGeneral (r : Register)
  | notFloat (r : Register)
  | addressTarget
  | addressArithmetic
  | moveDestination (b : Operand)
  | zeroExtension (a : Operand)
  | notFloatOperand (a : Operand)
  | floatSecond (op : Ternary)
  | branchTarget (c : Operand)
  | notBranch (op : Ternary)
  | compareMemory
  | compareOperand (b : Operand)
  | dividend (op : Ternary) (b c : Register)
  | divisor (op : Ternary)
  | shiftCount (a : Operand)
  | noInlineForm (op : Ternary)
  | frameOffset (v : Int)
  | registerDestination (op : Binary) (b : Operand)
  | highWord (a : Operand)
  | negation (a : Operand)
  | absoluteValue (a : Operand)
  | floatConversion (a : Operand)
  | registerOperands (op : Ternary) (b c : Operand)
  deriving DecidableEq, Repr

namespace OperandFault

def reason : OperandFault → String
  | .mixedArguments => "explicit call arguments cannot be combined with stack arguments"
  | .helperMissing op => op.name ++ " needs a runtime helper but none is configured"
  | .moveNotInline op size =>
    op.name ++ " of " ++ toString size ++ " bytes cannot be emitted inline"
  | .noIntegerForm op => op.name ++ " has no integer form to branch on"
  | .jumpNotInline op => op.name ++ " cannot be emitted inline"
  | .footprint n => "footprint " ++ toString n ++ " is not one or two words"
  | .localRange index count =>
    "local " ++ toString index ++ " out of " ++ toString count ++ " slots"
  | .registerNotChosen site mask =>
    "register site " ++ site.text ++ " with mask " ++ Text.hex mask.toNat ++ " was never acquired"
  | .notGeneral r => "register " ++ toString r ++ " is not a general purpose register"
  | .notFloat r => "register " ++ toString r ++ " is not an SSE register"
  | .addressTarget => "calls and jumps cannot go through an address operand"
  | .addressArithmetic => "address operands cannot feed arithmetic"
  | .moveDestination b => "cannot move into " ++ b.text
  | .zeroExtension a => "cannot zero-extend " ++ a.text
  | .notFloatOperand a => a.text ++ " is not a float operand"
  | .floatSecond op => op.name ++ " needs its second operand in a register"
  | .branchTarget c => "branch target " ++ c.text ++ " must be a constant"
  | .notBranch op => op.name ++ " is not a branch"
  | .compareMemory => "compare of two memory operands"
  | .compareOperand b => "cannot compare against " ++ b.text
  | .dividend op b c =>
    op.name ++ " works on rax, got " ++ toString b ++ " and " ++ toString c
  | .divisor op => op.name ++ " needs a register divisor"
  | .shiftCount a => "shift count " ++ a.text ++ " must be rcx or an immediate"
  | .noInlineForm op => op.name ++ " has no inline x86-64 form"
  | .frameOffset v => "frame offset " ++ toString v ++ " out of range"
  | .registerDestination op b => op.name ++ " needs a register destination, got " ++ b.text
  | .highWord a => "cannot take the high word of " ++ a.text
  | .negation a => "negate of " ++ a.text
  | .absoluteValue a => "absolute value of " ++ a.text
  | .floatConversion a => "cannot convert " ++ a.text ++ " to float"
  | .registerOperands op b c =>
    op.name ++ " needs register operands, got " ++ b.text ++ " and " ++ c.text

end OperandFault

inductive TargetFault where
  | noMatch (v : ValueId) (mask : SiteMask)
  | nothingLeft (v : ValueId)
  | noRegister (mask : RegisterSet) (v : ValueId)
  deriving DecidableEq, Repr

namespace TargetFault

def reason : TargetFault → String
  | .noMatch v m =>
    v.text ++ " needs type mask " ++ Text.binaryPadded 4 m.kinds.toNat ++ " registers "
      ++ Text.hex m.registers.toNat ++ " frame " ++ m.slots.text
  | .nothingLeft v => "no register or frame slot left for " ++ v.text
  | .noRegister mask v => "no register in " ++ Text.hex mask.toNat ++ " for " ++ v.text

end TargetFault

inductive InvariantFault where
  | forkNotChosen (r : ReadId)
  | readFollowed (r : ReadId)
  | forkWithoutPath (r : ReadId)
  | noRead (v : ValueId) (e : Option EventId)
  | foreignRead (r : ReadId) (v : ValueId) (owner e : Option EventId)
  | notStarted (ip : Int)
  | noSite (v : ValueId)
  | noSource (v : ValueId)
  | surrogate (v : ValueId)
  | memoryIndex (v : ValueId)
  | memoryBase (v : ValueId)
  | checkedObject (v : ValueId)
  | shallowStack (words : Nat)
  | argumentSlot (index : Int)
  | popIndex (index : Int) (e : EventId)
  | noEventsToLink (ip : Nat)
  | noEvents (ip : Nat)
  | noLastEvent
  | outsideMethod (ip : Nat)
  | startedTwice (ip : Nat)
  | subroutineOpen
  | stackEmpty
  | noHome (v : ValueId)
  | emptySlot
  | shallowPeek (index : Nat)
  | localUnset (index : Nat)
  | patchRange (offset : Nat)
  | relocationDepth
  | predecessorDepth (e : EventId)
  deriving DecidableEq, Repr

namespace InvariantFault

def reason : InvariantFault → String
  | .forkNotChosen r => "fan-out read " ++ r.text ++ " consumed without choosing a path"
  | .readFollowed r => "read " ++ r.text ++ " already has a successor"
  | .forkWithoutPath r => "fan-out read " ++ r.text ++ " has no path to append to"
  | .noRead v e => v.text ++ " has no read to pop for " ++ optionText EventId.text e
  | .foreignRead r v owner e =>
    "read " ++ r.text ++ " of " ++ v.text ++ " belongs to " ++ optionText EventId.text owner
      ++ ", popped by " ++ optionText EventId.text e
  | .notStarted ip => "logical instruction " ++ toString ip ++ " not started"
  | .noSite v => v.text ++ " has no site to move from"
  | .noSource v => v.text ++ " has no source site"
  | .surrogate v => "tail-call surrogate " ++ v.text ++ " is not in a register"
  | .memoryIndex v => "memory index " ++ v.text ++ " is not in a register"
  | .memoryBase v => "memory base " ++ v.text ++ " is not in a register"
  | .checkedObject v => "bounds-checked object " ++ v.text ++ " is not in a register"
  | .shallowStack words =>
    "call passes " ++ toString words ++ " stack words on a shallower stack"
  | .argumentSlot index => "stack argument at frame index " ++ toString index
  | .popIndex index e => "negative pop index " ++ toString index ++ " for " ++ e.text
  | .noEventsToLink ip => "instruction " ++ toString ip ++ " has no events to link to"
  | .noEvents ip => "instruction " ++ toString ip ++ " has no events"
  | .noLastEvent => "no last event"
  | .outsideMethod ip => "instruction " ++ toString ip ++ " outside the method"
  | .startedTwice ip => "instruction " ++ toString ip ++ " started twice"
  | .subroutineOpen => "subroutine linked before it returned"
  | .stackEmpty => "operand stack is empty"
  | .noHome v => v.text ++ " popped without a home"
  | .emptySlot => "popped an empty stack slot"
  | .shallowPeek index => "no value " ++ toString index ++ " slots down"
  | .localUnset index => "local " ++ toString index ++ " read before it is set"
  | .patchRange offset => "patch at " ++ toString offset ++ " outside the code"
  | .relocationDepth => "relocation nested too deeply"
  | .predecessorDepth e => "predecessors of " ++ e.text ++ " nested too deeply"

end InvariantFault

inductive FixedPointFault where
  | junction (e : EventId)
  | frameMaps (traces slots : Nat)
  deriving DecidableEq, Repr

namespace FixedPointFault

def reason : FixedPointFault → String
  | .junction e => "junction sites after " ++ e.text
  | .frameMaps traces slots =>
    toString traces ++ " traces over " ++ toString slots ++ " slots still changing"

end FixedPointFault

inductive ScratchFault where
  | allTaken (mask : RegisterSet)
  | lastCopy (r : Register) (owner : ValueId)
  | nested (mask : RegisterSet)
  | emptyPool
  deriving DecidableEq, Repr

namespace ScratchFault

def reason : ScratchFault → String
  | .allTaken mask => "every register in " ++ Text.hex mask.toNat ++ " is frozen or reserved"
  | .lastCopy r owner =>
    "register " ++ toString r ++ " holds the only copy of " ++ owner.text
  | .nested mask => "nested move wanted a temporary from " ++ Text.hex mask.toNat
  | .emptyPool => "empty pool"

end ScratchFault

inductive EmissionFault where
  | boundTwice (t : CodeTarget)
  | labelPlaced
  | labelWaits
  | stackIndex
  | operandClass
  deriving DecidableEq, Repr

namespace EmissionFault

def reason : EmissionFault → String
  | .boundTwice t => t.text ++ " bound twice"
  | .labelPlaced => "a label can be set only once"
  | .labelWaits => "an instruction can have only one label"
  | .stackIndex => "the stack pointer cannot be an index register"
  | .operandClass => "a register does not fit the instruction"

end EmissionFault

inductive ResolutionFault where
  | neverBound (t : CodeTarget)
  | danglingJump (t : CodeTarget)
  | returnAddress (p : PromiseId)
  | outsideMethod (address : Int)
  | noValue (p : PromiseId)
  deriving DecidableEq, Repr

namespace ResolutionFault

def reason : ResolutionFault → String
  | .neverBound t => t.text ++ " was never bound"
  | .danglingJump t => t.text ++ " is jumped to but never bound"
  | .returnAddress p => "frame-map address " ++ p.text ++ " was never resolved"
  | .outsideMethod a => "frame-map address " ++ Text.hexWord a ++ " is outside the method"
  | .noValue p => p.text ++ " has no value after layout"

end ResolutionFault

inductive Error where
  | invalidOperand (fault : OperandFault)
  | impossibleTarget (fault : TargetFault)
  | invariant (fault : InvariantFault)
  | fixedPoint (bound : Nat) (fault : FixedPointFault)
  | scratch (fault : ScratchFault)
  | emission (fault : EmissionFault)
  | unresolved (fault : ResolutionFault)
  deriving DecidableEq, Repr

namespace Error

def kind : Error → String
  | .invalidOperand _ => "InvalidOperand"
  | .impossibleTarget _ => "ImpossibleTarget"
  | .invariant _ => "Invariant"
  | .fixedPoint _ _ => "FixedPointExceeded"
  | .scratch _ => "ScratchUnavailable"
  | .emission _ => "Emission"
  | .unresolved _ => "Unresolved"

def message : Error → String
  | .invalidOperand f => "Invalid operand: " ++ f.reason
  | .impossibleTarget f => "No feasible target: " ++ f.reason
  | .invariant f => "Internal invariant violated: " ++ f.reason
  | .fixedPoint bound f =>
    "Fixed point did not converge within " ++ toString bound ++ " passes: " ++ f.reason
  | .scratch f => "No scratch register available: " ++ f.reason
  | .emission f => "Emission failed: " ++ f.reason
  | .unresolved f => "Unresolved promise: " ++ f.reason

end Error

end Lowering
