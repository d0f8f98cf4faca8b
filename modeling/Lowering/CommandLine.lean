import Lowering.Sample
import Lowering.Report
/-!
The command line: which sample to compile, how, and what to show of it.

The name of the sample may stand anywhere between the options. Every option may be given once.
After `--` nothing is an option.
-/
namespace Lowering

structure Options where
  sample : Option Sample := none
  base : Option Nat := none
  trace : Bool := false
  tailCalls : Bool := false
  traceAllocator : Bool := false
  statistics : Bool := false
  deriving DecidableEq, Repr

namespace Options

def unsignedWord? (s : String) : Option Nat :=
  let digits := match s.toList with
    | '+' :: rest => rest
    | all => all
  if digits.isEmpty || !digits.all Char.isDigit then none
  else
    let n := digits.foldl (fun n c => 10 * n + (c.toNat - '0'.toNat)) 0
    if n < modulus 64 then some n else none

def setSample (o : Options) (s : String) : Option Options := do
  let sample ← Sample.ofName? s
  if o.sample.isSome then none else some { o with sample := some sample }

def setBase (o : Options) (s : String) : Option Options := do
  let base ← unsignedWord? s
  if o.base.isSome then none else some { o with base := some base }

def setFlag (o : Options) : String → Option Options
  | "--trace" => if o.trace then none else some { o with trace := true }
  | "--tail-calls" => if o.tailCalls then none else some { o with tailCalls := true }
  | "--trace-allocator" =>
    if o.traceAllocator then none else some { o with traceAllocator := true }
  | "--stats" => if o.statistics then none else some { o with statistics := true }
  | _ => none

def isOption (s : String) : Bool := s.startsWith "-" && s != "-"

def setOption (o : Options) (s : String) : Option Options :=
  match s.toList with
  | '-' :: '-' :: 'b' :: 'a' :: 's' :: 'e' :: '=' :: value => o.setBase (String.ofList value)
  | _ => o.setFlag s

def read (o : Options) : List String → Option Options
  | [] => some o
  | "--" :: rest => rest.foldlM setSample o
  | "--base" :: value :: rest => do
    if isOption value then none else (← o.setBase value).read rest
  | s :: rest => do (← if isOption s then o.setOption s else o.setSample s).read rest

def defaultBase : Nat := 0x10000

def initial (o : Options) : State :=
  let settings : Settings := { tailCalls := o.tailCalls }
  let emitter : Emitter :=
    if o.trace then .recording {} else .machine { tailCalls := o.tailCalls }
  { State.empty (X64.describe {}) settings emitter with
    helpers := some fun _ _ _ => Sample.helper }

def output (o : Options) (sample : Sample) : Except Error String :=
  match sample.compile (signed 64 (o.base.getD defaultBase)) o.initial with
  | .error e _ => .error e
  | .ok m s => do
    let lines := (← m.codeLines s.emitter) ++ m.frameMaps.lines
    .ok (String.join (lines.map (· ++ "\n")) ++ if o.statistics then s.statistics.text else "")

end Options

namespace CommandLine

structure Outcome where
  code : UInt32
  output : String
  complaint : Option String := none
  deriving DecidableEq, Repr

def run (arguments : List String) : Outcome :=
  match (Options.read {} arguments).bind fun o => o.sample.map (o, ·) with
  | none => { code := 2, output := "", complaint := some "wrong arguments" }
  | some (o, sample) =>
    match o.output sample with
    | .ok output => { code := 0, output }
    | .error e => { code := 1, output := "", complaint := some e.message }

end CommandLine

end Lowering
