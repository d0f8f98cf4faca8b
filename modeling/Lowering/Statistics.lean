/-!
What is counted while methods are compiled.
-/
namespace Lowering

structure Statistics where
  methods : Nat := 0
  totalCode : Nat := 0
  largest : Nat := 0
  events : Nat := 0
  kinds : List (String × Nat) := []
  moves : Nat := 0
  steals : Nat := 0
  spills : Nat := 0
  thunks : Nat := 0
  junctions : Nat := 0
  junctionPasses : Nat := 0
  frameMapPasses : Nat := 0
  deriving DecidableEq, Repr

namespace Statistics

def countMethod (s : Statistics) (codeSize : Nat) : Statistics :=
  { s with
    methods := s.methods + 1
    totalCode := s.totalCode + codeSize
    largest := max s.largest codeSize }

def increase : List (String × Nat) → String → List (String × Nat)
  | [], kind => [(kind, 1)]
  | (k, n) :: rest, kind => if k = kind then (k, n + 1) :: rest else (k, n) :: increase rest kind

def countEvent (s : Statistics) (kind : String) : Statistics :=
  { s with events := s.events + 1, kinds := increase s.kinds kind }

def countMove (s : Statistics) : Statistics := { s with moves := s.moves + 1 }

def countSteal (s : Statistics) : Statistics := { s with steals := s.steals + 1 }

def countSpill (s : Statistics) : Statistics := { s with spills := s.spills + 1 }

def countThunk (s : Statistics) : Statistics := { s with thunks := s.thunks + 1 }

def countJunction (s : Statistics) (passes : Nat) : Statistics :=
  { s with
    junctions := s.junctions + 1
    junctionPasses := max s.junctionPasses passes }

def setFrameMapPasses (s : Statistics) (passes : Nat) : Statistics :=
  { s with frameMapPasses := passes }

def precedes (a b : String × Nat) : Bool :=
  a.2 > b.2 || (a.2 == b.2 && decide (a.1 ≤ b.1))

def reportedKinds : Nat := 10

def text (s : Statistics) : String :=
  let lines := [
    "Compilation Session Statistics:",
    "  Methods compiled: " ++ toString s.methods,
    "  Events compiled: " ++ toString s.events,
    "  Total code size: " ++ toString s.totalCode ++ " bytes",
    "  Moves inserted: " ++ toString s.moves,
    "  Steals: " ++ toString s.steals,
    "  Frame spills: " ++ toString s.spills,
    "  Thunk calls: " ++ toString s.thunks,
    "  Junctions resolved: " ++ toString s.junctions ++ " (max "
      ++ toString s.junctionPasses ++ " passes)",
    "  Frame-map passes: " ++ toString s.frameMapPasses]
  let kinds := if s.kinds.isEmpty then [] else
    "  Event breakdown:" :: ((s.kinds.mergeSort precedes).take reportedKinds).map
      fun (kind, n) => "    " ++ kind ++ ": " ++ toString n
  String.join ((lines ++ kinds).map (· ++ "\n"))

end Statistics

end Lowering
