import Lowering.Method.Finish
import Lowering.X64.Listing
/-!
What a compiled method looks like on paper.
-/
namespace Lowering

def requestLines (log : List Request) : List String :=
  log.zipIdx.map fun (q, i) => Text.padBlanks 4 (toString i) ++ "  " ++ q.text

namespace FrameMapTable

def offsetText (offset : Int32) : String :=
  "  +" ++ Text.hexPadded 4 (unsigned 32 offset.toInt) ++ "  "

/-- The number of slots, and a line for each entry: its roots, or where the maps of its paths
are. -/
def lines (t : FrameMapTable) : List String :=
  ("frame maps (" ++ toString t.mapSize ++ " slots):") :: match t with
    | .flat f => f.offsets.map fun o =>
        offsetText o ++ Text.bits ((t.roots o fun _ => none).getD [])
    | .paths p => p.entries.map fun e =>
        offsetText e.offset ++ "base " ++ toString e.base ++ " path " ++ optionText toString e.path

end FrameMapTable

namespace CompiledMethod

def poolLines (m : CompiledMethod) : List String :=
  if m.pool.isEmpty then []
  else ["constant pool: " ++ toString m.pool.length ++ " bytes at +" ++ Text.hex m.poolOffset]

def codeLines (m : CompiledMethod) : Emitter → Except Error (List String)
  | .recording r => .ok (requestLines r.log.toList)
  | .machine a => do .ok ((← a.listingText m.code m.base) ++ m.poolLines)

end CompiledMethod

end Lowering
