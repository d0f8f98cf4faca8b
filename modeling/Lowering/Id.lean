/-!
Handles into the tables of one method. Every kind of handle counts from zero in the order of
creation, and its written form names its kind.
-/
namespace Lowering

structure ValueId where
  index : Nat
  deriving DecidableEq, Repr, Inhabited

structure SiteId where
  index : Nat
  deriving DecidableEq, Repr, Inhabited

structure ReadId where
  index : Nat
  deriving DecidableEq, Repr, Inhabited

structure EventId where
  index : Nat
  deriving DecidableEq, Repr, Inhabited

structure LinkId where
  index : Nat
  deriving DecidableEq, Repr, Inhabited

structure PromiseId where
  index : Nat
  deriving DecidableEq, Repr, Inhabited

structure StackId where
  index : Nat
  deriving DecidableEq, Repr, Inhabited

structure LocalsId where
  index : Nat
  deriving DecidableEq, Repr, Inhabited

structure ForkId where
  index : Nat
  deriving DecidableEq, Repr, Inhabited

structure SubroutineId where
  index : Nat
  deriving DecidableEq, Repr, Inhabited

structure JunctionId where
  index : Nat
  deriving DecidableEq, Repr, Inhabited

structure TraceId where
  index : Nat
  deriving DecidableEq, Repr, Inhabited

def handleText (kind : String) (index : Nat) : String :=
  kind ++ "(" ++ toString index ++ ")"

def ValueId.text (v : ValueId) : String := handleText "ValueId" v.index

def SiteId.text (s : SiteId) : String := handleText "SiteId" s.index

def ReadId.text (r : ReadId) : String := handleText "ReadId" r.index

def EventId.text (e : EventId) : String := handleText "EventId" e.index

def PromiseId.text (p : PromiseId) : String := handleText "PromiseId" p.index

def optionText {α : Type} (text : α → String) : Option α → String
  | none => "None"
  | some a => "Some(" ++ text a ++ ")"

end Lowering
