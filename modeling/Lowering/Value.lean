import Lowering.Id
/-!
Values: logical operands.

A value has the sites it can be found in and a chain of reads still to come. Values that are the
same bits without a copy are aliases: they form a ring, share their liveness and lend each other
their sites.
-/
namespace Lowering

inductive ValueKind where
  | general
  | float
  deriving DecidableEq, Repr, Inhabited

structure Value where
  kind : ValueKind
  next : ValueId
  reads : Option ReadId := none
  lastRead : Option ReadId := none
  sites : List SiteId := []
  source : Option SiteId := none
  target : Option SiteId := none
  home : Option Nat := none
  deriving DecidableEq, Repr, Inhabited

end Lowering
