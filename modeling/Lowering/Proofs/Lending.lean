import Lowering.Proofs.Assembling
import Mathlib.Logic.Relation
/-!
What the emitter borrows.

A lender of temporaries is asked for a register and gets it back, in one of two ways: around a piece of assembly, or
from the one who was handed an operand together with the register it is in. Either way the emitter holds one register
at a time, and between two pieces of assembly it holds none. So an emission is a sequence of pieces, some of them with
a register, and what is said of the pieces holds of every request, whether it succeeds or not.
-/
namespace Lowering.X64

open Build

variable {α β σ τ : Type} {lender : ScratchSource σ} {lender' : ScratchSource τ}

/-! An operand handed over with its register. -/

theorem givingBackLift (t : Option Register) (act : Asm α) (m : Emission σ) :
    givingBack lender t act m = match act m.assembler with
      | .ok x a => .ok x ⟨a, t.elim m.lender (lender.release · m.lender)⟩
      | .error e a => .error e ⟨a, t.elim m.lender (lender.release · m.lender)⟩ := by
  cases ran : act m.assembler with
  | ok x a =>
    have done : (liftM act : Emit σ α) m = .ok x { m with assembler := a } := liftOk.mpr ⟨a, ran, rfl⟩
    simp only [givingBack, tryCatch, tryCatchThe, MonadExceptOf.tryCatch, EStateM.tryCatch, bind, EStateM.bind, done]
    rfl
  | error e a =>
    have failed : (liftM act : Emit σ α) m = .error e { m with assembler := a } := by
      change (match act m.assembler with | .ok x a => _ | .error e a => _) = _
      rw [ran]
    simp only [givingBack, tryCatch, tryCatchThe, MonadExceptOf.tryCatch, EStateM.tryCatch, bind, EStateM.bind, failed]
    rfl

theorem loadedNamed {r : Register} {c : Constant} {s s' : Assembler} {w : Width}
    (loaded : Asm.loadConstant r c s = .ok () s') (t : Assembler) : Asm.general r w t = .ok ⟨r, .general w⟩ t := by
  obtain ⟨_, _, named, -⟩ := bindOk.mp loaded
  exact Asm.generalOk.mpr ⟨(Asm.generalOk.mp named).1, rfl, rfl⟩

/- Nothing fails between borrowing the register and handing it over with the operand, other than the loading, after
which it is given back at once. -/
theorem borrowedBracket (size : Nat) (c : Constant) (act : IntegerSource → Asm α) :
    (do
      let t ← borrow lender
      tryCatch (Asm.lift (Asm.loadConstant t c)) fun e => do
        giveBack lender (some t)
        throw e
      let dst ← Asm.arithmetic t size
      givingBack lender (some t) (act (.place (.reg dst))) : Emit σ α) =
    withTemporary lender (fun t => do
      Asm.loadConstant t c
      act (.place (.reg (← Asm.arithmetic t size)))) := by
  funext m
  cases lent : lender.acquire generalRegisters m.lender with
  | error e l => simp only [bind, EStateM.bind, borrow, withTemporary, lent]
  | ok r l =>
    cases loaded : Asm.loadConstant r c m.assembler with
    | error e a =>
      simp only [bind, EStateM.bind, borrow, withTemporary, lent, loaded, tryCatch, tryCatchThe,
        MonadExceptOf.tryCatch, EStateM.tryCatch, Asm.lift]
      rfl
    | ok u a =>
      simp only [bind, EStateM.bind, borrow, withTemporary, lent, loaded, tryCatch, tryCatchThe,
        MonadExceptOf.tryCatch, EStateM.tryCatch, Asm.lift, Asm.arithmetic, loadedNamed loaded, liftM, monadLift,
        MonadLift.monadLift]
      exact givingBackLift ..

theorem integerSourceBracket (size : Nat) (a : Operand) (act : IntegerSource → Asm α) :
    withIntegerSource lender size a act = match a with
      | .register r => (do act (.place (.reg (← Asm.arithmetic r size))) : Asm α)
      | .memory m => (do act (.place (.mem (← Asm.memory m))) : Asm α)
      | .constant c =>
        match immediate? size c with
        | some v => act (.immediate v)
        | none => withTemporary lender fun t => do
          Asm.loadConstant t c
          act (.place (.reg (← Asm.arithmetic t size)))
      | .address _ => Asm.lift (Asm.invalid .addressArithmetic) := by
  have inPlace {γ : Type} (x : Asm γ) (f : γ → IntegerSource) :
      (do
        let p ← liftM (do return (f (← x), none) : Asm (IntegerSource × Option Register))
        givingBack lender p.2 (act p.1) : Emit σ α) = liftM (do act (f (← x)) : Asm α) := by
    funext m
    cases ran : x m.assembler with
    | ok p a =>
      simp only [bind, EStateM.bind, liftM, monadLift, MonadLift.monadLift, Asm.lift, ran, pure]
      exact givingBackLift ..
    | error e a =>
      simp only [bind, EStateM.bind, liftM, monadLift, MonadLift.monadLift, Asm.lift, ran]
  cases a with
  | register r => exact inPlace _ fun p => .place (.reg p)
  | memory n => exact inPlace _ fun p => .place (.mem p)
  | constant c =>
    unfold withIntegerSource integerSource
    cases small : immediate? size c with
    | some v =>
      simp only [small]
      exact funext fun m => givingBackLift ..
    | none =>
      simp only [small]
      rw [← borrowedBracket]
      simp only [bind_assoc, pure_bind]
  | address c => rfl

/-! Borrowing by a relation between what the lender was and is. -/

structure Emit.Within (R : σ → σ → Prop) (act : Emit σ α) : Prop where
  holds : ∀ {m a m'}, act m = .ok a m' → R m.lender m'.lender
  fails : ∀ {m e m'}, act m = .error e m' → R m.lender m'.lender

structure ScratchSource.Within (R : σ → σ → Prop) (lender : ScratchSource σ) : Prop where
  lends : ∀ {mask l r l'}, lender.acquire mask l = .ok r l' → R l (lender.release r l')
  refuses : ∀ {mask l e l'}, lender.acquire mask l = .error e l' → R l l'

variable {R : σ → σ → Prop} {lender : ScratchSource σ}

theorem liftWithin [Std.Refl R] (act : Asm α) : Emit.Within R (Asm.lift act : Emit σ α) := by
  constructor
  all_goals
    intro m a m' ran
    unfold Asm.lift at ran
    split at ran <;> cases ran
    exact Std.Refl.refl m.lender

theorem temporaryWithin (lends : lender.Within R) (act : Register → Asm α) :
    Emit.Within R (withTemporary lender act) := by
  constructor
  all_goals
    intro m a m' ran
    unfold withTemporary at ran
    split at ran
    · rename_i e l refused
      cases ran <;> exact lends.refuses refused
    · rename_i r l lent
      split at ran <;> cases ran
      exact lends.lends lent

theorem emitBind [Trans R R R] {x : Emit σ α} {f : α → Emit σ β} (first : Emit.Within R x)
    (rest : ∀ a, Emit.Within R (f a)) : Emit.Within R (x >>= f) := by
  constructor
  all_goals
    intro m b m' ran
    simp only [bind, EStateM.bind] at ran
    split at ran
  · exact Trans.trans (first.holds (by assumption)) ((rest _).holds ran)
  · cases ran
  · exact Trans.trans (first.holds (by assumption)) ((rest _).fails ran)
  · cases ran
    exact first.fails (by assumption)


/-! Pieces of an emission. -/

/-- Two emissions of the same pieces, with temporaries from one lender and from another. Every piece keeps what was
assembled. -/
inductive Alike (lender : ScratchSource σ) (lender' : ScratchSource τ) : {α : Type} → Emit σ α → Emit τ α → Prop
  | lift {α : Type} {act : Asm α} (leads : Leads Assembler.Keeps act) : Alike lender lender' (liftM act) (liftM act)
  | temporary {α : Type} {act : Register → Asm α} (leads : ∀ t, Leads Assembler.Keeps (act t)) :
    Alike lender lender' (withTemporary lender act) (withTemporary lender' act)
  | bind {α β : Type} {x : Emit σ α} {y : Emit τ α} {f : α → Emit σ β} {g : α → Emit τ β}
    (first : Alike lender lender' x y) (rest : ∀ a, Alike lender lender' (f a) (g a)) :
    Alike lender lender' (x >>= f) (y >>= g)

def KeepsAssembled (m m' : Emission σ) : Prop := m.assembler.Keeps m'.assembler

instance : Trans (@KeepsAssembled σ) KeepsAssembled KeepsAssembled :=
  ⟨fun first second => Trans.trans (r := Assembler.Keeps) first second⟩

namespace Alike

open Assembler (Keeps)

theorem leads {x : Emit σ α} {y : Emit τ α} (alike : Alike lender lender' x y) :
    Leads KeepsAssembled x := by
  induction alike with
  | lift leads =>
    refine ⟨fun m => ⟨fun ran => ?_, fun ran => ?_⟩⟩
    all_goals
      change Asm.lift _ m = _ at ran
      unfold Asm.lift at ran
      split at ran <;> cases ran
    · exact leads.holds (by assumption)
    · exact leads.fails (by assumption)
  | temporary leads =>
    refine ⟨fun m => ⟨fun ran => ?_, fun ran => ?_⟩⟩
    all_goals
      unfold withTemporary at ran
      split at ran
    · cases ran
    · split at ran <;> cases ran
      exact (leads _).holds (by assumption)
    · cases ran
      exact Std.Refl.refl m.assembler
    · split at ran <;> cases ran
      exact (leads _).fails (by assumption)
  | bind first rest ihFirst ihRest => exact .bind ihFirst ihRest

theorem within {R : σ → σ → Prop} [Std.Refl R] [Trans R R R] (lends : lender.Within R) {x : Emit σ α} {y : Emit τ α}
    (alike : Alike lender lender' x y) : Emit.Within R x := by
  induction alike with
  | lift => exact liftWithin _
  | temporary => exact temporaryWithin lends _
  | bind first rest ihFirst ihRest => exact emitBind ihFirst ihRest

theorem pure {a : α} : Alike lender lender' (pure a) (pure a) :=
  show Alike lender lender' (liftM (Pure.pure a : Asm α)) (liftM (Pure.pure a : Asm α)) from .lift .pure

theorem invalid {f : OperandFault} : Alike lender lender' (Asm.lift (Asm.invalid f : Asm α)) (Asm.lift (Asm.invalid f)) :=
  .lift Asm.leadsInvalid

open Asm

theorem moveInto (aSize : Nat) (a : Operand) (bSize : Nat) (b : Register) :
    Alike lender lender' (moveIntoRegister lender aSize a bSize b) (moveIntoRegister lender' aSize a bSize b) := by
  cases a with
  | register r => exact .lift leadsMoveRegister
  | memory m => exact .lift (.bind leadsMemory fun _ => leadsLoad)
  | constant c =>
    unfold moveIntoRegister
    dsimp only
    split
    · exact .temporary fun t => .bind leadsLoadConstant fun _ => leadsCopyRegister
    · split
      · exact .lift (.bind leadsGeneral fun _ => leadsEmit _)
      · exact .lift leadsLoadConstant
  | address c =>
    unfold moveIntoRegister
    dsimp only
    split
    · exact .temporary fun t => .bind leadsLoadConstant fun _ => .bind leadsMemory fun _ => leadsLoad
    · exact .lift (.bind leadsLoadConstant fun _ => .bind leadsMemory fun _ => leadsLoad)

theorem moveAlone {aSize bSize : Nat} {a : Operand} {b : Register} :
    Leads Keeps (alone fun none => moveIntoRegister none aSize a bSize b) := by
  have moves := (moveInto aSize a bSize b : Alike ScratchSource.refusing ScratchSource.refusing _ _).leads
  refine ⟨fun s => ⟨fun ran => ?_, fun ran => ?_⟩⟩
  all_goals
    unfold alone at ran
    split at ran <;> cases ran
  · exact moves.holds (by assumption)
  · exact moves.fails (by assumption)

theorem integerSource {size : Nat} {a : Operand} {act : IntegerSource → Asm α} (leads : ∀ src, Leads Keeps (act src)) :
    Alike lender lender' (withIntegerSource lender size a act) (withIntegerSource lender' size a act) := by
  rw [integerSourceBracket, integerSourceBracket]
  cases a with
  | register r => exact .lift (.bind leadsGeneral fun _ => leads _)
  | memory m => exact .lift (.bind leadsMemory fun _ => leads _)
  | constant c =>
    dsimp only
    split
    · exact .lift (leads _)
    · exact .temporary fun t => .bind leadsLoadConstant fun _ => .bind leadsGeneral fun _ => leads _
  | address c => exact .invalid

theorem moveOperand (aSize : Nat) (a : Operand) (bSize : Nat) (b : Operand) :
    Alike lender lender' (X64.moveOperand lender aSize a bSize b) (X64.moveOperand lender' aSize a bSize b) := by
  unfold X64.moveOperand
  split
  · exact moveInto ..
  · exact .lift (.bind leadsMemory fun _ => leadsStore)
  · refine .bind (.lift leadsMemory) fun m => ?_
    split
    · exact .lift leadsStoreImmediate
    · exact .temporary fun t => .bind leadsLoadConstant fun _ => leadsStore
  · exact .temporary fun t => .bind moveAlone fun _ => .bind leadsMemory fun _ => leadsStore
  · exact .invalid

theorem absolute (a : Operand) (bSize : Nat) (b : Register) :
    Alike lender lender' (X64.absolute lender a bSize b) (X64.absolute lender' a bSize b) := by
  cases a with
  | register r =>
    unfold X64.absolute
    dsimp only
    split
    · exact .lift (.bind leadsCopyRegister fun _ => .bind leadsGeneral fun _ => .bind (leadsEmit _) fun _ =>
        .bind leadsGeneral fun _ => .bind leadsGeneral fun _ => leadsEmit _)
    · exact .temporary fun t => .bind leadsCopyRegister fun _ => .bind leadsGeneral fun _ => .bind (leadsEmit _) fun _ =>
        .bind leadsGeneral fun _ => .bind leadsGeneral fun _ => leadsEmit _
  | memory m => exact .invalid
  | constant c => exact .invalid
  | address c => exact .invalid

theorem changeSign (change : Width → Reg → Nat → Instruction) (size : Nat) (a : Operand) (b : Register) :
    Alike lender lender' (X64.changeSign lender change size a b) (X64.changeSign lender' change size a b) :=
  .temporary fun _ => .bind moveAlone fun _ => .bind leadsGeneral fun _ => .bind (leadsEmit _) fun _ => leadsCopyRegister

theorem convert (op : Binary) (aSize : Nat) (a : Operand) (bSize : Nat) (b : Operand) :
    Alike lender lender' (X64.convert lender op aSize a bSize b) (X64.convert lender' op aSize a bSize b) := by
  unfold X64.convert
  split
  · exact moveOperand ..
  · exact moveOperand ..
  · exact .lift leadsZeroExtend
  · exact .lift leadsHighWord
  · exact .lift leadsNegate
  · exact absolute ..
  · exact changeSign ..
  · exact changeSign ..
  · exact .lift leadsFloatToFloat
  · exact .lift leadsSquareRoot
  · exact .lift leadsFloatToInt
  · exact .lift leadsIntToFloat
  · exact .invalid

theorem combine (op : Ternary) (size : Nat) (a : Operand) (b c : Register) :
    Alike lender lender' (X64.combine lender op size a b c) (X64.combine lender' op size a b c) := by
  have integer (op : Alu) (src : IntegerSource) : Leads Keeps (do
      copyRegister (max size 4) b c
      alu op size (← arithmetic c size) src) := .bind leadsCopyRegister fun _ => .bind leadsGeneral fun _ => leadsAlu
  unfold X64.combine
  dsimp only
  split
  · exact .lift leadsDivide
  · exact .lift leadsDivide
  · exact .lift leadsShift
  · exact .lift leadsShift
  · exact .lift leadsShift
  · exact .integerSource fun src => leadsMultiply
  · exact .integerSource (integer .add)
  · exact .integerSource (integer .sub)
  · exact .integerSource (integer .and)
  · exact .integerSource (integer .or)
  · exact .integerSource (integer .xor)
  · exact .lift leadsFloatCombine
  · exact .lift leadsFloatCombine
  · exact .lift leadsFloatCombine
  · exact .lift leadsFloatCombine
  · exact .invalid

theorem branch (op : Ternary) (size : Nat) (a b c : Operand) :
    Alike lender lender' (X64.branch lender op size a b c) (X64.branch lender' op size a b c) := by
  unfold X64.branch
  split
  · exact .bind (.lift leadsFloatCompare) fun _ => .lift leadsBranchTo
  · exact .bind (.integerSource fun src => leadsCompare) fun _ => .lift leadsBranchTo

theorem popFrameShifted (words : Nat) (offset : Int) (returnAddress framePointer : Option Register) :
    Alike lender lender' (X64.popFrameShifted lender words offset returnAddress framePointer)
      (X64.popFrameShifted lender' words offset returnAddress framePointer) := by
  have store {words : Int} {r : Register} : Alike lender lender' (do Asm.store r 8 (← Asm.stackWord words))
      (do Asm.store r 8 (← Asm.stackWord words)) := .bind (.lift leadsStackWord) fun _ => .lift leadsStore
  have first {r : Register} {rest : Emit σ Unit} {rest' : Emit τ Unit} (last : Alike lender lender' rest rest') :
      Alike lender lender' (do Asm.store r 8 (← Asm.stackWord offset); rest) (do Asm.store r 8 (← Asm.stackWord offset); rest') :=
    .bind (.lift leadsStackWord) fun _ => .bind (.lift leadsStore) fun _ => last
  unfold X64.popFrameShifted
  refine .bind (.lift leadsStackWord) fun _ => .bind (.lift leadsStackWord) fun _ => .bind (.temporary fun t =>
    .bind leadsLoad fun _ => leadsStore) fun _ => .bind (.lift leadsStackWord) fun _ => .bind (.lift leadsLoad) fun _ =>
      .bind (.lift (leadsEmit _)) fun _ => ?_
  cases returnAddress with
  | none =>
    cases framePointer with
    | none => exact .pure
    | some r => exact store
  | some r =>
    cases framePointer with
    | none => exact first .pure
    | some r => exact first store

theorem emit (q : Request) (unbound : ∀ t, q ≠ .bind t) : Alike lender lender' (X64.emit lender q) (X64.emit lender' q) := by
  cases q with
  | nullary => exact .lift leadsNullary
  | unary => exact .lift leadsTransfer
  | binary => exact convert ..
  | ternary op aSize a bSize b cSize c =>
    simp only [X64.emit]
    split
    · exact branch ..
    · split
      · exact combine ..
      · exact .invalid
  | stackCheck => exact .lift leadsStackCheck
  | allocateFrame => exact .lift leadsAllocateFrame
  | adjustFrame => exact .lift leadsAdjustFrame
  | popFrame words offset returnAddress framePointer =>
    simp only [X64.emit]
    split
    · exact .lift leadsPopFrame
    · exact popFrameShifted ..
  | leave => exact .lift leadsLeave
  | bind t => exact absurd rfl (unbound t)

end Alike

theorem emitWithin {R : σ → σ → Prop} [Std.Refl R] [Trans R R R] (lends : lender.Within R) (q : Request) :
    Emit.Within R (emit lender q) := by
  cases q with
  | bind t => exact liftWithin _
  | _ => exact (Alike.emit _ (fun _ same => by cases same) : Alike lender lender _ _).within lends

/-! The ledger. -/

inductive Loan where
  | lent (r : Register)
  | returned (r : Register)
  deriving DecidableEq, Repr

def ScratchSource.audited (lender : ScratchSource σ) : ScratchSource (σ × List Loan) where
  acquire mask s :=
    match lender.acquire mask s.1 with
    | .ok r l => .ok r (l, s.2 ++ [.lent r])
    | .error e l => .error e (l, s.2)
  release r s := (lender.release r s.1, s.2 ++ [.returned r])

/-- The loans of registers that were each lent and returned before the next one was asked for. -/
def settled (lent : List Register) : List Loan := lent.flatMap fun r => [.lent r, .returned r]

theorem settledAppend (first later : List Register) : settled (first ++ later) = settled first ++ settled later :=
  List.flatMap_append

def withLedger (ledger : List Loan) : EStateM.Result Error (Emission σ) α →
    EStateM.Result Error (Emission (σ × List Loan)) α
  | .ok x m => .ok x ⟨m.assembler, (m.lender, ledger)⟩
  | .error e m => .error e ⟨m.assembler, (m.lender, ledger)⟩

theorem liftAudit (act : Asm α) (m : Emission σ) (ledger : List Loan) :
    ∃ lent, (liftM act : Emit (σ × List Loan) α) ⟨m.assembler, (m.lender, ledger)⟩ =
      withLedger (ledger ++ settled lent) ((liftM act : Emit σ α) m) := by
  refine ⟨[], ?_⟩
  change Asm.lift act _ = withLedger _ (Asm.lift act m)
  unfold Asm.lift
  simp only [settled, List.flatMap_nil, List.append_nil]
  cases act m.assembler <;> rfl

/- Auditing changes nothing, and what is lent is returned before anything else is. The induction is over the pieces; a
piece with a temporary adds one loan and its return. -/
theorem Alike.audit {x : Emit σ α} {y : Emit (σ × List Loan) α} (alike : Alike lender lender.audited x y)
    (m : Emission σ) (ledger : List Loan) :
    ∃ lent, y ⟨m.assembler, (m.lender, ledger)⟩ = withLedger (ledger ++ settled lent) (x m) := by
  induction alike generalizing m ledger with
  | lift => exact liftAudit ..
  | @temporary _ act leads =>
    cases lent : lender.acquire generalRegisters m.lender with
    | error e l => exact ⟨[], by simp [withTemporary, ScratchSource.audited, lent, withLedger, settled]⟩
    | ok r l =>
      refine ⟨[r], ?_⟩
      cases ran : act r m.assembler with
      | ok x a => simp [withTemporary, ScratchSource.audited, lent, ran, withLedger, settled]
      | error e a => simp [withTemporary, ScratchSource.audited, lent, ran, withLedger, settled]
  | @bind _ _ x y f g first rest ihFirst ihRest =>
    obtain ⟨before, begun⟩ := ihFirst m ledger
    cases ran : x m with
    | error e n =>
      refine ⟨before, ?_⟩
      simp only [Bind.bind, EStateM.bind, begun, ran, withLedger]
    | ok a n =>
      obtain ⟨after, done⟩ := ihRest a n (ledger ++ settled before)
      refine ⟨before ++ after, ?_⟩
      simp only [Bind.bind, EStateM.bind, begun, ran, withLedger, done, settledAppend, List.append_assoc]

/-! Sequences of requests. -/

def carryOut (lender : ScratchSource σ) (q : Request) (m : Emission σ) : Emission σ :=
  match emit lender q m with
  | .ok _ m' => m'
  | .error _ m' => m'

def carryAll (lender : ScratchSource σ) (qs : List Request) (m : Emission σ) : Emission σ :=
  qs.foldl (fun m q => carryOut lender q m) m

theorem carryAllAppend (qs rest : List Request) (m : Emission σ) :
    carryAll lender (qs ++ rest) m = carryAll lender rest (carryAll lender qs m) := List.foldl_append

theorem carryOutWithin {R : σ → σ → Prop} [Std.Refl R] [Trans R R R] (lends : lender.Within R) (q : Request)
    (m : Emission σ) : R m.lender (carryOut lender q m).lender := by
  unfold carryOut
  split
  · exact (emitWithin lends q).holds (by assumption)
  · exact (emitWithin lends q).fails (by assumption)

theorem carryAllWithin {R : σ → σ → Prop} [Std.Refl R] [Trans R R R] (lends : lender.Within R) (qs : List Request)
    (m : Emission σ) : R m.lender (carryAll lender qs m).lender := by
  induction qs generalizing m with
  | nil => exact Std.Refl.refl m.lender
  | cons q rest ih => exact Trans.trans (carryOutWithin lends q m) (ih (carryOut lender q m))

theorem poolWithin : ScratchSource.pool.Within Eq := by
  constructor
  · intro mask l r l' lent
    simp only [ScratchSource.pool] at lent ⊢
    split at lent <;> cases lent
    rename_i last
    rw [List.getLast?_eq_some_iff] at last
    obtain ⟨rest, rfl⟩ := last
    simp
  · intro mask l e l' refused
    simp only [ScratchSource.pool] at refused
    split at refused <;> cases refused
    rfl

/-- Whatever the request and the lender, and whether the request succeeds or not, every register that is lent is
returned once before another one is, nothing else is returned, and this is all the same to the emission. So a pool
is after any requests what it was before. -/
theorem loansAreReturned (lender : ScratchSource σ) (q : Request) (m : Emission σ) (ledger : List Loan) :
    (∃ lent, emit lender.audited q ⟨m.assembler, (m.lender, ledger)⟩ =
      withLedger (ledger ++ settled lent) (emit lender q m)) ∧
    ∀ (qs : List Request) (m : Emission (List Register)), (carryAll .pool qs m).lender = m.lender := by
  refine ⟨?_, fun qs m => (carryAllWithin poolWithin qs m).symm⟩
  cases q with
  | bind t => exact liftAudit (Asm.bind t) m ledger
  | _ => exact (Alike.emit _ fun _ same => by cases same).audit m ledger

end Lowering.X64
