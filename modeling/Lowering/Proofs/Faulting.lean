import Lowering.Junction
import Lowering.Proofs.Outcome
/-!
What placing a value can fail with.

Choosing a place, taking it from its owner and copying a word there complain about operands, places
and temporary registers, and about a value that is nowhere. No other complaint comes from them, so
whoever places values may tell its own complaints from theirs.
-/
namespace Lowering

def Error.OfPlacing : Error → Prop
  | .invalidOperand _ | .impossibleTarget _ | .scratch _ => True
  | .invariant f => ∃ v, f = .noSite v
  | .fixedPoint _ _ | .emission _ | .unresolved _ => False

section

variable {σ α β : Type} {E : Error → Prop}

structure FailsWith (E : Error → Prop) (act : EStateM Error σ α) : Prop where
  fails : ∀ {s e s'}, act s = .error e s' → E e

namespace FailsWith

theorem pure {a : α} : FailsWith E (pure a : EStateM Error σ α) := ⟨fun failed => by cases failed⟩

theorem throw {e : Error} (of : E e) : FailsWith E (throw e : EStateM Error σ α) :=
  ⟨fun failed => by cases failed; exact of⟩

theorem get : FailsWith E (get : EStateM Error σ σ) := ⟨fun failed => by cases failed⟩

theorem modifyGet {f : σ → α × σ} : FailsWith E (modifyGet f : EStateM Error σ α) :=
  ⟨fun failed => by cases failed⟩

theorem modify {f : σ → σ} : FailsWith E (modify f : EStateM Error σ PUnit) := modifyGet

theorem bind {x : EStateM Error σ α} {f : α → EStateM Error σ β} (first : FailsWith E x)
    (rest : ∀ a, FailsWith E (f a)) : FailsWith E (x >>= f) := by
  constructor
  intro s e s' failed
  simp only [Bind.bind, EStateM.bind] at failed
  split at failed
  · exact (rest _).fails failed
  · cases failed
    exact first.fails (by assumption)

theorem map {x : EStateM Error σ α} {f : α → β} (fails : FailsWith E x) : FailsWith E (f <$> x) := by
  constructor
  intro s e s' failed
  simp only [Functor.map, EStateM.map] at failed
  split at failed
  · cases failed
  · cases failed
    exact fails.fails (by assumption)

theorem ite {c : Prop} [Decidable c] {x y : EStateM Error σ α} (yes : FailsWith E x)
    (no : FailsWith E y) : FailsWith E (if c then x else y) := by
  split
  · exact yes
  · exact no

theorem foldlM {f : β → α → EStateM Error σ β} {xs : List α}
    (round : ∀ b, ∀ a ∈ xs, FailsWith E (f b a)) (b : β) : FailsWith E (xs.foldlM f b) := by
  induction xs generalizing b with
  | nil => exact pure
  | cons a rest ih =>
    rw [List.foldlM_cons]
    exact bind (round b a List.mem_cons_self) fun c =>
      ih (fun b a later => round b a (List.mem_cons_of_mem _ later)) c

end FailsWith

abbrev FailsPlacing (act : EStateM Error σ α) : Prop := FailsWith Error.OfPlacing act

end

/-! Copying a word. -/

namespace X64

variable {σ α : Type} {E : Error → Prop} {lender : ScratchSource σ}

theorem failsLift {act : Asm α} (fails : FailsWith E act) :
    FailsWith E (Asm.lift act : Emit σ α) := by
  constructor
  intro s e s' failed
  unfold Asm.lift at failed
  split at failed
  · cases failed
  · cases failed
    exact fails.fails (by assumption)

theorem failsTemporary {act : Register → Asm α} (refuses : ∀ mask, FailsWith E (lender.acquire mask))
    (fails : ∀ r, FailsWith E (act r)) : FailsWith E (withTemporary lender act) := by
  constructor
  intro s e s' failed
  unfold withTemporary at failed
  split at failed
  · cases failed
    exact (refuses _).fails (by assumption)
  · split at failed
    · cases failed
    · cases failed
      exact (fails _).fails (by assumption)

theorem failsAlone {act : ScratchSource Unit → Emit Unit α} (fails : FailsWith E (act .refusing)) :
    FailsWith E (alone act) := by
  constructor
  intro s e s' failed
  unfold alone at failed
  split at failed
  · cases failed
  · cases failed
    exact fails.fails (by assumption)

namespace Asm

theorem failsInvalid (f : OperandFault) : FailsPlacing (invalid f : Asm α) := .throw trivial

theorem failsEmit (i : Instruction) : FailsPlacing (emit i) := .modify

theorem failsGeneral (r : Register) (w : Width) : FailsPlacing (general r w) := .ite .pure (failsInvalid _)

theorem failsFloat (r : Register) : FailsPlacing (float r) := .ite .pure (failsInvalid _)

theorem failsMemory (m : MemoryRef) : FailsPlacing (memory m) := by
  have whole : ∀ r : Register, FailsPlacing (discard (Asm.whole r) : Asm PUnit) :=
    fun r => .map (failsGeneral r _)
  unfold memory
  split
  · exact .bind (whole _) fun _ => .bind (whole _) fun _ => .pure
  · exact .bind (whole _) fun _ => .pure

theorem failsLabelOf (t : CodeTarget) : FailsPlacing (labelOf t) := by
  refine .bind .get fun a => ?_
  split
  · exact .pure
  · exact .bind .modifyGet fun _ => .bind .modify fun _ => .pure

theorem failsLoadConstant (r : Register) (c : Constant) : FailsPlacing (loadConstant r c) := by
  refine .bind (failsGeneral r _) fun dst => ?_
  cases c with
  | immediate v => exact .ite (failsEmit _) (failsEmit _)
  | label t => exact .bind (failsLabelOf t) fun _ => failsEmit _
  | deferred p => exact .bind .modify fun _ => failsEmit _

theorem failsCopyRegister (size : Nat) (src dst : Register) : FailsPlacing (copyRegister size src dst) := by
  unfold copyRegister
  refine .ite .pure ?_
  split
  · exact .bind (failsGeneral _ _) fun _ => .bind (failsGeneral _ _) fun _ => failsEmit _
  · exact .bind (failsFloat _) fun _ => .bind (failsFloat _) fun _ => failsEmit _
  · exact .bind (failsFloat _) fun _ => .bind (failsGeneral _ _) fun _ => failsEmit _
  · exact .bind (failsGeneral _ _) fun _ => .bind (failsFloat _) fun _ => failsEmit _

theorem failsMoveRegister (aSize : Nat) (a : Register) (bSize : Nat) (b : Register) :
    FailsPlacing (moveRegister aSize a bSize b) :=
  .ite (failsCopyRegister _ _ _)
    (.ite (.bind (failsGeneral _ _) fun _ => .bind (failsGeneral _ _) fun _ => failsEmit _)
      (failsCopyRegister _ _ _))

theorem failsLoad (aSize : Nat) (m : MemoryRef) (bSize : Nat) (b : Register) :
    FailsPlacing (load aSize m bSize b) :=
  .ite (.bind (failsFloat _) fun _ => failsEmit _)
    (.bind (failsGeneral _ _) fun _ => .ite (failsEmit _) (failsEmit _))

theorem failsStore (a : Register) (bSize : Nat) (m : MemoryRef) : FailsPlacing (store a bSize m) :=
  .ite (.bind (failsFloat _) fun _ => failsEmit _) (.bind (failsGeneral _ _) fun _ => failsEmit _)

end Asm

section

variable (refuses : ∀ mask, FailsPlacing (lender.acquire mask))

include refuses

theorem failsMoveInto (aSize : Nat) (a : Operand) (bSize : Nat) (b : Register) :
    FailsPlacing (moveIntoRegister lender aSize a bSize b) := by
  cases a with
  | register r => exact failsLift (Asm.failsMoveRegister ..)
  | memory m => exact failsLift (.bind (Asm.failsMemory m) fun _ => Asm.failsLoad ..)
  | constant c =>
    refine .ite (failsTemporary refuses fun t =>
      .bind (Asm.failsLoadConstant t c) fun _ => Asm.failsCopyRegister ..) ?_
    split
    · exact failsLift (.bind (Asm.failsGeneral ..) fun _ => Asm.failsEmit _)
    · exact failsLift (Asm.failsLoadConstant ..)
  | address c =>
    refine .ite (failsTemporary refuses fun t => .bind (Asm.failsLoadConstant t c) fun _ => ?_)
      (failsLift (.bind (Asm.failsLoadConstant b c) fun _ => ?_))
    · exact .bind (Asm.failsMemory _) fun _ => Asm.failsLoad ..
    · exact .bind (Asm.failsMemory _) fun _ => Asm.failsLoad ..

theorem failsMoveOperand (aSize : Nat) (a : Operand) (bSize : Nat) (b : Operand) :
    FailsPlacing (moveOperand lender aSize a bSize b) := by
  have nested : ∀ mask, FailsPlacing (ScratchSource.refusing.acquire mask) := fun mask => .throw trivial
  unfold moveOperand
  split
  · exact failsMoveInto refuses ..
  · exact failsLift (.bind (Asm.failsMemory _) fun _ => Asm.failsStore ..)
  · refine .bind (failsLift (Asm.failsMemory _)) fun m => ?_
    split
    · exact failsLift (Asm.failsEmit _)
    · exact failsTemporary refuses fun t => .bind (Asm.failsLoadConstant ..) fun _ => Asm.failsStore ..
  · exact failsTemporary refuses fun t => .bind (failsAlone (failsMoveInto nested ..)) fun _ =>
      .bind (Asm.failsMemory _) fun _ => Asm.failsStore ..
  · exact failsLift (Asm.failsInvalid _)

end

end X64

section

variable {α : Type} {i : SiteId} {v : ValueId} {evict : Evict}

theorem failsWhileFrozen {act : Build α} (fails : FailsPlacing act) :
    FailsPlacing (whileFrozen i act) := by
  refine .bind .modify fun _ => ⟨fun {s e s'} failed => ?_⟩
  unfold Build.ensuring at failed
  split at failed
  · cases failed
  · cases failed
    exact fails.fails (by assumption)

theorem failsAcquireTemporary (mask : RegisterSet) : FailsPlacing (acquireTemporary mask) := by
  refine .bind .get fun s => ?_
  dsimp only
  split
  · split
    · refine .ite (.bind .modifyGet fun alive => ?_) (.bind .modify fun _ => .bind .modify fun _ => .pure)
      exact .ite (.bind (.throw trivial) fun _ => .bind .modify fun _ => .bind .modify fun _ => .pure)
        (.bind .modify fun _ => .bind .modify fun _ => .pure)
    · exact .bind .modify fun _ => .pure
  · exact .throw trivial

theorem failsOperandOf (i : SiteId) : FailsPlacing (operandOf i) := by
  refine .bind .get fun s => ?_
  cases site : s.site i with
  | constant p => simp only [State.operand, site]; exact .pure
  | address p => simp only [State.operand, site]; exact .pure
  | memory m acquired => simp only [State.operand, site]; exact .pure
  | register mask number =>
    cases number with
    | none => simp only [State.operand, site]; exact .throw trivial
    | some n => simp only [State.operand, site]; exact .pure

theorem failsEmitCopy (a b : Operand) :
    FailsPlacing (emit (.binary .move wordSize a wordSize b)) := by
  constructor
  intro s e s' failed
  cases recording : s.emitter with
  | recording r => simp [emit, Emitter.emit, recording, Recorder.emit] at failed
  | machine m =>
    simp only [emit, Emitter.emit, recording] at failed
    cases assembled : X64.emit temporaries (.binary .move wordSize a wordSize b)
        ⟨m, { s with emitter := .recording {} }⟩ with
    | ok _ t => simp [assembled] at failed
    | error e' t =>
      simp only [assembled, EStateM.Result.error.injEq] at failed
      rw [← failed.1]
      exact (X64.failsMoveOperand failsAcquireTemporary wordSize a wordSize b).fails assembled

theorem failsEmitMove (src dst : SiteId) : FailsPlacing (emitMove src dst) :=
  .bind .modify fun _ => failsWhileFrozen (failsWhileFrozen
    (.bind (failsOperandOf src) fun _ => .bind (failsOperandOf dst) fun _ => failsEmitCopy ..))

/-! Choosing a place. -/

theorem failsChooseTarget (r : ReadId) (strict : Bool) (reserve : Nat) (moved : Option ValueId) :
    FailsPlacing (chooseTarget r strict reserve moved) := by
  refine .bind .get fun s => .bind .modifyGet fun mask => .bind .modifyGet fun narrower => ?_
  refine .bind .get fun s => .ite .pure (.ite .pure (.ite ?_ ?_))
  · exact .ite (.bind (.throw trivial) fun _ => .pure) .pure
  · exact .ite (.bind (.throw trivial) fun _ => .pure) .pure

theorem failsChooseSite (r : ReadId) (strict : Bool) (reserve : Nat) (moved : Option ValueId) :
    FailsPlacing (chooseSite r strict reserve moved) := by
  refine .bind (failsChooseTarget ..) fun t => ?_
  split
  · exact .bind .modify fun _ => .modifyGet
  · exact .modifyGet

/-! Placing and moving. What is needed of the displacements is that they fail so too. -/

def FailsEvicting (evict : Evict) : Prop := ∀ id thief, FailsPlacing (evict id thief)

section

variable (fails : FailsEvicting evict)

include fails

theorem failsAcquireResource (id : ResourceId) (o : Owner) :
    FailsPlacing (acquireResource evict id o) :=
  .bind .get fun _ => .ite .pure
    (.ite (.bind (fails _ _) fun _ => .modify) .modify)

theorem failsAcquire (v : ValueId) (i : SiteId) : FailsPlacing (acquireWith evict v i) := by
  refine .bind .get fun s => ?_
  split
  · exact .pure
  · exact .pure
  · rename_i mask number _
    have settled : FailsPlacing (settleRegister v mask number) := by
      cases number with
      | some n => exact .pure
      | none =>
        refine .bind .get fun s => ?_
        dsimp only
        split
        · exact .pure
        · exact .throw trivial
    exact .bind settled fun _ => .bind (failsAcquireResource fails ..) fun _ => .modify
  · refine .bind .modify fun _ => .bind .get fun s => ?_
    split
    · exact .bind (failsAcquireResource fails ..) fun _ => .modify
    · exact .modify

theorem failsPlace (v : ValueId) (i : SiteId) : FailsPlacing (placeWith evict v i) :=
  .bind .get fun _ => .ite .pure (.bind (failsAcquire fails v i) fun _ => .modify)

theorem failsStage (v : ValueId) (src : SiteId) (mask : OperandMask) :
    FailsPlacing (stageWith evict v src mask) :=
  .bind .modifyGet fun _ => .bind (failsChooseSite ..) fun i =>
    .bind (failsPlace fails v i) fun _ => .bind (failsEmitMove ..) fun _ => .pure

theorem failsRelocate (r : ReadId) (strict : Bool) (reserve : Nat) :
    FailsPlacing (relocateWith evict r strict reserve) := by
  refine .bind .get fun s => .bind (failsChooseSite ..) fun dst => .bind .get fun s => ?_
  dsimp only
  split
  · exact .throw ⟨_, rfl⟩
  · refine .ite .pure (.bind (failsWhileFrozen (failsPlace fails ..)) fun _ => .bind .get fun s => ?_)
    have copied : ∀ src, FailsPlacing (do emitMove src dst; return dst : Build SiteId) :=
      fun _ => .bind (failsEmitMove ..) fun _ => .pure
    refine .ite (.bind .pure fun src => copied src) (.bind ?_ fun src => copied src)
    exact failsWhileFrozen (failsWhileFrozen (failsStage fails ..))

end

end

end Lowering
