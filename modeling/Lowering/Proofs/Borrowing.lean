import Lowering.Proofs.Precedence
import Lowering.Proofs.Choosing
/-!
What a branch may borrow.

The places that the paths after a branch start from are settled before the branch is emitted, since
nothing can be moved afterwards, and what kept them is thawed by then. The emitter still needs a
register if it compares with a constant that no instruction holds. It gets one that nobody has, if
there is one, so that no place the paths rely on is touched. Otherwise it gets one that is not frozen
and that its owner can spare, which says nothing about those places.
-/
namespace Lowering

open State Build
open X64 (ScratchSource Emission)

variable {s s' : State} {r : Register} {e : EventId}

def remembering : ScratchSource (State × List Register) where
  acquire mask := fun (s, lent) =>
    match acquireTemporary mask s with
    | .ok r s => .ok r (s, lent ++ [r])
    | .error e s => .error e (s, lent)
  release r := fun (s, lent) => (s.releaseTemporary r, lent)

def State.borrowedFor (s : State) (q : Request) : List Register :=
  match Emitter.emit remembering q (s.emitter, { s with emitter := .recording {} }, []) with
  | .ok _ (_, _, lent) => lent
  | .error _ _ => []

/-- What a branch or a jump asks of the emitter, and in which state. The operands of a comparison
are frozen meanwhile. -/
def State.transfer? (s : State) : EventKind → Option (Request × State)
  | .branch b =>
    match Compile.decided? s b with
    | some true => do
      let target ← (s.value b.address).source
      return (.unary .jump wordSize (← (s.operand target).toOption), s)
    | some false => none
    | none => do
      let first ← (s.value b.first).source
      let second ← (s.value b.second).source
      let target ← (s.value b.address).source
      let q := .ternary b.op b.size (← (s.operand first).toOption) b.size
        (← (s.operand second).toOption) wordSize (← (s.operand target).toOption)
      return (q, ((s.freezeSite first).freezeSite second).freezeSite target)
  | .jump j => do
    let target ← (s.value j.address).source
    return (.unary j.op wordSize (← (s.operand target).toOption), s)
  | _ => none

def State.borrowedBy (s : State) (e : EventId) : List Register :=
  match s.transfer? (s.event e).kind with
  | some (q, t) => t.borrowedFor q
  | none => []

theorem sourceOfOk {v : ValueId} {i : SiteId} :
    sourceOf v s = .ok i s' ↔ (s.value v).source = some i ∧ s' = s := by
  unfold sourceOf
  rw [getBind]
  cases (s.value v).source with
  | none => simp
  | some k => simp [eq_comm]

theorem operandFreeze (i k : SiteId) : (s.freezeSite i).operand k = s.operand k := by
  rw [freezeSiteEq]
  rfl

theorem emitterThaw (i : SiteId) : (s.thawSite i).emitter = s.emitter := by
  unfold thawSite
  split
  · rfl
  · split <;> rfl
  · rfl

theorem comparisonEmitted {b : BranchEvent} (undecided : Compile.decided? s b = none)
    (ok : Compile.compareAndBranch b s = .ok () s') :
    ∃ q t t', s.transfer? (.branch b) = some (q, t) ∧ emit q t = .ok () t' ∧
      s'.emitter = t'.emitter := by
  simp only [Compile.compareAndBranch, bindOk, sourceOfOk, whileFrozenOk, operandOfOk,
    operandFreeze] at ok
  obtain ⟨first, _, ⟨one, rfl⟩, second, _, ⟨two, rfl⟩, target, _, ⟨three, rfl⟩, ok⟩ := ok
  obtain ⟨u, ⟨v, ⟨w, ⟨x, _, ⟨left, rfl⟩, y, _, ⟨right, rfl⟩, z, _, ⟨goal, rfl⟩, emitted⟩, rfl⟩,
    rfl⟩, rfl⟩ := ok
  rw [operandFreeze, operandFreeze, operandFreeze] at right goal
  refine ⟨_, _, w, ?_, emitted, ?_⟩
  · simp [transfer?, undecided, one, two, three, left, right, goal, Except.toOption]
  · rw [emitterThaw, emitterThaw, emitterThaw]

/-! What is borrowed. -/

section

variable {α β σ : Type} {size : Nat} {a : Operand} {lent : List Register} {asm : X64.Assembler}
  {m : Emission (State × List Register)}

theorem emitBindOk {x : X64.Emit σ α} {f : α → X64.Emit σ β} {b : β} {m m' : Emission σ}
    (ok : (x >>= f) m = .ok b m') : ∃ c n, x m = .ok c n ∧ f c n = .ok b m' := by
  simp only [bind, EStateM.bind] at ok
  split at ok
  · rename_i c n started
    exact ⟨c, n, started, ok⟩
  · cases ok

theorem liftLends {act : X64.Asm α} {x : α} {m m' : Emission σ}
    (ok : (X64.Asm.lift act : X64.Emit σ α) m = .ok x m') : m'.lender = m.lender :=
  ((X64.liftWithin (R := Eq) act).holds ok).symm

theorem temporaryLends {act : Register → X64.Asm α} {x : α}
    (ok : X64.withTemporary remembering act ⟨asm, s, []⟩ = .ok x m) :
    ∃ r t, acquireTemporary X64.generalRegisters s = .ok r t ∧ m.lender.2 = [r] := by
  unfold X64.withTemporary at ok
  cases lent : acquireTemporary X64.generalRegisters s with
  | error e t => simp [remembering, lent] at ok
  | ok r t =>
    simp only [remembering, lent, List.nil_append] at ok
    cases run : act r asm with
    | error e a => simp [run] at ok
    | ok y a =>
      simp only [run] at ok
      cases ok
      exact ⟨r, t, rfl, rfl⟩

/-- At most one register was lent for an operand of `size` bytes, and only if the operand is a
constant without an immediate form. -/
inductive LendsFor (s : State) (size : Nat) (a : Operand) : List Register → Prop
  | none : LendsFor s size a []
  | wide {k : Constant} {r : Register} {t : State} (constant : a = .constant k)
      (immediate : X64.immediate? size k = .none)
      (lent : acquireTemporary X64.generalRegisters s = .ok r t) : LendsFor s size a [r]

theorem integerSourceLends {act : X64.IntegerSource → X64.Asm α} {x : α}
    (ok : X64.withIntegerSource remembering size a act ⟨asm, s, []⟩ = .ok x m) :
    LendsFor s size a m.lender.2 := by
  have unlent : m.lender = (s, []) → LendsFor s size a m.lender.2 := by
    intro same
    rw [same]
    exact .none
  rw [X64.integerSourceBracket] at ok
  cases a with
  | register _ => exact unlent (liftLends ok)
  | memory _ => exact unlent (liftLends ok)
  | address _ => exact unlent (liftLends ok)
  | constant k =>
    cases immediate : X64.immediate? size k with
    | some v =>
      simp only [immediate] at ok
      exact unlent (liftLends ok)
    | none =>
      simp only [immediate] at ok
      obtain ⟨r, t, lent, remembered⟩ := temporaryLends ok
      rw [remembered]
      exact .wide rfl immediate lent

theorem branchLends {op : Ternary} {b c : Operand}
    (ok : X64.branch remembering op size a b c ⟨asm, s, []⟩ = .ok () m) :
    LendsFor s size a m.lender.2 := by
  unfold X64.branch at ok
  split at ok
  · obtain ⟨_, n, compared, gone⟩ := emitBindOk ok
    rw [liftLends gone, liftLends compared]
    exact .none
  · obtain ⟨_, n, compared, gone⟩ := emitBindOk ok
    rw [liftLends gone]
    exact integerSourceLends compared

end

theorem borrowedForSpec (s : State) (q : Request) : s.borrowedFor q = [] ∨
    ∃ asm n, X64.emit remembering q ⟨asm, { s with emitter := .recording {} }, []⟩ = .ok () n ∧
      s.borrowedFor q = n.lender.2 := by
  unfold borrowedFor
  cases which : s.emitter with
  | recording k =>
    simp only [Emitter.emit]
    split
    · rename_i emitted
      split at emitted
      · cases emitted
        exact .inl rfl
      · cases emitted
    · exact .inl rfl
  | machine asm =>
    simp only [Emitter.emit]
    cases assembled : X64.emit remembering q ⟨asm, { s with emitter := .recording {} }, []⟩ with
    | error e n => exact .inl rfl
    | ok u n => exact .inr ⟨asm, n, assembled, rfl⟩

theorem borrowedForJump (op : Unary) (size : Nat) (a : Operand) :
    s.borrowedFor (.unary op size a) = [] := by
  rcases borrowedForSpec s (.unary op size a) with none | ⟨asm, n, assembled, lent⟩
  · exact none
  · rw [lent]
    exact congrArg Prod.snd (liftLends assembled)

theorem borrowedForBranch {op : Ternary} (branch : op.isBranch = true) (s : State)
    (aSize bSize cSize : Nat) (a b c : Operand) : LendsFor { s with emitter := .recording {} } aSize a
      (s.borrowedFor (.ternary op aSize a bSize b cSize c)) := by
  rcases borrowedForSpec s (.ternary op aSize a bSize b cSize c) with none | ⟨asm, n, assembled, lent⟩
  · rw [none]
    exact .none
  · rw [lent]
    simp only [X64.emit, branch, if_true] at assembled
    exact branchLends assembled

theorem transferSpec {kind : EventKind} {q : Request} {t : State}
    (asked : s.transfer? kind = some (q, t)) :
    (∃ op a, q = .unary op wordSize a) ∨ ∃ b x y target, kind = .branch b ∧
      q = .ternary b.op b.size x b.size y wordSize target ∧
      ∃ i j k, t = ((s.freezeSite i).freezeSite j).freezeSite k := by
  cases kind with
  | branch b =>
    cases decided : Compile.decided? s b with
    | none =>
      simp only [transfer?, decided, Option.bind_eq_bind, Option.bind_eq_some_iff,
        Option.pure_def, Option.some.injEq, Prod.mk.injEq] at asked
      obtain ⟨i, -, j, -, k, -, x, -, y, -, target, -, rfl, rfl⟩ := asked
      exact .inr ⟨b, x, y, target, rfl, rfl, i, j, k, rfl⟩
    | some taken =>
      cases taken with
      | false => simp [transfer?, decided] at asked
      | true =>
        simp only [transfer?, decided, Option.bind_eq_bind, Option.bind_eq_some_iff,
          Option.pure_def, Option.some.injEq, Prod.mk.injEq] at asked
        obtain ⟨i, -, a, -, rfl, -⟩ := asked
        exact .inl ⟨.jump, a, rfl⟩
  | jump j =>
    simp only [transfer?, Option.bind_eq_bind, Option.bind_eq_some_iff, Option.pure_def,
      Option.some.injEq, Prod.mk.injEq] at asked
    obtain ⟨i, -, a, -, rfl, -⟩ := asked
    exact .inl ⟨j.op, a, rfl⟩
  | _ => cases asked

def EventKind.comparison? : EventKind → Option Ternary
  | .branch b => some b.op
  | _ => none

/- A register that is lent for a branch or a jump is not frozen, and its owner, if it is live, has
another place. Jumps and comparisons with anything but a wide constant take no register. A register
with an owner is lent only if all that can be had have one; and where the register that is lent has
no owner, no live value is in it. -/
theorem branchesBorrowSpares (formed : s.WellFormed)
    (compares : ∀ op ∈ (s.event e).kind.comparison?, op.isBranch = true)
    (lent : r ∈ s.borrowedBy e) :
    ∃ b k q t, (s.event e).kind = .branch b ∧ s.transfer? (.branch b) = some (q, t) ∧
      q.operands.head? = some (.constant k) ∧ X64.immediate? b.size k = none ∧
      t.borrowedFor q = [r] ∧ (t.resources.get (.register r)).isUnavailable = false ∧
      (∀ o, t.owner? (.register r) = some o →
        t.isLastSite o.value o.site = false ∨ ¬ t.Live o.value) ∧
      (∀ n, t.Usable (.register n) → RegisterSet.has X64.generalRegisters n = true →
        t.owner? (.register n) = none → t.owner? (.register r) = none) ∧
      (s.Owned → s.resources.Has (.register r) → t.owner? (.register r) = none →
        ∀ v, s.Live v → ∀ i ∈ (s.value v).sites, s.resource? i ≠ some (.register r)) := by
  unfold borrowedBy at lent
  split at lent
  · rename_i q t asked
    rcases transferSpec asked with ⟨op, a, rfl⟩ | ⟨b, x, y, target, kind, rfl, i, j, k, held⟩
    · rw [borrowedForJump] at lent
      cases lent
    · have formed' : t.WellFormed := by
        rw [held]
        exact wellFormedFreeze (wellFormedFreeze (wellFormedFreeze formed i) j) k
      have owners : ∀ id, t.owner? id = s.owner? id := fun id => by
        rw [held, freezeSiteOwner, freezeSiteOwner, freezeSiteOwner]
      have frees : ∀ id, t.Free id ↔ s.Free id := fun id => by
        rw [held, (freezeSiteUnmoved _ k).free, (freezeSiteUnmoved _ j).free,
          (freezeSiteUnmoved s i).free]
      have lends := borrowedForBranch (compares b.op (by rw [kind]; rfl)) t b.size b.size wordSize
        x y target
      rw [kind] at asked
      generalize same : t.borrowedFor _ = borrowed at lends lent
      cases lends with
      | none => cases lent
      | wide constant immediate lent' =>
        rw [List.mem_singleton] at lent
        subst lent
        have idle := t.keepsEmitter (.recording {})
        obtain ⟨chosen, available, u, lends, -⟩ :=
          acquireTemporarySpec (idle.wellFormed formed' formed'.listed) lent'
        obtain ⟨u', lends, -⟩ := lendsEmitter formed' lends
        refine ⟨b, _, _, t, kind, asked, by rw [constant]; rfl, immediate, same, available, ?_, ?_, ?_⟩
        · intro o owner
          cases lends with
          | vacant none =>
            rw [none] at owner
            cases owner
          | owned owner' evolves spare =>
            rw [owner'] at owner
            cases owner
            exact spare
        · intro n usable member vacant
          exact chooseRegisterVacant (s := { t with emitter := .recording {} }) chosen
            ⟨usable.offered, usable.unreserved, usable.unfrozen, usable.unreferred⟩ member vacant
        · intro owned has vacant v alive i listed names
          have free : t.Free (.register r) := by
            rw [Resource.isUnavailable, Bool.or_eq_false_iff, Bool.or_eq_false_iff] at available
            exact available.1.1
          have mine := owned.held v i _ alive listed names has ((frees _).mp free)
          rw [← owners, vacant] at mine
          cases mine
  · cases lent

/-! A method that needs every register. -/

namespace Sample

def sumStack : Nat → ValueId → Build ValueId
  | 0, sum => return sum
  | n + 1, sum => do sumStack n (← Method.combine .add 8 (← Method.pop 1) sum)

/-- All general registers go on the stack. They are added up if the first of them is less than a
wide constant. -/
def crowded : Build Unit := do
  modify fun s => s.start 4 0 0 12
  Method.startInstruction 0
  let values ← [0, 1, 2, 6, 7, 8, 9, 10, 12, 13, 14, 15].mapM Method.register
  values.forM (Method.push 1)
  let wide ← Method.constant (2 ^ 40) .general
  Method.branch .jumpIfLess 8 wide (values.headD ⟨0⟩) (← codeAddress 3)
  let state ← Method.saveState
  Method.startInstruction 3
  Method.leave (some (← sumStack 11 (← Method.pop 1)))
  Method.restoreState state
  Method.startInstruction 1
  Method.leave none

end Sample

/-- A register is borrowed to emit the event although a snapshot puts a value there that is live
once the event is over. -/
def State.Disturbs (s : State) (e : EventId) : Prop :=
  ∃ r ∈ s.borrowedBy e, ∃ n ∈ (s.event e).snapshots,
    Site.ofRegisters (RegisterSet.single r) ∈ n.sites ∧ (after (Compile.event e) s).Live n.value

instance (s : State) (e : EventId) : Decidable (s.Disturbs e) :=
  inferInstanceAs (Decidable (∃ _ ∈ _, _))

theorem crowdedSettles :
    Reaches (do Sample.crowded; Compile.upTo none 0 1; Compile.approach ⟨1⟩)
      { blank with emitter := .machine {} } fun s =>
        ((s.event ⟨1⟩).kind.isBranch = true ∧ s.Disturbs ⟨1⟩) ∧ s.WellFormed ∧
          (∀ op ∈ (s.event ⟨1⟩).kind.comparison?, op.isBranch = true) ∧
          X64.rcx ∈ s.borrowedBy ⟨1⟩ := by
  decide +kernel

theorem crowdedDisturbs :
    Succeeds (do Sample.crowded; Compile.method none 0) { blank with emitter := .machine {} } ∧
      Reaches (do Sample.crowded; Compile.upTo none 0 1; Compile.approach ⟨1⟩)
        { blank with emitter := .machine {} } fun s => (s.event ⟨1⟩).kind.isBranch = true ∧
          s.Disturbs ⟨1⟩ := by
  obtain ⟨a, s, ok, disturbs, -⟩ := crowdedSettles
  exact ⟨by decide +kernel, a, s, ok, disturbs⟩

theorem crowdedBorrowsSpare : ∃ s : State, X64.rcx ∈ s.borrowedBy ⟨1⟩ ∧
    ∃ b k q t, (s.event ⟨1⟩).kind = .branch b ∧ s.transfer? (.branch b) = some (q, t) ∧
      q.operands.head? = some (.constant k) ∧ X64.immediate? b.size k = none ∧
      t.borrowedFor q = [X64.rcx] ∧ (t.resources.get (.register X64.rcx)).isUnavailable = false ∧
      (∀ o, t.owner? (.register X64.rcx) = some o →
        t.isLastSite o.value o.site = false ∨ ¬ t.Live o.value) ∧
      (∀ n, t.Usable (.register n) → RegisterSet.has X64.generalRegisters n = true →
        t.owner? (.register n) = none → t.owner? (.register X64.rcx) = none) ∧
      (s.Owned → s.resources.Has (.register X64.rcx) → t.owner? (.register X64.rcx) = none →
        ∀ v, s.Live v → ∀ i ∈ (s.value v).sites, s.resource? i ≠ some (.register X64.rcx)) := by
  obtain ⟨_, s, -, -, formed, compares, lent⟩ := crowdedSettles
  exact ⟨s, lent, branchesBorrowSpares formed compares lent⟩

end Lowering
