import Mathlib.Tactic.Linarith
import Lowering.Proofs.Checking
/-!
The address of a memory operand with an index.

An index in a register is a number of 32 bits, which is extended in place before the operand names the
register. A known index becomes part of the displacement, which has 32 bits as well. Both operands denote the
same address exactly if the displacement can hold the sum.
-/
namespace Lowering

open State Build

variable {s s' t t' u : State} {e e' : EventId} {m m' : MemoryEvent} {i k : SiteId} {v w : ValueId} {ref : MemoryRef}
  {base r : Register} {p p' : Processor} {c : Int}

/-! Sums in 32 and 64 bits. -/

theorem Word.lowSignedInt (c : Int) : Word.lowSigned 4 (BitVec.ofInt 64 c) = BitVec.ofInt 64 (signed 32 c) := by
  have low : -(2 ^ 31 : Int) ≤ signed 32 c := Int.le_bmod (by decide)
  have high : signed 32 c < 2 ^ 31 := Int.bmod_lt (by decide)
  have narrow : (BitVec.ofInt 64 c).setWidth 32 = BitVec.ofInt 32 c := by
    apply BitVec.eq_of_toInt_eq
    rw [← BitVec.signExtend_eq_setWidth_of_le _ (by decide), BitVec.toInt_signExtend, BitVec.toInt_ofInt,
      BitVec.toInt_ofInt]
    exact Int.bmod_bmod_of_dvd (by decide)
  have extended : Word.lowSigned 4 (BitVec.ofInt 64 c) = ((BitVec.ofInt 64 c).setWidth 32).signExtend 64 := rfl
  apply BitVec.eq_of_toInt_eq
  rw [extended, narrow, BitVec.toInt_signExtend_of_le (by decide), BitVec.toInt_ofInt, BitVec.toInt_ofInt,
    Int.bmod_eq_of_le (n := signed 32 c) (by omega) (by omega)]
  rfl

def Compile.folds (displacement : Int) (scale : Nat) (c : Int) : Bool :=
  fitsSigned 32 (displacement + signed 32 c * scale)

theorem foldsIff {displacement : Int} {scale : Nat} (narrow : fitsSigned 32 displacement = true) (small : scale ≤ 8) :
    (BitVec.ofInt 64 (signed 32 (displacement + signed 32 c * scale)) : Word) =
        BitVec.ofInt 64 (displacement + signed 32 c * scale) ↔
      Compile.folds displacement scale c = true := by
  have within (x : Int) : -(2 ^ 31 : Int) ≤ signed 32 x ∧ signed 32 x < 2 ^ 31 :=
    ⟨Int.le_bmod (by decide), Int.bmod_lt (by decide)⟩
  have start : signed 32 displacement = displacement := by simpa [fitsSigned] using narrow
  have held := within displacement
  rw [start] at held
  have index := within c
  have product : -(2 ^ 34 : Int) ≤ signed 32 c * scale ∧ signed 32 c * scale ≤ 2 ^ 34 := by
    have top : (scale : Int) ≤ 8 := by exact_mod_cast small
    have least : (0 : Int) ≤ scale := Int.natCast_nonneg scale
    constructor <;> nlinarith only [index.1, index.2, top, least]
  have sum := within (displacement + signed 32 c * scale)
  rw [Compile.folds, fitsSigned, beq_iff_eq]
  refine ⟨fun same => ?_, fun same => by rw [same]⟩
  have whole := congrArg BitVec.toInt same
  rwa [BitVec.toInt_ofInt, BitVec.toInt_ofInt, Int.bmod_eq_of_le (by omega) (by omega),
    Int.bmod_eq_of_le (by omega) (by omega)] at whole

/-! What a memory event gives to its result. -/

def State.IsAtMemory (s : State) (v : ValueId) (ref : MemoryRef) : Prop :=
  ∃ i ∈ (s.value v).sites, s.operand i = .ok (.memory ref)

def State.ComesFrom (s : State) (v : ValueId) (r : Register) : Prop :=
  ∃ i, (s.value v).source = some i ∧ (s.site i).number? = some r

def Compile.widen (r : Register) : Request := .binary .move 4 (.register r) wordSize (.register r)

theorem placeAtMemory {b : Bool} (known : s.IsSite i) (site : s.site i = .memory ref b)
    (ok : place v i s = .ok () t) (result : t.IsValue v) : t.IsAtMemory v ref := by
  have loosens : s.Loosens (fun _ => True) i True [] t := loosensPlace (fun _ _ => trivial) (.inr rfl) ok
  have stays := loosens.eases.place i known fun _ => by rw [site]; rfl
  refine ⟨i, ?_, ?_⟩
  · rw [place, placeWith, getBind] at ok
    split at ok
    · rename_i listed
      rw [← (pureOk.mp ok).2]
      simpa using listed
    · obtain ⟨⟨⟩, u, -, last⟩ := bindOk.mp ok
      rw [modifyOk.mp last] at result ⊢
      have there : u.IsValue v := by simpa [State.IsValue, State.modifyValue] using result
      rw [valueModify, if_pos ⟨rfl, there⟩]
      exact List.mem_cons_self
  · rw [site] at stays
    cases now : t.site i with
    | memory n acquired =>
      rw [now] at stays
      cases stays
      simp [State.operand, now]
    | _ => simp [now, Site.place] at stays

theorem givesMemory
    (ok : (do
      let i ← modifyGet (·.newSite (.ofMemory ref))
      modify (·.modifyValue v fun d => { d with target := some i })
      place v i : Build Unit) s = .ok () t) :
    (s.Records → s.Utters Request.IsMove t) ∧ (t.IsValue v → t.IsAtMemory v ref) := by
  have fills : ∀ i : SiteId, (do
      modify fun s => s.modifyValue v fun d => { d with target := some i }
      place v i : Build Unit).Fills Request.IsMove ⟨0⟩ i :=
    fun i => .adjust (fillsPlace (fun a b => ⟨a, b, rfl⟩) v i)
  refine ⟨((loosensCreating rfl fills).holds ok).utters, fun result => ?_⟩
  rw [modifyGetBind, modifyBind] at ok
  refine placeAtMemory (b := false) (i := (s.newSite (.ofMemory ref)).1) ?_ ?_ ok result
  · simp [State.IsSite, State.modifyValue, State.newSite]
  · exact siteNewSelf ..

theorem memoryFolds (index : m.index = some v) (known : s.knownNumber? v = some c)
    (ok : Compile.memory e m s = .ok () t) (result : t.IsValue m.result) :
    ∃ base, s.ComesFrom m.base base ∧
      t.IsAtMemory m.result ⟨base, signed 32 (m.displacement + signed 32 c * m.scale), none, 1⟩ := by
  rw [Compile.memory, getBind] at ok
  simp only [index, Option.bind_some, known, pure_bind] at ok
  obtain ⟨k, u, found, ok⟩ := bindOk.mp ok
  obtain ⟨source, same⟩ := sourceOfOk.mp found
  rw [same] at ok
  obtain ⟨base, u, held, ok⟩ := bindOk.mp ok
  obtain ⟨register, same⟩ := Compile.registerOfNumber held
  rw [same] at ok
  obtain ⟨⟨⟩, u, -, ok⟩ := bindOk.mp ok
  obtain ⟨⟨⟩, u', -, ok⟩ := bindOk.mp ok
  exact ⟨base, ⟨k, source, register⟩, (givesMemory ok).2 result⟩

theorem memoryWidens (records : s.Records) (index : m.index = some v) (unknown : s.knownNumber? v = none)
    (ok : Compile.memory e m s = .ok () t) (result : t.IsValue m.result) :
    ∃ base r before later, s.ComesFrom m.base base ∧ s.ComesFrom v r ∧
      t.emitter.log = s.emitter.log ++ before ++ Compile.widen r :: later ∧
      (∀ q ∈ before ++ later, q.IsMove) ∧ t.IsAtMemory m.result ⟨base, m.displacement, some r, m.scale⟩ := by
  have moves : ∀ a b, (Request.binary .move wordSize a wordSize b).IsMove := fun a b => ⟨a, b, rfl⟩
  rw [Compile.memory, getBind] at ok
  simp only [index, Option.bind_some, unknown] at ok
  obtain ⟨i, u, found, ok⟩ := bindOk.mp ok
  obtain ⟨indexed, same⟩ := sourceOfOk.mp found
  rw [same] at ok
  obtain ⟨_, u, named, ok⟩ := bindOk.mp ok
  obtain ⟨r, held, rfl⟩ := mapOk.mp named
  obtain ⟨number, same⟩ := Compile.registerOfNumber held
  rw [same] at ok
  obtain ⟨k, u, found, ok⟩ := bindOk.mp ok
  obtain ⟨source, same⟩ := sourceOfOk.mp found
  rw [same] at ok
  obtain ⟨base, u, held, ok⟩ := bindOk.mp ok
  obtain ⟨register, same⟩ := Compile.registerOfNumber held
  rw [same] at ok
  obtain ⟨⟨⟩, w, read, ok⟩ := bindOk.mp ok
  obtain ⟨⟨⟩, w₁, widened, ok⟩ := bindOk.mp ok
  obtain ⟨⟨⟩, w₂, read', ok⟩ := bindOk.mp ok
  have first := uttersConsumeRead moves records read
  obtain ⟨before, log, moved⟩ := first.log
  obtain ⟨-, records', log'⟩ := emitRecords first.records widened
  obtain ⟨gives, denotes⟩ := givesMemory ok
  have second := uttersConsumeRead moves records' read'
  obtain ⟨later, log'', moved'⟩ := (second.trans (gives second.records)).log
  refine ⟨base, r, before, later, ⟨k, source, register⟩, ⟨i, indexed, number⟩, ?_, ?_, denotes result⟩
  · rw [log'', log', log]
    simp [Compile.widen]
  · exact fun q member => (List.mem_append.mp member).elim (moved q) (moved' q)

theorem stepWiden {p : Processor} {r : Register} (holds : p.registers r = BitVec.ofInt 64 c) :
    p.step (Compile.widen r) = some (p.setRegister r (BitVec.ofInt 64 (signed 32 c))) := by
  simp [Compile.widen, Processor.step, Processor.read, Processor.write, Binary.onWord?, holds, Word.lowSignedInt]

theorem addressFolded {p p' : Processor} {displacement : Int} {scale : Nat} {base base' r : Register}
    (narrow : fitsSigned 32 displacement = true) (small : scale ≤ 8) (same : p.registers base = p'.registers base')
    (index : p'.registers r = BitVec.ofInt 64 (signed 32 c)) :
    p.address ⟨base, signed 32 (displacement + signed 32 c * scale), none, 1⟩ =
        p'.address ⟨base', displacement, some r, scale⟩ ↔ Compile.folds displacement scale c = true := by
  have factor : (BitVec.ofNat 64 scale : Word) = BitVec.ofInt 64 scale := (BitVec.ofInt_natCast 64 scale).symm
  rw [← foldsIff narrow small, Processor.address, Processor.address]
  simp only [index, same, BitVec.add_zero, factor, BitVec.add_assoc, ← BitVec.ofInt_mul, ← BitVec.ofInt_add]
  exact BitVec.add_right_inj _

/-- A known index and the same index in a register, which is extended before it is used, lead to the same address
exactly if the displacement can hold the sum. -/
theorem foldsAddress (records : s'.Records) (displacement : m'.displacement = m.displacement) (scale : m'.scale = m.scale)
    (narrow : fitsSigned 32 m.displacement = true) (small : m.scale ∈ [1, 2, 4, 8])
    (index : m.index = some v) (known : s.knownNumber? v = some c) (ok : Compile.memory e m s = .ok () t)
    (result : t.IsValue m.result)
    (index' : m'.index = some w) (unknown : s'.knownNumber? w = none) (ok' : Compile.memory e' m' s' = .ok () t')
    (result' : t'.IsValue m'.result) :
    ∃ ref ref' r before later, t.IsAtMemory m.result ref ∧ t'.IsAtMemory m'.result ref' ∧
      s.ComesFrom m.base ref.base ∧ s'.ComesFrom m'.base ref'.base ∧ s'.ComesFrom w r ∧
      t'.emitter.log = s'.emitter.log ++ before ++ Compile.widen r :: later ∧ (∀ q ∈ before ++ later, q.IsMove) ∧
      ∀ held : Processor, held.registers r = BitVec.ofInt 64 c →
        ∃ p', held.step (Compile.widen r) = some p' ∧
          ∀ p : Processor, p.registers ref.base = p'.registers ref'.base →
            (p.address ref = p'.address ref' ↔ Compile.folds m.displacement m.scale c = true) := by
  have least : m.scale ≤ 8 := by
    simp only [List.mem_cons, List.not_mem_nil, or_false] at small
    omega
  obtain ⟨base, source, folded⟩ := memoryFolds index known ok result
  obtain ⟨base', r, before, later, source', held, log, moves, widened⟩ := memoryWidens records index' unknown ok' result'
  rw [displacement, scale] at widened
  refine ⟨_, _, r, before, later, folded, widened, source, source', held, log, moves, fun p holds => ?_⟩
  refine ⟨_, stepWiden holds, fun q same => ?_⟩
  exact addressFolded narrow least same (by simp [Processor.setRegister])

/-- A base in a register, an index at a site, and a value that is to be at a memory operand. -/
def State.addressing (index : Site) : State :=
  let s := indexing index
  { s with values := s.values.push { kind := .general, next := ⟨2⟩ } }

/-- An element of a list of longwords whose number is known to be three, or kept in a register. -/
theorem thirdIsFolded : ∃ t t', Compile.memory ⟨0⟩ ⟨⟨0⟩, 16, some ⟨1⟩, 8, ⟨2⟩⟩ (addressing (.constant ⟨0⟩)) = .ok () t ∧
    Compile.memory ⟨0⟩ ⟨⟨0⟩, 16, some ⟨1⟩, 8, ⟨2⟩⟩ (addressing (.ofRegister X64.rsi)) = .ok () t' ∧
    ∃ ref ref' r before later, t.IsAtMemory ⟨2⟩ ref ∧ t'.IsAtMemory ⟨2⟩ ref' ∧
      (addressing (.constant ⟨0⟩)).ComesFrom ⟨0⟩ ref.base ∧ (addressing (.ofRegister X64.rsi)).ComesFrom ⟨0⟩ ref'.base ∧
      (addressing (.ofRegister X64.rsi)).ComesFrom ⟨1⟩ r ∧
      t'.emitter.log = (addressing (.ofRegister X64.rsi)).emitter.log ++ before ++ Compile.widen r :: later ∧
      (∀ q ∈ before ++ later, q.IsMove) ∧
      ∀ held : Processor, held.registers r = BitVec.ofInt 64 3 →
        ∃ p', held.step (Compile.widen r) = some p' ∧
          ∀ p : Processor, p.registers ref.base = p'.registers ref'.base →
            (p.address ref = p'.address ref' ↔ Compile.folds 16 8 3 = true) := by
  obtain ⟨⟨⟩, t, ok, result⟩ : Reaches (Compile.memory ⟨0⟩ ⟨⟨0⟩, 16, some ⟨1⟩, 8, ⟨2⟩⟩) (addressing (.constant ⟨0⟩))
      (State.IsValue · ⟨2⟩) := by decide +kernel
  obtain ⟨⟨⟩, t', ok', result'⟩ : Reaches (Compile.memory ⟨0⟩ ⟨⟨0⟩, 16, some ⟨1⟩, 8, ⟨2⟩⟩) (addressing (.ofRegister X64.rsi))
      (State.IsValue · ⟨2⟩) := by decide +kernel
  exact ⟨t, t', ok, ok', foldsAddress ⟨_, rfl⟩ rfl rfl rfl (by decide) rfl rfl ok result rfl rfl ok' result'⟩

def ClientCall.indexing (index : ClientCall) : List ClientCall :=
  [.start 1 0 0 2, .startInstruction 0, .register X64.rdi, index, .memory ⟨0⟩ .general 0 (some ⟨1⟩) 8,
    .load .move 8 ⟨2⟩ 8, .leave (some ⟨3⟩), .compile none 0]

/-- A register holds an index, and each word of memory its own address. -/
def Processor.indexing (index : Word) : Processor := ⟨fun r => if r = X64.rsi then index else 0#64, some⟩

/- Both codes return the address that they read. For element 2³⁰ of a list at zero it is 2³³, but the displacement
holds zero. -/
theorem wideIndexFolds :
    (Processor.indexing (BitVec.ofInt 64 (2 ^ 30))).outcome
        (described (ClientCall.indexing (.constant (2 ^ 30) .general))).emitter.log = some 0#64 ∧
      (Processor.indexing (BitVec.ofInt 64 (2 ^ 30))).outcome
        (described (ClientCall.indexing (.register X64.rsi))).emitter.log = some (BitVec.ofInt 64 (2 ^ 33)) := by
  decide +kernel

end Lowering
