import Lowering.X64.Emitter
import Lowering.Proofs.Outcome
/-!
What emission does to the assembler.

Instructions are appended, new labels are made, and targets get labels; nothing is taken back. A label that a
target has waits until the target is bound, and a label of the emitter's own is placed by whoever made it. So labels
and targets stay in order, however many calls fail on the way.
-/
namespace Lowering.X64

variable {α β σ : Type}

/-! Work by what it leads to. -/

structure LeadsFrom (R : σ → σ → Prop) (act : EStateM Error σ α) (s : σ) : Prop where
  holds : ∀ {a s'}, act s = .ok a s' → R s s'
  fails : ∀ {e s'}, act s = .error e s' → R s s'

structure Leads (R : σ → σ → Prop) (act : EStateM Error σ α) : Prop where
  start : ∀ s, LeadsFrom R act s

theorem LeadsFrom.bind {R : σ → σ → Prop} [Trans R R R] {x : EStateM Error σ α} {f : α → EStateM Error σ β} {s : σ}
    (first : LeadsFrom R x s) (rest : ∀ {a t}, x s = .ok a t → LeadsFrom R (f a) t) : LeadsFrom R (x >>= f) s := by
  constructor
  all_goals
    intro a s' ran
    simp only [Bind.bind, EStateM.bind] at ran
    split at ran
  · rename_i b t ok
    exact Trans.trans (first.holds ok) ((rest ok).holds ran)
  · cases ran
  · rename_i b t ok
    exact Trans.trans (first.holds ok) ((rest ok).fails ran)
  · rename_i failed
    cases ran
    exact first.fails failed

namespace Leads

variable {R : σ → σ → Prop} {x y : EStateM Error σ α} {f : α → EStateM Error σ β} {s s' : σ}

theorem holds (leads : Leads R x) {a : α} (ok : x s = .ok a s') : R s s' := (leads.start s).holds ok

theorem fails (leads : Leads R x) {e : Error} (failed : x s = .error e s') : R s s' := (leads.start s).fails failed

theorem pure [Std.Refl R] {a : α} : Leads R (Pure.pure a : EStateM Error σ α) :=
  ⟨fun s => ⟨fun ran => by cases ran; exact Std.Refl.refl s, fun ran => by cases ran⟩⟩

theorem throw [Std.Refl R] {e : Error} : Leads R (throw e : EStateM Error σ α) :=
  ⟨fun s => ⟨nofun, fun | rfl => Std.Refl.refl s⟩⟩

theorem modifyGet {f : σ → α × σ} (related : ∀ s, R s (f s).2) : Leads R (modifyGet f : EStateM Error σ α) :=
  ⟨fun s => ⟨fun ran => by cases ran; exact related s, fun ran => by cases ran⟩⟩

theorem modify {f : σ → σ} (related : ∀ s, R s (f s)) : Leads R (modify f : EStateM Error σ PUnit) := modifyGet related

theorem bind [Trans R R R] (first : Leads R x) (rest : ∀ a, Leads R (f a)) : Leads R (x >>= f) :=
  ⟨fun s => (first.start s).bind fun _ => (rest _).start _⟩

theorem read {f : σ → EStateM Error σ β} (each : ∀ s, LeadsFrom R (f s) s) : Leads R (MonadStateOf.get >>= f) :=
  ⟨fun s => ⟨(each s).holds, (each s).fails⟩⟩

theorem ite {c : Prop} [Decidable c] (yes : Leads R x) (no : Leads R y) : Leads R (if c then x else y) := by
  split
  · exact yes
  · exact no

theorem map {g : α → β} (leads : Leads R x) : Leads R (g <$> x) := by
  refine ⟨fun s => ⟨fun ran => ?_, fun ran => ?_⟩⟩
  all_goals
    simp only [Functor.map, EStateM.map] at ran
    split at ran <;> cases ran
  · exact leads.holds (by assumption)
  · exact leads.fails (by assumption)

theorem forIn [Std.Refl R] [Trans R R R] {g : α → β → EStateM Error σ (ForInStep β)} (xs : List α)
    (round : ∀ x b, Leads R (g x b)) (b : β) : Leads R (ForIn.forIn xs b g) := by
  induction xs generalizing b with
  | nil => exact pure
  | cons x rest ih =>
    rw [List.forIn_cons]
    refine bind (round x b) fun step => ?_
    cases step with
    | done c => exact pure
    | yield c => exact ih c

end Leads

/-! Operands. -/

namespace Asm

open Build

variable {s s' : Assembler}

theorem invalidOk {f : OperandFault} {x : α} : (invalid f : Asm α) s = .ok x s' ↔ False := throwOk

theorem generalOk {r : Register} {w : Width} {x : Reg} :
    general r w s = .ok x s' ↔ isGeneral r ∧ ⟨r, .general w⟩ = x ∧ s = s' := by
  unfold general
  split
  · rename_i inside
    rw [pureOk]
    exact (and_iff_right inside).symm
  · rename_i outside
    simp [outside, invalidOk]

theorem memoryOk {m x : MemoryRef} :
    memory m s = .ok x s' ↔ (∀ r ∈ m.registers, isGeneral r) ∧ m = x ∧ s = s' := by
  obtain ⟨base, offset, index, scale⟩ := m
  cases index
  all_goals
    simp only [memory, whole, bindOk, discardOk, generalOk, pureOk, MemoryRef.registers]
    simp [and_assoc, and_comm]

theorem emitOk {i : Instruction} {u : Unit} : emit i s = .ok u s' ↔ s' = { s with code := s.code.push i, pending := none } :=
  modifyOk

end Asm

section

variable {x : α} {m m' : Emission σ}

theorem liftOk {act : Asm α} :
    (liftM act : Emit σ α) m = .ok x m' ↔ ∃ a, act m.assembler = .ok x a ∧ { m with assembler := a } = m' := by
  change Asm.lift act m = _ ↔ _
  unfold Asm.lift
  cases act m.assembler with
  | ok y a =>
    simp only [EStateM.Result.ok.injEq]
    grind
  | error e a => simp

theorem temporaryOk {lender : ScratchSource σ} {act : Register → Asm α} :
    withTemporary lender act m = .ok x m' ↔ ∃ r l, lender.acquire generalRegisters m.lender = .ok r l ∧
      ∃ a, act r m.assembler = .ok x a ∧ ⟨a, lender.release r l⟩ = m' := by
  unfold withTemporary
  cases lender.acquire generalRegisters m.lender with
  | error e l => simp
  | ok r l =>
    simp only [EStateM.Result.ok.injEq]
    cases ran : act r m.assembler with
    | ok y a =>
      simp only [EStateM.Result.ok.injEq]
      grind
    | error e a => grind

end

/-! Labels and targets. -/

namespace Assembler

def StandsAt (a : Assembler) (l : Label) (i : Nat) : Prop := a.places[l]? = some (some i)

def Spare (a : Assembler) (l : Label) : Prop := l < a.places.size ∧ ∀ t, (t, l) ∉ a.labels

/-- Labels and targets fit together: a target that is not bound has a label of its own, which stands nowhere, and the
only label that waits for an instruction is the pending one. -/
structure Sound (a : Assembler) : Prop where
  inside : ∀ {l i}, a.StandsAt l i → i ≤ a.code.size
  waits : ∀ {l}, a.StandsAt l a.code.size ↔ a.pending = some l
  once : (a.labels.map Prod.fst).Nodup
  known : ∀ {t l}, (t, l) ∈ a.labels → l < a.places.size
  bound : ∀ {t}, t ∈ a.bound → ∃ l i, (t, l) ∈ a.labels ∧ a.StandsAt l i
  unbound : ∀ {t l}, (t, l) ∈ a.labels → t ∉ a.bound → a.places[l]? = some none
  apart : ∀ {t u l}, (t, l) ∈ a.labels → (u, l) ∈ a.labels → a.places[l]? = some none → t = u

/-- What was assembled stays: instructions are appended, labels stand where they stood, targets keep their labels, and
none is bound. -/
structure Extends (a a' : Assembler) : Prop where
  code : a.code.toList <+: a'.code.toList
  stands : ∀ {l i}, a.StandsAt l i → a'.StandsAt l i
  labels : a.labels <+: a'.labels
  bound : a'.bound = a.bound
  spare : ∀ {l}, a.Spare l → a'.Spare l
  sound : a.Sound → a'.Sound

variable {a a' b : Assembler} {l k : Label} {t : CodeTarget}

theorem Extends.refl (a : Assembler) : a.Extends a := ⟨List.prefix_rfl, id, List.prefix_rfl, rfl, id, id⟩

theorem Extends.trans (first : a.Extends a') (second : a'.Extends b) : a.Extends b :=
  ⟨first.code.trans second.code, second.stands ∘ first.stands, first.labels.trans second.labels,
    second.bound.trans first.bound, second.spare ∘ first.spare, second.sound ∘ first.sound⟩

def Keeps (a a' : Assembler) : Prop := a.Sound → a.Extends a'

instance : Std.Refl Keeps := ⟨fun a _ => .refl a⟩

instance : Trans Keeps Keeps Keeps :=
  ⟨fun first second sound => (first sound).trans (second ((first sound).sound sound))⟩

def push (a : Assembler) (i : Instruction) : Assembler := { a with code := a.code.push i, pending := none }

theorem extendsPush (a : Assembler) (i : Instruction) : a.Extends (a.push i) := by
  refine ⟨⟨[i], by simp [push]⟩, id, List.prefix_rfl, rfl, id, fun sound => ?_⟩
  refine ⟨fun stands => ?_, fun {l} => ?_, sound.once, sound.known, sound.bound, sound.unbound, sound.apart⟩
  · have before := sound.inside stands
    simp only [push, Array.size_push]
    omega
  · refine ⟨fun stands => ?_, fun waits => by cases waits⟩
    have before := sound.inside (l := l) stands
    simp only [push, Array.size_push] at before
    omega

theorem extendsPatches (a : Assembler) (patches : List (Nat × PromiseId)) : a.Extends { a with patches } :=
  ⟨List.prefix_rfl, id, List.prefix_rfl, rfl, id, fun sound =>
    ⟨sound.inside, sound.waits, sound.once, sound.known, sound.bound, sound.unbound, sound.apart⟩⟩

def padded (a : Assembler) : Assembler := if a.pending.isSome then a.push (.plain .nop) else a

theorem extendsPadded (a : Assembler) : a.Extends a.padded := by
  unfold padded
  split
  · exact a.extendsPush _
  · exact .refl a

def open_ (a : Assembler) : Assembler := { a with places := a.places.push none }

theorem standsOpen {i : Nat} : a.open_.StandsAt l i ↔ a.StandsAt l i := by
  unfold StandsAt open_
  rw [Array.getElem?_push]
  split
  · rename_i new
    simp [new]
  · rfl

theorem extendsOpen (a : Assembler) : a.Extends a.open_ := by
  have wider : ∀ {l}, l < a.places.size → l < a.open_.places.size := fun there => by
    simpa [open_] using Nat.lt_succ_of_lt there
  have old : ∀ {l}, l < a.places.size → a.open_.places[l]? = a.places[l]? := fun {l} there => by
    simp [open_, Array.getElem?_push, Nat.ne_of_lt there]
  refine ⟨List.prefix_rfl, standsOpen.mpr, List.prefix_rfl, rfl, fun ⟨there, spare⟩ => ⟨wider there, spare⟩, fun sound => ?_⟩
  refine ⟨fun stands => sound.inside (standsOpen.mp stands), standsOpen.trans sound.waits, sound.once,
    fun named => wider (sound.known named), fun member => ?_, fun named loose => ?_, fun first second free => ?_⟩
  · obtain ⟨l, i, named, stands⟩ := sound.bound member
    exact ⟨l, i, named, standsOpen.mpr stands⟩
  · exact (old (sound.known named)).trans (sound.unbound named loose)
  · rw [old (sound.known first)] at free
    exact sound.apart first second free

def name (a : Assembler) (t : CodeTarget) : Assembler :=
  { a.open_ with labels := a.labels ++ [(t, a.places.size)] }

theorem unlabelled (new : a.labels.lookup t = none) : t ∉ a.labels.map Prod.fst := fun member => by
  obtain ⟨⟨u, l⟩, named, rfl⟩ := List.mem_map.mp member
  have found := List.lookup_eq_none_iff.mp new _ named
  simp at found

theorem onceMore (once : (a.labels.map Prod.fst).Nodup) (new : a.labels.lookup t = none) (l : Label) :
    ((a.labels ++ [(t, l)]).map Prod.fst).Nodup := by
  rw [List.map_append]
  refine List.nodup_append.mpr ⟨once, by simp, fun u old v added same => ?_⟩
  rw [same, List.mem_singleton.mp added] at old
  exact unlabelled new old

theorem extendsName (new : a.labels.lookup t = none) : a.Extends (a.name t) := by
  have fresh : a.open_.places[a.places.size]? = some none := by simp [open_]
  have opened := extendsOpen a
  refine ⟨List.prefix_rfl, standsOpen.mpr, List.prefix_append .., rfl, fun ⟨there, spare⟩ => ?_, fun sound => ?_⟩
  · refine ⟨(opened.spare ⟨there, spare⟩).1, fun u named => ?_⟩
    rcases List.mem_append.mp named with old | added
    · exact spare u old
    · simp only [List.mem_singleton, Prod.mk.injEq] at added
      exact Nat.lt_irrefl _ (added.2 ▸ there)
  have sound' := opened.sound sound
  have members : ∀ {u l}, (u, l) ∈ (a.name t).labels ↔ (u, l) ∈ a.labels ∨ u = t ∧ l = a.places.size := by
    simp [name]
  refine ⟨sound'.inside, sound'.waits, onceMore sound.once new _, fun named => ?_, fun member => ?_,
    fun named loose => ?_, fun first second free => ?_⟩
  · rcases members.mp named with old | ⟨-, rfl⟩
    · exact sound'.known old
    · simp [name, open_]
  · obtain ⟨l, i, named, stands⟩ := sound'.bound member
    exact ⟨l, i, members.mpr (.inl named), stands⟩
  · rcases members.mp named with old | ⟨-, rfl⟩
    · exact sound'.unbound old loose
    · exact fresh
  · rcases members.mp first with one | ⟨rfl, rfl⟩ <;> rcases members.mp second with two | ⟨rfl, same⟩
    · exact sound'.apart one two free
    · exact absurd (sound.known one) (same ▸ Nat.lt_irrefl _)
    · exact absurd (sound.known two) (Nat.lt_irrefl _)
    · rfl

def stand (a : Assembler) (l : Label) : Assembler :=
  { a with places := a.places.modify l fun _ => some a.code.size, pending := some l }

theorem placesStand (there : l < a.places.size) :
    (a.stand l).places[k]? = if k = l then some (some a.code.size) else a.places[k]? := by
  simp only [stand, Array.getElem?_modify, eq_comm (a := l)]
  split
  · rename_i same
    rw [same, Array.getElem?_eq_getElem there]
    rfl
  · rfl

structure Settable (a : Assembler) (l : Label) : Prop where
  there : l < a.places.size
  free : a.places[l]? = some none
  clear : ∀ k, ¬ a.StandsAt k a.code.size

theorem standsStand {i : Nat} (settable : a.Settable l) :
    (a.stand l).StandsAt k i ↔ a.StandsAt k i ∨ k = l ∧ i = a.code.size := by
  unfold StandsAt
  rw [placesStand settable.there]
  split
  · rename_i same
    rw [same, settable.free]
    simp [eq_comm]
  · rename_i apart
    simp [apart]

theorem standWaits (settable : a.Settable l) :
    (a.stand l).StandsAt k (a.stand l).code.size ↔ (a.stand l).pending = some k := by
  have here : (a.stand l).code.size = a.code.size := rfl
  rw [here, standsStand settable]
  simp [settable.clear, stand, eq_comm]

theorem extendsStand (settable : a.Settable l) (spare : a.Spare l) : a.Extends (a.stand l) := by
  refine ⟨List.prefix_rfl, fun stands => (standsStand settable).mpr (.inl stands), List.prefix_rfl, rfl, fun ⟨there, other⟩ => ?_,
    fun sound => ?_⟩
  · exact ⟨by simpa [stand] using there, other⟩
  have apart : ∀ {t k}, (t, k) ∈ a.labels → (a.stand l).places[k]? = a.places[k]? := fun {t k} named => by
    rw [placesStand settable.there, if_neg]
    rintro rfl
    exact spare.2 t named
  refine ⟨fun stands => ?_, standWaits settable, sound.once, fun named => ?_, fun member => ?_,
    fun named loose => ?_, fun first second free => ?_⟩
  · rcases (standsStand settable).mp stands with before | ⟨-, rfl⟩
    · exact sound.inside before
    · exact Nat.le_refl _
  · simpa [stand] using sound.known named
  · obtain ⟨k, i, named, stands⟩ := sound.bound member
    exact ⟨k, i, named, (standsStand settable).mpr (.inl stands)⟩
  · exact (apart named).trans (sound.unbound named loose)
  · rw [apart first] at free
    exact sound.apart first second free

end Assembler

/-! Every piece of assembly extends what there is. -/

namespace Asm

open Build
open Assembler (Keeps)

variable {r r' dst : Register} {w : Width} {m : MemoryRef} {c : Constant} {a b : Operand} {size : Nat}

theorem leadsInvalid {f : OperandFault} : Leads Keeps (invalid f : Asm α) := .throw

theorem leadsEmit (i : Instruction) : Leads Keeps (emit i) := .modify fun s _ => s.extendsPush i

theorem leadsNewLabel : Leads Keeps newLabel := .modifyGet fun s _ => s.extendsOpen

theorem leadsGeneral : Leads Keeps (general r w) := .ite .pure leadsInvalid

theorem leadsFloat : Leads Keeps (float r) := .ite .pure leadsInvalid

theorem leadsMemory : Leads Keeps (memory m) := by
  unfold memory
  split
  · exact .bind (.bind leadsGeneral fun _ => .pure) fun _ => .bind (.bind leadsGeneral fun _ => .pure) fun _ => .pure
  · exact .bind (.bind leadsGeneral fun _ => .pure) fun _ => .pure

theorem labelOfEq (t : CodeTarget) (s : Assembler) :
    labelOf t s = match s.labels.lookup t with
      | some l => .ok l s
      | none => .ok s.places.size (s.name t) := by
  cases found : s.labels.lookup t with
  | some l =>
    have named : labelOf t s = (match s.labels.lookup t with
      | some l => return l
      | none => do
        let l ← newLabel
        modify fun a => { a with labels := a.labels ++ [(t, l)] }
        return l : Asm Label) s := rfl
    rw [named, found]
    rfl
  | none =>
    have named : labelOf t s = (match s.labels.lookup t with
      | some l => return l
      | none => do
        let l ← newLabel
        modify fun a => { a with labels := a.labels ++ [(t, l)] }
        return l : Asm Label) s := rfl
    rw [named, found]
    rfl

theorem leadsLabelOf (t : CodeTarget) : Leads Keeps (labelOf t) := by
  refine ⟨fun s => ⟨fun ran => ?_, fun ran => ?_⟩⟩
  all_goals
    rw [labelOfEq] at ran
    split at ran <;> cases ran
  · exact Std.Refl.refl s
  · exact fun _ => Assembler.extendsName (by assumption)

theorem leadsLoadConstant : Leads Keeps (loadConstant r c) := by
  refine .bind leadsGeneral fun dst => ?_
  cases c with
  | immediate v => exact .ite (leadsEmit _) (leadsEmit _)
  | label t => exact .bind (leadsLabelOf t) fun l => leadsEmit _
  | deferred p => exact .bind (.modify fun s _ => s.extendsPatches _) fun _ => leadsEmit _

theorem leadsCopyRegister : Leads Keeps (copyRegister size r dst) := by
  unfold copyRegister
  refine .ite .pure ?_
  split
  · exact .bind leadsGeneral fun _ => .bind leadsGeneral fun _ => leadsEmit _
  · exact .bind leadsFloat fun _ => .bind leadsFloat fun _ => leadsEmit _
  · exact .bind leadsFloat fun _ => .bind leadsGeneral fun _ => leadsEmit _
  · exact .bind leadsGeneral fun _ => .bind leadsFloat fun _ => leadsEmit _

theorem leadsMoveRegister {aSize bSize : Nat} : Leads Keeps (moveRegister aSize r bSize dst) :=
  .ite leadsCopyRegister (.ite (.bind leadsGeneral fun _ => .bind leadsGeneral fun _ => leadsEmit _) leadsCopyRegister)

theorem leadsLoad {aSize bSize : Nat} : Leads Keeps (load aSize m bSize r) :=
  .ite (.bind leadsFloat fun _ => leadsEmit _) (.bind leadsGeneral fun _ => .ite (leadsEmit _) (leadsEmit _))

theorem leadsStore : Leads Keeps (store r size m) :=
  .ite (.bind leadsFloat fun _ => leadsEmit _) (.bind leadsGeneral fun _ => leadsEmit _)

theorem leadsStoreImmediate {v : Int} : Leads Keeps (storeImmediate v size m) := leadsEmit _

theorem leadsZeroExtend : Leads Keeps (zeroExtend size a r) := by
  refine .bind leadsGeneral fun dst => ?_
  cases a with
  | register r' => exact .ite .pure (.bind leadsGeneral fun _ => leadsEmit _)
  | memory m => exact .bind leadsMemory fun _ => leadsEmit _
  | constant c => exact leadsInvalid
  | address c => exact leadsInvalid

theorem leadsAlu {op : Alu} {dst : Reg} {src : IntegerSource} : Leads Keeps (alu op size dst src) := by
  cases src <;> exact leadsEmit _

theorem leadsFloatSource : Leads Keeps (floatSource a) := by
  cases a with
  | register r => exact .bind leadsFloat fun _ => .pure
  | memory m => exact .bind leadsMemory fun _ => .pure
  | constant c => exact leadsInvalid
  | address c => exact leadsInvalid

theorem leadsDivide {op : Ternary} : Leads Keeps (divide op size a r r') := by
  unfold divide
  refine .ite (.bind leadsInvalid fun _ => ?_) ?_
  -- the operands are looked at on the way after the check, whether it fails or not
  all_goals cases a with
  | register divisor =>
    exact .bind (leadsEmit _) fun _ => .bind leadsGeneral fun _ => .bind (leadsEmit _) fun _ => .ite leadsCopyRegister .pure
  | memory m => exact leadsInvalid
  | constant c => exact leadsInvalid
  | address c => exact leadsInvalid

theorem leadsShift {op : Shift} : Leads Keeps (shift op size a r r') := by
  refine .bind leadsCopyRegister fun _ => .bind leadsGeneral fun dst => ?_
  split
  · exact leadsEmit _
  · exact leadsEmit _
  · exact leadsInvalid

theorem leadsMultiply {src : IntegerSource} : Leads Keeps (multiply size r r' src) := by
  cases src with
  | immediate v => exact .bind leadsGeneral fun _ => .bind leadsGeneral fun _ => leadsEmit _
  | place p => exact .bind leadsCopyRegister fun _ => .bind leadsGeneral fun _ => leadsEmit _

theorem leadsFloatCombine {op : Sse} : Leads Keeps (floatCombine op size a r r') :=
  .bind leadsFloatSource fun _ => .bind leadsCopyRegister fun _ => .bind leadsFloat fun _ => leadsEmit _

theorem leadsFloatToFloat {aSize bSize : Nat} : Leads Keeps (floatToFloat aSize a bSize r) :=
  .bind leadsFloatSource fun _ => .bind leadsFloat fun _ => leadsEmit _

theorem leadsSquareRoot : Leads Keeps (squareRoot size a r) :=
  .bind leadsFloatSource fun _ => .bind leadsFloat fun _ => leadsEmit _

theorem leadsFloatToInt {aSize bSize : Nat} : Leads Keeps (floatToInt aSize a bSize r) :=
  .bind leadsFloatSource fun _ => .bind leadsGeneral fun _ => leadsEmit _

theorem leadsIntToFloat {aSize bSize : Nat} : Leads Keeps (intToFloat aSize a bSize r) := by
  cases a with
  | register r' => exact .bind leadsGeneral fun _ => .bind .pure fun _ => .bind leadsFloat fun _ => leadsEmit _
  | memory m => exact .bind leadsMemory fun _ => .bind .pure fun _ => .bind leadsFloat fun _ => leadsEmit _
  | constant c => exact .bind leadsInvalid fun _ => .bind leadsFloat fun _ => leadsEmit _
  | address c => exact .bind leadsInvalid fun _ => .bind leadsFloat fun _ => leadsEmit _

theorem leadsHighWord : Leads Keeps (highWord a r) := by
  cases a with
  | register r' => exact .bind leadsCopyRegister fun _ => .bind leadsGeneral fun _ => leadsEmit _
  | memory m => exact .bind leadsMemory fun _ => leadsLoad
  | constant c => exact leadsInvalid
  | address c => exact leadsInvalid

theorem leadsNegate : Leads Keeps (negate a size r) := by
  cases a with
  | register r' => exact .bind leadsCopyRegister fun _ => .bind leadsGeneral fun _ => leadsEmit _
  | memory m => exact leadsInvalid
  | constant c => exact leadsInvalid
  | address c => exact leadsInvalid

theorem leadsJumpFar : Leads Keeps (jumpFar c) := .bind leadsLoadConstant fun _ => leadsEmit _

theorem leadsTransfer {call : Bool} : Leads Keeps (transfer call a) := by
  cases a with
  | register r => exact .bind leadsGeneral fun _ => leadsEmit _
  | memory m => exact .bind leadsMemory fun _ => leadsEmit _
  | constant c =>
    cases c with
    | label t => exact .bind (leadsLabelOf t) fun _ => leadsEmit _
    | immediate v => exact .bind leadsLoadConstant fun _ => leadsEmit _
    | deferred p => exact .bind leadsLoadConstant fun _ => leadsEmit _
  | address c => exact leadsInvalid

theorem leadsCompare {src : IntegerSource} : Leads Keeps (compare size b src) := by
  cases b with
  | register r => exact .bind leadsGeneral fun _ => leadsAlu
  | memory m =>
    refine .bind leadsMemory fun n => ?_
    split
    · exact leadsEmit _
    · exact leadsEmit _
    · exact leadsInvalid
  | constant c => exact leadsInvalid
  | address c => exact leadsInvalid

theorem leadsFloatCompare {op : Ternary} : Leads Keeps (floatCompare op size a b) := by
  cases b with
  | register r => exact .bind leadsFloatSource fun _ => .bind leadsFloat fun _ => leadsEmit _
  | memory m => exact leadsInvalid
  | constant c => exact leadsInvalid
  | address c => exact leadsInvalid

theorem leadsStackWord {words : Int} : Leads Keeps (stackWord words) := .ite .pure leadsInvalid

theorem leadsNullary {op : Nullary} : Leads Keeps (nullary op) := by
  cases op with
  | ret | storeLoadBarrier | trap => exact leadsEmit _
  | loadBarrier | storeStoreBarrier => exact .pure

theorem leadsAdjustFrame {words : Nat} : Leads Keeps (adjustFrame words) := .ite .pure (leadsEmit _)

theorem leadsAllocateFrame {words : Nat} : Leads Keeps (allocateFrame words) :=
  .bind (leadsEmit _) fun _ => .bind (leadsEmit _) fun _ => leadsAdjustFrame

theorem leadsPopFrame : Leads Keeps popFrame := .bind (leadsEmit _) fun _ => leadsEmit _

theorem leadsLeave {arguments : Nat} : Leads Keeps (leave arguments) :=
  .bind leadsPopFrame fun _ => .read fun s => (Leads.ite
    (.bind (leadsEmit _) fun _ => .bind (leadsEmit _) fun _ => leadsEmit _) (leadsEmit _)).start s

/-! The emitter's own labels. -/

variable {l : Label} {s s' : Assembler}

theorem given {act : Asm α} (each : s.Sound → LeadsFrom Keeps act s) : LeadsFrom Keeps act s :=
  ⟨fun ran sound => (each sound).holds ran sound, fun ran sound => (each sound).fails ran sound⟩

theorem newLabelSpare (sound : s.Sound) (ok : newLabel s = .ok l s') : s'.Spare l := by
  cases ok
  refine ⟨by simp, fun t named => ?_⟩
  exact Nat.lt_irrefl _ (sound.known named)

theorem setLabelEq (l : Label) (s : Assembler) :
    setLabel l s = if (s.places.getD l none).isSome then .error (.emission .labelPlaced) s
      else if s.places.contains (some s.code.size) then .error (.emission .labelWaits) s
      else .ok () (s.stand l) := by
  have steps : setLabel l s = (do
      if (s.places.getD l none).isSome then throw (.emission .labelPlaced)
      if s.places.contains (some s.code.size) then throw (.emission .labelWaits)
      set (s.stand l) : Asm Unit) s := rfl
  by_cases placed : (s.places.getD l none).isSome = true
  · simp only [steps, placed, ↓reduceIte]
    rfl
  by_cases waits : s.places.contains (some s.code.size) = true
  · simp only [steps, placed, waits, ↓reduceIte]
    rfl
  · simp only [steps, placed, waits]
    rfl

theorem settableIff (there : l < s.places.size) :
    s.Settable l ↔ ¬ (s.places.getD l none).isSome ∧ ¬ s.places.contains (some s.code.size) := by
  have place : s.places[l]? = some (s.places.getD l none) := by
    rw [Array.getD_eq_getD_getElem?, Array.getElem?_eq_getElem there, Option.getD_some]
  have waits : s.places.contains (some s.code.size) ↔ ∃ k, s.StandsAt k s.code.size := by
    rw [Array.contains_iff_mem]
    exact Array.mem_iff_getElem?
  refine ⟨fun settable => ⟨?_, ?_⟩, fun ⟨free, clear⟩ => ⟨there, ?_, fun k stands => clear (waits.mpr ⟨k, stands⟩)⟩⟩
  · rw [Option.some.inj (place.symm.trans settable.free)]
    decide
  · exact fun waiting => (waits.mp waiting).elim settable.clear
  · rw [place, Option.not_isSome_iff_eq_none.mp free]

theorem setLabelOk (settable : s.Settable l) : setLabel l s = .ok () (s.stand l) := by
  obtain ⟨free, clear⟩ := (settableIff settable.there).mp settable
  rw [setLabelEq, if_neg free, if_neg clear]

theorem leadsSetLabel (spare : s.Spare l) : LeadsFrom Keeps (setLabel l) s := by
  refine ⟨fun ran => ?_, fun ran => ?_⟩
  all_goals
    rw [setLabelEq] at ran
    split at ran
    · cases ran <;> exact Std.Refl.refl s
    split at ran <;> cases ran
  · exact fun _ => Assembler.extendsStand ((settableIff spare.1).mpr ⟨by assumption, by assumption⟩) spare
  · exact Std.Refl.refl s

theorem placeEq (l : Label) (s : Assembler) : place l s = setLabel l s.padded := by
  have placed : place l s = (if s.pending.isSome then (do emit (.plain .nop); setLabel l) else setLabel l : Asm Unit) s := rfl
  rw [placed]
  unfold Assembler.padded
  split <;> rfl

theorem leadsPlace (spare : s.Spare l) : LeadsFrom Keeps (place l) s := by
  have padded := s.extendsPadded
  have put := leadsSetLabel (padded.spare spare)
  refine ⟨fun ran sound => ?_, fun ran sound => ?_⟩
  all_goals rw [placeEq] at ran
  · exact padded.trans (put.holds ran (padded.sound sound))
  · exact padded.trans (put.fails ran (padded.sound sound))

theorem leadsBranchLabel : Leads Keeps (branchLabel a) := by
  cases a with
  | constant c =>
    cases c with
    | label t => exact .bind (leadsLabelOf t) fun l => .pure
    | immediate v => exact .bind leadsNewLabel fun l => .pure
    | deferred p => exact .bind leadsNewLabel fun l => .pure
  | register r => exact leadsInvalid
  | memory m => exact leadsInvalid
  | address c => exact leadsInvalid

theorem branchLabelSpare {far : Option Constant} (sound : s.Sound) (ok : branchLabel a s = .ok (l, far) s')
    (outside : far.isSome) : s'.Spare l := by
  cases a with
  | constant c =>
    cases c with
    | label t =>
      obtain ⟨k, t, named, same⟩ := bindOk.mp ok
      cases same
      cases outside
    | immediate v | deferred p =>
      obtain ⟨k, t, opened, same⟩ := bindOk.mp ok
      cases same
      exact newLabelSpare sound opened
  | register r => exact (invalidOk.mp ok).elim
  | memory m => exact (invalidOk.mp ok).elim
  | address c => exact (invalidOk.mp ok).elim

theorem leadsBranchTo {op : Ternary} : Leads Keeps (branchTo op a) := by
  refine ⟨fun s => given fun sound => .bind (leadsBranchLabel.start s) fun {named t} ok => ?_⟩
  obtain ⟨target, far⟩ := named
  have own := branchLabelSpare sound ok
  have sound := (leadsBranchLabel.holds ok sound).sound sound
  cases branchExits? op with
  | none => exact leadsInvalid.start t
  | some exits =>
    refine .bind (leadsNewLabel.start t) fun {skip u} opened => ?_
    have passing := newLabelSpare sound opened
    have named := leadsNewLabel.holds opened sound
    have sound := named.sound sound
    have round : ∀ (e : Exit × Condition) (_ : PUnit), Leads Keeps (do
        emit (.jumpIf e.2 (if e.1 == .target then target else skip))
        return .yield .unit : Asm (ForInStep PUnit)) := fun e _ => .bind (leadsEmit _) fun _ => .pure
    have loop := Leads.forIn exits round .unit
    refine .bind (loop.start u) fun {_ v} ran => ?_
    have looped := loop.holds ran sound
    cases far with
    | none =>
      split
      · exact leadsPlace (looped.spare passing)
      · exact Leads.pure.start v
    | some c =>
      refine .bind ((leadsEmit _).start v) fun {_ w} jumped => ?_
      have passed := looped.trans ((leadsEmit _).holds jumped (looped.sound sound))
      have put := leadsPlace (passed.spare (named.spare (own rfl)))
      refine .bind put fun {_ x} placed => .bind (leadsJumpFar.start x) fun {_ y} gone => ?_
      have arrived := passed.trans (put.holds placed (passed.sound sound))
      have left := arrived.trans (leadsJumpFar.holds gone (arrived.sound sound))
      exact leadsPlace (left.spare passing)

theorem leadsStackCheck {handler : Int} {limitOffset : Nat} : Leads Keeps (stackCheck handler limitOffset) := by
  refine .bind (leadsEmit _) fun _ => ⟨fun s => given fun sound => .bind (leadsNewLabel.start s) fun {passed t} ok => ?_⟩
  have spare := newLabelSpare sound ok
  have sound' := (leadsNewLabel.holds ok sound).sound sound
  refine .bind ((leadsEmit _).start t) fun {_ u} jumped => .bind (leadsJumpFar.start u) fun {_ v} gone => ?_
  have kept := Trans.trans ((leadsEmit _).holds jumped) (leadsJumpFar.holds gone)
  exact leadsPlace ((kept sound').spare spare)

end Asm

end Lowering.X64
