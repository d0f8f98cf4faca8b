import Lowering.Proofs.Displacement
import Lowering.Proofs.Masks
import Lowering.Proofs.Stirring
import Lowering.X64.Description
/-!
What masks tell apart.

A mask is narrowed in its kinds, its registers and its slots, each for itself, and a site is matched against all three.
The two views agree as long as no two slots share a byte offset: then a mask that was narrowed by another admits the
sites that both admit and no others. A register and a frame slot have masks that admit nothing else, and whoever
acquires a copy of such a site is where the mask says.
-/
namespace Lowering

open State Build

variable {g : FrameGeometry} {i j : Nat} {x : Site}

namespace FrameGeometry

def Reaches (g : FrameGeometry) (i : Nat) : Prop := i + g.footer < 2 ^ 28

instance (g : FrameGeometry) (i : Nat) : Decidable (g.Reaches i) := inferInstanceAs (Decidable (_ < _))

theorem indexReached (reached : g.Reaches i) : g.index (g.offset i) = i := by
  refine g.indexOffset ?_
  have low : i + g.footer < 2 ^ 28 := reached
  simp only [wordSize, modulus, Nat.pow_eq]
  omega

theorem offsetReached (first : g.Reaches i) (second : g.Reaches j) (same : g.offset i = g.offset j) : i = j := by
  rw [← indexReached first, same, indexReached second]

end FrameGeometry

namespace SlotMask

def Reached (g : FrameGeometry) (m : SlotMask) : Prop := ∀ i, m = .only i → g.Reaches i

def Admits (g : FrameGeometry) (ref : MemoryRef) : SlotMask → Prop
  | .any => True
  | .none => False
  | .only i => ref.base = g.stack ∧ ref.offset = g.offset i

@[simp] theorem anyInter (a : SlotMask) : SlotMask.any.inter a = a := by cases a <;> rfl

@[simp] theorem interAny (a : SlotMask) : a.inter .any = a := by cases a <;> rfl

@[simp] theorem noneInter (a : SlotMask) : SlotMask.none.inter a = .none := by cases a <;> rfl

@[simp] theorem interNone (a : SlotMask) : a.inter .none = .none := by cases a <;> rfl

theorem onlyInter (i j : Nat) : (SlotMask.only i).inter (.only j) = if i = j then .only i else .none := rfl

theorem admitsInter {a b : SlotMask} (ref : MemoryRef) (first : a.Reached g) (second : b.Reached g) :
    (a.inter b).Admits g ref ↔ a.Admits g ref ∧ b.Admits g ref := by
  cases a with
  | any => simp [Admits]
  | none => simp [Admits]
  | only i =>
    cases b with
    | any => simp [Admits]
    | none => simp [Admits]
    | only j =>
      rw [onlyInter]
      split
      · rename_i same
        subst same
        simp [Admits]
      · rename_i apart
        simp only [Admits, false_iff, not_and]
        intro ⟨_, here⟩ _ there
        exact apart (FrameGeometry.offsetReached (first i rfl) (second j rfl) (here.symm.trans there))

theorem interComm (a b : SlotMask) : a.inter b = b.inter a := by
  cases a with
  | any => simp
  | none => simp
  | only i =>
    cases b with
    | any => simp
    | none => simp
    | only j => by_cases same : i = j <;> simp [onlyInter, same, eq_comm]

theorem interAssoc (a b c : SlotMask) : (a.inter b).inter c = a.inter (b.inter c) := by
  cases a with
  | any => simp
  | none => simp
  | only i =>
    cases b with
    | any => simp
    | none => simp
    | only j =>
      cases c with
      | any => simp
      | none => simp
      | only k =>
        rw [onlyInter, onlyInter]
        split
        · rename_i first
          subst first
          split <;> simp_all [onlyInter]
        · split <;> simp_all [onlyInter]

theorem interSelf (a : SlotMask) : a.inter a = a := by cases a <;> simp [onlyInter]

end SlotMask

namespace SiteMask

theorem satisfiesMemory (g : FrameGeometry) (ref : MemoryRef) (acquired : Bool) (m : SiteMask) :
    (Site.memory ref acquired).satisfies g m = true ↔ m.accepts .memory = true ∧ m.slots.Admits g ref := by
  unfold Site.satisfies
  cases m.slots <;> simp [SlotMask.Admits]

theorem satisfiesInterIff {a b : SiteMask} (first : a.slots.Reached g) (second : b.slots.Reached g) (x : Site) :
    x.satisfies g (a.inter b) = true ↔ x.satisfies g a = true ∧ x.satisfies g b = true := by
  cases x with
  | constant p => simp [Site.satisfies, accepts, inter, KindSet.hasInter]
  | address p => simp [Site.satisfies, accepts, inter, KindSet.hasInter]
  | register mask number =>
    cases number with
    | none => simp [Site.satisfies]
    | some n =>
      simp only [Site.satisfies, accepts, inter, KindSet.hasInter, RegisterSet.hasInter, Bool.and_eq_true]
      tauto
  | memory ref acquired =>
    rw [satisfiesMemory, satisfiesMemory, satisfiesMemory]
    simp only [accepts, inter, KindSet.hasInter, Bool.and_eq_true, SlotMask.admitsInter ref first second]
    tauto

theorem interComm (a b : SiteMask) : a.inter b = b.inter a := by
  simp only [inter, BitVec.and_comm, a.slots.interComm]

theorem interAssoc (a b c : SiteMask) : (a.inter b).inter c = a.inter (b.inter c) := by
  simp only [inter, BitVec.and_assoc, SlotMask.interAssoc]

theorem interSelf (a : SiteMask) : a.inter a = a := by
  simp only [inter, BitVec.and_self, a.slots.interSelf]

theorem interAny {a : SiteMask} (kinds : a.kinds &&& KindSet.all = a.kinds) : a.inter .any = a := by
  have registers : a.registers &&& RegisterSet.all = a.registers := BitVec.and_allOnes
  simp only [inter, any, kinds, registers, a.slots.interAny]

end SiteMask

theorem KindSet.hasBit (k l : OperandKind) : KindSet.has k.bit l = decide (k = l) := by
  cases k <;> cases l <;> decide

namespace Site

theorem satisfiesRegister (mask : RegisterSet) {n : Register} (small : n < 64) (y : Site) :
    y.satisfies g ((Site.register mask (some n)).mask g) = true ↔ y.number? = some n := by
  cases y with
  | constant p => simp [satisfies, Site.mask, SiteMask.accepts, KindSet.hasBit, number?]
  | address p => simp [satisfies, Site.mask, SiteMask.accepts, KindSet.hasBit, number?]
  | memory ref acquired => simp [satisfies, Site.mask, SiteMask.accepts, KindSet.hasBit, number?]
  | register mask' number =>
    cases number with
    | none => simp [satisfies, number?]
    | some m =>
      simp only [satisfies, Site.mask, SiteMask.accepts, KindSet.hasBit, decide_true, Bool.true_and, number?,
        Option.some.injEq]
      refine ⟨RegisterSet.hasSingle, ?_⟩
      rintro rfl
      simp [RegisterSet.has, RegisterSet.single, small]

theorem maskFrame (reached : g.Reaches i) : (Site.frame g i).mask g = .slot i := by
  simp [Site.frame, Site.ofMemory, Site.mask, slot?, FrameGeometry.indexReached reached, SiteMask.slot]

theorem satisfiesFrame (reached : g.Reaches i) (y : Site) :
    y.satisfies g ((Site.frame g i).mask g) = true ↔
      ∃ ref acquired, y = .memory ref acquired ∧ ref.base = g.stack ∧ ref.offset = g.offset i := by
  rw [maskFrame reached]
  cases y with
  | constant p => simp [satisfies, SiteMask.slot, SiteMask.accepts, KindSet.hasBit]
  | address p => simp [satisfies, SiteMask.slot, SiteMask.accepts, KindSet.hasBit]
  | register mask number => cases number <;> simp [satisfies, SiteMask.slot, SiteMask.accepts, KindSet.hasBit]
  | memory ref acquired =>
    rw [SiteMask.satisfiesMemory]
    simp [SiteMask.slot, SiteMask.accepts, KindSet.hasBit, SlotMask.Admits]

end Site

/-! Acquiring a copy. -/

section Acquire

variable {s t : State} {v : ValueId} {k : SiteId}

theorem State.isSiteOfKind (other : (s.site k).kind ≠ .constant) : s.IsSite k := by
  by_contra outside
  have default : s.site k = default := by simp [State.site, Array.getD, show ¬ k.index < s.sites.size from outside]
  rw [default] at other
  exact other rfl

theorem siteWritten (stirs : s.Stirs t) (other : (s.site k).kind ≠ .constant) (y : Site) : (t.setSite k y).site k = y := by
  rw [siteSet, if_pos ⟨rfl, stirs.isSite (isSiteOfKind other)⟩]

theorem acquireOpen {mask : RegisterSet} (site : s.site k = .register mask none) (ok : acquire v k s = .ok () t) :
    ∃ n, RegisterSet.has mask n = true ∧ t.site k = .register mask (some n) := by
  unfold acquire acquireWith at ok
  rw [getBind] at ok
  simp only [site, bindOk, modifyOk] at ok
  obtain ⟨n, u, settled, ⟨⟩, w, taken, rfl⟩ := ok
  obtain ⟨rfl, -, member⟩ := settleRegisterSpec settled
  have stirs := (stirringAcquireResource stirringEvict _ _).holds taken
  exact ⟨n, member, siteWritten stirs (by simp [site, Site.kind]) _⟩

theorem acquireMemory {ref : MemoryRef} {acquired : Bool} (site : s.site k = .memory ref acquired)
    (ok : acquire v k s = .ok () t) : t.site k = .memory ref true := by
  have referred : s.Stirs (s.referTo ref) := stirsModifyResources _
  have other : (s.site k).kind ≠ .constant := by simp [site, Site.kind]
  unfold acquire acquireWith at ok
  rw [getBind] at ok
  simp only [site, modifyBind, getBind] at ok
  cases slot : (s.referTo ref).slotResource? (.memory ref acquired) with
  | none =>
    simp only [slot, modifyOk] at ok
    rw [ok]
    exact siteWritten referred other _
  | some id =>
    simp only [slot, bindOk, modifyOk] at ok
    obtain ⟨⟨⟩, w, taken, rfl⟩ := ok
    have stirs := (stirringAcquireResource stirringEvict _ _).holds taken
    exact siteWritten (referred.trans stirs) other _

end Acquire

inductive Site.Definite (g : FrameGeometry) : Site → Prop where
  | register (mask : RegisterSet) {n : Register} (small : n < 64) : Definite g (.register mask (some n))
  | slot {i : Nat} (reached : g.Reaches i) : Definite g (Site.frame g i)

theorem Site.Definite.acquired {s t : State} {v : ValueId} {k : SiteId} (definite : x.Definite g)
    (site : s.site k = x.copy) (ok : acquire v k s = .ok () t) : (t.site k).satisfies g (x.mask g) = true := by
  cases definite with
  | @register mask n small =>
    have copied : s.site k = .register (RegisterSet.single n) none := site
    obtain ⟨m, member, there⟩ := acquireOpen copied ok
    rw [there, satisfiesRegister mask small, RegisterSet.hasSingle member]
    rfl
  | @slot i reached =>
    have copied : s.site k = .memory ⟨g.stack, g.offset i, none, 1⟩ false := site
    rw [acquireMemory copied ok, satisfiesFrame reached]
    exact ⟨⟨g.stack, g.offset i, none, 1⟩, true, rfl, rfl, by dsimp only⟩

/- Narrowing loses no site and adds none, and the mask of a register or a frame slot finds it again. -/
theorem masksAreExact (g : FrameGeometry) :
    (∀ a b : SiteMask, a.slots.Reached g → b.slots.Reached g → ∀ x : Site,
      (x.satisfies g (a.inter b) = true ↔ x.satisfies g a = true ∧ x.satisfies g b = true)) ∧
    (∀ a b c : SiteMask, a.inter b = b.inter a ∧ (a.inter b).inter c = a.inter (b.inter c) ∧ a.inter a = a) ∧
    (∀ a : SiteMask, a.kinds &&& KindSet.all = a.kinds → a.inter .any = a ∧ SiteMask.any.inter a = a) ∧
    (∀ (mask : RegisterSet) (n : Register), n < 64 → ∀ x : Site,
      (x.satisfies g ((Site.register mask (some n)).mask g) = true ↔ x.number? = some n)) ∧
    (∀ i, g.Reaches i → ∀ x : Site, (x.satisfies g ((Site.frame g i).mask g) = true ↔
      ∃ ref acquired, x = .memory ref acquired ∧ ref.base = g.stack ∧ ref.offset = g.offset i)) ∧
    ∀ x : Site, x.Definite g → ∀ (s t : State) (v : ValueId) (k : SiteId), s.geometry = g → s.site k = x.copy →
      acquire v k s = .ok () t → t.geometry = g ∧ (t.site k).satisfies g (x.mask g) = true := by
  refine ⟨fun a b first second x => SiteMask.satisfiesInterIff first second x,
    fun a b c => ⟨a.interComm b, a.interAssoc b c, a.interSelf⟩, fun a kinds => ⟨SiteMask.interAny kinds, ?_⟩,
    fun mask n small x => Site.satisfiesRegister mask small x, fun i reached x => Site.satisfiesFrame reached x, ?_⟩
  · rw [SiteMask.interComm]
    exact SiteMask.interAny kinds
  · intro x definite s t v k geometry site ok
    exact ⟨((stirringAcquire v k).holds ok).geometry.trans geometry, definite.acquired site ok⟩

def State.offered (x : Site) : State :=
  ((((State.empty (X64.describe {}) {} (.recording {})).start 0 0 0 8).newValue .general).2.newSite x).2

/- The slot is named twice, the register is rcx, and both copies are acquired. -/
theorem fifthSlotIsExact :
    let g : FrameGeometry := (State.offered (.constant ⟨0⟩)).geometry
    ((Site.frame g 5).satisfies g ((SiteMask.slot 5).inter (.slot 5)) = true ↔
      (Site.frame g 5).satisfies g (.slot 5) = true ∧ (Site.frame g 5).satisfies g (.slot 5) = true) ∧
    (SiteMask.slot 5).inter .any = .slot 5 ∧
    ((Site.ofRegister X64.rcx).satisfies g ((Site.ofRegister X64.rcx).mask g) = true ↔
      (Site.ofRegister X64.rcx).number? = some X64.rcx) ∧
    ((Site.frame g 5).satisfies g ((Site.frame g 5).mask g) = true ↔
      ∃ ref acquired, Site.frame g 5 = .memory ref acquired ∧ ref.base = g.stack ∧ ref.offset = g.offset 5) ∧
    (∃ t, acquire ⟨0⟩ ⟨0⟩ (State.offered (Site.frame g 5).copy) = .ok () t ∧
      (t.site ⟨0⟩).satisfies g ((Site.frame g 5).mask g) = true) ∧
    ∃ t, acquire ⟨0⟩ ⟨0⟩ (State.offered (Site.ofRegister X64.rcx).copy) = .ok () t ∧
      (t.site ⟨0⟩).satisfies g ((Site.ofRegister X64.rcx).mask g) = true := by
  intro g
  have reached : g.Reaches 5 := by decide
  have small : X64.rcx < 64 := by decide
  have named : (SiteMask.slot 5).slots.Reached g := fun i same => by
    cases same
    exact reached
  obtain ⟨inter, -, any, register, slot, acquired⟩ := masksAreExact g
  have first : Succeeds (acquire ⟨0⟩ ⟨0⟩) (State.offered (Site.frame g 5).copy) := by decide
  have second : Succeeds (acquire ⟨0⟩ ⟨0⟩) (State.offered (Site.ofRegister X64.rcx).copy) := by decide
  obtain ⟨⟨⟩, t, ok⟩ := first
  obtain ⟨⟨⟩, u, ok'⟩ := second
  exact ⟨inter _ _ named named _, (any _ (by decide)).1, register _ _ small _, slot _ reached _,
    ⟨t, ok, (acquired _ (.slot reached) (State.offered (Site.frame g 5).copy) t _ _ rfl rfl ok).2⟩,
    ⟨u, ok', (acquired _ (.register _ small) (State.offered (Site.ofRegister X64.rcx).copy) u _ _ rfl rfl ok').2⟩⟩

end Lowering
