import Lowering.Site
/-!
Masks ordered by the sites they admit. A mask that was narrowed admits nothing that the wider one
does not.
-/
namespace Lowering

theorem KindSet.hasInter (a b : KindSet) (k : OperandKind) :
    KindSet.has (a &&& b) k = (KindSet.has a k && KindSet.has b k) := by
  simp [KindSet.has]

theorem RegisterSet.hasInter (a b : RegisterSet) (r : Register) :
    RegisterSet.has (a &&& b) r = (RegisterSet.has a r && RegisterSet.has b r) := by
  simp [RegisterSet.has]

theorem RegisterSet.hasSingle {r n : Register} (h : RegisterSet.has (RegisterSet.single r) n = true) :
    n = r := by
  simp only [RegisterSet.has, RegisterSet.single, BitVec.getLsbD_twoPow, Bool.and_eq_true,
    decide_eq_true_eq] at h
  exact h.2.symm

namespace SiteMask

def Within (a b : SiteMask) : Prop :=
  ∀ (g : FrameGeometry) (x : Site), x.satisfies g a = true → x.satisfies g b = true

theorem Within.refl (a : SiteMask) : Within a a := fun _ _ h => h

theorem Within.trans {a b c : SiteMask} (first : Within a b) (second : Within b c) : Within a c :=
  fun g x h => second g x (first g x h)

theorem slotsInter (g : FrameGeometry) (ref : MemoryRef) (acquired : Bool) (a b : SlotMask)
    (h : (Site.memory ref acquired).satisfies g ⟨KindSet.all, 0#64, a.inter b⟩ = true) :
    (Site.memory ref acquired).satisfies g ⟨KindSet.all, 0#64, a⟩ = true ∧
      (Site.memory ref acquired).satisfies g ⟨KindSet.all, 0#64, b⟩ = true := by
  cases a with
  | any => cases b <;> simp_all [SlotMask.inter, Site.satisfies, accepts]
  | none => cases b <;> simp_all [SlotMask.inter, Site.satisfies, accepts]
  | only i =>
    cases b with
    | any => simp_all [SlotMask.inter, Site.satisfies, accepts]
    | none => simp_all [SlotMask.inter, Site.satisfies, accepts]
    | only j =>
      by_cases same : i = j
      · subst same
        simp_all [SlotMask.inter, Site.satisfies, accepts]
      · simp [SlotMask.inter, same, Site.satisfies, accepts] at h

theorem satisfiesInter {g : FrameGeometry} {x : Site} {a b : SiteMask}
    (h : x.satisfies g (a.inter b) = true) : x.satisfies g a = true ∧ x.satisfies g b = true := by
  cases x with
  | constant p => simpa [Site.satisfies, accepts, inter, KindSet.hasInter] using h
  | address p => simpa [Site.satisfies, accepts, inter, KindSet.hasInter] using h
  | register mask number =>
    cases number with
    | none => simp [Site.satisfies] at h
    | some n =>
      simp only [Site.satisfies, accepts, inter, KindSet.hasInter, RegisterSet.hasInter,
        Bool.and_eq_true] at h ⊢
      exact ⟨⟨h.1.1, h.2.1⟩, h.1.2, h.2.2⟩
  | memory m acquired =>
    simp only [Site.satisfies, accepts, inter, KindSet.hasInter, Bool.and_eq_true] at h ⊢
    have every : KindSet.has KindSet.all .memory = true := by decide
    have slots := slotsInter g m acquired a.slots b.slots
      (by simpa only [Site.satisfies, accepts, every, Bool.true_and] using h.2)
    simp only [Site.satisfies, accepts, every, Bool.true_and] at slots
    exact ⟨⟨h.1.1, slots.1⟩, h.1.2, slots.2⟩

theorem interWithinLeft (a b : SiteMask) : Within (a.inter b) a :=
  fun _ _ h => (satisfiesInter h).1

theorem interWithinRight (a b : SiteMask) : Within (a.inter b) b :=
  fun _ _ h => (satisfiesInter h).2

theorem registersWithin (m : SiteMask) (rs : RegisterSet) :
    Within { m with registers := m.registers &&& rs } m := by
  intro g x h
  cases x with
  | register mask number =>
    cases number with
    | none => simp [Site.satisfies] at h
    | some n =>
      simp only [Site.satisfies, accepts, RegisterSet.hasInter, Bool.and_eq_true] at h ⊢
      exact ⟨h.1, h.2.1⟩
  | constant p => exact h
  | address p => exact h
  | memory ref acquired => exact h

end SiteMask

end Lowering
