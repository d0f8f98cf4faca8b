import Lowering.Proofs.Tables
import Mathlib.Data.Nat.Count
/-!
The count of free registers.

A general register leaves the count when it is first referred to and when it is first frozen, and comes back with the
last reference and with the last freeze. One that is held both ways is missing twice. So the registers that are really
free are never fewer than the count says.
-/
namespace Lowering.ResourceTable

inductive Hold where
  | reference
  | freeze
  deriving DecidableEq, Repr

def Hold.uses : Hold → Resource → Nat
  | .reference, r => r.references
  | .freeze, r => r.freezes

inductive Touch where
  | take (k : Hold) (id : ResourceId)
  | giveBack (k : Hold) (id : ResourceId)
  deriving DecidableEq, Repr

namespace Touch

def id : Touch → ResourceId
  | .take _ id => id
  | .giveBack _ id => id

def hold : Touch → Hold
  | .take k _ => k
  | .giveBack k _ => k

def adjust : Touch → Nat → Nat
  | .take _ _, n => n + 1
  | .giveBack _ _, n => n - 1

end Touch

def touch (t : ResourceTable) : Touch → ResourceTable
  | .take .reference id => t.refer id
  | .take .freeze id => t.freeze id
  | .giveBack .reference id => t.unrefer id
  | .giveBack .freeze id => t.thaw id

/-- The table after a list of calls, the latest of which comes first. -/
def touched (t : ResourceTable) : List Touch → ResourceTable
  | [] => t
  | c :: earlier => (t.touched earlier).touch c

def Counts (t : ResourceTable) (id : ResourceId) : Prop :=
  t.Has id ∧ t.isGeneral id = true ∧ (t.get id).reserved = false

instance (t : ResourceTable) (id : ResourceId) : Decidable (t.Counts id) :=
  inferInstanceAs (Decidable (_ ∧ _ ∧ _))

def counted (t : ResourceTable) : Finset Register := {r ∈ Finset.range t.registers.length | t.Counts (.register r)}

def held (t : ResourceTable) (k : Hold) : Finset Register := {r ∈ t.counted | 0 < k.uses (t.get (.register r))}

/-- Calls that a table can take, the latest first. What is given back was taken before and not yet given back, and a
register leaves the count only while the count is not at zero. -/
inductive Sound (start : ResourceTable) : List Touch → Prop
  | nil : Sound start []
  | take {earlier : List Touch} (sound : Sound start earlier) (k : Hold) (id : ResourceId) (inside : start.Has id)
      (enough : start.Counts id → k.uses ((start.touched earlier).get id) = 0 → 0 < (start.touched earlier).available) :
      Sound start (.take k id :: earlier)
  | giveBack {earlier : List Touch} (sound : Sound start earlier) (k : Hold) (id : ResourceId) (inside : start.Has id)
      (taken : earlier.count (.giveBack k id) < earlier.count (.take k id)) : Sound start (.giveBack k id :: earlier)

variable {start t u : ResourceTable} {id : ResourceId} {k : Hold} {c : Touch} {touches : List Touch} {r : Register}

theorem memCounted : r ∈ t.counted ↔ t.Counts (.register r) := by
  rw [counted, Finset.mem_filter, Finset.mem_range]
  exact ⟨fun h => h.2, fun h => ⟨h.1, h⟩⟩

theorem memHeld : r ∈ t.held k ↔ t.Counts (.register r) ∧ 0 < k.uses (t.get (.register r)) := by
  rw [held, Finset.mem_filter, memCounted]

theorem registerOfCounts (counts : t.Counts id) : ∃ r, id = .register r := by
  cases id with
  | register r => exact ⟨r, rfl⟩
  | slot i => cases counts.2.1

/-! What one call does. -/

theorem Adjusts.general {t' : ResourceTable} {f : Resource → Resource} (h : Adjusts t id f t') :
    t'.general = t.general := by
  cases reserved : (t.get id).reserved with
  | true => rw [h.reserved reserved]
  | false =>
    obtain ⟨n, rfl⟩ := h.free reserved
    cases id <;> rfl

theorem touchAdjusts (t : ResourceTable) (c : Touch) : ∃ f, Adjusts t c.id f (t.touch c) ∧
    (∀ r, (f r).reserved = r.reserved) ∧
      ∀ k r, k.uses (f r) = if k = c.hold then c.adjust (k.uses r) else k.uses r := by
  cases c with
  | take k id =>
    cases k with
    | reference => exact ⟨_, referAdjusts t id, fun _ => rfl, by rintro (_ | _) r <;> rfl⟩
    | freeze => exact ⟨_, freezeAdjusts t id, fun _ => rfl, by rintro (_ | _) r <;> rfl⟩
  | giveBack k id =>
    cases k with
    | reference => exact ⟨_, unreferAdjusts t id, fun _ => rfl, by rintro (_ | _) r <;> rfl⟩
    | freeze => exact ⟨_, thawAdjusts t id, fun _ => rfl, by rintro (_ | _) r <;> rfl⟩

theorem countsTouch : (t.touch c).Counts id ↔ t.Counts id := by
  obtain ⟨f, adjusts, keeps, -⟩ := touchAdjusts t c
  have general : (t.touch c).isGeneral id = t.isGeneral id := by cases id <;> simp [isGeneral, adjusts.general]
  rw [Counts, Counts, adjusts.shape.has, general, adjusts.same (·.reserved) keeps]

theorem countedTouch : (t.touch c).counted = t.counted := by
  ext r
  rw [memCounted, memCounted, countsTouch]

theorem usesTouch (t : ResourceTable) (c : Touch) (k : Hold) (id : ResourceId) :
    k.uses ((t.touch c).get id) =
      if id = c.id ∧ k = c.hold ∧ t.Has c.id ∧ (t.get c.id).reserved = false then c.adjust (k.uses (t.get id))
      else k.uses (t.get id) := by
  obtain ⟨f, adjusts, -, uses⟩ := touchAdjusts t c
  rw [adjusts.get]
  by_cases same : id = c.id
  · subst same
    by_cases here : t.Has c.id ∧ (t.get c.id).reserved = false
    · simp only [here, and_self, if_true, uses, true_and, and_true]
    · simp only [here, and_false, if_false]
  · simp [same]

theorem availableModify (t : ResourceTable) (id : ResourceId) (f : Resource → Resource) :
    (t.modify id f).available = t.available := by
  cases id <;> rfl

theorem availableTake (inside : t.Has id) : (t.touch (.take k id)).available =
    if t.Counts id ∧ k.uses (t.get id) = 0 then t.available - 1 else t.available := by
  cases reserved : (t.get id).reserved with
  | true => cases k <;> simp [touch, refer, freeze, Counts, reserved]
  | false =>
    by_cases none : k.uses (t.get id) = 0
    all_goals
      cases general : t.isGeneral id <;> cases k <;>
        simp_all [touch, refer, freeze, Counts, Hold.uses, availableModify]

theorem availableGiveBack (inside : t.Has id) : (t.touch (.giveBack k id)).available =
    if t.Counts id ∧ k.uses (t.get id) - 1 = 0 then t.available + 1 else t.available := by
  cases reserved : (t.get id).reserved with
  | true => cases k <;> simp [touch, unrefer, thaw, Counts, reserved]
  | false =>
    by_cases last : k.uses (t.get id) - 1 = 0
    all_goals
      cases general : t.isGeneral id <;> cases k <;>
        simp_all [touch, unrefer, thaw, Counts, Hold.uses, availableModify]

theorem heldTouch (apart : t.Counts c.id → k ≠ c.hold) : (t.touch c).held k = t.held k := by
  ext r
  rw [memHeld, memHeld, countsTouch]
  refine and_congr_right fun counts => ?_
  rw [usesTouch, if_neg]
  rintro ⟨same, kind, -⟩
  exact apart (same ▸ counts) kind

theorem usesHere (inside : t.Has c.id) (free : (t.get c.id).reserved = false) :
    c.hold.uses ((t.touch c).get c.id) = c.adjust (c.hold.uses (t.get c.id)) := by
  rw [usesTouch, if_pos ⟨rfl, rfl, inside, free⟩]

theorem usesElsewhere (apart : id ≠ c.id) : k.uses ((t.touch c).get id) = k.uses (t.get id) := by
  rw [usesTouch, if_neg fun h => apart h.1]

theorem heldTake (counts : t.Counts (.register r)) :
    (t.touch (.take k (.register r))).held k = insert r (t.held k) := by
  ext n
  rw [memHeld, countsTouch, Finset.mem_insert, memHeld]
  by_cases same : n = r
  · subst same
    have more := usesHere (c := .take k (.register n)) counts.1 counts.2.2
    simp only [Touch.id, Touch.hold, Touch.adjust] at more
    simp [counts, more]
  · rw [usesElsewhere (by simpa [Touch.id] using same)]
    simp [same]

theorem heldGiveBack (counts : t.Counts (.register r)) :
    (t.touch (.giveBack k (.register r))).held k =
      if k.uses (t.get (.register r)) - 1 = 0 then (t.held k).erase r else t.held k := by
  ext n
  rw [memHeld, countsTouch]
  by_cases same : n = r
  · subst same
    have less := usesHere (c := .giveBack k (.register n)) counts.1 counts.2.2
    simp only [Touch.id, Touch.hold, Touch.adjust] at less
    rw [less]
    split
    · rename_i last
      simp [last]
    · rename_i more
      rw [memHeld]
      exact and_congr_right fun _ => by omega
  · rw [usesElsewhere (by simpa [Touch.id] using same)]
    split <;> simp [same, memHeld]

/-! Balance. -/

/-- The count is short of all by the registers that are held, each as often as there are ways in which it is held. -/
def Balanced (t : ResourceTable) : Prop :=
  t.available + (t.held .freeze).card + (t.held .reference).card = t.counted.card

theorem takeTrades (inside : t.Has id) (enough : t.Counts id → k.uses (t.get id) = 0 → 0 < t.available) :
    (t.touch (.take k id)).available + ((t.touch (.take k id)).held k).card = t.available + (t.held k).card := by
  rw [availableTake inside]
  by_cases counts : t.Counts id
  · obtain ⟨r, rfl⟩ := registerOfCounts counts
    rw [heldTake counts]
    by_cases first : k.uses (t.get (.register r)) = 0
    · have fresh : r ∉ t.held k := by simp [memHeld, first]
      have some := enough counts first
      rw [if_pos ⟨counts, first⟩, Finset.card_insert_of_notMem fresh]
      omega
    · have there : r ∈ t.held k := memHeld.mpr ⟨counts, by omega⟩
      rw [if_neg fun h => first h.2, Finset.insert_eq_of_mem there]
  · rw [if_neg fun h => counts h.1, heldTouch fun h => absurd h counts]

theorem giveBackTrades (inside : t.Has id) (taken : t.Counts id → 0 < k.uses (t.get id)) :
    (t.touch (.giveBack k id)).available + ((t.touch (.giveBack k id)).held k).card = t.available + (t.held k).card := by
  rw [availableGiveBack inside]
  by_cases counts : t.Counts id
  · obtain ⟨r, rfl⟩ := registerOfCounts counts
    have there : r ∈ t.held k := memHeld.mpr ⟨counts, taken counts⟩
    rw [heldGiveBack counts]
    by_cases last : k.uses (t.get (.register r)) - 1 = 0
    · have gone := Finset.card_erase_add_one there
      rw [if_pos ⟨counts, last⟩, if_pos last]
      omega
    · rw [if_neg fun h => last h.2, if_neg last]
  · rw [if_neg fun h => counts h.1, heldTouch fun h => absurd h counts]

theorem Balanced.touch (balanced : t.Balanced)
    (trades : (t.touch c).available + ((t.touch c).held c.hold).card = t.available + (t.held c.hold).card) :
    (t.touch c).Balanced := by
  unfold Balanced at *
  rw [countedTouch, ← balanced]
  cases kind : c.hold with
  | reference =>
    rw [kind] at trades
    rw [heldTouch (k := .freeze) fun _ => by simp [kind]]
    omega
  | freeze =>
    rw [kind] at trades
    rw [heldTouch (k := .reference) fun _ => by simp [kind]]
    omega

/-! Runs. -/

theorem hasTouched (touches : List Touch) : (start.touched touches).Has id ↔ start.Has id := by
  induction touches with
  | nil => rfl
  | cons c earlier ih =>
    obtain ⟨f, adjusts, -⟩ := touchAdjusts (start.touched earlier) c
    exact (adjusts.shape.has id).trans ih

theorem reservedTouched (touches : List Touch) :
    ((start.touched touches).get id).reserved = (start.get id).reserved := by
  induction touches with
  | nil => rfl
  | cons c earlier ih =>
    obtain ⟨f, adjusts, keeps, -⟩ := touchAdjusts (start.touched earlier) c
    exact (adjusts.same (·.reserved) keeps id).trans ih

theorem countsTouched (touches : List Touch) : (start.touched touches).Counts id ↔ start.Counts id := by
  induction touches with
  | nil => rfl
  | cons c earlier ih => exact countsTouch.trans ih

theorem countedTouched (touches : List Touch) : (start.touched touches).counted = start.counted := by
  ext r
  rw [memCounted, memCounted, countsTouched]

structure Fresh (t : ResourceTable) : Prop where
  unused : ∀ (k : Hold) (id : ResourceId), k.uses (t.get id) = 0
  available : t.available = t.counted.card

theorem Fresh.heldNone (fresh : Fresh t) (k : Hold) : t.held k = ∅ := by
  refine Finset.eq_empty_of_forall_notMem fun r inside => ?_
  exact (memHeld.mp inside).2.ne' (fresh.unused k _)

theorem Sound.uses (sound : start.Sound touches) (fresh : start.Fresh) (k : Hold) (inside : start.Has id)
    (free : (start.get id).reserved = false) :
    k.uses ((start.touched touches).get id) + touches.count (.giveBack k id) = touches.count (.take k id) := by
  induction sound with
  | nil => exact fresh.unused k id
  | @take earlier sound j here inside' enough ih =>
    rw [List.count_cons_of_ne (by simp), touched]
    by_cases same : j = k ∧ here = id
    · obtain ⟨rfl, rfl⟩ := same
      have more := usesHere (c := .take j here) ((hasTouched earlier).mpr inside) ((reservedTouched earlier).trans free)
      simp only [Touch.id, Touch.hold, Touch.adjust] at more
      rw [more, List.count_cons_self]
      omega
    · rw [List.count_cons_of_ne (by simpa using same), usesTouch, if_neg fun h => same ⟨h.2.1.symm, h.1.symm⟩]
      exact ih
  | @giveBack earlier sound j here inside' taken ih =>
    rw [List.count_cons_of_ne (by simp) (l := earlier) (a := .take k id), touched]
    by_cases same : j = k ∧ here = id
    · obtain ⟨rfl, rfl⟩ := same
      have less := usesHere (c := .giveBack j here) ((hasTouched earlier).mpr inside) ((reservedTouched earlier).trans free)
      simp only [Touch.id, Touch.hold, Touch.adjust] at less
      rw [less, List.count_cons_self]
      omega
    · rw [List.count_cons_of_ne (by simpa using same), usesTouch, if_neg fun h => same ⟨h.2.1.symm, h.1.symm⟩]
      exact ih

theorem Sound.balanced (sound : start.Sound touches) (fresh : start.Fresh) : (start.touched touches).Balanced := by
  induction sound with
  | nil => simp [touched, Balanced, fresh.heldNone, fresh.available]
  | take sound k id inside enough ih =>
    refine ih.touch (takeTrades ((hasTouched _).mpr inside) fun counts => enough ((countsTouched _).mp counts))
  | @giveBack earlier sound k id inside taken ih =>
    refine ih.touch (giveBackTrades ((hasTouched _).mpr inside) fun counts => ?_)
    have := sound.uses fresh k inside ((reservedTouched _).symm.trans counts.2.2)
    omega

/-! What the count does not depend on. -/

structure Alike (t u : ResourceTable) : Prop where
  available : u.available = t.available
  counts : ∀ id, u.Counts id ↔ t.Counts id
  uses : ∀ (k : Hold) (id : ResourceId), t.Counts id → k.uses (u.get id) = k.uses (t.get id)

theorem Alike.touch (alike : Alike t u) (counts : t.Counts c.id) : Alike (t.touch c) (u.touch c) where
  available := by
    have counts' := (alike.counts c.id).mpr counts
    cases c with
    | take k id =>
      change t.Counts id at counts
      change u.Counts id at counts'
      rw [availableTake counts.1, availableTake counts'.1]
      simp only [alike.counts, alike.available, alike.uses k id counts]
    | giveBack k id =>
      change t.Counts id at counts
      change u.Counts id at counts'
      rw [availableGiveBack counts.1, availableGiveBack counts'.1]
      simp only [alike.counts, alike.available, alike.uses k id counts]
  counts id := countsTouch.trans ((alike.counts id).trans countsTouch.symm)
  uses k id counts := by
    have counts := countsTouch.mp counts
    have counts' := (alike.counts id).mpr counts
    rw [usesTouch, usesTouch, alike.uses k id counts]
    by_cases same : id = c.id
    · subst same
      simp only [counts.1, counts.2.2, counts'.1, counts'.2.2]
    · rw [if_neg fun h => same h.1, if_neg fun h => same h.1]

theorem Alike.skip (alike : Alike t u) (inside : t.Has c.id) (other : ¬ t.Counts c.id) : Alike (t.touch c) u where
  available := by
    rw [alike.available]
    cases c with
    | take k id => exact ((availableTake inside).trans (if_neg fun h => other h.1)).symm
    | giveBack k id => exact ((availableGiveBack inside).trans (if_neg fun h => other h.1)).symm
  counts id := (alike.counts id).trans countsTouch.symm
  uses k id counts := by
    have counts := countsTouch.mp counts
    rw [alike.uses k id counts, usesElsewhere]
    rintro rfl
    exact other counts

theorem alikeFiltered (inside : ∀ c ∈ touches, start.Has c.id) :
    Alike (start.touched touches) (start.touched (touches.filter fun c => start.Counts c.id)) := by
  induction touches with
  | nil => exact ⟨rfl, fun _ => Iff.rfl, fun _ _ _ => rfl⟩
  | cons c earlier ih =>
    have alike := ih fun c later => inside c (List.mem_cons_of_mem _ later)
    by_cases counts : start.Counts c.id
    · rw [List.filter_cons_of_pos (by simpa using counts)]
      exact alike.touch ((countsTouched earlier).mpr counts)
    · rw [List.filter_cons_of_neg (by simpa using counts)]
      exact alike.skip ((hasTouched earlier).mpr (inside c List.mem_cons_self)) fun h => counts ((countsTouched earlier).mp h)

theorem Sound.inside (sound : start.Sound touches) : ∀ c ∈ touches, start.Has c.id := by
  induction sound with
  | nil => simp
  | take sound k id inside enough ih => exact List.forall_mem_cons.mpr ⟨inside, ih⟩
  | giveBack sound k id inside taken ih => exact List.forall_mem_cons.mpr ⟨inside, ih⟩

/-! Tables that were just made. -/

variable {count slots : Nat} {general : RegisterSet} {reserved : Register → Bool} {unused : List Nat}

theorem usesGetD {resources : List Resource} (unused : ∀ r ∈ resources, k.uses r = 0) (i : Nat) :
    k.uses (resources.getD i default) = 0 := by
  rw [List.getD_eq_getElem?_getD]
  cases here : resources[i]? with
  | none => cases k <;> rfl
  | some r => exact unused r (List.mem_of_getElem? here)

theorem countedMade : ((ofRegisters count general reserved).setFrame slots unused).counted =
    {r ∈ Finset.range (count % 256) | RegisterSet.has general r = true ∧ reserved r = false} := by
  ext r
  have size : (registerNumbers count).length = count % 256 := by simp [registerNumbers]
  simp only [memCounted, Finset.mem_filter, Finset.mem_range, Counts, Has, isGeneral, setFrame, ofRegisters, get,
    List.length_map, size]
  refine and_congr_right fun inside => and_congr_right fun _ => ?_
  simp [registerNumbers, inside]

theorem freshMade : Fresh ((ofRegisters count general reserved).setFrame slots unused) where
  unused k id := by
    cases id with
    | register r => exact usesGetD (by cases k <;> simp [setFrame, ofRegisters, Hold.uses]) r
    | slot i => exact usesGetD (by cases k <;> simp [setFrame, ofRegisters, Hold.uses]) i
  available := by
    rw [countedMade, ← Nat.count_eq_card_filter_range, Nat.count]
    exact List.countP_congr fun r _ => by simp [and_comm]

theorem heldReleased (released : t.isReleased = true) (k : Hold) : t.held k = ∅ := by
  refine Finset.eq_empty_of_forall_notMem fun r inside => ?_
  obtain ⟨counts, used⟩ := memHeld.mp inside
  obtain ⟨below, -, free⟩ := counts
  have free := free
  change r < t.registers.length at below
  simp only [isReleased, Bool.and_eq_true, List.all_eq_true] at released
  have here : t.get (.register r) = t.registers[r] := by simp [get, below]
  have unused := released.1 _ (List.getElem_mem below)
  rw [here] at free used
  cases k <;> simp_all [Resource.isReleased, Hold.uses]

theorem freeRegistersAreCounted (count : Nat) (general : RegisterSet) (reserved : Register → Bool) (slots : Nat)
    (unused : List Nat) (touches : List Touch) :
    let start := (ofRegisters count general reserved).setFrame slots unused
    let t := start.touched touches
    start.Sound touches →
      t.counted = {r ∈ Finset.range (count % 256) | RegisterSet.has general r = true ∧ reserved r = false} ∧
      t.available + (t.held .freeze).card + (t.held .reference).card = t.counted.card ∧
      t.available ≤ (t.counted \ (t.held .freeze ∪ t.held .reference)).card ∧
      (t.isReleased = true → t.available = start.available) ∧
      t.available = (start.touched (touches.filter fun c => start.Counts c.id)).available := by
  intro start t sound
  have balanced : t.Balanced := sound.balanced freshMade
  refine ⟨(countedTouched touches).trans countedMade, balanced, ?_, fun released => ?_, ?_⟩
  · have union := Finset.card_union_le (t.held .freeze) (t.held .reference)
    have rest := Finset.le_card_sdiff (t.held .freeze ∪ t.held .reference) t.counted
    unfold Balanced at balanced
    omega
  · rw [Balanced, heldReleased released, heldReleased released, countedTouched] at balanced
    exact balanced.trans freshMade.available.symm
  · exact (alikeFiltered sound.inside).available.symm

/-- Four general registers, of which one is reserved, two others, and a frame of which half is used. -/
def small : ResourceTable := (ofRegisters 6 15#64 (· == 3)).setFrame 4 [2, 3]

/-- In the end the first register is held in both ways, and so are some resources that are not counted. -/
def holding : List Touch :=
  [.giveBack .reference (.register 1), .take .reference (.register 1), .take .freeze (.slot 1), .take .freeze (.register 4),
    .take .reference (.register 3), .giveBack .freeze (.register 0), .take .reference (.register 0),
    .take .freeze (.register 0), .take .freeze (.register 0)]

theorem bothWaysAreCountedTwice : small.Sound holding ∧ (small.touched holding).available = 1 ∧
    small.available = 3 ∧ (small.touched holding).available ≤
      ((small.touched holding).counted \ ((small.touched holding).held .freeze ∪ (small.touched holding).held .reference)).card ∧
    (small.touched holding).available = (small.touched (holding.filter fun c => small.Counts c.id)).available := by
  have sound : small.Sound holding := by
    unfold holding
    repeat' first
      | exact .nil
      | refine .take ?_ _ _ (by decide) (by decide)
      | refine .giveBack ?_ _ _ (by decide) (by decide)
  obtain ⟨-, -, least, -, only⟩ := freeRegistersAreCounted 6 15#64 (· == 3) 4 [2, 3] holding sound
  exact ⟨sound, by decide, by decide, least, only⟩

end Lowering.ResourceTable
