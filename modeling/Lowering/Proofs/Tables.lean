import Lowering.Occupancy
/-!
Reading the tables of a state after an update. A handle outside its table reads as a default and
an update through it changes nothing, so every statement says which handles are known.
-/
namespace Lowering

namespace ResourceTable

def Has (t : ResourceTable) : ResourceId → Prop
  | .register r => r < t.registers.length
  | .slot i => i < t.slots.length

instance (t : ResourceTable) (id : ResourceId) : Decidable (t.Has id) := by
  cases id <;> unfold Has <;> infer_instance

theorem getOutside {t : ResourceTable} {id : ResourceId} (outside : ¬ t.Has id) :
    t.get id = {} := by
  cases id with
  | register r => simp only [Has, Nat.not_lt] at outside; simp [get, outside]; rfl
  | slot i => simp only [Has, Nat.not_lt] at outside; simp [get, outside]; rfl

theorem hasOfOwner {t : ResourceTable} {id : ResourceId} {o : Owner}
    (owner : (t.get id).owner = some o) : t.Has id := by
  by_cases h : t.Has id
  · exact h
  · simp [getOutside h] at owner

theorem getModify (t : ResourceTable) (id other : ResourceId) (f : Resource → Resource) :
    (t.modify id f).get other = if other = id ∧ t.Has id then f (t.get id) else t.get other := by
  cases id with
  | register r =>
    cases other with
    | register r' =>
      by_cases same : r' = r
      · subst r'
        by_cases known : r < t.registers.length
        · simp [modify, get, Has, known]
        · simp [modify, get, Has, known]
      · simp [modify, get, same, Ne.symm same]
    | slot i => simp [modify, get]
  | slot i =>
    cases other with
    | register r => simp [modify, get]
    | slot i' =>
      by_cases same : i' = i
      · subst i'
        by_cases known : i < t.slots.length
        · simp [modify, get, Has, known]
        · simp [modify, get, Has, known]
      · simp [modify, get, same, Ne.symm same]

@[simp] theorem hasModify (t : ResourceTable) (id other : ResourceId) (f : Resource → Resource) :
    (t.modify id f).Has other ↔ t.Has other := by
  cases id <;> cases other <;> simp [modify, Has]

@[simp] theorem hasAvailable (t : ResourceTable) (n : Nat) (id : ResourceId) :
    { t with available := n }.Has id ↔ t.Has id := by
  cases id <;> simp [Has]

@[simp] theorem getAvailable (t : ResourceTable) (n : Nat) (id : ResourceId) :
    { t with available := n }.get id = t.get id := by
  cases id <;> rfl

theorem getSetOwner (t : ResourceTable) (id other : ResourceId) (owner : Option Owner) :
    (t.setOwner id owner).get other =
      if other = id ∧ t.Has id then { t.get id with owner } else t.get other :=
  getModify t id other _

structure SameShape (t t' : ResourceTable) : Prop where
  registers : t'.registers.length = t.registers.length
  slots : t'.slots.length = t.slots.length

namespace SameShape

theorem refl (t : ResourceTable) : SameShape t t := ⟨rfl, rfl⟩

theorem trans {t t' t'' : ResourceTable} (first : SameShape t t') (second : SameShape t' t'') :
    SameShape t t'' :=
  ⟨second.registers.trans first.registers, second.slots.trans first.slots⟩

theorem has {t t' : ResourceTable} (same : SameShape t t') (id : ResourceId) :
    t'.Has id ↔ t.Has id := by
  cases id with
  | register r => simp [Has, same.registers]
  | slot i => simp [Has, same.slots]

theorem modify (t : ResourceTable) (id : ResourceId) (f : Resource → Resource) :
    SameShape t (t.modify id f) := by
  cases id <;> exact ⟨by simp [ResourceTable.modify], by simp [ResourceTable.modify]⟩

end SameShape

/- Referring to a resource, freezing it and their opposites change that resource alone, and only
if it is not reserved. -/
structure Adjusts (t : ResourceTable) (id : ResourceId) (f : Resource → Resource)
    (t' : ResourceTable) : Prop where
  reserved : (t.get id).reserved = true → t' = t
  free : (t.get id).reserved = false → ∃ n, t' = { t.modify id f with available := n }

namespace Adjusts

variable {t t' : ResourceTable} {id : ResourceId} {f : Resource → Resource}

theorem shape (h : Adjusts t id f t') : SameShape t t' := by
  cases reserved : (t.get id).reserved with
  | true => rw [h.reserved reserved]; exact .refl t
  | false =>
    obtain ⟨n, rfl⟩ := h.free reserved
    exact ⟨(SameShape.modify t id f).registers, (SameShape.modify t id f).slots⟩

theorem get (h : Adjusts t id f t') (other : ResourceId) :
    t'.get other = if other = id ∧ t.Has id ∧ (t.get id).reserved = false then f (t.get id)
      else t.get other := by
  cases reserved : (t.get id).reserved with
  | true => rw [h.reserved reserved]; simp
  | false =>
    obtain ⟨n, rfl⟩ := h.free reserved
    simp [getModify]

theorem same {β : Type} (h : Adjusts t id f t') (part : Resource → β)
    (keeps : ∀ r, part (f r) = part r) (other : ResourceId) :
    part (t'.get other) = part (t.get other) := by
  rw [h.get]
  split
  · rename_i here
    rw [keeps, here.1]
  · rfl

end Adjusts

theorem referAdjusts (t : ResourceTable) (id : ResourceId) :
    Adjusts t id (fun r => { r with references := r.references + 1 }) (t.refer id) := by
  constructor
  · intro reserved
    simp [refer, reserved]
  · intro free
    simp only [refer, free, Bool.false_eq_true, if_false]
    split
    · exact ⟨_, rfl⟩
    · exact ⟨(t.modify id _).available, rfl⟩

theorem unreferAdjusts (t : ResourceTable) (id : ResourceId) :
    Adjusts t id (fun r => { r with references := r.references - 1 }) (t.unrefer id) := by
  constructor
  · intro reserved
    simp [unrefer, reserved]
  · intro free
    simp only [unrefer, free, Bool.false_eq_true, if_false]
    split
    · exact ⟨_, rfl⟩
    · exact ⟨(t.modify id _).available, rfl⟩

theorem freezeAdjusts (t : ResourceTable) (id : ResourceId) :
    Adjusts t id (fun r => { r with freezes := r.freezes + 1 }) (t.freeze id) := by
  constructor
  · intro reserved
    simp [freeze, reserved]
  · intro free
    simp only [freeze, free, Bool.false_eq_true, if_false]
    split
    · exact ⟨_, rfl⟩
    · exact ⟨(t.modify id _).available, rfl⟩

theorem thawAdjusts (t : ResourceTable) (id : ResourceId) :
    Adjusts t id (fun r => { r with freezes := r.freezes - 1 }) (t.thaw id) := by
  constructor
  · intro reserved
    simp [thaw, reserved]
  · intro free
    simp only [thaw, free, Bool.false_eq_true, if_false]
    split
    · exact ⟨_, rfl⟩
    · exact ⟨(t.modify id _).available, rfl⟩

structure Steady (t t' : ResourceTable) : Prop where
  shape : SameShape t t'
  reserved : ∀ id, (t'.get id).reserved = (t.get id).reserved
  freezes : ∀ id, (t'.get id).freezes = (t.get id).freezes

namespace Steady

variable {t t' t'' : ResourceTable}

theorem refl (t : ResourceTable) : Steady t t := ⟨.refl t, fun _ => rfl, fun _ => rfl⟩

theorem trans (first : Steady t t') (second : Steady t' t'') : Steady t t'' :=
  ⟨first.shape.trans second.shape, fun id => (second.reserved id).trans (first.reserved id),
    fun id => (second.freezes id).trans (first.freezes id)⟩

theorem setOwner (t : ResourceTable) (id : ResourceId) (owner : Option Owner) :
    Steady t (t.setOwner id owner) := by
  refine ⟨.modify t id _, fun other => ?_, fun other => ?_⟩
  · rw [getSetOwner]
    split
    · rename_i here
      rw [here.1]
    · rfl
  · rw [getSetOwner]
    split
    · rename_i here
      rw [here.1]
    · rfl

theorem refer (t : ResourceTable) (id : ResourceId) : Steady t (t.refer id) :=
  ⟨(referAdjusts t id).shape, (referAdjusts t id).same (·.reserved) fun _ => rfl,
    (referAdjusts t id).same (·.freezes) fun _ => rfl⟩

theorem unrefer (t : ResourceTable) (id : ResourceId) : Steady t (t.unrefer id) :=
  ⟨(unreferAdjusts t id).shape, (unreferAdjusts t id).same (·.reserved) fun _ => rfl,
    (unreferAdjusts t id).same (·.freezes) fun _ => rfl⟩

end Steady

def referAll (t : ResourceTable) (rs : List Register) : ResourceTable :=
  rs.foldl (fun t r => t.refer (.register r)) t

def unreferAll (t : ResourceTable) (rs : List Register) : ResourceTable :=
  rs.foldl (fun t r => t.unrefer (.register r)) t

theorem steadyReferAll (rs : List Register) (t : ResourceTable) : Steady t (t.referAll rs) := by
  induction rs generalizing t with
  | nil => exact .refl t
  | cons r rest ih => exact (Steady.refer t (.register r)).trans (ih _)

theorem steadyUnreferAll (rs : List Register) (t : ResourceTable) :
    Steady t (t.unreferAll rs) := by
  induction rs generalizing t with
  | nil => exact .refl t
  | cons r rest ih => exact (Steady.unrefer t (.register r)).trans (ih _)

theorem ownerReferAll (rs : List Register) (t : ResourceTable) (id : ResourceId) :
    ((t.referAll rs).get id).owner = (t.get id).owner := by
  induction rs generalizing t with
  | nil => rfl
  | cons r rest ih =>
    exact (ih _).trans ((referAdjusts t (.register r)).same (·.owner) (fun _ => rfl) id)

theorem ownerUnreferAll (rs : List Register) (t : ResourceTable) (id : ResourceId) :
    ((t.unreferAll rs).get id).owner = (t.get id).owner := by
  induction rs generalizing t with
  | nil => rfl
  | cons r rest ih =>
    exact (ih _).trans ((unreferAdjusts t (.register r)).same (·.owner) (fun _ => rfl) id)

theorem referencesReferAll (rs : List Register) (t : ResourceTable) {n : Register}
    (known : t.Has (.register n)) (free : (t.get (.register n)).reserved = false) :
    ((t.referAll rs).get (.register n)).references =
      (t.get (.register n)).references + rs.count n := by
  induction rs generalizing t with
  | nil => simp [referAll]
  | cons r rest ih =>
    have steady := Steady.refer t (.register r)
    have later := ih (t.refer (.register r)) ((steady.shape.has _).mpr known)
      ((steady.reserved _).trans free)
    have split : t.referAll (r :: rest) = (t.refer (.register r)).referAll rest := rfl
    rw [split, later, (referAdjusts t (.register r)).get, List.count_cons]
    by_cases same : r = n
    · subst same
      simp [known, free]
      omega
    · simp [same, Ne.symm same]

theorem referencesUnreferAll (rs : List Register) (t : ResourceTable) {n : Register}
    (known : t.Has (.register n)) (free : (t.get (.register n)).reserved = false) :
    ((t.unreferAll rs).get (.register n)).references =
      (t.get (.register n)).references - rs.count n := by
  induction rs generalizing t with
  | nil => simp [unreferAll]
  | cons r rest ih =>
    have steady := Steady.unrefer t (.register r)
    have later := ih (t.unrefer (.register r)) ((steady.shape.has _).mpr known)
      ((steady.reserved _).trans free)
    have split : t.unreferAll (r :: rest) = (t.unrefer (.register r)).unreferAll rest := rfl
    rw [split, later, (unreferAdjusts t (.register r)).get, List.count_cons]
    by_cases same : r = n
    · subst same
      simp [known, free]
      omega
    · simp [same, Ne.symm same]

end ResourceTable

namespace State

variable (s : State)

def IsValue (v : ValueId) : Prop := v.index < s.values.size

def IsSite (i : SiteId) : Prop := i.index < s.sites.size

instance (v : ValueId) : Decidable (s.IsValue v) := inferInstanceAs (Decidable (_ < _))

instance (i : SiteId) : Decidable (s.IsSite i) := inferInstanceAs (Decidable (_ < _))

theorem valueOutside {v : ValueId} (outside : ¬ s.IsValue v) : s.value v = default := by
  simp only [IsValue, Nat.not_lt] at outside
  simp [value, Array.getD, Nat.not_lt.mpr outside]

theorem isValueOfSites {v : ValueId} {i : SiteId} (listed : i ∈ (s.value v).sites) :
    s.IsValue v := by
  by_cases h : s.IsValue v
  · exact h
  · rw [valueOutside s h] at listed
    cases listed

theorem valueModify (v w : ValueId) (f : Value → Value) :
    (s.modifyValue v f).value w =
      if w = v ∧ s.IsValue v then f (s.value v) else s.value w := by
  by_cases same : w = v
  · subst w
    by_cases known : v.index < s.values.size
    · simp [value, modifyValue, IsValue, known, Array.getElem_modify]
    · simp [value, modifyValue, IsValue, known]
  · have apart : v.index ≠ w.index := fun h => same (by cases v; cases w; simp_all)
    simp [value, modifyValue, same, Array.getElem?_modify, apart]

theorem eventModify (s : State) (p e : EventId) (f : Event → Event) :
    (s.modifyEvent p f).event e = if e = p ∧ p.index < s.events.size then f (s.event p) else s.event e := by
  by_cases same : e = p
  · subst same
    by_cases inside : e.index < s.events.size
    · simp [event, modifyEvent, inside, Array.getElem_modify]
    · simp [event, modifyEvent, inside]
  · have apart : p.index ≠ e.index := fun h => same (by cases p; cases e; simp_all)
    simp [event, modifyEvent, same, Array.getElem?_modify, apart]

@[simp] theorem sizeModifyValue (v : ValueId) (f : Value → Value) :
    (s.modifyValue v f).values.size = s.values.size := by
  simp [modifyValue]

theorem siteSet (i j : SiteId) (x : Site) :
    (s.setSite i x).site j = if j = i ∧ s.IsSite i then x else s.site j := by
  by_cases same : j = i
  · subst j
    by_cases known : i.index < s.sites.size
    · simp [site, setSite, IsSite, known, Array.getElem_modify]
    · simp [site, setSite, IsSite, known]
  · have apart : i.index ≠ j.index := fun h => same (by cases i; cases j; simp_all)
    simp [site, setSite, same, Array.getElem?_modify, apart]

@[simp] theorem sizeSetSite (i : SiteId) (x : Site) :
    (s.setSite i x).sites.size = s.sites.size := by
  simp [setSite]

theorem siteNew (x : Site) (j : SiteId) :
    (s.newSite x).2.site j = if j = (s.newSite x).1 then x else s.site j := by
  by_cases same : j = (s.newSite x).1
  · subst same
    simp [site, newSite]
  · have apart : j.index ≠ s.sites.size := fun h => same (by cases j; simp_all [newSite])
    rw [if_neg same]
    simp [site, newSite, Array.getElem?_push, apart]

theorem siteNewSelf (x : Site) : (s.newSite x).2.site (s.newSite x).1 = x := by
  rw [siteNew, if_pos rfl]

theorem siteNewOld (x : Site) {j : SiteId} (known : s.IsSite j) :
    (s.newSite x).2.site j = s.site j := by
  have apart : j ≠ (s.newSite x).1 := by
    rintro rfl
    simp [IsSite, newSite] at known
  simp [siteNew, apart]

end State

end Lowering
