import Lowering.Proofs.Upkeep
/-!
Later states in which there may be more values.

A rearrangement creates sites but no values. Where values are created too, what is known about the
old ones carries over: their rings are the same, and so is whether they are live.
-/
namespace Lowering.State

open Function

variable {s s' t : State} {old : Nat} {kept h₀ h₁ : List SiteId} {v w : ValueId} {i : SiteId}
  {lent : List Register} {due : List Owner}

/-- The later state differs from the earlier one by where the values are, by values that are new
and by what is frozen. -/
structure Extends (s s' : State) : Prop where
  rest : s' = { s with
    values := s'.values
    sites := s'.sites
    reads := s'.reads
    resources := s'.resources
    statistics := s'.statistics
    emitter := s'.emitter }
  size : s.values.size ≤ s'.values.size
  value : ∀ v, s.IsValue v → (s'.value v).outline = (s.value v).outline
  sites : s.sites.size ≤ s'.sites.size
  place : ∀ i, s.IsSite i → (s'.site i).place = (s.site i).place
  reads : s.reads.Evolves s'.reads
  shape : s.resources.SameShape s'.resources
  reserved : ∀ id, (s'.resources.get id).reserved = (s.resources.get id).reserved

theorem Keeps.extends (h : Keeps s s') : Extends s s' :=
  ⟨h.rest, h.size.ge, fun v _ => h.value v, h.sites, h.place, h.reads, h.resources.shape,
    h.resources.reserved⟩

namespace Extends

theorem refl (s : State) : Extends s s := (Keeps.refl s).extends

theorem isValue (h : Extends s s') (known : s.IsValue v) : s'.IsValue v :=
  Nat.lt_of_lt_of_le known h.size

theorem isSite (h : Extends s s') (known : s.IsSite i) : s'.IsSite i :=
  Nat.lt_of_lt_of_le known h.sites

theorem trans (first : Extends s t) (second : Extends t s') : Extends s s' := by
  refine ⟨?_, first.size.trans second.size, fun v known => ?_, first.sites.trans second.sites,
    fun i known => ?_, first.reads.trans second.reads, first.shape.trans second.shape, fun id => ?_⟩
  · have a := first.rest
    have b := second.rest
    rw [a] at b
    exact b
  · exact (second.value v (first.isValue known)).trans (first.value v known)
  · exact (second.place i (first.isSite known)).trans (first.place i known)
  · exact (second.reserved id).trans (first.reserved id)

theorem geometry (h : Extends s s') : s'.geometry = s.geometry := by rw [h.rest]

theorem junction (h : Extends s s') (j : JunctionId) : s'.junction j = s.junction j := by
  rw [h.rest]
  rfl

theorem tableEntry (h : Extends s s') (j : JunctionId) (k : Nat) :
    s'.tableEntry j k = s.tableEntry j k := by
  rw [State.tableEntry, h.junction]
  rfl

theorem has (h : Extends s s') (id : ResourceId) : s'.resources.Has id ↔ s.resources.Has id :=
  h.shape.has id

theorem free (h : Extends s s') (id : ResourceId) : s'.Free id ↔ s.Free id := by
  rw [Free, Free, h.reserved]

theorem resource (h : Extends s s') (known : s.IsSite i) : s'.resource? i = s.resource? i := by
  unfold resource?
  rw [h.geometry]
  exact Site.resourceOfPlace (h.place i known)

theorem satisfies (h : Extends s s') (known : s.IsSite i) (mask : SiteMask) :
    (s'.site i).satisfies s'.geometry mask = (s.site i).satisfies s.geometry mask := by
  rw [h.geometry]
  exact Site.satisfiesOfPlace (h.place i known) mask

theorem next (h : Extends s s') (known : s.IsValue v) : (s'.value v).next = (s.value v).next :=
  show (s'.value v).outline.next = (s.value v).outline.next from congrArg _ (h.value v known)

theorem head (h : Extends s s') (known : s.IsValue v) :
    (s'.value v).reads = (s.value v).reads :=
  show (s'.value v).outline.reads = (s.value v).outline.reads from congrArg _ (h.value v known)

theorem memRing (h : Extends s s') (rings : s.Permutes) (rings' : s'.Permutes)
    (known : s.IsValue v) : w ∈ s'.ring v ↔ w ∈ s.ring v := by
  have steps : ∀ n, s'.follow^[n] v = s.follow^[n] v := by
    intro n
    induction n with
    | zero => rfl
    | succ n ih =>
      have there := isValueIterate rings known n
      rw [iterate_succ_apply', iterate_succ_apply', ih, followKnown there,
        followKnown (h.isValue there), h.next there]
  rw [State.memRing rings' (h.isValue known), State.memRing rings known]
  simp only [Aliases, steps]

theorem live (h : Extends s s') (formed : s.WellFormed) (formed' : s'.WellFormed)
    (known : s.IsValue v) : s'.Live v ↔ s.Live v := by
  rw [liveIff formed', liveIff formed]
  constructor
  · rintro ⟨m, member, r, chain, pending⟩
    have inside := (h.memRing formed.rings formed'.rings known).mp member
    rw [h.head (isValueOfRing formed.rings known inside)] at chain
    exact ⟨m, inside, r, chain, h.reads.ofPending formed.reads.ordered pending (formed.heads m r chain).1⟩
  · rintro ⟨m, inside, r, chain, pending⟩
    refine ⟨m, (h.memRing formed.rings formed'.rings known).mpr inside, r, ?_,
      h.reads.pendingOf pending⟩
    rw [h.head (isValueOfRing formed.rings known inside)]
    exact chain

end Extends

theorem extendsFreeze (s : State) (i : SiteId) : Extends s (s.freezeSite i) := by
  have rest := s.freezeSiteRest i
  have unmoved := s.freezeSiteUnmoved i
  refine ⟨by rw [rest], unmoved.size.ge, fun v _ => by rw [freezeSiteValue], unmoved.bound,
    fun j known => by rw [unmoved.site j known], by rw [rest]; exact .refl _, unmoved.shape,
    unmoved.reserved⟩

theorem extendsThaw (s : State) (i : SiteId) : Extends s (s.thawSite i) := by
  have unmoved := s.thawSiteUnmoved i
  refine ⟨by rw [thawSiteEq]; rfl, unmoved.size.ge, fun v _ => by rw [thawSiteValue],
    unmoved.bound, fun j known => by rw [unmoved.site j known], by rw [thawSiteEq]; exact .refl _,
    unmoved.shape, unmoved.reserved⟩

/-! New values. -/

theorem valueNew (s : State) (kind : ValueKind) (w : ValueId) :
    (s.newValue kind).2.value w =
      if w = ⟨s.values.size⟩ then { kind, next := ⟨s.values.size⟩ } else s.value w := by
  obtain ⟨n⟩ := w
  unfold newValue value
  dsimp only
  rw [Array.getD_eq_getD_getElem?, Array.getD_eq_getD_getElem?, Array.getElem?_push]
  by_cases here : n = s.values.size
  · simp [here]
  · simp [here]

theorem extendsNewValue (s : State) (kind : ValueKind) : Extends s (s.newValue kind).2 := by
  refine ⟨rfl, by simp [newValue], fun v known => ?_, le_rfl, fun _ _ => rfl, .refl _, .refl _,
    fun _ => rfl⟩
  rw [valueNew, if_neg]
  rintro rfl
  simp [IsValue] at known

theorem sitesNewValue (s : State) (kind : ValueKind) (w : ValueId) :
    ((s.newValue kind).2.value w).sites = (s.value w).sites := by
  rw [valueNew]
  split
  · rename_i here
    have outside : ¬ s.IsValue w := by simp [IsValue, here]
    rw [s.valueOutside outside]
    rfl
  · rfl

theorem followNewValue (s : State) (kind : ValueKind) (w : ValueId) :
    (s.newValue kind).2.follow w = s.follow w := by
  by_cases new : w = ⟨s.values.size⟩
  · have outside : ¬ s.IsValue w := by simp [IsValue, new]
    rw [follow, follow, if_neg outside, valueNew, if_pos new, new]
    exact ite_self _
  · have apart : w.index ≠ s.values.size := fun same => new (by cases w; simp_all)
    have known : (s.newValue kind).2.IsValue w ↔ s.IsValue w := by
      simp only [IsValue, newValue, Array.size_push]
      omega
    rw [follow, follow, valueNew, if_neg new]
    simp only [known]

theorem permutesNewValue (rings : s.Permutes) (kind : ValueKind) :
    (s.newValue kind).2.Permutes := by
  have same := funext (s.followNewValue kind)
  refine permutesOfFollow (fun w known => ?_) (same ▸ followInjective rings)
  rw [same]
  have size : (s.newValue kind).2.values.size = s.values.size + 1 := by simp [newValue]
  by_cases there : s.IsValue w
  · have onward := isValueFollow rings there
    simp only [IsValue, size] at onward ⊢
    omega
  · rwa [follow, if_neg there]

theorem Tracked.newValue (h : s.Tracked lent due) (kind : ValueKind) :
    (s.newValue kind).2.Tracked lent due := by
  have extend := s.extendsNewValue kind
  have sites := s.sitesNewValue kind
  have size : (s.newValue kind).2.values.size = s.values.size + 1 := by simp [State.newValue]
  have self : (s.newValue kind).2.value ⟨s.values.size⟩ = { kind, next := ⟨s.values.size⟩ } := by
    rw [valueNew, if_pos rfl]
  have formed : (s.newValue kind).2.WellFormed := by
    refine ⟨permutesNewValue h.formed.rings kind, fun w i listed => ?_, h.formed.reads,
      fun w r chain => ?_, h.formed.frame⟩
    · rw [sites] at listed
      exact h.formed.listed w i listed
    · by_cases new : w = ⟨s.values.size⟩
      · rw [new, self] at chain
        cases chain
      · rw [valueNew, if_neg new] at chain
        exact h.formed.heads w r chain
  refine ⟨formed, fun id o free owner => ?_, fun w i id alive listed names has free => ?_, h.vacant,
    h.taken, h.once.congr sites, fun r has free => ?_, fun o inside => ?_⟩
  · rw [sites]
    exact h.recorded id o free owner
  · rw [sites] at listed
    have known := s.isValueOfSites listed
    exact h.held w i id ((extend.live h.formed formed known).mp alive) listed names has free
  · have uses : (s.newValue kind).2.uses r = s.uses r := by
      unfold uses
      rw [size, Finset.sum_range_succ]
      have none : (s.newValue kind).2.usesOf ⟨s.values.size⟩ r = 0 := by
        unfold usesOf
        rw [self]
        rfl
      rw [none, Nat.add_zero]
      refine Finset.sum_congr rfl fun n _ => ?_
      unfold usesOf
      rw [sites]
      rfl
    rw [uses]
    exact h.counted r has free
  · obtain ⟨value, known, unlisted⟩ := h.loose o inside
    refine ⟨extend.isValue value, known, fun w => ?_⟩
    rw [sites]
    exact unlisted w

/-! Words on the stack. -/

def AlignedAt (s : State) (x : Site) : Prop :=
  ∀ k, x.slot? s.geometry = some k → x.satisfies s.geometry (.slot k) = true

instance (x : Site) : Decidable (s.AlignedAt x) :=
  decidable_of_iff (∀ k ∈ x.slot? s.geometry, x.satisfies s.geometry (.slot k) = true) Iff.rfl

def Aligned (s : State) : Prop := ∀ v, ∀ i ∈ (s.value v).sites, s.AlignedAt (s.site i)

theorem alignedIff :
    (∀ k < s.values.size, ∀ i ∈ (s.value ⟨k⟩).sites, s.AlignedAt (s.site i)) ↔ s.Aligned :=
  ⟨fun all v i listed => all v.index (s.isValueOfSites listed) i listed,
    fun aligned k _ => aligned ⟨k⟩⟩

instance : Decidable s.Aligned := decidable_of_iff _ alignedIff

theorem alignedCongr {x x' : Site} (geometry : s'.geometry = s.geometry)
    (place : x'.place = x.place) : s'.AlignedAt x' ↔ s.AlignedAt x := by
  have slot : ∀ x : Site, x.place.slot? s.geometry = x.slot? s.geometry := by
    intro x
    cases x <;> rfl
  unfold AlignedAt
  rw [geometry, ← slot x', place, slot]
  simp only [Site.satisfiesOfPlace place]

theorem alignedOfPlain (formed : s.WellFormed) {x : Site} (plain : s.Plain x) : s.AlignedAt x := by
  intro k slot
  cases x with
  | memory m acquired =>
    simp only [Site.slot?] at slot
    split at slot
    · rename_i onStack
      simp only [Bool.and_eq_true, beq_iff_eq] at onStack
      obtain ⟨n, inside, rfl⟩ := plain m acquired rfl onStack.1
      have bound : (n + s.geometry.footer) * wordSize < modulus 32 :=
        Nat.lt_of_lt_of_le (Nat.mul_lt_mul_of_pos_right (by omega) (by decide)) formed.frame
      simp only [s.geometry.indexOffset bound, Option.some.injEq] at slot
      subst slot
      have kind : KindSet.has OperandKind.memory.bit .memory = true := by decide
      simp [Site.satisfies, SiteMask.slot, SiteMask.accepts, kind]
    · cases slot
  | constant p => cases slot
  | address p => cases slot
  | register mask number => cases slot

theorem Aligned.fewer (aligned : s.Aligned) (formed : s.WellFormed)
    (geometry : s'.geometry = s.geometry)
    (place : ∀ i, s.IsSite i → (s'.site i).place = (s.site i).place)
    (listed : ∀ v i, i ∈ (s'.value v).sites → i ∈ (s.value v).sites) : s'.Aligned := by
  intro v i inside
  have before := listed v i inside
  exact (alignedCongr geometry (place i (formed.listed v i before))).mpr (aligned v i before)

theorem Aligned.freeze (aligned : s.Aligned) (formed : s.WellFormed) (i : SiteId) :
    (s.freezeSite i).Aligned :=
  aligned.fewer formed (s.extendsFreeze i).geometry (s.extendsFreeze i).place fun v j inside => by
    rwa [freezeSiteValue] at inside

theorem Aligned.thaw (aligned : s.Aligned) (formed : s.WellFormed) (i : SiteId) :
    (s.thawSite i).Aligned :=
  aligned.fewer formed (s.extendsThaw i).geometry (s.extendsThaw i).place fun v j inside => by
    rwa [thawSiteValue] at inside

theorem Moves.aligned (run : Moves old kept h₀ s h₁ s') (formed : s.WellFormed)
    (aligned : s.Aligned) : s'.Aligned := by
  induction run with
  | refl => exact aligned
  | trans first _ ihFirst ihSecond =>
    exact ihSecond (first.wellFormed formed) (ihFirst formed aligned)
  | ask => exact aligned.fewer formed rfl (fun _ _ => rfl) fun _ _ inside => inside
  | create x =>
    exact aligned.fewer formed rfl (keepsNewSite _ x).place fun _ _ inside => inside
  | @frozen kept h₀ s h₁ t i known run inner =>
    have frozen := wellFormedFreeze formed i
    exact (inner frozen (aligned.freeze formed i)).thaw (run.wellFormed frozen) i
  | @drop kept hollow s id o =>
    have keeps := s.keepsRemoveSite o.value o.site
    exact aligned.fewer formed keeps.geometry keeps.place fun _ _ => s.removeSiteListed
  | @redirect kept hollow s o j =>
    refine aligned.fewer formed rfl (fun _ _ => rfl) fun v i inside => ?_
    rwa [redirectSites] at inside
  | @take kept hollow s t u v i id value known names plain free fresh born apart run vacates _ inner =>
    have reached := s.keepsReach i
    have formed' := reached.wellFormed formed formed.listed
    have before := inner formed' (aligned.fewer formed rfl (fun _ _ => rfl) fun _ _ inside => inside)
    have after := before.fewer (run.wellFormed formed') vacates.keeps.geometry vacates.keeps.place
      fun _ _ => vacates.listed
    have keeps := (reached.trans run.keeps).trans vacates.keeps
    have last := u.keepsOccupy v i id
    have there := (keeps.isValue v).mpr value
    intro w j inside
    rcases (u.occupyListed there).mp inside with ⟨-, rfl⟩ | inside
    · have place := (last.place j (keeps.isSite known)).trans (keeps.place j known)
      refine (alignedCongr (last.geometry.trans keeps.geometry) place).mpr ?_
      exact alignedOfPlain formed plain
    · have known' := vacates.keeps.isSite ((run.wellFormed formed').listed w j (vacates.listed inside))
      exact (alignedCongr last.geometry (last.place j known')).mpr (after w j inside)
  | fill => exact aligned.fewer formed rfl (fun _ _ => rfl) fun _ _ inside => inside

end Lowering.State
