import Lowering.Proofs.Decision
import Lowering.Proofs.Displacement
import Lowering.Consumption
/-!
No live value loses its last site.

A rearrangement takes a site away only if the owner can spare it. If no site is listed twice, an
owner that can spare one has another one left. So a value that was live and somewhere before is
somewhere afterwards, however many values were displaced in between.
-/
namespace Lowering

namespace State

variable {s s' t u : State} {old : Nat} {kept hollow h₀ h₁ : List SiteId} {id : ResourceId}
  {v w : ValueId} {i : SiteId}

/-! Sites that are listed once stay so. -/

theorem ListedOnce.congr (once : s.ListedOnce) (same : ∀ v, (s'.value v).sites = (s.value v).sites) :
    s'.ListedOnce := by
  refine ⟨fun v => ?_, fun v w i first second => ?_⟩
  · rw [same]
    exact once.each v
  · rw [same] at first second
    exact once.apart v w i first second

theorem ListedOnce.detach (once : s.ListedOnce) (o : Owner) : (s.detach o).ListedOnce := by
  refine ⟨fun v => ?_, fun v w i first second => ?_⟩
  · rw [detachValue]
    dsimp only
    split
    · exact (once.each v).filter _
    · exact once.each v
  · exact once.apart v w i ((s.detachListed o).mp first).1 ((s.detachListed o).mp second).1

theorem ListedOnce.removeSite (once : s.ListedOnce) (v : ValueId) (i : SiteId) :
    (s.removeSite v i).ListedOnce := by
  obtain ⟨same, -⟩ | ⟨m, -, -, same⟩ := s.removeSiteCases v i
  · rwa [same]
  · rw [same]
    exact once.detach _

theorem removeSiteUnlisted (once : s.ListedOnce) {j : SiteId}
    (own : ∀ w, j ∈ (s.value w).sites → w ∈ s.ring v) :
    (s.removeSite v j).Unlisted j := by
  intro w listed
  obtain ⟨same, none⟩ | ⟨m, -, there, same⟩ := s.removeSiteCases v j
  · rw [same] at listed
    exact none w (own w listed) listed
  · rw [same] at listed
    obtain ⟨before, apart⟩ := (s.detachListed ⟨m, j⟩).mp listed
    exact apart (once.apart w m j before there) rfl

theorem Vacates.listedOnce (h : Vacates kept t id v u) (once : t.ListedOnce) : u.ListedOnce := by
  cases h with
  | vacant => exact once
  | owned => exact once.removeSite _ _

theorem ListedOnce.enlist (once : s.ListedOnce) (known : s.IsValue v) (fresh : s.Unlisted i) :
    (s.enlist v i).ListedOnce := by
  refine ⟨fun w => ?_, fun w x j first second => ?_⟩
  · rw [s.enlistSites known]
    split
    · exact List.nodup_cons.mpr ⟨fresh w, once.each w⟩
    · exact once.each w
  · rcases (s.enlistListed known).mp first with ⟨rfl, rfl⟩ | inW
    · rcases (s.enlistListed known).mp second with ⟨rfl, -⟩ | inX
      · rfl
      · exact absurd inX (fresh x)
    · rcases (s.enlistListed known).mp second with ⟨-, rfl⟩ | inX
      · exact absurd inW (fresh w)
      · exact once.apart w x j inW inX

theorem Moves.listedOnce (run : Moves old kept h₀ s h₁ s') (once : s.ListedOnce) :
    s'.ListedOnce := by
  induction run with
  | refl => exact once
  | trans _ _ first second => exact second (first once)
  | ask => exact once.congr fun _ => rfl
  | create => exact once.congr fun _ => rfl
  | frozen _ _ inner =>
    refine (inner (once.congr fun v => ?_)).congr fun v => ?_
    · rw [freezeSiteValue]
    · rw [thawSiteValue]
  | drop => exact once.removeSite _ _
  | redirect => exact once.congr fun v => redirectSites _ _ _ v
  | @take kept hollow s t u v i id value _ _ _ _ fresh _ _ run vacates _ inner =>
    have before := inner (once.congr fun _ => rfl)
    have there := (((s.keepsReach i).trans run.keeps).trans vacates.keeps).isValue v
    refine ListedOnce.enlist ((vacates.listedOnce before).congr fun _ => rfl) (there.mpr value) ?_
    exact fun w listed => run.unlisted List.mem_cons_self fresh w (vacates.listed listed)
  | fill => exact once.congr fun _ => rfl

/-! What is left to an owner. -/

theorem hasSiteIff : s.hasSite v = true ↔ ∃ m ∈ s.ring v, ∃ i, i ∈ (s.value m).sites := by
  simp only [hasSite, List.any_eq_true, bne_iff_ne, ne_eq]
  constructor
  · rintro ⟨m, member, some⟩
    obtain ⟨i, listed⟩ := List.exists_mem_of_ne_nil _ some
    exact ⟨m, member, i, listed⟩
  · rintro ⟨m, member, i, listed⟩
    exact ⟨m, member, List.ne_nil_of_mem listed⟩

theorem placementsNodup (formed : s.WellFormed) (once : s.ListedOnce) (known : s.IsValue v) :
    ((s.placements v).map (·.site)).Nodup := by
  have sites : (s.placements v).map (·.site) = (s.ring v).flatMap fun m => (s.value m).sites := by
    simp [placements, ownPlacements, List.map_flatMap, Function.comp_def]
  rw [sites, List.nodup_flatMap]
  refine ⟨fun m _ => once.each m, (nodupRing formed.rings known).imp fun apart => ?_⟩
  intro i first second
  exact apart (once.apart _ _ i first second)

theorem otherSite (formed : s.WellFormed) (once : s.ListedOnce) (known : s.IsValue v)
    (member : w ∈ s.ring v) (listed : i ∈ (s.value w).sites) (spare : s.isLastSite v i = false) :
    ∃ m ∈ s.ring v, ∃ j ∈ (s.value m).sites, j ≠ i := by
  by_contra none
  push Not at none
  have all : ∀ j ∈ (s.placements v).map (·.site), j = i := by
    intro j inside
    obtain ⟨o, held, rfl⟩ := List.mem_map.mp inside
    obtain ⟨there, listed⟩ := memPlacements.mp held
    exact none o.value there o.site listed
  have replicated := List.eq_replicate_of_mem all
  have nodup := placementsNodup formed once known
  rw [replicated, List.nodup_replicate] at nodup
  have pos : 0 < ((s.placements v).map (·.site)).length :=
    List.length_pos_of_mem (List.mem_map.mpr ⟨⟨w, i⟩, memPlacements.mpr ⟨member, listed⟩, rfl⟩)
  rw [isLastSite, beq_eq_false_iff_ne] at spare
  apply spare
  rw [replicated, show ((s.placements v).map (·.site)).length = 1 by omega]
  rfl

/-! Survival. -/

def Survives (s s' : State) : Prop :=
  ∀ v, s.IsValue v → s.Live v → s.hasSite v = true → s'.hasSite v = true

theorem Survives.trans (first : Survives s t) (second : Survives t u)
    (value : ∀ v, s.IsValue v → t.IsValue v) (live : ∀ v, s.Live v → t.Live v) : Survives s u :=
  fun v known alive has => second v (value v known) (live v alive) (first v known alive has)

theorem hasSiteListed (ring : ∀ v, s'.ring v = s.ring v)
    (more : ∀ v i, i ∈ (s.value v).sites → i ∈ (s'.value v).sites) (has : s.hasSite v = true) :
    s'.hasSite v = true := by
  obtain ⟨m, member, i, listed⟩ := hasSiteIff.mp has
  exact hasSiteIff.mpr ⟨m, (ring v).symm ▸ member, i, more m i listed⟩

theorem survivesListed (ring : ∀ v, s'.ring v = s.ring v)
    (more : ∀ v i, i ∈ (s.value v).sites → i ∈ (s'.value v).sites) : Survives s s' :=
  fun _ _ _ has => hasSiteListed ring more has

theorem removeSiteOther (formed : s.WellFormed) (known : s.IsValue v) (value : s.IsValue w)
    (apart : w ∉ s.ring v) (has : s.hasSite w = true) : (s.removeSite v i).hasSite w = true := by
  obtain ⟨m, member, j, listed⟩ := hasSiteIff.mp has
  refine hasSiteIff.mpr ⟨m, ((s.keepsRemoveSite v i).ring w).symm ▸ member, j, ?_⟩
  obtain ⟨same, -⟩ | ⟨n, inside, -, same⟩ := s.removeSiteCases v i
  · rwa [same]
  · rw [same, detachListed]
    refine ⟨listed, ?_⟩
    rintro rfl
    exact absurd (memRingTrans formed.rings known inside (memRingSymm formed.rings value member))
      apart

theorem removeSiteSurvives (formed : s.WellFormed) (once : s.ListedOnce) (known : s.IsValue v)
    (spare : s.isLastSite v i = false ∨ ¬ s.Live v) : Survives s (s.removeSite v i) := by
  intro w value alive has
  by_cases related : w ∈ s.ring v
  · have back := memRingSymm formed.rings known related
    have only := spare.resolve_right fun dead =>
      dead ((liveOfAlias formed known related).mp alive)
    obtain ⟨same, -⟩ | ⟨n, inside, listed, same⟩ := s.removeSiteCases v i
    · rwa [same]
    · obtain ⟨m, member, j, there, other⟩ := otherSite formed once known inside listed only
      refine hasSiteIff.mpr ⟨m, ?_, j, s.removeSiteKeepsListed there other⟩
      rw [(s.keepsRemoveSite v i).ring]
      exact memRingTrans formed.rings value back member
  · exact removeSiteOther formed known value related has

theorem Vacates.survives (h : Vacates kept t id v u) (formed : t.WellFormed) (named : t.Named)
    (once : t.ListedOnce) (free : t.Free id) (value : t.IsValue v) (known : t.IsValue w)
    (alive : t.Live w) (has : t.hasSite w = true) : v ∈ t.ring w ∨ u.hasSite w = true := by
  cases h with
  | vacant => exact .inr has
  | @owned o owner apart spare =>
    have there := (named id o free owner).1
    rcases spare with related | spare
    · by_cases same : w ∈ t.ring o.value
      · exact .inl (memRingSymm formed.rings value
          (memRingTrans formed.rings value related same))
      · exact .inr (removeSiteOther formed there known same has)
    · exact .inr (removeSiteSurvives formed once there spare w known alive has)

theorem freezeSiteLive (formed : s.WellFormed) (i : SiteId) (v : ValueId) :
    (s.freezeSite i).Live v ↔ s.Live v := by
  rw [liveIff (wellFormedFreeze formed i), liveIff formed, freezeSiteRing]
  have reads : (s.freezeSite i).reads = s.reads := by rw [freezeSiteRest]
  simp only [freezeSiteValue, reads]

theorem Moves.survives (run : Moves old kept h₀ s h₁ s') (formed : s.WellFormed) (named : s.Named)
    (once : s.ListedOnce) : Survives s s' := by
  induction run with
  | refl => exact fun _ _ _ has => has
  | trans first second ihFirst ihSecond =>
    have later := ihSecond (first.wellFormed formed) (first.named named) (first.listedOnce once)
    exact (ihFirst formed named once).trans later (fun v => (first.keeps.isValue v).mpr)
      fun v => (first.live formed v).mpr
  | ask reads statistics available evolves =>
    exact survivesListed (keepsAsk _ statistics available evolves).ring fun _ _ listed => listed
  | create x => exact survivesListed (keepsNewSite _ x).ring fun _ _ listed => listed
  | @frozen kept h₀ s h₁ t i known run inner =>
    have before := inner (wellFormedFreeze formed i) (namedFreeze named)
      (once.congr fun v => by rw [freezeSiteValue])
    have frozen : Survives s (s.freezeSite i) := survivesListed (s.freezeSiteRing i)
      fun v j listed => by rwa [freezeSiteValue]
    have thawed : Survives t (t.thawSite i) := survivesListed (t.thawSiteRing i)
      fun v j listed => by rwa [thawSiteValue]
    intro v value alive has
    have value' : (s.freezeSite i).IsValue v := by
      rw [freezeSiteRest]
      exact value
    have alive' := (freezeSiteLive formed i v).mpr alive
    refine thawed v ((run.keeps.isValue v).mpr value') ?_ ?_
    · exact (run.live (wellFormedFreeze formed i) v).mpr alive'
    · exact before v value' alive' (frozen v value alive has)
  | @drop kept hollow s id o free owner apart filled spare =>
    exact removeSiteSurvives formed once (named id o free owner).1 spare
  | redirect o j =>
    refine survivesListed (keepsModifyValue _ _ fun d => ?_).ring fun v i listed => ?_
    · split <;> rfl
    · rwa [redirectSites]
  | @take kept hollow s t u v i id value known names plain free fresh born apart run vacates _ inner =>
    have reached := s.keepsReach i
    have formed' := reached.wellFormed formed formed.listed
    have named' := reached.named (fun _ _ owner => by rwa [reachOwner] at owner) named
    have once' : (s.reach i).ListedOnce := once.congr fun _ => rfl
    have keeps := reached.trans run.keeps
    intro w known' alive has
    have alive' := (reached.live formed formed' w).mpr alive
    have still := inner formed' named' once' w ((reached.isValue w).mpr known') alive'
      ((survivesListed reached.ring fun _ _ listed => listed) w known' alive has)
    have later := vacates.survives (run.wellFormed formed') (run.named named')
      (run.listedOnce once') ((keeps.free id).mpr free) ((keeps.isValue v).mpr value)
      ((keeps.isValue w).mpr known') ((run.live formed' w).mpr alive') still
    have last := u.keepsOccupy v i id
    have there := ((keeps.trans vacates.keeps).isValue v).mpr value
    rcases later with related | has'
    · refine hasSiteIff.mpr ⟨v, ?_, i, (u.occupyListed there).mpr (.inl ⟨rfl, rfl⟩)⟩
      rw [last.ring, vacates.keeps.ring]
      exact related
    · obtain ⟨m, member, j, listed⟩ := hasSiteIff.mp has'
      refine hasSiteIff.mpr ⟨m, ?_, j, (u.occupyListed there).mpr (.inr listed)⟩
      rw [last.ring]
      exact member
  | fill => exact survivesListed (ringCongr rfl fun _ => rfl) fun _ _ listed => listed

theorem Evicted.survives (h : Evicted old kept hollow s id none s') (formed : s.WellFormed)
    (named : s.Named) (once : s.ListedOnce) (free : s.Free id) : Survives s s' := by
  cases h with
  | vacant => exact fun _ _ _ has => has
  | @owned o t owner run still apart spare =>
    have formed' := run.wellFormed formed
    have known := (run.named named id o ((run.keeps.free id).mpr free) still).1
    have spare' := spare.resolve_left fun ⟨_, thief, _⟩ => by cases thief
    exact (run.survives formed named once).trans
      (removeSiteSurvives formed' (run.listedOnce once) known spare')
      (fun v => (run.keeps.isValue v).mpr) fun v => (run.live formed v).mpr

end State

open State Build

section

variable {s s' t : State} {old : Nat} {kept hollow : List SiteId} {id : ResourceId}
  {v w : ValueId} {i : SiteId}

theorem Seizes.keeps {o : Owner} (h : Seizes old kept hollow s id o t) : Keeps s t := by
  cases h with
  | reserved => exact .refl s
  | taken free run vacates =>
    exact (run.keeps.trans vacates.keeps).trans (keepsResources _ (.setOwner _ _ _))

theorem Seizes.keepsListed {o : Owner} (h : Seizes old kept hollow s id o s') (inside : i ∈ kept)
    (listed : i ∈ (s.value v).sites) : i ∈ (s'.value v).sites := by
  cases h with
  | reserved => exact listed
  | taken _ run vacates => exact vacates.keepsListed inside (run.keepsListed inside listed)

theorem Acquires.keepsListed {j : SiteId} (h : Acquires old kept hollow s w j s') (inside : i ∈ kept)
    (listed : i ∈ (s.value v).sites) : i ∈ (s'.value v).sites := by
  cases h with
  | bare => exact listed
  | named _ seizes => exact seizes.keepsListed inside listed
  | settled _ _ seizes => exact seizes.keepsListed inside listed

theorem Seizes.survives {o : Owner} (h : Seizes old kept hollow s id o t) (formed : s.WellFormed)
    (named : s.Named) (once : s.ListedOnce) (value : s.IsValue o.value) (known : s.IsValue w)
    (alive : s.Live w) (has : s.hasSite w = true) :
    o.value ∈ s.ring w ∨ t.hasSite w = true := by
  cases h with
  | reserved => exact .inr has
  | @taken t u free run vacates =>
    have later := vacates.survives (run.wellFormed formed) (run.named named)
      (run.listedOnce once) ((run.keeps.free id).mpr free) ((run.keeps.isValue _).mpr value)
      ((run.keeps.isValue w).mpr known) ((run.live formed w).mpr alive)
      (run.survives formed named once w known alive has)
    rw [run.keeps.ring] at later
    rcases later with related | has'
    · exact .inl related
    · exact .inr (hasSiteListed (s := u) (ringCongr rfl fun _ => rfl) (fun _ _ listed => listed)
        has')

theorem Acquires.survives (h : Acquires old kept hollow s v i t) (formed : s.WellFormed)
    (named : s.Named) (once : s.ListedOnce) (value : s.IsValue v) (known : s.IsValue w)
    (alive : s.Live w) (has : s.hasSite w = true) :
    t.values.size = s.values.size ∧ t.ring w = s.ring w ∧
      (v ∈ s.ring w ∨ t.hasSite w = true) := by
  have set : ∀ (t : State) (x : Site) (w : ValueId), (t.setSite i x).ring w = t.ring w := by
    intro t x
    apply ringCongr
    · rfl
    · exact fun _ => rfl
  have sets : ∀ {t : State} (x : Site), t.hasSite w = true → (t.setSite i x).hasSite w = true :=
    fun x => hasSiteListed (set _ x) fun _ _ listed => listed
  have reached := s.keepsReach i
  have has' : (s.reach i).hasSite w = true :=
    hasSiteListed reached.ring (fun _ _ listed => listed) has
  cases h with
  | bare => exact ⟨reached.size, (set _ _ w).trans (reached.ring w), .inr (sets _ has')⟩
  | named names seizes =>
    have formed' := reached.wellFormed formed formed.listed
    have named' := reached.named (fun _ _ owner => by rwa [reachOwner] at owner) named
    have keeps := reached.trans seizes.keeps
    have later := seizes.survives formed' named' (once.congr fun _ => rfl)
      ((reached.isValue v).mpr value) ((reached.isValue w).mpr known)
      ((reached.live formed formed' w).mpr alive) has'
    rw [reached.ring] at later
    exact ⟨keeps.size, (set _ _ w).trans (keeps.ring w), later.imp_right (sets _)⟩
  | settled site available seizes =>
    have later := seizes.survives formed named once value known alive has
    exact ⟨seizes.keeps.size, (set _ _ w).trans (seizes.keeps.ring w), later.imp_right (sets _)⟩

theorem placeSurvives (formed : s.WellFormed) (named : s.Named) (once : s.ListedOnce)
    (value : s.IsValue v) (ok : place v i s = .ok () s') : Survives s s' := by
  unfold place placeWith at ok
  rw [getBind] at ok
  split at ok
  · obtain ⟨-, rfl⟩ := pureOk.mp ok
    exact fun _ _ _ has => has
  · simp only [bindOk, modifyOk] at ok
    obtain ⟨⟨⟩, t, acquired, rfl⟩ := ok
    have reached := s.keepsReach i
    have ready : Ready 0 (s.reach i) [] [] := ⟨reached.wellFormed formed formed.listed,
      reached.named (fun _ _ owner => by rwa [reachOwner] at owner) named, by simp [Secured],
      by simp, Nat.zero_le _⟩
    have acquires := acquireSpec evictSpec ready (by simp) acquired
    intro w known alive has
    obtain ⟨size, ring, later⟩ := acquires.survives formed named once value known alive has
    have there : t.IsValue v := by rwa [IsValue, size]
    have keeps := t.keepsEnlist v i
    rcases later with related | has'
    · refine hasSiteIff.mpr ⟨v, ?_, i, (t.enlistListed there).mpr (.inl ⟨rfl, rfl⟩)⟩
      rw [← ring, ← keeps.ring] at related
      exact related
    · exact hasSiteListed keeps.ring (fun m j inside => (t.enlistListed there).mpr (.inr inside))
        has'

theorem acquireTemporarySurvives {mask : RegisterSet} {n : Register} (formed : s.WellFormed)
    (named : s.Named) (once : s.ListedOnce) (ok : acquireTemporary mask s = .ok n s') :
    Survives s s' := by
  obtain ⟨-, available, u, lends, rfl⟩ := acquireTemporarySpec formed ok
  have run : Moves 0 [] [] s [] u :=
    lendsMoves formed named (by simp [Secured]) (by simp) available lends
  exact (run.survives formed named once).trans
    (survivesListed (ringCongr rfl fun _ => rfl) fun _ _ listed => listed)
    (fun v => (run.keeps.isValue v).mpr) fun v => (run.live formed v).mpr

theorem acquireTemporaryFails {mask : RegisterSet} {e : Error} (formed : s.WellFormed)
    (failed : acquireTemporary mask s = .error e s') :
    s'.values = s.values ∧ s'.sites = s.sites ∧ s'.resources = s.resources := by
  unfold acquireTemporary at failed
  rw [getBind] at failed
  generalize s.chooseRegister none mask none = t at failed
  obtain ⟨resource, cost⟩ := t
  cases possible : (Target.mk resource cost).isImpossible with
  | true =>
    simp only [possible, throwFails] at failed
    rw [← failed.2]
    exact ⟨rfl, rfl, rfl⟩
  | false =>
    cases resource with
    | slot n =>
      simp only [possible, throwFails] at failed
      rw [← failed.2]
      exact ⟨rfl, rfl, rfl⟩
    | register n =>
      simp only [possible] at failed
      cases owner : (s.resources.get (.register n)).owner with
      | none => simp only [owner, modifyBind, pureError] at failed
      | some o =>
        simp only [owner] at failed
        cases last : s.isLastSite o.value o.site with
        | false => simp only [last, Bool.false_eq_true, if_false, modifyBind, pureError] at failed
        | true =>
          simp only [last, if_true, live, modifyGetBind] at failed
          obtain ⟨reads, state, -, -, -⟩ := liveReadSpec formed o.value
          cases alive : (s.isLive o.value).1 with
          | false =>
            simp only [alive, Bool.false_eq_true, if_false, modifyBind, pureError] at failed
          | true =>
            simp only [alive, if_true, throwBind, isLiveState, state] at failed
            cases failed
            exact ⟨rfl, rfl, rfl⟩

theorem evictSurvives {lent : List Register} (coherent : s.Coherent lent)
    (ok : evict id none s = .ok () s') : Survives s s' := by
  have named := coherent.owned.named coherent.formed
  by_cases free : s.Free id
  · have ready : Ready 0 s [] [] :=
      ⟨coherent.formed, named, by simp [Secured], by simp, Nat.zero_le _⟩
    exact (evictSpec ready ⟨free, by simp⟩ ok).survives coherent.formed named coherent.once free
  · cases (evictVacant (coherent.vacant id free)).symm.trans ok
    exact fun _ _ _ has => has

theorem liveValuesSurvive {lent : List Register} (coherent : s.Coherent lent) :
    (∀ v i s', s.IsValue v → place v i s = .ok () s' → Survives s s') ∧
    (∀ r strict reserve i s', s.IsValue (s.reads.value r) →
      relocate r strict reserve s = .ok i s' → Survives s s') ∧
    (∀ id s', evict id none s = .ok () s' → Survives s s') ∧
    (∀ mask n s', acquireTemporary mask s = .ok n s' → Survives s s') ∧
    ∀ mask e s', acquireTemporary mask s = .error e s' →
      s'.values = s.values ∧ s'.sites = s.sites ∧ s'.resources = s.resources := by
  have formed := coherent.formed
  have named := coherent.owned.named formed
  refine ⟨?_, ?_, ?_, ?_, ?_⟩
  · exact fun v i s' value ok => placeSurvives formed named coherent.once value ok
  · intro r strict reserve i s' value ok
    have ready : Ready 0 s [] [] :=
      ⟨formed, named, by simp [Secured], by simp, Nat.zero_le _⟩
    exact (relocateSpec evictSpec ready value (by simp) ok).moves.survives formed named
      coherent.once
  · exact fun id s' ok => evictSurvives coherent ok
  · exact fun mask n s' ok => acquireTemporarySurvives formed named coherent.once ok
  · exact fun mask e s' failed => acquireTemporaryFails formed failed

end

/- Each of the four moves a value out of the way of the other or refuses to. -/
theorem crossedSurvive : crossed.Coherent [] ∧
    (∃ s', place ⟨0⟩ ⟨1⟩ crossed = .ok () s' ∧ s'.hasSite ⟨1⟩ = true) ∧
    (∃ i s', relocate ⟨0⟩ true 0 crossed = .ok i s' ∧ s'.hasSite ⟨1⟩ = true) ∧
    (∃ s', evict (.register X64.rdi) none crossed = .ok () s' ∧ s'.hasSite ⟨0⟩ = true) ∧
    (∃ n s', acquireTemporary RegisterSet.all crossed = .ok n s' ∧ s'.hasSite ⟨0⟩ = true) ∧
    ∃ e s', acquireTemporary (RegisterSet.single X64.rdi) crossed = .error e s' ∧
      s'.values = crossed.values := by
  have coherent : crossed.Coherent [] := by decide +kernel
  have first : crossed.IsValue ⟨0⟩ ∧ crossed.Live ⟨0⟩ ∧ crossed.hasSite ⟨0⟩ = true := by
    decide +kernel
  have second : crossed.IsValue ⟨1⟩ ∧ crossed.Live ⟨1⟩ ∧ crossed.hasSite ⟨1⟩ = true := by
    decide +kernel
  obtain ⟨placed, relocated, evicted, lent, refused⟩ := liveValuesSurvive coherent
  obtain ⟨⟨⟩, s₁, ok₁⟩ : Succeeds (place ⟨0⟩ ⟨1⟩) crossed := by decide +kernel
  obtain ⟨i, s₂, ok₂⟩ : Succeeds (relocate ⟨0⟩ true 0) crossed := by decide +kernel
  obtain ⟨⟨⟩, s₃, ok₃⟩ : Succeeds (evict (.register X64.rdi) none) crossed := by decide +kernel
  obtain ⟨n, s₄, ok₄⟩ : Succeeds (acquireTemporary RegisterSet.all) crossed := by decide +kernel
  have fails : ¬ Succeeds (acquireTemporary (RegisterSet.single X64.rdi)) crossed := by
    decide +kernel
  refine ⟨coherent, ⟨s₁, ok₁, ?_⟩, ⟨i, s₂, ok₂, ?_⟩, ⟨s₃, ok₃, ?_⟩, ⟨n, s₄, ok₄, ?_⟩, ?_⟩
  · exact placed _ _ s₁ first.1 ok₁ _ second.1 second.2.1 second.2.2
  · exact relocated ⟨0⟩ _ _ i s₂ first.1 ok₂ _ second.1 second.2.1 second.2.2
  · exact evicted _ s₃ ok₃ _ first.1 first.2.1 first.2.2
  · exact lent _ n s₄ ok₄ _ first.1 first.2.1 first.2.2
  · cases outcome : acquireTemporary (RegisterSet.single X64.rdi) crossed with
    | ok n s' => exact absurd ⟨n, s', outcome⟩ fails
    | error e s' => exact ⟨e, s', rfl, (refused _ e s' outcome).1⟩

def doubling : Build Unit := do
  discard (modifyGet (·.newValueAt .general (.ofRegister X64.rdi)))
  discard (modifyGet (·.newValue .general))
  linkRead none ⟨0⟩ (← probe ⟨0⟩ .any)
  linkRead none ⟨1⟩ (← probe ⟨1⟩ .any)
  place ⟨1⟩ ⟨0⟩
  modify (·.joinRing ⟨1⟩ ⟨0⟩)
  consumeRead none ⟨0⟩

def State.doubled : State :=
  after doubling ((State.empty (X64.describe {}) {} (.recording {})).start 1 0 0 4)

/- A site that is listed twice does not look like the last one, and is taken away all at once. -/
theorem doubledIsLost : doubled.WellFormed ∧ doubled.Owned ∧ doubled.Counted [] ∧
    doubled.Live ⟨1⟩ ∧ doubled.hasSite ⟨1⟩ = true ∧
    Succeeds (evict (.register X64.rdi) none) doubled ∧
    (after (evict (.register X64.rdi) none) doubled).hasSite ⟨1⟩ = false := by
  decide +kernel

end Lowering
