import Lowering.Proofs.Addressing
import Lowering.Proofs.Borrowing
import Lowering.Proofs.Calling
import Lowering.Proofs.Inheritance
import Lowering.Proofs.Owing
/-!
What is frozen and thawed, and what is emitted meanwhile.

A site is frozen while others are settled, and thawed afterwards. Thawing undoes what freezing did because
the site stands for the same resource by then: a register that was left open is chosen at most once, and
nothing else of a place ever changes. So a step is described by the sites that it leaves frozen, and the
steps that move values about leave none. They emit moves of whole words only.
-/
namespace Lowering

open State Build

variable {α β : Type} {P : Request → Prop} {word : SiteId} {loose : Prop} {s s' t u : State} {held more : List SiteId}
  {i j : SiteId} {id : ResourceId} {n : Register} {v : ValueId} {q : Request} {x : Build α} {f : α → Build β}

def State.freezes (s : State) (id : ResourceId) : Nat := (s.resources.get id).freezes

def State.holds (s : State) (held : List SiteId) (id : ResourceId) : Nat :=
  if (s.resources.get id).reserved then 0 else held.countP fun i => s.resource? i == some id

/-- A step that leaves frozen what the sites of a list stand for. Sites stay where they are, but for
registers that are left open: a `loose` step may choose them, and acquire words that were there. -/
structure State.Eases (loose : Prop) (held : List SiteId) (s s' : State) : Prop where
  geometry : s'.geometry = s.geometry
  sites : s.sites.size ≤ s'.sites.size
  place : ∀ i, s.IsSite i → (loose → (s.site i).isOpen = false) → (s'.site i).place = (s.site i).place
  bare : ¬ loose → ∀ i, s.IsSite i → (s.site i).referred = [] → (s'.site i).referred = []
  reserved : ∀ id, (s'.resources.get id).reserved = (s.resources.get id).reserved
  freezes : ∀ id, s'.freezes id ≤ s.freezes id + s'.holds held id

structure State.Utters (P : Request → Prop) (s s' : State) : Prop where
  records : s'.Records
  log : ∃ l, s'.emitter.log = s.emitter.log ++ l ∧ ∀ q ∈ l, P q

/-- A step that leaves frozen what the sites of a list stand for, and nothing else on loan. It may acquire `word`
once more while it is acquired. -/
structure State.Repays (word : SiteId) (loose : Prop) (held : List SiteId) (s s' : State) : Prop extends
    s.Eases loose held s' where
  loans : ∀ n, s.Free (.register n) → n ∉ (s'.site word).addressed → s'.loans n ≤ s.loans n + s'.leans held n

/-- A step that leaves frozen what the sites of a list stand for, leaves nothing else on loan, and emits requests of
one kind. -/
structure State.Loosens (P : Request → Prop) (word : SiteId) (loose : Prop) (held : List SiteId) (s s' : State) :
    Prop where
  repays : s.Repays word loose held s'
  utters : s.Records → s.Utters P s'

/-! Sites that stand for a resource. -/

theorem isSiteOfResource (stands : s.resource? i = some id) : s.IsSite i := by
  by_contra outside
  have default : s.site i = default := by simp [State.site, Array.getD, show ¬ i.index < s.sites.size from outside]
  rw [resource?, default] at stands
  cases stands

theorem shutOfResource (stands : s.resource? i = some id) : (s.site i).isOpen = false := by
  unfold resource? at stands
  cases site : s.site i with
  | register mask number =>
    rw [site] at stands
    cases number with
    | none => cases stands
    | some n => rfl
  | _ => rfl

namespace State.Eases

theorem isSite (h : s.Eases loose held s') (known : s.IsSite i) : s'.IsSite i := Nat.lt_of_lt_of_le known h.sites

theorem stands (h : s.Eases loose held s') (stands : s.resource? i = some id) : s'.resource? i = some id := by
  have place := h.place i (isSiteOfResource stands) fun _ => shutOfResource stands
  rw [resource?, h.geometry, Site.resourceOfPlace place]
  exact stands

theorem holds (h : s.Eases loose held s') (more : List SiteId) (id : ResourceId) : s.holds more id ≤ s'.holds more id := by
  unfold State.holds
  rw [h.reserved]
  split
  · exact le_rfl
  · refine List.countP_mono_left fun i _ same => ?_
    have known : s.resource? i = some id := by simpa using same
    rw [h.stands known, beq_self_eq_true]

theorem refl (s : State) : s.Eases loose [] s :=
  ⟨rfl, le_rfl, fun _ _ _ => rfl, fun _ _ _ bare => bare, fun _ => rfl, fun _ => Nat.le_add_right ..⟩

theorem mono {wide : Prop} (h : s.Eases loose held s') (wider : loose → wide) : s.Eases wide held s' :=
  ⟨h.geometry, h.sites, fun i known shut => h.place i known fun isLoose => shut (wider isLoose),
    fun strict => h.bare fun isLoose => strict (wider isLoose), h.reserved, h.freezes⟩

theorem addressed (h : s.Eases loose held s') (used : n ∈ (s.site i).addressed) :
    (s'.site i).place = (s.site i).place := by
  cases site : s.site i with
  | memory m acquired =>
    have known : s.IsSite i := by
      by_contra outside
      rw [show s.site i = default by
        simp [State.site, Array.getD, show ¬ i.index < s.sites.size from outside]] at site
      cases site
    exact site ▸ h.place i known fun _ => by rw [site]; rfl
  | _ => simp [site, Site.addressed] at used

theorem leanOf (h : s.Eases loose held s') (n : Register) (i : SiteId) : s.leanOf n i ≤ s'.leanOf n i := by
  by_cases used : n ∈ (s.site i).addressed
  · have place := h.addressed used
    have same : s'.resource? i = s.resource? i := by rw [resource?, h.geometry, Site.resourceOfPlace place, resource?]
    rw [State.leanOf, State.leanOf, same, Site.addressedOfPlace place]
  · rw [State.leanOf, List.count_eq_zero.mpr used, ite_self]
    exact Nat.zero_le _

theorem leans (h : s.Eases loose held s') (more : List SiteId) (n : Register) : s.leans more n ≤ s'.leans more n := by
  induction more with
  | nil => exact le_rfl
  | cons i rest ih =>
    rw [leansCons, leansCons]
    exact Nat.add_le_add (h.leanOf n i) ih

end State.Eases

theorem holdsAppend (s : State) (held more : List SiteId) (id : ResourceId) :
    s.holds (held ++ more) id = s.holds held id + s.holds more id := by
  unfold State.holds
  split
  · rfl
  · exact List.countP_append

theorem holdsCons (s : State) (i : SiteId) (held : List SiteId) (id : ResourceId) :
    s.holds (i :: held) id = s.holds held id + s.holds [i] id := by
  rw [← List.singleton_append, holdsAppend, Nat.add_comm]

theorem holdsOne (s : State) (i : SiteId) (id : ResourceId) :
    s.holds [i] id = if (s.resources.get id).reserved = false ∧ s.resource? i = some id then 1 else 0 := by
  unfold State.holds
  by_cases reserved : (s.resources.get id).reserved = true
  · simp [reserved]
  · by_cases stands : s.resource? i = some id
    · simp [reserved, stands]
    · simp [reserved, stands]

theorem holdsPerm (same : held.Perm more) (s : State) (id : ResourceId) : s.holds held id = s.holds more id := by
  unfold State.holds
  split
  · rfl
  · exact same.countP_eq _

namespace State.Eases

theorem trans (first : s.Eases loose held t) (second : t.Eases loose more s') : s.Eases loose (held ++ more) s' := by
  refine ⟨second.geometry.trans first.geometry, first.sites.trans second.sites, fun i known shut => ?_,
    fun strict i known bare => second.bare strict i (first.isSite known) (first.bare strict i known bare),
    fun id => (second.reserved id).trans (first.reserved id), fun id => ?_⟩
  · have place := first.place i known shut
    refine (second.place i (first.isSite known) fun chosen => ?_).trans place
    exact (isOpenOfPlace place).trans (shut chosen)
  · have before := first.freezes id
    have later := second.freezes id
    have kept := second.holds held id
    rw [holdsAppend]
    omega

instance : Std.Refl (State.Eases loose []) := ⟨refl⟩

instance : Trans (State.Eases loose []) (State.Eases loose []) (State.Eases loose []) := ⟨trans⟩

theorem perm (h : s.Eases loose held s') (same : held.Perm more) : s.Eases loose more s' :=
  ⟨h.geometry, h.sites, h.place, h.bare, h.reserved, fun id => holdsPerm same s' id ▸ h.freezes id⟩

end State.Eases

namespace State.Repays

theorem refl (s : State) : s.Repays word loose [] s := ⟨.refl s, fun _ _ _ => Nat.le_add_right ..⟩

theorem trans (first : s.Repays word loose held t) (second : t.Repays word loose more s') :
    s.Repays word loose (held ++ more) s' := by
  refine ⟨first.toEases.trans second.toEases, fun n free spared => ?_⟩
  have spared' : n ∉ (t.site word).addressed := fun used =>
    spared (Site.addressedOfPlace (second.addressed used) ▸ used)
  have before := first.loans n free spared'
  have later := second.loans n ((first.reserved _).trans free) spared
  have kept := second.leans held n
  rw [leansAppend]
  omega

instance : Std.Refl (State.Repays word loose []) := ⟨refl⟩

instance : Trans (State.Repays word loose []) (State.Repays word loose []) (State.Repays word loose []) := ⟨trans⟩

theorem mono {wide : Prop} (h : s.Repays word loose held s') (wider : loose → wide) : s.Repays word wide held s' :=
  ⟨h.toEases.mono wider, h.loans⟩

theorem perm (h : s.Repays word loose held s') (same : held.Perm more) : s.Repays word loose more s' :=
  ⟨h.toEases.perm same, fun n free spared => leansPerm same s' n ▸ h.loans n free spared⟩

end State.Repays

theorem State.Utters.trans (first : s.Utters P t) (second : t.Utters P s') : s.Utters P s' := by
  obtain ⟨l, log, all⟩ := first.log
  obtain ⟨l', log', all'⟩ := second.log
  refine ⟨second.records, l ++ l', by rw [log', log, List.append_assoc], fun q member => ?_⟩
  exact (List.mem_append.mp member).elim (all q) (all' q)

theorem State.Utters.quiet (records : s.Records) (emitter : s'.emitter = s.emitter) : s.Utters P s' :=
  ⟨records.quiet emitter, [], by rw [emitter, List.append_nil], by simp⟩

namespace State.Loosens

theorem refl (s : State) : s.Loosens P word loose [] s := ⟨.refl s, fun records => .quiet records rfl⟩

theorem trans (first : s.Loosens P word loose held t) (second : t.Loosens P word loose more s') :
    s.Loosens P word loose (held ++ more) s' :=
  ⟨first.repays.trans second.repays, fun records =>
    (first.utters records).trans (second.utters (first.utters records).records)⟩

theorem before (first : s.Loosens P word loose [] t) (second : t.Loosens P word loose held s') : s.Loosens P word loose held s' :=
  first.trans second

theorem after (first : s.Loosens P word loose held t) (second : t.Loosens P word loose [] s') : s.Loosens P word loose held s' := by
  have whole := first.trans second
  rwa [List.append_nil] at whole

theorem eases (h : s.Loosens P word loose held s') : s.Eases loose held s' := h.repays.toEases

theorem widen {wide : Prop} (h : s.Loosens P word loose held s') (wider : loose → wide) : s.Loosens P word wide held s' :=
  ⟨h.repays.mono wider, h.utters⟩

theorem mono (h : s.Loosens P word False held s') : s.Loosens P word loose held s' := h.widen False.elim

theorem perm (h : s.Loosens P word loose held s') (same : held.Perm more) : s.Loosens P word loose more s' :=
  ⟨h.repays.perm same, h.utters⟩

instance : Std.Refl (State.Loosens P word loose []) := ⟨refl⟩

instance : Trans (State.Loosens P word loose []) (State.Loosens P word loose []) (State.Loosens P word loose []) := ⟨trans⟩

end State.Loosens

/-! Freezing and thawing. -/

theorem easesFreeze (s : State) (i : SiteId) : s.Eases loose [i] (s.freezeSite i) := by
  have rest := freezeSiteEq (s := s) i
  have reserved : ∀ id, ((s.freezeSite i).resources.get id).reserved = (s.resources.get id).reserved := by
    intro id
    rw [rest]
    cases stands : s.resource? i with
    | some r => exact (ResourceTable.freezeAdjusts s.resources r).same (·.reserved) (fun _ => rfl) id
    | none => exact (ResourceTable.steadyReferAll _ _).reserved id
  refine ⟨by rw [rest]; rfl, by rw [rest]; exact le_rfl, fun k _ _ => by rw [rest]; rfl,
    fun _ k _ bare => by rw [rest]; exact bare, reserved, fun id => ?_⟩
  have stays : (s.freezeSite i).resource? i = s.resource? i := by
    rw [rest]
    rfl
  rw [holdsOne, reserved, stays, State.freezes, State.freezes, rest]
  cases stands : s.resource? i with
  | none => exact ((ResourceTable.steadyReferAll _ _).freezes id).le.trans (Nat.le_add_right ..)
  | some r =>
    dsimp only [modifyResources]
    rw [(ResourceTable.freezeAdjusts s.resources r).get]
    split
    · rename_i here
      obtain ⟨rfl, -, free⟩ := here
      simp [free]
    · exact Nat.le_add_right ..

theorem easesThaw (h : s.Eases loose (i :: held) t) : s.Eases loose held (t.thawSite i) := by
  have rest := thawSiteEq (s := t) i
  have reserved : ∀ id, ((t.thawSite i).resources.get id).reserved = (t.resources.get id).reserved := by
    intro id
    rw [rest]
    cases stands : t.resource? i with
    | some r => exact (ResourceTable.thawAdjusts t.resources r).same (·.reserved) (fun _ => rfl) id
    | none => exact (ResourceTable.steadyUnreferAll _ _).reserved id
  refine ⟨by rw [rest]; exact h.geometry, by rw [rest]; exact h.sites, fun k known shut => ?_,
    fun strict k known bare => by rw [rest]; exact h.bare strict k known bare,
    fun id => (reserved id).trans (h.reserved id), fun id => ?_⟩
  · rw [rest]
    exact h.place k known shut
  · have same : (t.thawSite i).holds held id = t.holds held id := by
      unfold State.holds
      rw [reserved, rest]
      rfl
    have frozen := h.freezes id
    rw [holdsCons] at frozen
    rw [same]
    have less : (t.thawSite i).freezes id ≤ t.freezes id - t.holds [i] id := by
      rw [holdsOne, State.freezes, State.freezes, rest]
      cases stands : t.resource? i with
      | none =>
        rw [if_neg (by simp), Nat.sub_zero]
        exact ((ResourceTable.steadyUnreferAll _ _).freezes id).le
      | some r =>
        dsimp only [modifyResources]
        rw [(ResourceTable.thawAdjusts t.resources r).get]
        by_cases has : t.resources.Has id
        · by_cases here : id = r ∧ (t.resources.get id).reserved = false
          · obtain ⟨rfl, free⟩ := here
            simp [has, free]
          · have apart : ¬ ((t.resources.get id).reserved = false ∧ some r = some id) :=
              fun ⟨free, same⟩ => here ⟨(Option.some.inj same).symm, free⟩
            rw [if_neg apart, if_neg fun ⟨same, _, free⟩ => here ⟨same, same ▸ free⟩]
            exact le_rfl
        · rw [if_neg fun ⟨same, known, _⟩ => has (same ▸ known), ResourceTable.getOutside has]
          exact Nat.zero_le _
    omega

theorem repaysFreeze (s : State) (i : SiteId) : s.Repays word loose [i] (s.freezeSite i) := by
  refine ⟨easesFreeze s i, fun n free _ => ?_⟩
  have same : (s.freezeSite i).leanOf n i = s.leanOf n i := by
    rw [freezeSiteEq]
    rfl
  rw [leansCons, same]
  exact loansFreeze free i

theorem repaysThaw (h : s.Repays word loose (i :: held) t) : s.Repays word loose held (t.thawSite i) := by
  refine ⟨easesThaw h.toEases, fun n free spared => ?_⟩
  have rest := thawSiteEq (s := t) i
  have same : (t.thawSite i).leans held n = t.leans held n := by
    rw [rest]
    rfl
  have owed := h.loans n free (by rw [rest] at spared; exact spared)
  have thawed := loansThaw (n := n) ((h.reserved _).trans free) i
  rw [leansCons] at owed
  rw [same]
  omega

theorem loosensFreeze (s : State) (i : SiteId) : s.Loosens P word loose [i] (s.freezeSite i) :=
  ⟨repaysFreeze s i, fun records => .quiet records (by rw [freezeSiteRest])⟩

theorem State.Loosens.thaw (h : s.Loosens P word loose (i :: held) t) : s.Loosens P word loose held (t.thawSite i) :=
  ⟨repaysThaw h.repays, fun records => (h.utters records).trans (.quiet (h.utters records).records (emitterThaw i))⟩

theorem State.Loosens.thawAll (h : s.Loosens P word loose (held ++ more) t) : s.Loosens P word loose more (t.thawSites held) := by
  induction held generalizing more with
  | nil => exact h
  | cons i rest ih => exact (ih (h.perm (List.perm_middle.symm))).thaw

theorem State.Loosens.frozen (h : (s.freezeSite i).Loosens P word loose held t) : s.Loosens P word loose held (t.thawSite i) :=
  ((loosensFreeze s i).trans h).thaw

/-! Steps that do neither. -/

namespace State

theorem loosensPlaces (geometry : s'.geometry = s.geometry) (sites : s.sites.size ≤ s'.sites.size)
    (place : ∀ i, s.IsSite i → (s'.site i).place = (s.site i).place) (steady : s.resources.Steady s'.resources)
    (bare : ∀ i, s.IsSite i → (s.site i).referred = [] → (s'.site i).referred = [])
    (loans : ∀ n, s.Free (.register n) → s'.loans n ≤ s.loans n) (emitter : s'.emitter = s.emitter) :
    s.Loosens P word loose [] s' :=
  ⟨⟨⟨geometry, sites, fun i known _ => place i known, fun _ => bare, steady.reserved,
    fun id => (steady.freezes id).le.trans (Nat.le_add_right ..)⟩, fun n free _ => (loans n free).trans (Nat.le_add_right ..)⟩,
    fun records => .quiet records emitter⟩

theorem loosensStill (geometry : s'.geometry = s.geometry) (sites : s'.sites = s.sites)
    (resources : s'.resources = s.resources) (emitter : s'.emitter = s.emitter) : s.Loosens P word loose [] s' := by
  have site : ∀ i, s'.site i = s.site i := fun i => by rw [State.site, State.site, sites]
  exact loosensPlaces geometry (by rw [sites]) (fun i _ => by rw [site]) (resources.symm ▸ .refl _)
    (fun i _ bare => by rw [site, bare]) (fun n _ => (loansStill resources sites).le) emitter

theorem loosensKeeps (keeps : Keeps s s') (bare : ∀ i, s.IsSite i → (s.site i).referred = [] → (s'.site i).referred = [])
    (loans : ∀ n, s.Free (.register n) → s'.loans n ≤ s.loans n) (emitter : s'.emitter = s.emitter) :
    s.Loosens P word loose [] s' :=
  loosensPlaces keeps.geometry keeps.sites keeps.place keeps.resources bare loans emitter

theorem loosensFoldl {xs : List α} {f : State → α → State} (round : ∀ (s : State) x, s.Loosens P word loose [] (f s x)) :
    s.Loosens P word loose [] (xs.foldl f s) := by
  induction xs generalizing s with
  | nil => exact .refl s
  | cons x rest ih => exact (round s x).trans ih

theorem loosensReads {reads : ReadTable} : s.Loosens P word loose [] { s with reads } := loosensStill rfl rfl rfl rfl

theorem loosensCount (f : Statistics → Statistics) : s.Loosens P word loose [] (s.count f) := loosensStill rfl rfl rfl rfl

theorem loosensNewSite (x : Site) : s.Loosens P word loose [] (s.newSite x).2 :=
  loosensKeeps (s.keepsNewSite x) (fun i known bare => by rw [s.siteNewOld x known, bare]) (fun _ _ => loansNew x) rfl

theorem loosensModifyValue (v : ValueId) (f : Value → Value) : s.Loosens P word loose [] (s.modifyValue v f) :=
  loosensStill rfl rfl rfl rfl

theorem loosensSetOwner (id : ResourceId) (owner : Option Owner) :
    s.Loosens P word loose [] (s.modifyResources (·.setOwner id owner)) := by
  refine loosensPlaces rfl le_rfl (fun _ _ => rfl) (.setOwner ..) (fun _ _ bare => bare) (fun n _ => ?_) rfl
  have same : (s.modifyResources (·.setOwner id owner)).references n = s.references n := by
    show ((s.resources.setOwner id owner).get (.register n)).references = _
    rw [ResourceTable.getSetOwner]
    split
    · rename_i here
      rw [← here.1]
      rfl
    · rfl
  rw [loans, same]
  exact le_rfl

theorem loosensRelease (i : SiteId) : s.Loosens P word loose [] (s.release i) := by
  refine loosensKeeps (keepsRelease s i) (fun k _ bare => ?_) (fun _ free => loansRelease free i) (by rw [releaseEq]; rfl)
  rw [releaseSite]
  split
  · exact referredPlace _
  · exact bare

theorem loosensDetach (o : Owner) : s.Loosens P word loose [] (s.detach o) :=
  (loosensRelease o.site).trans (loosensModifyValue ..)

theorem loosensRemove (v : ValueId) (i : SiteId) : s.Loosens P word loose [] (s.removeSite v i) := by
  unfold removeSite
  split
  · exact loosensDetach _
  · exact .refl s

theorem loosensClear (v : ValueId) : s.Loosens P word loose [] (s.clearSites v) := loosensFoldl fun _ => loosensDetach

theorem loosensClean (v : ValueId) (popIndex : Nat) : s.Loosens P word loose [] (s.cleanValue v popIndex) :=
  loosensFoldl fun _ => loosensDetach

theorem loosensPending (r : Option ReadId) : s.Loosens P word loose [] (s.isPending r).2 := by
  cases r with
  | none => exact .refl s
  | some r => exact loosensReads

theorem loosensFirstPending (vs : List ValueId) : s.Loosens P word loose [] (s.firstPending vs).2 := by
  induction vs generalizing s with
  | nil => exact .refl s
  | cons v rest ih =>
    unfold firstPending
    dsimp only
    split
    · exact loosensPending _
    · exact (loosensPending _).trans ih

theorem loosensLiveRead (v : ValueId) : s.Loosens P word loose [] (s.liveRead? v).2 := loosensFirstPending _

theorem loosensIsLive (v : ValueId) : s.Loosens P word loose [] (s.isLive v).2 := loosensLiveRead v

theorem loosensLeave (v : ValueId) : s.Loosens P word loose [] (s.leaveRing v).2 := by
  unfold leaveRing
  dsimp only
  split <;> exact loosensStill rfl rfl rfl rfl

theorem loosensSuccessorMask (r : ReadId) (mask : SiteMask) : s.Loosens P word loose [] (s.successorMask? r mask).2 := by
  unfold successorMask?
  split
  · exact .refl s
  · dsimp only
    split
    · exact loosensLiveRead _
    · exact (loosensLiveRead _).trans loosensReads

theorem loosensChooseSource (r : ReadId) (q : SourceQuery) : s.Loosens P word loose [] (s.chooseSource r q).2 := by
  unfold chooseSource
  dsimp only
  split
  · exact loosensReads
  · exact .refl s

end State

/-! Work that leaves nothing frozen if it ends well. -/

structure Build.Loosens (P : Request → Prop) (word : SiteId) (loose : Prop) (act : Build α) : Prop where
  holds : ∀ {s a s'}, act s = .ok a s' → s.Loosens P word loose [] s'

namespace Build.Loosens

variable {y : Build α}

theorem mono (loosens : x.Loosens P word False) : x.Loosens P word loose := ⟨fun ok => (loosens.holds ok).mono⟩

theorem throw {e : Error} : (throw e : Build α).Loosens P word loose := ⟨fun ok => (throwOk.mp ok).elim⟩

theorem pure {a : α} : (pure a : Build α).Loosens P word loose := ⟨fun ok => (pureOk.mp ok).2 ▸ .refl _⟩

theorem get : (get : Build State).Loosens P word loose := ⟨fun ok => (getOk.mp ok).2 ▸ .refl _⟩

theorem modifyGet {f : State → α × State} (related : ∀ s : State, s.Loosens P word loose [] (f s).2) :
    (modifyGet f : Build α).Loosens P word loose := ⟨fun {s _ _} ok => by
  have same := modifyGetOk.mp ok
  have ended := related s
  rwa [same] at ended⟩

theorem modify {f : State → State} (related : ∀ s : State, s.Loosens P word loose [] (f s)) :
    (modify f : Build PUnit).Loosens P word loose := modifyGet related

theorem bind (first : x.Loosens P word loose) (rest : ∀ a, (f a).Loosens P word loose) : (x >>= f).Loosens P word loose := by
  constructor
  intro s b s' ok
  obtain ⟨a, t, began, ended⟩ := bindOk.mp ok
  exact (first.holds began).trans ((rest a).holds ended)

theorem ite {c : Prop} [Decidable c] (yes : x.Loosens P word loose) (no : y.Loosens P word loose) :
    (if c then x else y).Loosens P word loose := by
  split
  · exact yes
  · exact no

theorem map {g : α → β} (loosens : x.Loosens P word loose) : (g <$> x).Loosens P word loose := by
  constructor
  intro s b s' ok
  obtain ⟨a, ran, -⟩ := mapOk.mp ok
  exact loosens.holds ran

theorem discard (loosens : x.Loosens P word loose) : (discard x).Loosens P word loose := loosens.map

theorem forM {f : α → Build PUnit} {xs : List α} (round : ∀ x, (f x).Loosens P word loose) : (xs.forM f).Loosens P word loose := by
  induction xs with
  | nil => exact pure
  | cons x rest ih => exact bind (round x) fun _ => ih

theorem frozen (loosens : x.Loosens P word loose) : (whileFrozen i x).Loosens P word loose := by
  constructor
  intro s a s' ok
  obtain ⟨t, ran, rfl⟩ := whileFrozenOk.mp ok
  exact (loosens.holds ran).frozen

end Build.Loosens

/-! Emission. -/

theorem repaysLent (s : State) (r : Register) :
    s.Repays word loose [] ((s.modifyResources (·.refer (.register r))).releaseTemporary r) := by
  have steady : s.resources.Steady ((s.modifyResources (·.refer (.register r))).releaseTemporary r).resources :=
    (ResourceTable.Steady.refer ..).trans (.unrefer ..)
  exact ⟨⟨rfl, le_rfl, fun _ _ _ => rfl, fun _ _ _ bare => bare, steady.reserved,
    fun id => (steady.freezes id).le.trans (Nat.le_add_right ..)⟩,
    fun n free _ => (loansLent free r).trans (Nat.le_add_right ..)⟩

theorem repaysLending : X64.ScratchSource.Within (State.Repays word loose []) temporaries := by
  have repays : ∀ {s t : State}, s.Loosens (fun _ => True) word loose [] t → s.Repays word loose [] t :=
    State.Loosens.repays
  exact temporariesSettle (fun s v => repays (loosensIsLive v)) (fun s f => repays (loosensCount f))
    (fun s v i => repays (loosensRemove v i)) repaysLent

theorem loosensEmit (fits : P q) : (emit q).Loosens P word loose := by
  have free : ∀ (s : State) (emitter : Emitter), s.Repays word loose [] { s with emitter } := fun s emitter =>
    ⟨⟨rfl, le_rfl, fun _ _ _ => rfl, fun _ _ _ bare => bare, fun _ => rfl, fun _ => Nat.le_add_right ..⟩,
      fun n _ _ => (loansStill rfl rfl).le.trans (Nat.le_add_right ..)⟩
  have repays : Within (State.Repays word loose []) (emit q) := .emit free (X64.emitWithin repaysLending q)
  refine ⟨fun ok => ⟨repays.holds ok, fun records => ?_⟩⟩
  obtain ⟨-, records', log⟩ := emitRecords records ok
  exact ⟨records', [q], log, by simpa using fits⟩

theorem loosensLive (v : ValueId) : (live v).Loosens P word loose := .modifyGet fun _ => loosensIsLive v

theorem loosensOperandOf (i : SiteId) : (operandOf i).Loosens P word loose := by
  refine .bind .get fun s => ?_
  split
  · exact .pure
  · exact .throw

theorem loosensEmitBetween {op : Binary} {aSize bSize : Nat} (fits : ∀ a b, P (.binary op aSize a bSize b))
    (k j : SiteId) : (emitBetween op aSize k bSize j).Loosens P word loose :=
  .bind (loosensOperandOf k) fun _ => .bind (loosensOperandOf j) fun _ => loosensEmit (fits ..)

theorem loosensChooseTarget (r : ReadId) (strict : Bool) (reserve : Nat) (moved : Option ValueId) :
    (chooseTarget r strict reserve moved).Loosens P word loose := by
  unfold chooseTarget
  refine .bind .get fun s => .bind (.modifyGet fun _ => loosensReads) fun mask => ?_
  refine .bind (.modifyGet fun _ => loosensSuccessorMask ..) fun narrower => .bind .get fun s => ?_
  exact .ite .pure (.ite .pure (.ite (.ite .throw .pure) (.ite .throw .pure)))

theorem loosensChooseSite (r : ReadId) (strict : Bool) (reserve : Nat) (moved : Option ValueId) :
    (chooseSite r strict reserve moved).Loosens P word loose := by
  unfold chooseSite
  refine .bind (loosensChooseTarget ..) fun t => ?_
  split
  · exact .bind (.modify fun _ => loosensCount _) fun _ => .modifyGet fun _ => loosensNewSite _
  · exact .modifyGet fun _ => loosensNewSite _

theorem chooseSiteFresh {r : ReadId} {strict : Bool} {reserve : Nat} {moved : Option ValueId}
    (ok : chooseSite r strict reserve moved s = .ok i s') : ¬ s.IsSite i ∧ (s'.site i).referred = [] := by
  have made : ∀ (t : Target) (u : State), s.sites.size ≤ u.sites.size →
      (modifyGet fun s => s.newSite (t.toSite s.geometry) : Build SiteId) u = .ok i s' →
      ¬ s.IsSite i ∧ (s'.site i).referred = [] := by
    intro t u grown ok
    have same := modifyGetOk.mp ok
    rw [Prod.ext_iff] at same
    obtain ⟨rfl, rfl⟩ := same
    refine ⟨Nat.not_lt.mpr grown, ?_⟩
    rw [siteNewSelf, Target.toSite]
    cases t.resource <;> rfl
  unfold chooseSite at ok
  obtain ⟨t, u, targeted, ok⟩ := bindOk.mp ok
  have chosen : s.Loosens (fun _ => True) ⟨0⟩ True [] u := (loosensChooseTarget ..).holds targeted
  cases target : t.resource with
  | slot k =>
    simp only [target] at ok
    obtain ⟨⟨⟩, u', counted, ok⟩ := bindOk.mp ok
    rw [modifyOk.mp counted] at ok
    exact made t (u.count (·.countSpill)) chosen.eases.sites ok
  | register r =>
    simp only [target] at ok
    exact made t u chosen.eases.sites ok

theorem loosensProbe (v : ValueId) (mask : SiteMask) : (probe v mask).Loosens P word loose := .modifyGet fun _ => loosensReads

theorem loosensSettleRegister (v : ValueId) (mask : RegisterSet) (number : Option Register) :
    (settleRegister v mask number).Loosens P word loose := by
  cases number with
  | some n => exact .pure
  | none =>
    refine .bind .get fun s => ?_
    dsimp only
    split
    · exact .pure
    · exact .throw

/-! Taking what a site stands for. -/

theorem siteOutside (outside : ¬ s.IsSite i) : s.site i = default := by
  simp [State.site, Array.getD, show ¬ i.index < s.sites.size from outside]

structure State.Acquires (P : Request → Prop) (word i : SiteId) (s s' : State) : Prop where
  loosens : s.Loosens P word True [] s'
  others : ∀ k, k ≠ i → s.IsSite k → (s'.site k).place = (s.site k).place ∧
    ((s.site k).referred = [] → (s'.site k).referred = [])

namespace State.Acquires

theorem strict (h : s.Loosens P word False [] s') : s.Acquires P word i s' :=
  ⟨h.mono, fun k _ known => ⟨h.eases.place k known False.elim, h.eases.bare not_false k known⟩⟩

theorem before (first : s.Loosens P word False [] t) (second : t.Acquires P word i s') : s.Acquires P word i s' := by
  refine ⟨first.mono.trans second.loosens, fun k apart known => ?_⟩
  obtain ⟨place, bare⟩ := second.others k apart (first.eases.isSite known)
  exact ⟨place.trans (first.eases.place k known False.elim), fun none => bare (first.eases.bare not_false k known none)⟩

theorem modifyValue (h : s.Acquires P word i s') (v : ValueId) (f : Value → Value) :
    s.Acquires P word i (s'.modifyValue v f) := ⟨h.loosens.trans (loosensModifyValue v f), h.others⟩

theorem fresh (h : t.Acquires P word i s') (began : s.Loosens P word loose held t) (new : ¬ s.IsSite i) :
    s.Loosens P word loose held s' := by
  have begins : s.Loosens P word True held t := began.widen fun _ => trivial
  have whole := begins.after h.loosens
  have apart : ∀ k, s.IsSite k → k ≠ i := fun k known same => new (same ▸ known)
  refine ⟨⟨⟨whole.eases.geometry, whole.eases.sites, fun k known shut => ?_, fun strict k known bare => ?_,
    whole.eases.reserved, whole.eases.freezes⟩, whole.repays.loans⟩, whole.utters⟩
  · exact (h.others k (apart k known) (began.eases.isSite known)).1.trans (began.eases.place k known shut)
  · exact (h.others k (apart k known) (began.eases.isSite known)).2 (began.eases.bare strict k known bare)

end State.Acquires

theorem acquiresRegister {mask : RegisterSet} (here : s.site i = .register mask none) (n : Register) :
    s.Acquires P word i (s.setSite i (.register mask (some n))) := by
  have others : ∀ k, k ≠ i → (s.setSite i (.register mask (some n))).site k = s.site k := fun k apart => by
    rw [siteSet, if_neg fun both => apart both.1]
  have eases : s.Eases True [] (s.setSite i (.register mask (some n))) := by
    refine ⟨rfl, by simp [setSite], fun k known shut => ?_, fun never => (never trivial).elim, fun _ => rfl,
      fun _ => Nat.le_add_right ..⟩
    have apart : k ≠ i := by
      rintro rfl
      have shut := shut trivial
      rw [here] at shut
      cases shut
    rw [others k apart]
  refine ⟨⟨⟨eases, fun n' _ _ => ?_⟩, fun records => .quiet records rfl⟩, fun k apart _ => ?_⟩
  · by_cases known : s.IsSite i
    · rw [loansSet known (by rw [here]; rfl)]
      exact (Nat.sub_le ..).trans (Nat.le_add_right ..)
    · rw [siteOutside known] at here
      cases here
  · rw [others k apart]
    exact ⟨rfl, id⟩

theorem acquiresWord {m : MemoryRef} {acquired : Bool} (here : s.site i = .memory m acquired)
    (bare : acquired = false ∨ i = word) (taken : (s.referTo m).Loosens P word False [] t) :
    s.Acquires P word i (t.setSite i (.memory m true)) := by
  have known : s.IsSite i := by
    by_contra outside
    rw [siteOutside outside] at here
    cases here
  have place : (t.site i).place = .memory m false := by
    rw [taken.eases.place i known False.elim, show (s.referTo m).site i = s.site i from rfl, here]
    rfl
  have known' : t.IsSite i := taken.eases.isSite known
  have sites : ∀ k, (t.setSite i (.memory m true)).site k = if k = i then .memory m true else t.site k := fun k => by
    simp only [siteSet, known', and_true]
  have places : ∀ k, s.IsSite k → ((t.setSite i (.memory m true)).site k).place = (s.site k).place := by
    intro k there
    rw [sites]
    split
    · rename_i same
      rw [same, here]
      rfl
    · exact taken.eases.place k there False.elim
  refine ⟨⟨⟨⟨taken.eases.geometry, ?_, fun k there _ => places k there, fun never => (never trivial).elim, fun id => ?_,
    fun id => ?_⟩, fun n free spared => ?_⟩, fun records => ?_⟩, fun k apart there => ⟨places k there, fun none => ?_⟩⟩
  · have grown : s.sites.size ≤ t.sites.size := taken.eases.sites
    simpa [setSite] using grown
  · exact (taken.eases.reserved id).trans ((ResourceTable.steadyReferAll m.registers _).reserved id)
  · have same : (s.referTo m).freezes id = s.freezes id := (ResourceTable.steadyReferAll m.registers _).freezes id
    have kept := taken.eases.freezes id
    rw [same] at kept
    exact kept.trans (by simp [State.holds])
  · have kept : ((t.setSite i (.memory m true)).site word).place = (t.site word).place := by
      rw [sites]
      split
      · rename_i same
        rw [same, place]
        rfl
      · rfl
    have spared' : n ∉ (t.site word).addressed := fun used => spared (Site.addressedOfPlace kept ▸ used)
    have none : (t.site i).referred.count n = 0 := by
      rcases bare with idle | rfl
      · have bare : (s.site i).referred = [] := by rw [here, idle]; rfl
        rw [taken.eases.bare not_false i known bare, List.count_nil]
      · exact List.count_eq_zero.mpr fun used => spared' (referredAddressed used)
    have referred : (s.referTo m).loans n ≤ s.loans n + m.registers.count n := loansReferTo free m
    have settled := taken.repays.loans n (((ResourceTable.steadyReferAll m.registers _).reserved _).trans free) spared'
    rw [loansSet known' none]
    have whole := settled.trans (Nat.add_le_add_right referred _)
    simp only [State.leans, List.map_nil, List.sum_nil, Nat.add_zero] at whole ⊢
    exact Nat.sub_le_of_le_add whole
  · have uttered : (s.referTo m).Utters P t := taken.utters (records.quiet rfl)
    obtain ⟨records', l, log, all⟩ := uttered
    exact ⟨records'.quiet rfl, l, log, all⟩
  · rw [sites, if_neg apart]
    exact taken.eases.bare not_false k there none

structure Build.Fills (P : Request → Prop) (word i : SiteId) (act : Build α) : Prop where
  holds : ∀ {s a s'}, (s.site i).referred = [] → act s = .ok a s' → s.Loosens P word True [] s'

namespace Build.Fills

theorem bind (first : x.Fills P word i) (rest : ∀ a, (f a).Loosens P word True) : (x >>= f).Fills P word i := by
  constructor
  intro s b s' bare ok
  obtain ⟨a, t, began, ended⟩ := bindOk.mp ok
  exact (first.holds bare began).trans ((rest a).holds ended)

theorem frozen (fills : x.Fills P word i) : (whileFrozen j x).Fills P word i := by
  constructor
  intro s a s' bare ok
  obtain ⟨t, ran, rfl⟩ := whileFrozenOk.mp ok
  exact (fills.holds (by rw [freezeSiteRest]; exact bare) ran).frozen

theorem adjust {v : ValueId} {g : Value → Value} {rest : Build α} (fills : rest.Fills P word i) :
    (do modify fun s => s.modifyValue v g; rest : Build α).Fills P word i := by
  constructor
  intro s a s' bare ok
  rw [modifyBind] at ok
  exact (loosensModifyValue v g).trans (fills.holds bare ok)

end Build.Fills

theorem loosensCreating {y : Site} {f : SiteId → Build α} (bare : y.referred = [])
    (rest : ∀ i, (f i).Fills P word i) : (modifyGet (·.newSite y) >>= f).Loosens P word True := by
  constructor
  intro s a s' ok
  rw [modifyGetBind] at ok
  refine (loosensNewSite y).trans ((rest _).holds ?_ ok)
  rw [siteNewSelf]
  exact bare

theorem loosensChoosing {r : ReadId} {strict : Bool} {reserve : Nat} {moved : Option ValueId}
    {f : SiteId → Build α} (rest : ∀ i, (f i).Fills P word i) :
    (chooseSite r strict reserve moved >>= f).Loosens P word True := by
  constructor
  intro s a s' ok
  obtain ⟨i, t, chosen, ok⟩ := bindOk.mp ok
  exact ((loosensChooseSite ..).holds chosen).trans ((rest i).holds (chooseSiteFresh chosen).2 ok)

/-! Moving values about. -/

section

variable (moves : ∀ a b, P (.binary .move wordSize a wordSize b))

include moves

theorem loosensEmitMove (src dst : SiteId) : (emitMove src dst).Loosens P word loose :=
  .bind (.modify fun _ => loosensCount _) fun _ => .frozen (.frozen (loosensEmitBetween moves ..))

section Evict

variable {evict : Evict} (leaves : ∀ id thief, (evict id thief).Loosens P word False)

include leaves

omit moves in
theorem loosensAcquireResource (id : ResourceId) (o : Owner) : (acquireResource evict id o).Loosens P word False := by
  have own : (modify (·.modifyResources (·.setOwner id (some o))) : Build PUnit).Loosens P word False :=
    .modify fun _ => loosensSetOwner ..
  unfold acquireResource
  refine .bind .get fun s => .ite .pure (.ite ?_ own)
  exact .bind (leaves ..) fun _ => own

omit moves in
theorem acquiresWith (bare : (s.site i).referred = [] ∨ i = word) (ok : acquireWith evict v i s = .ok () s') :
    s.Acquires P word i s' := by
  rw [acquireWith, getBind] at ok
  cases site : s.site i with
  | constant p =>
    rw [site] at ok
    exact (pureOk.mp ok).2 ▸ .strict (.refl s)
  | address p =>
    rw [site] at ok
    exact (pureOk.mp ok).2 ▸ .strict (.refl s)
  | register mask number =>
    rw [site] at ok
    obtain ⟨n, t, chosen, ok⟩ := bindOk.mp ok
    obtain ⟨⟨⟩, t', taken, placed⟩ := bindOk.mp ok
    have began : s.Loosens P word False [] t' :=
      ((loosensSettleRegister v mask number).holds chosen).trans ((loosensAcquireResource leaves _ _).holds taken)
    rw [modifyOk.mp placed]
    have known : s.IsSite i := by
      by_contra outside
      rw [siteOutside outside] at site
      cases site
    have here : t'.site i = .register mask number := by
      have place := began.eases.place i known False.elim
      rw [site] at place
      cases later : t'.site i <;> simp_all [Site.place]
    cases number with
    | some m =>
      rw [← (pureOk.mp chosen).1, ← here, setSiteSame]
      exact .strict began
    | none => exact .before began (acquiresRegister here n)
  | memory m acquired =>
    rw [site] at ok
    dsimp only at ok
    rw [modifyBind, getBind] at ok
    have finish : ∀ {t : State}, (s.referTo m).Loosens P word False [] t → s.Acquires P word i (t.setSite i (.memory m true)) :=
      acquiresWord site (bare.imp_left fun none => by
        rw [site] at none
        cases acquired with
        | true => cases none
        | false => rfl)
    cases slot : (s.referTo m).slotResource? (.memory m acquired) with
    | some id =>
      simp only [slot] at ok
      obtain ⟨⟨⟩, t, taken, last⟩ := bindOk.mp ok
      rw [modifyOk.mp last]
      exact finish ((loosensAcquireResource leaves _ _).holds taken)
    | none =>
      simp only [slot] at ok
      rw [modifyOk.mp ok]
      exact finish (.refl _)

omit moves in
theorem placesWith (bare : (s.site i).referred = [] ∨ i = word) (ok : placeWith evict v i s = .ok () s') :
    s.Acquires P word i s' := by
  rw [placeWith, getBind] at ok
  split at ok
  · exact (pureOk.mp ok).2 ▸ .strict (.refl s)
  · obtain ⟨⟨⟩, t, acquired, last⟩ := bindOk.mp ok
    rw [modifyOk.mp last]
    exact (acquiresWith leaves bare acquired).modifyValue ..

theorem loosensStageWith (v : ValueId) (src : SiteId) (mask : OperandMask) :
    (stageWith evict v src mask).Loosens P word False := by
  constructor
  intro s i s' ok
  obtain ⟨r, t, probed, ok⟩ := bindOk.mp ok
  obtain ⟨i, u, chosen, ok⟩ := bindOk.mp ok
  obtain ⟨⟨⟩, u', placed, ok⟩ := bindOk.mp ok
  have began : s.Loosens P word False [] t := (loosensProbe ..).holds probed
  obtain ⟨fresh, bare⟩ := chooseSiteFresh chosen
  have until_ := began.trans ((loosensChooseSite ..).holds chosen)
  have until_ := (placesWith leaves (.inl bare) placed).fresh until_ fun known => fresh (began.eases.isSite known)
  have rest : (do emitMove src i; return i : Build SiteId).Loosens P word False :=
    .bind (loosensEmitMove moves src i) fun _ => .pure
  exact until_.trans (rest.holds ok)

theorem loosensRelocateWith (r : ReadId) (strict : Bool) (reserve : Nat) :
    (relocateWith evict r strict reserve).Loosens P word False := by
  constructor
  intro s i s' ok
  rw [relocateWith, getBind] at ok
  obtain ⟨dst, t, chosen, ok⟩ := bindOk.mp ok
  have began : s.Loosens P word False [] t := (loosensChooseSite ..).holds chosen
  obtain ⟨fresh, bare⟩ := chooseSiteFresh chosen
  rw [getBind] at ok
  generalize State.cheapestSource _ = found at ok
  cases found with
  | none => cases ok
  | some found =>
    obtain ⟨src, cost⟩ := found
    dsimp only at ok
    split at ok
    · exact (pureOk.mp ok).2 ▸ began
    · obtain ⟨⟨⟩, u, kept, ok⟩ := bindOk.mp ok
      obtain ⟨u', placed, rfl⟩ := whileFrozenOk.mp kept
      have bare' : ((t.freezeSite src).site dst).referred = [] := by
        rw [freezeSiteRest]
        exact bare
      have until_ := ((placesWith leaves (.inl bare') placed).fresh (began.trans (loosensFreeze t src)) fresh).thaw
      have finish : ∀ src : SiteId, (do emitMove src dst; return dst : Build SiteId).Loosens P word False :=
        fun src => .bind (loosensEmitMove moves src dst) fun _ => .pure
      refine until_.trans (Build.Loosens.holds (.bind .get fun u => .ite (finish _) (.bind ?_ finish)) ok)
      exact .frozen (.frozen (loosensStageWith moves leaves ..))

end Evict

theorem loosensEvictWithin (fuel : Nat) (id : ResourceId) (thief : Option ValueId) :
    (evictWithin fuel id thief).Loosens P word False := by
  induction fuel generalizing id thief with
  | zero => exact .throw
  | succ fuel ih =>
    unfold evictWithin
    refine .bind .get fun s => ?_
    split
    · exact .pure
    · rename_i o _
      have finish : (modify (·.removeSite o.value o.site) : Build Unit).Loosens P word False := .modify fun _ => loosensRemove ..
      refine .bind (.modify fun _ => loosensCount _) fun _ => .ite ?_ finish
      refine .bind (.modifyGet fun _ => loosensLiveRead _) fun read => ?_
      cases read with
      | none => exact finish
      | some r =>
        refine .bind (.frozen (loosensRelocateWith moves ih ..)) fun moved => ?_
        exact .bind (.modify fun _ => loosensModifyValue ..) fun _ => finish

theorem loosensEvict (id : ResourceId) (thief : Option ValueId) : (evict id thief).Loosens P word loose :=
  .bind .get fun _ => (loosensEvictWithin moves ..).mono

theorem loosensAcquire (bare : (s.site i).referred = [] ∨ i = word) (ok : acquire v i s = .ok () s') :
    s.Loosens P word True [] s' := (acquiresWith (loosensEvict moves) bare ok).loosens

theorem loosensPlace (bare : (s.site i).referred = [] ∨ i = word) (ok : place v i s = .ok () s') :
    s.Loosens P word True [] s' := (placesWith (loosensEvict moves) bare ok).loosens

theorem fillsPlace (v : ValueId) (i : SiteId) : (place v i).Fills P word i :=
  ⟨fun bare ok => loosensPlace moves (.inl bare) ok⟩

theorem loosensRelocate (r : ReadId) (strict : Bool) (reserve : Nat) : (relocate r strict reserve).Loosens P word loose :=
  (loosensRelocateWith moves (loosensEvict moves) r strict reserve).mono

theorem loosensSettle (r : ReadId) (strict : Bool) (reserve : Nat) : (settle r strict reserve).Loosens P word loose := by
  refine .bind (.modifyGet fun _ => loosensChooseSource ..) fun found => ?_
  cases found with
  | some found => exact .pure
  | none => exact loosensRelocate moves ..

theorem loosensChooseSources (reads : List ReadId) : (chooseSources reads).Loosens P word loose := by
  induction reads with
  | nil => exact .pure
  | cons r rest ih =>
    unfold chooseSources readSource?
    refine .bind (.bind .get fun s => .ite (loosensSettle moves ..).map .pure) fun source => ?_
    refine .bind (.modify fun _ => loosensModifyValue ..) fun _ => ?_
    cases source with
    | some i => exact .frozen ih
    | none => exact ih

/-! Consuming reads. -/

theorem loosensBequeath (v : ValueId) : (bequeath v).Loosens P word True := by
  refine .bind (.modifyGet fun _ => loosensLeave v) fun heir => .bind .get fun s => ?_
  refine .bind (.modify fun _ => loosensModifyValue ..) fun _ => .forM fun i => ?_
  constructor
  intro t a t' ok
  rw [modifyBind] at ok
  obtain ⟨⟨⟩, u, acquired, last⟩ := bindOk.mp ok
  have bare : ((t.release i).site i).referred = [] := by
    rw [releaseSite, if_pos rfl]
    exact referredPlace _
  rw [modifyOk.mp last]
  exact ((loosensRelease i).trans (loosensAcquire moves (.inl bare) acquired)).trans (loosensModifyValue ..)

theorem loosensConsumeRead (e : Option EventId) (v : ValueId) : (consumeRead e v).Loosens P word True := by
  unfold consumeRead
  refine .bind .get fun s => ?_
  split
  · exact .throw
  · have rest : ∀ next : Option ReadId, (do
        modify (·.modifyValue v fun d => { d with reads := next })
        if !(← modifyGet (·.isPending next)) then
          if ← live v then bequeath v else modify (·.clearSites v) : Build Unit).Loosens P word True := by
      intro next
      refine .bind (.modify fun _ => loosensModifyValue ..) fun _ => ?_
      refine .bind (.modifyGet fun _ => loosensPending next) fun pending => .ite ?_ .pure
      refine .bind (loosensLive v) fun alive => ?_
      exact .ite (loosensBequeath moves v) (.modify fun _ => loosensClear v)
    refine .ite (.bind .throw fun _ => ?_) ?_
    all_goals
      split
      · exact .throw
      · exact rest _

theorem uttersConsumeRead {e : Option EventId} (records : s.Records) (ok : consumeRead e v s = .ok () s') : s.Utters P s' := by
  have loosens : (consumeRead e v).Loosens P ⟨0⟩ True := loosensConsumeRead moves e v
  exact (loosens.holds ok).utters records

theorem loosensConsumeReads (e : EventId) : (consumeReads e).Loosens P word True :=
  .bind .get fun _ => .forM fun _ => .bind .get fun _ => loosensConsumeRead moves ..

end

end Lowering
