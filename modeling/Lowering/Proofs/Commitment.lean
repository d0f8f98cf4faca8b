import Lowering.Proofs.Conformity
/-!
Filling the open entries of a table.

A slot is committed to a site that its value has or is moved to, and the site is frozen. It was not
frozen before, so no two slots are committed to one place, and nothing that was committed before is
moved away.
-/
namespace Lowering

open State Build

section

variable {s s' t : State} {x : Site} {id : ResourceId} {v w : ValueId} {i : SiteId} {r : ReadId}
  {lent : List Register}

/-! Sites that a slot can be committed to. -/

structure State.Fits (s : State) (x : Site) : Prop where
  names : ∃ id, x.copy.Names s.geometry id
  meets : x.satisfies s.geometry (x.copy.mask s.geometry) = true

theorem fitsRegister {mask : RegisterSet} {n : Register} (small : n < 64) :
    s.Fits (.register mask (some n)) := by
  have kind : KindSet.has OperandKind.register.bit .register = true := by decide
  have inside : RegisterSet.has (RegisterSet.single n) n = true := by
    simp [RegisterSet.has, RegisterSet.single, small]
  refine ⟨⟨.register n, rfl⟩, ?_⟩
  simp [Site.copy, Site.ofRegisters, Site.mask, Site.satisfies, SiteMask.accepts, kind, inside]

theorem fitsSlot {m : MemoryRef} {acquired : Bool} {k : Nat}
    (slot : (Site.memory m acquired).slot? s.geometry = some k)
    (aligned : s.AlignedAt (.memory m acquired)) : s.Fits (.memory m acquired) := by
  have mask : (Site.memory m acquired).copy.mask s.geometry = .slot k := by
    have slot' : (Site.memory m false).slot? s.geometry = some k := slot
    simp [Site.copy, Site.ofMemory, Site.mask, slot', SiteMask.slot]
  refine ⟨⟨.slot k, mask⟩, ?_⟩
  rw [mask]
  exact aligned k slot

theorem fitsLocated (formed : s.WellFormed) (located : s.Located x) : s.Fits x := by
  obtain ⟨t, same, slots, registers⟩ := located
  unfold Target.toSite at same
  cases which : t.resource with
  | register n =>
    simp only [which] at same
    obtain ⟨number, small⟩ := coincidesRegister.mp same
    cases x with
    | register mask number' =>
      simp only [Site.number?] at number
      subst number
      exact fitsRegister small
    | constant p => cases number
    | address p => cases number
    | memory m acquired => cases number
  | slot n =>
    simp only [which] at same
    have place := coincidesSlot.mp same
    have bound : (n + s.geometry.footer) * wordSize < modulus 32 :=
      Nat.lt_of_lt_of_le (Nat.mul_lt_mul_of_pos_right (by have := slots n which; omega) (by decide))
        formed.frame
    cases x with
    | memory m acquired =>
      simp only [Site.place, Site.frame, Site.ofMemory, Site.memory.injEq, and_true] at place
      subst place
      refine fitsSlot (k := n) (by simp [Site.slot?, s.geometry.indexOffset bound]) ?_
      refine alignedOfPlain formed fun m acquired' same' _ => ⟨n, slots n which, ?_⟩
      simp only [Site.memory.injEq] at same'
      exact same'.1.symm
    | constant p => simp [Site.place, Site.frame, Site.ofMemory] at place
    | address p => simp [Site.place, Site.frame, Site.ofMemory] at place
    | register mask number => simp [Site.place, Site.frame, Site.ofMemory] at place

theorem tableMaskKind (fits : x.satisfies s.geometry s.tableMask = true) :
    (∃ mask n, x = .register mask (some n) ∧ n < 64) ∨ ∃ m acquired, x = .memory m acquired := by
  cases x with
  | constant p => exact absurd fits (by simp [tableMask, Site.satisfies, SiteMask.accepts, show
      KindSet.has (KindSet.ofList [.register, .memory]) .constant = false by decide])
  | address p => exact absurd fits (by simp [tableMask, Site.satisfies, SiteMask.accepts, show
      KindSet.has (KindSet.ofList [.register, .memory]) .address = false by decide])
  | register mask number =>
    cases number with
    | none => cases fits
    | some n =>
      simp only [Site.satisfies, Bool.and_eq_true] at fits
      exact .inl ⟨mask, n, rfl, BitVec.lt_of_getLsbD fits.2⟩
  | memory m acquired => exact .inr ⟨m, acquired, rfl⟩

theorem fitsLasting (aligned : s.AlignedAt (s.site i))
    (fits : (s.site i).satisfies s.geometry s.tableMask = true)
    (lasts : s.accepts .lasting v i = true) : s.Fits (s.site i) := by
  simp only [accepts, Bool.and_eq_true] at lasts
  obtain ⟨mask, n, site, small⟩ | ⟨m, acquired, site⟩ := tableMaskKind fits
  · rw [site]
    exact fitsRegister small
  · simp only [site, Option.any_eq_true] at lasts
    obtain ⟨-, k, slot, -⟩ := lasts
    rw [site] at aligned ⊢
    exact fitsSlot slot aligned

theorem isFrozenFreezes (unfrozen : s.isFrozen i = false) (names : s.resource? i = some id) :
    (s.resources.get id).freezes = 0 := by
  unfold isFrozen at unfrozen
  unfold State.resource? at names
  cases site : s.site i with
  | constant p => simp [site, Site.resource?] at names
  | address p => simp [site, Site.resource?] at names
  | register mask number =>
    cases number with
    | none => simp [site, Site.resource?] at names
    | some n =>
      simp only [site, Site.resource?, Option.map_some, Option.some.injEq] at names
      subst names
      simpa [site] using unfrozen
  | memory m acquired =>
    rw [site] at names
    simpa [site, slotResourceEq, names] using unfrozen

structure State.Offers (s : State) (v : ValueId) (i : SiteId) : Prop where
  held : ∃ m ∈ s.ring v, i ∈ (s.value m).sites
  fits : s.Fits (s.site i)
  unfrozen : ∀ id, s.resource? i = some id → (s.resources.get id).freezes = 0

theorem chooseSourceFound {q : SourceQuery} {found : Option (SiteId × Nat)} (formed : s.WellFormed)
    (chosen : s.chooseSource r q = (found, t)) :
    (∃ reads, t = { s with reads } ∧ s.reads.Evolves reads) ∧ ∀ c, found = some c →
      (∃ m ∈ t.ring (s.reads.value r), c.1 ∈ (t.value m).sites) ∧
      (t.site c.1).satisfies t.geometry q.mask = true ∧
      t.accepts q.acceptance (s.reads.value r) c.1 = true := by
  have spec := ReadTable.narrowSpec formed.reads.ordered r q.mask 0
  have narrowed : ∃ n : SiteMask × State,
      (if q.strict then (s.narrow r q.mask).2 else (q.mask, s)) = n ∧ n.1.Within q.mask ∧
        ∃ reads, n.2 = { s with reads } ∧ s.reads.Evolves reads := by
    cases q.strict with
    | true => exact ⟨_, rfl, spec.within, _, rfl, spec.evolves⟩
    | false => exact ⟨_, rfl, .refl _, s.reads, rfl, .refl _⟩
  obtain ⟨⟨mask, u⟩, same, within, state⟩ := narrowed
  simp only [chooseSource, same, Prod.mk.injEq] at chosen
  obtain ⟨picked, rfl⟩ := chosen
  refine ⟨state, ?_⟩
  rintro c rfl
  have member := cheapestSourceMem picked
  simp only [List.mem_map, List.mem_filter, Bool.and_eq_true] at member
  obtain ⟨o, ⟨held, fits, accepted⟩, rfl⟩ := member
  refine ⟨⟨o.value, ?_⟩, within _ _ fits, accepted⟩
  split at held
  · exact memPlacements.mp held
  · simp only [ownPlacements, List.mem_map] at held
    obtain ⟨i, listed, rfl⟩ := held
    exact ⟨selfMemRing _ _, listed⟩

theorem chooseLasting {strict aliases : Bool} {found : Option (SiteId × Nat)}
    (formed : s.WellFormed) (aligned : s.Aligned) (value : s.IsValue v)
    (reader : s.reads.value r ∈ s.ring v)
    (chosen : s.chooseSource r { mask := s.tableMask, strict, aliases, acceptance := .lasting } =
      (found, t)) :
    (∀ kept, Moves 0 kept [] s [] t) ∧ ∀ c, found = some c → t.Offers v c.1 := by
  obtain ⟨⟨reads, rfl, evolves⟩, picked⟩ := chooseSourceFound formed chosen
  have keeps := s.keepsReads evolves
  refine ⟨fun kept => .ask reads s.statistics s.resources.available evolves, ?_⟩
  rintro c rfl
  obtain ⟨⟨m, inRing, listed⟩, fits, lasts⟩ := picked c rfl
  refine ⟨⟨m, ?_, listed⟩, fitsLasting (aligned m c.1 listed) fits lasts,
    fun id => isFrozenFreezes ?_⟩
  · rw [keeps.ring] at inRing ⊢
    exact memRingTrans formed.rings value reader inRing
  · simp only [accepts, Bool.and_eq_true, Bool.not_eq_true'] at lasts
    exact lasts.1

def State.Spares (s s' : State) : Prop := ∀ kept, s.Secured kept → Moves 0 kept [] s [] s'

theorem State.Spares.trans (first : s.Spares t) (second : t.Spares s') : s.Spares s' := by
  intro kept secured
  have run := first kept secured
  exact run.trans (second kept (run.secured secured))

theorem State.Spares.moves (h : s.Spares s') : Moves 0 [] [] s [] s' := h [] Secured.nil

theorem relocateOffers {mask : SiteMask} {reserve : Nat} (h : s.Tracked lent [])
    (value : s.IsValue v) (ok : (probe v mask >>= fun r => relocate r false reserve) s = .ok i s') :
    s.Spares s' ∧ s'.Offers v i := by
  simp only [probe, modifyGetBind, relocate] at ok
  have asked : s.Spares { s with reads := (s.reads.single v mask (some v)).2 } := fun _ _ =>
    .ask _ s.statistics s.resources.available (ReadTable.evolvesPush _ _ _ _)
  have reader : (s.reads.single v mask (some v)).2.value (s.reads.single v mask (some v)).1 = v :=
    congrArg Read.value (ReadTable.pushedKind s.reads v mask (some v))
  have moved : ∀ kept, s.Secured kept → Relocated 0 _ kept [] _ false i s' := fun kept secured =>
    relocateSpec evictSpec (Ready.moves ⟨h.formed, h.named, secured, by simp, Nat.zero_le _⟩
      (asked kept secured)) (by rw [reader]; exact value) (by simp) ok
  refine ⟨fun kept secured => (asked kept secured).trans (moved kept secured).moves, ?_⟩
  have outcome := moved [] Secured.nil
  have run := asked.moves.trans outcome.moves
  obtain ⟨m, inRing, listed⟩ := outcome.held
  obtain ⟨id, names, available⟩ := outcome.obtained
  refine ⟨⟨m, ?_, listed⟩, fitsLocated (run.wellFormed h.formed) outcome.located, ?_⟩
  · rw [reader, asked.moves.keeps.ring] at inRing
    rw [run.keeps.ring]
    exact inRing
  · intro other names'
    cases names.symm.trans names'
    rw [outcome.moves.keeps.resources.freezes]
    simp only [Resource.isUnavailable, Bool.or_eq_false_iff, decide_eq_false_iff_not] at available
    exact Nat.eq_zero_of_not_pos available.1.2

/-! Entries that are kept. -/

structure State.Pledged (s : State) (v : ValueId) (x : Site) : Prop where
  names : ∃ id, x.Names s.geometry id
  held : ∃ m ∈ s.ring v, ∃ i ∈ (s.value m).sites,
    (s.site i).satisfies s.geometry (x.mask s.geometry) = true ∧ s.Pinned i
  frozen : ∀ id, x.Names s.geometry id → s.resources.Has id → s.Free id →
    0 < (s.resources.get id).freezes

theorem State.Pledged.spares (pledged : s.Pledged v x) (formed : s.WellFormed) (spares : s.Spares s') :
    s'.Pledged v x := by
  have keeps := spares.moves.keeps
  obtain ⟨m, inRing, i, listed, meets, pinned⟩ := pledged.held
  have known := formed.listed m i listed
  have run := spares [i] fun k member => by
    rw [List.mem_singleton.mp member]
    exact ⟨known, .inl pinned⟩
  refine ⟨?_, ⟨m, ?_, i, run.keepsListed List.mem_cons_self listed, ?_,
    keeps.pinned known pinned⟩, ?_⟩
  · rw [keeps.geometry]
    exact pledged.names
  · rw [keeps.ring]
    exact inRing
  · rw [keeps.satisfies known, keeps.geometry]
    exact meets
  · intro id names has free
    rw [keeps.geometry] at names
    rw [keeps.resources.freezes]
    exact pledged.frozen id names ((keeps.has id).mp has) ((keeps.free id).mp free)

theorem State.Pledged.freeze (pledged : s.Pledged v x) (formed : s.WellFormed) (i : SiteId) :
    (s.freezeSite i).Pledged v x := by
  have extend := s.extendsFreeze i
  obtain ⟨m, inRing, j, listed, meets, pinned⟩ := pledged.held
  have known := formed.listed m j listed
  refine ⟨?_, ⟨m, ?_, j, ?_, ?_, pinned.freeze i⟩, ?_⟩
  · rw [extend.geometry]
    exact pledged.names
  · rw [freezeSiteRing]
    exact inRing
  · rw [freezeSiteValue]
    exact listed
  · rw [extend.satisfies known, extend.geometry]
    exact meets
  · intro id names has free
    rw [extend.geometry] at names
    rw [freezeSiteFreezes]
    exact Nat.add_pos_left (pledged.frozen id names ((extend.has id).mp has)
      ((extend.free id).mp free)) _

theorem State.Offers.stands (offers : s.Offers v i) : (s.resource? i).isSome = true := by
  obtain ⟨id, names⟩ := offers.fits.names
  exact standsOfNames names offers.fits.meets

theorem State.Offers.resource (offers : s.Offers v i) (formed : s.WellFormed)
    (names : (s.site i).copy.Names s.geometry id) (has : s.resources.Has id) :
    s.resource? i = some id :=
  resourceOfNames formed has names offers.fits.meets

theorem State.Offers.pledged (offers : s.Offers v i) (formed : s.WellFormed) :
    (s.freezeSite i).Pledged v (s.site i).copy := by
  have extend := s.extendsFreeze i
  obtain ⟨m, inRing, listed⟩ := offers.held
  refine ⟨?_, ⟨m, ?_, i, ?_, ?_, s.pinnedFreeze i⟩, ?_⟩
  · rw [extend.geometry]
    exact offers.fits.names
  · rw [freezeSiteRing]
    exact inRing
  · rw [freezeSiteValue]
    exact listed
  · rw [extend.satisfies (formed.listed m i listed), extend.geometry]
    exact offers.fits.meets
  · intro id names has free
    rw [extend.geometry] at names
    have has' := (extend.has id).mp has
    rw [freezeSiteFreezes, if_pos ⟨offers.resource formed names has', has',
      (extend.free id).mp free⟩]
    exact Nat.succ_pos _

theorem State.Pledged.apart (pledged : s.Pledged w x) (formed : s.WellFormed) (offers : s.Offers v i)
    (names : x.Names s.geometry id) (names' : (s.site i).copy.Names s.geometry id)
    (has : s.resources.Has id) : ¬ s.Free id := by
  intro free
  have frozen := pledged.frozen id names has free
  have unfrozen := offers.unfrozen id (offers.resource formed names' has)
  omega

/-! A table that is being filled. -/

variable {slots : List (ValueId × Nat)} {table : List (Option Site)} {c c' d : Commitment}

structure State.Agreed (s : State) (slots : List (ValueId × Nat)) (table : List (Option Site)) :
    Prop where
  pledged : ∀ p ∈ slots, s.Live p.1 → ∀ x, table[p.2]?.join = some x → s.Pledged p.1 x
  apart : ∀ p ∈ slots, ∀ q ∈ slots, p.2 ≠ q.2 → s.Live p.1 → s.Live q.1 → ∀ x y id,
    table[p.2]?.join = some x → table[q.2]?.join = some y → x.Names s.geometry id →
    y.Names s.geometry id → s.resources.Has id → ¬ s.Free id

theorem State.Agreed.spares (agreed : s.Agreed slots table) (formed : s.WellFormed)
    (spares : s.Spares s') : s'.Agreed slots table := by
  have run := spares.moves
  have keeps := run.keeps
  refine ⟨fun p member alive x entry => ?_,
    fun p first q second other alive alive' x y id entry entry' names names' has free => ?_⟩
  · exact (agreed.pledged p member ((run.live formed p.1).mp alive) x entry).spares formed spares
  · rw [keeps.geometry] at names names'
    exact agreed.apart p first q second other ((run.live formed p.1).mp alive)
      ((run.live formed q.1).mp alive') x y id entry entry' names names' ((keeps.has id).mp has)
      ((keeps.free id).mp free)

theorem Commitment.openEntry {k : Nat} (empty : c.isOpen k = true) :
    k < c.table.length ∧ c.table[k]?.join = none := by
  have same : c.table[k]? = some none := by simpa [isOpen] using empty
  exact ⟨(List.getElem?_eq_some_iff.mp same).1, by rw [same]; rfl⟩

theorem Commitment.closedEntry {k : Nat} (closed : c.isOpen k = false)
    (inside : k < c.table.length) : (c.table[k]?.join).isSome = true := by
  obtain ⟨entry, there⟩ : ∃ entry, c.table[k]? = some entry := ⟨_, List.getElem?_eq_getElem inside⟩
  rw [there]
  cases entry with
  | none => simp [isOpen, there] at closed
  | some x => rfl

theorem Commitment.fillEntry {k : Nat} (inside : k < c.table.length) (i : SiteId) (x : Site)
    (l : Nat) : (c.fill k i x).table[l]?.join =
      if l = k then some x.copy else c.table[l]?.join := by
  unfold fill
  dsimp only
  rw [List.getElem?_set]
  by_cases same : l = k
  · simp [same, inside]
  · simp [same, Ne.symm same]

theorem State.Agreed.fill {p : ValueId × Nat} (agreed : s.Agreed slots c.table)
    (formed : s.WellFormed) (once : (slots.map (·.2)).Nodup) (member : p ∈ slots)
    (isOpen : c.isOpen p.2 = true) (offers : s.Offers p.1 i) :
    (s.freezeSite i).Agreed slots (c.fill p.2 i (s.site i)).table := by
  obtain ⟨inside, -⟩ := c.openEntry isOpen
  have extend := s.extendsFreeze i
  have self : ∀ q ∈ slots, q.2 = p.2 → q = p := fun q other same =>
    List.inj_on_of_nodup_map once other member same
  have live : ∀ w, (s.freezeSite i).Live w → s.Live w := fun w => (freezeSiteLive formed i w).mp
  refine ⟨fun q other alive x entry => ?_,
    fun q first q' second differ alive alive' x y id entry entry' names names' has free => ?_⟩
  · rw [c.fillEntry inside] at entry
    split at entry
    · rename_i same
      cases entry
      rw [self q other same]
      exact offers.pledged formed
    · exact (agreed.pledged q other (live q.1 alive) x entry).freeze formed i
  · rw [c.fillEntry inside] at entry entry'
    rw [extend.geometry] at names names'
    have has' := (extend.has id).mp has
    have free' := (extend.free id).mp free
    split at entry
    · rename_i same
      cases entry
      rw [if_neg fun same' => differ (same.trans same'.symm)] at entry'
      exact (agreed.pledged q' second (live q'.1 alive') y entry').apart formed offers names' names
        has' free'
    · split at entry'
      · cases entry'
        exact (agreed.pledged q first (live q.1 alive) x entry).apart formed offers names names'
          has' free'
      · exact agreed.apart q first q' second differ (live q.1 alive) (live q'.1 alive') x y id entry
          entry' names names' has' free'

structure Commits (lent : List Register) (slots : List (ValueId × Nat)) (s : State)
    (c : Commitment) (s' : State) (c' : Commitment) : Prop where
  settles : Settles lent s s'
  agreed : s.Agreed slots c.table → s'.Agreed slots c'.table
  kept : ∀ (k : Nat) (x : Site), c.table[k]?.join = some x → c'.table[k]?.join = some x
  length : c'.table.length = c.table.length

theorem Commits.trans (first : Commits lent slots s c t d) (second : Commits lent slots t d s' c') :
    Commits lent slots s c s' c' :=
  ⟨first.settles.trans second.settles, fun before => second.agreed (first.agreed before),
    fun k x entry => second.kept k x (first.kept k x entry), second.length.trans first.length⟩

theorem commitsSpares (h : s.Tracked lent []) (aligned : s.Aligned) (spares : s.Spares s')
    (same : c'.table = c.table) : Commits lent slots s c s' c' := by
  refine ⟨settlesMoves spares.moves h aligned, fun agreed => ?_, fun k x entry => ?_, by rw [same]⟩
  · rw [same]
    exact agreed.spares h.formed spares
  · rwa [same]

theorem commitsFill {p : ValueId × Nat} (h : s.Tracked lent []) (aligned : s.Aligned)
    (once : (slots.map (·.2)).Nodup) (member : p ∈ slots) (isOpen : c.isOpen p.2 = true)
    (offers : s.Offers p.1 i) :
    Commits lent slots s c (s.freezeSite i) (c.fill p.2 i (s.site i)) := by
  obtain ⟨inside, empty⟩ := c.openEntry isOpen
  refine ⟨settlesFreeze h aligned offers.stands,
    fun agreed => agreed.fill h.formed once member isOpen offers, fun k x entry => ?_,
    by simp [Commitment.fill]⟩
  rw [c.fillEntry inside, if_neg]
  · exact entry
  · rintro rfl
    rw [empty] at entry
    cases entry

theorem liveReadFound (formed : s.WellFormed) (v : ValueId) :
    s.Spares (s.liveRead? v).2 ∧ ((s.liveRead? v).1 = none → ¬ s.Live v) ∧
      ∀ r, (s.liveRead? v).1 = some r →
        (s.liveRead? v).2.reads.value r ∈ (s.liveRead? v).2.ring v := by
  obtain ⟨reads, state, evolves, found, -⟩ := liveReadSpec formed v
  have keeps := s.keepsReads evolves
  rw [state]
  refine ⟨fun kept _ => .ask reads s.statistics s.resources.available evolves, ?_, ?_⟩
  · intro none alive
    have same : (s.isLive v).1 = (s.liveRead? v).1.isSome := rfl
    rw [State.Live, same, none] at alive
    cases alive
  · intro r answer
    obtain ⟨-, m, inRing, chain⟩ := found r answer
    obtain ⟨there, reader⟩ := formed.heads m r chain
    rw [keeps.reads.value r there, reader, keeps.ring]
    exact inRing

def Filled (s : State) (c c' : Commitment) (p : ValueId × Nat) : Prop :=
  s.Live p.1 → p.2 < c.table.length → (c'.table[p.2]?.join).isSome = true

theorem filledFill {p : ValueId × Nat} (x : Site) : Filled s c (c.fill p.2 i x) p := by
  intro _ inside
  rw [c.fillEntry inside, if_pos rfl]
  rfl

theorem holdFill {k : Nat}
    (ok : (hold i >>= fun j => get >>= fun s => pure (c.fill k j (s.site i))) s = .ok c' s') :
    s' = s.freezeSite i ∧ c' = c.fill k i (s.site i) := by
  simp only [hold, bindOk, modifyOk, pureOk, getOk] at ok
  obtain ⟨j, w, ⟨⟨⟩, x, rfl, rfl, rfl⟩, y, y', ⟨rfl, rfl⟩, rfl, rfl⟩ := ok
  refine ⟨rfl, ?_⟩
  have same : (s.freezeSite i).site i = s.site i := by
    rw [freezeSiteEq]
    rfl
  rw [same]

theorem commitHeldSpec {p : ValueId × Nat} (h : s.Tracked lent []) (aligned : s.Aligned)
    (once : (slots.map (·.2)).Nodup) (member : p ∈ slots) (value : s.IsValue p.1)
    (ok : commitHeld c p s = .ok c' s') :
    Commits lent slots s c s' c' ∧ (c'.complete = true → c.complete = true ∧ Filled s c c' p) := by
  obtain ⟨asked, dead, found⟩ := liveReadFound h.formed p.1
  have first := settlesMoves asked.moves h aligned
  simp only [commitHeld, modifyGetBind] at ok
  cases read : (s.liveRead? p.1).1 with
  | none =>
    simp only [read, pureOk] at ok
    obtain ⟨rfl, rfl⟩ := ok
    exact ⟨commitsSpares h aligned asked rfl,
      fun complete => ⟨complete, fun alive => absurd alive (dead read)⟩⟩
  | some r =>
    have reader := found r read
    simp only [read] at ok
    generalize (s.liveRead? p.1).2 = t at *
    cases isOpen : c.isOpen p.2 with
    | false =>
      simp only [isOpen, Bool.not_false, if_true, pureOk] at ok
      obtain ⟨rfl, rfl⟩ := ok
      exact ⟨commitsSpares h aligned asked rfl,
        fun complete => ⟨complete, fun _ inside => c.closedEntry isOpen inside⟩⟩
    | true =>
      simp only [isOpen, Bool.not_true, Bool.false_eq_true, if_false, getBind] at ok
      cases chosen : t.chooseSource r ⟨none, t.tableMask, true, false, .lasting⟩ with
      | mk choice u =>
        obtain ⟨looked, offers⟩ := chooseLasting first.tracked.formed first.aligned
          ((asked.moves.keeps.isValue _).mpr value) reader chosen
        have spares : s.Spares u := asked.trans fun kept _ => looked kept
        simp only [modifyGetBind, chosen] at ok
        cases choice with
        | none =>
          simp only [pureOk] at ok
          obtain ⟨rfl, rfl⟩ := ok
          exact ⟨commitsSpares h aligned spares rfl, fun complete => by cases complete⟩
        | some i =>
          obtain ⟨rfl, rfl⟩ := holdFill ok
          have second := settlesMoves spares.moves h aligned
          exact ⟨(commitsSpares h aligned spares rfl).trans
            (commitsFill second.tracked second.aligned once member isOpen (offers i rfl)),
            fun complete => ⟨complete, filledFill _⟩⟩

theorem commitMovedSpec {p : ValueId × Nat} (h : s.Tracked lent []) (aligned : s.Aligned)
    (once : (slots.map (·.2)).Nodup) (member : p ∈ slots) (value : s.IsValue p.1)
    (ok : commitMoved c p s = .ok c' s') :
    Commits lent slots s c s' c' ∧ Filled s c c' p := by
  obtain ⟨asked, dead, found⟩ := liveReadFound h.formed p.1
  have first := settlesMoves asked.moves h aligned
  have value' := (asked.moves.keeps.isValue p.1).mpr value
  simp only [commitMoved, modifyGetBind] at ok
  cases read : (s.liveRead? p.1).1 with
  | none =>
    simp only [read, pureOk] at ok
    obtain ⟨rfl, rfl⟩ := ok
    exact ⟨commitsSpares h aligned asked rfl, fun alive => absurd alive (dead read)⟩
  | some r =>
    have reader := found r read
    simp only [read] at ok
    generalize (s.liveRead? p.1).2 = t at *
    cases isOpen : c.isOpen p.2 with
    | false =>
      simp only [isOpen, Bool.not_false, if_true, pureOk] at ok
      obtain ⟨rfl, rfl⟩ := ok
      exact ⟨commitsSpares h aligned asked rfl, fun _ inside => c.closedEntry isOpen inside⟩
    | true =>
      have finish : ∀ {u : State} {i : SiteId}, s.Spares u → u.Offers p.1 i →
          (hold i >>= fun j => get >>= fun s => pure (c.fill p.2 j (s.site i))) u = .ok c' s' →
          Commits lent slots s c s' c' ∧ Filled s c c' p := by
        intro u i spares offers held
        obtain ⟨rfl, rfl⟩ := holdFill held
        have second := settlesMoves spares.moves h aligned
        exact ⟨(commitsSpares h aligned spares rfl).trans
          (commitsFill second.tracked second.aligned once member isOpen offers), filledFill _⟩
      simp only [isOpen, Bool.not_true, Bool.false_eq_true, if_false, getBind] at ok
      cases chosen : t.chooseSource r ⟨none, t.tableMask, false, true, .lasting⟩ with
      | mk choice u =>
        obtain ⟨looked, offers⟩ := chooseLasting first.tracked.formed first.aligned value' reader
          chosen
        have spares : s.Spares u := asked.trans fun kept _ => looked kept
        simp only [modifyGetBind, chosen] at ok
        cases choice with
        | some i =>
          simp only [pureBind] at ok
          exact finish spares (offers i rfl) ok
        | none =>
          have second := settlesMoves spares.moves h aligned
          simp only [bindOk] at ok
          obtain ⟨r', w, probed, i, w', moved, held⟩ := ok
          obtain ⟨further, offers'⟩ := relocateOffers second.tracked
            ((spares.moves.keeps.isValue p.1).mpr value) (bindOk.mpr ⟨r', w, probed, moved⟩)
          exact finish (spares.trans further) offers' (by simpa only [bindOk] using held)

theorem commitPassSpec {step : Commitment → ValueId × Nat → Build Commitment}
    {P : Commitment → Prop}
    (each : ∀ {s s' : State} {c c' : Commitment}, ∀ p ∈ slots, s.Tracked lent [] → s.Aligned →
      s.IsValue p.1 → step c p s = .ok c' s' →
      Commits lent slots s c s' c' ∧ (P c' → P c ∧ Filled s c c' p))
    (rest : List (ValueId × Nat)) : ∀ {s : State} {c : Commitment},
    (∀ p ∈ rest, p ∈ slots) → s.Tracked lent [] → s.Aligned → (∀ p ∈ rest, s.IsValue p.1) →
    rest.foldlM step c s = .ok c' s' →
    Commits lent slots s c s' c' ∧ (P c' → P c ∧ ∀ p ∈ rest, Filled s c c' p) := by
  induction rest with
  | nil =>
    intro s c _ h aligned _ ok
    obtain ⟨rfl, rfl⟩ := pureOk.mp ok
    exact ⟨⟨.refl h aligned, id, fun _ _ entry => entry, rfl⟩, fun here => ⟨here, by simp⟩⟩
  | cons p rest ih =>
    intro s c sub h aligned known ok
    rw [List.foldlM_cons] at ok
    obtain ⟨d, t, now, later⟩ := bindOk.mp ok
    obtain ⟨first, filled⟩ := each p (sub p List.mem_cons_self) h aligned
      (known p List.mem_cons_self) now
    have extend := first.settles.extend
    have known' : ∀ q ∈ rest, s.IsValue q.1 := fun q member => known q (List.mem_cons_of_mem _ member)
    obtain ⟨second, filled'⟩ := ih (fun q member => sub q (List.mem_cons_of_mem _ member))
      first.settles.tracked first.settles.aligned
      (fun q member => extend.isValue (known' q member)) later
    refine ⟨first.trans second, fun here => ?_⟩
    obtain ⟨mid, others⟩ := filled' here
    obtain ⟨start, own⟩ := filled mid
    refine ⟨start, fun q member alive inside => ?_⟩
    rcases List.mem_cons.mp member with rfl | member
    · obtain ⟨x, entry⟩ := Option.isSome_iff_exists.mp (own alive inside)
      rw [second.kept _ x entry]
      rfl
    · refine others q member ?_ (by rwa [first.length])
      exact (extend.live h.formed first.settles.tracked.formed (known' q member)).mpr alive

theorem commitSpec {e : EventId} (h : s.Tracked lent []) (aligned : s.Aligned)
    (once : ((s.valuesAfter e).map (·.2)).Nodup) (known : ∀ p ∈ s.valuesAfter e, s.IsValue p.1)
    (ok : commit e table s = .ok c' s') :
    Commits lent (s.valuesAfter e) s { table } s' c' ∧
      ∀ p ∈ s.valuesAfter e, Filled s { table } c' p := by
  simp only [commit, getBind, bindOk] at ok
  obtain ⟨d, t, held, rest⟩ := ok
  obtain ⟨first, filled⟩ := commitPassSpec (P := fun c => c.complete = true)
    (fun p member h aligned value ok => commitHeldSpec h aligned once member value ok)
    (s.valuesAfter e) (fun _ member => member) h aligned known held
  split at rest
  · rename_i complete
    obtain ⟨rfl, rfl⟩ := pureOk.mp rest
    exact ⟨first, (filled complete).2⟩
  · have extend := first.settles.extend
    obtain ⟨second, filled'⟩ := commitPassSpec (P := fun _ => True)
      (fun p member h aligned value ok =>
        have done := commitMovedSpec h aligned once member value ok
        ⟨done.1, fun _ => ⟨trivial, done.2⟩⟩)
      (s.valuesAfter e) (fun _ member => member) first.settles.tracked first.settles.aligned
      (fun p member => extend.isValue (known p member)) rest
    refine ⟨first.trans second, fun p member alive inside => ?_⟩
    refine (filled' trivial).2 p member ?_ (by rwa [first.length])
    exact (extend.live h.formed first.settles.tracked.formed (known p member)).mpr alive

end

end Lowering
