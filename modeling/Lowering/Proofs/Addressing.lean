import Lowering.Proofs.Commitment
import Mathlib.Algebra.Order.BigOperators.Group.Finset
import Mathlib.Algebra.Order.BigOperators.Group.List
/-!
Registers that words in memory are addressed through.

As long as a value lists a word, the registers of its address are referred to, and a register that is
referred to cannot be had. So nothing is sent there when values are moved out of the way, however deep
the displacements go: what is emitted meanwhile writes other places.
-/
namespace Lowering

open State Build

def Request.writes (d : Description) (n : Register) : Request → Bool
  | .binary _ _ _ _ b => b == .register n
  | .ternary op _ _ _ _ size c => (!op.isBranch && c == .register n) || RegisterSet.has (d.clobbers op size) n
  | _ => false

variable {s s' t u : State} {old : Nat} {kept hollow : List SiteId} {id : ResourceId} {v w : ValueId}
  {i j : SiteId} {d : Description} {n : Register} {lent : List Register}

def State.Avoids (d : Description) (n : Register) (s s' : State) : Prop :=
  ∃ l, s'.emitter.log = s.emitter.log ++ l ∧ ∀ q ∈ l, q.writes d n = false

namespace State.Avoids

theorem quiet (emitter : s'.emitter = s.emitter) : Avoids d n s s' := ⟨[], by simp [emitter], by simp⟩

theorem refl (s : State) : Avoids d n s s := quiet rfl

theorem trans (first : Avoids d n s t) (second : Avoids d n t s') : Avoids d n s s' := by
  obtain ⟨l, log, spared⟩ := first
  obtain ⟨l', log', spared'⟩ := second
  refine ⟨l ++ l', by rw [log', log, List.append_assoc], fun q member => ?_⟩
  rcases List.mem_append.mp member with member | member
  · exact spared q member
  · exact spared' q member

theorem frozen (inner : Avoids d n (s.freezeSite j) t) : Avoids d n s (t.thawSite j) := by
  have before : Avoids d n s (s.freezeSite j) := .quiet (by rw [freezeSiteRest])
  refine (before.trans inner).trans (.quiet ?_)
  rw [thawSiteEq]
  rfl

instance : Std.Refl (State.Avoids d n) := ⟨refl⟩

instance : Trans (State.Avoids d n) (State.Avoids d n) (State.Avoids d n) := ⟨trans⟩

end State.Avoids

def State.Records (s : State) : Prop := ∃ r, s.emitter = .recording r

theorem emitRecords {q : Request} (records : s.Records) (ok : emit q s = .ok () s') :
    s' = { s with emitter := s'.emitter } ∧ s'.Records ∧ s'.emitter.log = s.emitter.log ++ [q] := by
  obtain ⟨r, records⟩ := records
  have kept : ∀ r', r.emit q = (.ok (), r') → r'.log = r.log.push q := by
    intro r' same
    unfold Recorder.emit at same
    split at same
    · dsimp only at same
      split at same
      · cases same
      · cases same
        rfl
    · cases same
      rfl
  simp only [emit, records, Emitter.emit] at ok
  split at ok
  · rename_i e t emitted
    cases ok
    split at emitted
    · rename_i r' recorded
      cases emitted
      exact ⟨rfl, ⟨r', rfl⟩, by simp [Emitter.log, records, kept r' recorded]⟩
    · cases emitted
  · cases ok

theorem recordsOfEmit {q : Request} (records : s'.Records) (ok : emit q s = .ok () s') : s.Records := by
  cases emitter : s.emitter with
  | recording r => exact ⟨r, emitter⟩
  | machine a =>
    obtain ⟨r, records⟩ := records
    simp only [emit, emitter, Emitter.emit] at ok
    split at ok
    · rename_i e t emitted
      cases ok
      split at emitted
      · cases emitted
        cases records
      · cases emitted
    · cases ok

theorem emitAvoids {q : Request} (records : s.Records) (spares : q.writes d n = false)
    (ok : emit q s = .ok () s') : Avoids d n s s' :=
  ⟨[q], (emitRecords records ok).2.2, by simpa using spares⟩

theorem State.Records.quiet (records : s.Records) (emitter : s'.emitter = s.emitter) : s'.Records := by
  obtain ⟨r, records⟩ := records
  exact ⟨r, emitter.trans records⟩

theorem State.removeSiteQuiet (s : State) (v : ValueId) (i : SiteId) :
    (s.removeSite v i).emitter = s.emitter := by
  obtain ⟨same, -⟩ | ⟨m, -, -, same⟩ := s.removeSiteCases v i
  · rw [same]
  · rw [same, detach, releaseEq]
    rfl

theorem State.Vacates.quiet (h : Vacates kept t id v u) : u.emitter = t.emitter := by
  cases h with
  | vacant => rfl
  | owned => exact removeSiteQuiet _ _ _

theorem State.Moves.records {h₀ h₁ : List SiteId} (run : Moves old kept h₀ s h₁ s') (records : s.Records) :
    s'.Records := by
  induction run with
  | refl => exact records
  | trans _ _ first second => exact second (first records)
  | ask => exact records
  | create => exact records
  | frozen _ _ inner =>
    refine (inner (records.quiet ?_)).quiet ?_
    · rw [freezeSiteRest]
    · rw [thawSiteEq]
      rfl
  | drop => exact records.quiet (removeSiteQuiet _ _ _)
  | redirect => exact records
  | take _ _ _ _ _ _ _ _ _ vacates _ inner =>
    exact ((inner (records.quiet rfl)).quiet vacates.quiet).quiet rfl
  | fill _ _ _ _ _ _ logged =>
    obtain ⟨r, records⟩ := records
    exact ⟨_, logged r records⟩

/-! The registers of a word. -/

/-- A value has a word in memory that is addressed through the register. -/
structure State.Pins (s : State) (n : Register) (i : SiteId) : Prop where
  listed : ∃ v, i ∈ (s.value v).sites
  referred : n ∈ (s.site i).referred

/-- The register is referred to: a value has the word that is addressed through it, or a frozen site is
addressed through it. -/
def State.Refers (s : State) (n : Register) (i : SiteId) (lent : List Register) : Prop :=
  n ∈ lent ∨ s.Pins n i

theorem State.Tracked.pinned (h : s.Tracked lent []) (refers : s.Refers n i lent)
    (has : s.resources.Has (.register n)) : (s.resources.get (.register n)).isUnavailable = true := by
  by_cases free : s.Free (.register n)
  · have counted := h.counted n has free
    simp only [Resource.isUnavailable, Bool.or_eq_true, decide_eq_true_eq]
    rcases refers with frozen | pins
    · have once : 0 < lent.count n := List.count_pos_iff.mpr frozen
      omega
    · obtain ⟨v, listed⟩ := pins.listed
      have known : v.index ∈ Finset.range s.values.size := Finset.mem_range.mpr (s.isValueOfSites listed)
      have once : 0 < ((s.site i).referred).count n := List.count_pos_iff.mpr pins.referred
      have single : ((s.site i).referred).count n ≤ s.usesOf v n :=
        List.le_sum_of_mem (List.mem_map.mpr ⟨i, listed, rfl⟩)
      have all : s.usesOf v n ≤ s.uses n :=
        Finset.single_le_sum (fun k _ => Nat.zero_le (s.usesOf ⟨k⟩ n)) known
      omega
  · have held : (s.resources.get (.register n)).reserved = true := by simpa [Free] using free
    simp [Resource.isUnavailable, held]

theorem State.Pins.moves {h₀ h₁ : List SiteId} (pins : s.Pins n i) (run : Moves old kept h₀ s h₁ s')
    (inside : i ∈ kept) (same : s'.site i = s.site i) : s'.Pins n i := by
  obtain ⟨v, listed⟩ := pins.listed
  refine ⟨⟨v, run.keepsListed inside listed⟩, ?_⟩
  rw [same]
  exact pins.referred

theorem State.removeSiteApart (s : State) (v : ValueId) (other : i ≠ j) :
    (s.removeSite v j).site i = s.site i := by
  obtain ⟨same, -⟩ | ⟨m, -, -, same⟩ := s.removeSiteCases v j
  · rw [same]
  · rw [same, detachSite, if_neg other]

theorem State.Vacates.keptSite (h : Vacates kept t id v u) (inside : i ∈ kept) : u.site i = t.site i := by
  cases h with
  | vacant => rfl
  | owned owner apart => exact t.removeSiteApart _ fun same => apart (same ▸ inside)

theorem State.Moves.keptSite {h₀ h₁ : List SiteId} (run : Moves old kept h₀ s h₁ s') (inside : i ∈ kept)
    (known : s.IsSite i) : s'.site i = s.site i := by
  induction run with
  | refl => rfl
  | trans run _ first second =>
    exact (second inside (run.keeps.isSite known)).trans (first inside known)
  | ask => rfl
  | create x => exact siteNewOld _ x known
  | @frozen kept h₀ s h₁ t j _ run inner =>
    have known' := (s.freezeSiteIsSite j i).mpr known
    rw [(t.thawSiteUnmoved j).site i (run.keeps.isSite known'), inner inside known']
    exact (s.freezeSiteUnmoved j).site i known
  | drop _ _ apart => exact removeSiteApart _ _ fun same => apart (same ▸ inside)
  | redirect => rfl
  | @take kept hollow s t u v j id _ _ _ _ _ _ _ apart run vacates _ inner =>
    have other : i ≠ j := fun same => apart (same ▸ inside)
    have settled : (u.occupy v j id).site i = u.site i := by
      show ((u.modifyResources _).setSite j _).site i = _
      rw [siteSet, if_neg fun both => other both.1]
      rfl
    rw [settled, vacates.keptSite (List.mem_append_right _ inside)]
    exact inner (List.mem_cons_of_mem _ inside) known
  | fill => rfl

/-- The register cannot be had: it is referred to, and the word that is addressed through it is guarded. -/
structure State.Shelters (old : Nat) (n : Register) (i : SiteId) (s : State) (kept hollow : List SiteId) :
    Prop where
  ready : Ready old s kept hollow
  referred : ∃ lent, s.Tracked lent [] ∧ s.Refers n i lent
  records : s.Records
  has : s.resources.Has (.register n)
  inside : i ∈ kept

namespace State.Shelters

theorem unavailable (h : Shelters old n i s kept hollow) :
    (s.resources.get (.register n)).isUnavailable = true := by
  obtain ⟨lent, tracked, refers⟩ := h.referred
  exact tracked.pinned refers h.has

theorem apart (h : Shelters old n i s kept hollow) (available : (s.resources.get id).isUnavailable = false) :
    id ≠ .register n := by
  rintro rfl
  rw [h.unavailable] at available
  cases available

theorem moves {h₀ h₁ : List SiteId} (h : Shelters old n i s kept hollow)
    (run : Moves old kept h₀ s h₁ s') : Shelters old n i s' kept hollow := by
  obtain ⟨lent, tracked, refers⟩ := h.referred
  refine ⟨h.ready.moves run, ⟨lent, run.tracked tracked (by simp), ?_⟩, run.records h.records,
    (run.keeps.has _).mpr h.has, h.inside⟩
  exact refers.imp_right fun pins =>
    pins.moves run h.inside (run.keptSite h.inside (h.ready.secured i h.inside).1)

theorem freeze (h : Shelters old n i s kept hollow) (known : s.IsSite j) :
    Shelters old n i (s.freezeSite j) kept hollow := by
  obtain ⟨lent, tracked, refers⟩ := h.referred
  refine ⟨(h.ready.freeze known).sub (fun k => List.mem_cons_of_mem _) h.ready.guarded,
    ⟨_, tracked.freeze j, ?_⟩, h.records.quiet ?_, (s.freezeSiteHas j _).mpr h.has, h.inside⟩
  · refine refers.imp (List.mem_append_right _) fun ⟨⟨v, listed⟩, referred⟩ => ⟨⟨v, ?_⟩, ?_⟩
    · rwa [freezeSiteValue]
    · rwa [(s.freezeSiteUnmoved j).site i (h.ready.formed.listed v i listed)]
  · rw [freezeSiteRest]

theorem reach (h : Shelters old n i s kept hollow) (known : s.IsSite j) (fresh : s.Unowned j) :
    Shelters old n i (s.reach j) (j :: kept) hollow := by
  obtain ⟨lent, tracked, refers⟩ := h.referred
  refine ⟨h.ready.reach known fresh, ⟨_, tracked.reach j, ?_⟩, h.records,
    ((s.keepsReach j).has _).mpr h.has, List.mem_cons_of_mem _ h.inside⟩
  exact refers.imp (List.mem_append_right _) fun pins => ⟨pins.listed, pins.referred⟩

end State.Shelters

/-! Moving values past the register. -/

def EvictsPast (d : Description) (n : Register) (i : SiteId) (evict : Evict) : Prop :=
  ∀ ⦃s s' : State⦄ ⦃old : Nat⦄ ⦃kept hollow : List SiteId⦄ ⦃id : ResourceId⦄ ⦃thief : Option ValueId⦄,
    Shelters old n i s kept hollow → Evictable s kept id → evict id thief s = .ok () s' → Avoids d n s s'

section

variable {evict : Evict}

theorem acquireResourceAvoids {o : Owner} (past : EvictsPast d n i evict)
    (shelters : Shelters old n i s kept hollow)
    (apart : ∀ p, s.Free id → s.owner? id = some p → p.site ∉ kept)
    (ok : acquireResource evict id o s = .ok () s') : Avoids d n s s' := by
  unfold acquireResource at ok
  rw [getBind] at ok
  split at ok
  · obtain ⟨-, rfl⟩ := pureOk.mp ok
    exact .refl s
  · rename_i unreserved
    split at ok
    · obtain ⟨⟨⟩, t, evicted, rfl⟩ : ∃ x t, evict id (some o.value) s = .ok x t ∧
          s' = t.modifyResources (·.setOwner id (some o)) := by simpa only [bindOk, modifyOk] using ok
      have free : s.Free id := by simpa [Free] using unreserved
      exact (past shelters ⟨free, fun p owner => apart p free owner⟩ evicted).trans (.quiet rfl)
    · rw [modifyOk.mp ok]
      exact .quiet rfl

theorem acquireAvoids (past : EvictsPast d n i evict) (shelters : Shelters old n i (s.reach j) kept hollow)
    (apart : ∀ id o, s.resource? j = some id → s.Free id → s.owner? id = some o → o.site ∉ kept)
    (ok : acquireWith evict v j s = .ok () s') : Avoids d n s s' := by
  have apart' : ∀ id, s.resource? j = some id → ∀ o, (s.reach j).Free id →
      (s.reach j).owner? id = some o → o.site ∉ kept := by
    intro id names o free owner
    rw [reachOwner] at owner
    exact apart id o names (((s.keepsReach j).free id).mp free) owner
  unfold acquireWith at ok
  rw [getBind] at ok
  cases site : s.site j with
  | constant p =>
    simp only [site, pureOk] at ok
    exact .quiet (by rw [← ok.2])
  | address p =>
    simp only [site, pureOk] at ok
    exact .quiet (by rw [← ok.2])
  | register mask number =>
    have reach : s.reach j = s := reachBare (by rw [site]; rfl)
    cases number with
    | none =>
      simp only [site, bindOk, modifyOk] at ok
      obtain ⟨m, w, settled, ⟨⟩, t, taken, rfl⟩ := ok
      obtain ⟨rfl, available, -⟩ := settleRegisterSpec settled
      rw [reach] at shelters
      have evictable := shelters.ready.evictable available
      exact (acquireResourceAvoids past shelters (fun o _ => evictable.apart o) taken).trans (.quiet rfl)
    | some m =>
      have names : s.resource? j = some (.register m) := by simp [resource?, site, Site.resource?]
      simp only [site, settleRegister, pureBind, bindOk, modifyOk] at ok
      obtain ⟨⟨⟩, t, taken, rfl⟩ := ok
      rw [← reach] at taken
      have avoids := acquireResourceAvoids past shelters (apart' _ names) taken
      rw [reach] at avoids
      exact avoids.trans (.quiet rfl)
  | memory m acquired =>
    have reach : s.reach j = s.referTo m := by simp [State.reach, site, Site.addressed, referToEq]
    have slot : (s.reach j).slotResource? (.memory m acquired) = s.resource? j := by
      rw [resource?, site]
      rfl
    have reached : Avoids d n s (s.reach j) := .quiet rfl
    simp only [site, modifyBind, getBind, ← reach, slot] at ok
    cases names : s.resource? j with
    | none =>
      simp only [names, modifyOk] at ok
      rw [ok]
      exact reached.trans (.quiet rfl)
    | some id =>
      simp only [names, bindOk, modifyOk] at ok
      obtain ⟨⟨⟩, t, taken, rfl⟩ := ok
      exact (reached.trans (acquireResourceAvoids past shelters (apart' _ names) taken)).trans (.quiet rfl)

theorem placeWithAvoids (past : EvictsPast d n i evict) (shelters : Shelters old n i s kept hollow)
    (known : s.IsSite j) (fresh : s.Unowned j)
    (apart : ∀ id o, s.resource? j = some id → s.Free id → s.owner? id = some o → o.site ∉ kept)
    (ok : placeWith evict v j s = .ok () s') : Avoids d n s s' := by
  unfold placeWith at ok
  rw [getBind] at ok
  split at ok
  · obtain ⟨-, rfl⟩ := pureOk.mp ok
    exact .refl s
  · obtain ⟨⟨⟩, t, acquired, rfl⟩ : ∃ x t, acquireWith evict v j s = .ok x t ∧ s' = t.enlist v j := by
      obtain ⟨x, t, acquired, listed⟩ := bindOk.mp ok
      exact ⟨x, t, acquired, modifyOk.mp listed⟩
    refine (acquireAvoids past (shelters.reach known fresh) (fun id o names free owner inside => ?_) acquired).trans
      (.quiet rfl)
    rcases List.mem_cons.mp inside with same | inside
    · exact fresh id o free owner same
    · exact apart id o names free owner inside

theorem Fit.placeable (fit : Fit old s kept id j) (available : (s.resources.get id).isUnavailable = false)
    (ready : Ready old s kept hollow) :
    ∀ other o, s.resource? j = some other → s.Free other → s.owner? other = some o → o.site ∉ kept := by
  intro other o names _ owner
  cases names.symm.trans fit.names
  exact (ready.evictable available).apart o owner

theorem placeFrozenAvoids {src : SiteId} (past : EvictsPast d n i evict)
    (shelters : Shelters old n i s kept hollow) (fit : Fit old s kept id j)
    (available : (s.resources.get id).isUnavailable = false) (there : s.IsSite src)
    (ok : whileFrozen src (placeWith evict v j) s = .ok () s') : Avoids d n s s' := by
  obtain ⟨t, placed, rfl⟩ := whileFrozenOk.mp ok
  have fresh : (s.freezeSite src).Unowned j := by
    intro id o free owner
    rw [freezeSiteOwner] at owner
    exact fit.unowned id o ((s.freezeSiteFree src id).mp free) owner
  refine .frozen (placeWithAvoids past (shelters.freeze there) ((s.freezeSiteIsSite src j).mpr fit.known)
    fresh (fun other o names _ owner => ?_) placed)
  rw [freezeSiteResource, fit.names] at names
  cases names
  rw [freezeSiteOwner] at owner
  exact (shelters.ready.evictable available).apart o owner

theorem operandApart {a : Operand} (other : s.resource? i ≠ some (.register n)) (ok : s.operand i = .ok a) :
    a ≠ .register n := by
  rintro rfl
  unfold State.operand at ok
  cases site : s.site i with
  | register mask number =>
    cases number with
    | none => simp [site] at ok
    | some m =>
      simp only [site, Except.ok.injEq, Operand.register.injEq] at ok
      exact other (by simp [resource?, site, Site.resource?, ok])
  | constant p => simp [site] at ok
  | address p => simp [site] at ok
  | memory m acquired => simp [site] at ok

theorem emitMoveAvoids {src dst : SiteId} (records : s'.Records) (other : s'.resource? dst ≠ some (.register n))
    (ok : emitMove src dst s = .ok () s') : Avoids d n s s' := by
  unfold emitMove at ok
  simp only [modifyBind, whileFrozenOk, emitBetween, bindOk, operandOfOk] at ok
  obtain ⟨_, ⟨u, ⟨a, _, ⟨-, rfl⟩, b, _, ⟨target, rfl⟩, emitted⟩, rfl⟩, rfl⟩ := ok
  have records : u.Records := by
    refine records.quiet ?_
    rw [thawSiteEq, thawSiteEq]
    rfl
  have records := recordsOfEmit records emitted
  have names : ((u.thawSite dst).thawSite src).resource? dst =
      (((s.count (·.countMove)).freezeSite src).freezeSite dst).resource? dst := by
    rw [thawSiteEq, thawSiteEq, (emitRecords records emitted).1]
    rfl
  have spared : b ≠ .register n := operandApart (by rwa [← names]) target
  have logged : Avoids d n _ u := emitAvoids records (by simpa [Request.writes] using spared) emitted
  have counted : Avoids d n s (s.count (·.countMove)) := .quiet rfl
  exact counted.trans (.frozen (.frozen logged))

theorem emitMoveResource {src dst : SiteId} (records : s.Records) (ok : emitMove src dst s = .ok () s') :
    s'.Records ∧ s'.resource? i = s.resource? i := by
  unfold emitMove at ok
  simp only [modifyBind, whileFrozenOk, emitBetween, bindOk, operandOfOk] at ok
  obtain ⟨_, ⟨u, ⟨a, _, ⟨-, rfl⟩, b, _, ⟨-, rfl⟩, emitted⟩, rfl⟩, rfl⟩ := ok
  have before : (((s.count (·.countMove)).freezeSite src).freezeSite dst).emitter = s.emitter := by
    rw [freezeSiteRest, freezeSiteRest]
    rfl
  obtain ⟨rest, records, -⟩ := emitRecords (records.quiet before) emitted
  refine ⟨records.quiet ?_, ?_⟩
  · rw [thawSiteEq, thawSiteEq]
    rfl
  · rw [thawSiteEq, thawSiteEq, rest, freezeSiteRest, freezeSiteRest]
    rfl

theorem chooseSiteApart {r : ReadId} {strict : Bool} {reserve : Nat} {moved : Option ValueId}
    (shelters : Shelters old n i s kept hollow) (ok : chooseSite r strict reserve moved s = .ok j s') :
    s'.emitter = s.emitter ∧ (∀ w, s'.value w = s.value w) ∧ Moves old kept hollow s hollow s' ∧
      ∃ id, id ≠ .register n ∧ (s'.resources.get id).isUnavailable = false ∧
        (∀ r, id = .register r → r < s'.machine.registerCount) ∧ Fit old s' kept id j := by
  obtain ⟨t, chosen, moves, values, resources, -, -, fit⟩ := chooseSiteMoves shelters.ready ok
  obtain ⟨available, -, numbered⟩ := chosen.obtainable chosen.possible
  have emitter : s'.emitter = s.emitter := by
    obtain ⟨_, _, _, _, -, -, rfl⟩ := chooseSiteSpec shelters.ready.formed ok
    rfl
  refine ⟨emitter, values, moves kept hollow, t.resource, shelters.apart available, by rwa [resources],
    fun r same => ?_, fit⟩
  rw [(moves kept hollow).keeps.machine]
  exact (numbered r same).2

theorem stageAvoids {src : SiteId} {mask : OperandMask} (evicts : Evicts evict) (past : EvictsPast d n i evict)
    (shelters : Shelters old n i s kept hollow) (value : s.IsValue v) (housed : s.hasSite v = true)
    (ok : stageWith evict v src mask s = .ok j s') : Avoids d n s s' := by
  unfold stageWith probe at ok
  simp only [modifyGetBind, bindOk, pureOk] at ok
  obtain ⟨j, s₁, chosen, ⟨⟩, s₂, placed, ⟨⟩, s₃, copied, rfl, rfl⟩ := ok
  have probed : Moves old kept hollow s hollow
      { s with reads := (s.reads.single v (.ofOperand mask) (some v)).2 } :=
    .ask _ s.statistics s.resources.available (ReadTable.evolvesPush _ _ _ _)
  obtain ⟨quiet, values, before, id, apart, available, numbered, fit⟩ :=
    chooseSiteApart (shelters.moves probed) chosen
  have shelters₁ := (shelters.moves probed).moves before
  have keeps := probed.keeps.trans before.keeps
  have value₁ : s₁.IsValue v := (keeps.isValue v).mpr value
  have housed₁ : s₁.hasSite v = true := by
    rw [hasSiteCongr keeps.size values]
    exact housed
  obtain ⟨taken, -⟩ := placeSpec evicts shelters₁.ready value₁ fit (shelters₁.ready.evictable available)
    (entitledOf housed₁ numbered available) placed
  obtain ⟨records, same⟩ := emitMoveResource (i := j) (taken.records shelters₁.records) copied
  have other : s₃.resource? j ≠ some (.register n) := by
    rw [same, taken.keeps.resource fit.known, fit.names]
    simpa using apart
  have placing : Avoids d n s₁ s₂ := placeWithAvoids past shelters₁ fit.known fit.unowned
    (fit.placeable available shelters₁.ready) placed
  exact (Avoids.quiet quiet).trans
    (placing.trans (emitMoveAvoids records other copied))

theorem freezeSiteHasSite (s : State) (i : SiteId) (v : ValueId) :
    (s.freezeSite i).hasSite v = s.hasSite v :=
  hasSiteCongr (by rw [freezeSiteRest]) (s.freezeSiteValue i) v

theorem copyAvoids {src dst origin : SiteId} {temporary : OperandMask} (evicts : Evicts evict)
    (past : EvictsPast d n i evict) (shelters : Shelters old n i s kept hollow) (value : s.IsValue v)
    (housed : s.hasSite v = true) (there : s.IsSite src) (known : s.IsSite dst)
    (staged : (origin = src ∧ u = s) ∨
      whileFrozen src (whileFrozen dst (stageWith evict v src temporary)) s = .ok origin u)
    (ok : emitMove origin dst u = .ok () s') (records : s'.Records)
    (other : s'.resource? dst ≠ some (.register n)) : Avoids d n s s' := by
  refine .trans ?_ (emitMoveAvoids records other ok)
  rcases staged with ⟨-, rfl⟩ | staged
  · exact .refl _
  · simp only [whileFrozenOk] at staged
    obtain ⟨_, ⟨x, stage, rfl⟩, rfl⟩ := staged
    have housed' : ((s.freezeSite src).freezeSite dst).hasSite v = true := by
      rw [freezeSiteHasSite, freezeSiteHasSite]
      exact housed
    have value' : ((s.freezeSite src).freezeSite dst).IsValue v := by
      rw [freezeSiteRest, freezeSiteRest]
      exact value
    have shelters' := (shelters.freeze there).freeze ((s.freezeSiteIsSite src dst).mpr known)
    exact .frozen (.frozen (stageAvoids evicts past shelters' value' housed' stage))

theorem relocateAvoids {r : ReadId} {strict : Bool} {reserve : Nat} (evicts : Evicts evict)
    (past : EvictsPast d n i evict) (shelters : Shelters old n i s kept hollow)
    (value : s.IsValue (s.reads.value r))
    (filled : ∀ o ∈ s.placements (s.reads.value r), o.site ∉ hollow)
    (ok : relocateWith evict r strict reserve s = .ok j s') : Avoids d n s s' := by
  have outcome := relocateSpec evicts shelters.ready value filled ok
  obtain ⟨id', names', available'⟩ := outcome.obtained
  have other : s'.resource? j ≠ some (.register n) := by
    rw [names']
    simpa using shelters.apart available'
  have records := outcome.moves.records shelters.records
  unfold relocateWith at ok
  simp only [getBind, bindOk] at ok
  obtain ⟨dst, s₁, chosen, ok⟩ := ok
  generalize s.reads.value r = v at *
  have quiet := (chooseSiteApart shelters chosen).1
  obtain ⟨t, target, moves, -, resources, site, -, fresh⟩ := chooseSiteMoves shelters.ready chosen
  obtain ⟨available, -, numbered⟩ := target.obtainable target.possible
  have before := moves kept hollow
  have keeps := before.keeps
  have shelters₁ := shelters.moves before
  have first : Avoids d n s s₁ := .quiet quiet
  cases cheapest : cheapestSource (s₁.copyCosts v (s₁.site dst)
      (SiteMask.ofOperand (s₁.machine.planMove wordSize (s₁.site dst).operandMask).source)) with
  | none => simp [cheapest] at ok
  | some c =>
    obtain ⟨src, cost⟩ := c
    simp only [cheapest] at ok
    obtain ⟨⟨m, inRing, listed⟩, costless⟩ := copyCostsMem (cheapestSourceMem cheapest)
    have there := shelters₁.ready.formed.listed m src listed
    by_cases zero : cost = 0
    · simp only [zero, beq_self_eq_true, if_true, pureOk] at ok
      rw [← ok.2]
      exact first
    have nonzero : (cost == 0) = false := by simpa using zero
    simp only [nonzero, Bool.false_eq_true, if_false, bindOk] at ok
    obtain ⟨⟨⟩, s₂, placed, ok⟩ := ok
    have value₁ : s₁.IsValue v := (keeps.isValue v).mpr value
    have available₁ : (s₁.resources.get t.resource).isUnavailable = false := by
      rw [resources]
      exact available
    have placing : Avoids d n s₁ s₂ := placeFrozenAvoids past shelters₁ fresh available₁ there placed
    have apart : dst ≠ src := by
      rintro rfl
      exact fresh.unlisted m listed
    have differs : (s₁.site src).coincides (t.toSite s₁.geometry) = false := by
      rw [← Bool.not_eq_true, keeps.geometry, ← site]
      exact fun same => zero (costless.mpr same)
    obtain ⟨taken, held, -⟩ := placeFrozenSpec evicts shelters₁.ready value₁ fresh apart available₁ there
      (entitledOf (hasSiteOf inRing listed) (fun r same => by
        rw [keeps.machine]
        exact (numbered r same).2) available₁)
      (fun same => ⟨m, src, listed, same, bareOfSameResource shelters₁.ready.formed
        (fun r same => (numbered r same).1) same differs⟩) placed
    have finish : ∀ {origin : SiteId} {u : State}, ((origin = src ∧ u = s₂) ∨
        whileFrozen src (whileFrozen dst (stageWith evict v src
          (s₁.machine.planMove wordSize (s₁.site dst).operandMask).temporary)) s₂ = .ok origin u) →
        emitMove origin dst u = .ok () s' → s'.resource? dst ≠ some (.register n) → Avoids d n s s' := by
      intro origin u staged emitted other
      exact (first.trans placing).trans (copyAvoids evicts past (shelters₁.moves taken)
        ((taken.keeps.isValue v).mpr value₁) (hasSiteOf (selfMemRing _ v) held) (taken.keeps.isSite there)
        (taken.keeps.isSite fresh.known) staged emitted records other)
    obtain ⟨now, now', got, ok⟩ := ok
    obtain ⟨rfl, rfl⟩ := getOk.mp got
    split at ok
    · simp only [pureBind, bindOk, pureOk] at ok
      obtain ⟨⟨⟩, u, emitted, rfl, rfl⟩ := ok
      exact finish (.inl ⟨rfl, rfl⟩) emitted other
    · simp only [bindOk, pureOk] at ok
      obtain ⟨origin, u, staged, ⟨⟩, w, emitted, rfl, rfl⟩ := ok
      exact finish (.inr staged) emitted other

theorem displaceAvoids {o : Owner} {r : ReadId} {reserve : Nat} (evicts : Evicts evict)
    (past : EvictsPast d n i evict) (shelters : Shelters old n i s kept hollow)
    (evictable : Evictable s kept id) (owner : s.owner? id = some o)
    (last : s.isLastSite o.value o.site = true) (reader : s.reads.value r ∈ s.ring o.value)
    (ok : whileFrozen o.site (relocateWith evict r false reserve) s = .ok j s') : Avoids d n s s' := by
  obtain ⟨value, known, -⟩ := shelters.ready.named id o evictable.free owner
  obtain ⟨t, relocated, rfl⟩ := whileFrozenOk.mp ok
  have rings := shelters.ready.formed.rings
  have reads : (s.freezeSite o.site).reads = s.reads := by rw [freezeSiteRest]
  have value' : (s.freezeSite o.site).IsValue ((s.freezeSite o.site).reads.value r) := by
    have there := isValueOfRing rings value reader
    rw [reads, freezeSiteRest]
    exact there
  have filled : ∀ p ∈ (s.freezeSite o.site).placements ((s.freezeSite o.site).reads.value r),
      p.site ∉ hollow := by
    intro p member inside
    rw [reads] at member
    obtain ⟨inRing, listed⟩ := memPlacements.mp member
    rw [freezeSiteRing] at inRing
    rw [freezeSiteValue] at listed
    rw [onlySite last (memRingTrans rings value reader inRing) listed] at inside
    exact evictable.apart o owner (shelters.ready.guarded o.site inside)
  exact .frozen (relocateAvoids evicts past (shelters.freeze known) value' filled relocated)

end

theorem evictWithinAvoids (fuel : Nat) : EvictsPast d n i (evictWithin fuel) := by
  induction fuel with
  | zero =>
    intro s s' old kept hollow id thief shelters evictable ok
    simp [evictWithin] at ok
  | succ fuel ih =>
    intro s s' old kept hollow id thief shelters evictable ok
    unfold evictWithin at ok
    rw [getBind] at ok
    cases owner : (s.resources.get id).owner with
    | none =>
      simp only [owner, pureOk] at ok
      rw [← ok.2]
      exact .refl s
    | some o =>
      simp only [owner, modifyBind] at ok
      have counted : Moves old kept hollow s hollow (s.count (·.countSteal)) := Moves.count _
      have shelters₁ := shelters.moves counted
      have formed := shelters₁.ready.formed
      obtain ⟨value, known, names⟩ := shelters.ready.named id o evictable.free owner
      split at ok
      · rename_i alone
        have last : (s.count (·.countSteal)).isLastSite o.value o.site = true := by
          simp only [Bool.and_eq_true] at alone
          rw [← alone.2]
          apply isLastSiteCongr
          · rfl
          · exact fun _ => rfl
        obtain ⟨reads, state, evolves, found, -⟩ := liveReadSpec formed o.value
        simp only [modifyGetBind, state] at ok
        cases read : ((s.count (·.countSteal)).liveRead? o.value).1 with
        | none =>
          simp only [read, modifyOk] at ok
          rw [ok]
          refine .quiet ?_
          rw [removeSiteQuiet]
          rfl
        | some r =>
          simp only [read, bindOk, modifyOk] at ok
          obtain ⟨moved, u, displaced, ⟨⟩, w, rfl, rfl⟩ := ok
          have asked : Moves old kept hollow (s.count (·.countSteal)) hollow
              { s.count (·.countSteal) with reads } :=
            .ask reads _ s.resources.available evolves
          obtain ⟨-, m, member, chain⟩ := found r read
          have reader : { s.count (·.countSteal) with reads }.reads.value r ∈
              { s.count (·.countSteal) with reads }.ring o.value := by
            rw [asked.keeps.ring, ((shelters₁.moves asked).ready.formed.heads m r chain).2]
            exact member
          have last' : { s.count (·.countSteal) with reads }.isLastSite o.value o.site = true := by
            rw [← last]
            apply isLastSiteCongr
            · rfl
            · exact fun _ => rfl
          have moving : Avoids d n { s.count (·.countSteal) with reads } u :=
            displaceAvoids (evictWithinSpec fuel) ih (shelters₁.moves asked) ⟨evictable.free, evictable.apart⟩
              owner last' reader displaced
          refine moving.trans (.quiet ?_)
          rw [removeSiteQuiet]
          rfl
      · rw [modifyOk.mp ok]
        refine .quiet ?_
        rw [removeSiteQuiet]
        rfl

theorem evictAvoids : EvictsPast d n i evict := by
  intro s s' old kept hollow id thief shelters evictable ok
  unfold evict at ok
  rw [getBind] at ok
  exact evictWithinAvoids _ shelters evictable ok

end Lowering
