import Lowering.Proofs.Targets
/-!
Copying a word from one site to another.

The emitter may borrow a register for a copy. A register that is lent is taken only from an owner
that can spare it, and when it is back the tables are as before. So a copy is a rearrangement that
fills the site it goes to.
-/
namespace Lowering

namespace State

variable {s s' : State} {old : Nat} {kept hollow : List SiteId}

def Pinned (s : State) (k : SiteId) : Prop :=
  ∀ id, s.resource? k = some id → s.resources.Has id → s.Free id →
    0 < (s.resources.get id).freezes

/-- The sites are of the method, and none of them can be taken away: it is pinned, or nothing is
owned through it. -/
def Secured (s : State) (kept : List SiteId) : Prop :=
  ∀ k ∈ kept, s.IsSite k ∧ (s.Pinned k ∨ s.Unowned k)

theorem Secured.nil : s.Secured [] := fun _ member => by cases member

theorem Keeps.pinned (h : Keeps s s') {k : SiteId} (known : s.IsSite k) (pinned : s.Pinned k) :
    s'.Pinned k := by
  intro id names has free
  rw [h.resource known] at names
  rw [h.resources.freezes]
  exact pinned id names ((h.has id).mp has) ((h.free id).mp free)

theorem Moves.secured {h₀ h₁ : List SiteId} (run : Moves old kept h₀ s h₁ s')
    (secured : s.Secured kept) : s'.Secured kept := by
  intro k member
  obtain ⟨known, pinned | fresh⟩ := secured k member
  · exact ⟨run.keeps.isSite known, .inl (run.keeps.pinned known pinned)⟩
  · exact ⟨run.keeps.isSite known, .inr (run.unowned member fresh)⟩

theorem freezeSiteHas (s : State) (i : SiteId) (id : ResourceId) :
    (s.freezeSite i).resources.Has id ↔ s.resources.Has id := by
  rw [freezeSiteEq]
  unfold modifyResources
  dsimp only
  cases s.resource? i with
  | none => exact (ResourceTable.steadyReferAll _ _).shape.has id
  | some named => exact (ResourceTable.freezeAdjusts _ named).shape.has id

theorem freezeSiteFreezes (s : State) (i : SiteId) (id : ResourceId) :
    ((s.freezeSite i).resources.get id).freezes =
      (s.resources.get id).freezes +
        if s.resource? i = some id ∧ s.resources.Has id ∧ s.Free id then 1 else 0 := by
  rw [freezeSiteEq]
  unfold modifyResources
  dsimp only
  cases names : s.resource? i with
  | none => simp [(ResourceTable.steadyReferAll _ _).freezes]
  | some named =>
    dsimp only
    rw [(ResourceTable.freezeAdjusts _ named).get]
    by_cases same : id = named
    · subst same
      by_cases here : s.resources.Has id ∧ (s.resources.get id).reserved = false
      · rw [if_pos ⟨rfl, here⟩, if_pos ⟨rfl, here⟩]
      · rw [if_neg fun h => here h.2, if_neg fun h => here h.2]
        rfl
    · rw [if_neg fun h => same h.1, if_neg fun h => same (Option.some.inj h.1).symm]
      rfl

theorem freezeSiteResource (s : State) (i k : SiteId) :
    (s.freezeSite i).resource? k = s.resource? k := by
  rw [freezeSiteEq]
  rfl

theorem freezeSiteIsSite (s : State) (i k : SiteId) : (s.freezeSite i).IsSite k ↔ s.IsSite k := by
  rw [freezeSiteEq]
  exact Iff.rfl

theorem Pinned.freeze {k : SiteId} (pinned : s.Pinned k) (i : SiteId) :
    (s.freezeSite i).Pinned k := by
  intro id names has free
  rw [freezeSiteResource] at names
  rw [freezeSiteHas] at has
  rw [freezeSiteFree] at free
  rw [freezeSiteFreezes]
  exact Nat.add_pos_left (pinned id names has free) _

theorem pinnedFreeze (s : State) (i : SiteId) : (s.freezeSite i).Pinned i := by
  intro id names has free
  rw [freezeSiteResource] at names
  rw [freezeSiteHas] at has
  rw [freezeSiteFree] at free
  rw [freezeSiteFreezes, if_pos ⟨names, has, free⟩]
  exact Nat.succ_pos _

theorem Secured.freeze {i : SiteId} (secured : s.Secured kept) (known : s.IsSite i) :
    (s.freezeSite i).Secured (i :: kept) := by
  intro k member
  rcases List.mem_cons.mp member with rfl | member
  · exact ⟨(s.freezeSiteIsSite k k).mpr known, .inl (s.pinnedFreeze k)⟩
  · obtain ⟨there, pinned | fresh⟩ := secured k member
    · exact ⟨(s.freezeSiteIsSite i k).mpr there, .inl (pinned.freeze i)⟩
    · refine ⟨(s.freezeSiteIsSite i k).mpr there, .inr fun id o free owner => ?_⟩
      rw [freezeSiteOwner] at owner
      rw [freezeSiteFree] at free
      exact fresh id o free owner

theorem Secured.apart (secured : s.Secured kept) (named : s.Named) {id : ResourceId} {o : Owner}
    (owner : s.owner? id = some o) (available : (s.resources.get id).isUnavailable = false) :
    o.site ∉ kept := by
  intro member
  simp only [Resource.isUnavailable, Bool.or_eq_false_iff, decide_eq_false_iff_not] at available
  rcases (secured _ member).2 with pinned | fresh
  · have frozen := pinned id (named id o available.1.1 owner).2.2 (ResourceTable.hasOfOwner owner)
      available.1.1
    omega
  · exact fresh id o available.1.1 owner rfl

theorem freezeSiteSlots (s : State) (i : SiteId) :
    (s.freezeSite i).resources.slots.length = s.resources.slots.length := by
  rw [freezeSiteEq]
  unfold modifyResources
  dsimp only
  cases s.resource? i with
  | none => exact (ResourceTable.steadyReferAll _ _).shape.slots
  | some named => exact (ResourceTable.freezeAdjusts _ named).shape.slots

theorem wellFormedFreeze (formed : s.WellFormed) (i : SiteId) : (s.freezeSite i).WellFormed := by
  have frame := formed.frame
  rw [← s.freezeSiteSlots i] at frame
  rw [freezeSiteEq] at frame ⊢
  exact ⟨⟨formed.rings.known, formed.rings.injective⟩, formed.listed, formed.reads, formed.heads,
    frame⟩

theorem placementsCongr (size : s'.values.size = s.values.size)
    (value : ∀ v, s'.value v = s.value v) (v : ValueId) : s'.placements v = s.placements v := by
  have same : s'.ownPlacements = s.ownPlacements := by
    funext w
    simp [ownPlacements, value]
  rw [placements, placements, ringCongr size (fun w => by rw [value w]) v, same]

theorem hasSiteOf {v m : ValueId} {i : SiteId} (member : m ∈ s.ring v)
    (listed : i ∈ (s.value m).sites) : s.hasSite v = true := by
  simp only [hasSite, List.any_eq_true, bne_iff_ne]
  exact ⟨m, member, List.ne_nil_of_mem listed⟩

theorem hasSiteCongr (size : s'.values.size = s.values.size)
    (value : ∀ v, s'.value v = s.value v) (v : ValueId) : s'.hasSite v = s.hasSite v := by
  simp only [hasSite, ringCongr size (fun w => by rw [value w]) v, value]

theorem memPlacements {v : ValueId} {o : Owner} :
    o ∈ s.placements v ↔ o.value ∈ s.ring v ∧ o.site ∈ (s.value o.value).sites := by
  simp only [placements, ownPlacements, List.mem_flatMap, List.mem_map]
  constructor
  · rintro ⟨m, member, i, listed, rfl⟩
    exact ⟨member, listed⟩
  · rintro ⟨member, listed⟩
    exact ⟨o.value, member, o.site, listed, rfl⟩

end State

/-! Lending a register. -/

inductive Lends (s : State) (r : Register) : State → Prop
  | vacant (none : s.owner? (.register r) = none) : Lends s r s
  | owned {o : Owner} {reads : ReadTable} {statistics : Statistics}
      (owner : s.owner? (.register r) = some o) (evolves : s.reads.Evolves reads)
      (spare : s.isLastSite o.value o.site = false ∨ ¬ s.Live o.value) :
      Lends s r ({ s with reads, statistics }.removeSite o.value o.site)

open Build in
theorem acquireTemporarySpec {s s' : State} {mask : RegisterSet} {r : Register}
    (formed : s.WellFormed) (ok : acquireTemporary mask s = .ok r s') :
    (s.chooseRegister none mask none).resource = .register r ∧
      (s.resources.get (.register r)).isUnavailable = false ∧
      ∃ u, Lends s r u ∧ s' = u.modifyResources (·.refer (.register r)) := by
  unfold acquireTemporary at ok
  rw [getBind] at ok
  have obtainable := State.chooseRegisterSpec (s := s) (P := Target.Obtainable s) none none mask
    State.impossibleObtainable fun _ listed member =>
      State.registerObtainable _ _ listed member
  generalize s.chooseRegister none mask none = t at ok obtainable ⊢
  obtain ⟨resource, cost⟩ := t
  cases possible : (Target.mk resource cost).isImpossible with
  | true => simp [possible] at ok
  | false =>
    cases resource with
    | slot n => simp [possible] at ok
    | register n =>
      have available := (obtainable possible).1
      simp only [possible] at ok
      cases owner : (s.resources.get (.register n)).owner with
      | none =>
        simp only [owner, modifyBind, pureOk] at ok
        obtain ⟨rfl, rfl⟩ := ok
        exact ⟨rfl, available, s, .vacant owner, rfl⟩
      | some o =>
        simp only [owner] at ok
        cases last : s.isLastSite o.value o.site with
        | false =>
          simp only [last, Bool.false_eq_true, if_false, modifyBind, pureOk] at ok
          obtain ⟨rfl, rfl⟩ := ok
          exact ⟨rfl, available, _, .owned owner (.refl _) (.inl last), rfl⟩
        | true =>
          simp only [last, if_true, live, modifyGetBind] at ok
          obtain ⟨reads, state, evolves, -, -⟩ := State.liveReadSpec formed o.value
          cases alive : (s.isLive o.value).1 with
          | true => simp [alive, bindOk] at ok
          | false =>
            simp only [alive, Bool.false_eq_true, if_false, modifyBind, pureOk,
              State.isLiveState, state] at ok
            obtain ⟨rfl, rfl⟩ := ok
            exact ⟨rfl, available, _, .owned owner evolves (.inr (by simp [State.Live, alive])), rfl⟩

namespace State

variable {s s' u : State} {old : Nat} {kept hollow : List SiteId} {r : Register}

theorem isLastSiteCongr (size : s'.values.size = s.values.size)
    (value : ∀ v, s'.value v = s.value v) (v : ValueId) (i : SiteId) :
    s'.isLastSite v i = s.isLastSite v i := by
  rw [isLastSite, isLastSite, placementsCongr size value]

theorem lendsMoves (formed : s.WellFormed) (named : s.Named) (secured : s.Secured kept)
    (guarded : ∀ x ∈ hollow, x ∈ kept)
    (available : (s.resources.get (.register r)).isUnavailable = false) (lends : Lends s r u) :
    Moves old kept hollow s hollow u := by
  cases lends with
  | vacant => exact .refl _ _ _
  | @owned o reads statistics owner evolves spare =>
    have asked : Moves old kept hollow s hollow { s with reads, statistics } :=
      .ask reads statistics s.resources.available evolves
    have free : s.Free (.register r) := by
      simp only [Resource.isUnavailable, Bool.or_eq_false_iff] at available
      exact available.1.1
    have apart := secured.apart named owner available
    have owner' : { s with reads, statistics }.owner? (.register r) = some o := owner
    refine asked.trans (.drop free owner' apart (fun inside => apart (guarded _ inside)) ?_)
    · rcases spare with spare | dead
      · refine .inl ?_
        rw [← spare]
        apply isLastSiteCongr
        · rfl
        · exact fun _ => rfl
      · exact .inr fun alive => dead ((asked.live formed _).mp alive)

theorem referUnrefer (t : ResourceTable) {id : ResourceId} (free : (t.get id).reserved = false) :
    ∃ available, (t.refer id).unrefer id = { t with available } := by
  obtain ⟨n, referred⟩ := (ResourceTable.referAdjusts t id).free free
  have free' : ((t.refer id).get id).reserved = false :=
    ((ResourceTable.Steady.refer t id).reserved id).trans free
  obtain ⟨m, unreferred⟩ := (ResourceTable.unreferAdjusts (t.refer id) id).free free'
  refine ⟨m, ?_⟩
  have cancel : ∀ (l : List Resource) (k : Nat),
      (l.modify k fun r => { r with references := r.references + 1 }).modify k
        (fun r => { r with references := r.references - 1 }) = l := by
    intro l k
    rw [List.modify_modify_eq]
    exact List.modify_id _ _
  rw [unreferred, referred]
  cases id <;> simp [ResourceTable.modify, cancel]

theorem Keeps.operand (h : Keeps s s') {i : SiteId} (known : s.IsSite i) :
    s'.operand i = s.operand i := by
  have place := h.place i known
  have constant : s'.constantOf = s.constantOf := by
    funext p
    unfold constantOf
    rw [h.rest]
  unfold State.operand
  rw [constant]
  cases old : s.site i <;> cases new : s'.site i <;> simp_all [Site.place]

end State

/-! Emission that borrows at most once. -/

namespace X64

def Borrows {σ α : Type} (lender : ScratchSource σ) (act : Emit σ α) : Prop :=
  ∀ m x m', act m = .ok x m' → m'.lender = m.lender ∨
    ∃ r l, lender.acquire generalRegisters m.lender = .ok r l ∧ m'.lender = lender.release r l

variable {σ α β : Type} {lender : ScratchSource σ}

theorem borrowsLift (act : Asm α) : Borrows lender (Asm.lift act) := by
  intro m x m' ok
  unfold Asm.lift at ok
  split at ok
  · cases ok
    exact .inl rfl
  · cases ok

theorem borrowsTemporary (act : Register → Asm α) : Borrows lender (withTemporary lender act) := by
  intro m x m' ok
  unfold withTemporary at ok
  split at ok
  · cases ok
  · rename_i r l borrowed
    split at ok
    · cases ok
      exact .inr ⟨r, l, borrowed, rfl⟩
    · cases ok

theorem borrowsAfter (first : Asm β) {act : β → Emit σ α} (each : ∀ b, Borrows lender (act b)) :
    Borrows lender (Asm.lift first >>= act) := by
  intro m x m' ok
  simp only [bind, EStateM.bind, Asm.lift] at ok
  split at ok
  · rename_i b u eq
    split at eq
    · cases eq
      have later := each b ⟨_, m.lender⟩ x m' ok
      exact later
    · cases eq
  · cases ok

theorem borrowsMove (aSize : Nat) (a : Operand) (bSize : Nat) (b : Operand) :
    Borrows lender (moveOperand lender aSize a bSize b) := by
  have into : ∀ r, Borrows lender (moveIntoRegister lender aSize a bSize r) := by
    intro r
    unfold moveIntoRegister
    split
    · exact borrowsLift _
    · exact borrowsLift _
    · split
      · exact borrowsTemporary _
      · split
        · exact borrowsLift _
        · exact borrowsLift _
    · split
      · exact borrowsTemporary _
      · exact borrowsLift _
  unfold moveOperand
  split
  · exact into _
  · exact borrowsLift _
  · refine borrowsAfter _ fun m => ?_
    split
    · exact borrowsLift _
    · exact borrowsTemporary _
  · exact borrowsTemporary _
  · exact borrowsLift _

end X64

namespace State

variable {s s' u : State} {old : Nat} {kept hollow : List SiteId} {r : Register}

theorem removeSiteEmitter (s : State) (e : Emitter) (v : ValueId) (i : SiteId) :
    { s with emitter := e }.removeSite v i = { s.removeSite v i with emitter := e } := by
  have placements : { s with emitter := e }.placements v = s.placements v := by
    apply placementsCongr
    · rfl
    · exact fun _ => rfl
  have released : ∀ j, { s with emitter := e }.releasedResources j = s.releasedResources j := by
    intro j
    have disowned : ∀ id, ({ s with emitter := e }.disown id j).resources =
        (s.disown id j).resources := by
      intro id
      unfold disown
      dsimp only
      split <;> rfl
    have names : { s with emitter := e }.resource? j = s.resource? j := rfl
    unfold releasedResources
    rw [names]
    cases s.resource? j with
    | none => rfl
    | some id =>
      cases taken : (s.site j).isTaken with
      | true =>
        have taken' : ({ s with emitter := e }.site j).isTaken = true := taken
        simp only [taken', if_true, disowned]
        rfl
      | false =>
        have taken' : ({ s with emitter := e }.site j).isTaken = false := taken
        simp only [taken', Bool.false_eq_true, if_false]
        rfl
  unfold removeSite
  rw [placements]
  split
  · rw [detach, detach, releaseEq, releaseEq, released]
    rfl
  · rfl

theorem keepsEmitter (s : State) (e : Emitter) : Keeps s { s with emitter := e } :=
  ⟨rfl, rfl, fun _ => rfl, Nat.le_refl _, fun _ _ => rfl, .refl _, .refl _⟩

theorem lendsEmitter {e : Emitter} (formed : s.WellFormed) (lends : Lends { s with emitter := e } r u) :
    ∃ u', Lends s r u' ∧ u = { u' with emitter := e } := by
  have idle := s.keepsEmitter e
  cases lends with
  | vacant none => exact ⟨s, .vacant none, rfl⟩
  | @owned o reads statistics owner evolves spare =>
    have owner' : s.owner? (.register r) = some o := owner
    refine ⟨{ s with reads, statistics }.removeSite o.value o.site, .owned owner' evolves ?_,
      removeSiteEmitter { s with reads, statistics } e _ _⟩
    rcases spare with spare | dead
    · refine .inl ?_
      rw [← spare]
      apply isLastSiteCongr
      · rfl
      · exact fun _ => rfl
    · exact .inr fun alive => dead ((idle.live formed (idle.wellFormed formed formed.listed) _).mpr alive)

theorem removeSiteRest (s : State) (v : ValueId) (i : SiteId) :
    (s.removeSite v i).emitter = s.emitter := by
  obtain ⟨same, -⟩ | ⟨m, -, -, same⟩ := s.removeSiteCases v i
  · rw [same]
  · rw [same, s.detachRest]

theorem lendsRest (lends : Lends s r u) : u.emitter = s.emitter := by
  cases lends with
  | vacant => rfl
  | owned => exact removeSiteRest _ _ _

theorem emitCopySpec {a b : Operand} (formed : s.WellFormed) (named : s.Named)
    (secured : s.Secured kept) (guarded : ∀ x ∈ hollow, x ∈ kept)
    (ok : emit (.binary .move wordSize a wordSize b) s = .ok () s') :
    ∃ u e, Moves old kept hollow s hollow u ∧ u.emitter = s.emitter ∧ s' = { u with emitter := e } ∧
      Logs s.emitter (.binary .move wordSize a wordSize b) e := by
  unfold emit Emitter.emit at ok
  cases which : s.emitter with
  | recording rec =>
    simp only [which, Recorder.emit] at ok
    cases ok
    refine ⟨s, _, .refl _ _ _, which, rfl, ?_⟩
    rintro rec' ⟨⟩
    rfl
  | machine m =>
    simp only [which] at ok
    split at ok
    · rename_i e u emitted
      cases ok
      split at emitted
      · rename_i done ran
        cases emitted
        have idle := s.keepsEmitter (.recording {})
        rcases X64.borrowsMove wordSize a wordSize b _ _ _ ran with same | ⟨r, l, lent, back⟩
        · refine ⟨s, .machine done.assembler, .refl _ _ _, which, ?_, by rintro _ ⟨⟩⟩
          rw [same]
        · obtain ⟨-, available, v, lends, rfl⟩ :=
            acquireTemporarySpec (idle.wellFormed formed formed.listed) lent
          obtain ⟨v', lends', rfl⟩ := lendsEmitter formed lends
          have moves : Moves old kept hollow s hollow v' :=
            lendsMoves formed named secured guarded available lends'
          have free : (v'.resources.get (.register r)).reserved = false := by
            simp only [Resource.isUnavailable, Bool.or_eq_false_iff] at available
            rw [moves.keeps.resources.reserved]
            exact available.1.1
          obtain ⟨n, balanced⟩ := referUnrefer v'.resources free
          refine ⟨{ v' with resources := { v'.resources with available := n } },
            .machine done.assembler,
            moves.trans (.ask v'.reads v'.statistics n (.refl _)), ?_, ?_, by rintro _ ⟨⟩⟩
          · exact (lendsRest lends').trans which
          · rw [back]
            simp only [temporaries, releaseTemporary, modifyResources, balanced]
      · cases emitted
    · cases ok

theorem plainCongr {x x' : Site} (geometry : s'.geometry = s.geometry)
    (slots : s'.resources.slots.length = s.resources.slots.length) (same : x'.place = x.place) :
    s'.Plain x' ↔ s.Plain x := by
  have words : ∀ m, (∃ acquired, x' = .memory m acquired) ↔ ∃ acquired, x = .memory m acquired := by
    intro m
    cases x <;> cases x' <;> simp_all [Site.place]
  unfold Plain
  rw [geometry, slots]
  constructor
  · intro plain m acquired same base
    obtain ⟨acquired', there⟩ := (words m).mpr ⟨acquired, same⟩
    exact plain m acquired' there base
  · intro plain m acquired same base
    obtain ⟨acquired', there⟩ := (words m).mp ⟨acquired, same⟩
    exact plain m acquired' there base

theorem freezeSiteRest (s : State) (i : SiteId) :
    s.freezeSite i = { s with resources := (s.freezeSite i).resources } := by
  rw [freezeSiteEq]
  rfl

theorem freezeSiteRing (s : State) (i : SiteId) (v : ValueId) :
    (s.freezeSite i).ring v = s.ring v := by
  apply ringCongr
  · rw [freezeSiteEq]
    rfl
  · intro u
    rw [freezeSiteValue]

theorem thawSiteRing (s : State) (i : SiteId) (v : ValueId) :
    (s.thawSite i).ring v = s.ring v := by
  apply ringCongr
  · rw [thawSiteEq]
    rfl
  · intro u
    rw [thawSiteValue]

theorem Moves.count (f : Statistics → Statistics) : Moves old kept hollow s hollow (s.count f) :=
  .ask s.reads (f s.statistics) s.resources.available (.refl _)

open Build in
@[simp] theorem operandOfOk {i : SiteId} {a : Operand} :
    operandOf i s = .ok a s' ↔ s.operand i = .ok a ∧ s' = s := by
  unfold operandOf
  rw [getBind]
  cases s.operand i with
  | ok b => simp [eq_comm]
  | error e => simp

/-- A copy from `src` to `dst` that makes sense: both are of the method, `dst` is a site of `v`,
and `src` has been filled and is a site of `v` or an alias. -/
structure Copies (s : State) (hollow : List SiteId) (v : ValueId) (src dst : SiteId) : Prop where
  knownSource : s.IsSite src
  knownTarget : s.IsSite dst
  held : dst ∈ (s.value v).sites
  source : (∃ m ∈ s.ring v, src ∈ (s.value m).sites) ∨ ¬ s.Plain (s.site src)
  filled : src ∉ dst :: hollow

theorem Copies.freeze {v : ValueId} {src dst : SiteId} (h : Copies s hollow v src dst)
    (i : SiteId) : Copies (s.freezeSite i) hollow v src dst := by
  refine ⟨?_, ?_, ?_, ?_, h.filled⟩
  · rw [freezeSiteEq]
    exact h.knownSource
  · rw [freezeSiteEq]
    exact h.knownTarget
  · rw [freezeSiteValue]
    exact h.held
  · rcases h.source with ⟨m, member, listed⟩ | bare
    · refine .inl ⟨m, ?_, ?_⟩
      · rwa [freezeSiteRing]
      · rwa [freezeSiteValue]
    · refine .inr fun plain => bare ?_
      refine (plainCongr ?_ (s.freezeSiteSlots i) ?_).mp plain
      · rw [freezeSiteEq]
        rfl
      · rw [freezeSiteEq]
        rfl

theorem Copies.moves {v : ValueId} {src dst : SiteId} {guarded h₀ h₁ : List SiteId}
    (h : Copies s hollow v src dst) (run : Moves old guarded h₀ s h₁ s')
    (guardsSource : src ∈ guarded) (guardsTarget : dst ∈ guarded) : Copies s' hollow v src dst := by
  have keeps := run.keeps
  refine ⟨keeps.isSite h.knownSource, keeps.isSite h.knownTarget,
    run.keepsListed guardsTarget h.held, ?_, h.filled⟩
  rcases h.source with ⟨m, member, listed⟩ | bare
  · exact .inl ⟨m, (keeps.ring v).symm ▸ member, run.keepsListed guardsSource listed⟩
  · refine .inr fun plain => bare ?_
    exact (plainCongr keeps.geometry keeps.resources.shape.slots
      (keeps.place src h.knownSource)).mp plain

open Build in
theorem emitMoveSpec {v : ValueId} {src dst : SiteId} (formed : s.WellFormed) (named : s.Named)
    (secured : s.Secured kept) (guarded : ∀ x ∈ hollow, x ∈ kept)
    (copies : Copies s hollow v src dst) (ok : emitMove src dst s = .ok () s') :
    Moves old kept (dst :: hollow) s hollow s' ∧ dst ∈ (s'.value v).sites := by
  unfold emitMove at ok
  simp only [modifyBind, whileFrozenOk] at ok
  obtain ⟨t, ⟨u, between, rfl⟩, rfl⟩ := ok
  have counted : ∀ guarded, Moves old guarded (dst :: hollow) s (dst :: hollow)
      (s.count (·.countMove)) := fun _ => Moves.count _
  have formed₁ := (counted kept).wellFormed formed
  have named₁ := (counted kept).named named
  have secured₁ := (counted kept).secured secured
  have copies₁ := copies.moves (counted [src, dst]) (by simp) (by simp)
  have guarded₂ : ∀ x ∈ dst :: hollow, x ∈ dst :: src :: kept := by
    intro x member
    rcases List.mem_cons.mp member with rfl | member
    · exact List.mem_cons_self
    · exact List.mem_cons_of_mem _ (List.mem_cons_of_mem _ (guarded x member))
  suffices after : Moves old kept (dst :: hollow) (s.count (·.countMove)) hollow
      ((u.thawSite dst).thawSite src) ∧ dst ∈ (u.value v).sites by
    refine ⟨(counted kept).trans after.1, ?_⟩
    rw [thawSiteValue, thawSiteValue]
    exact after.2
  clear counted
  generalize s.count (·.countMove) = s₁ at *
  suffices inner : Moves old kept (dst :: hollow) ((s₁.freezeSite src).freezeSite dst) hollow u ∧
      dst ∈ (u.value v).sites by
    exact ⟨.frozen copies₁.knownSource (.frozen (copies₁.freeze src).knownTarget inner.1), inner.2⟩
  have secured₂ := (secured₁.freeze copies₁.knownSource).freeze (copies₁.freeze src).knownTarget
  have formed₂ := wellFormedFreeze (wellFormedFreeze formed₁ src) dst
  have named₂ := namedFreeze (i := dst) (namedFreeze (i := src) named₁)
  have copies₂ := (copies₁.freeze src).freeze dst
  generalize (s₁.freezeSite src).freezeSite dst = s₂ at *
  simp only [emitBetween, bindOk, operandOfOk] at between
  obtain ⟨a, _, ⟨origin, rfl⟩, b, _, ⟨target, rfl⟩, emitted⟩ := between
  obtain ⟨w, e, moves, same, rfl, logged⟩ := emitCopySpec formed₂ named₂ secured₂ guarded₂ emitted
  have copies₃ := copies₂.moves moves (by simp) (by simp)
  refine ⟨(moves.mono fun i member => by simp [member]).trans ?_, copies₃.held⟩
  refine .fill (a := a) (b := b) w.statistics copies₃.held copies₃.source copies₃.filled ?_ ?_ ?_
  · rw [moves.keeps.operand copies₂.knownSource, origin]
  · rw [moves.keeps.operand copies₂.knownTarget, target]
  · rw [same]
    exact logged

end State

end Lowering
