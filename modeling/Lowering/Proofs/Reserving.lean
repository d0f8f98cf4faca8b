import Lowering.Proofs.Addressing
import Lowering.Proofs.Describing
/-!
Registers that are set aside.

Nobody owns a register that is set aside, and nobody is sent there. It can only be written through a
site that stood for it all along, since a client asked for what it holds. So steps are classed by what
they leave of such sites: the ones that are settled on the way stand for other registers, and a request
goes to a register that is set aside only in place of an operand that is there.
-/
namespace Lowering

open State Build

def Request.destination? : Request → Option Operand
  | .binary _ _ _ _ b => some b
  | .ternary op _ _ _ _ _ c => if op.isBranch then none else some c
  | _ => none

/-- The operand that an operation reads last, which its result can take the place of. -/
def Request.overwritten? : Request → Option Operand
  | .binary _ _ a _ _ => some a
  | .ternary _ _ _ _ b _ _ => some b
  | _ => none

def Request.Spares (named aside : Register → Prop) (q : Request) : Prop :=
  ∀ n, aside n → q.destination? = some (.register n) → q.overwritten? = some (.register n) ∧ named n

variable {α β : Type} {s s' t u : State} {named : Register → Prop} {reading : Prop} {v w : ValueId} {i j : SiteId}
  {n : Register} {id : ResourceId} {x : Build α} {f : α → Build β}

def State.SetsAside (s : State) (n : Register) : Prop := (s.resources.get (.register n)).reserved = true

abbrev State.Allows (named : Register → Prop) (s : State) (i : SiteId) : Prop :=
  s.IsSite i ∧ ∀ n, (s.site i).number? = some n → s.SetsAside n → named n

abbrev State.Writable (s : State) (i : SiteId) : Prop := s.Allows (fun _ => False) i

theorem State.Allows.known (h : s.Allows named i) : s.IsSite i := h.1

theorem State.Allows.within (h : s.Allows named i) (number : (s.site i).number? = some n) (aside : s.SetsAside n) :
    named n := h.2 n number aside

theorem State.Allows.mono {wide : Register → Prop} (h : s.Allows named i) (sub : ∀ n, named n → wide n) :
    s.Allows wide i := ⟨h.known, fun n number aside => sub n (h.2 n number aside)⟩

theorem State.Writable.allows (h : s.Writable i) : s.Allows named i := State.Allows.mono h fun _ => False.elim

def State.StandsAside (s : State) (i : SiteId) : Prop := ∃ n, (s.site i).number? = some n ∧ s.SetsAside n

theorem State.StandsAside.known (h : s.StandsAside i) : s.IsSite i := by
  by_contra outside
  obtain ⟨n, number, -⟩ := h
  have default : s.site i = default := by simp [State.site, Array.getD, show ¬ i.index < s.sites.size from outside]
  rw [default] at number
  cases number

theorem writableIff (known : s.IsSite i) : s.Writable i ↔ ¬ s.StandsAside i :=
  ⟨fun h ⟨n, number, aside⟩ => h.2 n number aside, fun h => ⟨known, fun n number aside => h ⟨n, number, aside⟩⟩⟩

theorem allowsMemory (known : s.IsSite i) (memory : (s.site i).kind = .memory) : s.Writable i := by
  refine ⟨known, fun n number => ?_⟩
  cases site : s.site i <;> simp_all [Site.kind, Site.number?]

/-- Values are in registers set aside only where they are in `named`, and nothing owns such a register. -/
structure State.Guarded (named : Register → Prop) (s : State) : Prop where
  records : s.Records
  owners : ∀ id o, (s.resources.get id).owner = some o → s.Writable o.site
  targets : ∀ v i, (s.value v).target = some i → s.IsSite i ∧ (s.site i).kind = .memory
  listed : ∀ v i, i ∈ (s.value v).sites → s.Allows named i
  sources : ∀ v i, (s.value v).source = some i → s.Allows named i
  branches : ∀ e b, (s.event e).kind = .branch b → b.op.isBranch = true
  result : named s.machine.result

/-- What a step leaves as it is. While it is `reading`, the sites that are read are not chosen anew. -/
structure State.Respects (named : Register → Prop) (reading : Prop) (s s' : State) : Prop where
  machine : s'.machine = s.machine
  aside : ∀ n, s'.SetsAside n ↔ s.SetsAside n
  sites : s.sites.size ≤ s'.sites.size
  stands : ∀ i n, s.IsSite i → s.SetsAside n → ((s'.site i).number? = some n ↔ (s.site i).number? = some n)
  kind : ∀ i, s.IsSite i → (s'.site i).kind = (s.site i).kind
  guarded : s'.Guarded named
  log : ∃ l, s'.emitter.log = s.emitter.log ++ l ∧ ∀ q ∈ l, q.Spares named s.SetsAside
  source : reading → ∀ v i, (s.value v).source = some i → s.StandsAside i → (s'.value v).source = some i

namespace State.Respects

theorem isSite (h : s.Respects named reading s') (known : s.IsSite i) : s'.IsSite i :=
  Nat.lt_of_lt_of_le known h.sites

theorem allowsIff (h : s.Respects named reading s') (known : s.IsSite i) {some : Register → Prop} :
    s'.Allows some i ↔ s.Allows some i := by
  constructor
  · intro allows
    refine ⟨known, fun n number aside => ?_⟩
    exact allows.2 n ((h.stands i n known aside).mpr number) ((h.aside n).mpr aside)
  · intro allows
    refine ⟨h.isSite known, fun n number aside => ?_⟩
    have aside := (h.aside n).mp aside
    exact allows.2 n ((h.stands i n known aside).mp number) aside

theorem allows {some : Register → Prop} (h : s.Respects named reading s') (allows : s.Allows some i) :
    s'.Allows some i := (h.allowsIff allows.known).mpr allows

theorem refl (guarded : s.Guarded named) : s.Respects named reading s :=
  ⟨rfl, fun _ => .rfl, le_rfl, fun _ _ _ _ => .rfl, fun _ _ => rfl, guarded, ⟨[], by simp, by simp⟩,
    fun _ _ _ chosen _ => chosen⟩

theorem trans (first : s.Respects named reading t) (second : t.Respects named reading s') :
    s.Respects named reading s' := by
  refine ⟨second.machine.trans first.machine, fun n => (second.aside n).trans (first.aside n),
    first.sites.trans second.sites, fun i n known aside => ?_, fun i known => ?_, second.guarded, ?_,
    fun still v i chosen shut => ?_⟩
  · exact (second.stands i n (first.isSite known) ((first.aside n).mpr aside)).trans (first.stands i n known aside)
  · exact (second.kind i (first.isSite known)).trans (first.kind i known)
  · obtain ⟨l, log, spared⟩ := first.log
    obtain ⟨l', log', spared'⟩ := second.log
    refine ⟨l ++ l', by rw [log', log, List.append_assoc], fun q member => ?_⟩
    rcases List.mem_append.mp member with member | member
    · exact spared q member
    · exact fun n aside => spared' q member n ((first.aside n).mpr aside)
  · refine second.source still v i (first.source still v i chosen shut) ?_
    obtain ⟨n, number, aside⟩ := shut
    exact ⟨n, (first.stands i n (State.StandsAside.known ⟨n, number, aside⟩) aside).mpr number, (first.aside n).mpr aside⟩

end State.Respects

/-! Steps that choose nothing and emit nothing. -/

structure State.Tame (s s' : State) : Prop where
  machine : s'.machine = s.machine
  emitter : s'.emitter = s.emitter
  sites : s.sites.size ≤ s'.sites.size
  place : ∀ i, s.IsSite i → (s'.site i).place = (s.site i).place
  aside : ∀ n, s'.SetsAside n ↔ s.SetsAside n
  owner : ∀ id o, (s'.resources.get id).owner = some o → (s.resources.get id).owner = some o
  listed : ∀ v i, i ∈ (s'.value v).sites → i ∈ (s.value v).sites
  target : ∀ v, (s'.value v).target = (s.value v).target
  source : ∀ v, (s'.value v).source = (s.value v).source
  kinds : ∀ e, (s'.event e).kind = (s.event e).kind

theorem Site.numberOfPlace {x y : Site} (same : x.place = y.place) : x.number? = y.number? := by
  cases x <;> cases y <;> simp_all [place, number?]

theorem Site.kindOfPlace {x y : Site} (same : x.place = y.place) : x.kind = y.kind := by
  cases x <;> cases y <;> simp_all [place, kind]

namespace State.Tame

theorem refl (s : State) : s.Tame s :=
  ⟨rfl, rfl, le_rfl, fun _ _ => rfl, fun _ => .rfl, fun _ _ h => h, fun _ _ h => h, fun _ => rfl, fun _ => rfl,
    fun _ => rfl⟩

theorem trans (first : s.Tame t) (second : t.Tame s') : s.Tame s' :=
  ⟨second.machine.trans first.machine, second.emitter.trans first.emitter, first.sites.trans second.sites,
    fun i known => (second.place i (Nat.lt_of_lt_of_le known first.sites)).trans (first.place i known),
    fun n => (second.aside n).trans (first.aside n), fun id o owner => first.owner id o (second.owner id o owner),
    fun v i listed => first.listed v i (second.listed v i listed), fun v => (second.target v).trans (first.target v),
    fun v => (second.source v).trans (first.source v), fun e => (second.kinds e).trans (first.kinds e)⟩

instance : Std.Refl State.Tame := ⟨refl⟩

instance : Trans State.Tame State.Tame State.Tame := ⟨trans⟩

theorem allows {some : Register → Prop} (h : s.Tame s') (allows : s.Allows some i) : s'.Allows some i := by
  refine ⟨Nat.lt_of_lt_of_le allows.known h.sites, fun n number aside => ?_⟩
  rw [Site.numberOfPlace (h.place i allows.known)] at number
  exact allows.2 n number ((h.aside n).mp aside)

theorem respects (h : s.Tame s') (guarded : s.Guarded named) : s.Respects named reading s' := by
  have kind : ∀ i, s.IsSite i → (s'.site i).kind = (s.site i).kind := fun i known => Site.kindOfPlace (h.place i known)
  refine ⟨h.machine, h.aside, h.sites, fun i n known _ => ?_, kind, ⟨?_, ?_, ?_, ?_, ?_, ?_, ?_⟩,
    ⟨[], by rw [h.emitter, List.append_nil], by simp⟩, fun _ v i chosen _ => (h.source v).trans chosen⟩
  · rw [Site.numberOfPlace (h.place i known)]
  · exact guarded.records.quiet h.emitter
  · exact fun id o owner => h.allows (guarded.owners id o (h.owner id o owner))
  · intro v i target
    rw [h.target] at target
    obtain ⟨known, memory⟩ := guarded.targets v i target
    exact ⟨Nat.lt_of_lt_of_le known h.sites, (kind i known).trans memory⟩
  · exact fun v i listed => h.allows (guarded.listed v i (h.listed v i listed))
  · intro v i source
    rw [h.source] at source
    exact h.allows (guarded.sources v i source)
  · intro e b branch
    rw [h.kinds] at branch
    exact guarded.branches e b branch
  · rw [h.machine]
    exact guarded.result

end State.Tame

theorem tameFoldl {xs : List α} {f : State → α → State} (round : ∀ (s : State) x, s.Tame (f s x)) :
    s.Tame (xs.foldl f s) := by
  induction xs generalizing s with
  | nil => exact .refl s
  | cons x rest ih => exact (round s x).trans ih

theorem tameRest (values : s'.values = s.values) (sites : s'.sites = s.sites) (resources : s'.resources = s.resources)
    (machine : s'.machine = s.machine) (emitter : s'.emitter = s.emitter) (events : s'.events = s.events) : s.Tame s' := by
  have value : s'.value = s.value := by
    funext v
    simp only [State.value, values]
  refine ⟨machine, emitter, sites.symm ▸ le_rfl, fun i _ => ?_, fun n => ?_, fun id o => ?_, fun v i => ?_, fun v => ?_,
    fun v => ?_, fun e => ?_⟩
  · simp only [State.site, sites]
  · simp only [State.SetsAside, resources]
  · rw [resources]
    exact fun h => h
  · rw [value]
    exact fun h => h
  · rw [value]
  · rw [value]
  · simp only [State.event, events]

theorem tameReads {reads : ReadTable} : s.Tame { s with reads } := tameRest rfl rfl rfl rfl rfl rfl

theorem tameCount (f : Statistics → Statistics) : s.Tame (s.count f) := tameRest rfl rfl rfl rfl rfl rfl

theorem tamePromise (kind : PromiseKind) : s.Tame (s.createPromise kind).2 := tameRest rfl rfl rfl rfl rfl rfl

theorem tameResources {f : ResourceTable → ResourceTable}
    (aside : ∀ id, ((f s.resources).get id).reserved = (s.resources.get id).reserved)
    (owner : ∀ id o, ((f s.resources).get id).owner = some o → (s.resources.get id).owner = some o) :
    s.Tame (s.modifyResources f) :=
  ⟨rfl, rfl, le_rfl, fun _ _ => rfl, fun n => by rw [State.SetsAside, modifyResources, aside]; rfl, owner, fun _ _ h => h,
    fun _ => rfl, fun _ => rfl, fun _ => rfl⟩

theorem tameAdjusts {f : ResourceTable → ResourceTable} {g : Resource → Resource}
    (adjusts : ResourceTable.Adjusts s.resources id g (f s.resources)) (reserved : ∀ r, (g r).reserved = r.reserved)
    (owner : ∀ r, (g r).owner = r.owner) : s.Tame (s.modifyResources f) :=
  tameResources (adjusts.same (·.reserved) reserved) fun id o => by
    rw [adjusts.same (·.owner) owner]
    exact fun h => h

theorem tameFreeze (s : State) (i : SiteId) : s.Tame (s.freezeSite i) := by
  rw [freezeSiteEq]
  cases names : s.resource? i with
  | some id => exact tameAdjusts (ResourceTable.freezeAdjusts s.resources id) (fun _ => rfl) fun _ => rfl
  | none =>
    exact tameResources (ResourceTable.steadyReferAll _ _).reserved fun id o => by
      rw [ResourceTable.ownerReferAll]
      exact fun h => h

theorem tameThaw (s : State) (i : SiteId) : s.Tame (s.thawSite i) := by
  rw [thawSiteEq]
  cases names : s.resource? i with
  | some id => exact tameAdjusts (ResourceTable.thawAdjusts s.resources id) (fun _ => rfl) fun _ => rfl
  | none =>
    exact tameResources (ResourceTable.steadyUnreferAll _ _).reserved fun id o => by
      rw [ResourceTable.ownerUnreferAll]
      exact fun h => h

theorem tameThawAll (sites : List SiteId) : s.Tame (s.thawSites sites) := by
  unfold thawSites
  induction sites with
  | nil => exact .refl s
  | cons i rest ih => exact ih.trans (tameThaw _ i)

theorem tameVacate (s : State) (id : ResourceId) : s.Tame (s.modifyResources (·.setOwner id none)) := by
  refine tameResources (ResourceTable.Steady.setOwner _ _ _).reserved fun other o owner => ?_
  rw [ResourceTable.getSetOwner] at owner
  split at owner
  · cases owner
  · exact owner

theorem tameRefer (s : State) (m : MemoryRef) : s.Tame (s.referTo m) :=
  tameResources (ResourceTable.steadyReferAll _ _).reserved fun id o => by
    rw [show (m.registers.foldl _ _) = s.resources.referAll m.registers from rfl, ResourceTable.ownerReferAll]
    exact fun h => h

theorem tameNewSite (s : State) (x : Site) : s.Tame (s.newSite x).2 :=
  ⟨rfl, rfl, by simp [newSite], fun i known => by rw [s.siteNewOld x known], fun _ => .rfl, fun _ _ h => h, fun _ _ h => h,
    fun _ => rfl, fun _ => rfl, fun _ => rfl⟩

theorem tameModifyValue (s : State) (v : ValueId) {f : Value → Value} (listed : ∀ d, ∀ i ∈ (f d).sites, i ∈ d.sites)
    (target : ∀ d, (f d).target = d.target) (source : ∀ d, (f d).source = d.source) : s.Tame (s.modifyValue v f) := by
  have value : ∀ w, (s.modifyValue v f).value w = s.value w ∨ (s.modifyValue v f).value w = f (s.value w) := by
    intro w
    rw [valueModify]
    split
    · rename_i here
      exact .inr (by rw [here.1])
    · exact .inl rfl
  refine ⟨rfl, rfl, le_rfl, fun _ _ => rfl, fun _ => .rfl, fun _ _ h => h, fun w i inside => ?_, fun w => ?_, fun w => ?_,
    fun _ => rfl⟩
  · rcases value w with same | same
    · rwa [same] at inside
    · rw [same] at inside
      exact listed _ i inside
  · rcases value w with same | same
    · rw [same]
    · rw [same, target]
  · rcases value w with same | same
    · rw [same]
    · rw [same, source]

theorem tameDetach (s : State) (o : Owner) : s.Tame (s.detach o) := by
  have rest := s.detachRest o
  refine ⟨by rw [rest], by rw [rest], (s.detachSites o).ge, fun i known => (s.keepsDetach o).place i known, fun n => ?_,
    fun id p owner => ?_, fun v i listed => ((s.detachListed o).mp listed).1, fun v => by rw [detachValue],
    fun v => by rw [detachValue], fun e => by rw [rest]; rfl⟩
  · rw [State.SetsAside, detachResources, (s.steadyReleased o.site).reserved]
    rfl
  · rw [detachResources, ownerReleased] at owner
    split at owner
    · cases owner
    · exact owner

theorem tameRelease (s : State) (i : SiteId) : s.Tame (s.release i) := by
  have rest := s.releaseEq i
  refine ⟨by rw [rest]; rfl, by rw [rest]; rfl, by rw [rest]; simp, fun j known => ?_, fun n => ?_, fun id o owner => ?_,
    fun v j => by rw [rest]; exact fun h => h, fun v => by rw [rest]; rfl, fun v => by rw [rest]; rfl,
    fun e => by rw [rest]; rfl⟩
  · rw [releaseSite]
    split
    · rename_i here
      rw [here]
      cases s.site i <;> rfl
    · rfl
  · rw [State.SetsAside, rest]
    exact Bool.eq_iff_iff.mp ((s.steadyReleased i).reserved _)
  · rw [rest] at owner
    have owner : ((s.releasedResources i).get id).owner = some o := owner
    rw [ownerReleased] at owner
    split at owner
    · cases owner
    · exact owner

theorem tameRemove (s : State) (v : ValueId) (i : SiteId) : s.Tame (s.removeSite v i) := by
  obtain ⟨same, -⟩ | ⟨m, -, -, same⟩ := s.removeSiteCases v i
  · rw [same]
    exact .refl s
  · rw [same]
    exact tameDetach s _

theorem tameClear (v : ValueId) : s.Tame (s.clearSites v) := tameFoldl tameDetach

theorem tameClean (v : ValueId) (popIndex : Nat) : s.Tame (s.cleanValue v popIndex) := tameFoldl tameDetach

theorem tamePending (r : Option ReadId) : s.Tame (s.isPending r).2 := by
  cases r with
  | none => exact .refl s
  | some r => exact tameReads

theorem tameFirstPending (vs : List ValueId) : s.Tame (s.firstPending vs).2 := by
  induction vs generalizing s with
  | nil => exact .refl s
  | cons v rest ih =>
    unfold firstPending
    dsimp only
    split
    · exact tamePending _
    · exact (tamePending _).trans ih

theorem tameLiveRead (v : ValueId) : s.Tame (s.liveRead? v).2 := tameFirstPending _

theorem tameIsLive (v : ValueId) : s.Tame (s.isLive v).2 := tameLiveRead v

theorem tameNext (s : State) (v : ValueId) (next : Value → ValueId) :
    s.Tame (s.modifyValue v fun d => { d with next := next d }) :=
  tameModifyValue s v (fun _ _ h => h) (fun _ => rfl) fun _ => rfl

theorem tameLeaveRing (v : ValueId) : s.Tame (s.leaveRing v).2 := by
  unfold leaveRing
  dsimp only
  split
  · exact .refl s
  · exact (tameNext s ..).trans (tameNext ..)

theorem tameJoinRing (v copy : ValueId) : s.Tame (s.joinRing v copy) := (tameNext s ..).trans (tameNext ..)

theorem tameSweep (v : ValueId) :
    s.Tame (if (s.isLive v).1 then (s.isLive v).2 else (s.isLive v).2.clearSites v) := by
  split
  · exact tameIsLive v
  · exact (tameIsLive v).trans (tameClear v)

theorem tameIsolate (v : ValueId) : s.Tame (s.isolate v) := by
  unfold isolate
  split
  · exact .refl s
  · dsimp only
    exact ((tameLeaveRing v).trans (tameSweep _)).trans (tameSweep v)

theorem tameSuccessorMask (r : ReadId) (mask : SiteMask) : s.Tame (s.successorMask? r mask).2 := by
  unfold successorMask?
  split
  · exact .refl s
  · dsimp only
    split
    · exact tameLiveRead _
    · exact (tameLiveRead _).trans tameReads

theorem tameChooseSource (r : ReadId) (q : SourceQuery) : s.Tame (s.chooseSource r q).2 := by
  unfold chooseSource
  dsimp only
  split <;> exact tameReads

/-! Steps that give values and resources away. -/

theorem respectsSetOwner {o : Owner} (guarded : s.Guarded named) (writable : s.Writable o.site) :
    s.Respects named reading (s.modifyResources (·.setOwner id (some o))) := by
  have steady := ResourceTable.Steady.setOwner s.resources id (some o)
  have aside : ∀ n, (s.modifyResources (·.setOwner id (some o))).SetsAside n ↔ s.SetsAside n := fun n => by
    rw [SetsAside, modifyResources, steady.reserved]
    rfl
  have allows : ∀ {some : Register → Prop} {i}, s.Allows some i → (s.modifyResources _).Allows some i := fun allows =>
    ⟨allows.known, fun n number reserved => allows.2 n number ((aside n).mp reserved)⟩
  refine ⟨rfl, aside, le_rfl, fun _ _ _ _ => .rfl, fun _ _ => rfl, ⟨guarded.records, fun other p owner => ?_,
    guarded.targets, fun v i listed => allows (guarded.listed v i listed),
    fun v i source => allows (guarded.sources v i source), guarded.branches, guarded.result⟩, ⟨[], by simp [modifyResources], by simp⟩,
    fun _ _ _ chosen _ => chosen⟩
  simp only [modifyResources, ResourceTable.getSetOwner] at owner
  split at owner
  · cases owner
    exact allows writable
  · exact allows (guarded.owners other p owner)

theorem respectsModifyValue {f : Value → Value} (guarded : s.Guarded named)
    (listed : ∀ i ∈ (f (s.value v)).sites, i ∈ (s.value v).sites ∨ s.Allows named i)
    (target : ∀ i, (f (s.value v)).target = some i → (s.value v).target = some i ∨ (s.IsSite i ∧ (s.site i).kind = .memory))
    (source : ∀ i, (f (s.value v)).source = some i → (s.value v).source = some i ∨ s.Allows named i)
    (kept : reading → ∀ i, (s.value v).source = some i → s.StandsAside i → (f (s.value v)).source = some i) :
    s.Respects named reading (s.modifyValue v f) := by
  have value : ∀ w, (s.modifyValue v f).value w = s.value w ∨
      w = v ∧ (s.modifyValue v f).value w = f (s.value v) := by
    intro w
    rw [valueModify]
    split
    · rename_i here
      exact .inr ⟨here.1, rfl⟩
    · exact .inl rfl
  refine ⟨rfl, fun _ => .rfl, le_rfl, fun _ _ _ _ => .rfl, fun _ _ => rfl, ⟨guarded.records, guarded.owners, fun w i chosen => ?_,
    fun w i inside => ?_, fun w i chosen => ?_, guarded.branches, guarded.result⟩, ⟨[], by simp [modifyValue], by simp⟩,
    fun still w i chosen shut => ?_⟩
  · rcases value w with same | ⟨-, same⟩
    · rw [same] at chosen
      exact guarded.targets w i chosen
    · rw [same] at chosen
      exact (target i chosen).elim (guarded.targets v i) fun memory => memory
  · rcases value w with same | ⟨-, same⟩
    · rw [same] at inside
      exact guarded.listed w i inside
    · rw [same] at inside
      exact (listed i inside).elim (guarded.listed v i) fun allows => allows
  · rcases value w with same | ⟨-, same⟩
    · rw [same] at chosen
      exact guarded.sources w i chosen
    · rw [same] at chosen
      exact (source i chosen).elim (guarded.sources v i) fun allows => allows
  · rcases value w with same | ⟨here, same⟩
    · rwa [same]
    · rw [same]
      exact kept still i (here ▸ chosen) shut

theorem respectsEnlist (guarded : s.Guarded named) (allows : s.Allows named i) :
    s.Respects named reading (s.modifyValue v fun d => { d with sites := i :: d.sites }) := by
  refine respectsModifyValue guarded (fun j inside => ?_) (fun _ => .inl) (fun _ => .inl) fun _ _ chosen _ => chosen
  rcases List.mem_cons.mp inside with rfl | inside
  · exact .inr allows
  · exact .inl inside

theorem respectsSettle {x : Site} (guarded : s.Guarded named) (kind : x.kind = (s.site i).kind)
    (stands : ∀ n, s.SetsAside n → (x.number? = some n ↔ (s.site i).number? = some n)) :
    s.Respects named reading (s.setSite i x) := by
  have site : ∀ j, s.IsSite j → ((s.setSite i x).site j).kind = (s.site j).kind ∧ ∀ n, s.SetsAside n →
      (((s.setSite i x).site j).number? = some n ↔ (s.site j).number? = some n) := by
    intro j known
    rw [siteSet]
    split
    · rename_i here
      rw [here.1]
      exact ⟨kind, stands⟩
    · exact ⟨rfl, fun _ _ => .rfl⟩
  have allows : ∀ {some : Register → Prop} {j}, s.Allows some j → (s.setSite i x).Allows some j := fun allows =>
    ⟨by rw [IsSite, sizeSetSite]; exact allows.known, fun n number reserved =>
      allows.2 n (((site _ allows.known).2 n reserved).mp number) reserved⟩
  refine ⟨rfl, fun _ => .rfl, by rw [sizeSetSite], fun j n known aside => (site j known).2 n aside,
    fun j known => (site j known).1, ⟨guarded.records, fun id o owner => allows (guarded.owners id o owner), fun v j target => ?_,
    fun v j listed => allows (guarded.listed v j listed), fun v j source => allows (guarded.sources v j source),
    guarded.branches, guarded.result⟩, ⟨[], by simp [setSite], by simp⟩, fun _ _ _ chosen _ => chosen⟩
  obtain ⟨known, memory⟩ := guarded.targets v j target
  exact ⟨by rwa [IsSite, sizeSetSite], (site j known).1.trans memory⟩

/-! Work, taken step by step. -/

theorem respectsBind (first : s.Respects named reading (after x s))
    (rest : ∀ a t, x s = .ok a t → s.Respects named reading t → t.Respects named reading (after (f a) t)) :
    s.Respects named reading (after (x >>= f) s) := by
  cases ran : x s with
  | ok a t =>
    rw [afterBindOk ran]
    have respected : s.Respects named reading t := afterOk ran ▸ first
    exact respected.trans (rest a t ran respected)
  | error e t =>
    rw [afterBindError ran]
    rwa [after, ran] at first

structure Build.Yields (named : Register → Prop) (reading : Prop) (act : Build α) (s : State) (P : α → State → Prop) :
    Prop where
  respects : s.Respects named reading (after act s)
  result : ∀ a t, act s = .ok a t → P a t

theorem yieldsBind {P : β → State → Prop} (first : s.Respects named reading (after x s))
    (rest : ∀ a t, x s = .ok a t → s.Respects named reading t → (f a).Yields named reading t P) :
    (x >>= f).Yields named reading s P := by
  refine ⟨respectsBind first fun a t ran respected => (rest a t ran respected).respects, fun b t ok => ?_⟩
  obtain ⟨a, u, ran, ok⟩ := bindOk.mp ok
  exact (rest a u ran (afterOk ran ▸ first)).result b t ok

theorem yieldsPure {a : α} {P : α → State → Prop} (guarded : s.Guarded named) (holds : P a s) :
    (pure a : Build α).Yields named reading s P := by
  refine ⟨.refl guarded, fun b t ok => ?_⟩
  obtain ⟨rfl, rfl⟩ := pureOk.mp ok
  exact holds

theorem yieldsThrow {e : Error} {P : α → State → Prop} (guarded : s.Guarded named) :
    (throw e : Build α).Yields named reading s P := ⟨.refl guarded, fun _ _ ok => (throwOk.mp ok).elim⟩

theorem yieldsGet {f : State → Build β} {P : β → State → Prop}
    (rest : (f s).Yields named reading s P) :
    (get >>= f).Yields named reading s P := ⟨rest.respects, rest.result⟩

abbrev Build.Respects (named : Register → Prop) (reading : Prop) (act : Build α) : Prop :=
  Within (fun s s' => s.Guarded named → s.Respects named reading s') act

instance : Std.Refl fun s s' : State => s.Guarded named → s.Respects named reading s' := ⟨fun _ => .refl⟩

instance : Trans (fun s s' : State => s.Guarded named → s.Respects named reading s')
    (fun s s' => s.Guarded named → s.Respects named reading s')
    fun s s' => s.Guarded named → s.Respects named reading s' :=
  ⟨fun first second guarded => (first guarded).trans (second (first guarded).guarded)⟩

theorem Build.Within.respects (tame : Within State.Tame x) : x.Respects named reading :=
  tame.mono fun h guarded => h.respects guarded

theorem respectsModify {g : State → State} (tame : ∀ s : State, s.Tame (g s)) :
    (modify g : Build PUnit).Respects named reading := .modify fun s => (tame s).respects

theorem respectsModifyGet {g : State → α × State} (tame : ∀ s : State, s.Tame (g s).2) :
    (modifyGet g : Build α).Respects named reading := .modifyGet fun s => (tame s).respects

theorem respectsFrozen {act : Build α} (guarded : s.Guarded named)
    (respects : (s.freezeSite i).Guarded named → (s.freezeSite i).Respects named reading (after act (s.freezeSite i))) :
    s.Respects named reading (after (whileFrozen i act) s) := by
  have frozen : s.Respects named reading (s.freezeSite i) := (tameFreeze s i).respects guarded
  have inner := respects frozen.guarded
  have ends : after (whileFrozen i act) s = (after act (s.freezeSite i)).thawSite i := by
    simp only [after, whileFrozen, modifyBind, ensuring]
    cases act (s.freezeSite i) <;> rfl
  rw [ends]
  exact (frozen.trans inner).trans ((tameThaw _ i).respects inner.guarded)

theorem Build.Respects.frozen {act : Build α} (respects : act.Respects named reading) :
    (whileFrozen i act).Respects named reading := ⟨fun _ guarded => respectsFrozen guarded (respects.keeps _)⟩

/-! Emission. -/

theorem emitAfter {q : Request} (records : s.Records) :
    after (emit q) s = { s with emitter := (after (emit q) s).emitter } ∧ (after (emit q) s).Records ∧
      ((after (emit q) s).emitter.log = s.emitter.log ++ [q] ∨ (after (emit q) s).emitter.log = s.emitter.log) := by
  obtain ⟨r, recording⟩ := records
  have kept : (r.emit q).2.log = r.log.push q ∨ (r.emit q).2.log = r.log := by
    unfold Recorder.emit
    split
    · dsimp only
      split
      · exact .inr rfl
      · exact .inl rfl
    · exact .inl rfl
  have ends : after (emit q) s = { s with emitter := .recording (r.emit q).2 } := by
    simp only [after, emit, Emitter.emit, recording]
    rcases r.emit q with ⟨_ | _, _⟩ <;> rfl
  rw [ends]
  refine ⟨rfl, ⟨_, rfl⟩, ?_⟩
  rw [recording]
  rcases kept with kept | kept
  · exact .inl (by simp [Emitter.log, kept])
  · exact .inr (by simp [Emitter.log, kept])

theorem respectsEmit {q : Request} (guarded : s.Guarded named) (spares : q.Spares named s.SetsAside) :
    s.Respects named reading (after (emit q) s) := by
  obtain ⟨rest, records, log⟩ := emitAfter guarded.records (q := q)
  generalize after (emit q) s = t at rest records log ⊢
  rw [rest]
  refine ⟨rfl, fun _ => .rfl, le_rfl, fun _ _ _ _ => .rfl, fun _ _ => rfl, ⟨records, guarded.owners, guarded.targets, guarded.listed,
    guarded.sources, guarded.branches, guarded.result⟩, ?_, fun _ _ _ chosen _ => chosen⟩
  rcases log with log | log
  · exact ⟨[q], log, by simpa using spares⟩
  · exact ⟨[], by simpa using log, by simp⟩

theorem emitRespects {q : Request} (none : q.destination? = none) : (emit q).Respects named reading :=
  ⟨fun s guarded => respectsEmit guarded fun n _ goes => by rw [none] at goes; cases goes⟩

theorem numberOfOperand (operand : s.operand i = .ok (.register n)) : (s.site i).number? = some n := by
  unfold State.operand at operand
  split at operand <;> cases operand
  rename_i site
  rw [site]
  rfl

theorem tameOperandOf (i : SiteId) : Within State.Tame (operandOf i) := by
  refine .bind .get fun s => ?_
  split
  · exact .pure
  · exact .throw

theorem respectsEmitBetween {op : Binary} {aSize bSize : Nat} (guarded : s.Guarded named) (writable : s.Writable j) :
    s.Respects named reading (after (emitBetween op aSize i bSize j) s) := by
  refine respectsBind ((tameOperandOf i).respects.keeps s guarded) fun a t first _ => ?_
  obtain ⟨-, rfl⟩ := operandOfOk.mp first
  refine respectsBind ((tameOperandOf j).respects.keeps _ guarded) fun b u second _ => ?_
  obtain ⟨operand, rfl⟩ := operandOfOk.mp second
  refine respectsEmit guarded fun n aside goes => ?_
  cases Option.some.inj goes
  exact (writable.2 n (numberOfOperand operand) aside).elim

theorem respectsEmitMove (guarded : s.Guarded named) (writable : s.Writable j) :
    s.Respects named reading (after (emitMove i j) s) := by
  refine respectsBind ((respectsModify fun _ => tameCount _).keeps s guarded) fun _ t _ counted => ?_
  refine respectsFrozen counted.guarded fun frozen => respectsFrozen frozen fun both => respectsEmitBetween both ?_
  exact (tameFreeze _ j).allows ((tameFreeze t i).allows (counted.allows writable))

/-! Where values are sent. -/

theorem tameChooseTarget (r : ReadId) (strict : Bool) (reserve : Nat) (moved : Option ValueId) :
    Within State.Tame (chooseTarget r strict reserve moved) := by
  unfold chooseTarget
  refine .bind .get fun s => .bind (.modifyGet fun _ => tameReads) fun mask => ?_
  refine .bind (.modifyGet fun _ => tameSuccessorMask ..) fun narrower => .bind .get fun s => ?_
  exact .ite .pure (.ite .pure (.ite (.ite .throw .pure) (.ite .throw .pure)))

theorem tameChooseSite (r : ReadId) (strict : Bool) (reserve : Nat) (moved : Option ValueId) :
    Within State.Tame (chooseSite r strict reserve moved) := by
  unfold chooseSite
  refine .bind (tameChooseTarget ..) fun t => ?_
  split
  · exact .bind (.modify fun _ => tameCount _) fun _ => .modifyGet fun s => tameNewSite s _
  · exact .modifyGet fun s => tameNewSite s _

theorem chooseTargetHad {r : ReadId} {strict : Bool} {reserve : Nat} {moved : Option ValueId} {choice : Target}
    (ok : chooseTarget r strict reserve moved s = .ok choice t) :
    choice.isImpossible = false ∧ choice.Obtainable t := by
  obtain ⟨rfl, possible, rfl⟩ := chooseTargetOk ok
  exact ⟨possible, choiceObtainable strict⟩

theorem chooseSiteWritable {r : ReadId} {strict : Bool} {reserve : Nat} {moved : Option ValueId}
    (ok : chooseSite r strict reserve moved s = .ok i t) : t.Writable i := by
  unfold chooseSite at ok
  obtain ⟨choice, u, chosen, ok⟩ := bindOk.mp ok
  obtain ⟨possible, had⟩ := chooseTargetHad chosen
  obtain ⟨available, -⟩ := had possible
  have made : ∀ (u : State), t = (u.newSite (choice.toSite u.geometry)).2 → i = (u.newSite (choice.toSite u.geometry)).1 →
      (u.resources.get choice.resource).isUnavailable = false → t.Writable i := by
    rintro u rfl rfl available
    refine ⟨by simp [IsSite, newSite], fun n number aside => ?_⟩
    rw [siteNewSelf, Target.toSite] at number
    cases which : choice.resource with
    | slot m => simp [which, Site.frame, Site.ofMemory, Site.number?] at number
    | register m =>
      rw [which] at number available
      cases number
      have aside : (u.resources.get (.register n)).reserved = true := aside
      simp [Resource.isUnavailable, aside] at available
  cases which : choice.resource with
  | slot m =>
    simp only [which, modifyBind, modifyGetOk, Prod.ext_iff] at ok
    exact made _ ok.2.symm ok.1.symm available
  | register m =>
    simp only [which, modifyGetOk, Prod.ext_iff] at ok
    exact made _ ok.2.symm ok.1.symm available

theorem settleRegisterOk {mask : RegisterSet} {number : Option Register} {n : Register}
    (ok : settleRegister v mask number s = .ok n t) :
    t = s ∧ (number = some n ∨ number = none ∧ ¬ s.SetsAside n) := by
  cases number with
  | some m =>
    obtain ⟨rfl, rfl⟩ := pureOk.mp ok
    exact ⟨rfl, .inl rfl⟩
  | none =>
    have had := chooseRegisterSpec (s := s) (P := Target.Obtainable s) (some v) none mask impossibleObtainable
      fun _ listed member => registerObtainable _ _ listed member
    rw [settleRegister, getBind] at ok
    generalize s.chooseRegister (some v) mask none = choice at ok had
    cases possible : choice.isImpossible with
    | true => simp [possible] at ok
    | false =>
      cases which : choice.resource with
      | slot k => simp [possible, which] at ok
      | register m =>
        simp only [possible, which, pureOk] at ok
        obtain ⟨rfl, rfl⟩ := ok
        obtain ⟨available, -⟩ := had possible
        rw [which] at available
        refine ⟨rfl, .inr ⟨rfl, fun aside => ?_⟩⟩
        rw [SetsAside] at aside
        simp [Resource.isUnavailable, aside] at available

theorem tameSettleRegister (v : ValueId) (mask : RegisterSet) (number : Option Register) :
    Within State.Tame (settleRegister v mask number) := by
  unfold settleRegister
  split
  · exact .pure
  · refine .bind .get fun s => ?_
    dsimp only
    split
    · exact .pure
    · exact .throw

theorem tameProbe (v : ValueId) (mask : SiteMask) : Within State.Tame (probe v mask) :=
  .modifyGet fun _ => tameReads

section Evict

variable {evict : Evict} (evicts : ∀ id thief, (evict id thief).Respects named reading)

include evicts

theorem acquireResourceRespects {o : Owner} (guarded : s.Guarded named)
    (writable : (s.resources.get id).reserved = false → s.Writable o.site) :
    s.Respects named reading (after (acquireResource evict id o) s) := by
  rw [acquireResource, afterGet]
  dsimp only
  split
  · exact .refl guarded
  · rename_i free
    have writable := writable (by simpa using free)
    split
    · refine respectsBind ((evicts id _).keeps s guarded) fun _ t _ evicted => ?_
      exact respectsSetOwner evicted.guarded (evicted.allows writable)
    · exact respectsSetOwner guarded writable

theorem acquireWithRespects (guarded : s.Guarded named) (known : s.IsSite i) :
    s.Respects named reading (after (acquireWith evict v i) s) := by
  rw [acquireWith, afterGet]
  cases site : s.site i with
  | constant p => exact .refl guarded
  | address p => exact .refl guarded
  | register mask number =>
    refine respectsBind ((tameSettleRegister v mask number).respects.keeps s guarded) fun n t settled _ => ?_
    obtain ⟨rfl, which⟩ := settleRegisterOk settled
    have acquired : t.Respects named reading (after (acquireResource evict (.register n) ⟨v, i⟩) t) := by
      refine acquireResourceRespects evicts guarded fun free => ⟨known, fun m number aside => ?_⟩
      rw [site] at number
      rcases which with rfl | ⟨rfl, -⟩
      · cases number
        rw [State.SetsAside, free] at aside
        cases aside
      · cases number
    refine respectsBind acquired fun _ u _ acquired => respectsSettle acquired.guarded ?_ fun m aside => ?_
    · rw [acquired.kind i known, site]
      rfl
    · have aside := (acquired.aside m).mp aside
      rw [acquired.stands i m known aside, site]
      rcases which with rfl | ⟨rfl, free⟩
      · exact .rfl
      · refine ⟨fun same => ?_, nofun⟩
        cases same
        exact absurd aside free
  | memory m acquired =>
    dsimp only
    rw [afterModify, afterGet]
    have referred : s.Respects named reading (s.referTo m) := (tameRefer s m).respects guarded
    have settle : ∀ {t}, s.Respects named reading t → t.Respects named reading (t.setSite i (.memory m true)) := by
      intro t respected
      have memory : (t.site i).kind = .memory := by
        rw [respected.kind i known, site]
        rfl
      refine respectsSettle respected.guarded memory.symm fun n _ => ⟨nofun, fun number => ?_⟩
      cases there : t.site i <;> simp_all [Site.kind, Site.number?]
    refine referred.trans ?_
    split
    · have writable : (s.referTo m).Writable i := allowsMemory known (by
        show (s.site i).kind = .memory
        rw [site]
        rfl)
      refine respectsBind (acquireResourceRespects evicts referred.guarded fun _ => writable) fun _ u _ acquired => ?_
      exact settle (referred.trans acquired)
    · exact settle referred

theorem placeWithRespects (guarded : s.Guarded named) (allows : s.Allows named i) :
    s.Respects named reading (after (placeWith evict v i) s) := by
  rw [placeWith, afterGet]
  split
  · exact .refl guarded
  · refine respectsBind (acquireWithRespects evicts guarded allows.known) fun _ t _ acquired => ?_
    exact respectsEnlist acquired.guarded (acquired.allows allows)

theorem stageWithRespects {mask : OperandMask} (guarded : s.Guarded named) :
    s.Respects named reading (after (stageWith evict v i mask) s) := by
  refine respectsBind ((tameProbe v _).respects.keeps s guarded) fun r t _ probed => ?_
  refine respectsBind ((tameChooseSite ..).respects.keeps t probed.guarded) fun j u chosen choosing => ?_
  have writable := chooseSiteWritable chosen
  refine respectsBind (placeWithRespects evicts choosing.guarded writable.allows) fun _ u' _ placed => ?_
  refine respectsBind (respectsEmitMove placed.guarded (placed.allows writable)) fun _ _ _ moved => ?_
  exact .refl moved.guarded

theorem relocateWithYields {r : ReadId} {strict : Bool} {reserve : Nat} (guarded : s.Guarded named) :
    (relocateWith evict r strict reserve).Yields named reading s fun i t => t.Allows named i := by
  refine yieldsGet (yieldsBind ((tameChooseSite ..).respects.keeps _ guarded) fun dst t chosen choosing => yieldsGet ?_)
  have writable := chooseSiteWritable chosen
  dsimp only
  split
  · exact yieldsThrow choosing.guarded
  · rename_i src cost cheapest
    split
    · refine yieldsPure choosing.guarded ?_
      obtain ⟨⟨m, -, listed⟩, -⟩ := copyCostsMem (cheapestSourceMem cheapest)
      exact choosing.guarded.listed m src listed
    · refine yieldsBind (respectsFrozen choosing.guarded fun frozen =>
        placeWithRespects evicts frozen ((tameFreeze t src).allows writable.allows)) fun _ u _ placed => yieldsGet ?_
      have finish : ∀ src u', u.Respects named reading u' →
          (do emitMove src dst; return dst : Build SiteId).Yields named reading u' fun i t => t.Allows named i := by
        intro src u' respected
        have writable := respected.allows (placed.allows writable)
        refine yieldsBind (respectsEmitMove respected.guarded writable) fun _ _ _ moved => ?_
        exact yieldsPure moved.guarded (moved.allows (State.Writable.allows writable))
      split
      · exact finish src u (.refl placed.guarded)
      · refine yieldsBind ?_ fun src u' _ staged => finish src u' staged
        exact respectsFrozen placed.guarded fun frozen => respectsFrozen frozen fun both => stageWithRespects evicts both

end Evict

/- One displacement calls for another only with less fuel. An operand that is read from a register set aside
is not moved, since nobody owns the register. -/
theorem evictWithinRespects (fuel : Nat) (id : ResourceId) (thief : Option ValueId) :
    (evictWithin fuel id thief).Respects named reading := by
  induction fuel generalizing id thief with
  | zero => exact .throw
  | succ fuel ih =>
    constructor
    intro s guarded
    rw [evictWithin, afterGet]
    cases owner : (s.resources.get id).owner with
    | none => exact .refl guarded
    | some o =>
      have writable := guarded.owners id o owner
      have finish : ∀ {t : State}, t.Guarded named → t.Respects named reading (after
          (modify (·.removeSite o.value o.site) : Build Unit) t) := fun guarded =>
        (tameRemove ..).respects guarded
      dsimp only
      rw [afterModify]
      have counted : s.Respects named reading (s.count (·.countSteal)) := (tameCount _).respects guarded
      refine counted.trans ?_
      split
      · refine respectsBind ((respectsModifyGet fun _ => tameLiveRead _).keeps _ counted.guarded) fun read t _ asked => ?_
        cases read with
        | none => exact finish asked.guarded
        | some r =>
          refine respectsBind (respectsFrozen asked.guarded fun frozen =>
            (relocateWithYields ih frozen).respects) fun moved u ran displaced => ?_
          have allows : u.Allows named moved := by
            obtain ⟨u', relocated, rfl⟩ := whileFrozenOk.mp ran
            have frozen : t.Respects named reading (t.freezeSite o.site) := (tameFreeze t o.site).respects asked.guarded
            have allows : u'.Allows named moved := (relocateWithYields ih frozen.guarded).result _ _ relocated
            exact (tameThaw u' o.site).allows allows
          rw [afterModify]
          have redirected : u.Respects named reading (u.modifyValue o.value fun d =>
              if d.source == some o.site then { d with source := some moved } else d) := by
            have spared : u.Writable o.site := displaced.allows (asked.allows (counted.allows writable))
            refine respectsModifyValue displaced.guarded (fun i inside => .inl ?_) (fun i target => .inl ?_) (fun i source => ?_)
              fun _ i source aside => ?_
            · split at inside <;> exact inside
            · split at target <;> exact target
            · split at source
              · cases source
                exact .inr allows
              · exact .inl source
            · rw [if_neg]
              · exact source
              · intro same
                rw [source] at same
                cases (beq_iff_eq.mp same)
                exact (writableIff spared.1).mp spared aside
          exact redirected.trans (finish redirected.guarded)
      · exact finish counted.guarded

theorem evictRespects (id : ResourceId) (thief : Option ValueId) : (evict id thief).Respects named reading :=
  .bind .get fun _ => evictWithinRespects ..

theorem acquireRespects (guarded : s.Guarded named) (known : s.IsSite i) :
    s.Respects named reading (after (acquire v i) s) := acquireWithRespects evictRespects guarded known

theorem placeRespects (guarded : s.Guarded named) (allows : s.Allows named i) :
    s.Respects named reading (after (place v i) s) := placeWithRespects evictRespects guarded allows

theorem relocateYields {r : ReadId} {strict : Bool} {reserve : Nat} (guarded : s.Guarded named) :
    (relocate r strict reserve).Yields named reading s fun i t => t.Allows named i :=
  relocateWithYields evictRespects guarded

theorem relocateRespects (r : ReadId) (strict : Bool) (reserve : Nat) : (relocate r strict reserve).Respects named reading :=
  ⟨fun _ guarded => (relocateYields guarded).respects⟩

theorem chooseSourceListed {r : ReadId} {q : SourceQuery} {cost : Nat}
    (found : (s.chooseSource r q).1 = some (i, cost)) : ∃ v, i ∈ (s.value v).sites := by
  have values : (if q.strict then (s.narrow r q.mask).2 else (q.mask, s)).2.value = s.value := by split <;> rfl
  unfold chooseSource at found
  dsimp only at found
  generalize (if q.strict then (s.narrow r q.mask).2 else (q.mask, s)) = narrowed at found values
  have member := cheapestSourceMem found
  simp only [List.mem_map, List.mem_filter, Prod.mk.injEq] at member
  obtain ⟨o, ⟨held, -⟩, rfl, -⟩ := member
  refine ⟨o.value, ?_⟩
  rw [← values]
  split at held
  · exact (memPlacements.mp held).2
  · simp only [ownPlacements, List.mem_map] at held
    obtain ⟨i, listed, rfl⟩ := held
    exact listed

theorem settleYields {r : ReadId} {strict : Bool} {reserve : Nat} (guarded : s.Guarded named) :
    (settle r strict reserve).Yields named reading s fun i t => t.Allows named i := by
  refine yieldsBind ((respectsModifyGet fun _ => tameChooseSource ..).keeps s guarded) fun found t ran asked => ?_
  cases found with
  | none => exact relocateYields asked.guarded
  | some c =>
    rw [modifyGetOk, Prod.ext_iff] at ran
    obtain ⟨v, listed⟩ := chooseSourceListed ran.1
    exact yieldsPure asked.guarded (asked.allows (guarded.listed v c.1 listed))

end Lowering
