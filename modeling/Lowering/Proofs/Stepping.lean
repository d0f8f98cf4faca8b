import Lowering.Proofs.Following
import Lowering.Proofs.Joining
import Lowering.Proofs.Operating
import Lowering.Proofs.Reachability
import Lowering.Proofs.Stability
/-!
One event of straight-line code.

Where no paths fork or meet, an event is compiled by choosing its sources and carrying it out.
-/
namespace Lowering

open State Build Compile

variable {s s' t u : State} {v w : ValueId} {i j : SiteId} {p p' start : Processor} {ρ : ValueId → Word}
  {queue due : List ReadId} {ahead : ValueId → Prop} {e : EventId} {r : ReadId}

/-! The parts of the state that words depend on. -/

structure State.Alike (s s' : State) : Prop where
  values : s'.values = s.values
  sites : s'.sites = s.sites
  reads : s'.reads = s.reads
  resources : s'.resources = s.resources
  promises : s'.promises = s.promises
  geometry : s'.geometry = s.geometry
  machine : s'.machine = s.machine
  events : s'.events = s.events
  links : s'.links = s.links

namespace State.Alike

theorem refl (s : State) : Alike s s := ⟨rfl, rfl, rfl, rfl, rfl, rfl, rfl, rfl, rfl⟩

theorem trans (first : Alike s t) (second : Alike t s') : Alike s s' :=
  ⟨second.values.trans first.values, second.sites.trans first.sites, second.reads.trans first.reads,
    second.resources.trans first.resources, second.promises.trans first.promises,
    second.geometry.trans first.geometry, second.machine.trans first.machine, second.events.trans first.events,
    second.links.trans first.links⟩

theorem abides (h : Alike s s') : Abides s s' := ⟨h.events, h.links, h.machine, h.geometry, by rw [h.reads]; exact .refl _⟩

theorem value (h : Alike s s') (v : ValueId) : s'.value v = s.value v := by rw [State.value, h.values, State.value]

theorem site (h : Alike s s') (i : SiteId) : s'.site i = s.site i := by rw [State.site, h.sites, State.site]

theorem ring (h : Alike s s') (v : ValueId) : s'.ring v = s.ring v :=
  ringCongr (by rw [h.values]) (fun u => by rw [h.value]) v

theorem owner (h : Alike s s') (id : ResourceId) : s'.owner? id = s.owner? id := by rw [owner?, h.resources, owner?]

theorem wellFormed (h : Alike s s') (formed : s.WellFormed) : s'.WellFormed := by
  refine ⟨permutesCongr (by rw [h.values]) (fun u => by rw [h.value]) formed.rings, fun v i inside => ?_, ?_, fun v r head => ?_, ?_⟩
  · rw [h.value] at inside
    rw [IsSite, h.sites]
    exact formed.listed v i inside
  · rw [h.reads]
    exact formed.reads
  · rw [h.value] at head
    rw [h.reads]
    exact formed.heads v r head
  · rw [h.resources, h.geometry]
    exact formed.frame

theorem live (h : Alike s s') (formed : s.WellFormed) (v : ValueId) : s'.Live v ↔ s.Live v := by
  rw [liveIff (h.wellFormed formed), liveIff formed, h.ring, h.reads]
  simp only [h.value]

theorem faithful (h : Alike s s') (faithful : Faithful ρ p [] [] s) : Faithful ρ p [] [] s' := by
  have formed := faithful.tracked.formed
  have unmoved : Unmoved s s' :=
    ⟨by rw [h.values], fun v => by rw [h.value], by rw [h.sites], fun i _ => h.site i, h.geometry,
      by rw [h.resources]; exact .refl _, fun id => by rw [h.resources], h.owner⟩
  refine ⟨?_, ?_, ?_, fun i => ?_, fun v known m member => ?_, fun v i inside => ?_, by simp, fun v i inside _ => ?_⟩
  · exact unmoved.tracked faithful.tracked (h.wellFormed formed)
      (fun v _ alive dead => absurd ((h.live formed v).mp alive) dead) fun r _ _ => by rw [h.resources]
  · rw [h.geometry, Free, h.resources]
    exact faithful.stack
  · rw [h.resources, h.machine]
    exact faithful.numbered
  · rw [h.site]
    exact (plainCongr h.geometry (by rw [h.resources]) rfl).mpr (faithful.plain i)
  · rw [h.ring] at member
    exact faithful.agree v (by rwa [IsValue, ← h.values]) m member
  · rw [h.value] at inside
    rw [h.site]
    rcases faithful.direct v i inside with ⟨c, n, site, kind⟩ | ⟨id, names, has, free⟩
    · exact .inl ⟨c, n, site, by rw [h.promises, kind]⟩
    · exact .inr ⟨id, by rw [h.geometry]; exact names, by rw [h.resources]; exact has,
        by rw [Free, h.resources]; exact free⟩
  · rw [h.value] at inside
    obtain ⟨x, word, alive⟩ := faithful.words v i inside (by simp)
    refine ⟨x, ?_, fun live => alive ((h.live formed v).mp live)⟩
    rw [State.wordAt, operandOfPlace h.promises (by rw [h.site])]
    exact word

theorem sustains (h : Alike s s') (upheld : Sustains ρ start p queue due ahead s) (logged : s'.Logged start p) :
    Sustains ρ start p queue due ahead s' := by
  refine ⟨h.faithful upheld.faithful, logged, upheld.queued.evolves (by rw [h.reads]; exact .refl _) fun v => by rw [h.value],
    upheld.within, fun v front => ?_, fun v known wanted behind => ?_⟩
  · obtain ⟨known, alone, bare⟩ := upheld.fresh v front
    exact ⟨by rwa [IsValue, h.values], by rw [h.value, alone], by rw [h.value, bare]⟩
  · obtain ⟨r, member, met⟩ := wanted
    rw [h.reads, h.ring] at met
    have has := upheld.housed v (by rwa [IsValue, ← h.values]) ⟨r, member, met⟩ behind
    rw [hasSite, h.ring]
    simp only [h.value]
    exact has

end State.Alike

/-! Events that control passes straight through. -/

def EventKind.goesOn : EventKind → Bool
  | .call _ | .branch _ | .jump _ => false
  | _ => true

structure State.Straight (s : State) : Prop where
  predecessors : ∀ e, (s.event e).predecessors.length ≤ 1
  successors : ∀ e, (s.event e).successors.length ≤ 1
  revisits : ∀ e, (s.event e).revisits = []
  junction : ∀ e, (s.event e).junction = none
  kind : ∀ e, (s.event e).kind.goesOn = true
  links : ∀ l, (s.link l).fork = none ∧ (s.link l).stubs = []

theorem State.Straight.abide (h : s.Straight) (abides : Abides s s') : s'.Straight := by
  have event := abides.event
  have link := abides.link
  exact ⟨fun e => by rw [event]; exact h.predecessors e, fun e => by rw [event]; exact h.successors e,
    fun e => by rw [event]; exact h.revisits e, fun e => by rw [event]; exact h.junction e,
    fun e => by rw [event]; exact h.kind e, fun l => by rw [link]; exact h.links l⟩

theorem followStraight (straight : s.Straight) {l : LinkId} (ok : followLink l s = .ok () s') : s' = s := by
  obtain ⟨fork, stubs⟩ := straight.links l
  unfold followLink at ok
  simp only [modifyBind, getBind, fork, stubs] at ok
  exact (pureOk.mp ok).2.symm

theorem enterStraight (straight : s.Straight) (ok : enter e s = .ok () s') : s' = s := by
  have single := straight.predecessors e
  unfold enter at ok
  rw [getBind] at ok
  cases before : (s.event e).predecessors with
  | nil =>
    rw [before] at ok
    exact (pureOk.mp ok).2.symm
  | cons oldest later =>
    rw [before] at ok single
    obtain rfl : later = [] := List.length_eq_zero_iff.mp (by simpa using single)
    dsimp only at ok
    obtain ⟨⟨⟩, t, followed, rest⟩ := bindOk.mp ok
    obtain rfl := followStraight straight followed
    have few : ¬ (t.event (t.link oldest).predecessor).successors.length > 1 :=
      Nat.not_lt.mpr (straight.successors _)
    rw [getBind] at rest
    simp only [List.getLastD_nil, List.isEmpty_nil, if_true] at rest
    exact (pureOk.mp ((congrFun (if_neg few) t).symm.trans rest)).2.symm

theorem settleStraight (straight : s.Straight) {frozen : List SiteId} (ok : settleTables e s = .ok frozen s') :
    frozen = [] ∧ s' = s := by
  have none := straight.junction e
  have few := straight.successors e
  have opens : s.openTable e = s := by
    unfold openTable
    split
    · rfl
    · rename_i merge found
      have many := List.find?_some found
      have single := straight.predecessors merge
      simp only [decide_eq_true_eq] at many
      omega
  simp only [settleTables, bindOk, pureOk] at ok
  obtain ⟨first, t, settled, second, u, forked, rfl, rfl⟩ := ok
  have junction : first = [] ∧ t = s := by
    unfold settleJunction at settled
    rw [getBind] at settled
    simp only [none] at settled
    rw [modifyBind, opens, pureBind, getBind] at settled
    simp only [none, pureOk] at settled
    exact ⟨settled.1.symm, settled.2.symm⟩
  obtain ⟨rfl, rfl⟩ := junction
  unfold settleFork at forked
  rw [getBind] at forked
  simp only [none, Option.isNone_none, Bool.and_true, decide_eq_true_eq, if_neg (Nat.not_lt.mpr few), pureOk] at forked
  exact ⟨by simp [← forked.1], forked.2.symm⟩

theorem tablesStraight (straight : s.Straight) (ok : withTables e (pure ()) s = .ok () s') : s' = s := by
  simp only [withTables, bindOk, ensuringOk, pureOk] at ok
  obtain ⟨frozen, t, settled, u, ⟨-, rfl⟩, rfl⟩ := ok
  obtain ⟨rfl, rfl⟩ := settleStraight straight settled
  have few := straight.successors e
  simp only [captureSnapshots, few, if_true]
  rfl

theorem oneStraight (ok : one e s = .ok () s') :
    ∃ t, begin e s = .ok () t ∧ (t.Straight → ∃ u w, chooseSources (t.event e).reads t = .ok () u ∧
      event e u = .ok () w ∧ (w.Straight → ∃ f, s' = w.count f)) := by
  simp only [one, lower, approach, bindOk] at ok
  obtain ⟨⟨⟩, w, ⟨⟨⟩, u, ⟨⟨⟩, t, began, ⟨⟩, t', entered, supplied⟩, ⟨⟩, w₂, carried, concluded⟩, ⟨⟩, w', revisited, counted⟩ := ok
  refine ⟨t, began, fun straight => ?_⟩
  obtain rfl := enterStraight straight entered
  have plain : (t'.event e).kind.isBranch = false := by
    have on := straight.kind e
    cases kind : (t'.event e).kind <;> simp_all [EventKind.goesOn, EventKind.isBranch]
  rw [supply, getBind, plain, Bool.false_and, if_neg Bool.false_ne_true] at supplied
  refine ⟨u, w₂, supplied, carried, fun straight => ?_⟩
  obtain rfl : w = w₂ := by
    rw [conclude, getBind] at concluded
    split at concluded
    · exact tablesStraight straight concluded
    · exact (pureOk.mp concluded).2.symm
  have clean : w.modifyEvent e (fun d => { d with revisits := [] }) = w := by
    have same : w.events.modify e.index (fun d => { d with revisits := [] }) = w.events :=
      modifySame fun d at' => by
        have none := straight.revisits e
        rw [State.event, Array.getD_eq_getD_getElem?, at', Option.getD_some] at none
        rw [← none]
    rw [modifyEvent, same]
  simp only [revisit, getBind, modifyBind, straight.revisits e, clean] at revisited
  obtain ⟨-, rfl⟩ := pureOk.mp revisited
  obtain ⟨-, rfl⟩ := modifyOk.mp counted
  exact ⟨_, rfl⟩

/-! Beginning an event. -/

theorem beginAlike (logged : s.Logged start p) (ok : begin e s = .ok () t) : Alike s t ∧ t.Logged start p := by
  obtain ⟨⟨⟩, u, entered, bound⟩ := bindOk.mp ok
  obtain rfl := modifyOk.mp entered
  have first : Alike s { s with stack := (s.event e).stackBefore, locals := (s.event e).localsBefore } :=
    ⟨rfl, rfl, rfl, rfl, rfl, rfl, rfl, rfl, rfl⟩
  have logged : State.Logged { s with stack := (s.event e).stackBefore, locals := (s.event e).localsBefore } start p :=
    logged.congr rfl
  generalize ({ s with stack := (s.event e).stackBefore, locals := (s.event e).localsBefore } : State) = u at *
  unfold bindStart at bound
  rw [getBind] at bound
  split at bound
  · obtain ⟨-, rfl⟩ := pureOk.mp bound
    exact ⟨first, logged⟩
  · obtain ⟨i, w, found, bound⟩ := bindOk.mp bound
    rw [foundInstruction] at found
    split at found
    · cases found
      split at bound
      · obtain ⟨-, rfl⟩ := pureOk.mp bound
        exact ⟨first, logged⟩
      · obtain ⟨⟨⟩, w, marked, emitted⟩ := bindOk.mp bound
        obtain ⟨alike, emitter⟩ : Alike u w ∧ w.emitter = u.emitter := by
          rw [modifiedInstruction] at marked
          split at marked
          · cases marked
            exact ⟨⟨rfl, rfl, rfl, rfl, rfl, rfl, rfl, rfl, rfl⟩, rfl⟩
          · cases marked
        change emit _ w = .ok () t at emitted
        obtain ⟨logged, rest⟩ := (logged.congr emitter).emits emitted (rfl : p.step _ = some p)
        refine ⟨(first.trans alike).trans ?_, logged⟩
        rw [rest]
        exact ⟨rfl, rfl, rfl, rfl, rfl, rfl, rfl, rfl, rfl⟩
    · cases found

theorem oneCarries (straight : s.Straight) (h : Sustains ρ start p queue due ahead s)
    (inside : ∀ r ∈ (s.event e).reads, r ∈ due ∧ ¬ ahead (s.reads.value r)) (ok : one e s = .ok () s') :
    ∃ u w q, Sustains ρ start q queue due ahead u ∧ Abides s u ∧ u.Supplied (u.event e).reads ∧ event e u = .ok () w ∧
      (w.Straight → ∃ f, s' = w.count f) := by
  obtain ⟨t, began, rest⟩ := oneStraight ok
  obtain ⟨alike, logged⟩ := beginAlike h.logged began
  have first := alike.abides
  have upheld := alike.sustains h logged
  obtain ⟨u, w, chosen, carried, counted⟩ := rest (straight.abide first)
  obtain ⟨picks, run⟩ := picksOfSources _ chosen
  have inside' : ∀ r ∈ (t.event e).reads, r ∈ due ∧ ¬ ahead (t.reads.value r) := by
    rw [first.event, alike.reads]
    exact inside
  obtain ⟨⟨q, supplied⟩, keeps, sources⟩ := Sustains.sources run upheld.ready upheld inside'
  have second := keeps.extends.abides
  refine ⟨u, w, q, supplied, first.trans second, ?_, carried, counted⟩
  rw [second.event]
  exact sources

/-! What events mean. -/

def EventKind.result? : EventKind → Option ValueId
  | .combine c => some c.result
  | .convert t => some t.result
  | .join _ copy => some copy
  | _ => none

def State.result? (s : State) (e : EventId) : Option ValueId := (s.event e).kind.result?

/-- The event computes the word of its result from the words of what it reads, which can be done where the reads
demand it. -/
inductive State.Computes (ρ : ValueId → Word) (s : State) (e : EventId) : Prop where
  | combine {op : Ternary} {a b result : ValueId} {r₁ r₂ : ReadId} (integer : op ∈ Ternary.integers)
      (kind : (s.event e).kind = .combine ⟨op, wordSize, a, wordSize, b, wordSize, result⟩)
      (reads : (s.event e).reads = [r₁, r₂]) (first : s.reads.value r₁ = a) (second : s.reads.value r₂ = b)
      (demands₁ : s.Demands r₁ (.ofOperand (X64.ternarySources op).a))
      (demands₂ : s.Demands r₂ (.ofOperand (X64.ternarySources op).b))
      (word : op.onWords? (ρ a) (ρ b) = some (ρ result))
  | convert {op : Binary} {a result : ValueId} {r : ReadId} (integer : op ∈ Binary.integers)
      (kind : (s.event e).kind = .convert ⟨op, wordSize, a, wordSize, result⟩) (reads : (s.event e).reads = [r])
      (reader : s.reads.value r = a) (word : op.onWord? wordSize (ρ a) = some (ρ result))
  | join {v copy : ValueId} {r : ReadId} (kind : (s.event e).kind = .join v copy) (reads : (s.event e).reads = [r])
      (reader : s.reads.value r = v) (word : ρ copy = ρ v)
  | dummy (kind : (s.event e).kind = .dummy) (reads : (s.event e).reads = [])

theorem State.Demands.abide {mask : SiteMask} (demands : s.Demands r mask) (abides : Abides s s') : s'.Demands r mask := by
  obtain ⟨successor, next, kind⟩ := demands
  exact ⟨successor, next, abides.reads.single kind⟩

theorem State.Computes.congr {σ : ValueId → Word} (computes : s.Computes ρ e) (kind' : (t.event e).kind = (s.event e).kind)
    (reads' : (t.event e).reads = (s.event e).reads)
    (value : ∀ r ∈ (s.event e).reads, t.reads.value r = s.reads.value r ∧ σ (s.reads.value r) = ρ (s.reads.value r))
    (demands : ∀ {r mask}, s.Demands r mask → t.Demands r mask) (result : ∀ v, s.result? e = some v → σ v = ρ v) :
    t.Computes σ e := by
  cases computes with
  | @combine op a b made r₁ r₂ integer kind reads first second demands₁ demands₂ word =>
    rw [reads] at value
    obtain ⟨first', left⟩ := value r₁ (by simp)
    obtain ⟨second', right⟩ := value r₂ (by simp)
    rw [first] at left
    rw [second] at right
    have own := result made (by rw [State.result?, kind]; rfl)
    exact .combine integer (kind'.trans kind) (reads'.trans reads) (first'.trans first) (second'.trans second)
      (demands demands₁) (demands demands₂) (by rw [left, right, own, word])
  | @convert op a made r integer kind reads reader word =>
    rw [reads] at value
    obtain ⟨reader', same⟩ := value r (by simp)
    rw [reader] at same
    have own := result made (by rw [State.result?, kind]; rfl)
    exact .convert integer (kind'.trans kind) (reads'.trans reads) (reader'.trans reader) (by rw [same, own, word])
  | @join v copy r kind reads reader word =>
    rw [reads] at value
    obtain ⟨reader', same⟩ := value r (by simp)
    rw [reader] at same
    have own := result copy (by rw [State.result?, kind]; rfl)
    exact .join (kind'.trans kind) (reads'.trans reads) (reader'.trans reader) (by rw [same, own, word])
  | dummy kind reads => exact .dummy (kind'.trans kind) (reads'.trans reads)

theorem State.Computes.abide (computes : s.Computes ρ e) (abides : Abides s s')
    (known : ∀ r ∈ (s.event e).reads, s.reads.IsRead r) : s'.Computes ρ e :=
  computes.congr (by rw [abides.event]) (by rw [abides.event]) (fun r member => ⟨abides.reads.value r (known r member), rfl⟩)
    (fun demands => demands.abide abides) fun _ _ => rfl

theorem State.Sustains.congr {ahead' : ValueId → Prop} (h : Sustains ρ start p queue due ahead s)
    (same : ∀ v, ahead' v ↔ ahead v) : Sustains ρ start p queue due ahead' s := by
  rwa [show ahead' = ahead from funext fun v => propext (same v)]

theorem State.Sustains.lessDue {less : List ReadId} (h : Sustains ρ start p queue due ahead s) (fewer : ∀ r ∈ less, r ∈ due) :
    Sustains ρ start p queue less ahead s :=
  ⟨h.faithful, h.logged, h.queued, fun r inside => h.within r (fewer r inside), h.fresh, fun v known wanted behind =>
    h.housed v known (wanted.imp fun r both => ⟨fewer r both.1, both.2⟩) behind⟩

theorem eventSustains {variant : X64.Variant} (machine : s.machine = X64.describe variant)
    (stack : s.geometry.stack = X64.rsp) (computes : s.Computes ρ e)
    (h : Sustains ρ start p ((s.event e).reads ++ due) ((s.event e).reads ++ due) ahead s)
    (behind : ∀ r ∈ (s.event e).reads, ¬ ahead (s.reads.value r)) (front : ∀ v, s.result? e = some v → ahead v)
    (supplied : s.Supplied (s.event e).reads) (ok : event e s = .ok () s') :
    (∃ p', Sustains ρ start p' due due (fun v => ahead v ∧ s.result? e ≠ some v) s') ∧ Abides s s' := by
  unfold Compile.event at ok
  rw [getBind] at ok
  have results : ∀ {w}, s.result? e = some w → ∀ v, (ahead v ∧ s.result? e ≠ some v) ↔ (ahead v ∧ v ≠ w) := fun made v => by
    rw [made, ne_eq, Option.some.injEq, eq_comm]
  cases computes with
  | @combine op a b result r₁ r₂ integer kind reads first second demands₁ demands₂ word =>
    have made : s.result? e = some result := by rw [State.result?, kind]; rfl
    rw [kind] at ok
    rw [reads] at h supplied
    obtain ⟨⟨p', after⟩, abides⟩ := combineSustains machine stack integer reads first second demands₁ demands₂ h supplied
      (front _ made) word ok
    exact ⟨⟨p', after.congr (results made)⟩, abides⟩
  | @convert op a result r integer kind reads reader word =>
    have made : s.result? e = some result := by rw [State.result?, kind]; rfl
    rw [kind] at ok
    rw [reads] at h supplied
    obtain ⟨⟨p', after⟩, abides⟩ := convertSustains machine integer reads reader h supplied (front _ made) word ok
    exact ⟨⟨p', after.congr (results made)⟩, abides⟩
  | @join v copy r kind reads reader word =>
    have made : s.result? e = some copy := by rw [State.result?, kind]; rfl
    rw [kind] at ok
    rw [reads] at h behind
    obtain ⟨after, abides⟩ := joinConsumes h reader (reader ▸ behind r (by simp)) (front _ made) word ok
    exact ⟨⟨p, after.congr (results made)⟩, abides⟩
  | dummy kind reads =>
    have made : s.result? e = none := by rw [State.result?, kind]; rfl
    rw [kind] at ok
    obtain ⟨-, rfl⟩ := pureOk.mp ok
    rw [reads] at h
    exact ⟨⟨p, h.congr fun v => by simp [made]⟩, .refl s⟩

/-! Runs of events. -/

def State.Precedes (s : State) (e x : EventId) : Prop :=
  ∀ v, s.result? x = some v → s.result? e ≠ some v ∧ ∀ r ∈ (s.event e).reads, s.reads.value r ≠ v

def State.MadeBy (s : State) (es : List EventId) (v : ValueId) : Prop := ∃ e ∈ es, s.result? e = some v

structure State.Calculates (ρ : ValueId → Word) (s : State) (es : List EventId) : Prop where
  computes : ∀ e ∈ es, s.Computes ρ e
  order : es.Pairwise s.Precedes
  own : ∀ e ∈ es, ∀ r ∈ (s.event e).reads, s.result? e ≠ some (s.reads.value r)

theorem State.MadeBy.abide {es : List EventId} (abides : Abides s s') : s'.MadeBy es v ↔ s.MadeBy es v := by
  simp only [MadeBy, State.result?, abides.event]

theorem State.Calculates.congr {es : List EventId} {σ : ValueId → Word} (h : s.Calculates ρ es)
    (kind : ∀ e ∈ es, (t.event e).kind = (s.event e).kind) (reads : ∀ e ∈ es, (t.event e).reads = (s.event e).reads)
    (value : ∀ e ∈ es, ∀ r ∈ (s.event e).reads,
      t.reads.value r = s.reads.value r ∧ σ (s.reads.value r) = ρ (s.reads.value r))
    (demands : ∀ {r mask}, s.Demands r mask → t.Demands r mask) (result : ∀ v, s.MadeBy es v → σ v = ρ v) :
    t.Calculates σ es := by
  have made : ∀ e ∈ es, t.result? e = s.result? e := fun e member => by rw [State.result?, kind e member, State.result?]
  refine ⟨fun e member => (h.computes e member).congr (kind e member) (reads e member) (value e member) demands
    fun v own => result v ⟨e, member, own⟩, ?_, fun e member r inside => ?_⟩
  · refine h.order.imp_of_mem fun {e x} first second precedes v own => ?_
    rw [made x second] at own
    refine ⟨by rw [made e first]; exact (precedes v own).1, fun r inside => ?_⟩
    rw [reads e first] at inside
    rw [(value e first r inside).1]
    exact (precedes v own).2 r inside
  · rw [reads e member] at inside
    rw [made e member, (value e member r inside).1]
    exact h.own e member r inside

theorem State.Calculates.abide {es : List EventId} (h : s.Calculates ρ es) (abides : Abides s s')
    (known : ∀ e ∈ es, ∀ r ∈ (s.event e).reads, s.reads.IsRead r) : s'.Calculates ρ es :=
  h.congr (fun e _ => by rw [abides.event]) (fun e _ => by rw [abides.event])
    (fun e member r inside => ⟨abides.reads.value r (known e member r inside), rfl⟩) (fun demands => demands.abide abides)
    fun _ _ => rfl

theorem State.Calculates.tail {es : List EventId} (h : s.Calculates ρ (e :: es)) : s.Calculates ρ es :=
  ⟨fun x member => h.computes x (List.mem_cons_of_mem _ member), (List.pairwise_cons.mp h.order).2,
    fun x member => h.own x (List.mem_cons_of_mem _ member)⟩

theorem runSustains {variant : X64.Variant} (es : List EventId) : ∀ {s : State} {p : Processor}, s.Straight →
    s.machine = X64.describe variant → s.geometry.stack = X64.rsp → s.Calculates ρ es →
    Sustains ρ start p (es.flatMap (fun e => (s.event e).reads) ++ due) (es.flatMap (fun e => (s.event e).reads) ++ due)
      (s.MadeBy es) s → es.forM one s = .ok () s' →
    (∃ p', Sustains ρ start p' due due (fun _ => False) s') ∧ Abides s s' := by
  induction es with
  | nil =>
    intro s p _ _ _ _ h ok
    obtain ⟨-, rfl⟩ := pureOk.mp ok
    exact ⟨⟨p, h.congr fun v => by simp [State.MadeBy]⟩, .refl s⟩
  | cons e rest ih =>
    intro s p straight machine stack calculates h ok
    obtain ⟨⟨⟩, t, first, later⟩ := bindOk.mp ok
    rw [List.flatMap_cons, List.append_assoc] at h
    obtain ⟨before, after⟩ := List.pairwise_cons.mp calculates.order
    -- what the event reads is not made by it or later
    have behind : ∀ r ∈ (s.event e).reads, ¬ s.MadeBy (e :: rest) (s.reads.value r) := by
      rintro r inside ⟨x, member, made⟩
      rcases List.mem_cons.mp member with rfl | member
      · exact calculates.own x List.mem_cons_self r inside made
      · exact (before x member _ made).2 r inside rfl
    have known : ∀ x ∈ e :: rest, ∀ r ∈ (s.event x).reads, s.reads.IsRead r := fun x member r inside => by
      refine h.queued.isRead ?_
      rcases List.mem_cons.mp member with rfl | member
      · exact List.mem_append_left _ inside
      · exact List.mem_append_right _ (List.mem_append_left _ (List.mem_flatMap.mpr ⟨x, member, inside⟩))
    obtain ⟨u, w, q, upheld, toSources, supplied, carried, counted⟩ := oneCarries straight h
      (fun r inside => ⟨List.mem_append_left _ inside, behind r inside⟩) first
    have result : u.result? e = s.result? e := by rw [State.result?, toSources.event, State.result?]
    have computes := (calculates.computes e List.mem_cons_self).abide toSources (known e List.mem_cons_self)
    rw [← toSources.event e] at upheld
    obtain ⟨⟨q', made⟩, toEnd⟩ := eventSustains (toSources.machine.trans machine) (by rw [toSources.geometry, stack]) computes
      upheld (fun r inside => by
        rw [toSources.event] at inside
        rw [toSources.reads.value r (known e List.mem_cons_self r inside)]
        exact behind r inside)
      (fun v own => ⟨e, List.mem_cons_self, result ▸ own⟩) supplied carried
    have all := toSources.trans toEnd
    obtain ⟨f, rfl⟩ := counted (straight.abide all)
    have count : Alike w (w.count f) := ⟨rfl, rfl, rfl, rfl, rfl, rfl, rfl, rfl, rfl⟩
    have all := all.trans count.abides
    have reads : rest.flatMap (fun x => ((w.count f).event x).reads) = rest.flatMap fun x => (s.event x).reads := by
      simp only [all.event]
    have same : ∀ v, (w.count f).MadeBy rest v ↔ s.MadeBy (e :: rest) v ∧ u.result? e ≠ some v := by
      intro v
      rw [State.MadeBy.abide all, result]
      constructor
      · rintro ⟨x, member, own⟩
        exact ⟨⟨x, List.mem_cons_of_mem _ member, own⟩, (before x member v own).1⟩
      · rintro ⟨⟨x, member, own⟩, other⟩
        rcases List.mem_cons.mp member with rfl | member
        · exact absurd own other
        · exact ⟨x, member, own⟩
    have final := (count.sustains made (made.logged.congr rfl)).congr same
    rw [← reads] at final
    obtain ⟨last, abides⟩ := ih (straight.abide all) (all.machine.trans machine) (by rw [all.geometry, stack])
      (calculates.tail.abide all fun x member => known x (List.mem_cons_of_mem _ member)) final later
    exact ⟨last, all.trans abides⟩

/-! The return. -/

theorem registerOnly {n : Register} {g : FrameGeometry} {x : Site} (met : x.satisfies g (.register n) = true) :
    ∃ m, x = .register m (some n) := by
  have kinds : ∀ k : OperandKind, KindSet.has OperandKind.register.bit k = (k == .register) := by intro k; cases k <;> decide
  cases x with
  | register m number =>
    cases number with
    | none => cases met
    | some r =>
      obtain rfl : r = n := RegisterSet.hasSingle (Bool.and_eq_true_iff.mp met).2
      exact ⟨m, rfl⟩
  | _ => simp [Site.satisfies, SiteMask.accepts, SiteMask.register, kinds] at met

theorem straightReachable (straight : s.Straight) {b : Bool} (ok : unreachable e s = .ok b t) : b = false ∧ t = s := by
  have same : t = s := by
    rw [unreachable, getBind] at ok
    cases answer : s.unreachableWithin (s.events.size + 1) e with
    | none => simp [answer] at ok
    | some c =>
      simp only [answer] at ok
      exact (pureOk.mp ok).2.symm
  subst same
  obtain ⟨n, answer⟩ := unreachableOk.mp ok
  refine ⟨Bool.eq_false_iff.mpr fun yes => ?_, rfl⟩
  subst yes
  cases n with
  | zero => cases answer
  | succ n =>
    obtain ⟨some', all⟩ := unreachableTrue.mp answer
    obtain ⟨l, member⟩ := List.exists_mem_of_ne_nil _ some'
    have exits := all l member
    have on := straight.kind (t.link l).predecessor
    unfold exitsWithin at exits
    cases kind : (t.event (t.link l).predecessor).kind <;> simp_all [EventKind.goesOn]

theorem leaveReturns (straight : s.Straight) (kind : (s.event e).kind = .leave (some v)) (reads : (s.event e).reads = [r])
    (reader : s.reads.value r = v) (demands : s.Demands r (.register X64.rax))
    (h : Sustains ρ start p [r] [r] (fun _ => False) s) (ok : one e s = .ok () s') :
    start.outcome s'.emitter.log = some (ρ v) := by
  have known : s.reads.IsRead r := h.queued.isRead List.mem_cons_self
  obtain ⟨u, w, q, upheld, toSources, supplied, carried, counted⟩ := oneCarries straight h (by simp [reads]) ok
  have reads' : (u.event e).reads = [r] := by rw [toSources.event, reads]
  have reader' : u.reads.value r = v := by rw [toSources.reads.value r known, reader]
  rw [reads'] at supplied
  obtain ⟨i, draws, x, inside, serves⟩ := supplied.draws (r := r) (by simp)
  obtain rfl := List.mem_singleton.mp inside
  rw [reader'] at draws
  have alive : u.Live v := upheld.live ⟨x, by simp, reader' ▸ selfMemRing u _⟩
  obtain ⟨-, -, word⟩ := upheld.drawn draws alive
  -- the source is rax
  obtain ⟨own, successor, next, kind', -, met⟩ := serves
  obtain ⟨successor', next', kind''⟩ := demands.abide toSources
  cases kind'.symm.trans kind''
  obtain ⟨m, site⟩ := registerOnly met
  have result : q.registers X64.rax = ρ v := by
    simpa [State.wordAt, State.operand, site, Processor.read] using word
  unfold Compile.event at carried
  rw [getBind, toSources.event, kind] at carried
  dsimp only [leave] at carried
  obtain ⟨⟨⟩, t, consumed, carried⟩ := bindOk.mp carried
  have due : Sustains ρ start q ((u.event e).reads ++ []) [] (fun _ => False) u := by
    rw [reads', List.append_nil]
    exact upheld.lessDue fun _ none => absurd none List.not_mem_nil
  obtain ⟨after, recedes⟩ := due.consume consumed
  have straight' := straight.abide (toSources.trans recedes.abides)
  obtain ⟨b, t', asked, emitted⟩ := bindOk.mp carried
  obtain ⟨rfl, rfl⟩ := straightReachable straight' asked
  rw [Bool.not_false, if_pos rfl, getBind] at emitted
  obtain ⟨rec, records, ran⟩ := after.logged
  obtain ⟨rest, -, log⟩ := emitRecords ⟨rec, records⟩ emitted
  have last : Alike t' w := by
    rw [rest]
    exact ⟨rfl, rfl, rfl, rfl, rfl, rfl, rfl, rfl, rfl⟩
  obtain ⟨f, rfl⟩ := counted (straight'.abide last.abides)
  change start.outcome w.emitter.log = _
  rw [log, Processor.outcomeReturn (by rwa [records]), result]

end Lowering
