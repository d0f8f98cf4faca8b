import Lowering.Proofs.Decision
import Lowering.Proofs.Displacement
import Lowering.Snapshot
/-!
The sources of an event.

The reads of an event are placed one after the other, each while the sites chosen for the earlier
ones are frozen. The run is written out as a list of picks; what is chosen early is still there
when the last read is placed.
-/
namespace Lowering

open State Build

def State.Serves (s : State) (r : ReadId) (i : SiteId) : Prop :=
  ∃ own successor next, s.reads.kind r = .single own successor next ∧
    (∃ m ∈ s.ring (s.reads.value r), i ∈ (s.value m).sites) ∧
    (s.site i).satisfies s.geometry own = true

def State.SingleReads (s : State) (reads : List ReadId) : Prop :=
  ∀ r ∈ reads, s.IsValue (s.reads.value r) ∧
    ∃ own successor next, s.reads.kind r = .single own successor next

structure Pick where
  read : ReadId
  before : State
  source : Option SiteId
  after : State

def State.record (s : State) (r : ReadId) (source : Option SiteId) : State :=
  s.modifyValue (s.reads.value r) fun d => { d with source }

def Pick.Spares (p : Pick) (kept : List SiteId) : Prop :=
  ∃ old t, Moves old kept [] p.before [] t ∧ p.after = t.record p.read p.source

/-- A run through the reads of an event, pick by pick. A site that was picked stays frozen until
the later ones are. -/
inductive Picks : List ReadId → State → List Pick → State → Prop
  | nil (s : State) : Picks [] s [] s
  | missing {r rest s t picks u} (read : readSource? r s = .ok none t)
      (later : Picks rest (t.record r none) picks u) :
      Picks (r :: rest) s (⟨r, s, none, t.record r none⟩ :: picks) u
  | found {r rest s t i picks u} (read : readSource? r s = .ok (some i) t)
      (later : Picks rest ((t.record r (some i)).freezeSite i) picks u) :
      Picks (r :: rest) s (⟨r, s, some i, t.record r (some i)⟩ :: picks) (u.thawSite i)

theorem picksOfSources (reads : List ReadId) : ∀ {s s' : State},
    chooseSources reads s = .ok () s' → ∃ picks, Picks reads s picks s' := by
  induction reads with
  | nil =>
    intro s s' ok
    obtain ⟨-, rfl⟩ := pureOk.mp ok
    exact ⟨[], .nil s⟩
  | cons r rest ih =>
    intro s s' ok
    simp only [chooseSources, bindOk, modifyOk] at ok
    obtain ⟨source, t, read, ⟨⟩, u, rfl, ok⟩ := ok
    cases source with
    | none =>
      obtain ⟨picks, later⟩ := ih ok
      exact ⟨_, .missing read later⟩
    | some i =>
      obtain ⟨w, inner, rfl⟩ := whileFrozenOk.mp ok
      obtain ⟨picks, later⟩ := ih inner
      exact ⟨_, .found read later⟩

section

variable {s s' : State} {old : Nat} {kept : List SiteId} {r : ReadId}

theorem servesOfKeeps {i : SiteId} (keeps : Keeps s s') (serves : s.Serves r i)
    (known : s.IsSite i) (stays : ∀ m, i ∈ (s.value m).sites → i ∈ (s'.value m).sites) :
    s'.Serves r i := by
  obtain ⟨own, successor, next, kind, ⟨m, member, listed⟩, meets⟩ := serves
  have there := ReadTable.isReadOfPending (.single kind)
  refine ⟨own, successor, next, keeps.reads.single kind, ⟨m, ?_, stays m listed⟩, ?_⟩
  · rw [keeps.reads.value r there, keeps.ring]
    exact member
  · rw [keeps.satisfies known]
    exact meets

theorem chooseSourceSpec {found : Option (SiteId × Nat)} (formed : s.WellFormed)
    (single : s.SingleReads [r]) (chosen : s.chooseSource r { strict := true } = (found, s')) :
    Moves old kept [] s [] s' ∧
      ∀ i cost, found = some (i, cost) → s'.IsSite i ∧ s'.Serves r i := by
  obtain ⟨value, own, successor, next, kind⟩ := single r List.mem_cons_self
  have there := ReadTable.isReadOfPending (.single kind)
  have narrowed := ReadTable.narrowSpec formed.reads.ordered r .any 0
  have mask := ReadTable.narrowSingle kind .any 0
  obtain ⟨picked, state⟩ := Prod.mk.inj chosen
  have asked : Moves old kept [] s [] s' := by
    rw [← state]
    exact .ask _ s.statistics s.resources.available narrowed.evolves
  have keeps := asked.keeps
  refine ⟨asked, ?_⟩
  rintro i cost rfl
  have member := cheapestSourceMem picked
  simp only [List.mem_map, List.mem_filter, Bool.and_eq_true, Prod.mk.injEq] at member
  obtain ⟨o, ⟨held, fits, -⟩, rfl, -⟩ := member
  have held' := memPlacements.mp held
  have inRing : o.value ∈ s.ring (s.reads.value r) := by
    rw [← (s.keepsReads narrowed.evolves).ring]
    exact held'.1
  have listed : o.site ∈ (s.value o.value).sites := held'.2
  have fits' : (s.site o.site).satisfies s.geometry (s.reads.narrow r .any 0).mask = true := fits
  have known := formed.listed _ _ listed
  have here : s.Serves r o.site :=
    ⟨own, successor, next, kind, ⟨o.value, inRing, listed⟩, by
      rw [mask] at fits'
      exact (SiteMask.satisfiesInter fits').2⟩
  refine ⟨keeps.isSite known, servesOfKeeps keeps here known fun m member => ?_⟩
  rw [← state]
  exact member

theorem settleSpec {i : SiteId} {reserve : Nat} (ready : Ready old s kept [])
    (single : s.SingleReads [r]) (ok : settle r true reserve s = .ok i s') :
    Moves old kept [] s [] s' ∧ s'.IsSite i ∧ s'.Serves r i := by
  obtain ⟨value, own, successor, next, kind⟩ := single r List.mem_cons_self
  have there := ReadTable.isReadOfPending (.single kind)
  unfold settle at ok
  rw [modifyGetBind] at ok
  cases chosen : s.chooseSource r { strict := true } with
  | mk found s₁ =>
    obtain ⟨asked, serves⟩ : Moves old kept [] s [] s₁ ∧ _ :=
      chooseSourceSpec ready.formed single chosen
    have ready₁ := ready.moves asked
    have keeps := asked.keeps
    have kind₁ := keeps.reads.single kind
    have value₁ := keeps.reads.value r there
    simp only [chosen] at ok
    cases found with
    | some c =>
      simp only [pureOk] at ok
      obtain ⟨rfl, rfl⟩ := ok
      obtain ⟨known, served⟩ := serves c.1 c.2 rfl
      exact ⟨asked, known, served⟩
    | none =>
      simp only [relocate] at ok
      have relocated := relocateSpec evictSpec ready₁
        (by rw [value₁]; exact (keeps.isValue _).mpr value) (by simp) ok
      obtain ⟨m, member, listed⟩ := relocated.held
      have later := relocated.moves.keeps
      refine ⟨asked.trans relocated.moves, relocated.known, own, successor, next,
        later.reads.single kind₁, ⟨m, ?_, listed⟩, relocated.meets rfl own successor next kind₁⟩
      rw [later.reads.value r (keeps.reads.isRead there), later.ring]
      exact member

theorem readSourceSpec {source : Option SiteId} (ready : Ready old s kept [])
    (single : s.SingleReads [r]) (ok : readSource? r s = .ok source s') :
    Moves old kept [] s [] s' ∧ (source = none → s.hasSite (s.reads.value r) = false) ∧
      ∀ i, source = some i → s'.IsSite i ∧ s'.Serves r i := by
  unfold readSource? at ok
  rw [getBind] at ok
  cases has : s.hasSite (s.reads.value r) with
  | false =>
    simp only [has, Bool.false_eq_true, if_false, pureOk] at ok
    obtain ⟨rfl, rfl⟩ := ok
    exact ⟨.refl _ _ _, fun _ => rfl, by simp⟩
  | true =>
    simp only [has, if_true, mapOk] at ok
    obtain ⟨i, settled, rfl⟩ := ok
    obtain ⟨moves, known, serves⟩ := settleSpec ready single settled
    refine ⟨moves, by simp, fun j same => ?_⟩
    cases same
    exact ⟨known, serves⟩

/-! Recording a source changes nothing else. -/

theorem keepsRecord (s : State) (r : ReadId) (source : Option SiteId) :
    Keeps s (s.record r source) :=
  s.keepsModifyValue _ fun _ => rfl

theorem recordSites (s : State) (r : ReadId) (source : Option SiteId) (m : ValueId) :
    ((s.record r source).value m).sites = (s.value m).sites := by
  rw [record, valueModify]
  split
  · rename_i here
    rw [here.1]
  · rfl

theorem recordSource (s : State) (r : ReadId) (source : Option SiteId) (m : ValueId)
    (known : s.IsValue m) :
    ((s.record r source).value m).source =
      if m = s.reads.value r then source else (s.value m).source := by
  rw [record, valueModify]
  by_cases same : m = s.reads.value r
  · subst same
    simp [known]
  · simp [same]

theorem readyRecord (ready : Ready old s kept []) (r : ReadId) (source : Option SiteId) :
    Ready old (s.record r source) kept [] := by
  have keeps := keepsRecord s r source
  refine ⟨keeps.wellFormed ready.formed ?_, keeps.named (fun _ _ owner => owner) ready.named, ?_,
    ready.guarded, ready.bound⟩
  · intro m i listed
    rw [recordSites] at listed
    exact ready.formed.listed m i listed
  · intro k member
    obtain ⟨known, pinned | unowned⟩ := ready.secured k member
    · exact ⟨known, .inl (keeps.pinned known pinned)⟩
    · exact ⟨known, .inr unowned⟩

theorem singleReadsOfKeeps {reads : List ReadId} (keeps : Keeps s s')
    (single : s.SingleReads reads) : s'.SingleReads reads := by
  intro r member
  obtain ⟨value, own, successor, next, kind⟩ := single r member
  have there := ReadTable.isReadOfPending (.single kind)
  refine ⟨?_, own, successor, next, keeps.reads.single kind⟩
  rw [keeps.reads.value r there]
  exact (keeps.isValue _).mpr value

/-! The whole run. -/

theorem picksReads {reads : List ReadId} {picks : List Pick} (run : Picks reads s picks s') :
    picks.map (·.read) = reads := by
  induction run with
  | nil => rfl
  | missing _ _ ih => rw [List.map_cons, ih]
  | found _ _ ih => rw [List.map_cons, ih]

/-- Every read whose value was anywhere has a source that meets its mask, which is recorded if no
other read is of the same value. What was picked for a read stayed while the later reads were
placed. -/
structure Sourced (reads : List ReadId) (picks : List Pick) (s' : State) : Prop where
  served : ∀ p ∈ picks, p.before.hasSite (s'.reads.value p.read) = true →
    ∃ i, p.source = some i ∧ s'.Serves p.read i ∧
      ((reads.map s'.reads.value).count (s'.reads.value p.read) = 1 →
        (s'.value (s'.reads.value p.read)).source = some i)
  steady : picks.Pairwise fun p q => ∀ i, p.source = some i → q.Spares [i] ∧
    ∀ m, i ∈ (p.after.value m).sites → i ∈ (q.before.value m).sites ∧ i ∈ (q.after.value m).sites

structure Served (s : State) (kept : List SiteId) (reads : List ReadId) (picks : List Pick)
    (s' : State) : Prop where
  keeps : Keeps s s'
  spared : ∀ p ∈ picks, p.Spares kept
  guarded : ∀ k ∈ kept, ∀ m, k ∈ (s.value m).sites → k ∈ (s'.value m).sites ∧
    ∀ p ∈ picks, k ∈ (p.before.value m).sites ∧ k ∈ (p.after.value m).sites
  sources : ∀ k ∈ kept, ∀ v, v ∉ reads.map s'.reads.value → (s.value v).source = some k →
    (s'.value v).source = some k
  sourced : Sourced reads picks s'

theorem sparesFewer {p : Pick} {fewer : List SiteId} (spares : p.Spares kept)
    (sub : ∀ k ∈ fewer, k ∈ kept) : p.Spares fewer := by
  obtain ⟨old, t, run, after⟩ := spares
  exact ⟨old, t, run.mono sub, after⟩

theorem countLater {reads : List ReadId} {r' : ReadId} {f : ReadId → ValueId} (later : r' ∈ reads)
    (once : ((r :: reads).map f).count (f r') = 1) : (reads.map f).count (f r') = 1 := by
  have there : 0 < (reads.map f).count (f r') :=
    List.count_pos_iff.mpr (List.mem_map.mpr ⟨r', later, rfl⟩)
  rw [List.map_cons, List.count_cons] at once
  omega

theorem countFirst {reads : List ReadId} {f : ReadId → ValueId}
    (once : ((r :: reads).map f).count (f r) = 1) : f r ∉ reads.map f := by
  rw [List.map_cons, List.count_cons_self] at once
  exact List.count_eq_zero.mp (by omega)

theorem Served.missing {t : State} {reads : List ReadId} {picks : List Pick}
    (ready : Ready old s kept []) (single : s.SingleReads (r :: reads))
    (read : readSource? r s = .ok none t) (run : Picks reads (t.record r none) picks s')
    (rest : Served (t.record r none) kept reads picks s') :
    Served s kept (r :: reads) (⟨r, s, none, t.record r none⟩ :: picks) s' := by
  have first : s.SingleReads [r] := fun r' member => single r' (by simp_all)
  obtain ⟨value, own, successor, next, kind⟩ := first r List.mem_cons_self
  obtain ⟨moves, absent, -⟩ := readSourceSpec ready first read
  have recorded := keepsRecord t r none
  have keeps := (moves.keeps.trans recorded).trans rest.keeps
  have reader := keeps.reads.value r (ReadTable.isReadOfPending (.single kind))
  refine ⟨keeps, ?_, ?_, ?_, ⟨?_, ?_⟩⟩
  · intro p member
    rcases List.mem_cons.mp member with rfl | member
    · exact ⟨old, t, moves, rfl⟩
    · exact rest.spared p member
  · intro k inside m listed
    have held : k ∈ ((t.record r none).value m).sites := by
      rw [recordSites]
      exact moves.keepsListed inside listed
    obtain ⟨now, between⟩ := rest.guarded k inside m held
    refine ⟨now, fun p member => ?_⟩
    rcases List.mem_cons.mp member with rfl | member
    · exact ⟨listed, held⟩
    · exact between p member
  · intro k inside v other chosen
    simp only [List.map_cons, List.mem_cons, not_or] at other
    refine rest.sources k inside v other.2 ?_
    have before := moves.source inside chosen
    rw [record, valueModify, if_neg]
    · exact before
    · rintro ⟨rfl, -⟩
      apply other.1
      exact (rest.keeps.reads.value r (recorded.reads.isRead (moves.keeps.reads.isRead
        (ReadTable.isReadOfPending (.single kind))))).symm
  · intro p member has
    rcases List.mem_cons.mp member with rfl | member
    · rw [reader, absent rfl] at has
      cases has
    · obtain ⟨i, chosen, serves, once⟩ := rest.sourced.served p member has
      refine ⟨i, chosen, serves, fun alone => once (countLater ?_ alone)⟩
      rw [← picksReads run]
      exact List.mem_map_of_mem member
  · refine List.pairwise_cons.mpr ⟨fun q _ i chosen => ?_, rest.sourced.steady⟩
    cases chosen

theorem servesThaw {j i : SiteId} (serves : s.Serves r i) : (s.thawSite j).Serves r i := by
  obtain ⟨own, successor, next, kind, ⟨m, member, listed⟩, meets⟩ := serves
  refine ⟨own, successor, next, ?_, ⟨m, ?_, ?_⟩, ?_⟩
  · rwa [thawSiteEq]
  · rw [thawSiteRing, thawSiteEq]
    exact member
  · rwa [thawSiteValue]
  · rwa [thawSiteEq]

theorem Served.found {t : State} {i : SiteId} {reads : List ReadId} {picks : List Pick}
    (ready : Ready old s kept []) (single : s.SingleReads (r :: reads))
    (read : readSource? r s = .ok (some i) t)
    (run : Picks reads ((t.record r (some i)).freezeSite i) picks s')
    (rest : Served ((t.record r (some i)).freezeSite i) (i :: kept) reads picks s') :
    Served s kept (r :: reads) (⟨r, s, some i, t.record r (some i)⟩ :: picks) (s'.thawSite i) := by
  have first : s.SingleReads [r] := fun r' member => single r' (by simp_all)
  obtain ⟨value, own, successor, next, kind⟩ := first r List.mem_cons_self
  obtain ⟨moves, -, chosen⟩ := readSourceSpec ready first read
  obtain ⟨known, serves⟩ := chosen i rfl
  have recorded := keepsRecord t r (some i)
  have later : Keeps (t.record r (some i)) (s'.thawSite i) := keepsFrozen known rest.keeps
  have keeps := (moves.keeps.trans recorded).trans later
  have there := ReadTable.isReadOfPending (.single kind)
  have same : (s'.thawSite i).reads = s'.reads := by rw [thawSiteEq]; rfl
  have reader : s'.reads.value r = t.reads.value r := by
    rw [← same]
    exact (recorded.trans later).reads.value r (moves.keeps.reads.isRead there)
  -- the pick of this read is guarded from here on, with all that were before it
  have guarded : ∀ k, k = i ∨ k ∈ kept → ∀ m, k ∈ ((t.record r (some i)).value m).sites →
      k ∈ ((s'.thawSite i).value m).sites ∧
        ∀ p ∈ picks, k ∈ (p.before.value m).sites ∧ k ∈ (p.after.value m).sites := by
    intro k inside m listed
    rw [thawSiteValue]
    exact rest.guarded k (List.mem_cons.mpr inside) m (by rwa [freezeSiteValue])
  have sources : ∀ k, k = i ∨ k ∈ kept → ∀ v, v ∉ reads.map s'.reads.value →
      ((t.record r (some i)).value v).source = some k →
        ((s'.thawSite i).value v).source = some k := by
    intro k inside v other before
    rw [thawSiteValue]
    exact rest.sources k (List.mem_cons.mpr inside) v other (by rwa [freezeSiteValue])
  refine ⟨keeps, ?_, ?_, ?_, ⟨?_, ?_⟩⟩
  · intro p member
    rcases List.mem_cons.mp member with rfl | member
    · exact ⟨old, t, moves, rfl⟩
    · exact sparesFewer (rest.spared p member) fun k inside => List.mem_cons_of_mem _ inside
  · intro k inside m listed
    have held : k ∈ ((t.record r (some i)).value m).sites := by
      rw [recordSites]
      exact moves.keepsListed inside listed
    obtain ⟨now, between⟩ := guarded k (.inr inside) m held
    refine ⟨now, fun p member => ?_⟩
    rcases List.mem_cons.mp member with rfl | member
    · exact ⟨listed, held⟩
    · exact between p member
  · intro k inside v other before
    rw [same] at other
    simp only [List.map_cons, List.mem_cons, not_or] at other
    refine sources k (.inr inside) v other.2 ?_
    rw [record, valueModify, if_neg]
    · exact moves.source inside before
    · rintro ⟨rfl, -⟩
      exact other.1 reader.symm
  · intro p member has
    rw [same] at has ⊢
    rcases List.mem_cons.mp member with rfl | member
    · refine ⟨i, rfl, servesOfKeeps (recorded.trans later) serves known fun m listed => ?_,
        fun once => ?_⟩
      · exact (guarded i (.inl rfl) m (by rwa [recordSites])).1
      · refine sources i (.inl rfl) _ (countFirst once) ?_
        have known' : t.IsValue (t.reads.value r) := by
          rw [moves.keeps.reads.value r there]
          exact (moves.keeps.isValue _).mpr value
        rw [reader, recordSource t r (some i) _ known', if_pos rfl]
    · obtain ⟨j, picked, serves', once⟩ := rest.sourced.served p member has
      refine ⟨j, picked, servesThaw serves', fun alone => ?_⟩
      rw [thawSiteValue]
      refine once (countLater ?_ alone)
      rw [← picksReads run]
      exact List.mem_map_of_mem member
  · refine List.pairwise_cons.mpr ⟨fun q member j picked => ?_, rest.sourced.steady⟩
    cases picked
    refine ⟨sparesFewer (rest.spared q member) (by simp), fun m listed => ?_⟩
    exact (guarded i (.inl rfl) m listed).2 q member

theorem servedOfPicks {reads : List ReadId} {picks : List Pick} (run : Picks reads s picks s') :
    ∀ {kept : List SiteId}, Ready old s kept [] → s.SingleReads reads →
      Served s kept reads picks s' := by
  induction run with
  | nil s =>
    intro kept ready single
    refine ⟨.refl s, by simp, fun _ _ _ listed => ⟨listed, ?_⟩, fun _ _ _ _ chosen => chosen, ?_, .nil⟩
    · simp
    · simp
  | @missing r rest s t picks u read later ih =>
    intro kept ready single
    obtain ⟨moves, -, -⟩ := readSourceSpec ready (fun r' member => single r' (by simp_all)) read
    refine .missing ready single read later (ih (readyRecord (ready.moves moves) r none) ?_)
    exact singleReadsOfKeeps (moves.keeps.trans (keepsRecord t r none))
      fun r' member => single r' (List.mem_cons_of_mem _ member)
  | @found r rest s t i picks u read later ih =>
    intro kept ready single
    obtain ⟨moves, -, chosen⟩ :=
      readSourceSpec ready (fun r' member => single r' (by simp_all)) read
    have known := (chosen i rfl).1
    have recorded := readyRecord (ready.moves moves) r (some i)
    refine .found ready single read later (ih (recorded.freeze known) ?_)
    have before : (t.record r (some i)).SingleReads rest :=
      singleReadsOfKeeps (moves.keeps.trans (keepsRecord t r (some i)))
        fun r' member => single r' (List.mem_cons_of_mem _ member)
    rw [freezeSiteEq]
    exact before

theorem sourcesServe {e : EventId} (formed : s.WellFormed) (owned : s.Owned)
    (single : s.SingleReads (s.event e).reads)
    (ok : chooseSources (s.event e).reads s = .ok () s') :
    ∃ picks, Picks (s.event e).reads s picks s' ∧ picks.map (·.read) = (s.event e).reads ∧
      Sourced (s.event e).reads picks s' := by
  obtain ⟨picks, run⟩ := picksOfSources _ ok
  have ready : Ready 0 s [] [] :=
    ⟨formed, owned.named formed, by simp [Secured], by simp, Nat.zero_le _⟩
  exact ⟨picks, run, picksReads run, (servedOfPicks run ready single).sourced⟩

end

theorem crossedServe : crossed.WellFormed ∧ crossed.Owned ∧
    crossed.SingleReads (crossed.event ⟨0⟩).reads ∧
    ∃ s', chooseSources (crossed.event ⟨0⟩).reads crossed = .ok () s' ∧
      ∃ picks, Picks (crossed.event ⟨0⟩).reads crossed picks s' ∧
        picks.map (·.read) = (crossed.event ⟨0⟩).reads ∧
        Sourced (crossed.event ⟨0⟩).reads picks s' := by
  have formed : crossed.WellFormed := by decide +kernel
  have owned : crossed.Owned := by decide +kernel
  have single : crossed.SingleReads (crossed.event ⟨0⟩).reads := by
    intro r member
    have two : r = ⟨0⟩ ∨ r = ⟨1⟩ := by simpa [crossed, event] using member
    rcases two with rfl | rfl
    · exact ⟨by decide, _, _, _, rfl⟩
    · exact ⟨by decide, _, _, _, rfl⟩
  obtain ⟨⟨⟩, s', ok⟩ : Succeeds (chooseSources (crossed.event ⟨0⟩).reads) crossed := by
    decide +kernel
  exact ⟨formed, owned, single, s', ok, sourcesServe formed owned single ok⟩

end Lowering
