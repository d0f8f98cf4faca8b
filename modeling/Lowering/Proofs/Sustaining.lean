import Lowering.Proofs.Retirement
import Lowering.Proofs.Sources
/-!
What holds between the events of straight-line code.

The processor holds the words of the values where the tables say, the reads still to come are in a
queue, every value that is still to be read is somewhere, and the results to come are nowhere yet.
Moving values about upholds this.
-/
namespace Lowering

open State Build

variable {s s' t u : State} {old : Nat} {kept h₀ h₁ : List SiteId} {v w : ValueId} {i j : SiteId} {id : ResourceId}
  {p p' start : Processor} {ρ : ValueId → Word} {lent : List Register} {queue due : List ReadId} {ahead : ValueId → Prop}

theorem State.Fresh.homeless (fresh : s.Fresh v) : s.hasSite v = false := by
  rw [hasSite, ringAlone fresh.alone]
  simp [fresh.bare]

theorem State.Moves.bare (run : Moves old kept h₀ s h₁ s') (fresh : s.Fresh v) : (s'.value v).sites = [] := by
  induction run with
  | refl => exact fresh.bare
  | trans first _ ih₁ ih₂ =>
    exact ih₂ ⟨(first.keeps.isValue v).mpr fresh.known, (first.keeps.next v).trans fresh.alone, ih₁ fresh⟩
  | ask => exact fresh.bare
  | create => exact fresh.bare
  | @frozen kept h₀ s h₁ t i known run ih =>
    rw [thawSiteValue]
    refine ih ⟨?_, by rw [freezeSiteValue, fresh.alone], by rw [freezeSiteValue, fresh.bare]⟩
    rw [freezeSiteRest]
    exact fresh.known
  | @drop kept hollow s id o =>
    refine List.eq_nil_iff_forall_not_mem.mpr fun i inside => ?_
    have before := s.removeSiteListed inside
    rw [fresh.bare] at before
    cases before
  | @redirect kept hollow s o j =>
    rw [s.redirectSites o j v]
    exact fresh.bare
  | @take kept hollow s t u w i id value known names plain free fresh' born apart run vacates entitled ih =>
    have reached := s.keepsReach i
    have bare := ih ⟨(reached.isValue v).mpr fresh.known, (reached.next v).trans fresh.alone, fresh.bare⟩
    refine List.eq_nil_iff_forall_not_mem.mpr fun j inside => ?_
    have all := (reached.trans run.keeps).trans vacates.keeps
    rcases (u.occupyListed ((all.isValue w).mpr value)).mp inside with ⟨rfl, -⟩ | before
    · exact absurd entitled.housed (by simp [fresh.homeless])
    · have before := vacates.listed before
      rw [bare] at before
      cases before
  | fill => exact fresh.bare

theorem State.Moves.fresh (run : Moves old kept h₀ s h₁ s') (fresh : s.Fresh v) : s'.Fresh v :=
  ⟨(run.keeps.isValue v).mpr fresh.known, (run.keeps.next v).trans fresh.alone, run.bare fresh⟩

structure State.Abides (s s' : State) : Prop where
  events : s'.events = s.events
  links : s'.links = s.links
  machine : s'.machine = s.machine
  geometry : s'.geometry = s.geometry
  reads : s.reads.Evolves s'.reads

namespace State.Abides

theorem refl (s : State) : Abides s s := ⟨rfl, rfl, rfl, rfl, .refl _⟩

theorem trans (first : Abides s t) (second : Abides t s') : Abides s s' :=
  ⟨second.events.trans first.events, second.links.trans first.links, second.machine.trans first.machine,
    second.geometry.trans first.geometry, first.reads.trans second.reads⟩

theorem ofShell (shell : s'.shell = s.shell) (reads : s.reads.Evolves s'.reads) : Abides s s' :=
  ⟨(congrArg State.events shell : s'.shell.events = s.shell.events),
    (congrArg State.links shell : s'.shell.links = s.shell.links),
    (congrArg State.machine shell : s'.shell.machine = s.shell.machine),
    (congrArg State.geometry shell : s'.shell.geometry = s.shell.geometry), reads⟩

theorem event (h : Abides s s') (e : EventId) : s'.event e = s.event e := by rw [State.event, h.events, State.event]

theorem link (h : Abides s s') (l : LinkId) : s'.link l = s.link l := by rw [State.link, h.links, State.link]

end State.Abides

theorem State.Extends.abides (h : Extends s s') : Abides s s' := .ofShell (by rw [h.rest]; rfl) h.reads

theorem Recedes.abides (h : Recedes s s') : Abides s s' := .ofShell h.shell h.reads

/-- What holds between events: the words are where the tables say, the reads of `queue` are still to come,
what the reads of `due` want is somewhere, and nobody has come across the values `ahead`. -/
structure State.Sustains (ρ : ValueId → Word) (start p : Processor) (queue due : List ReadId) (ahead : ValueId → Prop)
    (s : State) : Prop where
  faithful : Faithful ρ p [] [] s
  logged : s.Logged start p
  queued : s.Queued queue
  within : ∀ r ∈ due, r ∈ queue
  fresh : ∀ v, ahead v → s.Fresh v
  housed : ∀ v, s.IsValue v → s.Wanted due v → ¬ ahead v → s.hasSite v = true

namespace State.Sustains

theorem formed (h : Sustains ρ start p queue due ahead s) : s.WellFormed := h.faithful.tracked.formed

theorem ready (h : Sustains ρ start p queue due ahead s) : Ready 0 s [] [] := h.faithful.tracked.ready (Nat.zero_le _)

theorem wantedBack (queued : s.Queued queue) (within : ∀ r ∈ due, r ∈ queue) (evolves : s.reads.Evolves s'.reads)
    (met : ∀ m ∈ s'.ring v, m ∈ s.ring v) (wanted : s'.Wanted due v) : s.Wanted due v := by
  obtain ⟨r, member, inside⟩ := wanted
  refine ⟨r, member, met _ ?_⟩
  rwa [← evolves.value r (queued.isRead (within r member))]

theorem live (h : Sustains ρ start p queue due ahead s) (wanted : s.Wanted due v) : s.Live v := by
  obtain ⟨r, member, inside⟩ := wanted
  exact (h.queued.wanted h.formed v).mpr ⟨r, h.within r member, inside⟩

theorem moves (h : Sustains ρ start p queue due ahead s) (run : Moves old kept [] s [] s') :
    ∃ p', Sustains ρ start p' queue due ahead s' := by
  obtain ⟨p', faithful, logged⟩ := run.faithful h.faithful h.logged
  have keeps := run.keeps
  refine ⟨p', faithful, logged, h.queued.evolves keeps.reads keeps.head, h.within,
    fun v front => run.fresh (h.fresh v front), fun v known wanted other => ?_⟩
  have known' := (keeps.isValue v).mp known
  have wanted := wantedBack h.queued h.within keeps.reads (fun m member => by rwa [keeps.ring] at member) wanted
  exact run.survives h.formed h.faithful.tracked.named h.faithful.tracked.once v known' (h.live wanted)
    (h.housed v known' wanted other)

theorem onward (h : Sustains ρ start p queue due ahead s) (extend : Extends s s')
    (value : ∀ v, (s'.value v).outline = (s.value v).outline) (sites : ∀ v, (s'.value v).sites = (s.value v).sites)
    (size : s'.values.size = s.values.size) (faithful : Faithful ρ p' [] [] s') (logged : s'.Logged start p') :
    Sustains ρ start p' queue due ahead s' := by
  have next : ∀ v, (s'.value v).next = (s.value v).next := fun v => show (s'.value v).outline.next = _ by rw [value]; rfl
  have ring := ringCongr size next
  refine ⟨faithful, logged, h.queued.evolves extend.reads fun v => show (s'.value v).outline.reads = _ by rw [value]; rfl,
    h.within, fun v front => ?_, fun v known wanted other => ?_⟩
  · obtain ⟨known, alone, bare⟩ := h.fresh v front
    exact ⟨by rwa [IsValue, size], by rw [next, alone], by rw [sites, bare]⟩
  · have wanted := wantedBack h.queued h.within extend.reads (fun m member => by rwa [ring] at member) wanted
    have has := h.housed v (by rwa [IsValue, ← size]) wanted other
    rw [hasSite, ring]
    simp only [sites]
    exact has

theorem still (h : Sustains ρ start p queue due ahead s) (extend : Extends s s')
    (value : ∀ v, (s'.value v).outline = (s.value v).outline) (sites : ∀ v, (s'.value v).sites = (s.value v).sites)
    (size : s'.values.size = s.values.size) (bound : s'.sites.size = s.sites.size) (emitter : s'.emitter = s.emitter)
    (tracked : s'.Tracked [] []) : Sustains ρ start p queue due ahead s' := by
  refine h.onward extend value sites size ?_ (h.logged.congr emitter)
  refine h.faithful.fewer extend size tracked (fun i out inside => absurd ?_ out)
    (fun v i inside => by rwa [sites] at inside) (by simp)
  rwa [IsSite, ← bound]

theorem recede {rs : List ReadId} (h : Sustains ρ start p (rs ++ due) due ahead s) (recedes : Recedes s s')
    (tracked : s'.Tracked [] []) (queued : s'.Queued due) : Sustains ρ start p due due ahead s' := by
  have formed' := tracked.formed
  refine ⟨h.faithful.recede recedes tracked, h.logged.congr recedes.emitter, queued, fun _ member => member,
    fun v front => recedes.fresh formed'.rings (h.fresh v front), fun v known wanted behind => ?_⟩
  have there := (recedes.isValue v).mp known
  refine recedes.housed v there ((queued.wanted formed' v).mpr wanted) (h.housed v there ?_ behind)
  obtain ⟨r, member, met⟩ := wanted
  refine ⟨r, member, recedes.met v there _ ?_⟩
  rwa [← recedes.reads.value r (h.queued.isRead (List.mem_append_right _ member))]

theorem freeze (h : Sustains ρ start p queue due ahead s) (bound : s.bound i = []) :
    Sustains ρ start p queue due ahead (s.freezeSite i) := by
  have tracked := h.faithful.tracked.freeze i
  rw [bound] at tracked
  have rest := s.freezeSiteRest i
  exact h.still (s.extendsFreeze i) (fun v => by rw [freezeSiteValue]) (fun v => by rw [freezeSiteValue])
    (by rw [rest]) (by rw [rest]) (s.freezeSiteEmitter i) tracked

theorem thaw (h : Sustains ρ start p queue due ahead s) (bound : s.bound i = []) :
    Sustains ρ start p queue due ahead (s.thawSite i) := by
  have tracked : (s.thawSite i).Tracked [] [] := Tracked.thaw (by rw [bound]; exact h.faithful.tracked)
  exact h.still (s.extendsThaw i) (fun v => by rw [thawSiteValue]) (fun v => by rw [thawSiteValue])
    (s.thawSiteUnmoved i).size (by rw [thawSiteEq]; rfl) (s.thawSiteEmitter i) tracked

theorem record (h : Sustains ρ start p queue due ahead s) (r : ReadId) (source : Option SiteId) :
    Sustains ρ start p queue due ahead (s.record r source) := by
  have keeps := keepsRecord s r source
  refine h.still keeps.extends keeps.value (recordSites s r source) keeps.size rfl rfl ?_
  exact h.faithful.tracked.still keeps (recordSites s r source) (fun _ _ => rfl) fun _ => rfl

end State.Sustains

theorem State.Direct.bound (direct : s.Direct (s.site i)) : s.bound i = [] := by
  rcases direct with ⟨c, n, site, -⟩ | ⟨id, names, -⟩
  · simp [State.bound, resource?, site, Site.resource?, Site.addressed]
  · have names : s.resource? i = some id := names
    simp [State.bound, names]

theorem freezeBound (s : State) (i j : SiteId) : (s.freezeSite i).bound j = s.bound j := by
  rw [State.bound, freezeSiteResource, freezeSiteRest, State.bound]
  rfl

theorem State.Keeps.bound (keeps : Keeps s s') (known : s.IsSite i) : s'.bound i = s.bound i := by
  rw [State.bound, keeps.resource known, Site.addressedOfPlace (keeps.place i known), State.bound]

namespace State.Sustains

variable {r : ReadId} {reads : List ReadId} {picks : List Pick}

theorem isValue (h : Sustains ρ start p queue due ahead s) (member : r ∈ queue) : s.IsValue (s.reads.value r) := by
  by_contra outside
  have own : r ∈ s.readsOf queue (s.reads.value r) := memReadsOf.mpr ⟨member, rfl⟩
  have head : (s.value (s.reads.value r)).reads = none := by rw [s.valueOutside outside]; rfl
  rw [(h.queued (s.reads.value r)).eqNone.mp head] at own
  cases own

theorem single (h : Sustains ρ start p queue due ahead s) (inside : ∀ r ∈ reads, r ∈ queue) : s.SingleReads reads := by
  intro r member
  refine ⟨h.isValue (inside r member), ?_⟩
  obtain ⟨mask, successor, next, kind⟩ := (h.queued (s.reads.value r)).single (memReadsOf.mpr ⟨inside r member, rfl⟩)
  exact ⟨mask, successor, next, kind⟩

theorem present (h : Sustains ρ start p queue due ahead s) (member : r ∈ due) (behind : ¬ ahead (s.reads.value r)) :
    s.hasSite (s.reads.value r) = true :=
  h.housed _ (h.isValue (h.within r member)) ⟨r, member, selfMemRing s _⟩ behind

theorem sources (run : Picks reads s picks s') : ∀ {kept : List SiteId} {p : Processor}, Ready 0 s kept [] →
    Sustains ρ start p queue due ahead s → (∀ r ∈ reads, r ∈ due ∧ ¬ ahead (s.reads.value r)) →
    (∃ p', Sustains ρ start p' queue due ahead s') ∧ Keeps s s' ∧ ∀ r ∈ reads, ∃ i,
      (s'.value (s'.reads.value r)).source = some i ∧
        ∃ x ∈ reads, s'.reads.value x = s'.reads.value r ∧ s'.Serves x i := by
  induction run with
  | nil s => exact fun _ h _ => ⟨⟨_, h⟩, .refl s, by simp⟩
  | @missing r rest s t picks u read later ih =>
    intro kept p ready h inside
    obtain ⟨member, behind⟩ := inside r List.mem_cons_self
    have first : s.SingleReads [r] := h.single fun x here => h.within x (by simp_all)
    obtain ⟨-, homeless, -⟩ := readSourceSpec ready first read
    exact absurd (h.present member behind) (by simp [homeless rfl])
  | @found r rest s t i picks u read later ih =>
    intro kept p ready h inside
    have single := h.single fun x here => h.within x (inside x here).1
    have served := servedOfPicks (.found read later) ready single
    obtain ⟨moves, -, chosen⟩ := readSourceSpec ready (fun x here => single x (by simp_all)) read
    obtain ⟨known, serves⟩ := chosen i rfl
    obtain ⟨q, moved⟩ := h.moves moves
    have recorded := moved.record r (some i)
    have keeps := moves.keeps.trans (keepsRecord t r (some i))
    have direct : ∀ m, i ∈ (t.value m).sites → (t.record r (some i)).bound i = [] := fun m listed =>
      (recorded.faithful.direct m i (by rwa [recordSites])).bound
    obtain ⟨-, -, -, -, ⟨m, -, listed⟩, -⟩ := serves
    have bound := direct m listed
    have ready' := (readyRecord (ready.moves moves) r (some i)).freeze known
    have inside' : ∀ x ∈ rest, x ∈ due ∧ ¬ ahead (((t.record r (some i)).freezeSite i).reads.value x) := by
      intro x here
      obtain ⟨member, behind⟩ := inside x (List.mem_cons_of_mem _ here)
      refine ⟨member, ?_⟩
      rw [freezeSiteRest]
      show ¬ ahead ((t.record r (some i)).reads.value x)
      rwa [keeps.reads.value x (h.queued.isRead (h.within x member))]
    obtain ⟨⟨p', upheld⟩, onward, sources⟩ := ih ready' (recorded.freeze bound) inside'
    have same : (u.thawSite i).reads = u.reads := by rw [thawSiteEq]; rfl
    have bound' : u.bound i = [] := by
      rw [onward.bound ((freezeSiteIsSite _ i i).mpr known), freezeBound, bound]
    refine ⟨⟨p', upheld.thaw bound'⟩, served.keeps, fun x here => ?_⟩
    rw [same]
    by_cases again : ∃ y ∈ rest, u.reads.value y = u.reads.value x
    · obtain ⟨y, inside, reader⟩ := again
      obtain ⟨j, source, z, member, reader', serves⟩ := sources y inside
      rw [← reader, thawSiteValue]
      exact ⟨j, source, z, List.mem_cons_of_mem _ member, reader', servesThaw serves⟩
    · -- the last read of the value
      obtain rfl : x = r := by
        refine (List.mem_cons.mp here).resolve_right fun inside => again ⟨x, inside, rfl⟩
      have has : s.hasSite ((u.thawSite i).reads.value x) = true := by
        rw [served.keeps.reads.value x (h.queued.isRead (h.within x (inside x here).1))]
        obtain ⟨member, behind⟩ := inside x here
        exact h.present member behind
      obtain ⟨j, picked, serves, once⟩ := served.sourced.served _ List.mem_cons_self has
      rw [same] at once
      refine ⟨j, once ?_, x, here, rfl, serves⟩
      rw [List.map_cons, List.count_cons_self, List.count_eq_zero_of_not_mem]
      rw [List.mem_map]
      rintro ⟨y, inside, reader⟩
      exact again ⟨y, inside, reader⟩

end State.Sustains

end Lowering
