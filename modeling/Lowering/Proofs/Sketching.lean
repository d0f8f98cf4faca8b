import Lowering.Proofs.Endowing
import Lowering.Proofs.Threading
/-!
What a description of straight-line code stands for.

Every value that was described has a word: it is a number, or the content of a register on entry, or what an event
makes of words that were there before it.
-/
namespace Lowering

open State Build

variable {s s' t : State} {ρ σ : ValueId → Word} {start : Processor} {es : List EventId} {pending : List ValueId} {v w : ValueId}
  {i : SiteId} {e : EventId} {kind : EventKind} {uses : List (ValueId × SiteMask × Option ValueId)} {ds : List EventId}

/-- What was described computes the words of the values. Those in `pending` are to be the results of the next events. -/
structure State.Sketched (ρ : ValueId → Word) (start : Processor) (es : List EventId) (pending : List ValueId) (s : State) :
    Prop where
  threaded : Threaded es s
  lined : s.Lined (es.flatMap fun e => (s.event e).reads)
  calculates : s.Calculates ρ es
  enters : s.Enters ρ start s.registerValues
  listed : ∀ v i, i ∈ (s.value v).sites → s.IsSite i
  made : ∀ v, s.MadeBy es v → s.IsValue v ∧ (s.value v).sites = []
  housed : ∀ v, s.IsValue v → ¬ s.MadeBy es v → v ∉ pending → (s.value v).sites ≠ []
  bare : ∀ v ∈ pending, s.IsValue v ∧ (s.value v).sites = []
  apart : ∀ v ∈ pending, ¬ s.MadeBy es v ∧ ∀ e ∈ es, ∀ r ∈ (s.event e).reads, s.reads.value r ≠ v

structure State.Pauses (s t : State) : Prop where
  calm : s.Calm t
  links : t.links = s.links
  events : t.events = s.events
  reads : t.reads = s.reads
  heads : ∀ v, (t.value v).reads = (s.value v).reads ∧ (t.value v).lastRead = (s.value v).lastRead

namespace State

theorem Pauses.event (h : Pauses s t) (e : EventId) : t.event e = s.event e := by rw [State.event, h.events, State.event]

theorem Pauses.lined {queue : List ReadId} (h : Pauses s t) (lined : s.Lined queue) : t.Lined queue := by
  have own : ∀ v, t.readsOf queue v = s.readsOf queue v := fun v => by rw [State.readsOf, h.reads, State.readsOf]
  exact ⟨fun v => by rw [h.reads, (h.heads v).1, own]; exact lined.queued v, fun v => by rw [(h.heads v).2, own]; exact lined.lasts v⟩

theorem Lined.isValue {queue : List ReadId} {r : ReadId} (h : s.Lined queue) (member : r ∈ queue) :
    s.IsValue (s.reads.value r) := by
  by_contra outside
  have own : r ∈ s.readsOf queue (s.reads.value r) := memReadsOf.mpr ⟨member, rfl⟩
  have head : (s.value (s.reads.value r)).reads = none := by rw [s.valueOutside outside]; rfl
  rw [(h.queued (s.reads.value r)).eqNone.mp head] at own
  cases own

theorem MadeBy.pause (h : Pauses s t) : t.MadeBy es v ↔ s.MadeBy es v := by simp only [MadeBy, result?, h.event]

namespace Sketched

theorem reader (h : Sketched ρ start es pending s) (member : e ∈ es) {r : ReadId} (inside : r ∈ (s.event e).reads) :
    s.reads.IsRead r ∧ s.IsValue (s.reads.value r) := by
  have queued : r ∈ es.flatMap fun e => (s.event e).reads := List.mem_flatMap.mpr ⟨e, member, inside⟩
  exact ⟨h.lined.isRead queued, h.lined.isValue queued⟩

theorem reword (h : Sketched ρ start es pending s) (same : ∀ v, s.IsValue v → v ∉ pending → σ v = ρ v) :
    Sketched σ start es pending s := by
  refine { h with
    calculates := h.calculates.congr (fun _ _ => rfl) (fun _ _ => rfl) (fun e member r inside => ⟨rfl, same _ (h.reader member inside).2
      fun waits => (h.apart _ waits).2 e member r inside rfl⟩) id fun v made => same v (h.made v made).1 fun waits => (h.apart v waits).1 made
    enters := { h.enters with words := fun v i inside => ?_ } }
  have word : σ v = ρ v := same v (s.isValueOfSites inside) fun waits => by
    rw [(h.bare v waits).2] at inside
    cases inside
  rw [word]
  exact h.enters.words v i inside

theorem pause (h : Sketched ρ start es pending s) (pauses : Pauses s t) (enters : t.Enters ρ start t.registerValues)
    (listed : ∀ v i, i ∈ (t.value v).sites → t.IsSite i) (old : ∀ v, s.IsValue v → t.IsValue v)
    (bare : ∀ v, s.IsValue v → (s.value v).sites = [] → v ∉ pending → (t.value v).sites = []) {pending' : List ValueId}
    (housed : ∀ v, t.IsValue v → ¬ s.MadeBy es v → v ∉ pending' → (t.value v).sites ≠ [])
    (vacant : ∀ v ∈ pending', t.IsValue v ∧ (t.value v).sites = [] ∧ (v ∈ pending ∨ ¬ s.IsValue v)) :
    Sketched ρ start es pending' t := by
  have event := pauses.event
  refine ⟨h.threaded.calm pauses.calm pauses.links fun x => by rw [event]; exact ⟨rfl, rfl, rfl⟩, ?_,
    h.calculates.congr (fun e _ => by rw [event]) (fun e _ => by rw [event]) (fun _ _ _ _ => ⟨by rw [pauses.reads], rfl⟩)
      (fun demands => by rwa [Demands, pauses.reads]) (fun _ _ => rfl), enters, listed, fun v made => ?_, fun v inside unmade => ?_,
    fun v member => ⟨(vacant v member).1, (vacant v member).2.1⟩, fun v member => ?_⟩
  · simp only [event]
    exact pauses.lined h.lined
  · rw [MadeBy.pause pauses] at made
    obtain ⟨known, none⟩ := h.made v made
    exact ⟨old v known, bare v known none fun waits => (h.apart v waits).1 made⟩
  · rw [MadeBy.pause pauses] at unmade
    exact housed v inside unmade
  · rw [MadeBy.pause pauses]
    simp only [event, pauses.reads]
    rcases (vacant v member).2.2 with waits | new
    · exact h.apart v waits
    · exact ⟨fun made => new (h.made v made).1, fun e there r inside same => new (same ▸ (h.reader there inside).2)⟩

theorem unknown (s : State) : ¬ s.IsValue ⟨s.values.size⟩ := by simp [IsValue]

theorem pausesNewValue (s : State) (valueKind : ValueKind) : Pauses s (s.newValue valueKind).2 := by
  refine ⟨.still rfl rfl rfl rfl rfl, rfl, rfl, rfl, fun w => ?_⟩
  rw [valueNew]
  split
  · rename_i here
    rw [here, s.valueOutside (unknown s)]
    exact ⟨rfl, rfl⟩
  · exact ⟨rfl, rfl⟩

theorem newValue (h : Sketched ρ start es [] s) (valueKind : ValueKind) :
    Sketched ρ start es [⟨s.values.size⟩] (s.newValue valueKind).2 := by
  have known : ∀ v, (s.newValue valueKind).2.IsValue v ↔ s.IsValue v ∨ v = ⟨s.values.size⟩ := fun ⟨n⟩ => by
    simp only [IsValue, State.newValue, Array.size_push, ValueId.mk.injEq]
    omega
  have sites := s.sitesNewValue valueKind
  refine h.pause (pausesNewValue s valueKind) ⟨fun v i inside => ?_, fun o member => ?_, ⟨fun v => ?_, fun v w i first second => ?_⟩,
    h.enters.apart⟩ (fun v i inside => ?_) (fun v inside => (known v).mpr (.inl inside)) (fun v _ none _ => by rw [sites, none])
    (fun v inside unmade old => ?_) fun v member => ?_
  · rw [sites] at inside
    exact h.enters.words v i inside
  · rw [sites]
    exact h.enters.waits o member
  · rw [sites]
    exact h.enters.once.each v
  · rw [sites] at first second
    exact h.enters.once.apart v w i first second
  · rw [sites] at inside
    exact h.listed v i inside
  · rw [sites]
    exact h.housed v (((known v).mp inside).resolve_right (List.mem_singleton.not.mp old)) unmade List.not_mem_nil
  · obtain rfl := List.mem_singleton.mp member
    rw [sites, s.valueOutside (unknown s)]
    exact ⟨(known _).mpr (.inr rfl), rfl, .inr (unknown s)⟩

theorem promise (h : Sketched ρ start es pending s) (n : PromiseKind) : Sketched ρ start es pending (s.createPromise n).2 := by
  refine h.pause (t := (s.createPromise n).2) ⟨.still rfl rfl rfl rfl rfl, rfl, rfl, rfl, fun _ => ⟨rfl, rfl⟩⟩ ⟨fun v i inside => ?_, h.enters.waits, ⟨h.enters.once.each,
    h.enters.once.apart⟩, h.enters.apart⟩ h.listed (fun v known => known) (fun v _ none _ => none) h.housed fun v member =>
    ⟨(h.bare v member).1, (h.bare v member).2, .inl member⟩
  refine (h.enters.words v i inside).imp_left fun ⟨c, m, site, kind, word⟩ => ⟨c, m, site, ?_, word⟩
  have old : c.index < s.promises.promises.length := by
    by_contra outside
    rw [PromiseTable.kind, List.getElem?_eq_none (Nat.not_lt.mp outside)] at kind
    cases kind
  have created : (s.createPromise n).2.promises.promises[c.index]? = s.promises.promises[c.index]? := List.getElem?_append_left old
  rwa [PromiseTable.kind, created, ← PromiseTable.kind]

end Sketched

structure Lodges (v : ValueId) (site : Site) (extra : List Owner) (s t : State) : Prop where
  pauses : Pauses s t
  size : t.values.size = s.values.size
  own : (t.value v).sites = [⟨s.sites.size⟩]
  other : ∀ w, w ≠ v → (t.value w).sites = (s.value w).sites
  new : t.site ⟨s.sites.size⟩ = site
  old : ∀ i, s.IsSite i → t.site i = s.site i
  isSite : ∀ i, t.IsSite i ↔ s.IsSite i ∨ i = ⟨s.sites.size⟩
  owners : t.registerValues = s.registerValues ++ extra
  promises : t.promises = s.promises
  resources : t.resources = s.resources
  geometry : t.geometry = s.geometry
  machine : t.machine = s.machine
  emitter : t.emitter = s.emitter
  frames : t.frames = s.frames ∧ t.stack = s.stack ∧ t.locals = s.locals

theorem lodges {site : Site} {extra : List Owner} (known : s.IsValue v) (none : (s.value v).sites = [])
    (owners : t.registerValues = s.registerValues ++ extra)
    (next : t = { (s.newSite site).2.modifyValue v fun d => { d with sites := d.sites ++ [⟨s.sites.size⟩] } with
      registerValues := t.registerValues }) : Lodges v site extra s t := by
  have value : ∀ w, t.value w = if w = v then { s.value v with sites := [⟨s.sites.size⟩] } else s.value w := by
    intro w
    rw [next]
    refine (valueModify (s.newSite site).2 v w _).trans ?_
    rw [if_congr (and_iff_left (show (s.newSite site).2.IsValue v from known)) rfl rfl]
    have same : ∀ x, (s.newSite site).2.value x = s.value x := fun _ => rfl
    simp only [same, none, List.nil_append]
  have sites : t.sites = s.sites.push site := by rw [next]; rfl
  refine ⟨⟨?_, ?_, ?_, ?_, fun w => ?_⟩, ?_, ?_, fun w apart => ?_, ?_, fun i inside => ?_, fun ⟨n⟩ => ?_, owners, ?_, ?_, ?_, ?_, ?_, ?_⟩
  · rw [next]; exact .still rfl rfl rfl rfl rfl
  · rw [next]; rfl
  · rw [next]; rfl
  · rw [next]; rfl
  · rw [value]
    split
    · rename_i here
      rw [here]
      exact ⟨rfl, rfl⟩
    · exact ⟨rfl, rfl⟩
  · rw [next]; simp [modifyValue, newSite]
  · rw [value, if_pos rfl]
  · rw [value, if_neg apart]
  · rw [State.site, sites]; simp
  · rw [State.site, sites]; exact siteNewOld (s := s) site inside
  · simp only [IsSite, sites, Array.size_push, SiteId.mk.injEq]; omega
  · rw [next]; rfl
  · rw [next]; rfl
  · rw [next]; rfl
  · rw [next]; rfl
  · rw [next]; rfl
  · rw [next]; exact ⟨rfl, rfl, rfl⟩

def Untaken (s : State) (n : Register) : Prop :=
  s.resources.Has (.register n) ∧ s.Free (.register n) ∧ ∀ o ∈ s.registerValues, s.resource? o.site ≠ some (.register n)

namespace Sketched

theorem waits {site : Site} {extra : List Owner} (h : Sketched ρ start es [v] s) (lodges : Lodges v site extra s t) :
    ∀ o ∈ s.registerValues, (t.value o.value).sites = [o.site] ∧ t.site o.site = s.site o.site ∧
      t.resource? o.site = s.resource? o.site := by
  intro o member
  obtain ⟨listed, -⟩ := h.enters.waits o member
  have differs : o.value ≠ v := by
    intro same
    rw [same, (h.bare v List.mem_cons_self).2] at listed
    cases listed
  have site := lodges.old o.site (h.listed o.value _ (by simp [listed]))
  exact ⟨by rw [lodges.other _ differs, listed], site, by rw [State.resource?, site, lodges.geometry, State.resource?]⟩

theorem lodge {site : Site} {extra : List Owner} (h : Sketched ρ start es [v] s) (lodges : Lodges v site extra s t)
    (word : (extra = [] ∧ ∃ c n, site = .constant c ∧ s.promises.kind c = .resolved n ∧ ρ v = BitVec.ofInt 64 n) ∨
      extra = [⟨v, ⟨s.sites.size⟩⟩] ∧ ∃ n, site = .ofRegister n ∧ s.Untaken n ∧ start.registers n = ρ v) :
    Sketched ρ start es [] t := by
  obtain ⟨known, none⟩ := h.bare v List.mem_cons_self
  have free : ∀ id, t.Free id ↔ s.Free id := fun id => by rw [Free, lodges.resources, Free]
  have apart : ∀ w, ⟨s.sites.size⟩ ∉ (s.value w).sites := fun w inside => by
    have known := h.listed w _ inside
    simp [IsSite] at known
  have isValue : ∀ w, t.IsValue w ↔ s.IsValue w := fun w => by rw [IsValue, lodges.size, IsValue]
  have each : ∀ w i, i ∈ (t.value w).sites ↔ (w = v ∧ i = ⟨s.sites.size⟩) ∨ i ∈ (s.value w).sites := by
    intro w i
    by_cases same : w = v
    · simp [same, lodges.own, none]
    · simp [same, lodges.other]
  refine h.pause lodges.pauses ⟨fun w i inside => ?_, fun o member => ?_, ⟨fun w => ?_, fun w w' i first second => ?_⟩, ?_⟩
    (fun w i inside => ?_) (fun w inside => (isValue w).mpr inside)
    (fun w _ none' waits => by rw [lodges.other w (List.mem_singleton.not.mp waits), none']) (fun w inside unmade _ => ?_) (by simp)
  · rw [lodges.promises, lodges.owners, lodges.resources]
    rcases (each w i).mp inside with ⟨rfl, rfl⟩ | inside
    · rw [lodges.new]
      rcases word with ⟨-, number⟩ | ⟨here, n, register, ⟨has, unreserved, -⟩, content⟩
      · exact .inl number
      · refine .inr ⟨n, register, ?_, has, (free _).mpr unreserved, content⟩
        rw [here]
        exact List.mem_append_right _ List.mem_cons_self
    · rw [lodges.old i (h.listed w i inside)]
      refine (h.enters.words w i inside).imp_right ?_
      rintro ⟨n, register, member, has, unreserved, content⟩
      exact ⟨n, register, List.mem_append_left _ member, has, (free _).mpr unreserved, content⟩
  · rw [lodges.owners] at member
    rcases List.mem_append.mp member with member | member
    · obtain ⟨listed, same, -⟩ := h.waits lodges o member
      rw [same]
      exact ⟨listed, (h.enters.waits o member).2⟩
    · rcases word with ⟨rfl, -⟩ | ⟨rfl, n, register, -⟩
      · cases member
      · rw [List.mem_singleton.mp member]
        exact ⟨lodges.own, n, lodges.new.trans register⟩
  · by_cases same : w = v
    · rw [same, lodges.own]
      exact List.nodup_singleton _
    · rw [lodges.other w same]
      exact h.enters.once.each w
  · rcases (each w i).mp first with ⟨rfl, rfl⟩ | first
    · exact (((each w' _).mp second).resolve_right (apart w')).1.symm
    · rcases (each w' i).mp second with ⟨rfl, rfl⟩ | second
      · exact absurd first (apart w)
      · exact h.enters.once.apart w w' i first second
  · rw [lodges.owners, List.pairwise_append]
    refine ⟨h.enters.apart.imp_of_mem fun {o p} first second differs => ?_, ?_, fun o member p inside => ?_⟩
    · rwa [(h.waits lodges o first).2.2, (h.waits lodges p second).2.2]
    · rcases word with ⟨rfl, -⟩ | ⟨rfl, -⟩ <;> simp
    · rcases word with ⟨rfl, -⟩ | ⟨rfl, n, register, ⟨-, -, vacant⟩, -⟩
      · cases inside
      · have stands : t.resource? ⟨s.sites.size⟩ = some (.register n) := by
          rw [State.resource?, lodges.new, register]
          rfl
        rw [List.mem_singleton.mp inside, (h.waits lodges o member).2.2, stands]
        exact vacant o member
  · exact (lodges.isSite i).mpr (((each w i).mp inside).elim (fun here => .inr here.2) fun inside => .inl (h.listed w i inside))
  · by_cases same : w = v
    · simp [same, lodges.own]
    · rw [lodges.other w same]
      exact h.housed w ((isValue w).mp inside) unmade (List.mem_singleton.not.mpr same)

/-! Appending. -/

end Sketched

theorem Calculates.snoc (h : s.Calculates ρ es) (computes : s.Computes ρ e) (before : ∀ x ∈ es, s.Precedes x e)
    (own : ∀ r ∈ (s.event e).reads, s.result? e ≠ some (s.reads.value r)) : s.Calculates ρ (es ++ [e]) := by
  refine ⟨fun x member => ?_, List.pairwise_append.mpr ⟨h.order, List.pairwise_singleton _ _, fun x member y last => ?_⟩,
    fun x member => ?_⟩
  · rcases List.mem_append.mp member with member | last
    · exact h.computes x member
    · rwa [List.mem_singleton.mp last]
  · rw [List.mem_singleton.mp last]
    exact before x member
  · rcases List.mem_append.mp member with member | last
    · exact h.own x member
    · rwa [List.mem_singleton.mp last]

theorem Calculates.idle (h : s.Calculates ρ es) (idle : ∀ d ∈ ds, (s.event d).kind = .dummy ∧ (s.event d).reads = []) :
    s.Calculates ρ (es ++ ds) := by
  have none : ∀ d ∈ ds, s.result? d = .none := fun d member => by rw [result?, (idle d member).1]; rfl
  have precedes : ∀ x, ∀ d ∈ ds, s.Precedes x d := fun x d member v made => by simp [none d member] at made
  refine ⟨fun x member => ?_, List.pairwise_append.mpr ⟨h.order, ?_, fun x _ d member => precedes x d member⟩,
    fun x member r inside => ?_⟩
  · rcases List.mem_append.mp member with member | last
    · exact h.computes x member
    · exact .dummy (idle x last).1 (idle x last).2
  · exact List.pairwise_of_forall_mem_list fun x _ d member => precedes x d member
  · rcases List.mem_append.mp member with member | last
    · exact h.own x member r inside
    · simp [(idle x last).2] at inside

theorem MadeBy.append {fs : List EventId} : s.MadeBy (es ++ fs) v ↔ s.MadeBy es v ∨ s.MadeBy fs v := by
  simp only [MadeBy, List.mem_append, or_and_right, exists_or]

theorem MadeBy.idle (idle : ∀ d ∈ ds, (s.event d).kind = .dummy ∧ (s.event d).reads = []) : ¬ s.MadeBy ds v := by
  rintro ⟨d, member, made⟩
  simp [result?, (idle d member).1, EventKind.result?] at made

theorem Enters.congr {owners : List Owner} (h : s.Enters ρ start owners) (houses : Houses s t) : t.Enters ρ start owners := by
  have site : ∀ i, t.site i = s.site i := fun i => by rw [State.site, houses.sites, State.site]
  have resource : ∀ i, t.resource? i = s.resource? i := fun i => by rw [State.resource?, site, houses.geometry, State.resource?]
  have free : ∀ id, t.Free id ↔ s.Free id := fun id => by rw [Free, houses.resources, Free]
  refine ⟨fun v i inside => ?_, fun o member => ?_, ⟨fun v => ?_, fun v w i first second => ?_⟩, ?_⟩
  · rw [houses.listed] at inside
    simp only [site, houses.promises, houses.resources, free]
    exact h.words v i inside
  · rw [houses.listed, site]
    exact h.waits o member
  · rw [houses.listed]
    exact h.once.each v
  · rw [houses.listed] at first second
    exact h.once.apart v w i first second
  · simpa only [resource] using h.apart

namespace Sketched

theorem appends (h : Sketched ρ start es pending s) (appended : Appended es kind uses s t ds e) :
    t.Calculates ρ (es ++ ds) ∧ t.Enters ρ start t.registerValues ∧ (∀ v, t.MadeBy (es ++ ds) v ↔ s.MadeBy es v) := by
  have retells := appended.retells
  have kept := h.calculates.congr retells.kind retells.reads
    (fun x member r inside => ⟨retells.value r (h.reader member inside).1, rfl⟩) retells.demands fun _ _ => rfl
  refine ⟨kept.idle appended.idle, ?_, fun v => ?_⟩
  · rw [appended.houses.waiting]
    exact h.enters.congr appended.houses
  · rw [MadeBy.append, or_iff_left (MadeBy.idle appended.idle)]
    exact exists_congr fun x => and_congr_right fun member => by rw [result?, retells.kind x member, result?]

theorem append (h : Sketched ρ start es [v] s) (appended : Appended es kind uses s t ds e) (result : kind.result? = some v)
    (apart : ∀ u ∈ uses, u.1 ≠ v) (computes : t.Computes ρ e) : Sketched ρ start (es ++ ds ++ [e]) [] t := by
  obtain ⟨calculates, enters, made⟩ := h.appends appended
  obtain ⟨known, none⟩ := h.bare v List.mem_cons_self
  obtain ⟨unmade, unread⟩ := h.apart v List.mem_cons_self
  have own : t.result? e = some v := by rw [result?, appended.kind, result]
  have last : ∀ w, t.MadeBy [e] w ↔ w = v := fun w => by simp [MadeBy, own, eq_comm]
  have all : ∀ w, t.MadeBy (es ++ ds ++ [e]) w ↔ s.MadeBy es w ∨ w = v := fun w => by rw [MadeBy.append, made, last]
  have isValue : ∀ w, t.IsValue w ↔ s.IsValue w := fun w => by rw [IsValue, appended.houses.size, IsValue]
  have reads : ∀ r ∈ (t.event e).reads, t.reads.value r ≠ v := by
    have both := (List.forall₂_and_left _ _).mpr ⟨apart, appended.reads⟩
    have others : List.Forall₂ (fun r u => t.reads.value r ≠ v ∧ True) (t.event e).reads uses :=
      (both.imp fun u r h => ⟨by rw [h.2.1]; exact h.1, trivial⟩).flip
    exact ((List.forall₂_and_left _ _).mp others).1
  refine ⟨appended.threaded, appended.lined, calculates.snoc computes (fun x member w wanted => ?_) fun r inside wanted => ?_, enters,
    fun w i inside => ?_, fun w there => ?_, fun w inside absent _ => ?_, by simp, by simp⟩
  · obtain rfl : v = w := Option.some.inj (own.symm.trans wanted)
    refine ⟨fun early => unmade ((made v).mp ⟨x, member, early⟩), fun r inside same => ?_⟩
    rcases List.mem_append.mp member with member | idle
    · rw [appended.retells.reads x member] at inside
      rw [appended.retells.value r (h.reader member inside).1] at same
      exact unread x member r inside same
    · simp [(appended.idle x idle).2] at inside
  · exact reads r inside (Option.some.inj (own.symm.trans wanted)).symm
  · rw [appended.houses.listed] at inside
    rw [IsSite, appended.houses.sites]
    exact h.listed w i inside
  · rw [isValue, appended.houses.listed]
    rcases (all w).mp there with there | rfl
    · exact h.made w there
    · exact ⟨known, none⟩
  · rw [all] at absent
    rw [appended.houses.listed]
    refine h.housed w ((isValue w).mp inside) (fun there => absent (.inl there)) fun waits => absent (.inr ?_)
    exact List.mem_singleton.mp waits

end Sketched

end State

end Lowering
