import Lowering.Proofs.Beginning
import Lowering.Proofs.Stepping
/-!
Where words are when emission starts.

Handles of different registers never get in each other's way: each that is read gets its register, and nobody has
to be moved for it. From then on every value that was described has its word where it is listed.
-/
namespace Lowering

open State Build Compile

variable {s t u : State} {v : ValueId} {i : SiteId} {n : Register} {o : Owner} {owners : List Owner} {p start : Processor}
  {ρ : ValueId → Word} {due : List ReadId} {ahead : ValueId → Prop} {handler : Option Int} {limitOffset : Nat}

/-- The values of `owners` that are read have got their registers, and nothing else belongs to anybody. -/
structure State.Bestows (owners : List Owner) (s t : State) : Prop extends Keeps s t where
  values : t.values = s.values
  site : ∀ i, t.site i = s.site i
  emitter : t.emitter = s.emitter
  references : ∀ id, (t.resources.get id).references = (s.resources.get id).references
  owner : ∀ id o, t.owner? id = some o ↔ o ∈ owners ∧ s.resource? o.site = some id ∧ s.Live o.value ∧
    s.resources.Has id ∧ s.Free id

theorem State.bestowsNone (bare : ∀ id, s.owner? id = none) : Bestows [] s s :=
  { Keeps.refl s with
    values := rfl
    site := fun _ => rfl
    emitter := rfl
    references := fun _ => rfl
    owner := fun id o => by simp [bare] }

theorem State.Bestows.claim (h : Bestows owners s t) (formed : s.WellFormed) (formed' : t.WellFormed)
    (listed : (s.value o.value).sites = [o.site]) (site : s.site o.site = .ofRegister n)
    (apart : ∀ p ∈ owners, s.resource? p.site ≠ s.resource? o.site) (ok : Compile.claim o t = .ok () u) :
    Bestows (owners ++ [o]) s u := by
  have names : s.resource? o.site = some (.register n) := by rw [State.resource?, site]; rfl
  obtain ⟨reads, state, evolves, -⟩ := liveReadSpec formed' o.value
  have alive : t.Live o.value ↔ s.Live o.value := h.live formed formed' o.value
  unfold Compile.claim at ok
  obtain ⟨b, w, asked, ok⟩ := bindOk.mp ok
  obtain ⟨rfl, rfl⟩ := Prod.ext_iff.mp (modifyGetOk.mp asked)
  have asks : Bestows owners s (t.isLive o.value).2 := by
    rw [isLiveState, state]
    exact { h.toKeeps.trans (t.keepsReads evolves) with
      values := h.values
      site := h.site
      emitter := h.emitter
      references := h.references
      owner := h.owner }
  generalize (t.isLive o.value).2 = w at ok asks
  cases live : (t.isLive o.value).1 with
  | false =>
    simp only [live, Bool.false_eq_true, if_false, pureOk, true_and] at ok
    subst ok
    have dead : ¬ s.Live o.value := fun lives => by
      have lives := alive.mpr lives
      rw [Live, live] at lives
      cases lives
    refine { asks with owner := fun id q => (asks.owner id q).trans ⟨fun got => ⟨List.mem_append_left _ got.1, got.2⟩, ?_⟩ }
    rintro ⟨member, got⟩
    rcases List.mem_append.mp member with member | member
    · exact ⟨member, got⟩
    · obtain rfl := List.mem_singleton.mp member
      exact absurd got.2.1 dead
  | true =>
    have contains : (w.value o.value).sites.contains o.site = true := by
      rw [State.value, asks.values, ← State.value, listed]
      simp
    simp only [live, if_true, getBind, contains] at ok
    have site' : w.site o.site = .ofRegister n := (asks.site o.site).trans site
    have vacant : ∀ id, w.resource? o.site = some id → w.Free id → w.owner? id = none := by
      intro id stands free
      cases owner : w.owner? id with
      | none => rfl
      | some q =>
        obtain ⟨member, got, -⟩ := (asks.owner id q).mp owner
        have stands : s.resource? o.site = some id := by
          rwa [State.resource?, asks.site, asks.geometry] at stands
        exact absurd (got.trans stands.symm) (apart q member)
    rw [acquireClosed (by rw [site']; rfl) vacant, reachBare (by rw [site']; rfl)] at ok
    have rest := ownRest w ⟨o.value, o.site⟩ (w.site o.site).taken
    have taken : (w.site o.site).taken = (w.own ⟨o.value, o.site⟩ (w.site o.site).taken).site o.site := by
      rw [rest, site']
      exact site'.symm
    nth_rewrite 2 [taken] at ok
    rw [setSiteSame] at ok
    cases ok
    have keeps := w.keepsOwn ⟨o.value, o.site⟩ (w.site o.site).taken
    refine
      { asks.toKeeps.trans keeps with
        values := by rw [rest]; exact asks.values
        site := fun i => by rw [rest]; exact asks.site i
        emitter := by rw [rest]; exact asks.emitter
        references := fun id => (ownReferences ..).trans (asks.references id)
        owner := fun id q => ?_ }
    have stands : (w.site o.site).taken.resource? w.geometry = s.resource? o.site := by
      rw [asks.site, asks.geometry, site, State.resource?, site]
      rfl
    have lives : s.Live o.value := alive.mp live
    rw [ownOwner, stands]
    split
    · rename_i got
      obtain ⟨here, has, free⟩ := got
      have has := (asks.has id).mp has
      have free := (asks.free id).mp free
      constructor
      · rintro ⟨⟩
        exact ⟨List.mem_append_right _ List.mem_cons_self, here, lives, has, free⟩
      · rintro ⟨member, same, -⟩
        rcases List.mem_append.mp member with member | member
        · exact absurd (same.trans here.symm) (apart q member)
        · rw [List.mem_singleton.mp member]
    · rename_i other
      refine (asks.owner id q).trans ⟨fun got => ⟨List.mem_append_left _ got.1, got.2⟩, ?_⟩
      rintro ⟨member, got⟩
      rcases List.mem_append.mp member with member | member
      · exact ⟨member, got⟩
      · obtain rfl := List.mem_singleton.mp member
        exact absurd ⟨got.1, (asks.has id).mpr got.2.2.1, (asks.free id).mpr got.2.2.2⟩ other

theorem State.Bestows.wellFormed (h : Bestows owners s t) (formed : s.WellFormed) : t.WellFormed :=
  h.toKeeps.wellFormed formed fun v i inside => by
    rw [State.value, h.values] at inside
    exact h.toKeeps.isSite (formed.listed v i inside)

theorem State.Bestows.claimAll (formed : s.WellFormed) (waiting : List Owner) : ∀ {owners : List Owner} {t : State},
    Bestows owners s t → (∀ o ∈ waiting, (s.value o.value).sites = [o.site] ∧ ∃ n, s.site o.site = .ofRegister n) →
    (owners ++ waiting).Pairwise (fun o p => s.resource? o.site ≠ s.resource? p.site) →
    waiting.forM Compile.claim t = .ok () u → Bestows (owners ++ waiting) s u := by
  induction waiting with
  | nil =>
    intro owners t h _ _ ok
    obtain ⟨-, rfl⟩ := pureOk.mp ok
    rwa [List.append_nil]
  | cons o rest ih =>
    intro owners t h sites apart ok
    obtain ⟨⟨⟩, w, first, later⟩ := bindOk.mp ok
    obtain ⟨listed, n, site⟩ := sites o List.mem_cons_self
    have before : ∀ p ∈ owners, s.resource? p.site ≠ s.resource? o.site := fun p member =>
      (List.pairwise_append.mp apart).2.2 p member o List.mem_cons_self
    have next := h.claim formed (h.wellFormed formed) listed site before first
    rw [List.append_cons] at apart ⊢
    exact ih next (fun p member => sites p (List.mem_cons_of_mem _ member)) apart later

/-! The first instructions. -/

/-- Before emission a value is a number, or it waits for the register that it was created in, where its word is. -/
structure State.Enters (ρ : ValueId → Word) (p : Processor) (owners : List Owner) (s : State) : Prop where
  words : ∀ v i, i ∈ (s.value v).sites →
    (∃ c n, s.site i = .constant c ∧ s.promises.kind c = .resolved n ∧ ρ v = BitVec.ofInt 64 n) ∨
      ∃ n, s.site i = .ofRegister n ∧ ⟨v, i⟩ ∈ owners ∧ s.resources.Has (.register n) ∧ s.Free (.register n) ∧
        p.registers n = ρ v
  waits : ∀ o ∈ owners, (s.value o.value).sites = [o.site] ∧ ∃ n, s.site o.site = .ofRegister n
  once : s.ListedOnce
  apart : owners.Pairwise fun o p => s.resource? o.site ≠ s.resource? p.site

theorem State.Drafted.wellFormed (drafted : s.Drafted)
    (frame : (s.resources.slots.length + s.geometry.footer) * wordSize ≤ modulus 32) : s.WellFormed where
  rings := ⟨fun v known => by rwa [drafted.alone v known], fun v w first second same => by
    rwa [drafted.alone v first, drafted.alone w second] at same⟩
  listed := drafted.listed
  reads := drafted.reads
  heads v r head := ⟨(drafted.heads v r head).known, (drafted.heads v r head).value⟩
  frame := frame

theorem State.Enters.referred (h : s.Enters ρ p owners) (inside : i ∈ (s.value v).sites) : (s.site i).referred = [] := by
  rcases h.words v i inside with ⟨c, n, site, -⟩ | ⟨n, site, -⟩ <;> rw [site] <;> rfl

theorem bestowedFaithful (drafted : s.Drafted) (entered : s.Enters ρ p owners) (h : Bestows owners s t)
    (frame : (s.resources.slots.length + s.geometry.footer) * wordSize ≤ modulus 32)
    (stack : ¬ s.Free (.register s.geometry.stack)) (numbered : s.resources.registers.length = s.machine.registerCount) :
    Faithful ρ p [] [] t := by
  have formed := drafted.wellFormed frame
  have formed' := h.wellFormed formed
  have value : t.value = s.value := by
    funext v
    rw [State.value, h.values, State.value]
  have level : ∀ i m acquired, t.site i ≠ .memory m acquired := fun i m acquired => by
    rw [h.site]
    exact drafted.level i m acquired
  have resource : ∀ i, t.resource? i = s.resource? i := fun i => by
    rw [State.resource?, h.site, h.geometry, State.resource?]
  have live := h.live formed formed'
  have plain : ∀ i, t.Plain (t.site i) := fun i m acquired memory => absurd memory (level i m acquired)
  have free : ∀ id, ¬ t.Free id → t.owner? id = none := fun id reserved => by
    cases owner : t.owner? id with
    | none => rfl
    | some o => exact absurd ((h.free id).mpr ((h.owner id o).mp owner).2.2.2.2) reserved
  have tracked : t.Tracked [] [] := by
    refine ⟨formed', fun id o _ owner => ?_, fun v i id alive inside names has unreserved => ?_, free, fun id o _ owner => ?_,
      ⟨fun v => ?_, fun v w i first second => ?_⟩, fun r _ _ => ?_, by simp⟩
    · obtain ⟨member, names, -⟩ := (h.owner id o).mp owner
      rw [value, (entered.waits o member).1, resource]
      exact ⟨.inl List.mem_cons_self, names⟩
    · rw [value] at inside
      rw [resource] at names
      rcases entered.words v i inside with ⟨c, n, site, -⟩ | ⟨n, site, member, -⟩
      · simp [State.resource?, site, Site.resource?] at names
      · exact (h.owner id _).mpr ⟨member, names, (live v).mp alive, (h.has id).mp has, (h.free id).mp unreserved⟩
    · obtain ⟨member, -⟩ := (h.owner id o).mp owner
      obtain ⟨n, site⟩ := (entered.waits o member).2
      rw [h.site, site]
      rfl
    · rw [value]
      exact entered.once.each v
    · rw [value] at first second
      exact entered.once.apart v w i first second
    · have none : ∀ v, t.usesOf v r = 0 := fun v => by
        rw [usesOf, value]
        refine List.sum_eq_zero fun k member => ?_
        obtain ⟨i, inside, rfl⟩ := List.mem_map.mp member
        rw [h.site, entered.referred inside]
        rfl
      rw [h.references, (drafted.bare _).2]
      simp [uses, none]
  refine ⟨tracked, ?_, ?_, plain, fun v known m member => ?_, fun v i inside => ?_, by simp, fun v i inside _ => ?_⟩
  · rwa [h.geometry, h.free]
  · rw [h.resources.shape.registers, h.machine, numbered]
  · rw [h.ring, ringAlone (drafted.alone v ((h.isValue v).mp known)), List.mem_singleton] at member
    rw [member]
  · rw [value] at inside
    rw [h.site]
    rcases entered.words v i inside with ⟨c, n, site, kind, -⟩ | ⟨n, site, -, has, unreserved, -⟩
    · exact .inl ⟨c, n, site, by rw [h.rest]; exact kind⟩
    · refine .inr ⟨.register n, ?_, (h.has _).mpr has, (h.free _).mpr unreserved⟩
      rw [site]
      rfl
  · rw [value] at inside
    rcases entered.words v i inside with ⟨c, n, site, kind, word⟩ | ⟨n, site, -, -, -, word⟩
    · exact ⟨_, wordAtNumber ((h.site i).trans site) (by rw [h.rest]; exact kind) p, fun _ => word.symm⟩
    · refine ⟨_, ?_, fun _ => word⟩
      have names : t.resource? i = some (.register n) := by
        rw [resource, State.resource?, site]
        rfl
      rw [wordAtStands formed' (plain i) names]
      rfl

theorem ensureNothing {d : Instruction} (found : s.instruction? s.ip = some d) (last : d.lastEvent.isSome) :
    ensureEvent s = .ok () s := by
  have here : instructionAt s.ip s = .ok d s := by rw [foundInstruction, found]
  unfold ensureEvent
  rw [getBind]
  refine bindOk.mpr ⟨d, s, here, ?_⟩
  rw [Option.isNone_eq_false_iff.mpr last]
  rfl

theorem openingEnters {d : Instruction} (found : s.instruction? s.ip = some d) (last : d.lastEvent.isSome)
    (emitter : s.emitter = .recording {}) (entered : s.Enters ρ start s.registerValues)
    (away : ∀ n, s.Free (.register n) → n ≠ X64.rsp ∧ n ≠ X64.rbp)
    (ok : opening handler limitOffset s = .ok owners u) :
    u = { s with emitter := u.emitter, registerValues := [] } ∧ owners = s.registerValues ∧
      ∃ p, u.Logged start p ∧ u.Enters ρ p owners := by
  obtain ⟨s₁, ensured, rfl, rest, ⟨r, records⟩, log⟩ := Compile.openingOk ⟨_, emitter⟩ ok
  obtain rfl : s = s₁ := by rw [← ensured, afterOk (ensureNothing found last)]
  have ran : start.follow u.emitter.log = some (start.allocate s.frameSize) := by
    rw [log, emitter]
    cases handler <;> rfl
  have fields : u.values = s.values ∧ u.sites = s.sites ∧ u.resources = s.resources ∧ u.promises = s.promises ∧
      u.geometry = s.geometry := by rw [rest]; exact ⟨rfl, rfl, rfl, rfl, rfl⟩
  obtain ⟨values, sites, resources, promises, geometry⟩ := fields
  have value : u.value = s.value := by funext v; rw [State.value, values, State.value]
  have site : u.site = s.site := by funext i; rw [State.site, sites, State.site]
  refine ⟨rest, rfl, _, ⟨r, records, by rwa [records] at ran⟩, fun v i inside => ?_, fun o member => ?_,
    ⟨fun v => ?_, fun v w i first second => ?_⟩, ?_⟩
  · rw [value] at inside
    rw [site, promises, resources]
    refine (entered.words v i inside).imp_right ?_
    rintro ⟨n, there, member, has, free, word⟩
    refine ⟨n, there, member, has, by rwa [Free, resources], ?_⟩
    rw [Processor.registersAllocate (away n free).1 (away n free).2, word]
  · rw [value, site]
    exact entered.waits o member
  · rw [value]
    exact entered.once.each v
  · rw [value] at first second
    exact entered.once.apart v w i first second
  · simpa only [State.resource?, site, geometry] using entered.apart

theorem prologueSustains {d : Instruction} (drafted : s.Drafted) (found : s.instruction? s.ip = some d)
    (last : d.lastEvent.isSome) (emitter : s.emitter = .recording {}) (entered : s.Enters ρ start s.registerValues)
    (away : ∀ n, s.Free (.register n) → n ≠ X64.rsp ∧ n ≠ X64.rbp) (stack : s.geometry.stack = X64.rsp)
    (frame : (s.resources.slots.length + s.geometry.footer) * wordSize ≤ modulus 32)
    (numbered : s.resources.registers.length = s.machine.registerCount) (queued : s.Queued due)
    (bare : ∀ v, ahead v → s.IsValue v ∧ (s.value v).sites = [])
    (housed : ∀ v, s.IsValue v → ¬ ahead v → (s.value v).sites ≠ []) (ok : prologue handler limitOffset s = .ok () t) :
    (∃ p, Sustains ρ start p due due ahead t) ∧ Abides s t := by
  obtain ⟨owners, u, opened, claimed⟩ := prologueOpens ok
  obtain ⟨rest, rfl, p, logged, entered⟩ := openingEnters found last emitter entered away opened
  have drafted' : u.Drafted := by
    rw [rest]
    exact ⟨drafted.alone, drafted.reads, drafted.heads, drafted.lasts, drafted.forks, drafted.listed, by simp,
      List.nodup_nil, List.nodup_nil, drafted.level, drafted.bare⟩
  have fields : u.values = s.values ∧ u.resources = s.resources ∧ u.geometry = s.geometry ∧ u.machine = s.machine ∧
      u.reads = s.reads ∧ u.events = s.events ∧ u.links = s.links := by rw [rest]; exact ⟨rfl, rfl, rfl, rfl, rfl, rfl, rfl⟩
  obtain ⟨values, resources, geometry, machine, reads, events, links⟩ := fields
  have frame' : (u.resources.slots.length + u.geometry.footer) * wordSize ≤ modulus 32 := by rwa [resources, geometry]
  have bestows := (bestowsNone fun id => (drafted'.bare id).1).claimAll (drafted'.wellFormed frame') _ entered.waits
    entered.apart claimed
  rw [List.nil_append] at bestows
  have faithful := bestowedFaithful drafted' entered bestows frame'
    (by rw [geometry, stack, Free, resources]; exact fun free => (away _ free).1 rfl) (by rw [resources, machine, numbered])
  have value : t.value = s.value := by
    funext v
    rw [State.value, bestows.values, values, State.value]
  have isValue : ∀ v, t.IsValue v ↔ s.IsValue v := fun v => by rw [IsValue, bestows.values, values, IsValue]
  have evolves : s.reads.Evolves t.reads := by
    have onward := bestows.reads
    rwa [reads] at onward
  refine ⟨⟨p, faithful, logged.congr bestows.emitter, queued.evolves evolves fun v => by rw [value], fun _ member => member,
    fun v early => ?_, fun v known _ late => ?_⟩, ?_⟩
  · obtain ⟨known, none⟩ := bare v early
    exact ⟨(isValue v).mpr known, by rw [value, drafted.alone v known], by rw [value, none]⟩
  · obtain ⟨i, inside⟩ := List.exists_mem_of_ne_nil _ (housed v ((isValue v).mp known) late)
    exact hasSiteIff.mpr ⟨v, selfMemRing t v, i, by rwa [value]⟩
  · have abides := bestows.extends.abides
    exact ⟨abides.events.trans events, abides.links.trans links, abides.machine.trans machine,
      abides.geometry.trans geometry, evolves⟩

end Lowering
