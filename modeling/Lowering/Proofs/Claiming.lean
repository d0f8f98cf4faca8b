import Lowering.Proofs.Withholding
import Lowering.Proofs.Retaining
/-!
Values that were created in a register.

When emission starts, they are given their registers one after another. Whoever is in the way is moved
elsewhere, and where it is moved to does not depend on who still waits for a register. A value whose register
was not written before its turn has what the register held on entry wherever it is.
-/
namespace Lowering

open Build State

def Request.changed : Request → List Register
  | .allocateFrame _ => [X64.rsp, X64.rbp]
  | .adjustFrame _ => [X64.rsp]
  | .binary _ _ _ _ (.register r) => [r]
  | .ternary op _ _ _ _ _ (.register r) => if op.divides then [r, X64.rdx] else [r]
  | .ternary op _ _ _ _ _ _ => if op.divides then [X64.rdx] else []
  | _ => []

namespace Processor

variable {p p' : Processor} {q : Request} {r : Register} {a : Operand} {w : Word}

theorem registersWrite (written : p.write a w = some p') (apart : a ≠ .register r) :
    p'.registers r = p.registers r := by
  cases a with
  | register n =>
    cases written
    simp only [setRegister, Function.update_apply]
    split
    · rename_i same
      exact absurd (same ▸ rfl) apart
    · rfl
  | memory m =>
    cases written
    rfl
  | constant | address => cases written

theorem registersSettle (op : Ternary) (target : Operand) (apart : op.divides = true → r ≠ X64.rdx) :
    (p.settle op target).registers r = p.registers r := by
  unfold settle
  split
  · rename_i divides
    simp only [Bool.and_eq_true] at divides
    simp only [setRegister, Function.update_apply]
    rw [if_neg (apart divides.1)]
  · rfl

theorem registersStep (ran : p.step q = some p') (apart : r ∉ q.changed) : p'.registers r = p.registers r := by
  cases q with
  | nullary | stackCheck | bind => cases ran; rfl
  | unary | popFrame | leave => cases ran
  | allocateFrame words =>
    cases ran
    simp only [Request.changed, List.mem_cons, not_or, List.not_mem_nil, not_false_eq_true, and_true] at apart
    exact registersAllocate apart.1 apart.2
  | adjustFrame words =>
    cases ran
    simp only [Request.changed, List.mem_singleton] at apart
    simp only [setRegister, Function.update_apply]
    rw [if_neg apart]
  | binary op aSize a bSize b =>
    obtain ⟨x, -, more⟩ := Option.bind_eq_some_iff.mp ran
    obtain ⟨w, -, written⟩ := Option.bind_eq_some_iff.mp more
    refine registersWrite written ?_
    rintro rfl
    exact apart List.mem_cons_self
  | ternary op aSize a bSize b cSize c =>
    obtain ⟨x, -, more⟩ := Option.bind_eq_some_iff.mp ran
    obtain ⟨y, -, more⟩ := Option.bind_eq_some_iff.mp more
    obtain ⟨w, -, more⟩ := Option.bind_eq_some_iff.mp more
    obtain ⟨t, written, ended⟩ := Option.bind_eq_some_iff.mp more
    cases ended
    rw [registersSettle, registersWrite written]
    · rintro rfl
      refine apart ?_
      simp only [Request.changed]
      split <;> simp
    · rintro divides rfl
      refine apart ?_
      cases c <;> simp [Request.changed, divides]

theorem registersFollow {log : List Request} (apart : ∀ q ∈ log, r ∉ q.changed) :
    ∀ {p : Processor}, p.follow log = some p' → p'.registers r = p.registers r := by
  induction log with
  | nil =>
    intro p ran
    cases ran
    rfl
  | cons q rest ih =>
    intro p ran
    obtain ⟨t, first, later⟩ := Option.bind_eq_some_iff.mp ran
    exact (ih (fun q member => apart q (List.mem_cons_of_mem _ member)) later).trans
      (registersStep first (apart q List.mem_cons_self))

end Processor

namespace Compile

/-- What comes before values are given their registers. The answer is the values that wait for one. -/
def opening (handler : Option Int) (limitOffset : Nat) : Build (List Owner) := do
  ensureEvent
  match handler with
  | some h => emit (.stackCheck h limitOffset)
  | none => pure ()
  emit (.allocateFrame (← get).frameSize)
  modifyGet fun s => (s.registerValues, { s with registerValues := [] })

def claim (o : Owner) : Build Unit := do
  if ← live o.value then
    if ((← get).value o.value).sites.contains o.site then acquire o.value o.site

theorem prologueOpens {handler : Option Int} {limitOffset : Nat} {s t : State} (ok : prologue handler limitOffset s = .ok () t) :
    ∃ owners u, opening handler limitOffset s = .ok owners u ∧ owners.forM claim u = .ok () t := by
  unfold prologue at ok
  obtain ⟨⟨⟩, s₁, ensured, ok⟩ := bindOk.mp ok
  have rest : ∀ s₂ : State, (do
      emit (.allocateFrame (← get).frameSize)
      claimRegisterValues : Build Unit) s₂ = .ok () t → ∃ owners u, (do
      emit (.allocateFrame (← get).frameSize)
      modifyGet fun s => (s.registerValues, { s with registerValues := [] }) : Build (List Owner)) s₂ = .ok owners u ∧
        owners.forM claim u = .ok () t := by
    intro s₂ ok
    rw [getBind] at ok
    obtain ⟨⟨⟩, s₃, framed, ok⟩ := bindOk.mp ok
    exact ⟨_, _, by rw [getBind]; exact bindOk.mpr ⟨⟨⟩, s₃, framed, rfl⟩, ok⟩
  unfold opening
  cases handler with
  | none =>
    obtain ⟨owners, u, opened, claimed⟩ := rest s₁ ok
    exact ⟨owners, u, bindOk.mpr ⟨⟨⟩, s₁, ensured, opened⟩, claimed⟩
  | some h =>
    obtain ⟨⟨⟩, s₂, checked, ok⟩ := bindOk.mp ok
    obtain ⟨owners, u, opened, claimed⟩ := rest s₂ ok
    exact ⟨owners, u, bindOk.mpr ⟨⟨⟩, s₁, ensured, bindOk.mpr ⟨⟨⟩, s₂, checked, opened⟩⟩, claimed⟩

end Compile

section

variable {s s' t u : State} {start p : Processor} {ρ : ValueId → Word} {taken : List ValueId} {pending : List Owner}
  {v : ValueId} {i : SiteId} {n : Register} {id : ResourceId} {lent : List Register} {hollow : List SiteId} {old : Nat}

theorem State.Faithful.settled (h : Faithful ρ p lent (i :: hollow) s) (inside : i ∈ (s.value v).sites)
    (word : s.wordAt p i = some (ρ v)) : Faithful ρ p lent hollow s := by
  refine ⟨h.tracked, h.stack, h.numbered, h.plain, h.agree, h.direct, fun j member => h.owned j (List.mem_cons_of_mem _ member),
    fun w j listed filled => ?_⟩
  by_cases here : j = i
  · subst here
    cases h.tracked.once.apart w v j listed inside
    exact ⟨ρ v, word, fun _ => rfl⟩
  · exact h.words w j listed (List.not_mem_cons_of_ne_of_not_mem here filled)

theorem State.Faithful.reword (h : Faithful ρ p lent hollow s) (alone : ∀ v, s.IsValue v → (s.value v).next = v)
    (nowhere : (s.value v).sites = []) (w : Word) : Faithful (Function.update ρ v w) p lent hollow s := by
  refine ⟨h.tracked, h.stack, h.numbered, h.plain, fun u known m member => ?_, h.direct, h.owned, fun u i inside filled => ?_⟩
  · rw [ringAlone (alone u known), List.mem_singleton] at member
    rw [member]
  · rw [Function.update_of_ne]
    · exact h.words u i inside filled
    · rintro rfl
      rw [nowhere] at inside
      cases inside

theorem State.Faithful.registerOf (h : Faithful ρ p lent [] s) (free : s.Free (.register n)) {o : Owner}
    (owner : s.owner? (.register n) = some o) (live : s.Live o.value) : p.registers n = ρ o.value := by
  obtain ⟨listed, names⟩ := h.listed free owner
  obtain ⟨w, word, same⟩ := h.words o.value o.site listed List.not_mem_nil
  rw [wordAtStands h.tracked.formed (h.plain o.site) names, Processor.heldRegister] at word
  rw [Option.some.inj word, same live]

theorem State.Faithful.evicted (h : Faithful ρ p [] [] s) (logged : s.Logged start p) (free : s.Free (.register n))
    (others : ∀ o, s.owner? (.register n) = some o → s.Live o.value ∧ o.value ∉ s.ring v)
    (evicted : Evicted old [] [] s (.register n) (some v) t) :
    ∃ q, Faithful ρ q [] [] t ∧ t.Logged start q ∧ q.registers n = p.registers n ∧ t.owner? (.register n) = none ∧
      Moves old [] [] s [] t := by
  cases evicted with
  | vacant none => exact ⟨p, h, logged, rfl, none, .refl ..⟩
  | @owned o u owner run still apart spare =>
    obtain ⟨live, other⟩ := others o owner
    obtain ⟨q, after, logged'⟩ := run.faithful h logged
    have free' : u.Free (.register n) := (run.keeps.free _).mpr free
    have live' : u.Live o.value := (run.keeps.live h.tracked.formed after.tracked.formed _).mpr live
    have spare : u.isLastSite o.value o.site = false ∨ ¬ u.Live o.value := by
      refine spare.resolve_left ?_
      rintro ⟨w, same, member⟩
      cases same
      rw [run.keeps.ring] at member
      exact other member
    have drop : Moves old [] [] u [] (u.removeSite o.value o.site) := .drop free' still apart List.not_mem_nil spare
    refine ⟨q, after.removeSite List.not_mem_nil _, logged'.congr (u.removeSiteRest _ _), ?_, ?_, run.trans drop⟩
    · rw [after.registerOf free' still live', h.registerOf free owner live]
    · have vacates : Vacates [] u (.register n) v (u.removeSite o.value o.site) := .owned still apart (.inr spare)
      exact vacates.none after.tracked free'

namespace State

def unclaimed (taken : List ValueId) (v : ValueId) : Bool := !taken.contains v

theorem unclaimedIff : unclaimed taken v = false ↔ v ∈ taken := by
  simp [unclaimed]

structure Claimed (start : Processor) (ρ : ValueId → Word) (taken : List ValueId) (pending : List Owner) (s : State) :
    Prop where
  aside : s.Aside (unclaimed taken)
  faithful : ∃ p, Faithful ρ p [] [] (s.withhold (unclaimed taken)) ∧ s.Logged start p
  live : ∀ v ∈ taken, s.Live v
  apart : ∀ o ∈ pending, o.value ∉ taken ∧ (s.withhold (unclaimed taken)).Unlisted o.site
  sites : ∀ o ∈ pending, (s.value o.value).sites = [o.site] ∧ s.IsSite o.site
  places : ∀ o ∈ pending, ∃ n, s.site o.site = .ofRegister n
  values : (pending.map (·.value)).Nodup
  once : (pending.map (·.site)).Nodup

theorem withholdLive (s : State) (W : ValueId → Bool) (v : ValueId) : (s.withhold W).Live v ↔ s.Live v := by
  unfold Live isLive
  rw [withholdLiveRead]

theorem Claimed.moves (h : Claimed start ρ taken pending s) (bides : s.Bides (unclaimed taken) t)
    (moves : Moves s.sites.size [] [] (s.withhold (unclaimed taken)) [] (t.withhold (unclaimed taken))) :
    Claimed start ρ taken pending t := by
  obtain ⟨p, faithful, logged⟩ := h.faithful
  obtain ⟨q, after, logged'⟩ := moves.faithful faithful logged
  have site : ∀ o ∈ pending, t.site o.site = s.site o.site := fun o member =>
    moves.keepsSite (h.sites o member).2 (h.sites o member).2 (h.apart o member).2
  refine ⟨h.aside.bide bides, ⟨q, after, logged'⟩, fun v member => ?_, fun o member => ?_, fun o member => ?_,
    fun o member => ?_, h.values, h.once⟩
  · rw [← withholdLive t (unclaimed taken), moves.keeps.live faithful.tracked.formed after.tracked.formed, withholdLive]
    exact h.live v member
  · exact ⟨(h.apart o member).1, moves.keepsUnlisted (h.sites o member).2 (h.apart o member).2⟩
  · refine ⟨?_, moves.keeps.isSite (h.sites o member).2⟩
    rw [bides.hidden o.value]
    · exact (h.sites o member).1
    · simp [unclaimed, (h.apart o member).1]
  · rw [site o member]
    exact h.places o member

theorem Claimed.ask (h : Claimed start ρ taken pending s) (v : ValueId) :
    Claimed start ρ taken pending (s.isLive v).2 ∧
      Moves s.sites.size [] [] (s.withhold (unclaimed taken)) [] ((s.isLive v).2.withhold (unclaimed taken)) := by
  obtain ⟨p, faithful, -⟩ := h.faithful
  obtain ⟨reads, state, evolves, -, -⟩ := liveReadSpec faithful.tracked.formed v
  have moves : Moves s.sites.size [] [] (s.withhold (unclaimed taken)) [] ((s.isLive v).2.withhold (unclaimed taken)) := by
    rw [withholdLiveRead] at state
    rw [isLiveState, show (s.liveRead? v).2.withhold (unclaimed taken) = _ from state]
    exact .ask reads _ _ evolves
  have bides : s.Bides (unclaimed taken) (s.isLive v).2 := by
    rw [isLiveState]
    exact s.bidesPending (s.ring v)
  exact ⟨h.moves bides moves, moves⟩

theorem acquireRegister (site : s.site i = .ofRegister n) (ok : acquire v i s = .ok () t) :
    (¬ s.Free (.register n) ∧ t = s) ∨
      s.Free (.register n) ∧ ∃ u, ((s.owner? (.register n) = none ∧ u = s) ∨ evict (.register n) (some v) s = .ok () u) ∧
        t = (u.modifyResources (·.setOwner (.register n) (some ⟨v, i⟩))).setSite i (.ofRegister n) := by
  unfold acquire acquireWith at ok
  rw [getBind, site] at ok
  change (acquireResource evict (.register n) ⟨v, i⟩ >>= fun _ => modify (·.setSite i (.ofRegister n))) s = .ok () t at ok
  obtain ⟨⟨⟩, w, seized, ended⟩ := bindOk.mp ok
  cases modifyOk.mp ended
  unfold acquireResource at seized
  rw [getBind] at seized
  cases reserved : (s.resources.get (.register n)).reserved with
  | true =>
    simp only [reserved, if_true, pureOk] at seized
    obtain ⟨-, rfl⟩ := seized
    refine .inl ⟨by simp [Free, reserved], ?_⟩
    rw [← site]
    exact s.setSiteSame i
  | false =>
    simp only [reserved, Bool.false_eq_true, if_false] at seized
    cases owner : (s.resources.get (.register n)).owner with
    | none =>
      simp only [owner, Option.isSome_none, Bool.false_eq_true, if_false, modifyOk] at seized
      exact .inr ⟨reserved, s, .inl ⟨owner, rfl⟩, by rw [seized]⟩
    | some o =>
      simp only [owner, Option.isSome_some, if_true, bindOk, modifyOk] at seized
      obtain ⟨⟨⟩, u, evicted, rfl⟩ := seized
      exact .inr ⟨reserved, u, .inr evicted, rfl⟩

theorem Claimed.evicts (h : Claimed start ρ taken pending s) (free : s.Free (.register n))
    (evicted : (s.owner? (.register n) = none ∧ u = s) ∨ evict (.register n) (some v) s = .ok () u) :
    s.Bides (unclaimed taken) u ∧
      Evicted s.sites.size [] [] (s.withhold (unclaimed taken)) (.register n) (some v) (u.withhold (unclaimed taken)) := by
  obtain ⟨p, faithful, -⟩ := h.faithful
  rcases evicted with ⟨none, rfl⟩ | evicted
  · exact ⟨.refl u, .vacant none⟩
  · have aside : EvictsAside (unclaimed taken) evict := by
      intro s id thief aside
      exact .get (evictsAside _ s id thief aside)
    obtain ⟨mirrored, bides⟩ := aside s _ _ h.aside () u evicted
    exact ⟨bides, evictSpec (faithful.tracked.ready le_rfl) ⟨free, fun _ _ => List.not_mem_nil⟩ mirrored⟩

theorem withholdEnlist (waits : v ∉ taken) (sites : (s.value v).sites = [i]) :
    s.withhold (unclaimed (v :: taken)) = (s.withhold (unclaimed taken)).enlist v i := by
  have listed : ∀ (k : Nat) (below : k < s.values.size), v = ⟨k⟩ → (s.values[k]).sites = [i] := by
    rintro k below rfl
    rw [← sites]
    simp [value, below]
  simp only [withhold, enlist, modifyValue, State.mk.injEq, true_and, and_true]
  refine Array.ext (by simp) fun k below below' => ?_
  have below : k < s.values.size := by simpa using below
  simp only [Array.getElem_mapIdx, Array.getElem_modify]
  by_cases here : v = ⟨k⟩
  · have hidden : unclaimed taken ⟨k⟩ = true := by simpa [unclaimed, here] using waits
    have shown : unclaimed (v :: taken) ⟨k⟩ = false := by simp [unclaimed, here]
    rw [hidden, shown]
    have index : v.index = k := congrArg ValueId.index here
    simp only [Bool.false_eq_true, if_false, if_true, index]
    rw [← listed k below here]
  · have apart : v.index ≠ k := fun same => here (by cases v; simp_all)
    have same : unclaimed (v :: taken) ⟨k⟩ = unclaimed taken ⟨k⟩ := by simp [unclaimed, Ne.symm here]
    rw [same]
    simp [apart]

theorem Claimed.waits {o : Owner} {rest : List Owner} (h : Claimed start ρ taken (o :: rest) s) :
    Claimed start ρ taken rest s :=
  ⟨h.aside, h.faithful, h.live, fun p member => h.apart p (List.mem_cons_of_mem _ member),
    fun p member => h.sites p (List.mem_cons_of_mem _ member), fun p member => h.places p (List.mem_cons_of_mem _ member),
    (List.nodup_cons.mp h.values).2, (List.nodup_cons.mp h.once).2⟩

theorem ownerOutside {o : Owner} (outside : ¬ s.resources.Has id) :
    s.modifyResources (·.setOwner id (some o)) = s := by
  have same : s.resources.setOwner id (some o) = s.resources := by
    cases id with
    | register r =>
      simp only [ResourceTable.Has, Nat.not_lt] at outside
      simp [ResourceTable.setOwner, ResourceTable.modify, List.modify_eq_self outside]
    | slot k =>
      simp only [ResourceTable.Has, Nat.not_lt] at outside
      simp [ResourceTable.setOwner, ResourceTable.modify, List.modify_eq_self outside]
  rw [modifyResources, same]

theorem Claimed.reworded {ρ' : ValueId → Word} (h : Claimed start ρ taken pending s)
    (reword : ∀ {q}, Faithful ρ q [] [] (s.withhold (unclaimed taken)) →
      Faithful ρ' q [] [] (s.withhold (unclaimed taken))) : Claimed start ρ' taken pending s :=
  ⟨h.aside, h.faithful.imp fun _ both => ⟨reword both.1, both.2⟩, h.live, h.apart, h.sites, h.places, h.values, h.once⟩

theorem Claimed.occupy {o : Owner} {rest : List Owner} {q : Processor} (h : Claimed start ρ taken (o :: rest) u)
    (site : u.site o.site = .ofRegister n) (live : u.Live o.value) (free : u.Free (.register n))
    (has : u.resources.Has (.register n)) (faithful : Faithful ρ q [] [] (u.withhold (unclaimed taken)))
    (logged : u.Logged start q) (vacant : u.owner? (.register n) = none) (word : q.registers n = ρ o.value)
    (next : t = (u.modifyResources (·.setOwner (.register n) (some o))).setSite o.site (.ofRegister n)) :
    Claimed start ρ (o.value :: taken) rest t ∧
      Keeps (u.withhold (unclaimed taken)) (t.withhold (unclaimed (o.value :: taken))) := by
  obtain ⟨waits, fresh⟩ := h.apart o List.mem_cons_self
  obtain ⟨sites, known⟩ := h.sites o List.mem_cons_self
  have value : u.IsValue o.value := isValueOfSites u (i := o.site) (by simp [sites])
  have names : (u.withhold (unclaimed taken)).resource? o.site = some (.register n) := by
    rw [State.resource?, show (u.withhold (unclaimed taken)).site o.site = u.site o.site from rfl, site]
    rfl
  have occupied : t.withhold (unclaimed (o.value :: taken)) =
      (u.withhold (unclaimed taken)).occupy o.value o.site (.register n) := by
    rw [withholdEnlist waits (by rw [next]; exact sites), State.occupy,
      show (u.withhold (unclaimed taken)).site o.site = u.site o.site from rfl, site, next]
    rfl
  have tracked : ((u.withhold (unclaimed taken)).occupy o.value o.site (.register n)).Tracked [] [] := by
    rw [occupySettleAt _ names free]
    refine Tracked.settleAt ?_ ?_ known fresh (by simp) (takenIsTaken names) fun id w j stands _ _ => ?_
    · rw [show (u.withhold (unclaimed taken)).site o.site = u.site o.site from rfl, site]
      exact faithful.tracked
    · simpa [IsValue] using value
    · rw [Site.resourceOfPlace (Site.placeTaken _)] at stands
      cases stands.symm.trans names
      rw [show (u.withhold (unclaimed taken)).owner? (.register n) = none from vacant]
      simp
  have value' : (u.withhold (unclaimed taken)).IsValue o.value := by simpa [IsValue] using value
  have keeps := (u.withhold (unclaimed taken)).keepsOccupy o.value o.site (.register n)
  have hollow := faithful.occupy value' known names has free vacant tracked
  have filled := hollow.settled ((occupyListed _ value').mpr (.inl ⟨rfl, rfl⟩)) (by
    rw [wordAtStands tracked.formed (hollow.plain _) ((keeps.resource known).trans names), Processor.heldRegister, word])
  rw [← occupied] at keeps filled
  have alive : ∀ w, t.Live w ↔ u.Live w := fun w => by
    rw [← withholdLive t (unclaimed (o.value :: taken)), keeps.live faithful.tracked.formed filled.tracked.formed, withholdLive]
  have later : ∀ p ∈ rest, p.value ≠ o.value ∧ p.site ≠ o.site := fun p member =>
    ⟨fun same => (List.nodup_cons.mp h.values).1 (List.mem_map.mpr ⟨p, member, same⟩),
      fun same => (List.nodup_cons.mp h.once).1 (List.mem_map.mpr ⟨p, member, same⟩)⟩
  have values : t.values = u.values := by rw [next]; rfl
  have valueOf : ∀ w, t.value w = u.value w := fun w => by simp only [State.value, values]
  refine ⟨⟨⟨fun w known => ?_, fun id p owner => ?_, ?_, fun w r head => ?_, ?_⟩, ⟨q, filled, logged.congr ?_⟩,
    fun w member => (alive w).mpr ?_, fun p member => ⟨?_, ?_⟩, fun p member => ⟨?_, ?_⟩, fun p member => ?_,
    (List.nodup_cons.mp h.values).2, (List.nodup_cons.mp h.once).2⟩, keeps⟩
  · rw [valueOf]
    exact h.aside.alone w (by rwa [IsValue, values] at known)
  · rw [IsValue, values, unclaimedIff]
    change ((t.resources.get id).owner) = some p at owner
    rw [next, show ((u.modifyResources _).setSite o.site _).resources = u.resources.setOwner (.register n) (some o) from rfl,
      ResourceTable.getSetOwner] at owner
    split at owner
    · cases owner
      exact ⟨value, List.mem_cons_self⟩
    · obtain ⟨there, shown⟩ := h.aside.owners id p owner
      exact ⟨there, List.mem_cons_of_mem _ (unclaimedIff.mp shown)⟩
  · rw [next]
    exact h.aside.reads
  · rw [valueOf] at head
    rw [next]
    exact h.aside.heads w r head
  · rw [next]
    exact h.aside.records
  · rw [next]
    rfl
  · rcases List.mem_cons.mp member with rfl | member
    · exact live
    · exact h.live w member
  · rw [List.mem_cons, not_or]
    exact ⟨(later p member).1, (h.apart p (List.mem_cons_of_mem _ member)).1⟩
  · rw [occupied]
    intro w inside
    rcases (occupyListed _ value').mp inside with ⟨-, same⟩ | before
    · exact (later p member).2 same
    · exact (h.apart p (List.mem_cons_of_mem _ member)).2 w before
  · rw [valueOf]
    exact (h.sites p (List.mem_cons_of_mem _ member)).1
  · rw [next, IsSite, sizeSetSite]
    exact (h.sites p (List.mem_cons_of_mem _ member)).2
  · rw [next, siteSet, if_neg fun both => (later p member).2 both.1]
    exact h.places p (List.mem_cons_of_mem _ member)

structure Claims (start : Processor) (ρ ρ' : ValueId → Word) (taken taken' : List ValueId) (pending : List Owner)
    (s t : State) : Prop where
  claimed : Claimed start ρ' taken' pending t
  more : ∀ v ∈ taken, v ∈ taken'
  same : ∀ v ∈ taken, ρ' v = ρ v
  keeps : Keeps (s.withhold (unclaimed taken)) (t.withhold (unclaimed taken'))

theorem Claimed.keepsLive {ρ' : ValueId → Word} {taken' : List ValueId} {pending' : List Owner}
    (h : Claimed start ρ taken pending s) (after : Claimed start ρ' taken' pending' t)
    (keeps : Keeps (s.withhold (unclaimed taken)) (t.withhold (unclaimed taken'))) (v : ValueId) : t.Live v ↔ s.Live v := by
  obtain ⟨p, faithful, -⟩ := h.faithful
  obtain ⟨q, faithful', -⟩ := after.faithful
  rw [← withholdLive t (unclaimed taken'), keeps.live faithful.tracked.formed faithful'.tracked.formed, withholdLive]

def Untouched (s : State) (log : List Request) (o : Owner) : Prop :=
  ∀ n, s.site o.site = .ofRegister n → ∀ q ∈ log, n ∉ q.changed

def Entitles (s : State) (o : Owner) : Prop :=
  ∃ n, s.site o.site = .ofRegister n ∧ s.Live o.value ∧ s.Free (.register n) ∧ s.resources.Has (.register n)

def Entered (s : State) (start : Processor) (ρ : ValueId → Word) (o : Owner) : Prop :=
  ∀ n, s.site o.site = .ofRegister n → ρ o.value = start.registers n

/- What has its register keeps it or is moved on; who waits gets the register, unless that is reserved or is none. -/
theorem Claimed.acquire {o : Owner} {rest : List Owner} (h : Claimed start ρ taken (o :: rest) s)
    (site : s.site o.site = .ofRegister n) (live : s.Live o.value) (ok : Lowering.acquire o.value o.site s = .ok () t) :
    ∃ ρ' taken', Claims start ρ ρ' taken taken' rest s t ∧
      (s.Free (.register n) → s.resources.Has (.register n) → o.value ∈ taken' ∧
        ((∀ q ∈ s.emitter.log, n ∉ q.changed) → ρ' o.value = start.registers n)) := by
  rcases acquireRegister site ok with ⟨reserved, rfl⟩ | ⟨free, u, evicted, next⟩
  · exact ⟨ρ, taken, ⟨h.waits, fun _ member => member, fun _ _ => rfl, .refl _⟩, fun free => absurd free reserved⟩
  obtain ⟨bides, outcome⟩ := h.evicts free evicted
  obtain ⟨p, faithful, logged⟩ := h.faithful
  obtain ⟨waits, -⟩ := h.apart o List.mem_cons_self
  obtain ⟨sites, known⟩ := h.sites o List.mem_cons_self
  have value : s.IsValue o.value := isValueOfSites s (i := o.site) (by simp [sites])
  obtain ⟨q, faithful', logged', same, vacant, moves⟩ := faithful.evicted logged free (fun w owner => by
    obtain ⟨known, shown⟩ := h.aside.owners _ w owner
    have member := unclaimedIff.mp shown
    refine ⟨(withholdLive s _ _).mpr (h.live _ member), ?_⟩
    rw [withholdRing, ringAlone (h.aside.alone _ value), List.mem_singleton]
    rintro same
    exact waits (same ▸ member)) outcome
  have after := h.moves bides moves
  have site' : u.site o.site = .ofRegister n := by
    have kept : (u.withhold (unclaimed taken)).site o.site = s.site o.site :=
      moves.keepsSite known known (h.apart o List.mem_cons_self).2
    exact kept.trans site
  by_cases has : u.resources.Has (.register n)
  · have reword : ∀ {q}, Faithful ρ q [] [] (u.withhold (unclaimed taken)) →
        Faithful (Function.update ρ o.value (p.registers n)) q [] [] (u.withhold (unclaimed taken)) := fun faithful =>
      faithful.reword (fun w known => by
        rw [withholdNext, after.aside.alone w (by simpa [IsValue] using known)])
        (withholdNowhere (by simp [unclaimed, waits])) _
    obtain ⟨claimed, keeps⟩ := (after.reworded reword).occupy site' ((h.keepsLive after moves.keeps o.value).mpr live)
      ((moves.keeps.free _).mpr free) has (reword faithful') logged' vacant (by simpa using same) next
    refine ⟨_, _, ⟨claimed, fun _ => List.mem_cons_of_mem _, fun w member => Function.update_of_ne ?_ _ _,
      moves.keeps.trans keeps⟩, fun _ _ => ⟨List.mem_cons_self, fun untouched => ?_⟩⟩
    · rintro rfl
      exact waits member
    · obtain ⟨r, recorded, ran⟩ := logged
      rw [Function.update_self]
      refine Processor.registersFollow (fun q member => untouched q ?_) ran
      rw [recorded]
      exact member
  · rw [ownerOutside has, ← site', setSiteSame] at next
    subst next
    exact ⟨ρ, taken, ⟨after.waits, fun _ member => member, fun _ _ => rfl, moves.keeps⟩,
      fun _ has' => absurd ((moves.keeps.has _).mpr has') has⟩

theorem Claimed.claim {o : Owner} {rest : List Owner} (h : Claimed start ρ taken (o :: rest) s)
    (ok : Compile.claim o s = .ok () t) :
    ∃ ρ' taken', Claims start ρ ρ' taken taken' rest s t ∧
      (s.Entitles o → o.value ∈ taken' ∧ (s.Untouched s.emitter.log o → s.Entered start ρ' o)) := by
  obtain ⟨asked, moves⟩ := h.ask o.value
  obtain ⟨n, site⟩ := h.places o List.mem_cons_self
  have only : ∀ {n'}, s.site o.site = .ofRegister n' → n' = n := fun there => by
    rw [site] at there
    simp only [Site.ofRegister, Site.register.injEq, Option.some.injEq] at there
    exact there.2.symm
  have site' : (s.isLive o.value).2.site o.site = .ofRegister n := by
    rw [← site]
    exact moves.keepsSite (h.sites o List.mem_cons_self).2 (h.sites o List.mem_cons_self).2 (h.apart o List.mem_cons_self).2
  unfold Compile.claim at ok
  obtain ⟨alive, u, ran, ok⟩ := bindOk.mp ok
  obtain ⟨rfl, rfl⟩ := Prod.ext_iff.mp (modifyGetOk.mp ran)
  cases live : (s.isLive o.value).1 with
  | false =>
    simp only [live, Bool.false_eq_true, if_false, pureOk, true_and] at ok
    subst ok
    refine ⟨ρ, taken, ⟨asked.waits, fun _ member => member, fun _ _ => rfl, moves.keeps⟩, ?_⟩
    rintro ⟨_, _, entitled, _⟩
    rw [Live, live] at entitled
    cases entitled
  | true =>
    have listed : ((s.isLive o.value).2.value o.value).sites.contains o.site = true := by
      rw [(asked.sites o List.mem_cons_self).1]
      simp
    simp only [live, if_true, getBind, listed] at ok
    have emitter : (s.isLive o.value).2.emitter = s.emitter := by
      obtain ⟨p, faithful, -⟩ := h.faithful
      obtain ⟨reads, state, -⟩ := liveReadSpec faithful.tracked.formed o.value
      rw [withholdLiveRead] at state
      have same := congrArg (fun t : State => t.emitter) state
      rw [isLiveState]
      exact same
    obtain ⟨ρ', taken', claims, got⟩ := asked.acquire site' ((h.keepsLive asked moves.keeps _).mpr live) ok
    refine ⟨ρ', taken', ⟨claims.claimed, claims.more, claims.same, moves.keeps.trans claims.keeps⟩, ?_⟩
    rintro ⟨n', there, _, free, has⟩
    cases only there
    obtain ⟨member, entered⟩ := got ((moves.keeps.free _).mpr free) ((moves.keeps.has _).mpr has)
    refine ⟨member, fun untouched n' there => ?_⟩
    cases only there
    exact entered fun q member => untouched n site q (emitter ▸ member)

theorem Claimed.claimAll (owners : List Owner) : ∀ {s : State} {ρ : ValueId → Word} {taken : List ValueId},
    Claimed start ρ taken owners s → owners.forM Compile.claim s = .ok () t →
    ∃ ρ' taken', Claims start ρ ρ' taken taken' [] s t ∧
      ∀ before o later u, owners = before ++ o :: later → before.forM Compile.claim s = .ok () u → s.Entitles o →
        s.Untouched u.emitter.log o → o.value ∈ taken' ∧ s.Entered start ρ' o := by
  induction owners with
  | nil =>
    intro s ρ taken h ok
    obtain ⟨-, rfl⟩ := pureOk.mp ok
    refine ⟨ρ, taken, ⟨h, fun _ member => member, fun _ _ => rfl, .refl _⟩, fun before o later u same => ?_⟩
    simp at same
  | cons o rest ih =>
    intro s ρ taken h ok
    obtain ⟨⟨⟩, u, first, next⟩ := bindOk.mp ok
    obtain ⟨ρ₁, taken₁, claims, got⟩ := h.claim first
    obtain ⟨ρ₂, taken₂, claims', got'⟩ := ih claims.claimed next
    refine ⟨ρ₂, taken₂, ⟨claims'.claimed, fun v member => claims'.more v (claims.more v member),
      fun v member => (claims'.same v (claims.more v member)).trans (claims.same v member),
      claims.keeps.trans claims'.keeps⟩, fun before p later w same reached entitled untouched => ?_⟩
    cases before with
    | nil =>
      obtain ⟨rfl, rfl⟩ := List.cons.inj same
      obtain ⟨-, rfl⟩ := pureOk.mp reached
      obtain ⟨member, entered⟩ := got entitled
      exact ⟨claims'.more _ member, fun n site => (claims'.same _ member).trans (entered untouched n site)⟩
    | cons p' before =>
      obtain ⟨rfl, rfl⟩ := List.cons.inj same
      obtain ⟨⟨⟩, u', first', reached⟩ := bindOk.mp reached
      cases first.symm.trans first'
      have member : p ∈ o :: (before ++ p :: later) := by simp
      have site : u.site p.site = s.site p.site := by
        obtain ⟨n, there⟩ := h.places p member
        obtain ⟨n', there'⟩ := claims.claimed.places p (by simp)
        have place := claims.keeps.place p.site (h.sites p member).2
        change (u.site p.site).place = (s.site p.site).place at place
        rw [there, there'] at place
        rw [there, there']
        exact place
      obtain ⟨n, there, live, free, has⟩ := entitled
      obtain ⟨member', entered⟩ := got' before p later w rfl reached
        ⟨n, site.trans there, (h.keepsLive claims.claimed claims.keeps _).mpr live, (claims.keeps.free _).mpr free,
          (claims.keeps.has _).mpr has⟩ fun n there => untouched n (site.symm.trans there)
      exact ⟨member', fun n there => entered n (site.trans there)⟩

end State

end

end Lowering
