import Lowering.Proofs.Bequest
import Lowering.Proofs.Fidelity
import Lowering.Proofs.Queueing
import Lowering.Proofs.Stirring
/-!
Consuming reads where every read is a single use.

The chain of the value moves on. A value without further reads leaves its ring and passes its sites
on, and a ring without further reads gives its sites up. No word is moved by that, and whoever is
still read keeps a site.
-/
namespace Lowering

open State Build

variable {s s' t u : State} {id : ResourceId} {v w m : ValueId} {i : SiteId} {p start : Processor}
  {ρ : ValueId → Word} {lent : List Register}

/-- What giving up reads does: nobody comes to life, sites go to nobody but an alias, and who is still live
keeps one. -/
structure Recedes (s s' : State) : Prop extends Passes s s' where
  shell : s'.shell = s.shell
  bound : s'.sites.size = s.sites.size
  resources : s.resources.Steady s'.resources
  live : ∀ v, s.IsValue v → s'.Live v → s.Live v
  vacant : ∀ id, s.owner? id = none → s'.owner? id = none
  housed : ∀ v, s.IsValue v → s'.Live v → s.hasSite v = true → s'.hasSite v = true

namespace Recedes

theorem refl (s : State) : Recedes s s :=
  ⟨.refl s, rfl, rfl, .refl _, fun _ _ alive => alive, fun _ none => none, fun _ _ _ has => has⟩

theorem trans (first : Recedes s t) (second : Recedes t s') (rings : s.Permutes) : Recedes s s' where
  toPasses := first.toPasses.trans rings second.toPasses
  shell := second.shell.trans first.shell
  bound := second.bound.trans first.bound
  resources := first.resources.trans second.resources
  live v known alive := first.live v known (second.live v ((first.isValue v).mpr known) alive)
  vacant id none := second.vacant id (first.vacant id none)
  housed v known alive has :=
    have known' := (first.isValue v).mpr known
    second.housed v known' alive (first.housed v known (second.live v known' alive) has)

theorem geometry (h : Recedes s s') : s'.geometry = s.geometry :=
  show s'.shell.geometry = s.shell.geometry by rw [h.shell]

theorem machine (h : Recedes s s') : s'.machine = s.machine :=
  show s'.shell.machine = s.shell.machine by rw [h.shell]

theorem promises (h : Recedes s s') : s'.promises = s.promises :=
  show s'.shell.promises = s.shell.promises by rw [h.shell]

theorem fresh (h : Recedes s s') (rings : s'.Permutes) (fresh : s.Fresh v) : s'.Fresh v := by
  have known := (h.isValue v).mpr fresh.known
  have alone : ∀ m ∈ s.ring v, m = v := by simp [ringAlone fresh.alone]
  refine ⟨known, alone _ (h.met v fresh.known _ ?_), ?_⟩
  · rw [memRing rings known]
    exact ⟨1, by rw [Function.iterate_one, followKnown known]⟩
  · refine List.eq_nil_iff_forall_not_mem.mpr fun i inside => ?_
    obtain ⟨m, member, inside⟩ := h.listed v i inside
    rw [alone m member, fresh.bare] at inside
    cases inside

theorem unlisted (h : Recedes s s') (fresh : s.Unlisted i) : s'.Unlisted i := by
  intro v listed
  obtain ⟨w, -, before⟩ := h.listed v i listed
  exact fresh w before

end Recedes

theorem stillMetLeave (permutes : s.Permutes) (known : s.IsValue v) (there : s.IsValue w)
    (member : m ∈ s.ring w) (first : w ≠ v) (second : m ≠ v) : m ∈ (s.leaveRing v).2.ring w := by
  have relinks := s.leaveRingRelinks v
  have around : ∀ n u, u ≠ v → s.follow^[n] u = m → (s.leaveRing v).2.Aliases u m := by
    intro n
    induction n using Nat.strong_induction_on with
    | _ n ih =>
      intro u apart reaches
      cases n with
      | zero => exact ⟨0, reaches⟩
      | succ n =>
        rw [Function.iterate_succ_apply] at reaches
        have step := followLeave permutes known u
        rw [if_neg apart] at step
        by_cases here : s.follow u = v
        · rw [if_pos here] at step
          rw [here] at reaches
          cases n with
          | zero => exact absurd reaches.symm second
          | succ n =>
            rw [Function.iterate_succ_apply] at reaches
            by_cases alone : s.follow v = v
            · rw [alone, Function.iterate_fixed alone] at reaches
              exact absurd reaches.symm second
            · obtain ⟨k, later⟩ := ih n (by omega) _ alone reaches
              exact ⟨k + 1, by rw [Function.iterate_succ_apply, step, later]⟩
        · rw [if_neg here] at step
          obtain ⟨k, later⟩ := ih n (by omega) _ here reaches
          exact ⟨k + 1, by rw [Function.iterate_succ_apply, step, later]⟩
  obtain ⟨n, reaches⟩ := (memRing permutes there).mp member
  rw [memRing (permutesLeave permutes known) ((relinks.isValue w).mpr there)]
  exact around n w first reaches

theorem recedesAdvance {next : Option ReadId} {head : ReadId} {e : Option EventId} (formed : s.WellFormed)
    (pending : s.reads.Pending head) (fronts : s.Fronts e v head next) (h : Advances s v next t) : Recedes s t where
  toPasses := h.passes
  shell := by
    rw [h.rest]
    rfl
  bound := by rw [h.rest]
  resources := by
    rw [h.rest]
    exact .refl _
  live u _ alive := by
    obtain ⟨m, member, r, front, pending'⟩ := (liveIff (h.wellFormed formed fronts) u).mp alive
    rw [h.ring] at member
    by_cases same : m = v
    · exact (liveIff formed u).mpr ⟨m, member, head, same ▸ fronts.front, pending⟩
    · rw [h.value, if_neg same] at front
      exact (liveIff formed u).mpr ⟨m, member, r, front,
        h.evolves.ofPending formed.reads.ordered pending' (formed.heads m r front).1⟩
  vacant id none := by rw [h.unmoved.owner, none]
  housed u _ _ has := by
    obtain ⟨m, member, i, inside⟩ := hasSiteIff.mp has
    refine hasSiteIff.mpr ⟨m, by rwa [h.ring], i, ?_⟩
    rwa [h.value]

theorem detachAllKeepsListed (os : List Owner) : ∀ {s : State}, (∀ o ∈ os, o.value ≠ m) → i ∈ (s.value m).sites →
    i ∈ ((os.foldl State.detach s).value m).sites := by
  induction os with
  | nil => exact fun _ listed => listed
  | cons o rest ih =>
    intro s others listed
    refine ih (fun p member => others p (List.mem_cons_of_mem _ member)) ?_
    exact (detachListed s o).mpr ⟨listed, fun same => absurd same.symm (others o List.mem_cons_self)⟩

theorem detachAllBound (os : List Owner) : ∀ s : State, (os.foldl State.detach s).sites.size = s.sites.size := by
  induction os with
  | nil => exact fun _ => rfl
  | cons o rest ih => exact fun s => (ih _).trans (detachSites s o)

theorem recedesClear (h : s.Tracked lent []) (known : s.IsValue v) (dead : ¬ s.Live v) :
    Recedes s (s.clearSites v) := by
  have formed := h.formed
  have keeps := keepsClearSites s v
  have formed' := (h.clearSites known).formed
  refine ⟨passesDetachAll h.once fun o member => (memPlacements.mp member).2, (stirsClear v).shell, ?_, keeps.resources,
    fun u _ alive => (keeps.live formed formed' u).mp alive, fun id none => ?_, fun u there alive has => ?_⟩
  · exact detachAllBound _ s
  · cases owner : (s.clearSites v).owner? id with
    | none => rfl
    | some o => exact absurd (detachAllOwner _ owner) (by simp [none])
  · obtain ⟨m, member, i, listed⟩ := hasSiteIff.mp has
    refine hasSiteIff.mpr ⟨m, by rwa [keeps.ring], i, detachAllKeepsListed _ (fun o inside same => dead ?_) listed⟩
    -- otherwise the value is an alias of `v`
    have alive' := (keeps.live formed formed' u).mp alive
    have met : m ∈ s.ring v := same ▸ (memPlacements.mp inside).1
    exact (liveOfAlias formed known met).mp ((liveOfAlias formed there member).mpr alive')

theorem recedesBequeath (h : s.Tracked lent []) (known : s.IsValue v) (silent : ¬ s.Awaited v) (alive : s.Live v)
    (closed : s.Closed v) (ok : bequeath v s = .ok () s') (tracked : s'.Tracked lent []) :
    Recedes s s' ∧ ∀ w, (s'.value w).reads = (s.value w).reads := by
  have formed := h.formed
  have rings := formed.rings
  have relinks := s.leaveRingRelinks v
  obtain ⟨t, ok', gives⟩ := bequeathGives formed h.taken h.named known
    (fun i listed id => h.held v i id alive listed) closed
  cases ok.symm.trans ok'
  have all := (s.withdrawKeeps v).trans gives.keeps
  have passes := bequeathPasses h known alive closed ok
  have heads : ∀ w, (s'.value w).reads = (s.value w).reads := fun w => by rw [all.head, relinks.head]
  have heir := heirApart formed silent alive
  have sites : ∀ u i, u ≠ v → i ∈ (s.value u).sites → i ∈ (s'.value u).sites := by
    intro u i other listed
    rw [gives.sites, State.withdrawSites, if_neg other]
    exact List.mem_append_right _ listed
  have awaits : ∀ m, s'.Awaited m → s.Awaited m := by
    intro m awaited
    obtain ⟨r, head, pending⟩ := (awaitedIff tracked.formed m).mp awaited
    rw [heads] at head
    exact (awaitedIff formed m).mpr ⟨r, head,
      passes.reads.ofPending formed.reads.ordered pending (formed.heads m r head).1⟩
  refine ⟨⟨passes, ?_, ?_, ?_, fun u there alive' => ?_, fun id none => ?_, fun u there alive' has => ?_⟩, heads⟩
  · rw [gives.keeps.rest, s.withdrawRest]
    rfl
  · rw [gives.bound, s.withdrawRest]
  · have same : (s.withdraw v).resources = s.resources := by rw [s.withdrawRest]
    rw [← same]
    exact gives.keeps.resources
  · obtain ⟨m, member, awaited⟩ := (liveIffAwaited tracked.formed u).mp alive'
    exact (liveIffAwaited formed u).mpr ⟨m, passes.met u there m member, awaits m awaited⟩
  · have same : (s.withdraw v).owner? id = s.owner? id := by rw [s.withdrawRest]; rfl
    by_cases free : (s.withdraw v).Free id
    · rw [gives.owner id free, same, none]
      rfl
    · exact tracked.vacant id fun free' => free ((gives.keeps.free id).mp free')
  · obtain ⟨m, member, i, listed⟩ := hasSiteIff.mp has
    have there' := (relinks.isValue u).mpr there
    have other : u ≠ v := by
      rintro rfl
      -- who has left the ring is alone
      have alone : (s'.value u).next = u := by
        rw [all.next, ← followKnown there', followLeave rings known, if_pos rfl]
      obtain ⟨x, member', awaited⟩ := (liveIffAwaited tracked.formed u).mp alive'
      rw [ringAlone alone, List.mem_singleton] at member'
      exact silent (awaits u (member' ▸ awaited))
    by_cases own : m = v
    · refine hasSiteIff.mpr ⟨(s.leaveRing v).1, ?_, i, ?_⟩
      · rw [all.ring]
        refine stillMetLeave rings known there ?_ other heir
        exact memRingTrans rings there (own ▸ member) (heirMet s rings known)
      · rw [gives.sites, if_pos rfl]
        exact List.mem_append_left _ (by simpa [own] using listed)
    · refine hasSiteIff.mpr ⟨m, ?_, i, sites m i own listed⟩
      rw [all.ring]
      exact stillMetLeave rings known there member other own

/-! Consuming the reads in front of the queue. -/

section

variable {due rs : List ReadId} {r : ReadId}

theorem consumeReadRecedes {e : Option EventId} (h : s.Tracked lent []) (closed : ∀ v, s.Closed v)
    (queued : s.Queued (r :: due)) (ok : consumeRead e (s.reads.value r) s = .ok () s') :
    Recedes s s' ∧ s'.Tracked lent [] ∧ s'.Queued due := by
  have formed := h.formed
  obtain ⟨head, next, fronts⟩ := consumeReadFronts ok
  obtain ⟨front, next', follows, -⟩ := queued.front
  obtain rfl : head = r := Option.some.inj (fronts.front.symm.trans front)
  cases fronts.follows.symm.trans follows
  have pending := queued.pending List.mem_cons_self
  have alive : s.Live (s.reads.value head) := (liveIff formed _).mpr ⟨_, selfMemRing s _, head, front, pending⟩
  have awake : s.Dormant (s.reads.value head) → s.Settled (s.reads.value head) := fun dormant => absurd alive dormant.1
  have tracked := consumeReadTracked h awake ok
  obtain ⟨t, advances, onward⟩ := consumeReadGoesOn formed fronts
  have before := advances.tracked h awake fronts
  have first := recedesAdvance formed pending fronts advances
  have known : t.IsValue (s.reads.value head) := (first.isValue _).mpr fronts.known
  have heads : ∀ w, (t.value w).reads = if w = s.reads.value head then next else (s.value w).reads := fun w => by
    rw [advances.value]
  have pops : ∀ {u : State}, t.reads.Evolves u.reads → (∀ w, (u.value w).reads = (t.value w).reads) → u.Queued due :=
    fun evolves same => queued.pop follows (advances.evolves.trans evolves) fun w => by rw [same, heads]
  cases onward with
  | read _ same =>
    cases ok.symm.trans same
    exact ⟨first, tracked, pops (.refl _) fun _ => rfl⟩
  | shared silent alive same =>
    have closed := first.closed formed closed
    obtain ⟨onward, same⟩ := recedesBequeath before known silent alive (closed _) (same.symm.trans ok) tracked
    exact ⟨first.trans onward formed.rings, tracked, pops onward.reads same⟩
  | dead silent same =>
    cases ok.symm.trans same
    have keeps := keepsClearSites t (s.reads.value head)
    exact ⟨first.trans (recedesClear before known silent) formed.rings, tracked, pops keeps.reads keeps.head⟩

theorem consumeAllRecedes {e : Option EventId} (rs : List ReadId) : ∀ {s : State}, s.Tracked lent [] →
    (∀ v, s.Closed v) → s.Queued (rs ++ due) →
    (rs.forM fun r => do consumeRead e ((← get).reads.value r)) s = .ok () s' →
    Recedes s s' ∧ s'.Tracked lent [] ∧ s'.Queued due := by
  induction rs with
  | nil =>
    intro s h _ queued ok
    obtain ⟨-, rfl⟩ := pureOk.mp ok
    exact ⟨.refl s, h, queued⟩
  | cons r rest ih =>
    intro s h closed queued ok
    obtain ⟨⟨⟩, t, step, later⟩ := bindOk.mp ok
    dsimp only at step
    rw [getBind] at step
    obtain ⟨first, tracked, queued'⟩ := consumeReadRecedes h closed queued step
    obtain ⟨onward, tracked', queued''⟩ := ih tracked (first.closed h.formed closed) queued' later
    exact ⟨first.trans onward h.formed.rings, tracked', queued''⟩

theorem consumeReadsRecedes {e : EventId} (h : s.Tracked lent []) (closed : ∀ v, s.Closed v)
    (queued : s.Queued ((s.event e).reads ++ due)) (ok : consumeReads e s = .ok () s') :
    Recedes s s' ∧ s'.Tracked lent [] ∧ s'.Queued due := by
  simp only [consumeReads, getBind] at ok
  exact consumeAllRecedes _ h closed queued ok

end

theorem State.Direct.closed {x : Site} (direct : s.Direct x) : x.isOpen = false := by
  rcases direct with ⟨c, n, rfl, -⟩ | ⟨id, names, -⟩
  · rfl
  · cases x with
    | register mask number =>
      cases number with
      | none => cases names
      | some n => rfl
    | _ => rfl

theorem operandOfPlace (promises : s'.promises = s.promises) (place : (s'.site i).place = (s.site i).place) :
    s'.operand i = s.operand i := by
  unfold State.operand State.constantOf
  rw [promises]
  cases before : s.site i <;> cases after : s'.site i <;> simp_all [Site.place]

theorem State.Faithful.closed {hollow : List SiteId} (h : Faithful ρ p lent hollow s) (v : ValueId) : s.Closed v :=
  fun i inside => (h.direct v i inside).closed

theorem State.Faithful.recede (h : Faithful ρ p lent [] s) (recedes : Recedes s s') (tracked : s'.Tracked lent []) :
    Faithful ρ p lent [] s' := by
  have formed := h.tracked.formed
  have free : ∀ id, s'.Free id ↔ s.Free id := fun id => by rw [Free, recedes.resources.reserved, Free]
  have known : ∀ v i, i ∈ (s'.value v).sites → s.IsSite i := fun v i inside => by
    obtain ⟨m, -, before⟩ := recedes.listed v i inside
    exact formed.listed m i before
  refine ⟨tracked, ?_, ?_, fun i => ?_, fun v there m member => ?_, fun v i inside => ?_, by simp, fun v i inside _ => ?_⟩
  · rw [recedes.geometry, free]
    exact h.stack
  · rw [recedes.shape.registers, h.numbered, recedes.machine]
  · by_cases inside : s.IsSite i
    · exact (plainCongr recedes.geometry recedes.shape.slots (recedes.place i inside)).mpr (h.plain i)
    · exact plainOutside s' s' fun there => inside (by rwa [IsSite, ← recedes.bound])
  · have there' := (recedes.isValue v).mp there
    exact h.agree v there' m (recedes.met v there' m member)
  · obtain ⟨m, -, before⟩ := recedes.listed v i inside
    have place := recedes.place i (known v i inside)
    rcases h.direct m i before with ⟨c, n, site, kind⟩ | ⟨id, names, has, free'⟩
    · refine .inl ⟨c, n, ?_, by rw [recedes.promises, kind]⟩
      rw [site] at place
      cases site' : s'.site i <;> simp_all [Site.place]
    · refine .inr ⟨id, ?_, (recedes.shape.has id).mpr has, (free id).mpr free'⟩
      rw [recedes.geometry, Site.resourceOfPlace place]
      exact names
  · obtain ⟨m, met, before⟩ := recedes.listed v i inside
    obtain ⟨w, word, same⟩ := h.words m i before (by simp)
    refine ⟨w, ?_, fun alive => ?_⟩
    · rw [State.wordAt, operandOfPlace recedes.promises (recedes.place i (known v i inside)), ← State.wordAt, word]
    · have there := (recedes.isValue v).mp (isValueOfSites s' inside)
      have alive := recedes.live v there alive
      rw [same ((liveOfAlias formed there met).mpr alive), h.agree v there m met]

end Lowering
