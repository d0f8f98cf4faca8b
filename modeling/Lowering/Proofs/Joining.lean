import Lowering.Proofs.Splicing
import Lowering.Proofs.Sustaining
/-!
A copy becomes an alias.

The copy joins the ring of the original, so it is wherever the original is, and the read of the
original that stood for the copy is consumed.
-/
namespace Lowering

open State Build Function

variable {s s' : State} {v w m copy : ValueId} {p start : Processor} {ρ : ValueId → Word} {lent : List Register}
  {due : List ReadId} {ahead : ValueId → Prop} {r : ReadId}

theorem stillMetJoin (permutes : s.Permutes) (known : s.IsValue v) (there : s.IsValue copy)
    (alone : s.follow copy = copy) (inside : s.IsValue w) (other : w ≠ copy) (member : m ∈ s.ring w) :
    m ∈ (s.joinRing v copy).ring w := by
  have step := followJoin permutes known there alone
  have around : ∀ n u, u ≠ copy → s.follow^[n] u = m → (s.joinRing v copy).Aliases u m := by
    intro n
    induction n with
    | zero => exact fun u _ reaches => ⟨0, reaches⟩
    | succ n ih =>
      intro u apart reaches
      rw [iterate_succ_apply] at reaches
      have away : s.follow u ≠ copy := fun back => apart (followInjective permutes (back.trans alone.symm))
      obtain ⟨k, later⟩ := ih _ away reaches
      have here := step u
      rw [if_neg apart] at here
      by_cases before : s.follow u = v
      · -- the copy stands before the original now
        rw [if_pos before] at here
        refine ⟨k + 2, ?_⟩
        rw [before] at later
        rw [iterate_succ_apply, here, iterate_succ_apply, step, if_pos rfl, later]
      · rw [if_neg before] at here
        exact ⟨k + 1, by rw [iterate_succ_apply, here, later]⟩
  obtain ⟨n, reaches⟩ := (memRing permutes inside).mp member
  rw [memRing (permutesJoin permutes known there alone) (((s.joinRingRelinks v copy).isValue w).mpr inside)]
  exact around n w other reaches

structure State.Joined (s : State) (v copy : ValueId) (s' : State) : Prop where
  relinks : Relinks s s'
  permutes : s'.Permutes
  met : ∀ w, s.IsValue w → w ≠ copy → ∀ m ∈ s'.ring w, m ∈ s.ring w ∨ (m = copy ∧ v ∈ s.ring w)
  stillMet : ∀ w, s.IsValue w → w ≠ copy → ∀ m ∈ s.ring w, m ∈ s'.ring w
  original : v ∈ s'.ring copy
  next : ∀ w, s.IsValue w → w ≠ copy → w ≠ v → (s.value w).next = w → (s'.value w).next = w

theorem joinRingJoins (permutes : s.Permutes) (known : s.IsValue v) (fresh : s.Fresh copy) :
    Joined s v copy (s.joinRing v copy) := by
  have there := fresh.known
  have alone : s.follow copy = copy := (followKnown there).trans fresh.alone
  have relinks := s.joinRingRelinks v copy
  have step := followJoin permutes known there alone
  have permutes' := permutesJoin permutes known there alone
  refine ⟨relinks, permutes', fun w inside other => metJoin permutes known there alone inside other,
    fun w inside other m member => stillMetJoin permutes known there alone inside other member, ?_, fun w inside other apart own => ?_⟩
  · rw [memRing permutes' ((relinks.isValue copy).mpr there)]
    exact ⟨1, by rw [iterate_one, step, if_pos rfl]⟩
  · have follows : s.follow w = w := (followKnown inside).trans own
    have after := step w
    rwa [if_neg other, follows, if_neg apart, followKnown ((relinks.isValue w).mpr inside)] at after

namespace State.Joined

theorem agree (h : Joined s v copy s') (agree : ∀ w, s.IsValue w → ∀ m ∈ s.ring w, ρ m = ρ w) (same : ρ copy = ρ v)
    (inside : s'.IsValue w) (member : m ∈ s'.ring w) : ρ m = ρ w := by
  have plain : ∀ w, s.IsValue w → w ≠ copy → ∀ m ∈ s'.ring w, ρ m = ρ w := by
    intro w inside other m member
    rcases h.met w inside other m member with met | ⟨rfl, met⟩
    · exact agree w inside m met
    · rw [same, agree w inside v met]
  have inside' := (h.relinks.isValue w).mp inside
  by_cases other : w = copy
  · by_cases self : m = copy
    · rw [self, other]
    · have back := memRingSymm h.permutes inside member
      exact (plain m ((h.relinks.isValue m).mp (isValueOfRing h.permutes inside member)) self w back).symm
  · exact plain w inside' other m member

theorem live (h : Joined s v copy s') (formed : s.WellFormed) (alive : s.Live v)
    (inside : s.IsValue w) (other : w ≠ copy) (alive' : s'.Live w) : s.Live w := by
  obtain ⟨m, member, r, chain, pending⟩ := (liveIff (h.relinks.wellFormed formed h.permutes) w).mp alive'
  rw [h.relinks.head] at chain
  have reads : s'.reads = s.reads := by rw [h.relinks.rest]
  rw [reads] at pending
  rcases h.met w inside other m member with met | ⟨-, met⟩
  · exact (liveIff formed w).mpr ⟨m, met, r, chain, pending⟩
  · exact (liveOfAlias formed inside met).mp alive

end State.Joined

theorem State.Faithful.join (h : Faithful ρ p lent [] s) (known : s.IsValue v) (alive : s.Live v) (fresh : s.Fresh copy)
    (same : ρ copy = ρ v) : Faithful ρ p lent [] (s.joinRing v copy) := by
  have formed := h.tracked.formed
  have joined := joinRingJoins formed.rings known fresh
  have relinks := joined.relinks
  have tracked : (s.joinRing v copy).Tracked lent [] := by
    refine h.tracked.joinRing known fresh.known fresh.alone fresh.bare fun _ m member => ?_
    exact fun i listed id => h.tracked.held m i id ((liveOfAlias formed known member).mpr alive) listed
  refine ⟨tracked, ?_, ?_, fun i => ?_, fun w inside m member => joined.agree h.agree same inside member,
    fun w i listed => ?_, by simp, fun w i listed _ => ?_⟩
  · rw [relinks.rest]
    exact h.stack
  · rw [relinks.rest]
    exact h.numbered
  · rw [relinks.rest]
    exact h.plain i
  · rw [relinks.sites] at listed
    rw [relinks.rest]
    exact h.direct w i listed
  · rw [relinks.sites] at listed
    obtain ⟨x, word, held⟩ := h.words w i listed (by simp)
    have inside := isValueOfSites s listed
    have other : w ≠ copy := by
      rintro rfl
      rw [fresh.bare] at listed
      cases listed
    refine ⟨x, ?_, fun alive' => held (joined.live formed alive inside other alive')⟩
    rw [relinks.rest]
    exact word

theorem joinSustains (h : Sustains ρ start p ([r] ++ due) ([r] ++ due) ahead s) (reader : s.reads.value r = v)
    (behind : ¬ ahead v) (front : ahead copy) (same : ρ copy = ρ v) :
    Sustains ρ start p ([r] ++ due) due (fun w => ahead w ∧ w ≠ copy) (s.joinRing v copy) := by
  have formed := h.formed
  have fresh := h.fresh copy front
  have known : s.IsValue v := reader ▸ h.isValue (r := r) (by simp)
  have wanted : s.Wanted ([r] ++ due) v := ⟨r, by simp, reader ▸ selfMemRing s _⟩
  have joined := joinRingJoins formed.rings known fresh
  have relinks := joined.relinks
  have reads : (s.joinRing v copy).reads = s.reads := by rw [relinks.rest]
  have faithful := h.faithful.join known (h.live wanted) fresh same
  obtain ⟨m, member, i, listed⟩ := hasSiteIff.mp (h.housed v known wanted behind)
  refine ⟨faithful, h.logged.congr (by rw [relinks.rest]), h.queued.evolves (by rw [reads]; exact .refl _) relinks.head,
    fun x inside => by simp [inside], fun w early => ?_, fun w inside wants late => ?_⟩
  · obtain ⟨there, alone, bare⟩ := h.fresh w early.1
    refine ⟨(relinks.isValue w).mpr there, joined.next w there early.2 (fun back => behind (back ▸ early.1)) alone, ?_⟩
    rw [relinks.sites, bare]
  · have apart : v ≠ copy := fun back => behind (back ▸ front)
    have around : ∀ x, m ∈ (s.joinRing v copy).ring x → (s.joinRing v copy).hasSite x = true := fun x met =>
      hasSiteIff.mpr ⟨m, met, i, by rwa [relinks.sites]⟩
    by_cases other : w = copy
    · subst other
      exact around w (memRingTrans joined.permutes inside joined.original (joined.stillMet v known apart m member))
    · have inside := (relinks.isValue w).mp inside
      obtain ⟨x, there, met⟩ := wants
      rw [reads] at met
      rcases joined.met w inside other _ met with met | ⟨-, met⟩
      · obtain ⟨m', member', j, listed'⟩ := hasSiteIff.mp
          (h.housed w inside ⟨x, List.mem_append_right _ there, met⟩ fun early => late ⟨early, other⟩)
        exact hasSiteIff.mpr ⟨m', joined.stillMet w inside other m' member', j, by rwa [relinks.sites]⟩
      · exact around w (joined.stillMet w inside other m (memRingTrans formed.rings inside met member))

theorem joinConsumes {e : EventId} (h : Sustains ρ start p ([r] ++ due) ([r] ++ due) ahead s) (reader : s.reads.value r = v)
    (behind : ¬ ahead v) (front : ahead copy) (same : ρ copy = ρ v)
    (ok : ((modify fun s => s.joinRing v copy) >>= fun _ => consumeRead (some e) v : Build Unit) s = .ok () s') :
    Sustains ρ start p due due (fun w => ahead w ∧ w ≠ copy) s' ∧ Abides s s' := by
  have joined := joinSustains h reader behind front same
  have reads : (s.joinRing v copy).reads.value r = v := by rw [(s.joinRingRelinks v copy).rest, reader]
  change consumeRead (some e) v (s.joinRing v copy) = .ok () s' at ok
  rw [show consumeRead (some e) v = consumeRead (some e) ((s.joinRing v copy).reads.value r) by rw [reads]] at ok
  obtain ⟨recedes, tracked, queued⟩ := consumeReadRecedes joined.faithful.tracked joined.faithful.closed joined.queued ok
  have relinks := s.joinRingRelinks v copy
  have first : Abides s (s.joinRing v copy) := .ofShell (by rw [relinks.rest]; rfl) (by rw [relinks.rest]; exact .refl _)
  exact ⟨joined.recede recedes tracked queued, first.trans recedes.abides⟩

end Lowering
