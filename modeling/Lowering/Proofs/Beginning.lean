import Lowering.Proofs.Claiming
import Lowering.Proofs.Drafting
import Lowering.Proofs.Addressing
/-!
What a handle of a register denotes.

A method that has been described only has nothing in a register, so that before the first value gets its
register all of them wait. From there on a handle denotes what its register held on entry to the method,
unless something that was emitted earlier has changed the register.
-/
namespace Lowering

open Build State

namespace Compile

/-- The prologue until it is the turn of a value to get its register. -/
def untilTurn (handler : Option Int) (limitOffset : Nat) (v : ValueId) : Build Unit := do
  let owners ← opening handler limitOffset
  (owners.takeWhile (·.value != v)).forM claim

variable {handler : Option Int} {limitOffset : Nat} {s s' u : State} {owners : List Owner}

theorem openingOk (records : s.Records) (ok : opening handler limitOffset s = .ok owners u) :
    ∃ s₁, after ensureEvent s = s₁ ∧ owners = s₁.registerValues ∧
      u = { s₁ with emitter := u.emitter, registerValues := [] } ∧ u.Records ∧
      u.emitter.log = s.emitter.log ++ handler.toList.map (.stackCheck · limitOffset) ++ [.allocateFrame s₁.frameSize] := by
  have framed : ∀ {s₁ : State}, s₁.Records → (do
      emit (.allocateFrame (← get).frameSize)
      modifyGet fun s => (s.registerValues, { s with registerValues := [] }) : Build (List Owner)) s₁ = .ok owners u →
      owners = s₁.registerValues ∧ u = { s₁ with emitter := u.emitter, registerValues := [] } ∧ u.Records ∧
        u.emitter.log = s₁.emitter.log ++ [.allocateFrame s₁.frameSize] := by
    intro s₁ records ok
    rw [getBind] at ok
    obtain ⟨⟨⟩, s₂, emitted, taken⟩ := bindOk.mp ok
    obtain ⟨rfl, rfl⟩ := Prod.ext_iff.mp (modifyGetOk.mp taken)
    obtain ⟨rest, records', log⟩ := emitRecords records emitted
    have emptied := congrArg (fun t : State => { t with registerValues := [] }) rest
    exact ⟨by rw [rest], emptied, records', log⟩
  unfold opening at ok
  obtain ⟨⟨⟩, s₁, ensured, ok⟩ := bindOk.mp ok
  have links : s.Links s₁ := linksEnsureEvent.holds ensured
  have emitter : s₁.emitter = s.emitter := by rw [links]
  have records₁ : s₁.Records := by rwa [State.Records, emitter]
  cases handler with
  | none =>
    obtain ⟨all, rest, records', log⟩ := framed records₁ ok
    exact ⟨s₁, afterOk ensured, all, rest, records', by simpa [emitter] using log⟩
  | some h =>
    obtain ⟨⟨⟩, s₂, checked, ok⟩ := bindOk.mp ok
    obtain ⟨rest₂, records₂, log₂⟩ := emitRecords records₁ checked
    obtain ⟨all, rest, records', log⟩ := framed records₂ ok
    have frameSize : s₂.frameSize = s₁.frameSize := by rw [rest₂]
    refine ⟨s₁, afterOk ensured, all.trans (by rw [rest₂]), ?_, records', ?_⟩
    · rw [rest, rest₂]
    · rw [log, log₂, emitter, frameSize]
      simp

end Compile

section

variable {s s' t u : State} {start p : Processor} {v : ValueId} {n : Register} {handler : Option Int} {limitOffset : Nat}
  {owners : List Owner}

namespace State

theorem Drafted.faithful (drafted : s.Drafted) (stack : ¬ s.Free (.register s.geometry.stack))
    (numbered : s.resources.registers.length = s.machine.registerCount)
    (frame : (s.resources.slots.length + s.geometry.footer) * wordSize ≤ modulus 32) (ρ : ValueId → Word) (p : Processor) :
    Faithful ρ p [] [] (s.withhold (unclaimed [])) := by
  have nowhere : ∀ v, ((s.withhold (unclaimed [])).value v).sites = [] := fun v => withholdNowhere rfl
  have unlisted : ∀ v i, i ∉ ((s.withhold (unclaimed [])).value v).sites := fun v i => by
    rw [nowhere]
    exact List.not_mem_nil
  have alone : ∀ v, (s.withhold (unclaimed [])).IsValue v → ((s.withhold (unclaimed [])).value v).next = v := fun v known => by
    rw [withholdNext]
    exact drafted.alone v (by simpa [IsValue] using known)
  have none : ∀ id, (s.withhold (unclaimed [])).owner? id = none := fun id => (drafted.bare id).1
  refine ⟨⟨⟨⟨fun v known => ?_, fun v w first second same => ?_⟩, fun v i inside => (unlisted v i inside).elim, drafted.reads,
    fun v r head => ?_, frame⟩, fun id o _ owner => ?_, fun v i _ _ inside => (unlisted v i inside).elim, fun id _ => none id,
    fun id o _ owner => ?_, ⟨fun v => ?_, fun v w i inside => (unlisted v i inside).elim⟩, fun r _ _ => ?_, by simp⟩, stack,
    numbered, fun i m acquired memory => (drafted.level i m acquired memory).elim, fun v known m member => ?_,
    fun v i inside => (unlisted v i inside).elim, by simp, fun v i inside => (unlisted v i inside).elim⟩
  · rwa [alone v known]
  · rwa [alone v first, alone w second] at same
  · rw [withholdReads] at head
    exact ⟨(drafted.heads v r head).known, (drafted.heads v r head).value⟩
  · rw [none] at owner
    cases owner
  · rw [none] at owner
    cases owner
  · rw [nowhere]
    exact List.nodup_nil
  · rw [show (s.withhold (unclaimed [])).resources = s.resources from rfl, (drafted.bare _).2]
    simp [uses, usesOf, nowhere]
  · rw [ringAlone (alone v known), List.mem_singleton] at member
    rw [member]

theorem Drafted.opens (drafted : s.Drafted) (emitter : s.emitter = .recording {})
    (stack : ¬ s.Free (.register s.geometry.stack)) (numbered : s.resources.registers.length = s.machine.registerCount)
    (frame : (s.resources.slots.length + s.geometry.footer) * wordSize ≤ modulus 32)
    (ok : Compile.opening handler limitOffset s = .ok owners u) (start : Processor) (ρ : ValueId → Word) :
    Claimed start ρ [] owners u ∧ u.resources = s.resources ∧ owners = s.registerValues ∧ u.sites = s.sites := by
  obtain ⟨s₁, rfl, rfl, rest, ⟨r, records⟩, log⟩ := Compile.openingOk ⟨_, emitter⟩ ok
  have links := linksEnsureEvent.keeps s
  have resources : (after ensureEvent s).resources = s.resources := by rw [links]
  have geometry : (after ensureEvent s).geometry = s.geometry := by rw [links]
  have drafted₁ := (draftsLinks drafted links).drafted
  have resources' : u.resources = s.resources := by rw [rest]; exact resources
  have geometry' : u.geometry = s.geometry := by rw [rest]; exact geometry
  have drafted' : u.Drafted := by
    rw [rest]
    exact ⟨drafted₁.alone, drafted₁.reads, drafted₁.heads, drafted₁.lasts, drafted₁.forks, drafted₁.listed, by simp,
      List.nodup_nil, List.nodup_nil, drafted₁.level, drafted₁.bare⟩
  have places : u.value = (after ensureEvent s).value ∧ u.site = (after ensureEvent s).site ∧
      u.sites = (after ensureEvent s).sites := by rw [rest]; exact ⟨rfl, rfl, rfl⟩
  obtain ⟨p, ran⟩ : ∃ p, start.follow u.emitter.log = some p := by
    rw [log, emitter]
    cases handler <;> exact ⟨_, rfl⟩
  have hollow : Faithful ρ p [] [] (u.withhold (unclaimed [])) := by
    refine drafted'.faithful ?_ ?_ ?_ ρ p
    · rwa [Free, resources', geometry']
    · rw [resources', rest]
      rw [links]
      exact numbered
    · rwa [resources', geometry']
  refine ⟨⟨⟨drafted'.alone, fun id o owner => ?_, drafted'.reads, drafted'.heads, ⟨r, records⟩⟩, ⟨p, hollow, r, records, ?_⟩,
    by simp, fun o member => ⟨List.not_mem_nil, fun v inside => ?_⟩, fun o member => ?_, fun o member => ?_, drafted₁.values,
    drafted₁.sites⟩, resources', by rw [links], by rw [places.2.2, links]⟩
  · rw [owner?, (drafted'.bare id).1] at owner
    cases owner
  · rwa [records] at ran
  · rw [withholdNowhere rfl] at inside
    cases inside
  · obtain ⟨sites, -⟩ := drafted₁.claims o member
    refine ⟨by rw [places.1, sites], ?_⟩
    rw [IsSite, places.2.2]
    exact drafted₁.listed o.value o.site (by simp [sites])
  · rw [places.2.1]
    exact (drafted₁.claims o member).2

theorem handleWaits {before later : List ClientCall} (drafted : (s.history before).Drafted)
    (describes : ∀ c ∈ later, c.Describes) (fits : ∀ c ∈ later, c.Fits fun _ => True) :
    ∃ i, ⟨⟨(s.history before).values.size⟩, i⟩ ∈ (s.history (before ++ .register n :: later)).registerValues ∧
      (s.history (before ++ .register n :: later)).site i = .ofRegister n := by
  rw [historyAppend]
  set b := s.history before
  have made : after (ClientCall.register n).run b = (b.newValueAt
      (if RegisterSet.has b.machine.float n then .float else .general) (.ofRegister n)).2 := rfl
  have first : b.Drafts (after (ClientCall.register n).run b) :=
    (ClientCall.drafts (c := .register n) trivial trivial).keeps b drafted
  have rest := historyDrafts describes fits first.drafted
  have known : (after (ClientCall.register n).run b).IsSite ⟨b.sites.size⟩ := by
    rw [made]
    simp [IsSite, newValueAt, newSite, newValue, Site.ofRegister, modifyValue]
  obtain ⟨-, site⟩ := rest.site ⟨b.sites.size⟩ known
  refine ⟨⟨b.sites.size⟩, rest.claims.subset ?_, site.trans ?_⟩
  · rw [made]
    exact List.mem_append_right _ List.mem_cons_self
  · rw [made]
    exact siteNewSelf (b.newValue _).2 _

end State

namespace X64

variable {variant : Variant} {settings : Settings} {helpers : Option HelperAddress} {calls before later : List ClientCall}

theorem freeFresh {n : Register} (inside : n < 32) : (fresh (describe variant) settings (.recording {}) helpers).Free
    (.register n) ↔ (describe variant).reserved n = false := by
  have here : (ResourceTable.registerNumbers 32)[n]? = some n := by
    simp [ResourceTable.registerNumbers, inside]
  rw [Free, fresh, State.empty, ResourceTable.ofRegisters, ResourceTable.get, List.getD_eq_getElem?_getD, List.getElem?_map]
  rw [show (describe variant).registerCount = 32 from rfl, here]
  rfl

/- A handle of a register that was not changed before it got the register denotes what the register held on entry. -/
theorem handlesHoldEntryContents (describes : ∀ c ∈ calls, c.Describes) (offered : ∀ c ∈ calls, c.IsOffered)
    (described : (fresh (describe variant) settings (.recording {}) helpers).history calls = s)
    (frame : (s.resources.slots.length + s.geometry.footer) * wordSize ≤ modulus 32)
    (ok : Compile.prologue handler limitOffset s = .ok () t) (start : Processor) :
    ∃ p, start.follow t.emitter.log = some p ∧ ∀ before n later, calls = before ++ .register n :: later →
      ∀ v, v = ⟨((fresh (describe variant) settings (.recording {}) helpers).history before).values.size⟩ →
      n < 32 → (describe variant).reserved n = false → t.Live v →
      (∀ q ∈ (after (Compile.untilTurn handler limitOffset v) s).emitter.log, n ∉ q.changed) →
      ∀ i ∈ (t.value v).sites, t.wordAt p i = some (start.registers n) := by
  have fits : ∀ c ∈ calls, c.Fits fun _ => True := by
    intro c member
    have offered := offered c member
    cases c with
    | branch => exact offered
    | _ => trivial
  have drafted := draftedFresh (describe variant) settings (.recording {}) helpers
  have drafts := historyDrafts describes fits drafted
  rw [described] at drafts
  have free : ∀ n, s.Free (.register n) ↔ (fresh (describe variant) settings (.recording {}) helpers).Free (.register n) := by
    intro n
    simp only [Free, ResourceTable.get, drafts.registers]
  have length : s.resources.registers.length = 32 := by
    rw [drafts.registers]
    simp [fresh, State.empty, ResourceTable.ofRegisters, ResourceTable.registerNumbers, describe]
  obtain ⟨owners, u, opened, claimed⟩ := Compile.prologueOpens ok
  obtain ⟨waiting, resources, all, sites⟩ := drafts.drafted.opens (drafts.emitter.trans rfl) (by
      rw [drafts.geometry, free, show (fresh (describe variant) settings (.recording {}) helpers).geometry.stack = rsp from rfl,
        freeFresh (by decide)]
      simp [describe]) (by rw [length, drafts.machine]; rfl) frame opened start fun _ => 0#64
  obtain ⟨ρ, taken, claims, entered⟩ := waiting.claimAll owners claimed
  obtain ⟨p, faithful, r, records, ran⟩ := claims.claimed.faithful
  refine ⟨p, by rw [show t.emitter = .recording r from records]; exact ran, ?_⟩
  rintro before n later rfl v here inside unreserved live untouched i listed
  have early : ((fresh (describe variant) settings (.recording {}) helpers).history before).Drafted :=
    (historyDrafts (fun c member => describes c (by simp [member])) (fun c member => fits c (by simp [member])) drafted).drafted
  have rest : ∀ c ∈ later, c.Describes ∧ c.Fits fun _ => True := fun c member =>
    ⟨describes c (by simp [member]), fits c (by simp [member])⟩
  obtain ⟨j, member, site⟩ := handleWaits (n := n) early (fun c member => (rest c member).1) fun c member => (rest c member).2
  rw [described] at member site
  rw [← all, ← here] at member
  obtain ⟨first, last, rfl⟩ := List.append_of_mem member
  have split := claimed
  simp only [List.forM_eq_forM, List.forM_append, bindOk] at split
  obtain ⟨⟨⟩, w, reached, -⟩ := split
  rw [← List.forM_eq_forM] at reached
  have same : u.site j = .ofRegister n := by rw [State.site, sites]; exact site
  have turn : after (Compile.untilTurn handler limitOffset v) s = w := by
    have others : ∀ o ∈ first, (o.value != v) = true := by
      intro o inside
      have apart := waiting.values
      rw [List.map_append, List.map_cons] at apart
      rw [bne_iff_ne]
      rintro rfl
      exact List.disjoint_of_nodup_append apart (List.mem_map_of_mem inside) List.mem_cons_self
    rw [Compile.untilTurn, afterBindOk opened, List.takeWhile_append_of_pos others]
    simp only [List.takeWhile_cons, bne_self_eq_false, Bool.false_eq_true, if_false, List.append_nil]
    exact afterOk reached
  have only : ∀ {n'}, u.site j = .ofRegister n' → n' = n := fun there => by
    rw [same] at there
    simp only [Site.ofRegister, Site.register.injEq, Option.some.injEq] at there
    exact there.2.symm
  have entitled : u.Entitles ⟨v, j⟩ := by
    refine ⟨n, same, (waiting.keepsLive claims.claimed claims.keeps v).mp live, ?_, ?_⟩
    · rw [Free, resources, ← Free, free, freeFresh inside]
      exact unreserved
    · rw [resources, ResourceTable.Has, length]
      exact inside
  obtain ⟨member', holds⟩ := entered first ⟨v, j⟩ last w rfl reached entitled fun n' there q inside => by
    rw [only there]
    exact untouched q (turn.symm ▸ inside)
  have shown : unclaimed taken v = false := unclaimedIff.mpr member'
  obtain ⟨word, read, right⟩ := faithful.words v i (by rw [withholdSites shown]; exact listed) List.not_mem_nil
  rw [right ((withholdLive t _ v).mpr live), holds n same] at read
  exact read

/-- A method that adds up three handles, two of rdi and one of the register `n`. -/
def ClientCall.summing (n : Register) : List ClientCall :=
  [.start 1 0 0 2, .startInstruction 0, .register rdi, .register rdi, .register n, .combine .add 8 ⟨0⟩ ⟨1⟩,
    .combine .add 8 ⟨3⟩ ⟨2⟩, .leave (some ⟨4⟩)]

def summing (n : Register) : State := (fresh (describe {}) {} (.recording {}) none).history (ClientCall.summing n)

def Processor.numbered : Processor := ⟨BitVec.ofNat 64, fun _ => none⟩

/- The first handle is moved out of the way, into the register that the third one has not got yet. -/
theorem handleLosesItsRegister : (describe {}).reserved 15 = false ∧
    ∃ t, Compile.prologue none 0 (summing 15) = .ok () t ∧ t.Live ⟨2⟩ ∧
      ∃ p, Processor.numbered.follow t.emitter.log = some p ∧ ∃ i ∈ (t.value ⟨2⟩).sites, t.wordAt p i = some 7#64 := by
  obtain ⟨⟨⟩, t, ok, live, p, ran, moved⟩ : Reaches (Compile.prologue none 0) (summing 15) fun t =>
      t.Live ⟨2⟩ ∧ ∃ p ∈ Processor.numbered.follow t.emitter.log,
        ∃ i ∈ (t.value ⟨2⟩).sites, t.wordAt p i = some 7#64 := by
    decide +kernel
  exact ⟨by decide, t, ok, live, p, ran, moved⟩

theorem handleKeepsRsi : ∃ t, Compile.prologue none 0 (summing rsi) = .ok () t ∧
    ∃ p, Processor.numbered.follow t.emitter.log = some p ∧
      ∀ v ∈ [(⟨0⟩, rdi), (⟨1⟩, rdi), (⟨2⟩, rsi)], ∀ i ∈ (t.value v.1).sites, t.wordAt p i = some (BitVec.ofNat 64 v.2) := by
  obtain ⟨⟨⟩, t, ok, live⟩ : Reaches (Compile.prologue none 0) (summing rsi) fun t =>
      ∀ v ∈ [(⟨0⟩ : ValueId), ⟨1⟩, ⟨2⟩], t.Live v := by
    decide +kernel
  have offered : ∀ c ∈ ClientCall.summing rsi, c.IsOffered := by simp [ClientCall.summing, ClientCall.IsOffered]
  have describes : ∀ c ∈ ClientCall.summing rsi, c.Describes := by simp [ClientCall.summing, ClientCall.Describes]
  obtain ⟨p, ran, holds⟩ := handlesHoldEntryContents describes offered rfl (by decide +kernel) ok Processor.numbered
  have first := holds [.start 1 0 0 2, .startInstruction 0] rdi _ rfl ⟨0⟩ (by decide +kernel) (by decide) (by decide)
    (live ⟨0⟩ (by decide)) (by decide +kernel)
  have second := holds [.start 1 0 0 2, .startInstruction 0, .register rdi] rdi _ rfl ⟨1⟩ (by decide +kernel) (by decide)
    (by decide) (live ⟨1⟩ (by decide)) (by decide +kernel)
  have third := holds [.start 1 0 0 2, .startInstruction 0, .register rdi, .register rdi] rsi _ rfl ⟨2⟩ (by decide +kernel)
    (by decide) (by decide) (live ⟨2⟩ (by decide)) (by decide +kernel)
  refine ⟨t, ok, p, ran, fun v member => ?_⟩
  simp only [List.mem_cons, List.not_mem_nil, or_false] at member
  rcases member with rfl | rfl | rfl
  · exact first
  · exact second
  · exact third

end X64

end

end Lowering
