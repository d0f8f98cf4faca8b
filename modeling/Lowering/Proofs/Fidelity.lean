import Lowering.Proofs.Execution
import Lowering.Proofs.Extension
/-!
What the processor holds is what the tables say.

A state is faithful to an assignment of words to values if every site of a live value holds the
word of the value once the log so far has been followed. Rearranging values keeps a state faithful:
a copy is made into a site that was taken for it and that no other live value has.
-/
namespace Lowering

namespace State

variable {s s' t u : State} {old : Nat} {kept h₀ h₁ hollow : List SiteId} {v w : ValueId}
  {i j : SiteId} {id : ResourceId} {p p' : Processor} {ρ : ValueId → Word}
  {lent lent' : List Register}

def wordAt (s : State) (p : Processor) (i : SiteId) : Option Word :=
  match s.operand i with
  | .ok a => p.read a
  | .error _ => none

def Direct (s : State) (x : Site) : Prop :=
  (∃ c n, x = .constant c ∧ s.promises.kind c = .resolved n) ∨
    ∃ id, x.resource? s.geometry = some id ∧ s.resources.Has id ∧ s.Free id

theorem Extends.constantOf (h : Extends s s') : s'.constantOf = s.constantOf := by
  funext c
  unfold State.constantOf
  rw [h.rest]

theorem Extends.operand (h : Extends s s') (known : s.IsSite i) : s'.operand i = s.operand i := by
  have place := h.place i known
  unfold State.operand
  rw [h.constantOf]
  cases before : s.site i <;> cases after : s'.site i <;> simp_all [Site.place]

theorem Extends.wordAt (h : Extends s s') (known : s.IsSite i) (p : Processor) :
    s'.wordAt p i = s.wordAt p i := by
  rw [State.wordAt, h.operand known, State.wordAt]

theorem directCongr {x y : Site} (h : Extends s s') (same : y.place = x.place)
    (direct : s.Direct x) : s'.Direct y := by
  rcases direct with ⟨c, n, rfl, kind⟩ | ⟨id, names, has, free⟩
  · refine .inl ⟨c, n, ?_, ?_⟩
    · cases y <;> simp_all [Site.place]
    · rw [h.rest]
      exact kind
  · refine .inr ⟨id, ?_, (h.has id).mpr has, (h.free id).mpr free⟩
    rw [h.geometry, Site.resourceOfPlace same]
    exact names

theorem plainStands (formed : s.WellFormed) (plain : s.Plain (s.site i))
    (names : s.resource? i = some id) :
    s.operand i = .ok (id.operand s.geometry) ∧ ∀ k, id = .slot k → k < s.resources.slots.length := by
  unfold resource? at names
  unfold operand
  cases site : s.site i with
  | constant c => simp [site, Site.resource?] at names
  | address c => simp [site, Site.resource?] at names
  | register mask number =>
    obtain ⟨n, rfl, rfl⟩ : ∃ n, number = some n ∧ .register n = id := by
      simpa [site, Site.resource?] using names
    exact ⟨rfl, by simp⟩
  | memory m acquired =>
    simp only [site, Site.resource?] at names
    split at names
    · rename_i base
      obtain ⟨k, inside, rfl⟩ := plain m acquired site (by simpa using base)
      have found : s.geometry.index (s.geometry.offset k) = k := by
        refine s.geometry.indexOffset (Nat.lt_of_lt_of_le ?_ formed.frame)
        exact Nat.mul_lt_mul_of_pos_right (by omega) (by decide)
      dsimp only at names
      rw [found] at names
      cases names
      refine ⟨rfl, fun n same => ?_⟩
      cases same
      exact inside
    · cases names

theorem operandStands (formed : s.WellFormed) (plain : s.Plain (s.site i))
    (names : s.resource? i = some id) : s.operand i = .ok (id.operand s.geometry) :=
  (plainStands formed plain names).1

theorem wordAtStands (formed : s.WellFormed) (plain : s.Plain (s.site i))
    (names : s.resource? i = some id) (p : Processor) :
    s.wordAt p i = p.held s.geometry id := by
  rw [wordAt, operandStands formed plain names]
  rfl

theorem wordAtNumber {c : PromiseId} {n : Int} (site : s.site i = .constant c)
    (kind : s.promises.kind c = .resolved n) (p : Processor) :
    s.wordAt p i = some (BitVec.ofInt 64 n) := by
  simp [wordAt, operand, site, constantOf, kind, Processor.read]

theorem plainOutside (s t : State) (outside : ¬ s.IsSite i) : t.Plain (s.site i) := by
  have same : s.site i = default := by
    unfold site
    rw [Array.getD_eq_getD_getElem?, Array.getElem?_eq_none (Nat.not_lt.mp outside)]
    rfl
  intro m acquired memory
  rw [same] at memory
  cases memory

theorem plainExtends (h : Extends s s') (plain : ∀ i, s.Plain (s.site i))
    (new : ∀ i, ¬ s.IsSite i → s'.IsSite i → s'.Plain (s'.site i)) (i : SiteId) :
    s'.Plain (s'.site i) := by
  by_cases known : s.IsSite i
  · exact (plainCongr h.geometry h.shape.slots (h.place i known)).mpr (plain i)
  · by_cases added : s'.IsSite i
    · exact new i known added
    · exact plainOutside s' s' added

/-- The processor holds the words `ρ` of the values where the tables say. The sites in `hollow` were
taken and have not got their words yet. -/
structure Faithful (ρ : ValueId → Word) (p : Processor) (lent : List Register)
    (hollow : List SiteId) (s : State) : Prop where
  tracked : s.Tracked lent []
  stack : ¬ s.Free (.register s.geometry.stack)
  numbered : s.resources.registers.length = s.machine.registerCount
  plain : ∀ i, s.Plain (s.site i)
  agree : ∀ v, s.IsValue v → ∀ m ∈ s.ring v, ρ m = ρ v
  direct : ∀ v, ∀ i ∈ (s.value v).sites, s.Direct (s.site i)
  owned : ∀ i ∈ hollow, ∃ v id, s.Free id ∧ s.owner? id = some ⟨v, i⟩
  words : ∀ v, ∀ i ∈ (s.value v).sites, i ∉ hollow →
    ∃ w, s.wordAt p i = some w ∧ (s.Live v → w = ρ v)

namespace Faithful

theorem listed (h : Faithful ρ p lent hollow s) {o : Owner} (free : s.Free id)
    (owner : s.owner? id = some o) :
    o.site ∈ (s.value o.value).sites ∧ s.resource? o.site = some id := by
  obtain ⟨inside, names⟩ := h.tracked.recorded id o free owner
  refine ⟨inside.resolve_right ?_, names⟩
  simp

theorem owner (h : Faithful ρ p lent hollow s) (alive : s.Live v) (inside : i ∈ (s.value v).sites)
    (names : s.resource? i = some id) : s.owner? id = some ⟨v, i⟩ := by
  rcases h.direct v i inside with ⟨c, n, site, -⟩ | ⟨id', names', has, free⟩
  · simp [resource?, site, Site.resource?] at names
  · cases names.symm.trans names'
    exact h.tracked.held v i id alive inside names has free

theorem fewer (h : Faithful ρ p lent hollow s) (extend : Extends s s')
    (size : s'.values.size = s.values.size) (tracked : s'.Tracked lent' [])
    (new : ∀ i, ¬ s.IsSite i → s'.IsSite i → s'.Plain (s'.site i))
    (listed : ∀ v, ∀ i ∈ (s'.value v).sites, i ∈ (s.value v).sites)
    (owners : ∀ i ∈ hollow, ∀ v id, s.owner? id = some ⟨v, i⟩ → s'.owner? id = some ⟨v, i⟩) :
    Faithful ρ p lent' hollow s' where
  tracked := tracked
  stack := by
    rw [extend.geometry, extend.free]
    exact h.stack
  numbered := by
    rw [extend.shape.registers, h.numbered, extend.rest]
  plain := plainExtends extend h.plain new
  agree := by
    intro v known m member
    have known' : s.IsValue v := by simpa [IsValue, size] using known
    exact h.agree v known' m
      ((extend.memRing h.tracked.formed.rings tracked.formed.rings known').mp member)
  direct := by
    intro v i inside
    have before := listed v i inside
    exact directCongr extend (extend.place i (h.tracked.formed.listed v i before))
      (h.direct v i before)
  owned := by
    intro i inside
    obtain ⟨v, id, free, owner⟩ := h.owned i inside
    exact ⟨v, id, (extend.free id).mpr free, owners i inside v id owner⟩
  words := by
    intro v i inside filled
    have before := listed v i inside
    obtain ⟨w, word, same⟩ := h.words v i before filled
    refine ⟨w, ?_, fun alive => same ?_⟩
    · rw [extend.wordAt (h.tracked.formed.listed v i before)]
      exact word
    · exact (extend.live h.tracked.formed tracked.formed (isValueOfSites s before)).mp alive

end Faithful

theorem removeSiteIsSite (s : State) (v : ValueId) (i j : SiteId) :
    (s.removeSite v i).IsSite j ↔ s.IsSite j := by
  obtain ⟨same, -⟩ | ⟨m, -, -, same⟩ := s.removeSiteCases v i
  · rw [same]
  · rw [same, IsSite, detachSites, IsSite]

theorem removeSiteKeepsOwner (s : State) {o : Owner} (apart : o.site ≠ i)
    (owner : s.owner? id = some o) : (s.removeSite v i).owner? id = some o := by
  obtain ⟨same, -⟩ | ⟨m, -, -, same⟩ := s.removeSiteCases v i
  · rwa [same]
  · rw [same, detachOwner, if_neg]
    · exact owner
    · rintro ⟨-, -, -, there⟩
      rw [owner] at there
      exact apart (Option.some.inj there)

namespace Faithful

theorem removeSite (h : Faithful ρ p lent hollow s) (filled : i ∉ hollow) (v : ValueId) :
    Faithful ρ p lent hollow (s.removeSite v i) := by
  have keeps := s.keepsRemoveSite v i
  refine h.fewer keeps.extends keeps.size (h.tracked.removeSite _ _)
    (fun j out inside => absurd ((s.removeSiteIsSite _ _ j).mp inside) out)
    (fun _ _ => s.removeSiteListed) fun j inside w id owner => s.removeSiteKeepsOwner ?_ owner
  rintro rfl
  exact filled inside

theorem freeze (h : Faithful ρ p lent hollow s) (i : SiteId) :
    Faithful ρ p (s.bound i ++ lent) hollow (s.freezeSite i) :=
  h.fewer (s.extendsFreeze i) (s.freezeSiteUnmoved i).size (h.tracked.freeze i)
    (fun j out inside => absurd ((s.freezeSiteIsSite i j).mp inside) out)
    (fun v j inside => by rwa [freezeSiteValue] at inside)
    fun j _ v id owner => by rwa [freezeSiteOwner]

theorem thaw (h : Faithful ρ p lent hollow s) (tracked : (s.thawSite i).Tracked lent' []) :
    Faithful ρ p lent' hollow (s.thawSite i) := by
  refine h.fewer (s.extendsThaw i) (s.thawSiteUnmoved i).size tracked
    (fun j out inside => absurd ?_ out) (fun v j inside => by rwa [thawSiteValue] at inside)
    fun j _ v id owner => by rwa [thawSiteOwner]
  rw [thawSiteEq] at inside
  exact inside

end Faithful

theorem freezeSiteEmitter (s : State) (i : SiteId) : (s.freezeSite i).emitter = s.emitter := by
  rw [freezeSiteEq]
  rfl

theorem thawSiteEmitter (s : State) (i : SiteId) : (s.thawSite i).emitter = s.emitter := by
  rw [thawSiteEq]
  rfl

theorem Faithful.occupy (h : Faithful ρ p lent hollow u) (value : u.IsValue v) (known : u.IsSite i)
    (names : u.resource? i = some id) (has : u.resources.Has id) (free : u.Free id)
    (vacant : u.owner? id = none) (tracked : (u.occupy v i id).Tracked lent' []) :
    Faithful ρ p lent' (i :: hollow) (u.occupy v i id) := by
  have keeps := u.keepsOccupy v i id
  have extend := keeps.extends
  refine ⟨tracked, ?_, ?_, plainExtends extend h.plain ?_, ?_, ?_, ?_, ?_⟩
  · rw [extend.geometry, extend.free]
    exact h.stack
  · rw [extend.shape.registers, h.numbered, keeps.machine]
  · intro j outside inside
    have size : (u.occupy v i id).sites.size = u.sites.size := sizeSetSite _ _ _
    exact absurd (Nat.lt_of_lt_of_eq inside size) outside
  · intro w there m member
    rw [keeps.ring] at member
    exact h.agree w ((keeps.isValue w).mp there) m member
  · intro w j inside
    rcases (u.occupyListed value).mp inside with ⟨-, rfl⟩ | before
    · refine .inr ⟨id, ?_, (keeps.has id).mpr has, (keeps.free id).mpr free⟩
      exact (keeps.resource known).trans names
    · exact directCongr extend (keeps.place j (h.tracked.formed.listed w j before))
        (h.direct w j before)
  · intro j inside
    rcases List.mem_cons.mp inside with rfl | inside
    · refine ⟨v, id, (keeps.free id).mpr free, ?_⟩
      rw [occupyOwner, if_pos ⟨rfl, has⟩]
    · obtain ⟨w, other, free', owner⟩ := h.owned j inside
      refine ⟨w, other, (keeps.free other).mpr free', ?_⟩
      rw [occupyOwner, if_neg, owner]
      rintro ⟨rfl, -⟩
      rw [vacant] at owner
      cases owner
  · intro w j inside filled
    obtain ⟨other, filled⟩ := List.ne_and_not_mem_of_not_mem_cons filled
    have before := ((u.occupyListed value).mp inside).resolve_left fun here => other here.2
    obtain ⟨word, there, same⟩ := h.words w j before filled
    refine ⟨word, ?_, fun alive => same ?_⟩
    · rw [extend.wordAt (h.tracked.formed.listed w j before)]
      exact there
    · exact (keeps.live h.tracked.formed tracked.formed w).mp alive

/-! What a processor that follows the log holds. -/

theorem Faithful.wordAtPut (h : Faithful ρ p lent hollow s) (has : s.resources.Has id)
    (free : s.Free id) (inside : i ∈ (s.value v).sites) (q : Processor) (w : Word) :
    s.wordAt (q.put s.geometry id w) i =
      if s.resource? i = some id then some w else s.wordAt q i := by
  have formed := h.tracked.formed
  rcases h.direct v i inside with ⟨c, n, site, kind⟩ | ⟨other, names, has', -⟩
  · have none : s.resource? i = none := by simp [resource?, site, Site.resource?]
    rw [wordAtNumber site kind, wordAtNumber site kind, none]
    rfl
  · have names : s.resource? i = some other := names
    rw [wordAtStands formed (h.plain i) names, wordAtStands formed (h.plain i) names, names,
      Processor.heldPut formed.frame]
    · simp
    · rintro rfl
      exact h.stack free
    · rintro k rfl
      exact has
    · rintro k rfl
      exact has'

def Logged (s : State) (start p : Processor) : Prop :=
  ∃ r, s.emitter = .recording r ∧ start.follow r.log.toList = some p

theorem Logged.congr {start : Processor} (h : s.Logged start p) (same : s'.emitter = s.emitter) :
    s'.Logged start p := by
  obtain ⟨r, emitter, ran⟩ := h
  exact ⟨r, same.trans emitter, ran⟩

theorem Faithful.fill {src dst : SiteId} {a b : Operand} {e : Emitter} {statistics : Statistics}
    (h : Faithful ρ p lent (dst :: hollow) s) (held : dst ∈ (s.value v).sites)
    (source : ∃ m ∈ s.ring v, src ∈ (s.value m).sites) (filled : src ∉ dst :: hollow)
    (origin : s.operand src = .ok a) (target : s.operand dst = .ok b)
    (tracked : { s with emitter := e, statistics }.Tracked lent []) :
    ∃ w, p.read a = some w ∧ ∃ id, b = id.operand s.geometry ∧
      Faithful ρ (p.put s.geometry id w) lent hollow { s with emitter := e, statistics } := by
  have formed := h.tracked.formed
  have value := isValueOfSites s held
  obtain ⟨m, member, listed⟩ := source
  obtain ⟨w, word, same⟩ := h.words m src listed filled
  obtain ⟨v', id, free, owner⟩ := h.owned dst List.mem_cons_self
  obtain ⟨listed', names⟩ := h.listed free owner
  obtain rfl : v' = v := h.tracked.once.apart v' v dst listed' held
  have has := ResourceTable.hasOfOwner owner
  have keeps : Keeps s { s with emitter := e, statistics } :=
    ⟨rfl, rfl, fun _ => rfl, le_rfl, fun _ _ => rfl, .refl _, .refl _⟩
  have alive (x : ValueId) : { s with emitter := e, statistics }.Live x ↔ s.Live x :=
    keeps.live formed tracked.formed x
  rw [wordAt, origin] at word
  rw [operandStands formed (h.plain dst) names] at target
  refine ⟨w, word, id, (Except.ok.inj target).symm, tracked, h.stack, h.numbered, h.plain, ?_,
    h.direct, fun i inside => h.owned i (List.mem_cons_of_mem _ inside), ?_⟩
  · intro x known y inside
    rw [keeps.ring] at inside
    exact h.agree x known y inside
  intro x i inside empty
  have put : { s with emitter := e, statistics }.wordAt (p.put s.geometry id w) i =
      if s.resource? i = some id then some w else s.wordAt p i :=
    h.wordAtPut has free inside p w
  by_cases here : i = dst
  · -- the site that was filled
    subst here
    obtain rfl : x = v' := h.tracked.once.apart x v' i inside held
    refine ⟨w, put.trans (if_pos names), fun living => ?_⟩
    have known := (liveOfAlias formed value member).mpr ((alive x).mp living)
    rw [same known, h.agree x value m member]
  · obtain ⟨w', before, keeps'⟩ :=
      h.words x i inside (List.not_mem_cons_of_ne_of_not_mem here empty)
    by_cases stands : s.resource? i = some id
    · -- a live value would own the resource
      refine ⟨w, put.trans (if_pos stands), fun living => ?_⟩
      cases owner.symm.trans (h.owner ((alive x).mp living) inside stands)
      exact absurd rfl here
    · exact ⟨w', put.trans ((if_neg stands).trans before), fun living => keeps' ((alive x).mp living)⟩

theorem Logged.push {start : Processor} {q : Request} {r r' : Recorder}
    (ran : start.follow r.log.toList = some p) (emitter : s.emitter = .recording r')
    (kept : r'.log = r.log.push q) (step : p.step q = some p') : s.Logged start p' := by
  refine ⟨r', emitter, ?_⟩
  rw [kept, Array.toList_push, Processor.followSnoc, ran]
  exact step

theorem Entitled.has (entitled : s.Entitled v id) (formed : s.WellFormed)
    (numbered : s.resources.registers.length = s.machine.registerCount)
    (plain : s.Plain (s.site i)) (names : s.resource? i = some id) : s.resources.Has id := by
  cases id with
  | register r =>
    have inside := entitled.numbered r rfl
    rwa [← numbered] at inside
  | slot k => exact (plainStands formed plain names).2 k rfl

theorem Vacates.none (h : Vacates kept t id v u) (before : t.Tracked lent []) (free : t.Free id) :
    u.owner? id = none := by
  cases owner : u.owner? id with
  | none => rfl
  | some o =>
    have after := h.tracked before
    obtain ⟨inside, -⟩ := after.recorded id o ((h.keeps.free id).mpr free) owner
    exact absurd owner (h.vacated before.once (inside.resolve_right (by simp)))

theorem Vacates.faithful (h : Vacates (hollow ++ kept) t id v u)
    (before : Faithful ρ p lent hollow t) : Faithful ρ p lent hollow u := by
  cases h with
  | vacant => exact before
  | owned owner apart =>
    exact before.removeSite (fun inside => apart (List.mem_append_left _ inside)) _

theorem Vacates.emitter (h : Vacates kept t id v u) : u.emitter = t.emitter := by
  cases h with
  | vacant => rfl
  | owned => exact t.removeSiteRest _ _

theorem Moves.faithful {start : Processor} (run : Moves old kept h₀ s h₁ s') :
    ∀ {p : Processor} {lent : List Register}, Faithful ρ p lent h₀ s → s.Logged start p →
      ∃ p', Faithful ρ p' lent h₁ s' ∧ s'.Logged start p' := by
  induction run with
  | refl => exact fun h logged => ⟨_, h, logged⟩
  | trans _ _ first second =>
    intro p lent h logged
    obtain ⟨q, h', logged'⟩ := first h logged
    exact second h' logged'
  | @ask kept hollow s reads statistics available evolves =>
    intro p lent h logged
    have keeps := s.keepsAsk statistics available evolves
    have tracked := h.tracked.still keeps (fun _ => rfl) (fun _ _ => rfl) fun id => by simp
    refine ⟨p, h.fewer keeps.extends rfl tracked (fun i out inside => absurd inside out)
      (fun _ _ inside => inside) (fun i inside v id owner => ?_), logged.congr rfl⟩
    simpa [owner?] using owner
  | @create kept hollow s x plain =>
    intro p lent h logged
    have keeps := s.keepsNewSite x
    have tracked := h.tracked.still keeps (fun _ => rfl) (fun i => s.siteNewOld x) fun _ => rfl
    refine ⟨p, h.fewer keeps.extends rfl tracked (fun i out inside => ?_)
      (fun _ _ inside => inside) fun _ _ _ _ owner => owner, logged.congr rfl⟩
    rw [siteNew]
    split
    · exact plain
    · exact plainOutside s _ out
  | @frozen kept h₀ s h₁ t i known run inner =>
    intro p lent h logged
    obtain ⟨q, after, ran⟩ := inner (h.freeze i) (logged.congr (s.freezeSiteEmitter i))
    have tracked := (Moves.frozen known run).tracked h.tracked (by simp)
    exact ⟨q, after.thaw tracked, ran.congr (t.thawSiteEmitter i)⟩
  | @drop kept hollow s id o free owner apart filled spare =>
    intro p lent h logged
    exact ⟨p, h.removeSite filled _, logged.congr (s.removeSiteRest _ _)⟩
  | @redirect kept hollow s o j apart held =>
    intro p lent h logged
    have whole : Moves old kept hollow s hollow _ := .redirect o j apart held
    refine ⟨p, h.fewer whole.keeps.extends whole.keeps.size (whole.tracked h.tracked (by simp))
      (fun i out inside => absurd inside out) (fun v i inside => ?_)
      (fun _ _ _ _ owner => owner), logged.congr rfl⟩
    rwa [redirectSites] at inside
  | @take kept hollow s t u v i id value known names plain free fresh born apart run vacates entitled
      inner =>
    intro p lent h logged
    have whole := Moves.take value known names plain free fresh born apart run vacates entitled
    have reached := s.keepsReach i
    have before := h.fewer reached.extends rfl (h.tracked.reach i)
      (fun j out inside => absurd inside out) (fun _ _ inside => inside)
      fun j _ v id owner => by rwa [reachOwner]
    obtain ⟨q, after, ran⟩ := inner before (logged.congr rfl)
    have keeps := (reached.trans run.keeps).trans vacates.keeps
    have free' : t.Free id := ((reached.trans run.keeps).free id).mpr free
    refine ⟨q, (vacates.faithful after).occupy ((keeps.isValue v).mpr value) (keeps.isSite known)
      ((keeps.resource known).trans names) ((keeps.has id).mpr ?_) ((keeps.free id).mpr free)
      (vacates.none after.tracked free') (whole.tracked h.tracked (by simp)), ran.congr ?_⟩
    · exact entitled.has h.tracked.formed h.numbered plain names
    · exact vacates.emitter
  | @fill kept hollow s v src dst a b e statistics held source filled origin target logs =>
    intro p lent h logged
    have whole : Moves old kept (dst :: hollow) s hollow _ :=
      .fill statistics held source filled origin target logs
    have listed := source.resolve_right fun bent => bent (h.plain src)
    obtain ⟨w, word, id, rfl, after⟩ := h.fill held listed filled origin target
      (whole.tracked h.tracked (by simp))
    obtain ⟨r, emitter, ran⟩ := logged
    exact ⟨_, after, .push ran (logs r emitter) rfl (Processor.stepMove word)⟩

/-! What else a rearrangement leaves alone. -/

theorem Moves.level (run : Moves old kept h₀ s h₁ s') (level : ∀ i, s.Plain (s.site i)) :
    ∀ i, s'.Plain (s'.site i) := by
  induction run with
  | refl => exact level
  | trans _ _ first second => exact second (first level)
  | ask => exact level
  | @create kept hollow s x plain =>
    refine plainExtends (s.keepsNewSite x).extends level fun i out _ => ?_
    rw [siteNew]
    split
    · exact plain
    · exact plainOutside s _ out
  | @frozen kept h₀ s h₁ t i known run inner =>
    have frozen := inner (plainExtends (s.extendsFreeze i) level
      fun j out inside => absurd ((s.freezeSiteIsSite i j).mp inside) out)
    refine plainExtends (t.extendsThaw i) frozen fun j out inside => absurd ?_ out
    rw [thawSiteEq] at inside
    exact inside
  | @drop kept hollow s id o =>
    exact plainExtends (s.keepsRemoveSite _ _).extends level
      fun j out inside => absurd ((s.removeSiteIsSite _ _ j).mp inside) out
  | redirect => exact level
  | @take kept hollow s t u v i id _ _ _ _ _ _ _ _ run vacates _ inner =>
    have reached := inner (plainExtends (s.keepsReach i).extends level
      fun j out inside => absurd inside out)
    have vacated : ∀ j, u.Plain (u.site j) := by
      cases vacates with
      | vacant => exact reached
      | owned =>
        exact plainExtends (t.keepsRemoveSite _ _).extends reached
          fun j out inside => absurd ((t.removeSiteIsSite _ _ j).mp inside) out
    refine plainExtends (u.keepsOccupy v i id).extends vacated fun j out inside => absurd ?_ out
    have size : (u.occupy v i id).sites.size = u.sites.size := sizeSetSite _ _ _
    exact Nat.lt_of_lt_of_eq inside size
  | fill => exact level

theorem Moves.staysVacant (run : Moves old kept h₀ s h₁ s') (level : ∀ i, s.Plain (s.site i))
    (frozen : 0 < (s.resources.get id).freezes) (vacant : s.owner? id = none) :
    s'.owner? id = none := by
  have removed : ∀ (t : State) (v : ValueId) (i : SiteId), t.owner? id = none →
      (t.removeSite v i).owner? id = none := by
    intro t v i none
    cases owner : (t.removeSite v i).owner? id with
    | none => rfl
    | some o => exact absurd (t.removeSiteOwner owner) (by simp [none])
  induction run with
  | refl => exact vacant
  | trans first _ ih ih' =>
    refine ih' (first.level level) ?_ (ih level frozen vacant)
    rw [first.keeps.resources.freezes]
    exact frozen
  | ask => simpa [owner?] using vacant
  | create => exact vacant
  | @frozen kept h₀ s h₁ t i known run inner =>
    rw [thawSiteOwner]
    refine inner (plainExtends (s.extendsFreeze i) level
      fun j out inside => absurd ((s.freezeSiteIsSite i j).mp inside) out) ?_ ?_
    · rw [freezeSiteFreezes]
      omega
    · rwa [freezeSiteOwner]
  | drop => exact removed _ _ _ vacant
  | redirect => exact vacant
  | @take kept hollow s t u v i other _ _ _ _ _ _ _ _ run vacates entitled inner =>
    have here := inner (plainExtends (s.keepsReach i).extends level
      fun j out inside => absurd inside out)
      (by rw [(s.keepsReach i).resources.freezes]; exact frozen) (by rwa [reachOwner])
    have apart : other ≠ id := by
      rintro rfl
      rcases entitled.loose with loose | ⟨w, j, -, -, bent⟩
      · omega
      · exact bent (level j)
    rw [occupyOwner, if_neg fun both => apart both.1.symm]
    cases vacates with
    | vacant => exact here
    | owned => exact removed _ _ _ here
  | fill => exact vacant

end State

end Lowering
