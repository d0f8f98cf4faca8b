import Lowering.Proofs.Appending
/-!
Methods that are described and not compiled yet.

Until a method is compiled no value has an alias, nothing is owned, and a value is nowhere or at the site it
was created at. The reads in a chain and those of a fork are reads of one value, and a fork is older than its
reads. Every call of a client keeps this.
-/
namespace Lowering

open Build State

/-! Events and links. -/

section

variable {s s' : State} {α : Type}

def State.Links (s s' : State) : Prop :=
  s' = { s with
    events := s'.events, links := s'.links, instructions := s'.instructions, firstEvent := s'.firstEvent
    lastEvent := s'.lastEvent, predecessor := s'.predecessor, fork := s'.fork, stack := s'.stack, locals := s'.locals }

instance : Std.Refl State.Links := ⟨fun _ => rfl⟩

instance : Trans State.Links State.Links State.Links := ⟨fun first second => by rw [Links, second, first]⟩

/-- The tables of values, sites, reads, forks and resources are the same, and so are the machine and what was
emitted. -/
def State.Rest (s s' : State) : Prop :=
  s' = { s' with
    values := s.values, sites := s.sites, reads := s.reads, forks := s.forks, resources := s.resources
    machine := s.machine, geometry := s.geometry, emitter := s.emitter, registerValues := s.registerValues }

theorem State.Links.rest (links : s.Links s') : s.Rest s' := by
  rw [links]
  rfl

theorem State.linksNewLink (s : State) (predecessor successor : EventId) (fork : Option ForkId) :
    s.Links (s.newLink predecessor successor fork).2 := rfl

theorem linksCreateEvent (kind : EventKind) : Within Links (createEvent kind) := .modifyGet fun _ => rfl

theorem linksLinkEvent (e : EventId) : Within Links (linkEvent e) := by
  refine .bind (.modify fun s => ?_) fun _ => .bind (.modify fun _ => rfl) fun _ => .bind (.modify fun s => ?_) fun _ => ?_
  · cases s.lastEvent <;> rfl
  · cases s.predecessor with
    | none => rfl
    | some p => exact s.linksNewLink ..
  · exact .bind (.modify fun _ => rfl) fun _ => .bind .get fun _ => .bind (.discard (instructionWithin _)) fun _ =>
      .modify fun _ => rfl

theorem linksAppendDummy : Within Links appendDummy :=
  .bind .get fun _ => .bind .get fun _ => .bind .get fun _ => .bind (instructionWithin _) fun _ =>
    .bind (.modify fun _ => rfl) fun _ => .ensuring (.bind (linksCreateEvent _) linksLinkEvent) fun _ => rfl

theorem linksEnsureEvent : Within Links ensureEvent :=
  .bind .get fun _ => .bind (instructionWithin _) fun _ => .ite linksAppendDummy .pure

theorem linksAppendEvent (e : EventId) : Within Links (appendEvent e) :=
  .bind .get fun _ => .bind (instructionWithin _) fun _ => .bind .get fun _ =>
    .ite (.bind linksAppendDummy fun _ => linksLinkEvent e) (linksLinkEvent e)

end

/-! Reads. -/

namespace ReadKind

def IsNew : ReadKind → Prop
  | .single _ _ next => next = none
  | .fork reads paths _ => reads = [] ∧ paths = []
  | .stub next _ _ => next = none

end ReadKind

namespace ReadTable

variable {t t' t'' : ReadTable} {v : ValueId} {r x last : ReadId} {k : ReadKind}

structure ReadOf (t : ReadTable) (v : ValueId) (r : ReadId) : Prop where
  known : t.IsRead r
  value : t.value r = v

structure Grows (t t' : ReadTable) : Prop where
  size : t.size ≤ t'.size
  value : ∀ r, t.IsRead r → t'.value r = t.value r

theorem Grows.refl (t : ReadTable) : Grows t t := ⟨le_rfl, fun _ _ => rfl⟩

theorem Grows.trans (first : Grows t t') (second : Grows t' t'') : Grows t t'' :=
  ⟨first.size.trans second.size, fun r known =>
    (second.value r (known.trans_le first.size)).trans (first.value r known)⟩

theorem ReadOf.grow (of : t.ReadOf v r) (grows : t.Grows t') : t'.ReadOf v r :=
  ⟨of.known.trans_le grows.size, (grows.value r of.known).trans of.value⟩

theorem growsSetKind (t : ReadTable) (r : ReadId) (k : ReadKind) : t.Grows (t.setKind r k) := by
  refine ⟨(sizeSetKind ..).ge, fun x _ => ?_⟩
  rw [ReadTable.value, getSetKind]
  split
  · rename_i here
    rw [here.1, ReadTable.value]
  · rfl

theorem kindSetKind (t : ReadTable) (r x : ReadId) (k : ReadKind) :
    (t.setKind r k).kind x = if x = r ∧ t.IsRead r then k else t.kind x := by
  rw [ReadTable.kind, getSetKind]
  split <;> rfl

theorem WellFormed.setKind (formed : t.WellFormed)
    (entries : ∀ {x reads paths taken}, k = .fork reads paths taken → x ∈ reads → r.index < x.index ∧ t.IsRead x)
    (chains : ∀ {x}, (t.setKind r k).next r = .ok (some x) → t.IsRead x ∧ t.value x = t.value r) :
    (t.setKind r k).WellFormed := by
  have value : ∀ x, (t.setKind r k).value x = t.value x := by
    intro x
    rw [ReadTable.value, getSetKind]
    split
    · rename_i here
      rw [here.1, ReadTable.value]
    · rfl
  have isRead : ∀ x, (t.setKind r k).IsRead x ↔ t.IsRead x := fun x => by simp [IsRead]
  constructor
  · intro y x reads paths taken kind member
    rw [kindSetKind] at kind
    rw [isRead]
    split at kind
    · rename_i here
      rw [here.1]
      exact entries kind member
    · exact formed.entries kind member
  · intro y x next
    rw [isRead, value, value]
    by_cases here : y = r
    · subst here
      exact chains next
    · refine formed.chains ?_
      rwa [ReadTable.next, kindSetKind, if_neg fun both => here both.1] at next

theorem growsAppend (t : ReadTable) (last r : ReadId) : t.Grows (t.append last r).2 := by
  unfold append
  split
  all_goals first
    | exact growsSetKind ..
    | exact .refl t

theorem WellFormed.append (formed : t.WellFormed) (before : t.ReadOf v last) (of : t.ReadOf v r)
    (newer : last.index < r.index) : (t.append last r).2.WellFormed := by
  have after : t.IsRead r ∧ t.value r = t.value last := ⟨of.known, of.value.trans before.value.symm⟩
  have next : ∀ k : ReadKind, (t.setKind last k).kind last = k := fun k => by
    rw [kindSetKind, if_pos ⟨rfl, before.known⟩]
  unfold ReadTable.append
  split
  · refine formed.setKind (by simp) fun follows => ?_
    rw [ReadTable.next, next] at follows
    cases follows
    exact after
  · refine formed.setKind (by simp) fun follows => ?_
    rw [ReadTable.next, next] at follows
    cases follows
    exact after
  · exact formed
  · exact formed
  · rename_i reads paths taken kind
    refine formed.setKind (fun same member => ?_) fun follows => ?_
    · cases same
      rcases List.mem_append.mp member with old | new
      · exact formed.entries kind old
      · cases List.mem_singleton.mp new
        exact ⟨newer, of.known⟩
    · rw [ReadTable.next, next] at follows
      cases follows

theorem growsOpenPath (t : ReadTable) (r : ReadId) : t.Grows (t.openPath r) := by
  unfold openPath
  split
  · exact growsSetKind ..
  · exact .refl t

theorem WellFormed.openPath (formed : t.WellFormed) (r : ReadId) : (t.openPath r).WellFormed := by
  unfold ReadTable.openPath
  split
  · rename_i reads paths taken kind
    by_cases known : t.IsRead r
    · refine formed.setKind (fun same member => ?_) fun follows => ?_
      · cases same
        exact formed.entries kind member
      · rw [ReadTable.next, kindSetKind, if_pos ⟨rfl, known⟩] at follows
        cases follows
    · rw [kindOutside known] at kind
      cases kind
  · exact formed

theorem getPush (t : ReadTable) (v : ValueId) (k : ReadKind) (x : ReadId) :
    (t.push v k).2.get x = if x.index = t.size then ⟨v, none, k⟩ else t.get x := by
  simp only [push, get, size, Array.getD_eq_getD_getElem?, Array.getElem?_push]
  split <;> rfl

theorem growsPush (t : ReadTable) (v : ValueId) (k : ReadKind) : t.Grows (t.push v k).2 := by
  refine ⟨by simp [push, size], fun r known => ?_⟩
  rw [ReadTable.value, getPush, if_neg (Nat.ne_of_lt known), ReadTable.value]

theorem readOfPush (t : ReadTable) (v : ValueId) (k : ReadKind) : (t.push v k).2.ReadOf v (t.push v k).1 := by
  refine ⟨by simp [push, IsRead, size], ?_⟩
  rw [ReadTable.value, getPush]
  exact congrArg Read.value (if_pos rfl)

theorem WellFormed.push (formed : t.WellFormed) (v : ValueId) (new : k.IsNew) : (t.push v k).2.WellFormed := by
  have grows := growsPush t v k
  have kinds : ∀ y, (t.push v k).2.kind y = if y.index = t.size then k else t.kind y := fun y => by
    rw [ReadTable.kind, getPush]
    split <;> rfl
  constructor
  · intro y x reads paths taken kind member
    rw [kinds] at kind
    split at kind
    · subst kind
      rw [new.1] at member
      cases member
    · obtain ⟨older, known⟩ := formed.entries kind member
      exact ⟨older, known.trans_le grows.size⟩
  · intro y x next
    rw [ReadTable.next, kinds] at next
    by_cases last : y.index = t.size
    · rw [if_pos last] at next
      cases k with
      | single | stub =>
        cases new
        cases next
      | fork => cases next
    · rw [if_neg last] at next
      obtain ⟨known, same⟩ := formed.chains (r := y) next
      have before : t.IsRead y := by
        by_contra outside
        rw [kindOutside outside] at next
        cases next
      exact ⟨known.trans_le grows.size, by rw [grows.value x known, grows.value y before, same]⟩

theorem getSetEvent (t : ReadTable) (r : ReadId) (e : EventId) (x : ReadId) :
    (t.setEvent r e).get x = if x = r ∧ t.IsRead r then { t.get r with event := some e } else t.get x := by
  by_cases same : x = r
  · subst x
    by_cases known : r.index < t.reads.size
    · simp [get, setEvent, IsRead, size, known, Array.getElem_modify]
    · simp [get, setEvent, IsRead, size, known]
  · have apart : r.index ≠ x.index := fun h => same (by cases r; cases x; simp_all)
    simp [get, setEvent, same, Array.getElem?_modify, apart]

theorem kindSetEvent (t : ReadTable) (r : ReadId) (e : EventId) (x : ReadId) :
    (t.setEvent r e).kind x = t.kind x := by
  rw [ReadTable.kind, getSetEvent]
  split
  · rename_i here
    rw [here.1, ReadTable.kind]
  · rfl

theorem growsSetEvent (t : ReadTable) (r : ReadId) (e : EventId) : t.Grows (t.setEvent r e) := by
  refine ⟨by simp [setEvent, size], fun x _ => ?_⟩
  rw [ReadTable.value, getSetEvent]
  split
  · rename_i here
    rw [here.1, ReadTable.value]
  · rfl

theorem WellFormed.setEvent (formed : t.WellFormed) (r : ReadId) (e : EventId) : (t.setEvent r e).WellFormed := by
  have grows := growsSetEvent t r e
  constructor
  · intro y x reads paths taken kind member
    rw [kindSetEvent] at kind
    obtain ⟨older, known⟩ := formed.entries kind member
    exact ⟨older, known.trans_le grows.size⟩
  · intro y x next
    have before : t.IsRead y := by
      by_contra outside
      rw [ReadTable.next, kindSetEvent, kindOutside outside] at next
      cases next
    rw [ReadTable.next, kindSetEvent] at next
    obtain ⟨known, same⟩ := formed.chains (r := y) next
    exact ⟨known.trans_le grows.size, by rw [grows.value x known, grows.value y before, same]⟩

end ReadTable

/-! What describing does. -/

theorem afterModifyGet {α β : Type} {s : State} {f : State → α × State} {g : α → Build β} :
    after (modifyGet f >>= g) s = after (g (f s).1) (f s).2 := rfl

theorem afterBindPure {α β : Type} {s : State} {x : Build α} {g : α → β} :
    after (do let a ← x; return g a) s = after x s := by
  simp only [after, bind, EStateM.bind]
  cases x s <;> rfl

/-- What a relation has to allow for describing to keep to it: that values are made and given new reads, and that
what is kept about frames, events and instructions changes. -/
structure Tells (R : State → State → Prop) [Std.Refl R] [Trans R R R] : Prop where
  rest : ∀ {s s'}, s.Rest s' → R s s'
  home : ∀ (s : State) (v : ValueId) (home : Nat), R s (s.modifyValue v fun d => { d with home := some home })
  value : ∀ (s : State) (kind : ValueKind), R s (s.newValue kind).2
  valueAt : ∀ (s : State) (kind : ValueKind) {site : Site}, site.Nameable (fun _ => True) → R s (s.newValueAt kind site).2
  read : ∀ (s : State) (e : Option EventId) (v : ValueId) {k : ReadKind}, k.IsNew →
    R s (after (linkRead e v (s.reads.push v k).1) { s with reads := (s.reads.push v k).2 })

namespace Tells

variable {R : State → State → Prop} [Std.Refl R] [Trans R R R] (tells : Tells R)

include tells

theorem links {act : Build α} (links : Within Links act) : Within R act := links.mono fun links => tells.rest links.rest

theorem changes {f : State → State} (rest : ∀ s : State, s.Rest (f s)) : Within R (modify f) :=
  .modify fun s => tells.rest (rest s)

theorem demand (e : EventId) (v : ValueId) (mask : SiteMask) (successor : Option ValueId) :
    Within R (demand e v mask successor) := by
  refine ⟨fun s => ?_⟩
  rw [Lowering.demand, afterModifyGet]
  exact tells.read s (some e) v rfl

theorem given (v : ValueId) {k : ReadKind} (new : k.IsNew) (answer : ReadId → α) : Within R (do
    let r ← modifyGet fun s => ((s.reads.push v k).1, { s with reads := (s.reads.push v k).2 })
    linkRead none v r
    return answer r : Build α) := by
  refine ⟨fun s => ?_⟩
  rw [afterModifyGet, afterBindPure]
  exact tells.read s none v new

theorem suits : Suits (fun _ => True) R R where
  weaken := id
  quiet quiet := tells.rest (by rw [quiet]; rfl)
  home := tells.home
  demand := tells.demand
  call _ _ := tells.changes fun _ => rfl
  value := tells.value
  valueAt := tells.valueAt
  operation _ reads := .bind (tells.links (linksCreateEvent _)) fun e => .bind (reads e) fun _ =>
    tells.links (linksAppendEvent e)

theorem visitRoots (ip : Nat) : Within R (Method.visitRoots ip) := by
  refine .bind .get fun s => ?_
  split
  · exact tells.changes fun _ => rfl
  · exact .throw

theorem recordFrame : Within R Method.recordFrame := by
  refine tells.changes fun s => ?_
  cases s.predecessor <;> rfl

theorem linkBack (p target : EventId) : Within R (Method.linkBack p target) := by
  have stubs : ∀ l, Within R (plantStubs l) := by
    refine fun l => .bind .get fun s => .bind (.foldlM (fun stubs slot => ?_) _) fun _ => tells.changes fun _ => rfl
    exact tells.given slot.1 (k := .stub none none true) rfl _
  refine .bind tells.recordFrame fun _ => .bind .get fun _ => .bind
    (.modifyGet fun s => tells.rest (s.linksNewLink ..).rest) fun l => .bind .get fun s => ?_
  split
  · exact .throw
  · exact .bind (tells.changes fun _ => rfl) fun _ => stubs l

theorem visitInstruction (ip : Nat) : Within R (Method.visitInstruction ip) := by
  have rest : ∀ i : Instruction, Within R (Method.leaveTo ip i) := fun i =>
    .bind (tells.changes fun _ => rfl) fun _ => tells.visitRoots ip
  refine .bind (tells.links linksEnsureEvent) fun _ => .bind (instructionWithin _) fun i => ?_
  split
  · exact .throw
  · refine .bind .get fun s => ?_
    split
    · exact .bind (tells.linkBack ..) fun _ => rest i
    · exact rest i

theorem startInstruction (ip : Nat) : Within R (Method.startInstruction ip) := by
  have rest : Within R (do
      ensureEvent
      Method.recordFrame
      let subroutine := (← get).subroutine
      modify fun s =>
        let entry : Instruction := { stack := s.stack, locals := s.locals, subroutine }
        { s with
          subroutine := none
          ip := ip
          instructions := s.instructions.modify (ip + 1) fun _ => some entry }
      if subroutine.isSome then Method.declareMissing
      Method.visitRoots ip : Build Unit) := by
    refine .bind (tells.links linksEnsureEvent) fun _ => .bind tells.recordFrame fun _ => .bind .get fun s => ?_
    refine .bind (tells.changes fun _ => rfl) fun _ => ?_
    exact .ite (.bind tells.suits.declareMissing fun _ => tells.visitRoots ip) (tells.visitRoots ip)
  refine .bind .get fun s => .ite (.bind .throw fun _ => ?_) ?_
  · exact .bind .get fun s => .ite (.bind .throw fun _ => rest) rest
  · exact .bind .get fun s => .ite (.bind .throw fun _ => rest) rest

end Tells

namespace State

variable {s s' t : State} {v : ValueId} {r : ReadId}

structure Drafted (s : State) : Prop where
  alone : ∀ v, s.IsValue v → (s.value v).next = v
  reads : s.reads.WellFormed
  heads : ∀ v r, (s.value v).reads = some r → s.reads.ReadOf v r
  lasts : ∀ v r, (s.value v).lastRead = some r → s.reads.ReadOf v r
  forks : ∀ d ∈ s.forks, ∀ p ∈ d.forks, s.reads.ReadOf p.1 p.2
  listed : ∀ v i, i ∈ (s.value v).sites → s.IsSite i
  claims : ∀ o ∈ s.registerValues, (s.value o.value).sites = [o.site] ∧ ∃ n, s.site o.site = .ofRegister n
  values : (s.registerValues.map (·.value)).Nodup
  sites : (s.registerValues.map (·.site)).Nodup
  level : ∀ i m acquired, s.site i ≠ .memory m acquired
  bare : ∀ id, (s.resources.get id).owner = none ∧ (s.resources.get id).references = 0

structure Drafts (s s' : State) : Prop where
  drafted : s'.Drafted
  machine : s'.machine = s.machine
  geometry : s'.geometry = s.geometry
  emitter : s'.emitter = s.emitter
  registers : s'.resources.registers = s.resources.registers
  reads : s.reads.Grows s'.reads
  claims : s.registerValues <+: s'.registerValues
  site : ∀ i, s.IsSite i → s'.IsSite i ∧ s'.site i = s.site i

namespace Drafts

theorem refl (drafted : s.Drafted) : s.Drafts s :=
  ⟨drafted, rfl, rfl, rfl, rfl, .refl _, List.prefix_rfl, fun _ known => ⟨known, rfl⟩⟩

theorem trans (first : s.Drafts t) (second : t.Drafts s') : s.Drafts s' where
  drafted := second.drafted
  machine := second.machine.trans first.machine
  geometry := second.geometry.trans first.geometry
  emitter := second.emitter.trans first.emitter
  registers := second.registers.trans first.registers
  reads := first.reads.trans second.reads
  claims := first.claims.trans second.claims
  site i known :=
    ⟨(second.site i (first.site i known).1).1,
      (second.site i (first.site i known).1).2.trans (first.site i known).2⟩

end Drafts

instance : Std.Refl fun s s' : State => s.Drafted → s.Drafts s' := ⟨fun _ => .refl⟩

instance : Trans (fun s s' : State => s.Drafted → s.Drafts s') (fun s s' : State => s.Drafted → s.Drafts s')
    fun s s' : State => s.Drafted → s.Drafts s' :=
  ⟨fun first second drafted => (first drafted).trans (second (first drafted).drafted)⟩

end State

abbrev Build.Drafts {α : Type} (act : Build α) : Prop := Within (fun s s' : State => s.Drafted → s.Drafts s') act

section

variable {s s' t : State} {v : ValueId} {r : ReadId}

theorem draftsRest (drafted : s.Drafted) (rest : s.Rest s') : s.Drafts s' := by
  have values : s'.values = s.values := by rw [rest]
  have sites : s'.sites = s.sites := by rw [rest]
  have reads : s'.reads = s.reads := by rw [rest]
  have forks : s'.forks = s.forks := by rw [rest]
  have resources : s'.resources = s.resources := by rw [rest]
  have machine : s'.machine = s.machine := by rw [rest]
  have geometry : s'.geometry = s.geometry := by rw [rest]
  have emitter : s'.emitter = s.emitter := by rw [rest]
  have claims : s'.registerValues = s.registerValues := by rw [rest]
  have value : s'.value = s.value := by funext v; simp only [State.value, values]
  have site : s'.site = s.site := by funext i; simp only [State.site, sites]
  refine ⟨⟨fun v known => ?_, ?_, fun v r head => ?_, fun v r last => ?_, fun d member => ?_, fun v i inside => ?_,
    fun o member => ?_, ?_, ?_, fun i => ?_, fun id => ?_⟩, machine, geometry, emitter, by rw [resources],
    by rw [reads]; exact .refl _, by rw [claims], fun i known => ⟨?_, by rw [site]⟩⟩
  · rw [value]
    exact drafted.alone v (by rwa [IsValue, values] at known)
  · rw [reads]
    exact drafted.reads
  · rw [reads]
    exact drafted.heads v r (by rwa [value] at head)
  · rw [reads]
    exact drafted.lasts v r (by rwa [value] at last)
  · rw [reads]
    exact drafted.forks d (by rwa [forks] at member)
  · rw [IsSite, sites]
    exact drafted.listed v i (by rwa [value] at inside)
  · rw [value, site]
    exact drafted.claims o (by rwa [claims] at member)
  · rw [claims]
    exact drafted.values
  · rw [claims]
    exact drafted.sites
  · rw [site]
    exact drafted.level i
  · rw [resources]
    exact drafted.bare id
  · rwa [IsSite, sites]

theorem draftsReads (drafted : s.Drafted) {t : ReadTable} (formed : t.WellFormed) (grows : s.reads.Grows t) :
    s.Drafts { s with reads := t } :=
  ⟨⟨drafted.alone, formed, fun v r head => (drafted.heads v r head).grow grows,
    fun v r last => (drafted.lasts v r last).grow grows, fun d member p inside => (drafted.forks d member p inside).grow grows,
    drafted.listed, drafted.claims, drafted.values, drafted.sites, drafted.level, drafted.bare⟩,
    rfl, rfl, rfl, rfl, grows, List.prefix_rfl, fun _ known => ⟨known, rfl⟩⟩

theorem draftsFork (drafted : s.Drafted) {d : Fork} (known : ∀ p ∈ d.forks, s.reads.ReadOf p.1 p.2)
    (rest : State.Rest { s with forks := s.forks.push d } s') : s.Drafts s' := by
  have forked : s.Drafts { s with forks := s.forks.push d } := by
    refine ⟨⟨drafted.alone, drafted.reads, drafted.heads, drafted.lasts, fun d' member => ?_, drafted.listed, drafted.claims,
      drafted.values, drafted.sites, drafted.level, drafted.bare⟩, rfl, rfl, rfl, rfl, .refl _, List.prefix_rfl,
      fun _ known => ⟨known, rfl⟩⟩
    rcases Array.mem_push.mp member with old | rfl
    · exact drafted.forks d' old
    · exact known
  exact forked.trans (draftsRest forked.drafted rest)

theorem draftsModifyValue (drafted : s.Drafted) {f : Value → Value} (next : ∀ d, (f d).next = d.next)
    (sites : ∀ d, (f d).sites = d.sites)
    (heads : ∀ r, (f (s.value v)).reads = some r → (s.value v).reads = some r ∨ s.reads.ReadOf v r)
    (lasts : ∀ r, (f (s.value v)).lastRead = some r → (s.value v).lastRead = some r ∨ s.reads.ReadOf v r) :
    s.Drafts (s.modifyValue v f) := by
  have listed : ∀ w, ((s.modifyValue v f).value w).sites = (s.value w).sites := by
    intro w
    rw [valueModify]
    split
    · rename_i here
      rw [sites, here.1]
    · rfl
  refine ⟨⟨fun w known => ?_, drafted.reads, fun w r head => ?_, fun w r last => ?_, drafted.forks, fun w i inside => ?_,
    fun o member => ?_, drafted.values, drafted.sites, drafted.level, drafted.bare⟩, rfl, rfl, rfl, rfl, .refl _, List.prefix_rfl,
    fun _ known => ⟨known, rfl⟩⟩
  · have known : s.IsValue w := by rwa [IsValue, sizeModifyValue] at known
    rw [valueModify]
    split
    · rename_i here
      rw [next, here.1, drafted.alone v here.2]
    · exact drafted.alone w known
  · rw [valueModify] at head
    split at head
    · rename_i here
      rw [here.1]
      exact (heads r head).elim (drafted.heads v r) id
    · exact drafted.heads w r head
  · rw [valueModify] at last
    split at last
    · rename_i here
      rw [here.1]
      exact (lasts r last).elim (drafted.lasts v r) id
    · exact drafted.lasts w r last
  · rw [listed] at inside
    exact drafted.listed w i inside
  · rw [listed]
    exact drafted.claims o member

/-! Values and reads. -/

theorem draftsNewValue (drafted : s.Drafted) (kind : ValueKind) : s.Drafts (s.newValue kind).2 := by
  refine ⟨⟨fun w known => ?_, drafted.reads, fun w r head => ?_, fun w r last => ?_, drafted.forks, fun w i inside => ?_,
    fun o member => ?_, drafted.values, drafted.sites, drafted.level, drafted.bare⟩, rfl, rfl, rfl, rfl, .refl _, List.prefix_rfl,
    fun _ known => ⟨known, rfl⟩⟩
  · rw [valueNew]
    split
    · rename_i here
      exact here.symm
    · rename_i other
      refine drafted.alone w ?_
      have apart : w.index ≠ s.values.size := fun same => other (by cases w; simp_all)
      simp only [IsValue, newValue, Array.size_push] at known ⊢
      omega
  · rw [valueNew] at head
    split at head
    · cases head
    · exact drafted.heads w r head
  · rw [valueNew] at last
    split at last
    · cases last
    · exact drafted.lasts w r last
  · rw [sitesNewValue] at inside
    exact drafted.listed w i inside
  · rw [sitesNewValue]
    exact drafted.claims o member

theorem draftsNewSite (drafted : s.Drafted) {x : Site} (level : ∀ m acquired, x ≠ .memory m acquired) :
    s.Drafts (s.newSite x).2 := by
  have known : ∀ i, s.IsSite i → (s.newSite x).2.IsSite i := fun i known => by
    simp only [IsSite, newSite, Array.size_push] at known ⊢
    omega
  refine ⟨⟨drafted.alone, drafted.reads, drafted.heads, drafted.lasts, drafted.forks,
    fun v i inside => known i (drafted.listed v i inside), fun o member => ?_, drafted.values, drafted.sites,
    fun i m acquired memory => ?_, drafted.bare⟩, rfl, rfl, rfl, rfl, .refl _, List.prefix_rfl,
    fun i here => ⟨known i here, s.siteNewOld x here⟩⟩
  · obtain ⟨sites, n, site⟩ := drafted.claims o member
    refine ⟨sites, n, ?_⟩
    rw [s.siteNewOld x (drafted.listed o.value o.site (by simp [sites]))]
    exact site
  · rw [siteNew] at memory
    split at memory
    · exact level m acquired memory
    · exact drafted.level i m acquired memory

theorem draftsPlace (drafted : s.Drafted) {i : SiteId} (vacant : (s.value v).sites = []) (known : s.IsSite i) :
    s.Drafts (s.modifyValue v fun d => { d with sites := d.sites ++ [i] }) := by
  refine ⟨⟨fun w there => ?_, drafted.reads, fun w r head => ?_, fun w r last => ?_, drafted.forks, fun w j inside => ?_,
    fun o member => ?_, drafted.values, drafted.sites, drafted.level, drafted.bare⟩, rfl, rfl, rfl, rfl, .refl _, List.prefix_rfl,
    fun _ known => ⟨known, rfl⟩⟩
  · rw [valueModify]
    have there : s.IsValue w := by rwa [IsValue, sizeModifyValue] at there
    split
    · rename_i here
      rw [here.1]
      exact drafted.alone v here.2
    · exact drafted.alone w there
  · rw [valueModify] at head
    split at head
    · rename_i here
      rw [here.1]
      exact drafted.heads v r head
    · exact drafted.heads w r head
  · rw [valueModify] at last
    split at last
    · rename_i here
      rw [here.1]
      exact drafted.lasts v r last
    · exact drafted.lasts w r last
  · rw [valueModify] at inside
    split at inside
    · rw [vacant, List.nil_append, List.mem_singleton] at inside
      rwa [inside]
    · exact drafted.listed w j inside
  · obtain ⟨sites, site⟩ := drafted.claims o member
    rw [valueModify, if_neg]
    · exact ⟨sites, site⟩
    · rintro ⟨rfl, -⟩
      rw [vacant] at sites
      cases sites

theorem draftsClaim (drafted : s.Drafted) {o : Owner} {n : Register} (placed : (s.value o.value).sites = [o.site])
    (site : s.site o.site = .ofRegister n) (value : o.value ∉ s.registerValues.map (·.value))
    (other : o.site ∉ s.registerValues.map (·.site)) :
    s.Drafts { s with registerValues := s.registerValues ++ [o] } := by
  refine ⟨⟨drafted.alone, drafted.reads, drafted.heads, drafted.lasts, drafted.forks, drafted.listed, fun p member => ?_,
    ?_, ?_, drafted.level, drafted.bare⟩, rfl, rfl, rfl, rfl, .refl _, List.prefix_append _ _, fun _ known => ⟨known, rfl⟩⟩
  · rcases List.mem_append.mp member with old | new
    · exact drafted.claims p old
    · rw [List.mem_singleton.mp new]
      exact ⟨placed, n, site⟩
  · rw [List.map_append, List.map_singleton]
    exact List.nodup_append.mpr ⟨drafted.values, List.nodup_singleton _, fun a old b new same =>
      value (by rwa [← List.mem_singleton.mp new, ← same])⟩
  · rw [List.map_append, List.map_singleton]
    exact List.nodup_append.mpr ⟨drafted.sites, List.nodup_singleton _, fun a old b new same =>
      other (by rwa [← List.mem_singleton.mp new, ← same])⟩

theorem draftsNewValueAt (drafted : s.Drafted) (kind : ValueKind) {site : Site} (nameable : site.Nameable fun _ => True) :
    s.Drafts (s.newValueAt kind site).2 := by
  have valued := draftsNewValue drafted kind
  have level : ∀ m acquired, site ≠ .memory m acquired := by
    rintro m acquired rfl
    exact nameable
  have sited := draftsNewSite valued.drafted level
  have vacant : (((s.newValue kind).2.newSite site).2.value ⟨s.values.size⟩).sites = [] := by
    change ((s.newValue kind).2.value ⟨s.values.size⟩).sites = []
    rw [valueNew, if_pos rfl]
  have known : ((s.newValue kind).2.newSite site).2.IsSite ⟨s.sites.size⟩ := by simp [IsSite, newSite, newValue]
  have placed := draftsPlace sited.drafted vacant known
  have all := valued.trans (sited.trans placed)
  cases site with
  | constant | address => exact all
  | memory => exact nameable.elim
  | register mask number =>
    obtain ⟨n, rfl, rfl, -⟩ := nameable
    refine all.trans (draftsClaim placed.drafted (o := ⟨⟨s.values.size⟩, ⟨s.sites.size⟩⟩) (n := n) ?_ ?_ ?_ ?_)
    · rw [valueModify, if_pos ⟨rfl, by simp [IsValue, newSite, newValue]⟩, vacant]
      rfl
    · exact siteNewSelf _ _
    · intro inside
      obtain ⟨o, member, same⟩ := List.mem_map.mp inside
      have there := isValueOfSites s (i := o.site) (v := o.value) (by simp [(drafted.claims o member).1])
      rw [same] at there
      exact absurd there (by simp [IsValue])
    · intro inside
      obtain ⟨o, member, same⟩ := List.mem_map.mp inside
      have there := drafted.listed o.value o.site (by simp [(drafted.claims o member).1])
      rw [same] at there
      exact absurd there (by simp [IsSite])

theorem draftsLinkRead (drafted : s.Drafted) (e : Option EventId) (of : s.reads.ReadOf v r)
    (newer : ∀ last, (s.value v).lastRead = some last → last.index < r.index) : s.Drafts (after (linkRead e v r) s) := by
  have linked : ∀ t : State, t.Drafted → t.reads.ReadOf v r →
      (∀ last, (t.value v).lastRead = some last → last.index < r.index) → t.Drafts (after (linkRead none v r) t) := by
    intro t drafted of newer
    have ends : ∀ u : State, u.Drafted → u.reads.ReadOf v r →
        u.Drafts (u.modifyValue v fun d => { d with lastRead := some r }) := fun u drafted of =>
      draftsModifyValue drafted (fun _ => rfl) (fun _ => rfl) (fun _ => .inl) fun _ same => .inr (by cases same; exact of)
    cases last : (t.value v).lastRead with
    | none =>
      have first : t.Drafts (t.modifyValue v fun d => { d with reads := some r }) :=
        draftsModifyValue drafted (fun _ => rfl) (fun _ => rfl) (fun _ same => .inr (by cases same; exact of)) fun _ => .inl
      have same : after (linkRead none v r) t =
          (t.modifyValue v fun d => { d with reads := some r }).modifyValue v fun d => { d with lastRead := some r } := by
        simp only [linkRead, after, getBind, last]
        rfl
      rw [same]
      exact first.trans (ends _ first.drafted of)
    | some last' =>
      have before := drafted.lasts v last' last
      have appended : t.Drafts { t with reads := (t.reads.append last' r).2 } :=
        draftsReads drafted (drafted.reads.append before of (newer last' last)) (ReadTable.growsAppend ..)
      have of' : (t.reads.append last' r).2.ReadOf v r := of.grow (ReadTable.growsAppend ..)
      cases failed : (t.reads.append last' r).1 with
      | none =>
        have same : after (linkRead none v r) t =
            State.modifyValue { t with reads := (t.reads.append last' r).2 } v fun d => { d with lastRead := some r } := by
          simp only [linkRead, after, getBind, last, failed]
          rfl
        rw [same]
        exact appended.trans (ends _ appended.drafted of')
      | some error =>
        have same : after (linkRead none v r) t = { t with reads := (t.reads.append last' r).2 } := by
          simp only [linkRead, after, getBind, last, failed]
          rfl
        rw [same]
        exact appended
  cases e with
  | none => exact linked s drafted of newer
  | some e =>
    have grows := ReadTable.growsSetEvent s.reads r e
    have marked : s.Drafts ({ s with reads := s.reads.setEvent r e }.modifyEvent e fun d =>
        { d with reads := d.reads ++ [r] }) :=
      (draftsReads drafted (drafted.reads.setEvent r e) grows).trans
        (draftsRest (draftsReads drafted (drafted.reads.setEvent r e) grows).drafted rfl)
    exact marked.trans (linked _ marked.drafted (of.grow grows) newer)

theorem draftsGive (drafted : s.Drafted) (e : Option EventId) (v : ValueId) {k : ReadKind} (new : k.IsNew) :
    s.Drafts (after (linkRead e v (s.reads.push v k).1) { s with reads := (s.reads.push v k).2 }) := by
  have pushed := draftsReads drafted (drafted.reads.push v new) (ReadTable.growsPush s.reads v k)
  exact pushed.trans (draftsLinkRead pushed.drafted e (s.reads.readOfPush v k) fun last same =>
    (drafted.lasts v last same).known)

theorem draftsTells : Tells fun s s' : State => s.Drafted → s.Drafts s' where
  rest rest drafted := draftsRest drafted rest
  home _ _ _ drafted := draftsModifyValue drafted (fun _ => rfl) (fun _ => rfl) (fun _ => .inl) fun _ => .inl
  value _ kind drafted := draftsNewValue drafted kind
  valueAt _ kind _ nameable drafted := draftsNewValueAt drafted kind nameable
  read _ e v _ new drafted := draftsGive drafted e v new

theorem draftsLinks (drafted : s.Drafted) (links : s.Links s') : s.Drafts s' := draftsRest drafted links.rest

/-! Control flow. -/

namespace Method

def giveFork (v : ValueId) : Build (ValueId × ReadId) := do
  let r ← modifyGet fun s =>
    let (r, reads) := s.reads.fork v
    (r, { s with reads })
  linkRead none v r
  return (v, r)

def keepFork (saved : List ValueId) (forks : List (ValueId × ReadId)) : Build ForkId := modifyGet fun s =>
  let f : ForkId := ⟨s.forks.size⟩
  let state : Fork := ⟨s.stack, s.locals, saved, s.predecessor, s.ip, forks⟩
  (f, { s with
    forks := s.forks.push state
    fork := if s.predecessor.isSome then some f else s.fork })

theorem readOfGiven {p : ValueId × ReadId} (drafted : s.Drafted) (gave : giveFork v s = .ok p t) :
    t.reads.ReadOf p.1 p.2 := by
  have pushed := draftsReads drafted (drafted.reads.push v (k := .fork [] [] 0) ⟨rfl, rfl⟩) (ReadTable.growsPush s.reads v _)
  rw [giveFork, modifyGetBind] at gave
  obtain ⟨⟨⟩, u, linked, same⟩ := bindOk.mp gave
  obtain ⟨rfl, rfl⟩ := pureOk.mp same
  have later := draftsLinkRead pushed.drafted none (s.reads.readOfPush v (.fork [] [] 0)) fun last same =>
    (drafted.lasts v last same).known
  exact (s.reads.readOfPush v (.fork [] [] 0)).grow (afterOk linked ▸ later.reads)

theorem draftsForks (values : List ValueId) (drafted : s.Drafted) :
    s.Drafts (after (values.mapM giveFork) s) ∧
      ∀ forks t, values.mapM giveFork s = .ok forks t → ∀ p ∈ forks, t.reads.ReadOf p.1 p.2 := by
  induction values generalizing s with
  | nil =>
    rw [List.mapM_nil]
    refine ⟨.refl drafted, fun forks t ok p member => ?_⟩
    obtain ⟨rfl, -⟩ := pureOk.mp ok
    cases member
  | cons v rest ih =>
    have gives : (giveFork v).Drafts := draftsTells.given v (k := .fork [] [] 0) ⟨rfl, rfl⟩ fun r => (v, r)
    rw [List.mapM_cons]
    cases gave : giveFork v s with
    | error e t =>
      rw [afterBindError gave]
      refine ⟨gives.fails gave drafted, fun forks u ok => ?_⟩
      obtain ⟨p, t, given, -⟩ := bindOk.mp ok
      rw [gave] at given
      cases given
    | ok p t =>
      have first := gives.holds gave drafted
      obtain ⟨later, known⟩ := ih first.drafted
      rw [afterBindOk gave, afterBindPure]
      refine ⟨first.trans later, fun forks u ok => ?_⟩
      obtain ⟨p', t', given, more⟩ := bindOk.mp ok
      cases gave.symm.trans given
      obtain ⟨ps, u', ran, same⟩ := bindOk.mp more
      obtain ⟨rfl, rfl⟩ := pureOk.mp same
      intro q member
      rcases List.mem_cons.mp member with rfl | member
      · exact (readOfGiven drafted gave).grow (afterOk ran ▸ later.reads)
      · exact known ps u' ran q member

theorem draftsCaptureState : captureState.Drafts := by
  refine .bind (draftsTells.links linksEnsureEvent) fun _ => .bind .get fun s => ?_
  refine .bind (draftsTells.changes fun _ => rfl) fun _ => .bind .get fun t => ?_
  dsimp only
  generalize (if t.predecessor.isSome then t.frames.values t.stack t.locals ++ s.saved else []) = values
  refine ⟨fun u drafted => ?_⟩
  obtain ⟨given, known⟩ := draftsForks values drafted
  change u.Drafts (after (values.mapM giveFork >>= keepFork s.saved) u)
  cases ran : values.mapM giveFork u with
  | error e w =>
    rw [afterBindError ran]
    rwa [after, ran] at given
  | ok forks w =>
    rw [afterBindOk ran]
    rw [afterOk ran] at given
    exact given.trans (draftsFork given.drafted (d := ⟨w.stack, w.locals, s.saved, w.predecessor, w.ip, forks⟩)
      (known forks w ran) rfl)

theorem draftsRestoreState (f : ForkId) : (restoreState f).Drafts := by
  have opened : ∀ (forks : List (ValueId × ReadId)) (t : State), t.Drafted → (∀ p ∈ forks, t.reads.ReadOf p.1 p.2) →
      t.Drafts (forks.foldl (fun s p =>
        { s with reads := s.reads.openPath p.2 }.modifyValue p.1 fun d => { d with lastRead := some p.2 }) t) := by
    intro forks
    induction forks with
    | nil => exact fun t drafted _ => .refl drafted
    | cons p rest ih =>
      intro t drafted of
      have grows := t.reads.growsOpenPath p.2
      have path : t.Drafts { t with reads := t.reads.openPath p.2 } := draftsReads drafted (drafted.reads.openPath p.2) grows
      have here : (t.reads.openPath p.2).ReadOf p.1 p.2 := (of p List.mem_cons_self).grow grows
      have first := path.trans (draftsModifyValue (v := p.1) path.drafted
        (f := fun d => { d with lastRead := some p.2 }) (fun _ => rfl) (fun _ => rfl) (fun _ => .inl)
        fun _ same => .inr (by cases same; exact here))
      exact first.trans (ih _ first.drafted fun q member => (of q (List.mem_cons_of_mem _ member)).grow grows)
  refine .bind (draftsTells.links linksEnsureEvent) fun _ => .modify fun s drafted => ?_
  have known : ∀ p ∈ (s.forkAt f).forks, s.reads.ReadOf p.1 p.2 := by
    unfold forkAt
    rw [Array.getD_eq_getD_getElem?]
    cases found : s.forks[f.index]? with
    | none => exact fun p member => absurd member List.not_mem_nil
    | some d => exact drafted.forks d (Array.mem_of_getElem? found)
  have moved : s.Drafts { s with
      stack := (s.forkAt f).stack, locals := (s.forkAt f).locals, predecessor := (s.forkAt f).predecessor,
      ip := (s.forkAt f).ip } := draftsRest drafted rfl
  dsimp only
  split
  · exact moved
  · have switched : s.Drafts { s with
        stack := (s.forkAt f).stack, locals := (s.forkAt f).locals, predecessor := (s.forkAt f).predecessor,
        ip := (s.forkAt f).ip, fork := some f } := draftsRest drafted rfl
    exact switched.trans (opened _ _ switched.drafted known)

theorem draftsReturnFromSubroutine (r : SubroutineId) (address : ValueId) : (returnFromSubroutine r address).Drafts :=
  .bind draftsTells.suits.saveLocals fun _ => .bind (draftsTells.suits.jump _) fun _ => .bind draftsCaptureState fun _ =>
    draftsTells.changes fun _ => rfl

theorem draftsLinkSubroutine (r : SubroutineId) : (linkSubroutine r).Drafts := by
  refine .bind .get fun s => ?_
  split
  · exact draftsRestoreState _
  · exact .throw

end Method

theorem draftsStart (codeLength parameterFootprint localFootprint frameSize : Nat) (drafted : s.Drafted) :
    s.Drafts (s.start codeLength parameterFootprint localFootprint frameSize) := by
  refine ⟨⟨drafted.alone, drafted.reads, drafted.heads, drafted.lasts, drafted.forks, drafted.listed, drafted.claims,
    drafted.values, drafted.sites, drafted.level, fun id => ?_⟩, rfl, rfl, rfl, rfl, .refl _, List.prefix_rfl,
    fun _ known => ⟨known, rfl⟩⟩
  cases id with
  | register n => exact drafted.bare (.register n)
  | slot k =>
    simp only [start, ResourceTable.setFrame, ResourceTable.get, List.getD_eq_getElem?_getD, List.getElem?_map]
    cases (List.range (State.totalFrameSize _))[k]? <;> exact ⟨rfl, rfl⟩

namespace ClientCall

def Describes : ClientCall → Prop
  | compile .. => False
  | _ => True

theorem drafts {c : ClientCall} (describes : c.Describes) (fits : c.Fits fun _ => True) : c.run.Drafts := by
  cases c with
  | compile => exact describes.elim
  | start => exact .modify fun _ => draftsStart _ _ _ _
  | visitInstruction ip => exact draftsTells.visitInstruction ip
  | startInstruction ip => exact draftsTells.startInstruction ip
  | saveState =>
    exact .discard (.bind Method.draftsCaptureState fun f => .bind (Method.draftsRestoreState f) fun _ => .pure)
  | restoreState f => exact Method.draftsRestoreState f
  | returnFromSubroutine r address => exact Method.draftsReturnFromSubroutine r address
  | linkSubroutine r => exact Method.draftsLinkSubroutine r
  | _ => exact draftsTells.suits.plain trivial fits

end ClientCall

theorem historyDrafts {calls : List ClientCall} (describes : ∀ c ∈ calls, c.Describes)
    (fits : ∀ c ∈ calls, c.Fits fun _ => True) (drafted : s.Drafted) : s.Drafts (s.history calls) := by
  induction calls generalizing s with
  | nil => exact .refl drafted
  | cons c rest ih =>
    have first := (ClientCall.drafts (describes c List.mem_cons_self) (fits c List.mem_cons_self)).keeps s drafted
    exact first.trans (ih (fun c member => describes c (List.mem_cons_of_mem _ member))
      (fun c member => fits c (List.mem_cons_of_mem _ member)) first.drafted)

theorem draftedFresh (machine : Description) (settings : Settings) (emitter : Emitter) (helpers : Option HelperAddress) :
    (fresh machine settings emitter helpers).Drafted where
  alone v known := absurd known (Nat.not_lt_zero _)
  reads := ⟨fun kind member => by simp [fresh, State.empty, ReadTable.kind, ReadTable.get, default] at kind,
    fun next => by simp [fresh, State.empty, ReadTable.next, ReadTable.kind, ReadTable.get, default] at next⟩
  heads v r head := by simp [fresh, State.empty, State.value, default] at head; cases head
  lasts v r last := by simp [fresh, State.empty, State.value, default] at last; cases last
  forks d member := absurd member (Array.not_mem_empty _)
  listed v i inside := by simp [fresh, State.empty, State.value, default] at inside; cases inside
  claims o member := absurd member List.not_mem_nil
  values := List.nodup_nil
  sites := List.nodup_nil
  level i m acquired memory := by simp [fresh, State.empty, State.site, default] at memory
  bare id := by
    cases id with
    | slot k => exact ⟨rfl, rfl⟩
    | register n =>
      simp only [fresh, State.empty, ResourceTable.ofRegisters, ResourceTable.get, List.getD_eq_getElem?_getD,
        List.getElem?_map]
      cases (ResourceTable.registerNumbers _)[n]? <;> exact ⟨rfl, rfl⟩

end

end Lowering
