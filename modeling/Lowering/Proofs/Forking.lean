import Lowering.Proofs.Drafting
import Lowering.Proofs.Steering
/-!
The reads of forks.

A client opens a path each time it goes back to a saved state. A value that the state has captured receives its
reads there until a path is opened on a state that has captured it, which may be the same or another one. A fork
has a slot for each of its paths, and the slot holds the first read that was received there.
-/
namespace Lowering

open Build State

structure OpenedPath where
  fork : ForkId
  reads : Nat
  link : LinkId
  deriving DecidableEq, Repr

namespace ReadTable

variable {t t' : ReadTable} {r x last : ReadId} {v w : ValueId} {f : ForkId} {stop : Nat} {opened : List OpenedPath}

def received? (t : ReadTable) (v : ValueId) (first stop : Nat) : Option ReadId :=
  ((List.range' first (stop - first)).map ReadId.mk).find? fun r => t.value r == v

theorem receivedNone (t : ReadTable) (v : ValueId) (stop : Nat) : t.received? v stop stop = none := by
  simp [received?]

theorem receivedNext (t : ReadTable) (v : ValueId) {first stop : Nat} (within : first ≤ stop) :
    t.received? v first (stop + 1) =
      (t.received? v first stop).or (if t.value ⟨stop⟩ = v then some ⟨stop⟩ else none) := by
  have length : stop + 1 - first = stop - first + 1 := by omega
  have last : first + (stop - first) = stop := by omega
  simp only [received?, length, List.range'_concat, Nat.one_mul, last, List.map_append, List.map_singleton,
    List.find?_append, List.find?_singleton, beq_iff_eq]

theorem receivedGrow (grows : t.Grows t') (v : ValueId) {first stop : Nat} (within : stop ≤ t.size) :
    t'.received? v first stop = t.received? v first stop := by
  rw [received?, received?, ← List.head?_filter, ← List.head?_filter]
  refine congrArg List.head? (List.filter_congr fun r member => ?_)
  obtain ⟨n, inside, rfl⟩ := List.mem_map.mp member
  have known : t.IsRead ⟨n⟩ := by
    have := List.mem_range'_1.mp inside
    simp only [IsRead]
    omega
  rw [grows.value ⟨n⟩ known]

def firsts (t : ReadTable) (f : ForkId) (v : ValueId) (stop : Nat) : List OpenedPath → List (Option ReadId)
  | [] => []
  | o :: later =>
    let rest := firsts t f v stop later
    if o.fork = f then t.received? v o.reads ((later.head?.map (·.reads)).getD stop) :: rest else rest

theorem firstsConcat (t : ReadTable) (f : ForkId) (v : ValueId) (stop : Nat) (opened : List OpenedPath) (o : OpenedPath) :
    t.firsts f v stop (opened ++ [o]) =
      t.firsts f v o.reads opened ++ if o.fork = f then [t.received? v o.reads stop] else [] := by
  induction opened with
  | nil => simp [firsts]
  | cons p later ih =>
    have next : ((later ++ [o]).head?.map (·.reads)).getD stop = (later.head?.map (·.reads)).getD o.reads := by
      cases later <;> rfl
    simp only [List.cons_append, firsts, ih, next]
    split <;> rfl

theorem firstsEmpty (empty : t.firsts f v stop opened = []) : ∀ o ∈ opened, o.fork ≠ f := by
  induction opened with
  | nil => nofun
  | cons o later ih =>
    rw [firsts] at empty
    split at empty
    · cases empty
    · rename_i other
      exact List.forall_mem_cons.mpr ⟨other, ih empty⟩

theorem firstsNone (other : ∀ o ∈ opened, o.fork ≠ f) : t.firsts f v stop opened = [] := by
  induction opened with
  | nil => rfl
  | cons o later ih =>
    rw [firsts, if_neg (other o List.mem_cons_self)]
    exact ih fun p member => other p (List.mem_cons_of_mem _ member)

theorem firstsGrow (grows : t.Grows t') (f : ForkId) (v : ValueId) (within : stop ≤ t.size)
    (known : ∀ o ∈ opened, o.reads ≤ t.size) : t'.firsts f v stop opened = t.firsts f v stop opened := by
  induction opened with
  | nil => rfl
  | cons o later ih =>
    have bound : (later.head?.map (·.reads)).getD stop ≤ t.size := by
      cases later with
      | nil => exact within
      | cons p _ => exact known p (by simp)
    simp only [firsts, receivedGrow grows v bound, ih fun p member => known p (List.mem_cons_of_mem _ member)]

theorem firstsAt (t : ReadTable) (v : ValueId) (stop : Nat) (before later : List OpenedPath) (o : OpenedPath) :
    (t.firsts o.fork v stop (before ++ o :: later))[before.countP (·.fork = o.fork)]? =
      some (t.received? v o.reads ((later.head?.map (·.reads)).getD stop)) := by
  induction before with
  | nil => simp [firsts]
  | cons p rest ih =>
    rw [List.cons_append, firsts, List.countP_cons]
    by_cases same : p.fork = o.fork
    · simpa [same] using ih
    · simpa [same] using ih

/-! What happens to the slots. -/

theorem pathsPushed (t : ReadTable) (v : ValueId) (k : ReadKind) (x : ReadId) :
    (t.push v k).2.paths? x = if x.index = t.size then k.paths? else t.paths? x := by
  unfold paths? ReadTable.kind
  rw [getPush]
  split <;> rfl

theorem pathsSetEvent (t : ReadTable) (r : ReadId) (e : EventId) : (t.setEvent r e).paths? = t.paths? := by
  funext x
  rw [paths?, kindSetEvent, paths?]

theorem isReadOfPaths {slots : List (Option ReadId)} {taken : Nat} (here : t.paths? r = some (slots, taken)) :
    t.IsRead r := by
  by_contra outside
  rw [paths?, kindOutside outside] at here
  cases here

def fillLast (r : ReadId) (slots : List (Option ReadId) × Nat) : List (Option ReadId) × Nat :=
  (setLast slots.1 r, slots.2)

theorem pathsAppend (t : ReadTable) (last r x : ReadId) :
    (t.append last r).2.paths? x =
      if x = last then (t.paths? x).map (fillLast r) else t.paths? x := by
  have plain : t.paths? last = none →
      (if x = last then (t.paths? x).map (fillLast r) else t.paths? x) = t.paths? x := by
    intro bare
    split
    · rename_i here
      rw [here, bare]
      rfl
    · rfl
  cases kind : t.kind last with
  | single mask successor next =>
    have bare : t.paths? last = none := by rw [paths?, kind]; rfl
    rw [plain bare]
    cases next with
    | none => simpa only [append, kind] using congrFun (pathsKept (k := .single mask successor (some r)) bare.symm) x
    | some next => simp only [append, kind]
  | stub next target valid =>
    have bare : t.paths? last = none := by rw [paths?, kind]; rfl
    rw [plain bare]
    cases next with
    | none => simpa only [append, kind] using congrFun (pathsKept (k := .stub (some r) target valid) bare.symm) x
    | some next => simp only [append, kind]
  | fork reads slots taken =>
    have here := pathsFork kind
    simp only [append, kind, pathsSetKind, isReadOfPaths here, and_true]
    split
    · rename_i same
      rw [same, here]
      rfl
    · rfl

theorem appendOpen {slots : List (Option ReadId)} {taken : Nat} (here : t.paths? last = some (slots, taken))
    (nonempty : slots ≠ []) : (t.append last r).1 = none := by
  unfold append
  split <;> rename_i kind
  all_goals rw [paths?, kind] at here
  all_goals cases here
  simp [nonempty]

theorem appendShut {taken : Nat} (here : t.paths? last = some ([], taken)) : (t.append last r).1.isSome := by
  unfold append
  split <;> rename_i kind
  all_goals rw [paths?, kind] at here
  all_goals cases here
  rfl

theorem pathsOpen (t : ReadTable) (r x : ReadId) :
    (t.openPath r).paths? x =
      if x = r then (t.paths? x).map fun (slots, taken) => (slots ++ [none], taken) else t.paths? x := by
  unfold openPath
  split
  · rename_i kind
    have known : t.IsRead r := by
      by_contra outside
      rw [kindOutside outside] at kind
      cases kind
    rw [pathsSetKind]
    split <;> simp_all [paths?, ReadKind.paths?]
  · rename_i other
    split
    · rename_i here
      subst here
      cases kind : t.kind x with
      | single | stub => simp [paths?, kind, ReadKind.paths?]
      | fork => exact (other _ _ _ kind).elim
    · rfl

end ReadTable

namespace State

variable {s s' t : State} {v w : ValueId} {k : ReadKind} {f g : ForkId} {opened : List OpenedPath}

def captured (s : State) (f : ForkId) : List ValueId := (s.forkAt f).forks.map (·.1)

def Endows (s s' : State) : Prop := s' = { s with values := s'.values, reads := s'.reads }

instance : Std.Refl Endows := ⟨fun _ => rfl⟩

instance : Trans Endows Endows Endows := ⟨fun first second => by rw [Endows, second, first]⟩

structure Prolongs (v : ValueId) (r : ReadId) (s s' : State) : Prop where
  endows : s.Endows s'
  values : s'.values.size = s.values.size
  size : s'.reads.size = s.reads.size
  grows : s.reads.Grows s'.reads
  paths : ∀ x, s'.reads.paths? x =
    if (s.value v).lastRead = some x then (s.reads.paths? x).map (ReadTable.fillLast r)
    else s.reads.paths? x
  others : ∀ w, w ≠ v → (s'.value w).lastRead = (s.value w).lastRead
  own : (s'.value v).lastRead = (s.value v).lastRead ∨ (s'.value v).lastRead = some r
  follows : s.IsValue v → (∀ last, (s.value v).lastRead = some last →
    ∃ slots taken, s.reads.paths? last = some (slots, taken) ∧ slots ≠ []) → (s'.value v).lastRead = some r

theorem prolongsLink (v : ValueId) (r : ReadId) (s : State) : s.Prolongs v r (after (linkRead none v r) s) := by
  have others : ∀ (t : State) (f : Value → Value) w, w ≠ v → (t.modifyValue v f).value w = t.value w :=
    fun t f w other => by rw [valueModify, if_neg fun here => other here.1]
  have own : ∀ t : State, ((t.modifyValue v fun d => { d with lastRead := some r }).value v).lastRead = (t.value v).lastRead ∨
      ((t.modifyValue v fun d => { d with lastRead := some r }).value v).lastRead = some r := by
    intro t
    rw [valueModify]
    split
    · exact .inr rfl
    · exact .inl rfl
  have follows : ∀ t : State, t.IsValue v →
      ((t.modifyValue v fun d => { d with lastRead := some r }).value v).lastRead = some r :=
    fun t known => by rw [valueModify, if_pos ⟨rfl, known⟩]
  cases last : (s.value v).lastRead with
  | none =>
    have same : after (linkRead none v r) s =
        (s.modifyValue v fun d => { d with reads := some r }).modifyValue v fun d => { d with lastRead := some r } := by
      simp only [linkRead, after, getBind, last]
      rfl
    rw [same]
    have kept : ((s.modifyValue v fun d => { d with reads := some r }).value v).lastRead = (s.value v).lastRead := by
      rw [valueModify]
      split <;> rfl
    refine ⟨rfl, by simp, rfl, .refl _, fun x => by simp [last]; rfl, fun w other => ?_, ?_, fun known _ => ?_⟩
    · rw [others _ _ _ other, others _ _ _ other]
    · exact (own _).imp_left fun same => same.trans kept
    · exact follows _ (by simpa [IsValue] using known)
  | some last' =>
    have paths : ∀ x, (s.reads.append last' r).2.paths? x =
        if (s.value v).lastRead = some x then (s.reads.paths? x).map (ReadTable.fillLast r)
        else s.reads.paths? x := fun x => by
      rw [ReadTable.pathsAppend]
      simp only [last, Option.some.injEq, eq_comm]
    have size : (s.reads.append last' r).2.size = s.reads.size := by
      unfold ReadTable.append
      split
      all_goals first
        | exact ReadTable.sizeSetKind ..
        | rfl
    cases failed : (s.reads.append last' r).1 with
    | none =>
      have same : after (linkRead none v r) s =
          State.modifyValue { s with reads := (s.reads.append last' r).2 } v fun d => { d with lastRead := some r } := by
        simp only [linkRead, after, getBind, last, failed]
        rfl
      rw [same]
      exact ⟨rfl, by simp, size, ReadTable.growsAppend .., paths, fun w other => by rw [others _ _ _ other]; rfl, own _,
        fun known _ => follows _ known⟩
    | some error =>
      have same : after (linkRead none v r) s = { s with reads := (s.reads.append last' r).2 } := by
        simp only [linkRead, after, getBind, last, failed]
        rfl
      rw [same]
      refine ⟨rfl, rfl, size, ReadTable.growsAppend .., paths, fun _ _ => rfl, .inl rfl, fun _ opened => ?_⟩
      obtain ⟨slots, taken, here, nonempty⟩ := opened last' last
      rw [ReadTable.appendOpen here nonempty] at failed
      cases failed

structure Receives (v : ValueId) (k : ReadKind) (s s' : State) : Prop where
  new : k.IsNew
  forks : s'.forks = s.forks
  values : s'.values.size = s.values.size
  size : s'.reads.size = s.reads.size + 1
  grows : s.reads.Grows s'.reads
  value : s'.reads.value ⟨s.reads.size⟩ = v
  paths : ∀ x, s.reads.IsRead x → s'.reads.paths? x =
    if (s.value v).lastRead = some x then
      (s.reads.paths? x).map (ReadTable.fillLast ⟨s.reads.size⟩)
    else s.reads.paths? x
  last : s'.reads.paths? ⟨s.reads.size⟩ = k.paths?
  others : ∀ w, w ≠ v → (s'.value w).lastRead = (s.value w).lastRead
  own : (s'.value v).lastRead = (s.value v).lastRead ∨ (s'.value v).lastRead = some ⟨s.reads.size⟩
  follows : s.IsValue v → (∀ last, (s.value v).lastRead = some last →
      ∃ slots taken, s.reads.paths? last = some (slots, taken) ∧ slots ≠ []) →
    (s'.value v).lastRead = some ⟨s.reads.size⟩

theorem Receives.bare (receives : s.Receives v k s') {slots : List (Option ReadId)} {taken : Nat}
    (last : s'.reads.paths? ⟨s.reads.size⟩ = some (slots, taken)) : slots = [] := by
  have new := receives.new
  rw [receives.last] at last
  cases k with
  | single | stub => cases last
  | fork reads paths taken =>
    cases last
    exact new.2

theorem receivesNew (drafted : s.Drafted) (e : Option EventId) (v : ValueId) (new : k.IsNew) :
    s.Receives v k (after (linkRead e v (s.reads.push v k).1) { s with reads := (s.reads.push v k).2 }) := by
  have here := ReadTable.readOfPush s.reads v k
  have linked : ∀ u : State, u.forks = s.forks → u.values = s.values → u.reads.size = s.reads.size + 1 →
      u.reads.paths? = (s.reads.push v k).2.paths? → (s.reads.push v k).2.Grows u.reads →
      s.Receives v k (after (linkRead none v ⟨s.reads.size⟩) u) := by
    intro u forks values size paths pushed
    have prolongs := prolongsLink v ⟨s.reads.size⟩ u
    have value : u.value = s.value := by funext w; simp only [State.value, values]
    have old : ∀ x, s.reads.IsRead x → u.reads.paths? x = s.reads.paths? x := fun x known => by
      rw [paths, ReadTable.pathsPushed, if_neg (Nat.ne_of_lt known)]
    refine ⟨new, by rw [prolongs.endows]; exact forks, prolongs.values.trans (congrArg Array.size values),
      prolongs.size.trans size, ((ReadTable.growsPush ..).trans pushed).trans prolongs.grows,
      ((here.grow pushed).grow prolongs.grows).value, fun x known => ?_, ?_, fun w other => ?_, ?_, fun known opened => ?_⟩
    · rw [prolongs.paths, value, old x known]
    · rw [prolongs.paths, paths, ReadTable.pathsPushed, if_pos rfl, value, if_neg]
      exact fun same => absurd (drafted.lasts v _ same).known (Nat.lt_irrefl s.reads.size)
    · rw [prolongs.others w other, value]
    · rw [← value]
      exact prolongs.own
    · refine prolongs.follows (by rwa [IsValue, values]) fun last same => ?_
      rw [value] at same
      rw [old last (drafted.lasts v last same).known]
      exact opened last same
  cases e with
  | none => exact linked _ rfl rfl (by simp [ReadTable.push, ReadTable.size]) rfl (.refl _)
  | some e =>
    exact linked _ rfl rfl (by simp [ReadTable.push, ReadTable.size, ReadTable.setEvent, modifyEvent])
      (ReadTable.pathsSetEvent ..) (ReadTable.growsSetEvent ..)

def openedFor (s : State) (v : ValueId) (opened : List OpenedPath) : List OpenedPath :=
  opened.filter fun o => v ∈ s.captured o.fork

structure Tracks (opened : List OpenedPath) (s : State) : Prop where
  known : ∀ o ∈ opened, o.fork.index < s.forks.size ∧ o.reads ≤ s.reads.size
  exist : ∀ f, ∀ v ∈ s.captured f, s.IsValue v
  distinct : ∀ f, (s.captured f).Nodup
  apart : ∀ f g, ∀ p ∈ (s.forkAt f).forks, ∀ q ∈ (s.forkAt g).forks, p.2 = q.2 → f = g
  slots : ∀ f, ∀ p ∈ (s.forkAt f).forks,
    s.reads.paths? p.2 = some (s.reads.firsts f p.1 s.reads.size (s.openedFor p.1 opened), 0)
  current : ∀ v, ∀ o ∈ (s.openedFor v opened).getLast?, ∀ r, (v, r) ∈ (s.forkAt o.fork).forks →
    (s.value v).lastRead = some r ∧ s.reads.received? v o.reads s.reads.size = none ∨
      ∃ last, (s.value v).lastRead = some last ∧ o.reads ≤ last.index ∧
        (s.reads.received? v o.reads s.reads.size).isSome
  bare : ∀ r slots taken, s.reads.paths? r = some (slots, taken) → slots = [] ∨
    ∃ f v, (v, r) ∈ (s.forkAt f).forks ∧ ∀ o ∈ (s.openedFor v opened).getLast?, r.index < o.reads

theorem Drafted.readOf (drafted : s.Drafted) {p : ValueId × ReadId} (member : p ∈ (s.forkAt f).forks) :
    s.reads.ReadOf p.1 p.2 := by
  rw [forkAt, Array.getD_eq_getD_getElem?] at member
  cases found : s.forks[f.index]? with
  | none =>
    rw [found] at member
    exact absurd member List.not_mem_nil
  | some d =>
    rw [found] at member
    exact drafted.forks d (Array.mem_of_getElem? found) p member

namespace Receives

variable (receives : s.Receives v k s')

include receives

theorem forkAt : s'.forkAt = s.forkAt := by
  funext f
  simp only [State.forkAt, receives.forks]

theorem captured : s'.captured = s.captured := by
  funext f
  simp only [State.captured, receives.forkAt]

theorem received (w : ValueId) {first : Nat} (within : first ≤ s.reads.size) :
    s'.reads.received? w first s'.reads.size =
      (s.reads.received? w first s.reads.size).or (if v = w then some ⟨s.reads.size⟩ else none) := by
  rw [receives.size, ReadTable.receivedNext _ _ within, receives.value, ReadTable.receivedGrow receives.grows _ le_rfl]

end Receives

theorem openedForLast {o : OpenedPath} (last : o ∈ (s.openedFor v opened).getLast?) : o ∈ opened ∧ v ∈ s.captured o.fork := by
  simpa [openedFor] using List.mem_of_mem_getLast? last

namespace Tracks

variable (tracks : s.Tracks opened) (receives : s.Receives v k s')

include tracks receives

theorem currentReceive (w : ValueId) {o : OpenedPath} (last : o ∈ (s.openedFor w opened).getLast?) {r : ReadId}
    (member : (w, r) ∈ (s.forkAt o.fork).forks) :
    (s'.value w).lastRead = some r ∧ s'.reads.received? w o.reads s'.reads.size = none ∨
      ∃ last, (s'.value w).lastRead = some last ∧ o.reads ≤ last.index ∧
        (s'.reads.received? w o.reads s'.reads.size).isSome := by
  have young := (tracks.known o (openedForLast last).1).2
  rw [receives.received w young]
  have current := tracks.current w o last r member
  by_cases own : w = v
  · subst own
    rcases current with ⟨first, -⟩ | ⟨r', later, old, some⟩
    · have here : s.IsValue w := tracks.exist o.fork w (List.mem_map_of_mem member)
      refine .inr ⟨⟨s.reads.size⟩, ?_, young, by simp⟩
      refine receives.follows here fun r' same => ?_
      rw [same] at first
      cases first
      refine ⟨_, 0, tracks.slots o.fork (w, r) member, fun empty => ?_⟩
      exact ReadTable.firstsEmpty empty o (List.mem_of_mem_getLast? last) rfl
    · rw [Option.or_of_isSome some]
      refine .inr ?_
      rcases receives.own with same | new
      · exact ⟨r', same.trans later, old, some⟩
      · exact ⟨_, new, young, some⟩
  · simpa [receives.others _ own, Ne.symm own] using current

variable (drafted : s.Drafted)

include drafted

theorem slotsReceive {p : ValueId × ReadId} (member : p ∈ (s.forkAt f).forks) :
    s'.reads.paths? p.2 = some (s'.reads.firsts f p.1 s'.reads.size (s.openedFor p.1 opened), 0) := by
  have of := drafted.readOf member
  have slots := tracks.slots f p member
  have known : ∀ o ∈ s.openedFor p.1 opened, o.reads ≤ s.reads.size := fun o member =>
    (tracks.known o (List.mem_of_mem_filter member)).2
  rw [receives.paths p.2 of.known, slots]
  rcases List.eq_nil_or_concat' (s.openedFor p.1 opened) with none | ⟨before, o, split⟩
  · rw [none]
    split <;> rfl
  have last : o ∈ (s.openedFor p.1 opened).getLast? := by simp [split]
  have inside := (openedForLast last).2
  have current := tracks.current p.1 o last
  rw [split] at slots known ⊢
  have earlier : s'.reads.firsts f p.1 o.reads before = s.reads.firsts f p.1 o.reads before :=
    ReadTable.firstsGrow receives.grows f p.1 (known o (by simp)) fun q member => known q (by simp [member])
  rw [ReadTable.firstsConcat s'.reads, earlier, receives.received p.1 (known o (by simp))]
  split
  · rename_i goes
    have own : p.1 = v := of.value.symm.trans (drafted.lasts v p.2 goes).value
    obtain ⟨⟨w, r⟩, there, value⟩ := List.mem_map.mp inside
    cases value
    rcases current r there with ⟨first, none⟩ | ⟨r', later, young, -⟩
    · rw [own, goes] at first
      have same := tracks.apart f o.fork p member _ there (Option.some.inj first)
      rw [own] at none
      rw [ReadTable.firstsConcat, if_pos same.symm, if_pos same.symm, own, none]
      simp [ReadTable.fillLast, ReadTable.setLast]
    · rw [own, goes] at later
      cases later
      rcases tracks.bare _ _ _ slots with empty | ⟨g, w, there', old⟩
      · have other := ReadTable.firstsEmpty empty
        rw [empty, if_neg (other o (by simp)), ReadTable.firstsNone fun q member => other q (by simp [member])]
        rfl
      · have same : w = p.1 := (drafted.readOf there').value.symm.trans of.value
        exact absurd (old o (same ▸ last)) (Nat.not_lt.mpr young)
  · rename_i elsewhere
    rw [ReadTable.firstsConcat]
    split
    · rename_i here
      subst here
      rcases current p.2 member with ⟨first, -⟩ | ⟨-, -, -, some⟩
      · split
        · rename_i own
          exact absurd (own ▸ first) elsewhere
        · rw [Option.or_none]
      · rw [Option.or_of_isSome some]
    · rfl

theorem receive : s'.Tracks opened := by
  have isValue : ∀ w, s'.IsValue w ↔ s.IsValue w := fun w => by rw [IsValue, receives.values, IsValue]
  have openedFor : s'.openedFor = s.openedFor := by funext w opened; simp only [State.openedFor, receives.captured]
  refine ⟨fun o member => ?_, ?_, ?_, ?_, fun f p member => ?_, fun w o last r member => ?_, fun r slots taken here => ?_⟩
  · rw [receives.forks, receives.size]
    exact ⟨(tracks.known o member).1, (tracks.known o member).2.trans (Nat.le_succ _)⟩
  · simpa only [receives.captured, isValue] using tracks.exist
  · simpa only [receives.captured] using tracks.distinct
  · simpa only [receives.forkAt] using tracks.apart
  · rw [receives.forkAt] at member
    rw [openedFor]
    exact tracks.slotsReceive receives drafted member
  · rw [receives.forkAt] at member
    rw [openedFor] at last
    exact tracks.currentReceive receives w last member
  · have known : r.index < s'.reads.size := ReadTable.isReadOfPaths here
    rw [receives.forkAt, openedFor]
    rcases Nat.lt_succ_iff_lt_or_eq.mp (receives.size ▸ known) with old | new
    · rw [receives.paths r old] at here
      split at here
      · obtain ⟨p, before, filled⟩ := Option.map_eq_some_iff.mp here
        refine (tracks.bare r p.1 p.2 before).imp_left fun empty => ?_
        rw [ReadTable.fillLast, empty] at filled
        cases filled
        rfl
      · exact tracks.bare r slots taken here
    · obtain ⟨n⟩ := r
      cases new
      exact .inl (receives.bare here)

end Tracks

structure Silent (s s' : State) : Prop where
  reads : s'.reads = s.reads
  forks : s'.forks = s.forks
  values : s.values.size ≤ s'.values.size
  lasts : ∀ v, (s'.value v).lastRead = (s.value v).lastRead

theorem Silent.still (reads : s'.reads = s.reads) (forks : s'.forks = s.forks) (values : s'.values = s.values) :
    s.Silent s' :=
  ⟨reads, forks, by rw [values], fun v => by rw [value, value, values]⟩

theorem Tracks.silent (tracks : s.Tracks opened) (silent : s.Silent s') : s'.Tracks opened := by
  have fork : s'.forkAt = s.forkAt := by funext f; simp only [forkAt, silent.forks]
  have captured : s'.captured = s.captured := by funext f; simp only [State.captured, fork]
  have openedFor : s'.openedFor = s.openedFor := by funext w opened; simp only [State.openedFor, captured]
  refine ⟨?_, fun f v member => ?_, ?_, ?_, ?_, ?_, ?_⟩
  · simpa only [silent.reads, silent.forks] using tracks.known
  · rw [captured] at member
    exact (tracks.exist f v member).trans_le silent.values
  · simpa only [captured] using tracks.distinct
  · simpa only [fork] using tracks.apart
  · simpa only [fork, openedFor, silent.reads] using tracks.slots
  · simpa only [fork, openedFor, silent.reads, silent.lasts] using tracks.current
  · simpa only [fork, openedFor, silent.reads] using tracks.bare

structure Supplies (s s' : State) : Prop where
  drafts : s.Drafts s'
  forks : s'.forks = s.forks
  values : s.values.size ≤ s'.values.size
  tracks : ∀ opened, s.Tracks opened → s'.Tracks opened

namespace Supplies

theorem ofSilent (drafts : s.Drafts s') (silent : s.Silent s') : s.Supplies s' :=
  ⟨drafts, silent.forks, silent.values, fun _ tracks => tracks.silent silent⟩

theorem refl (drafted : s.Drafted) : s.Supplies s := .ofSilent (.refl drafted) (.still rfl rfl rfl)

theorem trans (first : s.Supplies t) (second : t.Supplies s') : s.Supplies s' :=
  ⟨first.drafts.trans second.drafts, second.forks.trans first.forks, first.values.trans second.values,
    fun opened tracks => second.tracks opened (first.tracks opened tracks)⟩

theorem ofReceives (drafted : s.Drafted) (drafts : s.Drafts s') (receives : s.Receives v k s') : s.Supplies s' :=
  ⟨drafts, receives.forks, receives.values.ge, fun _ tracks => tracks.receive receives drafted⟩

end Supplies

instance : Std.Refl fun s s' : State => s.Drafted → s.Supplies s' := ⟨fun _ => .refl⟩

instance : Trans (fun s s' : State => s.Drafted → s.Supplies s') (fun s s' : State => s.Drafted → s.Supplies s')
    fun s s' : State => s.Drafted → s.Supplies s' :=
  ⟨fun first second drafted => (first drafted).trans (second (first drafted).drafts.drafted)⟩

end State

abbrev Build.Supplies {α : Type} (act : Build α) : Prop := Within (fun s s' : State => s.Drafted → s.Supplies s') act

section

variable {s s' t : State} {v : ValueId}

theorem silentNewValue (s : State) (kind : ValueKind) : s.Silent (s.newValue kind).2 := by
  refine ⟨rfl, rfl, by simp [newValue], fun w => ?_⟩
  rw [valueNew]
  split
  · rename_i here
    rw [here, valueOutside s (v := ⟨s.values.size⟩) (Nat.lt_irrefl s.values.size)]
    rfl
  · rfl

theorem lastModify (s : State) (w : ValueId) {f : Value → Value} (same : ∀ d, (f d).lastRead = d.lastRead) (x : ValueId) :
    ((s.modifyValue w f).value x).lastRead = (s.value x).lastRead := by
  rw [valueModify]
  split
  · rename_i here
    rw [same, here.1]
  · rfl

theorem silentNewValueAt (s : State) (kind : ValueKind) (site : Site) : s.Silent (s.newValueAt kind site).2 := by
  have valued := silentNewValue s kind
  have placed : s.Silent (((s.newValue kind).2.newSite site).2.modifyValue (s.newValue kind).1
      fun d => { d with sites := d.sites ++ [((s.newValue kind).2.newSite site).1] }) := by
    refine ⟨rfl, rfl, valued.values.trans (by simp [newSite]), fun w => ?_⟩
    exact (lastModify _ _ (by exact fun _ => rfl) w).trans (valued.lasts w)
  cases site with
  | register mask number => exact ⟨placed.reads, placed.forks, placed.values, placed.lasts⟩
  | constant | address | memory => exact placed

theorem suppliesTells : Tells fun s s' : State => s.Drafted → s.Supplies s' where
  rest rest drafted := .ofSilent (draftsRest drafted rest) (by rw [rest]; exact .still rfl rfl rfl)
  home s v home drafted := .ofSilent (draftsTells.home s v home drafted)
    ⟨rfl, rfl, (sizeModifyValue ..).ge, lastModify s v (by exact fun _ => rfl)⟩
  value s kind drafted := .ofSilent (draftsNewValue drafted kind) (silentNewValue s kind)
  valueAt s kind _ nameable drafted := .ofSilent (draftsNewValueAt drafted kind nameable) (silentNewValueAt s kind _)
  read _ e v _ new drafted := .ofReceives drafted (draftsGive drafted e v new) (receivesNew drafted e v new)

/-! Saving a state. -/

namespace Method

def gatherForks : Build (List ValueId × List (ValueId × ReadId)) := do
  ensureEvent
  let saved := (← get).saved
  modify fun s => { s with saved := [] }
  let s ← get
  let values := if s.predecessor.isSome then s.frames.values s.stack s.locals ++ saved else []
  let forks ← values.mapM giveFork
  return (saved, forks)

theorem captureGathers : captureState = gatherForks >>= fun p => keepFork p.1 p.2 := by
  simp only [gatherForks, bind_assoc, pure_bind]
  rfl

theorem suppliesGather : gatherForks.Supplies := by
  refine .bind (suppliesTells.links linksEnsureEvent) fun _ => .bind .get fun _ => ?_
  refine .bind (suppliesTells.changes fun _ => rfl) fun _ => .bind .get fun _ => .bind (.mapM fun v => ?_) fun _ => .pure
  exact suppliesTells.given v (k := .fork [] [] 0) ⟨rfl, rfl⟩ fun r => (v, r)

end Method

def State.Spent (v : ValueId) (s : State) : Prop :=
  ∃ r, (s.value v).lastRead = some r ∧ s.reads.paths? r = some ([], 0)

namespace State.Receives

variable {k : ReadKind} {w : ValueId}

theorem bareStays (receives : s.Receives v k s') {x : ReadId} (bare : s.reads.paths? x = some ([], 0)) :
    s'.reads.paths? x = some ([], 0) := by
  rw [receives.paths x (ReadTable.isReadOfPaths bare), bare]
  split <;> rfl

theorem spentStays (receives : s.Receives v (.fork [] [] 0) s') (spent : s.Spent w) : s'.Spent w := by
  obtain ⟨r, last, bare⟩ := spent
  by_cases own : w = v
  · subst own
    rcases receives.own with same | new
    · exact ⟨r, same.trans last, receives.bareStays bare⟩
    · exact ⟨_, new, receives.last⟩
  · exact ⟨r, (receives.others w own).trans last, receives.bareStays bare⟩

end State.Receives

theorem linkedOk {r : ReadId} (ok : linkRead none v r s = .ok () t) (known : s.IsValue v) :
    (t.value v).lastRead = some r ∧ ∀ last, (s.value v).lastRead = some last → (s.reads.append last r).1 = none := by
  have ends : ∀ u : State, u.IsValue v → ((u.modifyValue v fun d => { d with lastRead := some r }).value v).lastRead = some r :=
    fun u known => by rw [valueModify, if_pos ⟨rfl, known⟩]
  cases last : (s.value v).lastRead with
  | none =>
    simp only [linkRead, getBind, last] at ok
    cases ok
    exact ⟨ends _ (by simpa [IsValue] using known), by simp⟩
  | some last' =>
    cases failed : (s.reads.append last' r).1 with
    | none =>
      simp only [linkRead, getBind, last, failed] at ok
      cases ok
      exact ⟨ends _ known, fun _ same => by cases same; exact failed⟩
    | some error =>
      simp only [linkRead, getBind, last, failed] at ok
      cases ok

namespace Method

theorem gaveFork {p : ValueId × ReadId} (drafted : s.Drafted) (known : s.IsValue v) (gave : giveFork v s = .ok p t) :
    p = (v, ⟨s.reads.size⟩) ∧ s.Receives v (.fork [] [] 0) t ∧ t.Spent v ∧ ¬ s.Spent v := by
  rw [giveFork, modifyGetBind] at gave
  obtain ⟨⟨⟩, u, linked, same⟩ := bindOk.mp gave
  obtain ⟨rfl, rfl⟩ := pureOk.mp same
  have receives := receivesNew drafted none v (k := .fork [] [] 0) ⟨rfl, rfl⟩
  rw [show s.reads.push v (.fork [] [] 0) = s.reads.fork v from rfl, afterOk linked] at receives
  obtain ⟨last, follows⟩ := linkedOk linked known
  refine ⟨rfl, receives, ⟨_, last, receives.last⟩, ?_⟩
  rintro ⟨r, before, bare⟩
  have shut : (s.reads.fork v).2.paths? r = some ([], 0) := by
    rw [ReadTable.fork, ReadTable.pathsPushed, if_neg (Nat.ne_of_lt (ReadTable.isReadOfPaths bare)), bare]
  have failed := ReadTable.appendShut (r := (s.reads.fork v).1) shut
  rw [follows r before] at failed
  cases failed

theorem gaveForks (values : List ValueId) {forks : List (ValueId × ReadId)} (drafted : s.Drafted)
    (known : ∀ v ∈ values, s.IsValue v) (ran : values.mapM giveFork s = .ok forks t) :
    forks.map (·.1) = values ∧ values.Nodup ∧ (∀ v ∈ values, ¬ s.Spent v) ∧
      (∀ p ∈ forks, s.reads.size ≤ p.2.index ∧ t.reads.paths? p.2 = some ([], 0)) ∧
      ∀ x, s.reads.paths? x = some ([], 0) → t.reads.paths? x = some ([], 0) := by
  induction values generalizing s forks with
  | nil =>
    rw [List.mapM_nil] at ran
    obtain ⟨rfl, rfl⟩ := pureOk.mp ran
    exact ⟨rfl, List.nodup_nil, nofun, nofun, fun _ => id⟩
  | cons v rest ih =>
    rw [List.mapM_cons] at ran
    obtain ⟨p, u, gave, ran⟩ := bindOk.mp ran
    obtain ⟨ps, u', rest', same⟩ := bindOk.mp ran
    obtain ⟨rfl, rfl⟩ := pureOk.mp same
    obtain ⟨rfl, receives, spent, fresh⟩ := gaveFork drafted (known v List.mem_cons_self) gave
    have drafted' : u.Drafted := ((suppliesTells.given v (k := .fork [] [] 0) ⟨rfl, rfl⟩ fun r => (v, r)).holds gave
      drafted).drafts.drafted
    obtain ⟨values, distinct, others, given, stay⟩ := ih drafted' (fun w member => by
      rw [IsValue, receives.values]
      exact known w (List.mem_cons_of_mem _ member)) rest'
    refine ⟨by rw [List.map_cons, values], List.nodup_cons.mpr ⟨fun again => others v again spent, distinct⟩,
      List.forall_mem_cons.mpr ⟨fresh, fun w member spent => others w member (receives.spentStays spent)⟩,
      List.forall_mem_cons.mpr ⟨⟨le_rfl, stay _ receives.last⟩, fun q member => ?_⟩, fun x bare => stay x (receives.bareStays bare)⟩
    obtain ⟨young, bare⟩ := given q member
    have size := receives.size
    exact ⟨by omega, bare⟩

end Method

end

end Lowering
