import Lowering.Promise
import Mathlib.Data.List.Nodup
import Mathlib.Logic.Relation
/-!
Listeners are told once.

Whoever waits for a promise is told when it gets its value, and whoever comes later at once. Resolving goes from
promise to promise and may end early. Promises that it has passed have told their listeners, the others have not, and
the next attempt goes on from there.
-/
namespace Lowering

open Relation

structure Registration where
  promise : PromiseId
  listener : Nat
  deriving DecidableEq, Repr

namespace PromiseTable

def owed (t : PromiseTable) (g : Registration) : Option Notice := (t.value? g.promise).map (⟨g.listener, ·⟩)

end PromiseTable

def PromiseKind.target? (p : PromiseId) : PromiseKind → Option CodeTarget
  | .resolved _ => none
  | .machineIp ip => some (.ip ip)
  | .code => some (.promise p)
  | .pool _ => none

def PromiseTable.Stuck (t : PromiseTable) (l : CodeLayout) (p : PromiseId) (c : CodeTarget) : Prop :=
  p.index < t.size ∧ t.value? p = none ∧ (t.kind p).target? p = some c ∧ l.targets.find? c = none

/-- A table, everyone who listened to one of its promises, and every call of a listener. -/
structure PromiseLog where
  table : PromiseTable := {}
  registered : List Registration := []
  told : List Notice := []

namespace PromiseLog

inductive Step : PromiseLog → PromiseLog → Prop
  | create (h : PromiseLog) (kind : PromiseKind) : Step h { h with table := (h.table.create kind).2 }
  | listen (h : PromiseLog) (p : PromiseId) (n : Nat) (known : p.index < h.table.size) :
      Step h ⟨(h.table.listen p n).2, h.registered ++ [⟨p, n⟩], h.told ++ (h.table.listen p n).1⟩
  | resolve (h : PromiseLog) (l : CodeLayout) :
      Step h { h with table := ⟨(h.table.resolveAll l).promises⟩, told := h.told ++ (h.table.resolveAll l).notices }

structure Kept (h : PromiseLog) : Prop where
  waiting : ∀ (i : Nat) (d : Promise), h.table.promises[i]? = some d → d.value = none →
    d.waiting = (h.registered.filter (·.promise = ⟨i⟩)).map (·.listener)
  known : ∀ g ∈ h.registered, g.promise.index < h.table.size
  told : h.told.Perm (h.registered.filterMap h.table.owed)

end PromiseLog

variable {h h' : PromiseLog} {t u : PromiseTable} {l : CodeLayout} {done rest : List Promise} {d : Promise}
  {registered : List Registration} {told : List Notice} {p : PromiseId}

/-! Values. -/

def Promise.settled (d : Promise) (v : Int) : Promise := { d with value := some v, waiting := [] }

theorem getSettled (v : Int) (i : Nat) :
    (done ++ d.settled v :: rest)[i]? = if i = done.length then some (d.settled v) else (done ++ d :: rest)[i]? := by
  rcases Nat.lt_trichotomy i done.length with before | rfl | behind
  · rw [if_neg (Nat.ne_of_lt before), List.getElem?_append_left before, List.getElem?_append_left before]
  · simp
  · obtain ⟨k, rfl⟩ := Nat.exists_eq_add_of_lt behind
    rw [if_neg (Nat.ne_of_gt behind), List.getElem?_append_right (Nat.le_of_lt behind),
      List.getElem?_append_right (Nat.le_of_lt behind)]
    simp [Nat.add_assoc]

theorem valueSettled (v : Int) (p : PromiseId) : PromiseTable.value? ⟨done ++ d.settled v :: rest⟩ p =
    if p = ⟨done.length⟩ then some v else PromiseTable.value? ⟨done ++ d :: rest⟩ p := by
  rw [PromiseTable.value?, getSettled]
  by_cases same : p = ⟨done.length⟩
  · subst same
    simp [Promise.settled]
  · rw [if_neg same, if_neg fun h => same (congrArg PromiseId.mk h)]
    rfl

def PromiseTable.Lasts (t u : PromiseTable) : Prop := ∀ p v, t.value? p = some v → u.value? p = some v

theorem owedLater (lasts : t.Lasts u) : (registered.filterMap u.owed).Perm (registered.filterMap t.owed ++
    registered.filterMap fun g => if t.value? g.promise = none then u.owed g else none) := by
  induction registered with
  | nil => exact .refl _
  | cons g rest ih =>
    cases known : t.value? g.promise with
    | some v =>
      have before : t.owed g = some ⟨g.listener, v⟩ := by simp [PromiseTable.owed, known]
      have after : u.owed g = some ⟨g.listener, v⟩ := by simp [PromiseTable.owed, lasts _ _ known]
      rw [List.filterMap_cons_some after, List.filterMap_cons_some before, List.filterMap_cons_none (by simp [known])]
      exact ih.cons _
    | none =>
      have before : t.owed g = none := by simp [PromiseTable.owed, known]
      rw [List.filterMap_cons_none before]
      cases after : u.owed g with
      | none => rw [List.filterMap_cons_none after, List.filterMap_cons_none (by simp [after])]; exact ih
      | some n =>
        rw [List.filterMap_cons_some after, List.filterMap_cons_some (by simpa [known] using after)]
        exact (ih.cons n).trans List.perm_middle.symm

theorem owedSettled {v : Int} (before : t.value? p = none)
    (after : ∀ q, u.value? q = if q = p then some v else t.value? q) :
    (registered.filterMap fun g => if t.value? g.promise = none then u.owed g else none) =
      (registered.filter (·.promise = p)).map (⟨·.listener, v⟩) := by
  induction registered with
  | nil => rfl
  | cons g earlier ih =>
    by_cases same : g.promise = p
    · rw [List.filter_cons_of_pos (by simpa using same), List.map_cons, ← ih]
      exact List.filterMap_cons_some (by simp [PromiseTable.owed, same, before, after])
    · rw [List.filter_cons_of_neg (by simpa using same), ← ih]
      refine List.filterMap_cons_none ?_
      split
      · rename_i unset
        simp [PromiseTable.owed, after, same, unset]
      · rfl

/-! Steps. -/

namespace PromiseLog

theorem Kept.settle (kept : Kept ⟨⟨done ++ d :: rest⟩, registered, told⟩) (unset : d.value = none) (v : Int) :
    Kept ⟨⟨done ++ d.settled v :: rest⟩, registered, told ++ d.waiting.map (⟨·, v⟩)⟩ where
  waiting i x here without := by
    rw [getSettled] at here
    split at here
    · cases here
      cases without
    · exact kept.waiting i x here without
  known g member := by simpa [PromiseTable.size] using kept.known g member
  told := by
    have before : PromiseTable.value? ⟨done ++ d :: rest⟩ ⟨done.length⟩ = none := by
      simpa [PromiseTable.value?] using unset
    have lasts : PromiseTable.Lasts ⟨done ++ d :: rest⟩ ⟨done ++ d.settled v :: rest⟩ := by
      intro p w known
      rw [valueSettled, if_neg]
      · exact known
      · rintro rfl
        rw [before] at known
        cases known
    have waiting : d.waiting = _ := kept.waiting done.length d (by simp) unset
    refine (kept.told.append_right _).trans (.symm ((owedLater lasts).trans (.append_left _ (.of_eq ?_))))
    rw [waiting, List.map_map]
    exact owedSettled before (valueSettled v)

theorem Kept.resolveFrom (l : CodeLayout) (done rest : List Promise) {told : List Notice}
    (kept : Kept ⟨⟨done ++ rest⟩, registered, told⟩) : Kept ⟨⟨done ++ (PromiseTable.resolveFrom l done.length rest).promises⟩, registered,
      told ++ (PromiseTable.resolveFrom l done.length rest).notices⟩ := by
  induction rest generalizing done told with
  | nil => simpa [PromiseTable.resolveFrom] using kept
  | cons d rest ih =>
    cases known : d.value with
    | some v =>
      have later := ih (done ++ [d]) (by simpa using kept)
      simpa [PromiseTable.resolveFrom, known] using later
    | none =>
      cases given : l.value ⟨done.length⟩ d.kind with
      | error e => simpa [PromiseTable.resolveFrom, known, given] using kept
      | ok v =>
        have later := ih (done ++ [d.settled v]) (by simpa using kept.settle known v)
        simpa [PromiseTable.resolveFrom, known, given, Promise.settled] using later

theorem Kept.resolve (kept : Kept h) (l : CodeLayout) : Kept
    { h with table := ⟨(h.table.resolveAll l).promises⟩, told := h.told ++ (h.table.resolveAll l).notices } :=
  Kept.resolveFrom l [] h.table.promises kept

end PromiseLog

/-! How far resolving comes. -/

theorem valueError {e : Error} {kind : PromiseKind} : l.value p kind = .error e ↔
    ∃ c, kind.target? p = some c ∧ l.targets.find? c = none ∧ e = .unresolved (.neverBound c) := by
  have offset : ∀ c, (l.offset c).map (l.base + ·) = .error e ↔
      l.targets.find? c = none ∧ e = .unresolved (.neverBound c) := by
    intro c
    rw [CodeLayout.offset]
    cases l.targets.find? c <;> simp [Except.map, eq_comm]
  cases kind <;> simp [CodeLayout.value, PromiseKind.target?, offset]

/-- Resolving the promises `ps`, the first of which has the number `i`, comes as far as `k` of them. -/
structure PromiseTable.Reaches (l : CodeLayout) (i : Nat) (ps : List Promise) (k : Nat) : Prop where
  inside : k ≤ ps.length
  passed : ∀ (j : Nat) d, j < k → ps[j]? = some d → d.value = none →
    ∃ v, l.value ⟨i + j⟩ d.kind = .ok v ∧ (resolveFrom l i ps).promises[j]?.bind (·.value) = some v
  kept : ∀ (j : Nat) d, ps[j]? = some d → k ≤ j ∨ d.value ≠ none → (resolveFrom l i ps).promises[j]? = some d
  length : (resolveFrom l i ps).promises.length = ps.length
  done : (resolveFrom l i ps).error = none → k = ps.length
  failed : ∀ e, (resolveFrom l i ps).error = some e →
    ∃ d, ps[k]? = some d ∧ d.value = none ∧ l.value ⟨i + k⟩ d.kind = .error e

theorem PromiseTable.Reaches.cons {i k : Nat} (later : Reaches l (i + 1) rest k) (d' : Promise)
    (promises : (resolveFrom l i (d :: rest)).promises = d' :: (resolveFrom l (i + 1) rest).promises)
    (error : (resolveFrom l i (d :: rest)).error = (resolveFrom l (i + 1) rest).error)
    (first : d.value = none → ∃ v, l.value ⟨i⟩ d.kind = .ok v ∧ d'.value = some v) (same : d.value ≠ none → d' = d) :
    Reaches l i (d :: rest) (k + 1) where
  inside := Nat.succ_le_succ later.inside
  passed j x below here unset := by
    rw [promises]
    cases j with
    | zero =>
      cases here
      exact first unset
    | succ j =>
      have number : i + (j + 1) = i + 1 + j := by omega
      rw [number]
      exact later.passed j x (Nat.lt_of_succ_lt_succ below) here unset
  kept j x here stays := by
    rw [promises]
    cases j with
    | zero =>
      cases here
      exact congrArg some (same (stays.resolve_left (by omega)))
    | succ j => exact later.kept j x here (stays.imp_left Nat.le_of_succ_le_succ)
  length := by rw [promises, List.length_cons, List.length_cons, later.length]
  done ended := congrArg (· + 1) (later.done (error ▸ ended))
  failed e ended := by
    obtain ⟨x, here, unset, given⟩ := later.failed e (error ▸ ended)
    exact ⟨x, here, unset, by rwa [Nat.add_right_comm] at given⟩

theorem reaches (l : CodeLayout) (i : Nat) (ps : List Promise) : ∃ k, PromiseTable.Reaches l i ps k := by
  induction ps generalizing i with
  | nil => exact ⟨0, by constructor <;> simp [PromiseTable.resolveFrom]⟩
  | cons d rest ih =>
    obtain ⟨k, later⟩ := ih (i + 1)
    cases known : d.value with
    | some v =>
      refine ⟨k + 1, later.cons d ?_ ?_ (by simp [known]) fun _ => rfl⟩
      all_goals simp [PromiseTable.resolveFrom, known]
    | none =>
      cases given : l.value ⟨i⟩ d.kind with
      | error e =>
        refine ⟨0, by constructor <;> simp [PromiseTable.resolveFrom, known, given]⟩
      | ok v =>
        refine ⟨k + 1, later.cons (d.settled v) ?_ ?_ (fun _ => ⟨v, given, rfl⟩) (by simp [known])⟩
        all_goals simp [PromiseTable.resolveFrom, known, given, Promise.settled]

namespace PromiseTable

theorem kindOf (here : t.promises[p.index]? = some d) : t.kind p = d.kind := by rw [kind, here]

theorem valueOf (here : t.promises[p.index]? = some d) : t.value? p = d.value := by rw [value?, here]; rfl

theorem valueOutside (outside : t.size ≤ p.index) : t.value? p = none := by
  rw [value?, List.getElem?_eq_none outside]
  rfl

end PromiseTable

namespace PromiseLog

/-- What resolving does, if it comes to the promise numbered `k`. The promises before it get their values, unless they
have them, and tell their listeners. If there is such a promise, it is the first whose target is missing. -/
structure Resolves (h : PromiseLog) (l : CodeLayout) (r : PromiseTable.Resolution) (k : Nat) : Prop where
  inside : k ≤ h.table.size
  first : ∀ p c, p.index < k → ¬ h.table.Stuck l p c
  done : r.error = none → k = h.table.size
  failed : ∀ e, r.error = some e → ∃ c, h.table.Stuck l ⟨k⟩ c ∧ e = .unresolved (.neverBound c)
  resolved : ∀ p, p.index < k → h.table.value? p = none →
    ∃ v, l.value p (h.table.kind p) = .ok v ∧ PromiseTable.value? ⟨r.promises⟩ p = some v
  kept : ∀ p, k ≤ p.index ∨ h.table.value? p ≠ none → PromiseTable.value? ⟨r.promises⟩ p = h.table.value? p
  told : r.notices.Perm (h.registered.filterMap fun g =>
    if h.table.value? g.promise = none ∧ g.promise.index < k then PromiseTable.owed ⟨r.promises⟩ g else none)

theorem Kept.resolves (kept : Kept h) (l : CodeLayout) : ∃ k, h.Resolves l (h.table.resolveAll l) k := by
  obtain ⟨k, reaches⟩ := reaches l 0 h.table.promises
  have known : ∀ {p : PromiseId}, p.index < h.table.size → ∃ d, h.table.promises[p.index]? = some d := fun inside =>
    ⟨_, List.getElem?_eq_getElem inside⟩
  have resolved : ∀ p, p.index < k → h.table.value? p = none → ∃ v, l.value p (h.table.kind p) = .ok v ∧
      PromiseTable.value? ⟨(h.table.resolveAll l).promises⟩ p = some v := by
    intro p before unset
    obtain ⟨d, here⟩ := known (Nat.lt_of_lt_of_le before reaches.inside)
    rw [PromiseTable.valueOf here] at unset
    rw [PromiseTable.kindOf here]
    have passed := reaches.passed p.index d before here unset
    rwa [Nat.zero_add] at passed
  have stays : ∀ p, k ≤ p.index ∨ h.table.value? p ≠ none →
      PromiseTable.value? ⟨(h.table.resolveAll l).promises⟩ p = h.table.value? p := by
    intro p stays
    by_cases inside : p.index < h.table.size
    · obtain ⟨d, here⟩ := known inside
      rw [PromiseTable.valueOf here] at stays ⊢
      exact PromiseTable.valueOf (reaches.kept p.index d here stays)
    · rw [PromiseTable.valueOutside (Nat.not_lt.mp inside), PromiseTable.valueOutside]
      exact Nat.le_trans (Nat.le_of_eq reaches.length) (Nat.not_lt.mp inside)
  refine ⟨k, reaches.inside, fun p c before stuck => ?_, reaches.done, fun e ended => ?_, resolved, stays, ?_⟩
  · obtain ⟨-, unset, target, missing⟩ := stuck
    obtain ⟨v, given, -⟩ := resolved p before unset
    have failed := valueError.mpr ⟨c, target, missing, rfl⟩
    rw [given] at failed
    cases failed
  · obtain ⟨d, here, unset, given⟩ := reaches.failed e ended
    rw [Nat.zero_add] at given
    obtain ⟨c, target, missing, rfl⟩ := valueError.mp given
    have inside : k < h.table.size := (List.getElem?_eq_some_iff.mp here).1
    refine ⟨c, ⟨inside, (PromiseTable.valueOf here).trans unset, ?_, missing⟩, rfl⟩
    rwa [PromiseTable.kindOf (p := ⟨k⟩) here]
  · have lasts : h.table.Lasts ⟨(h.table.resolveAll l).promises⟩ := by
      intro p v set
      rw [stays p (.inr (by simp [set])), set]
    have told := (kept.told.append_right _).symm.trans ((kept.resolve l).told.trans (owedLater lasts))
    refine ((List.perm_append_left_iff _).mp told).trans (.of_eq (List.filterMap_congr fun g member => ?_))
    by_cases before : g.promise.index < k
    · simp [before]
    · simp only [before, and_false, if_false]
      split
      · rename_i unset
        rw [PromiseTable.owed, stays _ (.inl (Nat.not_lt.mp before)), unset]
        rfl
      · rfl

theorem Resolves.lasts {r : PromiseTable.Resolution} {k : Nat} (resolves : h.Resolves l r k) :
    h.table.Lasts ⟨r.promises⟩ := by
  intro p v set
  rw [resolves.kept p (.inr (by simp [set])), set]

/-! Histories. -/

theorem createAppends (t : PromiseTable) (kind : PromiseKind) :
    ∃ v, (t.create kind).2.promises = t.promises ++ [⟨kind, v, []⟩] := ⟨_, rfl⟩

theorem valueCreate (kind : PromiseKind) (inside : p.index < t.size) : (t.create kind).2.value? p = t.value? p := by
  obtain ⟨v, promises⟩ := createAppends t kind
  rw [PromiseTable.value?, promises, List.getElem?_append_left inside]
  rfl

theorem listenKnown {v : Int} (set : t.value? p = some v) (n : Nat) : t.listen p n = ([⟨n, v⟩], t) := by
  rw [PromiseTable.listen, set]

theorem listenUnset (unset : t.value? p = none) (n : Nat) : t.listen p n =
    ([], ⟨t.promises.modify p.index fun d => { d with waiting := d.waiting ++ [n] }⟩) := by
  rw [PromiseTable.listen, unset]

theorem valueListen (n : Nat) (q : PromiseId) : (t.listen p n).2.value? q = t.value? q := by
  cases known : t.value? p with
  | some v => rw [listenKnown known]
  | none =>
    rw [listenUnset known, PromiseTable.value?, PromiseTable.value?, List.getElem?_modify]
    cases t.promises[q.index]? with
    | none => rfl
    | some d => by_cases same : p.index = q.index <;> simp [same]

theorem sizeListen (n : Nat) : (t.listen p n).2.size = t.size := by
  cases known : t.value? p with
  | some v => rw [listenKnown known]
  | none => simp [listenUnset known, PromiseTable.size]

theorem Kept.create (kept : Kept h) (kind : PromiseKind) : Kept { h with table := (h.table.create kind).2 } where
  waiting i d here unset := by
    obtain ⟨v, promises⟩ := createAppends h.table kind
    rw [promises] at here
    by_cases inside : i < h.table.size
    · exact kept.waiting i d (by rwa [List.getElem?_append_left inside] at here) unset
    · -- nobody can have listened to the new promise
      rw [List.getElem?_append_right (Nat.not_lt.mp inside), List.getElem?_singleton] at here
      split at here
      · cases here
        refine Eq.symm (List.map_eq_nil_iff.mpr (List.filter_eq_nil_iff.mpr fun g member same => ?_))
        have below := kept.known g member
        rw [of_decide_eq_true same] at below
        exact inside below
      · cases here
  known g member := by
    obtain ⟨v, promises⟩ := createAppends h.table kind
    rw [PromiseTable.size, promises, List.length_append]
    exact Nat.lt_add_right _ (kept.known g member)
  told := by
    refine kept.told.trans (.of_eq (List.filterMap_congr fun g member => ?_))
    rw [PromiseTable.owed, PromiseTable.owed, valueCreate kind (kept.known g member)]

theorem Kept.listen (kept : Kept h) (n : Nat) (known : p.index < h.table.size) :
    Kept ⟨(h.table.listen p n).2, h.registered ++ [⟨p, n⟩], h.told ++ (h.table.listen p n).1⟩ where
  waiting i d here unset := by
    rw [List.filter_append, List.map_append]
    cases value : h.table.value? p with
    | some v =>
      rw [listenKnown value] at here
      have apart : p ≠ ⟨i⟩ := by
        rintro rfl
        rw [PromiseTable.valueOf (p := ⟨i⟩) here, unset] at value
        cases value
      simpa [apart] using kept.waiting i d here unset
    | none =>
      simp only [listenUnset value, List.getElem?_modify, Option.map_eq_map, Option.map_eq_some_iff] at here
      obtain ⟨x, old, rfl⟩ := here
      by_cases same : p.index = i
      · subst same
        simp only [if_true] at unset
        simpa using kept.waiting p.index x old unset
      · have apart : p ≠ ⟨i⟩ := fun h => same (congrArg PromiseId.index h)
        simp only [if_neg same] at unset ⊢
        simpa [apart] using kept.waiting i x old unset
  known g member := by
    rw [sizeListen]
    rcases List.mem_append.mp member with earlier | new
    · exact kept.known g earlier
    · rw [List.mem_singleton.mp new]
      exact known
  told := by
    have same : (h.table.listen p n).2.owed = h.table.owed := by
      funext g
      rw [PromiseTable.owed, valueListen]
      rfl
    rw [List.filterMap_append, same]
    refine kept.told.append (.of_eq ?_)
    cases value : h.table.value? p with
    | some v => simp [listenKnown value, PromiseTable.owed, value]
    | none => simp [listenUnset value, PromiseTable.owed, value]

theorem Kept.step (kept : Kept h) (step : Step h h') : Kept h' := by
  cases step with
  | create kind => exact kept.create kind
  | listen p n known => exact kept.listen n known
  | resolve l => exact kept.resolve l

theorem Kept.run (kept : Kept h) (steps : ReflTransGen Step h h') : Kept h' := by
  induction steps with
  | refl => exact kept
  | tail _ step ih => exact ih.step step

theorem keptEmpty : Kept {} := ⟨by simp, by simp, .refl _⟩

theorem lastsCreate (kind : PromiseKind) : t.Lasts (t.create kind).2 := by
  intro p v set
  rw [valueCreate kind, set]
  by_contra outside
  rw [PromiseTable.valueOutside (Nat.not_lt.mp outside)] at set
  cases set

theorem Kept.lasts (kept : Kept h) (steps : ReflTransGen Step h h') : h.table.Lasts h'.table := by
  induction steps with
  | refl => exact fun _ _ set => set
  | tail before step ih =>
    intro p v set
    have set := ih p v set
    cases step with
    | create kind => exact lastsCreate kind p v set
    | listen q n known => exact (valueListen n p).trans set
    | resolve l =>
      obtain ⟨k, resolves⟩ := (kept.run before).resolves l
      exact resolves.lasts p v set

theorem Kept.toldOnce (kept : Kept h) (apart : (h.registered.map (·.listener)).Nodup) {g : Registration}
    (member : g ∈ h.registered) : h.told.filter (·.listener = g.listener) = (h.table.owed g).toList := by
  have same : ∀ x ∈ h.registered, decide (x.listener = g.listener) = decide (x = g) := fun x here =>
    decide_eq_decide.mpr ⟨List.inj_on_of_nodup_map apart here member, congrArg _⟩
  have own : h.registered.filter (·.listener = g.listener) = [g] := by
    rw [List.filter_congr same, List.filter_eq, List.count_eq_one_of_mem apart.of_map member]
    rfl
  have calls : (h.registered.filterMap h.table.owed).filter (·.listener = g.listener) =
      (h.registered.filter (·.listener = g.listener)).filterMap h.table.owed := by
    rw [List.filter_filterMap, List.filterMap_filter]
    refine List.filterMap_congr fun x _ => ?_
    by_cases here : x.listener = g.listener <;> cases value : h.table.value? x.promise <;>
      simp [PromiseTable.owed, here, value]
  have told := kept.told.filter (·.listener = g.listener)
  rw [calls, own] at told
  cases owed : h.table.owed g with
  | none => exact List.perm_nil.mp (by simpa [owed] using told)
  | some n => exact List.perm_singleton.mp (by simpa [owed] using told)

end PromiseLog

theorem listenersAreToldOnce {h h' : PromiseLog} (before : ReflTransGen PromiseLog.Step {} h)
    (later : ReflTransGen PromiseLog.Step h h') :
    (∀ p v, h.table.value? p = some v → h'.table.value? p = some v) ∧
      h'.told.Perm (h'.registered.filterMap h'.table.owed) ∧
      ((h'.registered.map (·.listener)).Nodup → ∀ g ∈ h'.registered,
        h'.told.filter (·.listener = g.listener) = (h'.table.owed g).toList) ∧
      ∀ l, ∃ k, h'.Resolves l (h'.table.resolveAll l) k := by
  have kept := PromiseLog.keptEmpty.run before
  have kept' := kept.run later
  exact ⟨kept.lasts later, kept'.told, fun apart g member => kept'.toldOnce apart member, kept'.resolves⟩

namespace PromiseLog

def waiting : PromiseLog where
  table := ⟨[⟨.machineIp 3, none, [0]⟩, ⟨.code, none, [1]⟩, ⟨.pool 1, none, [2]⟩, ⟨.resolved 42, some 42, []⟩]⟩
  registered := [⟨⟨0⟩, 0⟩, ⟨⟨1⟩, 1⟩, ⟨⟨2⟩, 2⟩, ⟨⟨3⟩, 3⟩]
  told := [⟨3, 42⟩]

def unfinished : CodeLayout := ⟨4096, 30, [(.ip 3, 10)]⟩

def interrupted : PromiseLog where
  table := ⟨[⟨.machineIp 3, some 4106, []⟩, ⟨.code, none, [1]⟩, ⟨.pool 1, none, [2]⟩, ⟨.resolved 42, some 42, []⟩]⟩
  registered := [⟨⟨0⟩, 0⟩, ⟨⟨1⟩, 1⟩, ⟨⟨2⟩, 2⟩, ⟨⟨3⟩, 3⟩, ⟨⟨0⟩, 4⟩]
  told := [⟨3, 42⟩, ⟨0, 4106⟩, ⟨4, 4106⟩]

end PromiseLog

open PromiseLog in
theorem interruptedTellsOnce : interrupted.table.value? ⟨3⟩ = some 42 ∧
    interrupted.told.filter (·.listener = 4) = [⟨4, 4106⟩] ∧ interrupted.told.filter (·.listener = 2) = [] ∧
      ∃ k, interrupted.Resolves unfinished (interrupted.table.resolveAll unfinished) k := by
  have before : ReflTransGen Step {} waiting := by
    refine .head (.create _ (.machineIp 3)) (.head (.create _ .code) (.head (.create _ (.pool 1)) ?_))
    refine .head (.create _ (.resolved 42)) (.head (.listen _ ⟨0⟩ 0 (by decide)) ?_)
    refine .head (.listen _ ⟨1⟩ 1 (by decide)) (.head (.listen _ ⟨2⟩ 2 (by decide)) (.single ?_))
    exact .listen _ ⟨3⟩ 3 (by decide)
  have later : ReflTransGen Step waiting interrupted :=
    .head (.resolve _ unfinished) (.single (.listen _ ⟨0⟩ 4 (by decide)))
  obtain ⟨lasts, -, once, resolves⟩ := listenersAreToldOnce before later
  exact ⟨lasts ⟨3⟩ 42 rfl, once (by decide) ⟨⟨0⟩, 4⟩ (by decide), once (by decide) ⟨⟨2⟩, 2⟩ (by decide), resolves unfinished⟩

end Lowering
