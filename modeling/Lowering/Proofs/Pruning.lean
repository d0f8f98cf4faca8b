import Lowering.Proofs.Decision
/-!
Pruning cannot be observed.

A read that is being asked is marked, and when it is met again it answers at once. So a question comes to an end
wherever stubs lead, even back to where it came from, and the marks it leaves are those it found. On the way it drops
entries of forks and targets of stubs. What it drops was never pending, so no question changes the answer to another.
-/
namespace Lowering.ReadTable

variable {t u : ReadTable} {r : ReadId} {reads entered : List ReadId}

structure Marked where
  table : ReadTable
  marks : ReadId → Bool

namespace Marked

def mark (m : Marked) (r : ReadId) : Marked := { m with marks := fun x => x == r || m.marks x }

def unmark (m : Marked) (r : ReadId) : Marked := { m with marks := fun x => x != r && m.marks x }

def prune (m : Marked) (r : ReadId) (kept : List ReadId) : Marked := { m with table := m.table.prune r kept }

def dropTarget (m : Marked) (r : ReadId) : Marked := { m with table := m.table.dropTarget r }

def keep (test : Marked → ReadId → Option (Bool × Marked)) : List ReadId → Marked → Option (List ReadId × Marked)
  | [], m => some ([], m)
  | r :: rest, m => do
    let (ok, m) ← test m r
    let (kept, m) ← keep test rest m
    return (if ok then r :: kept else kept, m)

/-- Whether `r` still stands for a future use. There is no answer if reads are asked more than `fuel` deep. -/
def valid : Nat → Marked → ReadId → Option (Bool × Marked)
  | 0, _, _ => none
  | fuel + 1, m, r =>
    match m.table.kind r with
    | .single _ _ _ => some (true, m)
    | .stub _ _ valid => some (valid, m)
    | .fork reads _ _ =>
      if m.marks r then some (false, m)
      else do
        let (kept, m) ← keep (valid fuel) reads (m.mark r)
        return (!kept.isEmpty, (m.prune r kept).unmark r)

def narrowEach (narrow : Marked → ReadId → SiteMask → Option (Bool × SiteMask × Marked)) :
    List ReadId → Marked → SiteMask → Option (List ReadId × SiteMask × Marked)
  | [], m, mask => some ([], mask, m)
  | r :: rest, m, mask => do
    let (ok, mask, m) ← narrow m r mask
    let (kept, mask, m) ← narrowEach narrow rest m mask
    return (if ok then r :: kept else kept, mask, m)

/-- Narrows `mask` by what `r` accepts. There is no answer if reads are asked more than `fuel` deep. -/
def narrow : Nat → Nat → Marked → ReadId → SiteMask → Option (Bool × SiteMask × Marked)
  | 0, _, _, _, _ => none
  | fuel + 1, depth, m, r, mask =>
    match m.table.kind r with
    | .single own _ _ => some (true, mask.inter own, m)
    | .fork reads _ _ =>
      if depth > 0 then some (!reads.isEmpty, mask, m)
      else if m.marks r then some (false, mask, m)
      else do
        let (kept, mask, m) ← narrowEach (narrow fuel (depth + 1)) reads (m.mark r) mask
        return (!kept.isEmpty, mask, (m.prune r kept).unmark r)
    | .stub _ target valid =>
      if m.marks r then some (valid, mask, m)
      else
        match target with
        | none => some (valid, mask, m)
        | some target => do
          let (ok, mask, m) ← narrow fuel depth (m.mark r) target mask
          return (valid, mask, (if ok then m else m.dropTarget r).unmark r)

end Marked

def marking (t : ReadTable) (entered : List ReadId) : Marked := ⟨t, fun x => decide (x ∈ entered)⟩

theorem markMarking (t : ReadTable) (entered : List ReadId) (r : ReadId) :
    (t.marking entered).mark r = t.marking (r :: entered) := by
  simp only [marking, Marked.mark, Marked.mk.injEq, true_and]
  funext x
  simp [List.mem_cons, Bool.decide_or, Bool.beq_eq_decide_eq]

theorem unmarkMarking (fresh : r ∉ entered) : (t.marking (r :: entered)).unmark r = t.marking entered := by
  simp only [marking, Marked.unmark, Marked.mk.injEq, true_and]
  funext x
  by_cases same : x = r
  · subst same
    simp [fresh]
  · simp [same]

theorem keepMarking {test : ReadTable → ReadId → Bool × ReadTable} {test' : Marked → ReadId → Option (Bool × Marked)}
    {P : ReadTable → Prop}
    (each : ∀ x ∈ reads, ∀ u, P u → test' (u.marking entered) x = some ((test u x).1, (test u x).2.marking entered) ∧
      P (test u x).2) (first : P t) :
    Marked.keep test' reads (t.marking entered) = some ((keep test reads t).1, (keep test reads t).2.marking entered) := by
  induction reads generalizing t with
  | nil => rfl
  | cons r rest ih =>
    obtain ⟨asked, next⟩ := each r List.mem_cons_self t first
    have later := ih (fun x member => each x (List.mem_cons_of_mem _ member)) next
    simp only [Marked.keep, asked, bind, Option.bind, later]
    rfl

theorem validMarking (fuel : Nat) : ∀ (entered : List ReadId) (t : ReadTable) (r : ReadId), t.Ordered → 0 < fuel →
    t.size < r.index + fuel → (∀ x ∈ entered, x.index < r.index) →
    Marked.valid fuel (t.marking entered) r =
      some ((validWithin fuel entered t r).1, (validWithin fuel entered t r).2.marking entered) := by
  induction fuel with
  | zero => exact fun _ _ _ _ positive => absurd positive (Nat.lt_irrefl 0)
  | succ fuel ih =>
    intro entered t r ordered _ bound before
    unfold Marked.valid validWithin
    have table : (t.marking entered).table = t := rfl
    rw [table]
    cases kind : t.kind r with
    | single mask successor next => rfl
    | stub next target valid => rfl
    | fork reads paths taken =>
      have fresh : r ∉ entered := fun member => Nat.lt_irrefl _ (before r member)
      have unmarked : (t.marking entered).marks r = false := by simp [marking, fresh]
      have before' : ∀ x ∈ reads, ∀ y ∈ r :: entered, y.index < x.index := by
        intro x entry y member
        have after := (ordered.entries kind entry).1
        rcases List.mem_cons.mp member with rfl | member
        · exact after
        · exact Nat.lt_trans (before y member) after
      have each : ∀ x ∈ reads, ∀ u, Evolves t u ∧ u.size = t.size →
          Marked.valid fuel (u.marking (r :: entered)) x =
            some ((validWithin fuel (r :: entered) u x).1, (validWithin fuel (r :: entered) u x).2.marking (r :: entered)) ∧
          (Evolves t (validWithin fuel (r :: entered) u x).2 ∧ (validWithin fuel (r :: entered) u x).2.size = t.size) := by
        rintro x entry u ⟨evolves, size⟩
        obtain ⟨after, inside⟩ := ordered.entries kind entry
        have room : u.size < x.index + fuel := by omega
        have below : x.index < u.size := size ▸ inside
        have positive : 0 < fuel := by omega
        obtain ⟨-, step, same⟩ := validWithinSpec fuel (r :: entered) u x (evolves.ordered ordered) room (before' x entry)
        exact ⟨ih _ u x (evolves.ordered ordered) positive room (before' x entry), evolves.trans step, same.trans size⟩
      simp only [unmarked, Bool.false_eq_true, if_false, fresh, markMarking, keepMarking each ⟨.refl t, rfl⟩, bind,
        Option.bind]
      exact congrArg (fun m => some (_, m)) (unmarkMarking fresh)

theorem narrowEachMarking {narrow : ReadTable → ReadId → SiteMask → Narrowed}
    {narrow' : Marked → ReadId → SiteMask → Option (Bool × SiteMask × Marked)} {P : ReadTable → Prop}
    (each : ∀ x ∈ reads, ∀ u mask, P u → narrow' (u.marking entered) x mask =
      some ((narrow u x mask).valid, (narrow u x mask).mask, (narrow u x mask).table.marking entered) ∧
      P (narrow u x mask).table) (first : P t) (mask : SiteMask) :
    Marked.narrowEach narrow' reads (t.marking entered) mask =
      some ((narrowEach narrow reads t mask).1, (narrowEach narrow reads t mask).2.1,
        (narrowEach narrow reads t mask).2.2.marking entered) := by
  induction reads generalizing t mask with
  | nil => rfl
  | cons r rest ih =>
    obtain ⟨asked, next⟩ := each r List.mem_cons_self t mask first
    have later := ih (fun x member => each x (List.mem_cons_of_mem _ member)) next (narrow t r mask).mask
    simp only [Marked.narrowEach, asked, bind, Option.bind, later]
    rfl

/- A stub can lead anywhere, but not to a read that is marked and on. The marked reads are distinct, so that the depth
is at most the number of reads. -/
theorem narrowMarking (fuel : Nat) : ∀ (entered : List ReadId) (depth : Nat) (t : ReadTable) (r : ReadId) (mask : SiteMask),
    t.Ordered → entered.Nodup → (∀ x ∈ entered, t.IsRead x) → t.size + 1 ≤ fuel + entered.length →
    Marked.narrow fuel depth (t.marking entered) r mask =
      some ((narrowWithin fuel entered depth t r mask).valid, (narrowWithin fuel entered depth t r mask).mask,
        (narrowWithin fuel entered depth t r mask).table.marking entered) := by
  induction fuel with
  | zero =>
    intro entered depth t r mask ordered once known bound
    have := enteredBound once known
    omega
  | succ fuel ih =>
    intro entered depth t r mask ordered once known bound
    unfold Marked.narrow narrowWithin
    have table : (t.marking entered).table = t := rfl
    have marked : (t.marking entered).marks r = decide (r ∈ entered) := rfl
    rw [table, marked]
    have bound' : t.size + 1 ≤ fuel + (r :: entered).length := by simp only [List.length_cons]; omega
    cases kind : t.kind r with
    | single own successor next => rfl
    | fork reads paths taken =>
      have there : t.IsRead r := by
        by_contra outside
        simp [kindOutside outside] at kind
      by_cases deep : depth > 0
      · simp only [deep, if_true]
      by_cases inside : r ∈ entered
      · simp only [deep, inside, decide_true, if_true, if_false]
      have once' : (r :: entered).Nodup := List.nodup_cons.mpr ⟨inside, once⟩
      have known' : ∀ x ∈ r :: entered, t.IsRead x := by simpa [there] using known
      have each : ∀ x ∈ reads, ∀ u mask, Evolves t u ∧ u.size = t.size →
          Marked.narrow fuel (depth + 1) (u.marking (r :: entered)) x mask =
            some ((narrowWithin fuel (r :: entered) (depth + 1) u x mask).valid,
              (narrowWithin fuel (r :: entered) (depth + 1) u x mask).mask,
              (narrowWithin fuel (r :: entered) (depth + 1) u x mask).table.marking (r :: entered)) ∧
          (Evolves t (narrowWithin fuel (r :: entered) (depth + 1) u x mask).table ∧
            (narrowWithin fuel (r :: entered) (depth + 1) u x mask).table.size = t.size) := by
        rintro x _ u mask ⟨evolves, size⟩
        have known'' : ∀ y ∈ r :: entered, u.IsRead y := fun y member => evolves.isRead (known' y member)
        have bound'' : u.size + 1 ≤ fuel + (r :: entered).length := size ▸ bound'
        obtain ⟨step, -⟩ := narrowWithinSpec fuel (r :: entered) (depth + 1) u x mask (evolves.ordered ordered) once'
          known'' bound''
        exact ⟨ih _ _ u x mask (evolves.ordered ordered) once' known'' bound'', evolves.trans step.evolves,
          step.size.trans size⟩
      simp only [deep, inside, decide_false, Bool.false_eq_true, if_false, markMarking,
        narrowEachMarking each ⟨.refl t, rfl⟩ mask, bind, Option.bind]
      exact congrArg (fun m => some (_, _, m)) (unmarkMarking inside)
    | stub next target valid =>
      by_cases inside : r ∈ entered
      · simp only [inside, decide_true, if_true]
      cases target with
      | none => simp only [inside, decide_false, Bool.false_eq_true, if_false]
      | some target =>
        have there : t.IsRead r := by
          by_contra outside
          simp [kindOutside outside] at kind
        have once' : (r :: entered).Nodup := List.nodup_cons.mpr ⟨inside, once⟩
        have known' : ∀ x ∈ r :: entered, t.IsRead x := by simpa [there] using known
        have asked := ih _ depth t target mask ordered once' known' bound'
        simp only [inside, decide_false, Bool.false_eq_true, if_false, markMarking, asked, bind, Option.bind]
        split
        · exact congrArg (fun m => some (_, _, m)) (unmarkMarking inside)
        · exact congrArg (fun m => some (_, _, m)) (unmarkMarking inside)

/-! Any number of questions. -/

inductive Query where
  | valid (r : ReadId)
  | narrow (r : ReadId) (mask : SiteMask)

def ask (t : ReadTable) : Query → ReadTable
  | .valid r => (t.valid r).2
  | .narrow r mask => (t.narrow r mask 0).table

def askAll (t : ReadTable) (qs : List Query) : ReadTable := qs.foldl ask t

theorem askEvolves (ordered : t.Ordered) (q : Query) : Evolves t (t.ask q) := by
  cases q with
  | valid r => exact validEvolves ordered r
  | narrow r mask => exact (narrowSpec ordered r mask 0).evolves

theorem sizeAsk (ordered : t.Ordered) (q : Query) : (t.ask q).size = t.size := by
  cases q with
  | valid r => exact (validWithinSpec (t.size + 1) [] t r ordered (by omega) (by simp)).2.2
  | narrow r mask => exact (narrowSpec ordered r mask 0).size

theorem askAllEvolves (ordered : t.Ordered) (qs : List Query) : Evolves t (t.askAll qs) ∧ (t.askAll qs).size = t.size := by
  induction qs generalizing t with
  | nil => exact ⟨.refl t, rfl⟩
  | cons q rest ih =>
    have step := askEvolves ordered q
    obtain ⟨later, size⟩ := ih (step.ordered ordered)
    exact ⟨step.trans later, size.trans (sizeAsk ordered q)⟩

/- After any questions, every question comes to an end no deeper than the table is long and leaves no mark, and a read is
valid exactly if it was pending before the first of them. -/
theorem questionsGoUnseen (ordered : t.Ordered) (qs : List Query) :
    let u := t.askAll qs
    u.size = t.size ∧
    (∀ r, Marked.valid (u.size + 1) ⟨u, fun _ => false⟩ r = some ((u.valid r).1, ⟨(u.valid r).2, fun _ => false⟩)) ∧
    (∀ r mask depth, Marked.narrow (u.size + 1) depth ⟨u, fun _ => false⟩ r mask =
      some ((u.narrow r mask depth).valid, (u.narrow r mask depth).mask, ⟨(u.narrow r mask depth).table, fun _ => false⟩)) ∧
    (∀ r, (u.valid r).1 = true ↔ u.Pending r) ∧
    (∀ r, (u.valid r).1 = (t.valid r).1) ∧
    ∀ r mask, (u.valid r).1 = true → (u.narrow r mask 0).valid = true := by
  intro u
  obtain ⟨evolves, size⟩ := askAllEvolves ordered qs
  have ordered' : u.Ordered := evolves.ordered ordered
  have clear : ∀ w : ReadTable, w.marking [] = ⟨w, fun _ => false⟩ := fun w => by simp [marking]
  refine ⟨size, fun r => ?_, fun r mask depth => ?_, validIff ordered', fun r => ?_, fun r mask pending => ?_⟩
  · have walk := validMarking (u.size + 1) [] u r ordered' (Nat.succ_pos _) (by omega) (by simp)
    rwa [clear, clear] at walk
  · have walk := narrowMarking (u.size + 1) [] depth u r mask ordered' .nil (by simp) (by simp)
    rwa [clear, clear] at walk
  · have before := validIff ordered r
    have after := validIff ordered' r
    by_cases known : t.IsRead r
    · rw [evolves.pendingIff ordered known, ← before] at after
      exact Bool.eq_iff_iff.mpr after
    · -- what is no read was never pending, and no question makes a read
      have nowhere : ¬ u.IsRead r := fun there => known (show r.index < t.size from size ▸ there)
      have none : ¬ t.Pending r := fun pending => known (isReadOfPending pending)
      have none' : ¬ u.Pending r := fun pending => nowhere (isReadOfPending pending)
      rw [Bool.eq_iff_iff, before, after]
      exact iff_of_false none' none
  · exact narrowPending ordered' ((validIff ordered' r).mp pending) mask 0

def circling : ReadTable :=
  ⟨#[⟨⟨0⟩, none, .fork [⟨1⟩, ⟨2⟩, ⟨3⟩] [some ⟨1⟩, some ⟨2⟩, some ⟨3⟩] 0⟩, ⟨⟨0⟩, none, .stub none (some ⟨0⟩) true⟩,
    ⟨⟨0⟩, none, .stub none (some ⟨1⟩) false⟩, ⟨⟨0⟩, none, .single .any none none⟩]⟩

/- The second path is pruned, and the stub of the first one forgets where it led. -/
theorem circlingGoesUnseen :
    let u := circling.askAll [.narrow ⟨1⟩ .any, .valid ⟨0⟩, .narrow ⟨0⟩ (.slot 3)]
    circling.kind ⟨0⟩ ≠ u.kind ⟨0⟩ ∧ Marked.valid 5 ⟨u, fun _ => false⟩ ⟨0⟩ = some (true, ⟨u, fun _ => false⟩) ∧
      (u.valid ⟨0⟩).1 = (circling.valid ⟨0⟩).1 ∧ (u.narrow ⟨0⟩ .any 0).valid = true := by
  intro u
  have wf : circling.WellFormed := by decide
  obtain ⟨size, walk, -, pending, same, narrow⟩ :=
    questionsGoUnseen wf.ordered [.narrow ⟨1⟩ .any, .valid ⟨0⟩, .narrow ⟨0⟩ (.slot 3)]
  have valid : (u.valid ⟨0⟩).1 = true := by decide
  refine ⟨by decide, ?_, same ⟨0⟩, narrow ⟨0⟩ .any valid⟩
  have asked : (u.valid ⟨0⟩).2 = u := rfl
  have walk := walk ⟨0⟩
  rwa [size, valid, asked] at walk

end Lowering.ReadTable
