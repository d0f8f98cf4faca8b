import Lowering.Read
import Lowering.Proofs.Masks
import Mathlib.Data.List.Perm.Subperm
import Mathlib.Data.List.Nodup
/-!
Which reads are still to come, said without asking.

A read is pending if a path through the forks after it leads to a single read or to a valid stub.
Asking whether a read is valid, and narrowing a mask by it, drop entries of forks and targets of
stubs. What is dropped is never pending, so no later answer differs.
-/
namespace Lowering.ReadTable

def IsRead (t : ReadTable) (r : ReadId) : Prop := r.index < t.size

instance (t : ReadTable) (r : ReadId) : Decidable (t.IsRead r) :=
  inferInstanceAs (Decidable (_ < _))

inductive Pending (t : ReadTable) : ReadId → Prop where
  | single {r mask successor next} (kind : t.kind r = .single mask successor next) : Pending t r
  | stub {r next target} (kind : t.kind r = .stub next target true) : Pending t r
  | fork {r x reads paths taken} (kind : t.kind r = .fork reads paths taken) (entry : x ∈ reads)
      (pending : Pending t x) : Pending t r

structure Ordered (t : ReadTable) : Prop where
  entries : ∀ {r x reads paths taken}, t.kind r = .fork reads paths taken → x ∈ reads →
    r.index < x.index ∧ t.IsRead x

/-- Entries of a fork are created after it, and the chain of a value has its reads only. -/
structure WellFormed (t : ReadTable) : Prop where
  entries : ∀ {r x reads paths taken}, t.kind r = .fork reads paths taken → x ∈ reads →
    r.index < x.index ∧ t.IsRead x
  chains : ∀ {r x}, t.next r = .ok (some x) → t.IsRead x ∧ t.value x = t.value r

theorem WellFormed.ordered {t : ReadTable} (wf : t.WellFormed) : t.Ordered := ⟨wf.entries⟩

theorem kindOutside {t : ReadTable} {r : ReadId} (outside : ¬ t.IsRead r) :
    t.kind r = .stub none none false := by
  simp only [IsRead, size, Nat.not_lt] at outside
  simp [kind, get, Array.getD, Nat.not_lt.mpr outside]
  rfl

theorem isReadOfPending {t : ReadTable} {r : ReadId} (pending : t.Pending r) : t.IsRead r := by
  by_cases h : t.IsRead r
  · exact h
  · have outside := kindOutside h
    cases pending with
    | single kind => simp [outside] at kind
    | stub kind => simp [outside] at kind
    | fork kind => simp [outside] at kind

theorem notPendingOfStub {t : ReadTable} {r : ReadId} {next target}
    (kind : t.kind r = .stub next target false) : ¬ t.Pending r := by
  intro pending
  cases pending with
  | single other => simp [kind] at other
  | stub other => simp [kind] at other
  | fork other => simp [kind] at other

theorem pendingForkIff {t : ReadTable} {r : ReadId} {reads paths taken}
    (kind : t.kind r = .fork reads paths taken) : t.Pending r ↔ ∃ x ∈ reads, t.Pending x := by
  constructor
  · intro pending
    cases pending with
    | single other => simp [kind] at other
    | stub other => simp [kind] at other
    | fork other entry pending =>
      rw [kind] at other
      cases other
      exact ⟨_, entry, pending⟩
  · rintro ⟨x, entry, pending⟩
    exact .fork kind entry pending

inductive Prunes (t : ReadTable) : ReadKind → ReadKind → Prop where
  | same (k : ReadKind) : Prunes t k k
  | fork {reads kept paths taken} (old : ∀ x ∈ kept, x ∈ reads)
      (pending : ∀ x ∈ reads, t.Pending x → x ∈ kept) :
      Prunes t (.fork reads paths taken) (.fork kept paths taken)
  | stub {next target target' valid} : Prunes t (.stub next target valid) (.stub next target' valid)

structure Evolves (t t' : ReadTable) : Prop where
  size : t.size ≤ t'.size
  value : ∀ r, t.IsRead r → t'.value r = t.value r
  event : ∀ r, t.IsRead r → (t'.get r).event = (t.get r).event
  kind : ∀ r, t.IsRead r → Prunes t (t.kind r) (t'.kind r)
  added : ∀ r, ¬ t.IsRead r → t'.IsRead r → ∃ mask successor, t'.kind r = .single mask successor none

namespace Evolves

variable {t t' t'' : ReadTable} {r : ReadId}

theorem refl (t : ReadTable) : Evolves t t :=
  ⟨Nat.le_refl _, fun _ _ => rfl, fun _ _ => rfl, fun _ _ => .same _, fun _ out known => absurd known out⟩

theorem isRead (h : Evolves t t') (known : t.IsRead r) : t'.IsRead r :=
  Nat.lt_of_lt_of_le known h.size

theorem pendingOf (h : Evolves t t') (pending : t.Pending r) : t'.Pending r := by
  induction pending with
  | @single r mask successor next kind =>
    have pruned := h.kind r (isReadOfPending (.single kind))
    rw [kind] at pruned
    generalize now : t'.kind r = k at pruned
    cases pruned
    exact .single now
  | @stub r next target kind =>
    have pruned := h.kind r (isReadOfPending (.stub kind))
    rw [kind] at pruned
    generalize now : t'.kind r = k at pruned
    cases pruned with
    | same => exact .stub now
    | stub => exact .stub now
  | @fork r x reads paths taken kind entry pending ih =>
    have pruned := h.kind r (isReadOfPending (.fork kind entry pending))
    rw [kind] at pruned
    generalize now : t'.kind r = k at pruned
    cases pruned with
    | same => exact .fork now entry ih
    | fork old keeps => exact .fork now (keeps x entry pending) ih

theorem ofPending (ordered : t.Ordered) (h : Evolves t t') (pending : t'.Pending r) :
    t.IsRead r → t.Pending r := by
  induction pending with
  | @single r mask successor next kind =>
    intro known
    have pruned := h.kind r known
    rw [kind] at pruned
    generalize was : t.kind r = k at pruned
    cases pruned
    exact .single was
  | @stub r next target kind =>
    intro known
    have pruned := h.kind r known
    rw [kind] at pruned
    generalize was : t.kind r = k at pruned
    cases pruned with
    | same => exact .stub was
    | stub => exact .stub was
  | @fork r x reads paths taken kind entry pending ih =>
    intro known
    have pruned := h.kind r known
    rw [kind] at pruned
    generalize was : t.kind r = k at pruned
    cases pruned with
    | same => exact .fork was entry (ih (ordered.entries was entry).2)
    | fork old keeps =>
      have member := old x entry
      exact .fork was member (ih (ordered.entries was member).2)

theorem pendingIff (ordered : t.Ordered) (h : Evolves t t') (known : t.IsRead r) :
    t'.Pending r ↔ t.Pending r :=
  ⟨fun p => h.ofPending ordered p known, h.pendingOf⟩

theorem single (h : Evolves t t') {mask successor next}
    (kind : t.kind r = .single mask successor next) : t'.kind r = .single mask successor next := by
  have pruned := h.kind r (isReadOfPending (.single kind))
  rw [kind] at pruned
  generalize now : t'.kind r = k at pruned
  cases pruned
  rfl

theorem trans (first : Evolves t t') (second : Evolves t' t'') :
    Evolves t t'' := by
  refine ⟨Nat.le_trans first.size second.size, ?_, ?_, ?_, ?_⟩
  · intro r known
    exact (second.value r (first.isRead known)).trans (first.value r known)
  · intro r known
    exact (second.event r (first.isRead known)).trans (first.event r known)
  · intro r known
    have a := first.kind r known
    have b := second.kind r (first.isRead known)
    generalize was : t.kind r = k at a
    generalize between : t'.kind r = k' at a b
    generalize t''.kind r = k'' at b
    cases a with
    | same =>
      cases b with
      | same => exact .same _
      | stub => exact .stub
      | fork old keeps =>
        exact .fork old fun x entry pending => keeps x entry (first.pendingOf pending)
    | stub =>
      cases b with
      | same => exact .stub
      | stub => exact .stub
    | fork old keeps =>
      cases b with
      | same => exact .fork old keeps
      | fork older keepsMore =>
        refine .fork (fun x entry => old x (older x entry)) fun x entry pending => ?_
        exact keepsMore x (keeps x entry pending) (first.pendingOf pending)
  · intro r outside known
    by_cases middle : t'.IsRead r
    · obtain ⟨mask, successor, kind⟩ := first.added r outside middle
      exact ⟨mask, successor, second.single kind⟩
    · exact second.added r middle known

theorem next (h : Evolves t t') (known : t.IsRead r) : t'.next r = t.next r := by
  have pruned := h.kind r known
  unfold ReadTable.next
  generalize t.kind r = k at pruned
  generalize t'.kind r = k' at pruned
  cases pruned <;> rfl

theorem ordered (ordered : t.Ordered) (h : Evolves t t') : t'.Ordered := by
  constructor
  intro r x reads paths taken kind entry
  by_cases known : t.IsRead r
  · have pruned := h.kind r known
    rw [kind] at pruned
    generalize was : t.kind r = k at pruned
    cases pruned with
    | same => exact ⟨(ordered.entries was entry).1, h.isRead (ordered.entries was entry).2⟩
    | fork old keeps =>
      have member := ordered.entries was (old x entry)
      exact ⟨member.1, h.isRead member.2⟩
  · by_cases now : t'.IsRead r
    · obtain ⟨mask, successor, other⟩ := h.added r known now
      simp [other] at kind
    · simp [kindOutside now] at kind

theorem wellFormed (wf : t.WellFormed) (h : Evolves t t') : t'.WellFormed := by
  refine ⟨(h.ordered wf.ordered).entries, ?_⟩
  intro r x follows
  by_cases known : t.IsRead r
  · rw [h.next known] at follows
    obtain ⟨there, value⟩ := wf.chains follows
    exact ⟨h.isRead there, by rw [h.value x there, h.value r known, value]⟩
  · by_cases now : t'.IsRead r
    · obtain ⟨mask, successor, other⟩ := h.added r known now
      simp [ReadTable.next, other] at follows
    · simp [ReadTable.next, kindOutside now] at follows

end Evolves

/-! Updates of one read. -/

theorem getSetKind (t : ReadTable) (r x : ReadId) (k : ReadKind) :
    (t.setKind r k).get x = if x = r ∧ t.IsRead r then { t.get r with kind := k } else t.get x := by
  by_cases same : x = r
  · subst x
    by_cases known : r.index < t.reads.size
    · simp [get, setKind, IsRead, size, known, Array.getElem_modify]
    · simp [get, setKind, IsRead, size, known]
  · have apart : r.index ≠ x.index := fun h => same (by cases r; cases x; simp_all)
    simp [get, setKind, same, Array.getElem?_modify, apart]

@[simp] theorem sizeSetKind (t : ReadTable) (r : ReadId) (k : ReadKind) :
    (t.setKind r k).size = t.size := by
  simp [setKind, size]

theorem evolvesSetKind {t t' : ReadTable} (h : Evolves t t') {r : ReadId} {k : ReadKind}
    (known : t.IsRead r) (pruned : Prunes t (t.kind r) k) : Evolves t (t'.setKind r k) := by
  refine ⟨by simpa using h.size, ?_, ?_, ?_, ?_⟩
  · intro x there
    rw [← h.value x there]
    by_cases same : x = r <;> simp [ReadTable.value, getSetKind, same]
    split <;> rfl
  · intro x there
    rw [← h.event x there]
    by_cases same : x = r <;> simp [getSetKind, same]
    split <;> rfl
  · intro x there
    by_cases same : x = r
    · subst x
      simpa [ReadTable.kind, getSetKind, h.isRead known] using pruned
    · simpa [ReadTable.kind, getSetKind, same] using h.kind x there
  · intro x outside now
    have apart : x ≠ r := fun same => outside (same ▸ known)
    have now' : t'.IsRead x := by simpa [IsRead] using now
    simpa [ReadTable.kind, getSetKind, apart] using h.added x outside now'

theorem evolvesPush (t : ReadTable) (v : ValueId) (mask : SiteMask) (successor : Option ValueId) :
    Evolves t (t.single v mask successor).2 := by
  have old : ∀ r, t.IsRead r → (t.single v mask successor).2.get r = t.get r := by
    intro r known
    have apart : r.index ≠ t.reads.size := Nat.ne_of_lt known
    simp [single, push, get, Array.getElem?_push, apart]
  refine ⟨by simp [single, push, size], ?_, ?_, ?_, ?_⟩
  · intro r known
    simp [ReadTable.value, old r known]
  · intro r known
    rw [old r known]
  · intro r known
    simp only [ReadTable.kind, old r known]
    exact .same _
  · intro r outside now
    have last : r.index = t.reads.size := by
      simp only [IsRead, single, push, size, Array.size_push] at outside now
      omega
    exact ⟨mask, successor, by simp [single, push, ReadTable.kind, get, last]⟩

theorem pushedKind (t : ReadTable) (v : ValueId) (mask : SiteMask) (successor : Option ValueId) :
    (t.single v mask successor).2.get (t.single v mask successor).1 =
      ⟨v, none, .single mask successor none⟩ := by
  simp [single, push, get, size]

/-! Asking whether a read is valid. -/

theorem keepSpec {t : ReadTable} (ordered : t.Ordered)
    {test : ReadTable → ReadId → Bool × ReadTable} {reads : List ReadId}
    (sound : ∀ x ∈ reads, ∀ u, Evolves t u → u.size = t.size →
      ((test u x).1 = true ↔ u.Pending x) ∧ Evolves u (test u x).2 ∧ (test u x).2.size = u.size)
    (known : ∀ x ∈ reads, t.IsRead x) :
    ∀ {u : ReadTable}, Evolves t u → u.size = t.size →
      (∀ x, x ∈ (keep test reads u).1 ↔ x ∈ reads ∧ t.Pending x) ∧
      Evolves t (keep test reads u).2 ∧ (keep test reads u).2.size = t.size := by
  induction reads with
  | nil =>
    intro u h same
    exact ⟨by simp [keep], h, same⟩
  | cons r rest ih =>
    intro u h same
    obtain ⟨answer, step, size⟩ := sound r List.mem_cons_self u h same
    have here := h.trans step
    obtain ⟨members, later, final⟩ := ih (fun x m => sound x (List.mem_cons_of_mem _ m))
      (fun x m => known x (List.mem_cons_of_mem _ m)) here (size.trans same)
    refine ⟨?_, later, final⟩
    intro x
    have pending : u.Pending r ↔ t.Pending r := h.pendingIff ordered (known r List.mem_cons_self)
    simp only [keep]
    cases valid : (test u r).1 with
    | true =>
      have yes := pending.mp (answer.mp valid)
      simp only [if_true, List.mem_cons, members]
      grind
    | false =>
      have no : ¬ t.Pending r := fun p => by simp [answer.mpr (pending.mpr p)] at valid
      simp only [Bool.false_eq_true, if_false, List.mem_cons, members]
      grind

theorem pruneEvolves {t t' : ReadTable} (h : Evolves t t') {r : ReadId} {reads kept paths taken}
    (kind : t.kind r = .fork reads paths taken)
    (members : ∀ x ∈ kept, x ∈ reads) (pending : ∀ x ∈ reads, t.Pending x → x ∈ kept) :
    Evolves t (t'.prune r kept) := by
  have known : t.IsRead r := by
    by_cases known : t.IsRead r
    · exact known
    · simp [kindOutside known] at kind
  have now := h.kind r known
  rw [kind] at now
  unfold prune
  generalize was : t'.kind r = k at now
  cases now with
  | same =>
    exact evolvesSetKind h known (by rw [kind]; exact .fork members pending)
  | fork old keeps =>
    exact evolvesSetKind h known (by rw [kind]; exact .fork members pending)

@[simp] theorem sizePrune (t : ReadTable) (r : ReadId) (kept : List ReadId) :
    (t.prune r kept).size = t.size := by
  unfold prune
  split <;> simp

theorem validWithinSpec (fuel : Nat) : ∀ (entered : List ReadId) (t : ReadTable) (r : ReadId),
    t.Ordered → t.size < r.index + fuel → (∀ x ∈ entered, x.index < r.index) →
    ((validWithin fuel entered t r).1 = true ↔ t.Pending r) ∧
      Evolves t (validWithin fuel entered t r).2 ∧
      (validWithin fuel entered t r).2.size = t.size := by
  induction fuel with
  | zero =>
    intro entered t r ordered bound before
    have outside : ¬ t.IsRead r := by simp only [IsRead]; omega
    have no := notPendingOfStub (kindOutside outside)
    exact ⟨by simp [validWithin, no], .refl t, rfl⟩
  | succ fuel ih =>
    intro entered t r ordered bound before
    unfold validWithin
    cases kind : t.kind r with
    | single mask successor next =>
      exact ⟨by simpa using Pending.single kind, .refl t, rfl⟩
    | stub next target valid =>
      refine ⟨?_, .refl t, rfl⟩
      cases valid with
      | true => simpa using Pending.stub kind
      | false => simpa using notPendingOfStub kind
    | fork reads paths taken =>
      have fresh : r ∉ entered := fun m => Nat.lt_irrefl _ (before r m)
      have later : ∀ x ∈ reads, r.index < x.index ∧ t.IsRead x := fun x m => ordered.entries kind m
      have sound : ∀ x ∈ reads, ∀ u, Evolves t u → u.size = t.size →
          ((validWithin fuel (r :: entered) u x).1 = true ↔ u.Pending x) ∧
            Evolves u (validWithin fuel (r :: entered) u x).2 ∧
            (validWithin fuel (r :: entered) u x).2.size = u.size := by
        intro x m u h same
        have after := (later x m).1
        refine ih (r :: entered) u x (h.ordered ordered) (by omega) ?_
        intro y inside
        rcases List.mem_cons.mp inside with rfl | inside
        · exact after
        · exact Nat.lt_trans (before y inside) after
      obtain ⟨members, step, size⟩ := keepSpec ordered sound (fun x m => (later x m).2) (.refl t) rfl
      simp only [fresh, if_false]
      refine ⟨?_, ?_, ?_⟩
      · rw [pendingForkIff kind]
        constructor
        · intro some
          cases kept : (keep (validWithin fuel (r :: entered)) reads t).1 with
          | nil => simp [kept] at some
          | cons x rest => exact ⟨x, (members x).mp (by simp [kept])⟩
        · rintro ⟨x, entry, pending⟩
          have inside := (members x).mpr ⟨entry, pending⟩
          cases kept : (keep (validWithin fuel (r :: entered)) reads t).1 with
          | nil => simp [kept] at inside
          | cons => simp
      · exact pruneEvolves step kind (fun x m => ((members x).mp m).1)
          fun x entry pending => (members x).mpr ⟨entry, pending⟩
      · simpa using size

theorem validIff {t : ReadTable} (ordered : t.Ordered) (r : ReadId) :
    (t.valid r).1 = true ↔ t.Pending r :=
  (validWithinSpec (t.size + 1) [] t r ordered (by omega) (by simp)).1

theorem validEvolves {t : ReadTable} (ordered : t.Ordered) (r : ReadId) : Evolves t (t.valid r).2 :=
  (validWithinSpec (t.size + 1) [] t r ordered (by omega) (by simp)).2.1

/-! Narrowing a mask by a read. -/

theorem enteredBound {t : ReadTable} {entered : List ReadId} (once : entered.Nodup)
    (known : ∀ x ∈ entered, t.IsRead x) : entered.length ≤ t.size := by
  have indices : (entered.map ReadId.index).Nodup :=
    once.map fun a b h => by cases a; cases b; simp_all
  have inside : entered.map ReadId.index ⊆ List.range t.size := by
    intro n member
    obtain ⟨x, entry, rfl⟩ := List.mem_map.mp member
    exact List.mem_range.mpr (known x entry)
  simpa using (indices.subperm inside).length_le

theorem dropTargetEvolves {t t' : ReadTable} (h : Evolves t t') {r : ReadId} {next target valid}
    (known : t.IsRead r) (kind : t.kind r = .stub next target valid) :
    Evolves t (t'.dropTarget r) := by
  have now := h.kind r known
  rw [kind] at now
  unfold dropTarget
  generalize was : t'.kind r = k at now
  cases now with
  | same => exact evolvesSetKind h known (by rw [kind]; exact .stub)
  | stub => exact evolvesSetKind h known (by rw [kind]; exact .stub)

@[simp] theorem sizeDropTarget (t : ReadTable) (r : ReadId) : (t.dropTarget r).size = t.size := by
  unfold dropTarget
  split <;> simp

structure NarrowedFrom (t : ReadTable) (mask : SiteMask) (n : Narrowed) : Prop where
  evolves : Evolves t n.table
  size : n.table.size = t.size
  within : n.mask.Within mask

theorem narrowEachSpec {t : ReadTable} {narrow : ReadTable → ReadId → SiteMask → Narrowed}
    {reads : List ReadId}
    (sound : ∀ x ∈ reads, ∀ u mask, Evolves t u → u.size = t.size →
      NarrowedFrom u mask (narrow u x mask) ∧ (u.Pending x → (narrow u x mask).valid = true)) :
    ∀ {u : ReadTable} (mask : SiteMask), Evolves t u → u.size = t.size →
      (∀ x ∈ (narrowEach narrow reads u mask).1, x ∈ reads) ∧
      (∀ x ∈ reads, t.Pending x → x ∈ (narrowEach narrow reads u mask).1) ∧
      (narrowEach narrow reads u mask).2.1.Within mask ∧
      Evolves t (narrowEach narrow reads u mask).2.2 ∧
      (narrowEach narrow reads u mask).2.2.size = t.size := by
  induction reads with
  | nil =>
    intro u mask h same
    exact ⟨by simp [narrowEach], by simp, .refl mask, h, same⟩
  | cons r rest ih =>
    intro u mask h same
    obtain ⟨step, valid⟩ := sound r List.mem_cons_self u mask h same
    obtain ⟨old, pending, within, evolves, size⟩ :=
      ih (fun x m => sound x (List.mem_cons_of_mem _ m)) (narrow u r mask).mask
        (h.trans step.evolves) (step.size.trans same)
    simp only [narrowEach]
    refine ⟨?_, ?_, within.trans step.within, evolves, size⟩
    · intro x member
      split at member
      · rcases List.mem_cons.mp member with rfl | member
        · exact List.mem_cons_self
        · exact List.mem_cons_of_mem _ (old x member)
      · exact List.mem_cons_of_mem _ (old x member)
    · intro x entry live
      rcases List.mem_cons.mp entry with rfl | entry
      · rw [if_pos (valid (h.pendingOf live))]
        exact List.mem_cons_self
      · have kept := pending x entry live
        split
        · exact List.mem_cons_of_mem _ kept
        · exact kept

/- The forks that are pruned are those asked at depth zero, and their entries are asked with fuel
left: the reads entered so far are distinct. -/
theorem narrowWithinSpec (fuel : Nat) :
    ∀ (entered : List ReadId) (depth : Nat) (t : ReadTable) (r : ReadId) (mask : SiteMask),
    t.Ordered → entered.Nodup → (∀ x ∈ entered, t.IsRead x) →
    t.size + 1 ≤ fuel + entered.length →
    NarrowedFrom t mask (narrowWithin fuel entered depth t r mask) ∧
      (0 < fuel → 0 < depth ∨ r ∉ entered → t.Pending r →
        (narrowWithin fuel entered depth t r mask).valid = true) := by
  induction fuel with
  | zero =>
    intro entered depth t r mask ordered once known bound
    exact ⟨⟨.refl t, rfl, .refl mask⟩, by simp⟩
  | succ fuel ih =>
    intro entered depth t r mask ordered once known bound
    unfold narrowWithin
    cases kind : t.kind r with
    | single own successor next =>
      exact ⟨⟨.refl t, rfl, SiteMask.interWithinLeft mask own⟩, by simp⟩
    | fork reads paths taken =>
      have there : t.IsRead r := by
        by_cases there : t.IsRead r
        · exact there
        · simp [kindOutside there] at kind
      by_cases deep : depth > 0
      · refine ⟨by simpa [deep] using ⟨.refl t, rfl, .refl mask⟩, ?_⟩
        intro _ _ pending
        obtain ⟨x, entry, -⟩ := (pendingForkIff kind).mp pending
        cases reads with
        | nil => cases entry
        | cons => simp [deep]
      · by_cases inside : r ∈ entered
        · exact ⟨by simpa [deep, inside] using ⟨.refl t, rfl, .refl mask⟩, fun _ d => absurd d (by simp [deep, inside])⟩
        · have once' : (r :: entered).Nodup := List.nodup_cons.mpr ⟨inside, once⟩
          have known' : ∀ x ∈ r :: entered, t.IsRead x := by simpa [there] using known
          have left := enteredBound once' known'
          have sound : ∀ x ∈ reads, ∀ u mask, Evolves t u → u.size = t.size →
              NarrowedFrom u mask (narrowWithin fuel (r :: entered) (depth + 1) u x mask) ∧
                (u.Pending x →
                  (narrowWithin fuel (r :: entered) (depth + 1) u x mask).valid = true) := by
            intro x _ u mask h same
            obtain ⟨from_, valid⟩ := ih (r :: entered) (depth + 1) u x mask (h.ordered ordered) once'
              (fun y m => h.isRead (known' y m)) (by simp only [List.length_cons]; omega)
            simp only [List.length_cons] at left
            exact ⟨from_, valid (by omega) (.inl (Nat.succ_pos depth))⟩
          obtain ⟨old, pending, within, evolves, size⟩ :=
            narrowEachSpec sound mask (.refl t) rfl
          simp only [deep, inside, if_false]
          refine ⟨⟨pruneEvolves evolves kind old pending, by simpa using size, within⟩, fun _ _ live => ?_⟩
          obtain ⟨x, entry, live⟩ := (pendingForkIff kind).mp live
          simpa using List.ne_nil_of_mem (pending x entry live)
    | stub next target valid =>
      have flag : t.Pending r → valid = true := by
        intro pending
        cases valid with
        | true => rfl
        | false => exact absurd pending (notPendingOfStub kind)
      by_cases inside : r ∈ entered
      · exact ⟨by simpa [inside] using ⟨.refl t, rfl, .refl mask⟩, by simpa [inside] using fun _ => flag⟩
      · cases target with
        | none =>
          exact ⟨by simpa [inside] using ⟨.refl t, rfl, .refl mask⟩,
            by simpa [inside] using flag⟩
        | some target =>
          by_cases there : t.IsRead r
          · have once' : (r :: entered).Nodup := List.nodup_cons.mpr ⟨inside, once⟩
            have known' : ∀ x ∈ r :: entered, t.IsRead x := by simpa [there] using known
            obtain ⟨step, -⟩ := ih (r :: entered) depth t target mask ordered once' known'
              (by simp only [List.length_cons]; omega)
            simp only [inside, if_false]
            refine ⟨⟨?_, ?_, step.within⟩, fun _ _ => flag⟩
            · split
              · exact step.evolves
              · exact dropTargetEvolves step.evolves there kind
            · split
              · exact step.size
              · simpa using step.size
          · simp [kindOutside there] at kind

theorem narrowSpec {t : ReadTable} (ordered : t.Ordered) (r : ReadId) (mask : SiteMask)
    (depth : Nat) : NarrowedFrom t mask (t.narrow r mask depth) :=
  (narrowWithinSpec (t.size + 1) [] depth t r mask ordered .nil (by simp) (by simp)).1

theorem narrowPending {t : ReadTable} {r : ReadId} (ordered : t.Ordered) (pending : t.Pending r) (mask : SiteMask)
    (depth : Nat) : (t.narrow r mask depth).valid = true :=
  (narrowWithinSpec (t.size + 1) [] depth t r mask ordered .nil (by simp) (by simp)).2 (Nat.succ_pos _) (.inr (by simp))
    pending

theorem narrowSingle {t : ReadTable} {r : ReadId} {own successor next}
    (kind : t.kind r = .single own successor next) (mask : SiteMask) (depth : Nat) :
    (t.narrow r mask depth).mask = mask.inter own := by
  simp [narrow, narrowWithin, kind]

end Lowering.ReadTable
