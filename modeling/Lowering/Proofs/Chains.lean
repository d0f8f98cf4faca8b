import Lowering.Proofs.Recording
/-!
Which subroutines an entry of a log is recorded in, and the chains of calls that lead to it.

Going through the entries of a log, each entry into a subroutine opens it and each end closes the
innermost one. An entry that is read as part of a passage, but not inside one of its calls, has just
the subroutines open that are open where the passage begins. A chain of calls leads to an entry where
each call of the chain is recorded in the subroutine that the call outside it enters.
-/
namespace Lowering

open Replay

namespace RootLog

def openAt (l : RootLog) : Nat → List RegionId
  | 0 => []
  | k + 1 =>
    match l.entries[k]? with
    | some (.pushSubroutine site _) => (l.call site).region :: l.openAt k
    | some .popSubroutine => (l.openAt k).tail
    | _ => l.openAt k

def enclosing (l : RootLog) (k : Nat) : Option RegionId := (l.openAt k).head?

def Spans (l : RootLog) (k : Nat) (site : CallSiteId) (i : Nat) : Prop :=
  ∃ resume, l.entries[k]? = some (.pushSubroutine site resume) ∧ k < i ∧ i ≤ l.entries.size ∧
    (resume = 0 ∨ i < resume)

variable {l l' : RootLog} {opened : List Opening}

theorem openAtPush {k resume : Nat} {site : CallSiteId}
    (here : l.entries[k]? = some (.pushSubroutine site resume)) :
    l.openAt (k + 1) = (l.call site).region :: l.openAt k := by
  rw [openAt, here]

theorem openAtPop {k : Nat} (here : l.entries[k]? = some .popSubroutine) :
    l.openAt (k + 1) = (l.openAt k).tail := by
  rw [openAt, here]

theorem openAtPlain {k : Nat} {e : LogEntry} (here : l.entries[k]? = some e)
    (push : ∀ site resume, e ≠ .pushSubroutine site resume) (pop : e ≠ .popSubroutine) :
    l.openAt (k + 1) = l.openAt k := by
  rw [openAt, here]
  split
  · exact absurd (Option.some.inj (by assumption)) (push _ _)
  · exact absurd (Option.some.inj (by assumption)) pop
  · rfl

structure Onward (l l' : RootLog) : Prop where
  entries : ∀ (k : Nat) e, l.entries[k]? = some e → l'.entries[k]? = some e ∨
    ∃ site resume, e = .pushSubroutine site 0 ∧ l.entries.size < resume ∧
      l'.entries[k]? = some (.pushSubroutine site resume)
  more : l.entries.size ≤ l'.entries.size
  callees : ∀ c : CallSiteId, c.index < l.calls.size → (l'.call c).region = (l.call c).region
  calls : l.calls.size ≤ l'.calls.size

namespace Onward

theorem add (e : LogEntry) (entries : l'.entries = l.entries.push e) (calls : l'.calls = l.calls) :
    Onward l l' where
  entries k x here := .inl (by rw [entries]; exact (entriesKept (l := l) e (known here)).trans here)
  more := by
    rw [entries, Array.size_push]
    exact Nat.le_succ _
  callees c _ := by rw [RootLog.call, calls, RootLog.call]
  calls := Nat.le_of_eq (by rw [calls])

theorem still (entries : l'.entries = l.entries)
    (callees : ∀ c, (l'.call c).region = (l.call c).region) (calls : l'.calls.size = l.calls.size) :
    Onward l l' :=
  ⟨fun k x here => .inl (by rw [entries, here]), Nat.le_of_eq (by rw [entries]), fun c _ => callees c,
    Nat.le_of_eq calls.symm⟩

theorem grow (grows : Grows l l') : Onward l l' := still grows.entries grows.callees grows.calls

theorem start {ip : Nat} {sub : OpenSubroutine} (starts : Starts l l' ip sub) : Onward l l' where
  entries k x here := by
    rw [starts.entries]
    exact .inl ((entriesKept (l := l) _ (known here)).trans here)
  more := by
    rw [starts.entries, Array.size_push]
    exact Nat.le_succ _
  callees c old := by rw [starts.callee old]
  calls := by
    rw [starts.size.1]
    exact Nat.le_succ _

theorem endSize (l : RootLog) (sub : OpenSubroutine) :
    (l.endSubroutine sub).entries.size = l.entries.size + 1 := by
  simp [endSubroutine, RootLog.add]

theorem resume {sub : OpenSubroutine} {site : CallSiteId}
    (open' : l.entries[sub.entry]? = some (.pushSubroutine site 0)) :
    Onward l (l.endSubroutine sub) where
  entries k x here := by
    rw [endEntry, entriesKept _ (known here)]
    split
    · rename_i at'
      subst at'
      rw [here] at open'
      cases open'
      exact .inr ⟨site, _, rfl, Nat.lt_succ_self _, by rw [here]; rfl⟩
    · exact .inl here
  more := by
    rw [endSize]
    exact Nat.le_succ _
  callees _ _ := rfl
  calls := Nat.le_refl _

variable (onward : Onward l l')
include onward

theorem entry {k : Nat} {e : LogEntry} (here : l.entries[k]? = some e)
    (push : ∀ site resume, e ≠ .pushSubroutine site resume) : l'.entries[k]? = some e :=
  (onward.entries k e here).resolve_right fun ⟨site, _, same, _⟩ => push site 0 same

theorem push {k resume : Nat} {site : CallSiteId}
    (here : l.entries[k]? = some (.pushSubroutine site resume)) :
    ∃ resume', l'.entries[k]? = some (.pushSubroutine site resume') ∧
      (resume' = resume ∨ resume = 0 ∧ l.entries.size < resume') := by
  rcases onward.entries k _ here with same | ⟨site, resume', same, later, there⟩
  · exact ⟨resume, same, .inl rfl⟩
  · cases same
    exact ⟨resume', there, .inr ⟨rfl, later⟩⟩

theorem pushed {k resume : Nat} {site : CallSiteId} (old : k < l.entries.size)
    (there : l'.entries[k]? = some (.pushSubroutine site resume)) :
    ∃ resume', l.entries[k]? = some (.pushSubroutine site resume') ∧
      (resume = resume' ∨ resume' = 0 ∧ l.entries.size < resume) := by
  have here : l.entries[k]? = some l.entries[k] := Array.getElem?_eq_getElem old
  rcases onward.entries k _ here with same | ⟨site', resume', same, later, there'⟩
  · exact ⟨resume, (here.trans (same.symm.trans there)), .inl rfl⟩
  · cases there'.symm.trans there
    exact ⟨0, here.trans (congrArg some same), .inr ⟨rfl, later⟩⟩

theorem openAt (keyed : l.Keyed) {k : Nat} (small : k ≤ l.entries.size) :
    l'.openAt k = l.openAt k := by
  induction k with
  | zero => rfl
  | succ k ih =>
    have before := ih (Nat.le_of_succ_le small)
    obtain ⟨e, here⟩ : ∃ e, l.entries[k]? = some e := ⟨_, Array.getElem?_eq_getElem small⟩
    cases e with
    | pushSubroutine site resume =>
      obtain ⟨resume', here', -⟩ := onward.push here
      rw [openAtPush here, openAtPush here', before, onward.callees _ (keyed _ _ _ here)]
    | popSubroutine =>
      rw [openAtPop here, openAtPop (onward.entry here (by simp)), before]
    | _ =>
      rw [openAtPlain here (by simp) (by simp),
        openAtPlain (onward.entry here (by simp)) (by simp) (by simp), before]

theorem enclosing (keyed : l.Keyed) {k : Nat} (small : k ≤ l.entries.size) :
    l'.enclosing k = l.enclosing k := by
  rw [RootLog.enclosing, RootLog.enclosing, onward.openAt keyed small]

theorem spans {k i : Nat} {site : CallSiteId} (small : i ≤ l.entries.size) :
    l'.Spans k site i ↔ l.Spans k site i := by
  constructor
  · rintro ⟨resume, there, before, -, still⟩
    obtain ⟨resume', here, same⟩ := onward.pushed (by omega) there
    exact ⟨resume', here, before, small, by omega⟩
  · rintro ⟨resume, here, before, -, still⟩
    obtain ⟨resume', there, same⟩ := onward.push here
    exact ⟨resume', there, before, Nat.le_trans small onward.more, by omega⟩

end Onward

structure Framed (l : RootLog) : Prop where
  keyed : l.Keyed
  resumed : ∀ (k : Nat) site resume, l.entries[k]? = some (.pushSubroutine site resume) → resume ≠ 0 →
    k < resume ∧ resume ≤ l.entries.size ∧ l.openAt resume = l.openAt k
  inner : ∀ (k : Nat) site i, l.Spans k site i → (l.call site).region :: l.openAt k <:+ l.openAt i
  innermost : ∀ (i : Nat) g rest, i ≤ l.entries.size → l.openAt i = g :: rest →
    ∃ k site, l.Spans k site i ∧ (l.call site).region = g ∧ l.openAt k = rest

theorem Reads.level (framed : Framed l) {depth i j : Nat} {p : Passage} (reads : Reads l depth i p j) :
    l.openAt j = l.openAt i := by
  induction reads with
  | done => rfl
  | mark here _ ih | clear here _ ih | visit here _ _ ih | trace here _ _ ih =>
    rw [ih, openAtPlain here (by simp) (by simp)]
  | context here _ close _ ihInside ihAfter | handler here _ close _ ihInside ihAfter =>
    rw [ihAfter, openAtPlain close (by simp) (by simp), ihInside, openAtPlain here (by simp) (by simp)]
  | call here onward _ _ _ _ _ _ _ _ ih =>
    rw [ih, (framed.resumed _ _ _ here (by omega)).2.2]

theorem Framed.step (framed : Framed l) (onward : Onward l l')
    (size : l'.entries.size ≤ l.entries.size + 1) (keyed : l'.Keyed)
    (fresh : ∀ site resume, l'.entries[l.entries.size]? = some (.pushSubroutine site resume) →
      resume = 0)
    (resumed : ∀ (k : Nat) site resume, l'.entries[k]? = some (.pushSubroutine site resume) →
      l.entries.size < resume → resume ≤ l'.entries.size ∧ l'.openAt resume = l.openAt k)
    (inner : ∀ k site, l'.Spans k site (l.entries.size + 1) →
      (l'.call site).region :: l'.openAt k <:+ l'.openAt (l.entries.size + 1))
    (innermost : ∀ g rest, l'.entries.size = l.entries.size + 1 →
      l'.openAt (l.entries.size + 1) = g :: rest →
      ∃ k site, l'.Spans k site (l.entries.size + 1) ∧ (l'.call site).region = g ∧
        l'.openAt k = rest) : Framed l' := by
  have level : ∀ {k}, k ≤ l.entries.size → l'.openAt k = l.openAt k := onward.openAt framed.keyed
  refine ⟨keyed, ?_, ?_, ?_⟩
  · intro k site resume there closed
    by_cases old : k < l.entries.size
    · obtain ⟨resume', here, same⟩ := onward.pushed old there
      by_cases later : l.entries.size < resume
      · obtain ⟨inside, same⟩ := resumed k site resume there later
        exact ⟨by omega, inside, by rw [same, level (Nat.le_of_lt old)]⟩
      · obtain ⟨before, inside, same⟩ := framed.resumed k site resume' here (by omega)
        have kept : resume = resume' := by omega
        subst kept
        exact ⟨before, Nat.le_trans inside onward.more, by rw [level inside, level (by omega), same]⟩
    · have at' : k = l.entries.size := by
        have := known there
        omega
      exact absurd (fresh site resume (at' ▸ there)) closed
  · intro k site i spans
    by_cases past : i ≤ l.entries.size
    · obtain ⟨resume, here, before, -⟩ := (onward.spans past).mp spans
      rw [level past, level (by omega), onward.callees site (framed.keyed _ _ _ here)]
      exact framed.inner k site i ((onward.spans past).mp spans)
    · have at' : i = l.entries.size + 1 := by
        obtain ⟨_, _, _, inside, _⟩ := spans
        omega
      subst at'
      exact inner k site spans
  · intro i g rest inside here
    by_cases past : i ≤ l.entries.size
    · obtain ⟨k, site, spans, region, outer⟩ := framed.innermost i g rest past (level past ▸ here)
      obtain ⟨resume, at', before, -⟩ := id spans
      exact ⟨k, site, (onward.spans past).mpr spans,
        by rw [onward.callees site (framed.keyed _ _ _ at'), region], by rw [level (by omega), outer]⟩
    · have at' : i = l.entries.size + 1 := by omega
      subst at'
      exact innermost g rest (by omega) here

theorem Framed.plain (framed : Framed l) {e : LogEntry} (entries : l'.entries = l.entries.push e)
    (calls : l'.calls = l.calls) (push : ∀ site resume, e ≠ .pushSubroutine site resume)
    (pop : e ≠ .popSubroutine) : Framed l' := by
  have onward : Onward l l' := .add e entries calls
  have size : l'.entries.size = l.entries.size + 1 := by rw [entries, Array.size_push]
  have last : l'.entries[l.entries.size]? = some e := by rw [entries, Array.getElem?_push_size]
  have old : ∀ {k : Nat} {site : CallSiteId} {resume : Nat}, l'.entries[k]? = some (.pushSubroutine site resume) →
      l.entries[k]? = some (.pushSubroutine site resume) := by
    intro k site resume here
    rw [entries] at here
    exact (entriesAdd (l := l) here).resolve_right fun ⟨_, same⟩ => push _ _ same.symm
  have callee : ∀ c, l'.call c = l.call c := fun c => by rw [RootLog.call, calls, RootLog.call]
  have level : ∀ {k}, k ≤ l.entries.size → l'.openAt k = l.openAt k := onward.openAt framed.keyed
  have ending : l'.openAt (l.entries.size + 1) = l.openAt l.entries.size := by
    rw [openAtPlain last push pop, level (Nat.le_refl _)]
  have closed : ∀ {k : Nat} {site : CallSiteId} {resume : Nat}, l'.entries[k]? = some (.pushSubroutine site resume) →
      resume ≤ l.entries.size := by
    intro k site resume here
    by_cases none : resume = 0
    · omega
    · exact (framed.resumed k site resume (old here) none).2.1
  refine framed.step onward (Nat.le_of_eq size)
    (fun k site resume here => calls ▸ framed.keyed k site resume (old here)) ?_ ?_ ?_ ?_
  · exact fun site resume here => absurd (Option.some.inj (last.symm.trans here)) (push _ _)
  · intro k site resume here later
    have := closed here
    omega
  · rintro k site ⟨resume, here, before, -, still⟩
    have small := known (old here)
    have := closed here
    rw [ending, callee, level (Nat.le_of_lt small)]
    exact framed.inner k site _ ⟨resume, old here, small, Nat.le_refl _, by omega⟩
  · intro g rest _ here
    obtain ⟨k, site, ⟨resume, at', before, -, still⟩, region, outer⟩ :=
      framed.innermost _ g rest (Nat.le_refl _) (ending ▸ here)
    have there : l'.entries[k]? = some (.pushSubroutine site resume) := by
      rw [entries]
      exact (entriesKept (l := l) e (known at')).trans at'
    have := closed there
    exact ⟨k, site, ⟨resume, there, by omega, by omega, by omega⟩, by rw [callee, region],
      by rw [level (Nat.le_of_lt (known at')), outer]⟩

theorem Framed.still (framed : Framed l) (entries : l'.entries = l.entries)
    (callees : ∀ c, (l'.call c).region = (l.call c).region) (calls : l'.calls.size = l.calls.size) :
    Framed l' := by
  refine framed.step (.still entries callees calls) (by rw [entries]; exact Nat.le_succ _) ?_ ?_ ?_ ?_ ?_
  · exact fun k site resume here => calls ▸ framed.keyed k site resume (entries ▸ here)
  · intro site resume here
    have := known here
    rw [entries] at this
    omega
  · intro k site resume here later
    rw [entries] at here
    have := (framed.resumed k site resume here (by omega)).2.1
    omega
  · rintro k site ⟨_, _, _, inside, _⟩
    rw [entries] at inside
    omega
  · intro g rest size
    rw [entries] at size
    omega

theorem Framed.call (framed : Framed l) {ip : Nat} {sub : OpenSubroutine}
    (starts : Starts l l' ip sub) : Framed l' := by
  have onward : Onward l l' := .start starts
  have size : l'.entries.size = l.entries.size + 1 := by rw [starts.entries, Array.size_push]
  have last : l'.entries[l.entries.size]? = some (.pushSubroutine ⟨l.calls.size⟩ 0) := by
    rw [starts.entries, Array.getElem?_push_size]
  have split : ∀ {k : Nat} {site : CallSiteId} {resume : Nat}, l'.entries[k]? = some (.pushSubroutine site resume) →
      l.entries[k]? = some (.pushSubroutine site resume) ∨
        k = l.entries.size ∧ site = ⟨l.calls.size⟩ ∧ resume = 0 := by
    intro k site resume here
    rw [starts.entries] at here
    rcases entriesAdd (l := l) here with old | ⟨at', same⟩
    · exact .inl old
    · cases same
      exact .inr ⟨at', rfl, rfl⟩
  have level : ∀ {k}, k ≤ l.entries.size → l'.openAt k = l.openAt k := onward.openAt framed.keyed
  have ending : l'.openAt (l.entries.size + 1) =
      (l'.call ⟨l.calls.size⟩).region :: l.openAt l.entries.size := by
    rw [openAtPush last, level (Nat.le_refl _)]
  have closed : ∀ {k : Nat} {site : CallSiteId} {resume : Nat}, l'.entries[k]? = some (.pushSubroutine site resume) →
      resume ≤ l.entries.size := by
    intro k site resume here
    by_cases none : resume = 0
    · omega
    · rcases split here with old | ⟨-, -, same⟩
      · exact (framed.resumed k site resume old none).2.1
      · exact absurd same none
  refine framed.step onward (Nat.le_of_eq size) (fun k site resume here => ?_) ?_ ?_ ?_ ?_
  · rcases split here with old | ⟨-, rfl, -⟩
    · exact Nat.lt_of_lt_of_le (framed.keyed k site resume old) onward.calls
    · rw [starts.size.1]
      exact Nat.lt_succ_self _
  · intro site resume here
    cases last.symm.trans here
    rfl
  · intro k site resume here later
    have := closed here
    omega
  · rintro k site ⟨resume, here, before, -, still⟩
    have := closed here
    rw [ending]
    rcases split here with old | ⟨rfl, rfl, -⟩
    · have small := known old
      rw [starts.callee (framed.keyed _ _ _ old), level (Nat.le_of_lt small)]
      refine (framed.inner k site _ ⟨resume, old, small, Nat.le_refl _, by omega⟩).trans ?_
      exact List.suffix_cons _ _
    · exact (level (Nat.le_refl _)).symm ▸ List.suffix_refl _
  · intro g rest _ here
    rw [ending] at here
    cases here
    exact ⟨l.entries.size, _, ⟨0, last, by omega, by omega, .inl rfl⟩, rfl, level (Nat.le_refl _)⟩

theorem Framed.resume (framed : Framed l) {sub : OpenSubroutine} {site : CallSiteId}
    (open' : l.entries[sub.entry]? = some (.pushSubroutine site 0))
    (top : l.openAt l.entries.size = (l.call site).region :: l.openAt sub.entry) :
    Framed (l.endSubroutine sub) := by
  have onward : Onward l (l.endSubroutine sub) := .resume open'
  have size := Onward.endSize l sub
  have small : sub.entry < l.entries.size := known open'
  have level : ∀ {k}, k ≤ l.entries.size → (l.endSubroutine sub).openAt k = l.openAt k :=
    onward.openAt framed.keyed
  have last : (l.endSubroutine sub).entries[l.entries.size]? = some .popSubroutine := by
    rw [endEntry, if_neg (Nat.ne_of_lt small), entriesLast]
  have ending : (l.endSubroutine sub).openAt (l.entries.size + 1) = l.openAt sub.entry := by
    rw [openAtPop last, level (Nat.le_refl _), top, List.tail_cons]
  have split : ∀ {k : Nat} {s : CallSiteId} {resume : Nat}, (l.endSubroutine sub).entries[k]? = some (.pushSubroutine s resume) →
      k ≠ sub.entry ∧ l.entries[k]? = some (.pushSubroutine s resume) ∨
        k = sub.entry ∧ s = site ∧ resume = l.entries.size + 1 := by
    intro k s resume here
    by_cases at' : k = sub.entry
    · subst at'
      rw [endEntry, if_pos rfl, entriesKept _ small, open'] at here
      cases here
      exact .inr ⟨rfl, rfl, rfl⟩
    · rw [endEntry, if_neg (Ne.symm at')] at here
      refine .inl ⟨at', (entriesAdd here).resolve_right ?_⟩
      rintro ⟨-, same⟩
      cases same
  have closed : ∀ {k : Nat} {s : CallSiteId} {resume : Nat}, k ≠ sub.entry →
      l.entries[k]? = some (.pushSubroutine s resume) → resume ≤ l.entries.size := by
    intro k s resume _ here
    by_cases none : resume = 0
    · omega
    · exact (framed.resumed k s resume here none).2.1
  have spanned : l.Spans sub.entry site l.entries.size :=
    ⟨0, open', small, Nat.le_refl _, .inl rfl⟩
  refine framed.step onward (Nat.le_of_eq size) (fun k s resume here => ?_) ?_ ?_ ?_ ?_
  · rcases split here with ⟨-, old⟩ | ⟨-, rfl, -⟩
    · exact framed.keyed k s resume old
    · exact framed.keyed _ _ _ open'
  · intro s resume here
    cases last.symm.trans here
  · intro k s resume here later
    rcases split here with ⟨other, old⟩ | ⟨rfl, -, rfl⟩
    · have := closed other old
      omega
    · exact ⟨by omega, ending⟩
  · -- what is still open was opened before
    rintro k s ⟨resume, here, before, -, still⟩
    rcases split here with ⟨other, old⟩ | ⟨-, -, rfl⟩
    · have inside := closed other old
      have bare : resume = 0 := by omega
      subst bare
      rw [ending, level (Nat.le_of_lt (known old))]
      rcases Nat.lt_or_gt_of_ne other with earlier | after
      · exact framed.inner k s sub.entry ⟨0, old, earlier, Nat.le_of_lt small, .inl rfl⟩
      · have below := (framed.inner sub.entry site k ⟨0, open', after, Nat.le_of_lt (known old),
          .inl rfl⟩).length_le
        have above := (framed.inner k s _ ⟨0, old, known old, Nat.le_refl _, .inl rfl⟩).length_le
        rw [top] at above
        simp only [List.length_cons] at above below
        omega
    · omega
  · intro g rest _ here
    rw [ending] at here
    obtain ⟨k, s, ⟨resume, at', before, -, still⟩, region, outer⟩ :=
      framed.innermost sub.entry g rest (Nat.le_of_lt small) here
    have there : (l.endSubroutine sub).entries[k]? = some (.pushSubroutine s resume) := by
      rw [endEntry, if_neg (Nat.ne_of_gt before), entriesKept _ (known at'), at']
    refine ⟨k, s, ⟨resume, there, by omega, by omega, ?_⟩, region,
      by rw [level (Nat.le_of_lt (known at')), outer]⟩
    -- an entry that is closed before the end would have closed this one
    by_contra other
    obtain ⟨-, inside, same⟩ := framed.resumed k s resume at' (by omega)
    have below := (framed.inner sub.entry site resume
      ⟨0, open', by omega, inside, .inl rfl⟩).length_le
    rw [same, outer, here] at below
    simp only [List.length_cons] at below
    omega

theorem Recorded.framed (recorded : Recorded l opened) : Framed l := by
  induction recorded with
  | new codeLength mapSize =>
    have none : ∀ {k : Nat} {e : LogEntry}, (RootLog.new codeLength mapSize).entries[k]? ≠ some e := by
      intro k e here
      simp [RootLog.new] at here
    refine ⟨fun _ _ _ here => absurd here none, fun _ _ _ here => absurd here none,
      fun _ _ _ site => absurd site.choose_spec.1 none, fun i g rest inside here => ?_⟩
    have start : i = 0 := Nat.eq_zero_of_le_zero inside
    subst start
    cases here
  | visit _ reached ih =>
    obtain ⟨-, at', -, rfl⟩ := visitOk reached
    exact ih.plain rfl rfl (by simp) (by simp)
  | mark _ _ ih | clear _ _ ih | enter _ ih | handle _ _ _ ih | leave _ ih | trace _ _ ih =>
    exact ih.plain rfl rfl (by simp) (by simp)
  | attach _ t address argument ih => exact ih.still rfl (fun _ => rfl) rfl
  | @call l _ _ ip address _ ih => exact ih.call (startStarts l ip address)
  | slot _ slot ih =>
    unfold setReturnSlot
    split
    · exact ih.still rfl (fun _ => rfl) rfl
    · exact ih
  | resume before ih =>
    obtain ⟨-, order, nested⟩ := before.nested
    obtain ⟨⟨site, here, -⟩, ⟨p, inside⟩, -⟩ := nested.spine
    exact ih.resume here (by rw [inside.level ih, openAtPush here])
  | solve before s ih =>
    obtain ⟨tallied, -⟩ := before.nested
    have grows := (solveKept ih.keyed tallied.charted s).grows
    exact ih.still grows.entries grows.callees grows.calls

/-- Each subroutine is always entered from the same subroutine, or always from none. -/
def FixedNest (l : RootLog) : Prop :=
  ∀ (i j : Nat) (a b : CallSiteId) (m n : Nat), l.entries[i]? = some (.pushSubroutine a m) →
    l.entries[j]? = some (.pushSubroutine b n) → (l.call a).region = (l.call b).region →
    l.enclosing i = l.enclosing j

theorem FixedNest.earlier (fixed : FixedNest l') (onward : Onward l l') (keyed : l.Keyed) :
    FixedNest l := by
  intro i j a b m n here there same
  obtain ⟨m', here', -⟩ := onward.push here
  obtain ⟨n', there', -⟩ := onward.push there
  have alike := fixed i j a b m' n' here' there' (by
    rw [onward.callees a (keyed _ _ _ here), onward.callees b (keyed _ _ _ there), same])
  rwa [onward.enclosing keyed (Nat.le_of_lt (known here)),
    onward.enclosing keyed (Nat.le_of_lt (known there))] at alike

structure Rostered (l : RootLog) : Prop where
  listed : ∀ g c, c ∈ (l.region g).calls ↔ c.index < l.calls.size ∧ (l.call c).region = g
  once : ∀ g, (l.region g).calls.Nodup
  entered : ∀ c : CallSiteId, c.index < l.calls.size → ∃ (k resume : Nat),
    l.entries[k]? = some (.pushSubroutine c resume)
  inside : ∀ c : CallSiteId, c.index < l.calls.size → (l.call c).region.index < l.regions.size
  met : ∀ g : RegionId, g.index < l.regions.size → ∃ c, c ∈ (l.region g).calls
  outer : ∀ (g o : RegionId), (l.region g).outer = some o → o.index < g.index
  current : ∀ o, l.current = some o → o.index < l.regions.size

theorem Rostered.still (rostered : Rostered l) (onward : Onward l l')
    (calls : l'.calls.size = l.calls.size) (callees : ∀ c, (l'.call c).region = (l.call c).region)
    (size : l'.regions.size = l.regions.size)
    (regions : ∀ g, (l'.region g).calls = (l.region g).calls ∧ (l'.region g).outer = (l.region g).outer)
    (current : ∀ o, l'.current = some o → o.index < l.regions.size) : Rostered l' where
  listed g c := by rw [(regions g).1, calls, callees, rostered.listed]
  once g := by rw [(regions g).1]; exact rostered.once g
  entered c small := by
    obtain ⟨k, resume, here⟩ := rostered.entered c (calls ▸ small)
    obtain ⟨resume', there, -⟩ := onward.push here
    exact ⟨k, resume', there⟩
  inside c small := by rw [callees, size]; exact rostered.inside c (calls ▸ small)
  met g small := by rw [(regions g).1]; exact rostered.met g (size ▸ small)
  outer g o same := rostered.outer g o ((regions g).2 ▸ same)
  current o same := size ▸ current o same

structure Enters (l l' : RootLog) (sub : OpenSubroutine) : Prop where
  current : l'.current = some sub.region
  calls : ∀ g, (l'.region g).calls =
    (l.region g).calls ++ if g = sub.region then [⟨l.calls.size⟩] else []
  outers : ∀ g : RegionId, g.index ≠ l.regions.size → (l'.region g).outer = (l.region g).outer
  fresh : sub.region.index = l.regions.size → (l'.region sub.region).outer = l.current

theorem regionBeyond {g : RegionId} (beyond : l.regions.size ≤ g.index) : l.region g = default := by
  rw [RootLog.region, Array.getD_eq_getD_getElem?, Array.getElem?_eq_none beyond]
  rfl

theorem startEnters (l : RootLog) (ip : Nat) (address : PromiseId) :
    Enters l (l.startSubroutine ip address).2 (l.startSubroutine ip address).1 := by
  cases found : l.regions.findIdx? (·.ip == ip) with
  | some i =>
    have inside : i < l.regions.size := (Array.findIdx?_eq_some_iff_getElem.mp found).1
    simp only [startSubroutine, regionFor, found]
    refine ⟨rfl, fun g => ?_, fun g _ => ?_, fun beyond => absurd beyond (Nat.ne_of_lt inside)⟩
    · simp only [RootLog.region, RootLog.add, getDModify]
      by_cases same : g = ⟨i⟩
      · subst same
        simp [inside]
      · have apart : i ≠ g.index := fun h => same (by cases g; cases h; rfl)
        simp [same, apart]
    · simp only [RootLog.region, RootLog.add, getDModify]
      split <;> rfl
  | none =>
    simp only [startSubroutine, regionFor, found]
    have pushed : ∀ (g : RegionId) (d : Region), (l.regions.push d).getD g.index default =
        if g.index = l.regions.size then d else l.region g := by
      intro g d
      rw [RootLog.region, Array.getD_eq_getD_getElem?, Array.getD_eq_getD_getElem?,
        Array.getElem?_push]
      split <;> rfl
    refine ⟨rfl, fun g => ?_, fun g other => ?_, fun _ => ?_⟩
    · simp only [RootLog.region, RootLog.add, getDModify, pushed, Array.size_push]
      by_cases same : g = ⟨l.regions.size⟩
      · subst same
        have beyond : l.regions.getD l.regions.size default = default :=
          regionBeyond (g := ⟨l.regions.size⟩) (Nat.le_refl _)
        simp [beyond]
        rfl
      · have apart : g.index ≠ l.regions.size := fun h => same (by cases g; cases h; rfl)
        simp [same, apart, Ne.symm apart]
    · simp only [RootLog.region, RootLog.add, getDModify, pushed, other, Ne.symm other]
      simp
    · simp only [RootLog.region, RootLog.add, getDModify, pushed, Array.size_push]
      simp

theorem Rostered.call (rostered : Rostered l) {ip : Nat} {sub : OpenSubroutine}
    (starts : Starts l l' ip sub) (enters : Enters l l' sub) : Rostered l' := by
  have onward : Onward l l' := .start starts
  obtain ⟨size, more, inTable⟩ := starts.size
  have last : l'.entries[l.entries.size]? = some (.pushSubroutine ⟨l.calls.size⟩ 0) := by
    rw [starts.entries, Array.getElem?_push_size]
  have split : ∀ c : CallSiteId, c.index < l'.calls.size → c.index < l.calls.size ∨ c = ⟨l.calls.size⟩ := by
    intro c small
    by_cases old : c.index < l.calls.size
    · exact .inl old
    · refine .inr ?_
      have : c.index = l.calls.size := by omega
      cases c
      cases this
      rfl
  constructor
  case listed =>
    intro g c
    rw [enters.calls, List.mem_append, rostered.listed]
    constructor
    · rintro (⟨small, region⟩ | new)
      · exact ⟨by omega, by rw [starts.callee small, region]⟩
      · split at new
        · rename_i same
          cases List.mem_singleton.mp new
          exact ⟨by simp only; omega, by rw [starts.called.1, same]⟩
        · cases new
    · rintro ⟨small, region⟩
      rcases split c small with old | rfl
      · exact .inl ⟨old, by rw [← starts.callee old, region]⟩
      · rw [starts.called.1] at region
        exact .inr (by simp [region])
  case once =>
    intro g
    rw [enters.calls]
    refine List.nodup_append.mpr ⟨rostered.once g, by split <;> simp, fun c old c' new => ?_⟩
    split at new
    · cases List.mem_singleton.mp new
      rintro rfl
      exact Nat.lt_irrefl _ ((rostered.listed g _).mp old).1
    · cases new
  case entered =>
    intro c small
    rcases split c small with old | rfl
    · obtain ⟨k, resume, here⟩ := rostered.entered c old
      obtain ⟨resume', there, -⟩ := onward.push here
      exact ⟨k, resume', there⟩
    · exact ⟨_, _, last⟩
  case inside =>
    intro c small
    rcases split c small with old | rfl
    · rw [starts.callee old]
      exact Nat.lt_of_lt_of_le (rostered.inside c old) more
    · rw [starts.called.1]
      exact inTable
  case met =>
    intro g small
    rw [enters.calls]
    by_cases same : g = sub.region
    · exact ⟨_, List.mem_append_right _ (by rw [if_pos same]; exact List.mem_singleton.mpr rfl)⟩
    · have old : g.index < l.regions.size := by
        rcases starts.region with ⟨-, -, keep⟩ | ⟨new, grown, -⟩
        · omega
        · have : g.index ≠ sub.region.index := fun h => same (by cases g; cases h; rfl)
          omega
      obtain ⟨c, member⟩ := rostered.met g old
      exact ⟨c, List.mem_append_left _ member⟩
  case outer =>
    intro g o same
    by_cases new : g.index = l.regions.size
    · by_cases entered : g = sub.region
      · subst entered
        rw [enters.fresh new] at same
        exact new ▸ rostered.current o same
      · rcases starts.region with ⟨-, -, keep⟩ | ⟨at', -, -⟩
        · rw [regionBeyond (by omega)] at same
          cases same
        · exact absurd (congrArg RegionId.mk (new.trans at'.symm)) entered
    · rw [enters.outers g new] at same
      exact rostered.outer g o same
  case current =>
    intro o same
    rw [enters.current] at same
    cases same
    exact inTable

theorem regionSlot (slot : Nat) (g : RegionId) :
    ((l.setReturnSlot slot).region g).calls = (l.region g).calls ∧
      ((l.setReturnSlot slot).region g).outer = (l.region g).outer := by
  unfold setReturnSlot
  split
  · simp only [RootLog.region, getDModify]
    split <;> exact ⟨rfl, rfl⟩
  · exact ⟨rfl, rfl⟩

theorem onwardSlot (l : RootLog) (slot : Nat) : Onward l (l.setReturnSlot slot) ∧
    (l.setReturnSlot slot).calls = l.calls ∧
    (l.setReturnSlot slot).regions.size = l.regions.size ∧
    (l.setReturnSlot slot).current = l.current := by
  unfold setReturnSlot
  split
  · exact ⟨.still rfl (fun _ => rfl) rfl, rfl, by simp, rfl⟩
  · exact ⟨.still rfl (fun _ => rfl) rfl, rfl, rfl, rfl⟩

theorem Recorded.rostered (recorded : Recorded l opened) : Rostered l := by
  induction recorded with
  | new codeLength mapSize =>
    have none : ∀ g, (RootLog.new codeLength mapSize).region g = default := fun g =>
      regionBeyond (Nat.zero_le _)
    have calls : ∀ c : CallSiteId, ¬ c.index < (RootLog.new codeLength mapSize).calls.size :=
      fun c => Nat.not_lt_zero _
    refine ⟨fun g c => ?_, fun g => ?_, fun c small => absurd small (calls c),
      fun c small => absurd small (calls c), fun g small => absurd small (Nat.not_lt_zero _),
      fun g o same => ?_, fun o same => ?_⟩
    · rw [none]
      exact ⟨fun member => absurd member List.not_mem_nil, fun both => absurd both.1 (calls c)⟩
    · rw [none]
      exact List.nodup_nil
    · rw [none] at same
      cases same
    · cases same
  | visit _ reached ih =>
    obtain ⟨-, at', -, rfl⟩ := visitOk reached
    exact ih.still (.add _ rfl rfl) rfl (fun _ => rfl) rfl (fun _ => ⟨rfl, rfl⟩) ih.current
  | mark _ _ ih | clear _ _ ih | enter _ ih | handle _ _ _ ih | leave _ ih | trace _ _ ih =>
    exact ih.still (.add _ rfl rfl) rfl (fun _ => rfl) rfl (fun _ => ⟨rfl, rfl⟩) ih.current
  | attach _ t address argument ih =>
    exact ih.still (.still rfl (fun _ => rfl) rfl) rfl (fun _ => rfl) rfl (fun _ => ⟨rfl, rfl⟩) ih.current
  | @call l _ _ ip address _ ih => exact ih.call (startStarts l ip address) (startEnters l ip address)
  | @slot l _ _ slot ih =>
    obtain ⟨onward, calls, size, current⟩ := onwardSlot l slot
    refine ih.still onward (by rw [calls]) (fun c => by rw [RootLog.call, calls, RootLog.call]) size
      (regionSlot slot) fun o same => ih.current o (current ▸ same)
  | @resume l _ sub before ih =>
    obtain ⟨-, order, nested⟩ := before.nested
    obtain ⟨⟨site, here, -⟩, -, -⟩ := nested.spine
    refine ih.still (.resume here) rfl (fun _ => rfl) rfl (fun _ => ⟨rfl, rfl⟩) fun o same => ?_
    exact Nat.lt_trans (ih.outer sub.region o same) (nested.begun sub List.mem_cons_self).1
  | solve before s ih =>
    obtain ⟨tallied, -⟩ := before.nested
    have grows := (solveKept before.framed.keyed tallied.charted s).grows
    exact ih.still (.grow grows) grows.calls grows.callees (by rw [grows.regions])
      (fun g => by rw [RootLog.region, grows.regions]; exact ⟨rfl, rfl⟩)
      fun o same => ih.current o (grows.current ▸ same)

structure Placed (l : RootLog) : Prop where
  current : l.current = l.enclosing l.entries.size
  outer : ∀ (k : Nat) site resume, l.entries[k]? = some (.pushSubroutine site resume) →
    (l.region (l.call site).region).outer = l.enclosing k

theorem Placed.plain (placed : Placed l) (framed : Framed l) {e : LogEntry}
    (entries : l'.entries = l.entries.push e) (calls : l'.calls = l.calls)
    (regions : l'.regions = l.regions) (current : l'.current = l.current)
    (push : ∀ site resume, e ≠ .pushSubroutine site resume) (pop : e ≠ .popSubroutine) :
    Placed l' := by
  have onward : Onward l l' := .add e entries calls
  have last : l'.entries[l.entries.size]? = some e := by rw [entries, Array.getElem?_push_size]
  constructor
  · rw [current, placed.current, entries, Array.size_push, RootLog.enclosing, RootLog.enclosing,
      openAtPlain last push pop, onward.openAt framed.keyed (Nat.le_refl _)]
  · intro k site resume here
    rw [entries] at here
    have old := (entriesAdd (l := l) here).resolve_right fun ⟨_, same⟩ => push _ _ same.symm
    rw [RootLog.region, RootLog.call, regions, calls,
      onward.enclosing framed.keyed (Nat.le_of_lt (known old))]
    exact placed.outer k site resume old

theorem Placed.still (placed : Placed l) (framed : Framed l) (entries : l'.entries = l.entries)
    (callees : ∀ c, (l'.call c).region = (l.call c).region) (calls : l'.calls.size = l.calls.size)
    (regions : ∀ g, (l'.region g).outer = (l.region g).outer) (current : l'.current = l.current) :
    Placed l' := by
  have onward : Onward l l' := .still entries callees calls
  constructor
  · rw [current, placed.current, entries, onward.enclosing framed.keyed (Nat.le_refl _)]
  · intro k site resume here
    rw [entries] at here
    rw [callees, regions, onward.enclosing framed.keyed (Nat.le_of_lt (known here))]
    exact placed.outer k site resume here

theorem Placed.call (placed : Placed l) (framed : Framed l) (rostered : Rostered l) {ip : Nat}
    {sub : OpenSubroutine} (starts : Starts l l' ip sub) (enters : Enters l l' sub)
    (fixed : FixedNest l') : Placed l' := by
  have onward : Onward l l' := .start starts
  have last : l'.entries[l.entries.size]? = some (.pushSubroutine ⟨l.calls.size⟩ 0) := by
    rw [starts.entries, Array.getElem?_push_size]
  have before := onward.enclosing framed.keyed (Nat.le_refl _)
  -- the outer subroutine of a region that was there already
  have kept : ∀ (k : Nat) site resume, l.entries[k]? = some (.pushSubroutine site resume) →
      (l'.region (l'.call site).region).outer = l'.enclosing k := by
    intro k site resume here
    have small := framed.keyed k site resume here
    rw [starts.callee small, onward.enclosing framed.keyed (Nat.le_of_lt (known here)),
      enters.outers _ (Nat.ne_of_lt (rostered.inside site small))]
    exact placed.outer k site resume here
  constructor
  · rw [enters.current, starts.entries, Array.size_push, RootLog.enclosing, openAtPush last,
      starts.called.1]
    rfl
  · intro k site resume here
    rw [starts.entries] at here
    rcases entriesAdd (l := l) here with old | ⟨rfl, same⟩
    · exact kept k site resume old
    · cases same
      rcases starts.region with ⟨old, -, -⟩ | ⟨new, -, -⟩
      · obtain ⟨c, member⟩ := rostered.met sub.region old
        obtain ⟨small, region⟩ := (rostered.listed _ c).mp member
        obtain ⟨k, resume, there⟩ := rostered.entered c small
        obtain ⟨resume', there', -⟩ := onward.push there
        have alike : (l'.call ⟨l.calls.size⟩).region = (l'.call c).region := by
          rw [starts.called.1, starts.callee small, region]
        rw [alike, kept k c resume there]
        exact fixed k _ c _ resume' 0 there' last alike.symm
      · rw [starts.called.1, enters.fresh new, placed.current, before]

theorem Placed.resume (placed : Placed l) (framed : Framed l) {sub : OpenSubroutine}
    {site : CallSiteId} (open' : l.entries[sub.entry]? = some (.pushSubroutine site 0))
    (region : (l.call site).region = sub.region)
    (top : l.openAt l.entries.size = (l.call site).region :: l.openAt sub.entry) :
    Placed (l.endSubroutine sub) := by
  have onward : Onward l (l.endSubroutine sub) := .resume open'
  have small : sub.entry < l.entries.size := known open'
  have last : (l.endSubroutine sub).entries[l.entries.size]? = some .popSubroutine := by
    rw [endEntry, if_neg (Nat.ne_of_lt small), entriesLast]
  constructor
  · rw [Onward.endSize, RootLog.enclosing, openAtPop last, onward.openAt framed.keyed (Nat.le_refl _),
      top, List.tail_cons]
    show (l.region sub.region).outer = _
    rw [← region, placed.outer _ _ _ open', RootLog.enclosing]
  · intro k s resume here
    have old : k < l.entries.size := by
      have := known here
      rw [Onward.endSize] at this
      by_contra other
      have at' : k = l.entries.size := by omega
      subst at'
      cases last.symm.trans here
    obtain ⟨resume', there, -⟩ := onward.pushed old here
    rw [onward.enclosing framed.keyed (Nat.le_of_lt old)]
    exact placed.outer k s resume' there

theorem Recorded.placed (recorded : Recorded l opened) : FixedNest l → Placed l := by
  induction recorded with
  | new codeLength mapSize =>
    exact fun _ => ⟨rfl, fun k site resume here => by simp [RootLog.new] at here⟩
  | visit before reached ih =>
    obtain ⟨-, at', -, rfl⟩ := visitOk reached
    intro fixed
    exact (ih (fixed.earlier (.add _ rfl rfl) before.framed.keyed)).plain before.framed rfl rfl rfl rfl
      (by simp) (by simp)
  | mark before _ ih | clear before _ ih | enter before ih | handle before _ _ ih | leave before ih
  | trace before _ ih =>
    intro fixed
    exact (ih (fixed.earlier (.add _ rfl rfl) before.framed.keyed)).plain before.framed rfl rfl rfl rfl
      (by simp) (by simp)
  | attach before t address argument ih =>
    intro fixed
    exact (ih (fixed.earlier (.still rfl (fun _ => rfl) rfl) before.framed.keyed)).still before.framed
      rfl (fun _ => rfl) rfl (fun _ => rfl) rfl
  | @call l _ before ip address _ ih =>
    intro fixed
    have starts := startStarts l ip address
    exact (ih (fixed.earlier (.start starts) before.framed.keyed)).call before.framed before.rostered
      starts (startEnters l ip address) fixed
  | @slot l _ before slot ih =>
    intro fixed
    obtain ⟨onward, calls, -, current⟩ := onwardSlot l slot
    have entries : (l.setReturnSlot slot).entries = l.entries := by
      unfold setReturnSlot
      split <;> rfl
    exact (ih (fixed.earlier onward before.framed.keyed)).still before.framed entries
      (fun c => by rw [RootLog.call, calls, RootLog.call]) (by rw [calls])
      (fun g => (regionSlot slot g).2) current
  | @resume l _ sub before ih =>
    intro fixed
    obtain ⟨-, order, nested⟩ := before.nested
    obtain ⟨⟨site, here, region⟩, ⟨p, inside⟩, -⟩ := nested.spine
    exact (ih (fixed.earlier (.resume here) before.framed.keyed)).resume before.framed here region
      (by rw [inside.level before.framed, openAtPush here])
  | solve before s ih =>
    intro fixed
    obtain ⟨tallied, -⟩ := before.nested
    have grows := (solveKept before.framed.keyed tallied.charted s).grows
    exact (ih (fixed.earlier (.grow grows) before.framed.keyed)).still before.framed grows.entries
      grows.callees grows.calls (fun g => by rw [RootLog.region, grows.regions, RootLog.region])
      grows.current

end RootLog

end Lowering
