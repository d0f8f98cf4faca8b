import Lowering.Emission
import Lowering.Proofs.Updates
import Mathlib.Algebra.Order.BigOperators.Group.Finset
/-!
What is on loan.

A word in memory counts as a user of the registers of its address from when it is acquired until it is given up. The
users that a register has besides are what is on loan: somebody has borrowed it, or keeps a word where it is.
-/
namespace Lowering.State

variable {s s' t : State} {i : SiteId} {m : MemoryRef} {n : Register} {v : ValueId} {o : Owner} {held more : List SiteId}

def references (s : State) (n : Register) : Nat := (s.resources.get (.register n)).references

def claims (s : State) (n : Register) : Nat := ∑ k ∈ Finset.range s.sites.size, (s.site ⟨k⟩).referred.count n

def loans (s : State) (n : Register) : Nat := s.references n - s.claims n

theorem referredAddressed {x : Site} (used : n ∈ x.referred) : n ∈ x.addressed := by
  unfold Site.referred at used
  split at used
  · exact used
  · cases used

theorem referredPlace (x : Site) : x.place.referred = [] := by cases x <;> rfl

/-! References. -/

theorem referencesRefer (rs : List Register) (table : ResourceTable) (free : (table.get (.register n)).reserved = false) :
    ((table.referAll rs).get (.register n)).references ≤ (table.get (.register n)).references + rs.count n := by
  by_cases known : table.Has (.register n)
  · exact (ResourceTable.referencesReferAll rs table known free).le
  · have outside : ¬ (table.referAll rs).Has (.register n) :=
      fun has => known (((ResourceTable.steadyReferAll rs table).shape.has _).mp has)
    rw [ResourceTable.getOutside outside]
    exact Nat.zero_le _

theorem referencesUnrefer (rs : List Register) (table : ResourceTable) (free : (table.get (.register n)).reserved = false) :
    ((table.unreferAll rs).get (.register n)).references = (table.get (.register n)).references - rs.count n := by
  by_cases known : table.Has (.register n)
  · exact ResourceTable.referencesUnreferAll rs table known free
  · have outside : ¬ (table.unreferAll rs).Has (.register n) :=
      fun has => known (((ResourceTable.steadyUnreferAll rs table).shape.has _).mp has)
    rw [ResourceTable.getOutside outside, ResourceTable.getOutside known]
    exact (Nat.zero_sub _).symm

/-! Words that are acquired. -/

theorem claimsNew (x : Site) : (s.newSite x).2.claims n = s.claims n + x.referred.count n := by
  have size : (s.newSite x).2.sites.size = s.sites.size + 1 := by simp [newSite]
  have last : (s.newSite x).2.site ⟨s.sites.size⟩ = x := s.siteNewSelf x
  rw [claims, size, Finset.sum_range_succ, last, claims]
  congr 1
  refine Finset.sum_congr rfl fun k member => ?_
  rw [s.siteNewOld x (show s.IsSite ⟨k⟩ from Finset.mem_range.mp member)]

theorem claimsSet (known : s.IsSite i) (x : Site) :
    (s.setSite i x).claims n + (s.site i).referred.count n = s.claims n + x.referred.count n := by
  obtain ⟨index⟩ := i
  have inside : index ∈ Finset.range s.sites.size := Finset.mem_range.mpr known
  have size : (s.setSite ⟨index⟩ x).sites.size = s.sites.size := by simp [setSite]
  have others : ∑ k ∈ (Finset.range s.sites.size).erase index, ((s.setSite ⟨index⟩ x).site ⟨k⟩).referred.count n =
      ∑ k ∈ (Finset.range s.sites.size).erase index, (s.site ⟨k⟩).referred.count n := by
    refine Finset.sum_congr rfl fun k member => ?_
    have apart : (⟨k⟩ : SiteId) ≠ ⟨index⟩ := by
      rintro ⟨⟩
      simp at member
    rw [siteSet, if_neg fun both => apart both.1]
  have here : (s.setSite ⟨index⟩ x).site ⟨index⟩ = x := by rw [siteSet, if_pos ⟨rfl, known⟩]
  have before := Finset.add_sum_erase _ (fun k => (s.site ⟨k⟩).referred.count n) inside
  have later := Finset.add_sum_erase _ (fun k => ((s.setSite ⟨index⟩ x).site ⟨k⟩).referred.count n) inside
  rw [others, here] at later
  rw [claims, size, ← later, claims, ← before]
  omega

theorem claimsUnknown (unknown : ¬ s.IsSite i) (x : Site) : (s.setSite i x).claims n = s.claims n := by
  have size : (s.setSite i x).sites.size = s.sites.size := by simp [setSite]
  rw [claims, size, claims]
  exact Finset.sum_congr rfl fun k _ => by rw [siteSet, if_neg fun both => unknown both.2]

theorem claimsAtLeast (i : SiteId) : (s.site i).referred.count n ≤ s.claims n := by
  by_cases known : s.IsSite i
  · exact Finset.single_le_sum (f := fun k => (s.site ⟨k⟩).referred.count n) (fun k _ => Nat.zero_le _)
      (Finset.mem_range.mpr known)
  · have default : s.site i = default := by simp [State.site, Array.getD, show ¬ i.index < s.sites.size from known]
    rw [default]
    exact Nat.zero_le _

theorem loansStill (resources : s'.resources = s.resources) (sites : s'.sites = s.sites) : s'.loans n = s.loans n := by
  simp only [loans, references, claims, site, resources, sites]

theorem loansNew (x : Site) : (s.newSite x).2.loans n ≤ s.loans n := by
  have claimed := claimsNew (s := s) (n := n) x
  have same : (s.newSite x).2.references n = s.references n := rfl
  unfold loans
  omega

theorem loansRelease (free : s.Free (.register n)) (i : SiteId) : (s.release i).loans n ≤ s.loans n := by
  have fewer : (s.release i).references n ≤ s.references n - (s.site i).referred.count n := by
    rw [releaseEq]
    by_cases known : s.resources.Has (.register n)
    · exact (s.referencesReleased i known free).le
    · have outside : ¬ (s.releasedResources i).Has (.register n) :=
        fun has => known (((s.steadyReleased i).shape.has _).mp has)
      show ((s.releasedResources i).get (.register n)).references ≤ _
      rw [ResourceTable.getOutside outside]
      exact Nat.zero_le _
  have claimed : s.claims n ≤ (s.release i).claims n + (s.site i).referred.count n := by
    rw [releaseEq]
    by_cases known : s.IsSite i
    · have set := claimsSet (s := { s with resources := s.releasedResources i }) (n := n) known (s.site i).place
      exact (Nat.le_add_right ..).trans set.ge
    · exact (claimsUnknown (s := { s with resources := s.releasedResources i }) known _).ge.trans (Nat.le_add_right ..)
  have taken := claimsAtLeast (s := s) (n := n) i
  unfold loans
  omega

/-! Words that are kept where they are. -/

/-- How often freezing a site refers to a register. What stands for a resource is frozen otherwise. -/
def leanOf (s : State) (n : Register) (i : SiteId) : Nat :=
  if s.resource? i = none then (s.site i).addressed.count n else 0

def leans (s : State) (held : List SiteId) (n : Register) : Nat := (held.map (s.leanOf n)).sum

theorem leansCons (s : State) (i : SiteId) (held : List SiteId) (n : Register) :
    s.leans (i :: held) n = s.leanOf n i + s.leans held n := by simp [leans]

theorem leansAppend (s : State) (held more : List SiteId) (n : Register) :
    s.leans (held ++ more) n = s.leans held n + s.leans more n := by simp [leans]

theorem leansPerm (same : held.Perm more) (s : State) (n : Register) : s.leans held n = s.leans more n :=
  (same.map _).sum_eq

theorem loansFreeze (free : s.Free (.register n)) (i : SiteId) : (s.freezeSite i).loans n ≤ s.loans n + s.leanOf n i := by
  have claimed : (s.freezeSite i).claims n = s.claims n := by
    rw [freezeSiteEq]
    rfl
  have more : (s.freezeSite i).references n ≤ s.references n + s.leanOf n i := by
    rw [freezeSiteEq, leanOf]
    cases stands : s.resource? i with
    | none => exact referencesRefer _ s.resources free
    | some id => exact ((ResourceTable.freezeAdjusts s.resources id).same (·.references) (fun _ => rfl) _).le
  unfold loans
  omega

theorem loansThaw (free : s.Free (.register n)) (i : SiteId) : (s.thawSite i).loans n ≤ s.loans n - s.leanOf n i := by
  have claimed : (s.thawSite i).claims n = s.claims n := by
    rw [thawSiteEq]
    rfl
  have fewer : (s.thawSite i).references n = s.references n - s.leanOf n i := by
    rw [thawSiteEq, leanOf]
    cases stands : s.resource? i with
    | none => exact referencesUnrefer _ s.resources free
    | some id => exact (ResourceTable.thawAdjusts s.resources id).same (·.references) (fun _ => rfl) _
  unfold loans
  omega

/-! Words that are acquired, and registers that are borrowed. -/

theorem loansReferTo (free : s.Free (.register n)) (m : MemoryRef) :
    (s.referTo m).loans n ≤ s.loans n + m.registers.count n := by
  have claimed : (s.referTo m).claims n = s.claims n := rfl
  have more : (s.referTo m).references n ≤ s.references n + m.registers.count n := referencesRefer _ s.resources free
  unfold loans
  omega

theorem loansSet {x : Site} (known : s.IsSite i) (bare : (s.site i).referred.count n = 0) :
    (s.setSite i x).loans n = s.loans n - x.referred.count n := by
  have claimed := claimsSet (n := n) known x
  have same : (s.setSite i x).references n = s.references n := rfl
  unfold loans
  omega

theorem loansLent (free : s.Free (.register n)) (r : Register) :
    ((s.modifyResources (·.refer (.register r))).releaseTemporary r).loans n ≤ s.loans n := by
  have claimed : ((s.modifyResources (·.refer (.register r))).releaseTemporary r).claims n = s.claims n := rfl
  have lent := referencesRefer [r] s.resources free
  have returned := referencesUnrefer [r] (s.resources.referAll [r])
    (((ResourceTable.steadyReferAll [r] s.resources).reserved _).trans free)
  have same : ((s.modifyResources (·.refer (.register r))).releaseTemporary r).references n ≤ s.references n := by
    show (((s.resources.referAll [r]).unreferAll [r]).get (.register n)).references ≤ _
    rw [returned]
    exact Nat.sub_le_of_le_add lent
  unfold loans
  omega

end Lowering.State
