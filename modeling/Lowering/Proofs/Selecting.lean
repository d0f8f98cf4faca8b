import Lowering.Proofs.Outcome
import Lowering.Proofs.Packing
import Lowering.Proofs.Routes
import Lowering.Proofs.Solving
/-!
The table of a solved log, read for a chain of calls.

The maps of a trace stand in the table in the order of the return offsets of their paths, outermost
call first. All chains of calls that lead to the trace have their path, so the keys of the paths are
all combinations of the return offsets along the nest of subroutines, and the number that a reader
makes of the positions in the records is the place of the map.
-/
namespace Lowering

open Replay Results

namespace RootLog

section Results

variable {α β γ : Type}

theorem forallLeft {R : α → β → Prop} {xs : List α} {ys : List β} (each : List.Forall₂ R xs ys)
    {x : α} (member : x ∈ xs) : ∃ y ∈ ys, R x y := by
  induction each with
  | nil => cases member
  | cons here _ ih =>
    rcases List.mem_cons.mp member with rfl | later
    · exact ⟨_, List.mem_cons_self, here⟩
    · obtain ⟨y, inside, related⟩ := ih later
      exact ⟨y, List.mem_cons_of_mem _ inside, related⟩

theorem forallRight {R : α → β → Prop} {xs : List α} {ys : List β} (each : List.Forall₂ R xs ys)
    {y : β} (member : y ∈ ys) : ∃ x ∈ xs, R x y := by
  obtain ⟨x, inside, related⟩ := forallLeft each.flip member
  exact ⟨x, inside, related⟩

theorem forallNodup {R : α → β → Prop} {xs : List α} {ys : List β} (each : List.Forall₂ R xs ys)
    (once : xs.Nodup) (apart : ∀ a ∈ xs, ∀ b ∈ xs, ∀ y, R a y → R b y → a = b) : ys.Nodup := by
  induction each with
  | nil => exact List.nodup_nil
  | cons here each ih =>
    obtain ⟨fresh, once⟩ := List.nodup_cons.mp once
    refine List.nodup_cons.mpr ⟨fun again => ?_, ih once fun a first b second =>
      apart a (List.mem_cons_of_mem _ first) b (List.mem_cons_of_mem _ second)⟩
    obtain ⟨a, member, there⟩ := forallRight each again
    exact fresh (apart _ List.mem_cons_self a (List.mem_cons_of_mem _ member) _ here there ▸ member)

end Results

variable {l : RootLog} {offset : PromiseId → Except Error Int32}

def returnOffset (l : RootLog) (offset : PromiseId → Except Error Int32) (site : CallSiteId) :
    Except Error Int32 := offset (l.call site).returnAddress

/-- The stack holds the return offsets of a chain, each in the slot of its subroutine. -/
def Answers (l : RootLog) (offset : PromiseId → Except Error Int32) (stack : Nat → Option Int32)
    (chain : List CallSiteId) : Prop :=
  ∀ site ∈ chain, ∀ o, l.returnOffset offset site = .ok o →
    stack (l.region (l.call site).region).stackIndex = some o

def DistinctReturns (l : RootLog) (offset : PromiseId → Except Error Int32) : Prop :=
  ∀ (a b : CallSiteId) (o : Int32), a.index < l.calls.size → b.index < l.calls.size →
    (l.call a).region = (l.call b).region → l.returnOffset offset a = .ok o →
    l.returnOffset offset b = .ok o → a = b

def DistinctTraces (l : RootLog) (offset : PromiseId → Except Error Int32) : Prop :=
  ∀ (t u : TraceId) (p q : PromiseId) (g h : Nat) (o : Int32), t.index < l.traces.size →
    u.index < l.traces.size → (l.traceAt t).address = some (p, g) →
    (l.traceAt u).address = some (q, h) → offset p = .ok o → offset q = .ok o → t = u

structure Legend (l : RootLog) (offset : PromiseId → Except Error Int32) : Prop where
  keyed : l.Keyed
  rostered : Rostered l
  placed : Placed l
  returns : DistinctReturns l offset

theorem Legend.chainUnique (legend : Legend l offset) {chain chain' : List CallSiteId}
    {inside : Option RegionId} {os : List Int32} (leads : l.Leads chain inside)
    (leads' : l.Leads chain' inside) (ok : chain.mapM (l.returnOffset offset) = .ok os)
    (ok' : chain'.mapM (l.returnOffset offset) = .ok os) : chain = chain' := by
  induction leads generalizing chain' os with
  | outside => cases leads'; rfl
  | @call site rest k resume here before ih =>
    generalize same : some (l.call site).region = inside at leads'
    cases leads' with
    | outside => cases same
    | @call site' rest' k' resume' here' before' =>
      have region : (l.call site).region = (l.call site').region := Option.some.inj same
      obtain ⟨o, os, rfl, first, tail⟩ := mapMCons ok
      obtain ⟨o', os', same', first', tail'⟩ := mapMCons ok'
      cases same'
      obtain rfl := legend.returns site site' _ (legend.keyed _ _ _ here) (legend.keyed _ _ _ here')
        region first first'
      have outer := (legend.placed.outer _ _ _ here).symm.trans (legend.placed.outer _ _ _ here')
      rw [ih (outer ▸ before') tail tail']

theorem returnChainSpelled (charted : Charted l) {path : Option PathId} {chain : List CallSiteId}
    (spelled : l.Spelled path chain) : ∀ {fuel : Nat}, (∀ p ∈ path, p.index < fuel) →
      l.returnChain offset fuel path = chain.mapM (l.returnOffset offset) := by
  induction spelled with
  | outside =>
    intro fuel _
    cases fuel <;> rfl
  | @call p d rest here before ih =>
    intro fuel enough
    obtain ⟨fuel, rfl⟩ := Nat.exists_eq_add_of_lt (Nat.lt_of_le_of_lt (Nat.zero_le _) (enough p rfl))
    have known : l.path p = d := by
      rw [RootLog.path, Array.getD_eq_getD_getElem?, here]
      rfl
    have inner := @ih (0 + fuel) fun o member => by
      have := charted.outer _ _ o here member
      have := enough p rfl
      omega
    rw [returnChain, known, List.mapM_cons, inner]
    rfl

theorem pathKeySpelled (charted : Charted l) {p : PathId} {chain : List CallSiteId}
    (spelled : l.Spelled (some p) chain) :
    l.pathKey offset p = (chain.mapM (l.returnOffset offset)).map List.reverse := by
  have enough : ∀ q ∈ some p, q.index < l.paths.size := by
    rintro q ⟨⟩
    cases spelled with
    | call here _ => exact (Array.getElem?_eq_some_iff.mp here).1
  rw [pathKey, returnChainSpelled charted spelled enough]
  cases chain.mapM (l.returnOffset offset) <;> rfl

/-- The records of a subroutine and those around it stand in the table; the lists are their return
offsets, innermost first. -/
inductive Filed (l : RootLog) (offset : PromiseId → Except Error Int32) (records : List PathRecord) :
    Option RegionId → Option Nat → List (List Int32) → Prop where
  | outside : Filed l offset records none none []
  | inside {g i next addresses lists}
      (here : records[i]? = some ⟨UInt32.ofNat (l.region g).stackIndex, addresses.mergeSort (· ≤ ·),
        next.map UInt32.ofNat⟩)
      (listed : (l.region g).calls.mapM (l.returnOffset offset) = .ok addresses)
      (before : ∀ n ∈ next, n < i)
      (outer : Filed l offset records (l.region g).outer next lists) :
      Filed l offset records (some g) (some i) (addresses.mergeSort (· ≤ ·) :: lists)

namespace Filed

variable {records records' : List PathRecord} {inside : Option RegionId} {index : Option Nat}
  {lists : List (List Int32)}

theorem extend (filed : Filed l offset records inside index lists) (more : records <+: records') :
    Filed l offset records' inside index lists := by
  induction filed with
  | outside => exact .outside
  | inside here listed before _ ih =>
    obtain ⟨rest, rfl⟩ := more
    refine .inside ?_ listed before ih
    rw [List.getElem?_append_left (List.getElem?_eq_some_iff.mp here).1, here]

theorem known {g : RegionId} {i : Nat} (filed : Filed l offset records (some g) (some i) lists) :
    i < records.length := by
  cases filed with
  | inside here => exact (List.getElem?_eq_some_iff.mp here).1

theorem ascending (legend : Legend l offset) (filed : Filed l offset records inside index lists) :
    ∀ offsets ∈ lists, offsets.Pairwise (· < ·) := by
  induction filed with
  | outside => exact fun os member => absurd member List.not_mem_nil
  | @inside g i next addresses lists _ listed _ _ ih =>
    intro os member
    rcases List.mem_cons.mp member with rfl | later
    · have distinct : addresses.Nodup := by
        refine forallNodup (mapMOk listed) (legend.rostered.once g) fun a first b second o => ?_
        obtain ⟨known, region⟩ := (legend.rostered.listed g a).mp first
        obtain ⟨known', region'⟩ := (legend.rostered.listed g b).mp second
        exact legend.returns a b o known known' (region.trans region'.symm)
      have sorted := sortedAscends (f := id)
        (by simpa using distinct : (addresses.map id).Nodup)
      simpa using sorted
    · exact ih os later

theorem chainListed (legend : Legend l offset) (filed : Filed l offset records inside index lists) :
    ∀ {chain : List CallSiteId} {os : List Int32}, l.Leads chain inside →
      chain.mapM (l.returnOffset offset) = .ok os → List.Forall₂ (· ∈ ·) os lists := by
  induction filed with
  | outside =>
    intro chain os leads ok
    cases leads
    cases ok
    exact .nil
  | @inside g i next addresses lists here listed before _ ih =>
    intro chain os leads ok
    generalize same : some g = whole at leads
    cases leads with
    | outside => cases same
    | @call site rest k resume entry inner =>
      obtain rfl := Option.some.inj same
      obtain ⟨o, os, rfl, first, tail⟩ := mapMCons ok
      rw [← legend.placed.outer _ _ _ entry] at inner
      refine .cons ?_ (ih inner tail)
      have member := (legend.rostered.listed _ site).mpr ⟨legend.keyed _ _ _ entry, rfl⟩
      obtain ⟨o, inside, returned⟩ := forallLeft (mapMOk listed) member
      cases first.symm.trans returned
      exact List.mem_mergeSort.mpr inside

theorem chainOf (legend : Legend l offset) (filed : Filed l offset records inside index lists) :
    ∀ {os : List Int32}, List.Forall₂ (· ∈ ·) os lists → ∃ chain, l.Leads chain inside ∧
      chain.mapM (l.returnOffset offset) = .ok os := by
  induction filed with
  | outside =>
    rintro os ⟨⟩
    exact ⟨[], .outside, rfl⟩
  | @inside g i next addresses lists here listed before _ ih =>
    rintro os (_ | ⟨first, rest⟩)
    obtain ⟨site, member, returned⟩ := forallRight (mapMOk listed) (List.mem_mergeSort.mp first)
    obtain ⟨known, region⟩ := (legend.rostered.listed g site).mp member
    obtain ⟨k, resume, entry⟩ := legend.rostered.entered site known
    obtain ⟨chain, leads, ok⟩ := ih rest
    rw [← region, legend.placed.outer _ _ _ entry] at leads
    exact ⟨site :: chain, region ▸ .call entry leads, okMapM (.cons returned (mapMOk ok))⟩

theorem number {t : PathTable} {stack : Nat → Option Int32} (legend : Legend l offset)
    (slots : ∀ g, (l.region g).stackIndex < 2 ^ 32) (few : t.records.length ≤ 2 ^ 32)
    (filed : Filed l offset t.records inside index lists) :
    ∀ {chain : List CallSiteId} {os : List Int32} {fuel : Nat}, l.Leads chain inside →
      chain.mapM (l.returnOffset offset) = .ok os → Answers l offset stack chain →
      (∀ i ∈ index, i < fuel) → ∃ n,
        (match index.map UInt32.ofNat with
          | some record => t.mapIndex? stack fuel record
          | none => some 0) = some n ∧ (keysOf lists)[n]? = some os.reverse := by
  induction filed with
  | outside =>
    intro chain os fuel leads ok _ _
    cases leads
    cases ok
    exact ⟨0, rfl, rfl⟩
  | @inside g i next addresses lists here listed before outer ih =>
    intro chain os fuel leads ok answers enough
    have listed' := (Filed.inside here listed before outer).chainListed legend leads ok
    generalize same : some g = whole at leads
    cases leads with
    | outside => cases same
    | @call site rest k resume entry inner =>
      obtain rfl := Option.some.inj same
      obtain ⟨o, os, rfl, first, tail⟩ := mapMCons ok
      rw [← legend.placed.outer _ _ _ entry] at inner
      obtain ⟨fuel, rfl⟩ := Nat.exists_eq_add_of_lt (Nat.lt_of_le_of_lt (Nat.zero_le _) (enough i rfl))
      obtain ⟨n, numbered, place⟩ := @ih rest os (0 + fuel) inner tail
        (fun c member => answers c (List.mem_cons_of_mem _ member)) fun m member => by
          have := before m member
          have := enough i rfl
          omega
      have record : (UInt32.ofNat i).toNat = i := by
        rw [UInt32.toNat_ofNat']
        exact Nat.mod_eq_of_lt (Nat.lt_of_lt_of_le (List.getElem?_eq_some_iff.mp here).1 few)
      have slot : (UInt32.ofNat (l.region (l.call site).region).stackIndex).toNat =
          (l.region (l.call site).region).stackIndex := by
        rw [UInt32.toNat_ofNat']
        exact Nat.mod_eq_of_lt (slots _)
      have held := answers site List.mem_cons_self o first
      rcases listed' with _ | ⟨member, -⟩
      obtain ⟨position, found⟩ : ∃ position,
          (addresses.mergeSort (· ≤ ·)).findIdx? (· == o) = some position := by
        cases found : (addresses.mergeSort (· ≤ ·)).findIdx? (· == o) with
        | some position => exact ⟨position, rfl⟩
        | none => exact absurd member (by simpa using List.findIdx?_eq_none_iff.mp found o)
      obtain ⟨inside, equal, -⟩ := List.findIdx?_eq_some_iff_getElem.mp found
      have at' : (addresses.mergeSort (· ≤ ·))[position]? = some o := by
        rw [List.getElem?_eq_getElem inside]
        exact congrArg some (by simpa using equal)
      refine ⟨_, ?_, List.reverse_cons ▸ keysOfAt at' place⟩
      simp only [Option.map_some, PathTable.mapIndex?, record, here, slot, held, found,
        Option.bind_eq_bind, Option.bind_some]
      cases next with
      | none =>
        cases numbered
        rfl
      | some m =>
        simp only [Option.map_some] at numbered ⊢
        rw [numbered]
        rfl

end Filed

section Building

variable {rs rs' : PathRecords} {d d' : TableDraft}

def Recording (l : RootLog) (offset : PromiseId → Except Error Int32) (rs : PathRecords) : Prop :=
  ∀ g i, rs.regions.lookup g = some i → ∃ lists, Filed l offset rs.records (some g) (some i) lists

theorem Recording.file (recording : Recording l offset rs) {g : RegionId} {next : Option Nat}
    {lists : List (List Int32)} {addresses : List Int32}
    (outer : Filed l offset rs.records (l.region g).outer next lists)
    (listed : (l.region g).calls.mapM (l.returnOffset offset) = .ok addresses)
    (made : rs' = ⟨rs.records ++ [⟨UInt32.ofNat (l.region g).stackIndex, addresses.mergeSort (· ≤ ·),
      next.map UInt32.ofNat⟩], rs.regions ++ [(g, rs.records.length)]⟩) :
    rs.records <+: rs'.records ∧ Recording l offset rs' ∧
      ∃ lists, Filed l offset rs'.records (some g) (some rs.records.length) lists := by
  subst made
  have appended := List.prefix_append rs.records [⟨UInt32.ofNat (l.region g).stackIndex,
    addresses.mergeSort (· ≤ ·), next.map UInt32.ofNat⟩]
  have before : ∀ n ∈ next, n < rs.records.length := by
    rintro n ⟨⟩
    cases around : (l.region g).outer with
    | none => rw [around] at outer; cases outer
    | some o => exact (around ▸ outer).known
  have whole : Filed l offset _ _ _ _ := .inside List.getElem?_concat_length listed before
    (outer.extend appended)
  refine ⟨appended, fun h j found => ?_, _, whole⟩
  rw [List.lookup_append] at found
  cases old : rs.regions.lookup h with
  | some j' =>
    rw [old] at found
    cases found
    obtain ⟨lists', filed'⟩ := recording h j old
    exact ⟨lists', filed'.extend appended⟩
  | none =>
    rw [old, Option.none_or, List.lookup_cons] at found
    split at found
    · rename_i same
      cases found
      obtain rfl := eq_of_beq same
      exact ⟨_, whole⟩
    · cases found

theorem recordForFiled (rostered : Rostered l) : ∀ {fuel : Nat} {rs rs' : PathRecords} {g : RegionId}
    {i : Nat}, g.index < fuel → Recording l offset rs → l.recordFor offset fuel rs g = .ok (i, rs') →
      rs.records <+: rs'.records ∧ Recording l offset rs' ∧
        ∃ lists, Filed l offset rs'.records (some g) (some i) lists := by
  intro fuel
  induction fuel with
  | zero =>
    intro rs rs' g i small
    exact absurd small (Nat.not_lt_zero _)
  | succ fuel ih =>
    intro rs rs' g i small recording ok
    rw [recordFor] at ok
    split at ok
    · rename_i known
      cases ok
      exact ⟨List.prefix_rfl, recording, recording g i known⟩
    · cases around : (l.region g).outer with
      | none =>
        simp only [around] at ok
        obtain ⟨_, ⟨⟩, ok⟩ := bindOk ok
        obtain ⟨addresses, listed, ok⟩ := bindOk ok
        cases ok
        have outer : Filed l offset rs.records (l.region g).outer none [] := by
          rw [around]
          exact .outside
        exact recording.file outer listed rfl
      | some o =>
        simp only [around] at ok
        obtain ⟨⟨j, mid⟩, inner, ok⟩ := bindOk ok
        obtain ⟨_, ⟨⟩, ok⟩ := bindOk ok
        obtain ⟨addresses, listed, ok⟩ := bindOk ok
        cases ok
        have below := Nat.lt_of_lt_of_le (rostered.outer g o around) (Nat.le_of_lt_succ small)
        obtain ⟨more, recording', lists, filed⟩ := ih below recording inner
        obtain ⟨more', made⟩ := recording'.file (around ▸ filed) listed rfl
        exact ⟨more.trans more', made⟩

def keyed (l : RootLog) (offset : PromiseId → Except Error Int32) (t : Trace) :
    Except Error (List (List Int32 × PathTrace)) :=
  t.paths.mapM fun q => do .ok (← l.pathKey offset q.path, q)

def Lists (l : RootLog) (offset : PromiseId → Except Error Int32) (d : TableDraft) (m : Nat)
    (t : PlacedTrace) (first : PathTrace) : Prop :=
  ∃ base i lists keys, l.keyed offset t.trace = .ok keys ∧
    d.entries[m]? = some ⟨t.offset, UInt32.ofNat (base * l.mapSize), some (UInt32.ofNat i)⟩ ∧
    Filed l offset d.records.records (some (l.call (l.path first.path).call).region) (some i) lists ∧
    ∀ n key q, (keys.mergeSort fun a b => keyLe a.1 b.1)[n]? = some (key, q) →
      d.maps[base + n]? = some (reportedBits q.map l.mapSize t.argument)

structure Drafted (l : RootLog) (offset : PromiseId → Except Error Int32) (done : List PlacedTrace)
    (d : TableDraft) : Prop where
  offsets : d.entries.map (·.offset) = done.map (·.offset)
  sizes : ∀ m ∈ d.maps, m.length = l.mapSize
  recording : Recording l offset d.records
  lists : ∀ (m : Nat) t first rest, done[m]? = some t → t.trace.paths = first :: rest →
    Lists l offset d m t first

theorem reportedLength (m : RootMap) (size argument : Nat) :
    (reportedBits m size argument).length = size := by
  simp [reportedBits]

theorem Lists.extend {m : Nat} {t : PlacedTrace} {first : PathTrace}
    (listed : Lists l offset d m t first) (entries : d.entries <+: d'.entries)
    (maps : d.maps <+: d'.maps) (records : d.records.records <+: d'.records.records) :
    Lists l offset d' m t first := by
  obtain ⟨base, i, lists, keys, ok, entry, filed, each⟩ := listed
  refine ⟨base, i, lists, keys, ok, ?_, filed.extend records, fun n key q at' => ?_⟩
  · obtain ⟨rest, same⟩ := entries
    rw [← same, List.getElem?_append_left (List.getElem?_eq_some_iff.mp entry).1, entry]
  · obtain ⟨rest, same⟩ := maps
    have old := each n key q at'
    rw [← same, List.getElem?_append_left (List.getElem?_eq_some_iff.mp old).1, old]

theorem Drafted.add {done : List PlacedTrace} {t : PlacedTrace} (rostered : Rostered l)
    (inside : ∀ q ∈ t.trace.paths, (l.call (l.path q.path).call).region.index < l.regions.size)
    (drafted : Drafted l offset done d) (ok : l.addTrace offset d t = .ok d') :
    Drafted l offset (done ++ [t]) d' := by
  have count : d.entries.length = done.length := by
    simpa using congrArg List.length drafted.offsets
  unfold addTrace at ok
  simp only at ok
  split at ok
  · rename_i bare
    cases ok
    refine ⟨by simp [drafted.offsets], fun m member => ?_, drafted.recording,
      fun m u first rest at' paths => ?_⟩
    · rcases List.mem_append.mp member with old | new
      · exact drafted.sizes m old
      · cases List.mem_singleton.mp new
        exact reportedLength ..
    · rw [List.getElem?_append] at at'
      split at at'
      · exact (drafted.lists m u first rest at' paths).extend (List.prefix_append ..)
          (List.prefix_append ..) List.prefix_rfl
      · obtain rfl := List.mem_singleton.mp (List.mem_of_getElem? at')
        cases bare.symm.trans paths
  · rename_i first rest some
    obtain ⟨⟨i, records⟩, found, ok⟩ := bindOk ok
    obtain ⟨keys, keyed, ok⟩ := bindOk ok
    cases ok
    have small := inside first (some ▸ List.mem_cons_self)
    obtain ⟨more, recording, lists, filed⟩ :=
      recordForFiled rostered (Nat.lt_succ_of_lt small) drafted.recording found
    refine ⟨by simp [drafted.offsets], fun m member => ?_, recording,
      fun m u first' rest' at' paths => ?_⟩
    · rcases List.mem_append.mp member with old | new
      · exact drafted.sizes m old
      · obtain ⟨⟨_, q⟩, -, rfl⟩ := List.mem_map.mp new
        exact reportedLength ..
    · rw [List.getElem?_append] at at'
      split at at'
      · exact (drafted.lists m u first' rest' at' paths).extend (List.prefix_append ..)
          (List.prefix_append ..) more
      · rename_i last
        have this : m = done.length := by
          have := (List.getElem?_eq_some_iff.mp at').1
          simp only [List.length_singleton] at this
          omega
        subst this
        obtain rfl := List.mem_singleton.mp (List.mem_of_getElem? at')
        cases some.symm.trans paths
        refine ⟨d.maps.length, i, lists, keys, keyed, ?_, filed, fun n key q at'' => ?_⟩
        · rw [← count]
          exact List.getElem?_concat_length
        · rw [List.getElem?_append_right (Nat.le_add_right _ _), Nat.add_sub_cancel_left,
            List.getElem?_map, at'']
          rfl

theorem Drafted.empty : Drafted l offset [] {} where
  offsets := rfl
  sizes m member := absurd member List.not_mem_nil
  recording g i found := by cases found
  lists m t first rest at' := by simp at at'

theorem Drafted.addAll (rostered : Rostered l) {ts : List PlacedTrace} : ∀ {done : List PlacedTrace}
    {d d' : TableDraft},
    (∀ t ∈ ts, ∀ q ∈ t.trace.paths, (l.call (l.path q.path).call).region.index < l.regions.size) →
      Drafted l offset done d → ts.foldlM (l.addTrace offset) d = .ok d' →
      Drafted l offset (done ++ ts) d' := by
  induction ts with
  | nil =>
    intro done d d' _ drafted ok
    cases ok
    simpa using drafted
  | cons t rest ih =>
    intro done d d' inside drafted ok
    rw [List.foldlM_cons] at ok
    obtain ⟨mid, first, ok⟩ := bindOk ok
    have added := drafted.add rostered (inside t List.mem_cons_self) first
    have all := ih (fun u member => inside u (List.mem_cons_of_mem _ member)) added ok
    rwa [List.append_assoc, List.singleton_append] at all

end Building

section Placing

variable {α β : Type}

theorem filterMapMSome {f : α → Except Error (Option β)} {xs : List α} {ys : List β}
    (ok : xs.filterMapM f = .ok ys) : ∀ x ∈ xs, ∀ y, f x = .ok (some y) → y ∈ ys := by
  induction xs generalizing ys with
  | nil => exact fun x member => absurd member List.not_mem_nil
  | cons x rest ih =>
    intro x' member y here
    rw [List.filterMapM_cons] at ok
    obtain ⟨o, first, ok⟩ := bindOk ok
    cases o with
    | none =>
      rcases List.mem_cons.mp member with rfl | later
      · cases first.symm.trans here
      · exact ih ok x' later y here
    | some z =>
      obtain ⟨zs, after, ok⟩ := bindOk ok
      cases ok
      rcases List.mem_cons.mp member with rfl | later
      · cases first.symm.trans here
        exact List.mem_cons_self
      · exact List.mem_cons_of_mem _ (ih after x' later y here)

theorem someFilterMapM {f : α → Except Error (Option β)} {xs : List α} {ys : List β}
    (ok : xs.filterMapM f = .ok ys) : ∀ y ∈ ys, ∃ x ∈ xs, f x = .ok (some y) := by
  induction xs generalizing ys with
  | nil =>
    cases ok
    exact fun y member => absurd member List.not_mem_nil
  | cons x rest ih =>
    intro y member
    rw [List.filterMapM_cons] at ok
    obtain ⟨o, first, ok⟩ := bindOk ok
    cases o with
    | none =>
      obtain ⟨x', inside, from'⟩ := ih ok y member
      exact ⟨x', List.mem_cons_of_mem _ inside, from'⟩
    | some z =>
      obtain ⟨zs, after, ok⟩ := bindOk ok
      cases ok
      rcases List.mem_cons.mp member with rfl | later
      · exact ⟨x, List.mem_cons_self, first⟩
      · obtain ⟨x', inside, from'⟩ := ih after y later
        exact ⟨x', List.mem_cons_of_mem _ inside, from'⟩

theorem filterMapMPairwise {f : α → Except Error (Option β)} {R : α → α → Prop} {S : β → β → Prop}
    (carry : ∀ a b y z, R a b → f a = .ok (some y) → f b = .ok (some z) → S y z) {xs : List α}
    {ys : List β} (apart : xs.Pairwise R) (ok : xs.filterMapM f = .ok ys) : ys.Pairwise S := by
  induction apart generalizing ys with
  | nil =>
    cases ok
    exact .nil
  | @cons x rest first _ ih =>
    rw [List.filterMapM_cons] at ok
    obtain ⟨o, here, ok⟩ := bindOk ok
    cases o with
    | none => exact ih ok
    | some y =>
      obtain ⟨zs, after, ok⟩ := bindOk ok
      cases ok
      refine .cons (fun z member => ?_) (ih after)
      obtain ⟨x', inside, from'⟩ := someFilterMapM after z member
      exact carry x x' y z (first x' inside) here from'

def place (offset : PromiseId → Except Error Int32) (t : Trace) : Except Error (Option PlacedTrace) :=
  match t.address with
  | none => .ok none
  | some (p, argument) => do .ok (some ⟨← offset p, argument, t⟩)

theorem placeOk {t : Trace} {u : PlacedTrace} (ok : place offset t = .ok (some u)) :
    ∃ p, t.address = some (p, u.argument) ∧ offset p = .ok u.offset ∧ u.trace = t := by
  unfold place at ok
  split at ok
  · cases ok
  · rename_i p argument address
    obtain ⟨o, resolved, ok⟩ := bindOk ok
    cases ok
    exact ⟨p, address, resolved, rfl⟩

theorem traceListed {t : Trace} (member : t ∈ l.traces.toList) :
    ∃ u : TraceId, u.index < l.traces.size ∧ l.traceAt u = t := by
  obtain ⟨i, inside, rfl⟩ := List.getElem_of_mem member
  have small : i < l.traces.size := by simpa using inside
  exact ⟨⟨i⟩, small, by simp [traceAt, Array.getD_eq_getD_getElem?, small]⟩

variable {placed : List PlacedTrace}

theorem placedFrom (ok : l.placedTraces offset = .ok placed) : ∃ raw,
    l.traces.toList.filterMapM (place offset) = .ok raw ∧
      placed = raw.mergeSort fun a b => a.offset ≤ b.offset := by
  obtain ⟨raw, found, ok⟩ := bindOk ok
  cases ok
  exact ⟨raw, found, rfl⟩

theorem placedAscends (traces : DistinctTraces l offset) (ok : l.placedTraces offset = .ok placed) :
    (placed.map (·.offset)).Pairwise (· < ·) := by
  obtain ⟨raw, found, rfl⟩ := placedFrom ok
  refine sortedAscends (f := PlacedTrace.offset) ?_
  rw [List.Nodup, List.pairwise_map]
  have apart : l.traces.toList.Pairwise fun a b => ∀ (p q : PromiseId) (g h : Nat) (o : Int32),
      a.address = some (p, g) → b.address = some (q, h) → offset p = .ok o → offset q ≠ .ok o := by
    refine List.pairwise_iff_getElem.mpr fun i j first second before p q g h o one two resolved again => ?_
    have small : i < l.traces.size := by simpa using first
    have small' : j < l.traces.size := by simpa using second
    have same := traces ⟨i⟩ ⟨j⟩ p q g h o small small'
      (by simpa [traceAt, Array.getD_eq_getD_getElem?, small] using one)
      (by simpa [traceAt, Array.getD_eq_getD_getElem?, small'] using two) resolved again
    exact Nat.ne_of_lt before (congrArg TraceId.index same)
  refine filterMapMPairwise (fun a b y z different one two same => ?_) apart found
  obtain ⟨p, address, resolved, -⟩ := placeOk one
  obtain ⟨q, address', resolved', -⟩ := placeOk two
  exact different p q _ _ _ address address' resolved (same ▸ resolved')

theorem placedMember (ok : l.placedTraces offset = .ok placed) {t : TraceId} {p : PromiseId}
    {argument : Nat} {o : Int32} (known : t.index < l.traces.size)
    (address : (l.traceAt t).address = some (p, argument)) (resolved : offset p = .ok o) :
    ⟨o, argument, l.traceAt t⟩ ∈ placed := by
  obtain ⟨raw, found, rfl⟩ := placedFrom ok
  refine List.mem_mergeSort.mpr (filterMapMSome found (l.traceAt t) ?_ _ ?_)
  · rw [traceAt, Array.getD_eq_getD_getElem?, Array.getElem?_eq_getElem known]
    exact Array.getElem_mem_toList known
  · simp only [place, address, resolved]
    rfl

theorem placedTrace (ok : l.placedTraces offset = .ok placed) {u : PlacedTrace} (member : u ∈ placed) :
    ∃ t : TraceId, u.trace = l.traceAt t := by
  obtain ⟨raw, found, rfl⟩ := placedFrom ok
  obtain ⟨t, inside, from'⟩ := someFilterMapM found u (List.mem_mergeSort.mp member)
  obtain ⟨p, -, -, rfl⟩ := placeOk from'
  obtain ⟨i, -, same⟩ := traceListed inside
  exact ⟨i, same.symm⟩

end Placing

structure Recorders (l : RootLog) (g : RegionId) (ts : List PathTrace) : Prop where
  sound : ∀ q ∈ ts, l.Knows (some q.path) ∧ l.within (some q.path) = some g
  once : (ts.map (·.path)).Nodup
  complete : ∀ chain, l.Leads chain (some g) → ∃ q ∈ ts, l.Spelled (some q.path) chain

section Keying

variable {records : List PathRecord} {g : RegionId} {i : Nat} {lists : List (List Int32)} {t : Trace}
  {keys : List (List Int32 × PathTrace)}

theorem keyedOk (ok : l.keyed offset t = .ok keys) :
    List.Forall₂ (fun q y => ∃ key, l.pathKey offset q.path = .ok key ∧ y = (key, q)) t.paths keys := by
  refine (mapMOk ok).imp fun q y here => ?_
  obtain ⟨key, found, made⟩ := bindOk here
  cases made
  exact ⟨key, found, rfl⟩

theorem Recorders.key (recorders : Recorders l g t.paths) (routed : Routed l) {q : PathTrace}
    (member : q ∈ t.paths) {key : List Int32} (found : l.pathKey offset q.path = .ok key) :
    ∃ chain os, l.Spelled (some q.path) chain ∧ l.Leads chain (some g) ∧
      chain.mapM (l.returnOffset offset) = .ok os ∧ key = os.reverse := by
  obtain ⟨knows, within⟩ := recorders.sound q member
  obtain ⟨chain, spelled, leads⟩ := routed.spelled knows
  rw [pathKeySpelled routed.charted spelled] at found
  cases ok : chain.mapM (l.returnOffset offset) with
  | error e =>
    rw [ok] at found
    cases found
  | ok os =>
    rw [ok] at found
    cases found
    exact ⟨chain, os, spelled, within ▸ leads, ok, rfl⟩

theorem Recorders.keysNodup (recorders : Recorders l g t.paths) (legend : Legend l offset)
    (routed : Routed l) (ok : l.keyed offset t = .ok keys) : (keys.map (·.1)).Nodup := by
  have each : List.Forall₂ (fun q key => l.pathKey offset q.path = .ok key) t.paths (keys.map (·.1)) := by
    rw [List.forall₂_map_right_iff]
    refine (keyedOk ok).imp fun q y here => ?_
    obtain ⟨key, found, rfl⟩ := here
    exact found
  refine forallNodup each recorders.once.of_map fun a first b second key found found' => ?_
  obtain ⟨chain, os, spelled, leads, returns, rfl⟩ := recorders.key routed first found
  obtain ⟨chain', os', spelled', leads', returns', same⟩ := recorders.key routed second found'
  obtain rfl := List.reverse_injective same
  obtain rfl := legend.chainUnique leads leads' returns returns'
  have path := Option.some.inj (spelled.unique routed.charted spelled')
  exact List.inj_on_of_nodup_map recorders.once first second path

theorem Recorders.sorted (recorders : Recorders l g t.paths) (legend : Legend l offset)
    (routed : Routed l) (filed : Filed l offset records (some g) (some i) lists)
    (ok : l.keyed offset t = .ok keys) :
    (keys.mergeSort fun a b => keyLe a.1 b.1).map (·.1) = keysOf lists := by
  have ordered := keysOfSorted (filed.ascending legend)
  have members : ∀ key, key ∈ keys.map (·.1) ↔ key ∈ keysOf lists := by
    intro key
    constructor
    · intro member
      obtain ⟨⟨key, q⟩, listed, rfl⟩ := List.mem_map.mp member
      obtain ⟨q', inside, key', found, same⟩ := forallRight (keyedOk ok) listed
      cases same
      obtain ⟨chain, os, -, leads, returns, rfl⟩ := recorders.key routed inside found
      exact keysOfMem.mpr (filed.chainListed legend leads returns)
    · intro member
      obtain ⟨chain, leads, returns⟩ :=
        filed.chainOf legend (keysOfMem.mp ((List.reverse_reverse key).symm ▸ member))
      obtain ⟨q, inside, spelled⟩ := recorders.complete chain leads
      obtain ⟨y, listed, key', found, rfl⟩ := forallLeft (keyedOk ok) inside
      rw [pathKeySpelled routed.charted spelled, returns] at found
      cases found
      exact List.mem_map.mpr ⟨_, listed, List.reverse_reverse key⟩
  have same : ((keys.mergeSort fun a b => keyLe a.1 b.1).map (·.1)).Perm (keysOf lists) :=
    ((List.mergeSort_perm keys _).map _).trans
      ((List.perm_ext_iff_of_nodup (recorders.keysNodup legend routed ok)
        (ordered.imp And.right)).mpr members)
  have sorted : (keys.mergeSort fun a b => keyLe a.1 b.1).Pairwise fun a b => keyLe a.1 b.1 = true :=
    @List.pairwise_mergeSort _ (fun a b => keyLe a.1 b.1) (fun _ _ _ => keyLeTrans)
      (fun a b => keyLeTotal a.1 b.1) keys
  exact same.eq_of_pairwise (fun a b _ _ first second => keyLeAntisymm first second)
    (List.pairwise_map.mpr sorted) (ordered.imp And.left)

theorem Recorders.found (recorders : Recorders l g t.paths) (legend : Legend l offset)
    (routed : Routed l) (filed : Filed l offset records (some g) (some i) lists)
    (ok : l.keyed offset t = .ok keys) {chain : List CallSiteId} {os : List Int32} {n : Nat}
    {q : PathTrace} (member : q ∈ t.paths) (spelled : l.Spelled (some q.path) chain)
    (returns : chain.mapM (l.returnOffset offset) = .ok os)
    (numbered : (keysOf lists)[n]? = some os.reverse) :
    (keys.mergeSort fun a b => keyLe a.1 b.1)[n]? = some (os.reverse, q) := by
  rw [← recorders.sorted legend routed filed ok, List.getElem?_map] at numbered
  obtain ⟨⟨key, q'⟩, at', rfl⟩ := Option.map_eq_some_iff.mp numbered
  have there := List.mem_mergeSort.mp (List.mem_of_getElem? at')
  obtain ⟨y, listed, key, found, rfl⟩ := forallLeft (keyedOk ok) member
  rw [pathKeySpelled routed.charted spelled, returns] at found
  cases found
  have same := List.inj_on_of_nodup_map (recorders.keysNodup legend routed ok) there listed rfl
  rw [at', same]

end Keying

structure Fits (l : RootLog) (table : FrameMapTable) : Prop where
  slots : ∀ g, (l.region g).stackIndex < 2 ^ 32
  bits : ∀ t, table = .paths t → 32 * t.bits.length < 2 ^ 32
  records : ∀ t, table = .paths t → t.records.length ≤ 2 ^ 32

theorem Recorders.selects {promises : PromiseTable} {base : Int} {table : FrameMapTable}
    (legend : Legend l (codeOffset promises base)) (routed : Routed l)
    (traces : DistinctTraces l (codeOffset promises base))
    (built : l.table promises base = .ok table) (fits : Fits l table) {t : TraceId} {g : RegionId}
    (known : t.index < l.traces.size) (recorders : Recorders l g (l.traceAt t).paths)
    {p : PromiseId} {argument : Nat} {o : Int32}
    (address : (l.traceAt t).address = some (p, argument))
    (resolved : codeOffset promises base p = .ok o) {chain : List CallSiteId} {q : PathTrace}
    (member : q ∈ (l.traceAt t).paths) (spelled : l.Spelled (some q.path) chain)
    {stack : Nat → Option Int32}
    (answers : Answers l (codeOffset promises base) stack chain) :
    table.roots o stack = some (reportedBits q.map l.mapSize argument) := by
  obtain ⟨placed, listed, built⟩ := bindOk built
  have here := placedMember listed known address resolved
  obtain ⟨first, rest, paths⟩ := List.exists_cons_of_ne_nil (List.ne_nil_of_mem member)
  split at built
  · rename_i all
    have none := List.all_eq_true.mp all _ here
    rw [paths] at none
    cases none
  obtain ⟨d, drawn, built⟩ := bindOk built
  cases built
  have calledIn : ∀ u ∈ placed, ∀ q ∈ u.trace.paths,
      (l.call (l.path q.path).call).region.index < l.regions.size := by
    intro u inside q recorded
    obtain ⟨t', same⟩ := placedTrace listed inside
    have knows := (routed.traces t' q.path (List.mem_map.mpr ⟨q, same ▸ recorded, rfl⟩)).1
    have at' : l.paths[q.path.index]? = some l.paths[q.path.index] := Array.getElem?_eq_getElem knows
    have call : l.path q.path = l.paths[q.path.index] := by
      rw [RootLog.path, Array.getD_eq_getD_getElem?, at']
      rfl
    rw [call]
    exact legend.rostered.inside _ (pathsListed (routed.charted.call _ _ at'))
  have drafted := Drafted.addAll legend.rostered calledIn .empty drawn
  rw [List.nil_append] at drafted
  obtain ⟨m, inside, at'⟩ := List.getElem_of_mem here
  have at' : placed[m]? = some ⟨o, argument, l.traceAt t⟩ := by
    rw [List.getElem?_eq_getElem inside, at']
  obtain ⟨from', i, lists, keys, keyed, entry, filed, each⟩ := drafted.lists m _ first rest at' paths
  have entered : (l.call (l.path first.path).call).region = g := by
    have := (recorders.sound first (paths ▸ List.mem_cons_self)).2
    exact Option.some.inj this
  rw [entered] at filed
  -- the reader finds the entry and the number of the map
  have ascending := placedAscends traces listed
  rw [← drafted.offsets] at ascending
  have index : sortedIndex? (d.entries.map (·.offset)) o = some m :=
    sortedIndexFinds ascending (by rw [List.getElem?_map, entry]; rfl)
  obtain ⟨y, -, key, found, -⟩ := forallLeft (keyedOk keyed) member
  obtain ⟨chain', os, spelled', leads, returns, rfl⟩ := recorders.key routed member found
  obtain rfl := spelled.chain spelled'
  let whole : PathTable :=
    { mapSize := UInt32.ofNat l.mapSize
      entries := d.entries
      bits := packBits d.maps.flatten
      records := d.records.records }
  obtain ⟨n, number, place⟩ := filed.number (t := whole) legend fits.slots (fits.records _ rfl) leads
    returns answers fun j same => by
      cases same
      exact Nat.lt_succ_of_lt filed.known
  have map := each n _ _ (recorders.found legend routed filed keyed member spelled returns place)
  -- all numbers fit
  have count : (from' + n) * l.mapSize + l.mapSize ≤ d.maps.flatten.length := by
    rw [blockLength drafted.sizes, ← Nat.succ_mul]
    exact Nat.mul_le_mul_right _ (List.getElem?_eq_some_iff.mp map).1
  have few : d.maps.flatten.length < 2 ^ 32 :=
    Nat.lt_of_le_of_lt (packBitsLength _) (fits.bits _ rfl)
  have split : from' * l.mapSize + n * l.mapSize = (from' + n) * l.mapSize :=
    (Nat.add_mul from' n l.mapSize).symm
  have size : (UInt32.ofNat l.mapSize).toNat = l.mapSize := by
    rw [UInt32.toNat_ofNat']
    exact Nat.mod_eq_of_lt (by omega)
  have start : (UInt32.ofNat (from' * l.mapSize)).toNat = from' * l.mapSize := by
    rw [UInt32.toNat_ofNat']
    exact Nat.mod_eq_of_lt (by omega)
  have bits := unpackBlock drafted.sizes map
  rw [← split] at bits
  simp only [FrameMapTable.roots, index, entry, Option.bind_eq_bind, Option.bind_some, size, start]
  exact Option.bind_eq_some_iff.mpr ⟨n, number, congrArg some bits⟩

variable {l' : RootLog}

theorem FixedNest.grow (fixed : l.FixedNest) (grows : Grows l l') : l'.FixedNest := by
  intro i j a b m n here there same
  rw [grows.enclosing, grows.enclosing]
  exact fixed i j a b m n (grows.entries ▸ here) (grows.entries ▸ there)
    (by rw [← grows.callees, ← grows.callees, same])

theorem Recorded.recorders (recorded : l.Recorded []) (handlerless : l.Handlerless)
    (once : l.BodiesOnce) {s : Settings} {n : Nat} (solved : l.solve s = (.ok n, l')) {k : Nat}
    {t : TraceId} {g : RegionId} (here : l.entries[k]? = some (.trace t))
    (inside : l.enclosing k = some g) (grows : Grows l l') (routed : Routed l') :
    Recorders l' g (l'.traceAt t).paths where
  sound q member := by
    obtain ⟨knows, k', entry, enclosing⟩ :=
      routed.traces t q.path (List.mem_map.mpr ⟨q, member, rfl⟩)
    obtain rfl := recorded.nested.1.tracedOnce k k' t here (grows.entries ▸ entry)
    exact ⟨knows, by rw [← enclosing, grows.enclosing, inside]⟩
  once := routed.once t
  complete chain leads := by
    have called : chain ≠ [] := by
      rintro rfl
      cases leads
    obtain ⟨p, spelled, member⟩ :=
      recorded.traced handlerless once solved here called (inside ▸ grows.leads leads)
    obtain ⟨q, listed, rfl⟩ := List.mem_map.mp member
    exact ⟨q, listed, spelled⟩

/- A table selects the map of a trace by the return offsets that the stack holds. -/
theorem chainsSelectTheirMaps {s : Settings} {n : Nat} {promises : PromiseTable} {base : Int}
    {table : FrameMapTable} (recorded : l.Recorded []) (handlerless : l.Handlerless)
    (once : l.BodiesOnce) (fixed : l.FixedNest) (solved : l.solve s = (.ok n, l'))
    (built : l'.table promises base = .ok table) (fits : Fits l' table)
    (traces : l'.DistinctTraces (codeOffset promises base))
    (returns : l'.DistinctReturns (codeOffset promises base)) {k : Nat} {t : TraceId}
    (here : l.entries[k]? = some (.trace t)) (inside : l.enclosing k ≠ none) {p : PromiseId}
    {argument : Nat} (address : (l'.traceAt t).address = some (p, argument)) {o : Int32}
    (resolved : codeOffset promises base p = .ok o) {chain : List CallSiteId}
    (leads : l.Leads chain (l.enclosing k)) {stack : Nat → Option Int32}
    (answers : l'.Answers (codeOffset promises base) stack chain) :
    ∃ q ∈ (l'.traceAt t).paths, l'.Spelled (some q.path) chain ∧ table.roots o stack =
      some ((List.range l'.mapSize).map fun j => decide (j < argument) && q.map.has j) := by
  obtain rfl : (l.solve s).2 = l' := congrArg Prod.snd solved
  have recorded' := Recorded.solve recorded s
  have tallied := recorded.nested.1
  have grows := (solveKept recorded.framed.keyed tallied.charted s).grows
  have routed := recorded'.routed fun i start stop at' =>
    handlerless i start stop (grows.entries ▸ at')
  have legend : Legend _ (codeOffset promises base) :=
    ⟨recorded'.framed.keyed, recorded'.rostered, recorded'.placed (fixed.grow grows), returns⟩
  obtain ⟨g, inside⟩ := Option.ne_none_iff_exists'.mp inside
  have recorders := recorded.recorders handlerless once solved here inside grows routed
  obtain ⟨q, member, spelled⟩ := recorders.complete chain (inside ▸ leads.grow grows)
  exact ⟨q, member, spelled, recorders.selects legend routed traces built fits
    (grows.traces ▸ tallied.traced k t here) address resolved member spelled answers⟩

def nesting : RootLog :=
  let outer := (((RootLog.new 10 2).reach 0).add (.mark 0)).startSubroutine 6 ⟨0⟩
  let inner := ((outer.2.reach 6).setReturnSlot 1).startSubroutine 8 ⟨1⟩
  let l := (((inner.2.reach 8).setReturnSlot 2).trace 8).2.endSubroutine inner.1
  let again := ((l.reach 7).add (.clear 0)).startSubroutine 8 ⟨2⟩
  let l := ((again.2.reach 8).endSubroutine again.1).endSubroutine outer.1
  let last := ((l.reach 1).add (.mark 1)).startSubroutine 6 ⟨3⟩
  ((last.2.reach 6).endSubroutine last.1).attach ⟨0⟩ ⟨4⟩ 2

theorem nestingRecorded : nesting.Recorded [] := by
  have outer := Recorded.call (.mark (.reach (.new 10 2) 0) 0) 6 ⟨0⟩ (by simp)
  have inner := Recorded.call (.slot (.reach outer 6) 1) 8 ⟨1⟩ fun sub member => by
    cases List.mem_singleton.mp member
    with_unfolding_all decide
  have closed := Recorded.resume (.trace (.slot (.reach inner 8) 2) 8)
  have again := Recorded.call (.clear (.reach closed 7) 0) 8 ⟨2⟩ fun sub member => by
    cases List.mem_singleton.mp member
    with_unfolding_all decide
  have last := Recorded.call (.mark (.reach (.resume (.resume (.reach again 8))) 1) 1) 6 ⟨3⟩ (by simp)
  exact .attach (.resume (.reach last 6)) ⟨0⟩ ⟨4⟩ 2

theorem nestingIs : nesting.entries = #[.visit 0, .mark 0, .pushSubroutine ⟨0⟩ 14, .visit 6,
      .pushSubroutine ⟨1⟩ 8, .visit 8, .trace ⟨0⟩, .popSubroutine, .visit 7, .clear 0,
      .pushSubroutine ⟨2⟩ 13, .visit 8, .popSubroutine, .popSubroutine, .visit 1, .mark 1,
      .pushSubroutine ⟨3⟩ 19, .visit 6, .popSubroutine] ∧
    nesting.regions = #[⟨6, 3, none, [⟨0⟩, ⟨3⟩], 1⟩, ⟨8, 5, some ⟨0⟩, [⟨1⟩, ⟨2⟩], 2⟩] ∧
    [2, 4, 10, 16, 6].map nesting.enclosing = [none, some ⟨0⟩, some ⟨0⟩, none, some ⟨1⟩] ∧
    [0, 1, 2, 3].map (fun k => (nesting.call ⟨k⟩).region) = [⟨0⟩, ⟨1⟩, ⟨1⟩, ⟨0⟩] := by
  with_unfolding_all decide

theorem nestingCalls {k resume : Nat} {site : CallSiteId}
    (here : nesting.entries[k]? = some (.pushSubroutine site resume)) :
    (k, site) ∈ [(2, CallSiteId.mk 0), (4, ⟨1⟩), (10, ⟨2⟩), (16, ⟨3⟩)] := by
  have inside := known here
  rw [nestingIs.1] at here inside
  simp only [List.size_toArray, List.length_cons, List.length_nil] at inside
  interval_cases k <;> simp at here <;> simp [here]

theorem nestingOnce : nesting.BodiesOnce := by
  intro k site resume here later
  have which := nestingCalls here
  obtain ⟨-, regions, -, callees⟩ := nestingIs
  simp only [List.map_cons, List.map_nil, List.cons.injEq, and_true] at callees
  simp only [List.mem_cons, Prod.mk.injEq, List.not_mem_nil, or_false] at which
  obtain ⟨rfl, rfl⟩ | ⟨rfl, rfl⟩ | ⟨rfl, rfl⟩ | ⟨rfl, rfl⟩ := which
  · simp [RootLog.region, regions, callees] at later
  · simp [RootLog.region, regions, callees] at later
  · simp [RootLog.region, regions, callees, nestingIs.1]
  · simp [RootLog.region, regions, callees, nestingIs.1]

theorem nestingFixed : nesting.FixedNest := by
  intro i j a b m n here there
  have all : ∀ x ∈ [(2, CallSiteId.mk 0), (4, ⟨1⟩), (10, ⟨2⟩), (16, ⟨3⟩)],
      ∀ y ∈ [(2, CallSiteId.mk 0), (4, ⟨1⟩), (10, ⟨2⟩), (16, ⟨3⟩)],
      (nesting.call x.2).region = (nesting.call y.2).region →
      nesting.enclosing x.1 = nesting.enclosing y.1 := by
    obtain ⟨-, -, levels, callees⟩ := nestingIs
    simp only [List.map_cons, List.map_nil, List.cons.injEq, and_true] at levels callees
    simp [levels, callees]
  exact all _ (nestingCalls here) _ (nestingCalls there)

def nestingAddresses : PromiseTable :=
  ⟨[8, 20, 28, 48, 80].map fun v => ⟨.resolved v, some v, []⟩⟩

def nestingTable : FrameMapTable :=
  .paths ⟨2, [⟨80, 0, some 1⟩], [161], [⟨1, [8, 48], none⟩, ⟨2, [20, 28], some 0⟩]⟩

/-- The stack in the second call of the inner subroutine, made from the second call of the outer. -/
def nestingStack (slot : Nat) : Option Int32 :=
  if slot = 1 then some 48 else if slot = 2 then some 28 else none

def nestingSolved : RootLog := (nesting.solve {}).2

theorem nestingSolvedIs : (nesting.solve {}).1 = .ok 1 ∧ nestingSolved.calls.size = 4 ∧ nestingSolved.traces.size = 1 ∧
    nestingSolved.mapSize = 2 ∧
    nestingSolved.regions = #[⟨6, 3, none, [⟨0⟩, ⟨3⟩], 1⟩, ⟨8, 5, some ⟨0⟩, [⟨1⟩, ⟨2⟩], 2⟩] ∧
    [0, 1, 2, 3].map (fun k => (nestingSolved.call ⟨k⟩).region) = [⟨0⟩, ⟨1⟩, ⟨1⟩, ⟨0⟩] ∧
    [0, 1, 2, 3].map (fun k => nestingSolved.returnOffset (codeOffset nestingAddresses 0) ⟨k⟩) =
      [.ok 8, .ok 20, .ok 28, .ok 48] := by
  with_unfolding_all decide

theorem nestingReturns : nestingSolved.DistinctReturns (codeOffset nestingAddresses 0) := by
  obtain ⟨-, size, -, -, -, callees, offsets⟩ := nestingSolvedIs
  simp only [List.map_cons, List.map_nil, List.cons.injEq, and_true] at callees offsets
  have all : ∀ a < 4, ∀ b < 4, (nestingSolved.call ⟨a⟩).region = (nestingSolved.call ⟨b⟩).region →
      nestingSolved.returnOffset (codeOffset nestingAddresses 0) ⟨a⟩ =
        nestingSolved.returnOffset (codeOffset nestingAddresses 0) ⟨b⟩ → a = b := by
    intro a small b small'
    interval_cases a <;> interval_cases b <;> simp [callees, offsets]
  intro a b o known known' same first second
  have index := all a.index (size ▸ known) b.index (size ▸ known') same (first.trans second.symm)
  cases a
  cases b
  exact congrArg CallSiteId.mk index

theorem nestingTraces : nestingSolved.DistinctTraces (codeOffset nestingAddresses 0) := by
  intro t u p q g h o known known' _ _ _ _
  rw [nestingSolvedIs.2.2.1] at known known'
  have index : t.index = u.index := by omega
  cases t
  cases u
  exact congrArg TraceId.mk index

theorem nestingFits : Fits nestingSolved nestingTable := by
  have slots : ∀ r ∈ nestingSolved.regions.toList, r.stackIndex < 2 ^ 32 := by
    simp [nestingSolvedIs.2.2.2.2.1]
  refine ⟨fun g => ?_, fun t same => ?_, fun t same => ?_⟩
  · by_cases known : g.index < nestingSolved.regions.size
    · refine slots _ ?_
      rw [RootLog.region, Array.getD_eq_getD_getElem?, Array.getElem?_eq_getElem known]
      exact Array.getElem_mem_toList known
    · rw [regionBeyond (Nat.le_of_not_lt known)]
      decide
  · cases same
    decide
  · cases same
    decide

theorem nestingRecords : nestingSolved.recordFor (codeOffset nestingAddresses 0) (2 + 1) {} ⟨1⟩ =
    .ok (1, ⟨[⟨1, [8, 48], none⟩, ⟨2, [20, 28], some 0⟩], [(⟨0⟩, 0), (⟨1⟩, 1)]⟩) := by
  obtain ⟨-, -, -, -, regions, -, offsets⟩ := nestingSolvedIs
  simp only [List.map_cons, List.map_nil, List.cons.injEq, and_true] at offsets
  have inner : nestingSolved.region ⟨1⟩ = ⟨8, 5, some ⟨0⟩, [⟨1⟩, ⟨2⟩], 2⟩ := by simp [RootLog.region, regions]
  have outer : nestingSolved.region ⟨0⟩ = ⟨6, 3, none, [⟨0⟩, ⟨3⟩], 1⟩ := by simp [RootLog.region, regions]
  have returns : [⟨1⟩, ⟨2⟩].mapM (nestingSolved.returnOffset (codeOffset nestingAddresses 0)) =
      .ok [20, 28] := by
    simp [offsets, bind, Except.bind, pure, Except.pure]
  have returns' : [⟨0⟩, ⟨3⟩].mapM (nestingSolved.returnOffset (codeOffset nestingAddresses 0)) =
      .ok [8, 48] := by
    simp [offsets, bind, Except.bind, pure, Except.pure]
  have sorted : [(20 : Int32), 28].mergeSort (· ≤ ·) = [20, 28] :=
    List.mergeSort_of_pairwise (by decide)
  have sorted' : [(8 : Int32), 48].mergeSort (· ≤ ·) = [8, 48] :=
    List.mergeSort_of_pairwise (by decide)
  unfold returnOffset at returns returns'
  simp only [recordFor, inner, outer, returns, returns', List.lookup_nil]
  simp only [bind, Except.bind, sorted, sorted']
  rfl

def nestingKeys : List (List Int32 × PathTrace) :=
  [[8, 20], [8, 28], [48, 20], [48, 28]].zip (nestingSolved.traceAt ⟨0⟩).paths

theorem nestingTraceIs : nestingSolved.traces.toList = [nestingSolved.traceAt ⟨0⟩] ∧
    (nestingSolved.traceAt ⟨0⟩).address = some (⟨4⟩, 2) ∧ codeOffset nestingAddresses 0 ⟨4⟩ = .ok 80 ∧
    nestingSolved.keyed (codeOffset nestingAddresses 0) (nestingSolved.traceAt ⟨0⟩) = .ok nestingKeys ∧
    nestingKeys.Pairwise (fun a b => keyLe a.1 b.1) ∧
    packBits (nestingKeys.map fun y => reportedBits y.2.map 2 2).flatten = [161] ∧
    (nestingSolved.traceAt ⟨0⟩).paths ≠ [] ∧
    (∀ q ∈ (nestingSolved.traceAt ⟨0⟩).paths,
      (nestingSolved.call (nestingSolved.path q.path).call).region = ⟨1⟩) ∧
    nesting.enclosing 6 ≠ none ∧ ∀ site ∈ [CallSiteId.mk 2, ⟨3⟩],
      nestingStack (nestingSolved.region (nestingSolved.call site).region).stackIndex =
        (nestingSolved.returnOffset (codeOffset nestingAddresses 0) site).toOption := by
  with_unfolding_all decide

theorem nestingBuilt : nestingSolved.table nestingAddresses 0 = .ok nestingTable := by
  obtain ⟨traces, address, resolved, keyed, ascending, bits, some_, called, -, -⟩ := nestingTraceIs
  have placed : nestingSolved.placedTraces (codeOffset nestingAddresses 0) =
      .ok [⟨80, 2, nestingSolved.traceAt ⟨0⟩⟩] := by
    simp only [placedTraces, traces, List.filterMapM_cons, List.filterMapM_nil, address, resolved,
      bind, Except.bind, pure, Except.pure, List.mergeSort_singleton]
  have sorted : nestingKeys.mergeSort (fun a b => keyLe a.1 b.1) = nestingKeys :=
    List.mergeSort_of_pairwise ascending
  have size : nestingSolved.mapSize = 2 := nestingSolvedIs.2.2.2.1
  have regions : nestingSolved.regions.size = 2 := by simp [nestingSolvedIs.2.2.2.2.1]
  obtain ⟨first, rest, paths⟩ : ∃ first rest, (nestingSolved.traceAt ⟨0⟩).paths = first :: rest :=
    List.exists_cons_of_ne_nil some_
  have region := called first (paths ▸ List.mem_cons_self)
  unfold RootLog.keyed at keyed
  rw [paths] at keyed
  simp only [table, placed, addTrace, paths, region, regions, bind, Except.bind,
    List.all_cons, List.isEmpty_cons, Bool.false_and, List.foldlM_cons, List.foldlM_nil] at keyed ⊢
  simp only [keyed, sorted, size, nestingRecords, pure, Except.pure, List.nil_append, bits]
  rfl

theorem nestingLeads : nesting.Leads [⟨2⟩, ⟨3⟩] (nesting.enclosing 6) := by
  obtain ⟨-, -, levels, callees⟩ := nestingIs
  simp only [List.map_cons, List.map_nil, List.cons.injEq, and_true] at levels callees
  have outer : nesting.enclosing 10 = some (nesting.call ⟨3⟩).region := by simp [levels, callees]
  have inner : nesting.enclosing 6 = some (nesting.call ⟨2⟩).region := by simp [levels, callees]
  have start : nesting.enclosing 16 = none := levels.2.2.2.1
  have called : nesting.entries[16]? = some (.pushSubroutine ⟨3⟩ 19) := by rw [nestingIs.1]; rfl
  have again : nesting.entries[10]? = some (.pushSubroutine ⟨2⟩ 13) := by rw [nestingIs.1]; rfl
  rw [inner]
  exact .call again (outer ▸ .call called (start ▸ .outside))

theorem nestingSelects : ∃ q ∈ (nestingSolved.traceAt ⟨0⟩).paths,
    nestingSolved.Spelled (some q.path) [⟨2⟩, ⟨3⟩] ∧ nestingTable.roots 80 nestingStack =
      some ((List.range nestingSolved.mapSize).map fun j => decide (j < 2) && q.map.has j) := by
  obtain ⟨-, address, place, -, -, -, -, -, within, held⟩ := nestingTraceIs
  have solved : nesting.solve {} = (.ok 1, nestingSolved) := Prod.ext nestingSolvedIs.1 rfl
  have here : nesting.entries[6]? = some (.trace ⟨0⟩) := by rw [nestingIs.1]; rfl
  have handlerless : nesting.Handlerless := by
    intro k start stop at'
    have inside := known at'
    rw [nestingIs.1] at at' inside
    simp only [List.size_toArray, List.length_cons, List.length_nil] at inside
    interval_cases k <;> simp at at'
  have answers : ∀ site ∈ [CallSiteId.mk 2, ⟨3⟩], ∀ o,
      nestingSolved.returnOffset (codeOffset nestingAddresses 0) site = .ok o →
      nestingStack (nestingSolved.region (nestingSolved.call site).region).stackIndex = some o := by
    intro site member o resolved
    rw [held site member, resolved]
    rfl
  exact chainsSelectTheirMaps nestingRecorded handlerless nestingOnce nestingFixed solved
    nestingBuilt nestingFits nestingTraces
    nestingReturns here within address place nestingLeads answers

end RootLog

end Lowering
