import CwatchBackend.Store.PeriodQueries
import CwatchBackend.Store.TrackStore
import CwatchBackend.Test.IdentityGenerator

/-!
# Composite tracks

`store.CompositeTrackStore` concatenates the tracks of several stores.  In `StoreConfiguration` they
are the three sources, each with an identity store and a position store of its own.

The identity stores come from the generator, whose half-open periods are exactly what
`MapdbPositionStore` slices (`vesselSliced_iff_of_halfOpen`), so the track of a vessel consists of
the saved reports that name it (`Contains.trackStore_queryTrack_perm`).  Reports stamped with the
identifier that their source knows for their vessel come back in the track of that vessel, each
once, and in no other track (`composite_queryTrack_perm`).
-/

namespace CwatchBackend

open Foundation
open scoped List

/-- `CompositeTrackStore<V>`, over the `queryTrack` of each of its stores. -/
structure CompositeTrackStore (V E : Type) where
  stores : List (V → Range Date → List E)

/-- `queryTrack(vessel, period)`. -/
def CompositeTrackStore.queryTrack {V E : Type} (composite : CompositeTrackStore V E) (vessel : V)
    (period : Range Date) : List E :=
  composite.stores.flatMap fun s => s vessel period

/-- The identity stores and the position stores of the three sources. -/
structure SourceStores (V : Type) where
  identityStore : ∀ s : Source, MemoryIdentityStore V s.Id
  positionStore : ∀ s : Source, MapdbPositionStore s.Id

/-- A track element of any of the three sources. -/
abbrev TrackElement : Type := Σ s : Source, DelegatingTrackElement (Position s)

/-- The track element that delegates to the report. -/
def TrackElement.of (p : SourcePosition) : TrackElement :=
  ⟨p.source, { delegate := some p.position }⟩

/-- The report as one of the source `s`. -/
def positionOf (s : Source) (p : SourcePosition) : Option (Position s) :=
  if h : p.source = s then some (h ▸ p.position) else none

/-- A report is one of its own source. -/
@[simp] theorem positionOf_source (p : SourcePosition) :
    positionOf p.source p = some p.position := by
  simp [positionOf]

/-- A report is none of another source. -/
theorem positionOf_of_ne {s : Source} {p : SourcePosition} (h : p.source ≠ s) :
    positionOf s p = none := dif_neg h

namespace SourceStores

variable {V : Type}

/-- `aisTrackStore`, `lritTrackStore` and `vmsTrackStore`. -/
def trackStoreOf (stores : SourceStores V) (s : Source) :
    SingleSourceTrackStore V s.Id (MapdbPositionStore s.Id) :=
  ⟨stores.identityStore s, stores.positionStore s⟩

/-- `StoreConfiguration.trackStore`: the AIS, the LRIT and the VMS track stores, in this order. -/
def trackStore (stores : SourceStores V) : CompositeTrackStore V TrackElement where
  stores := Source.all.map fun s vessel period =>
    ((stores.trackStoreOf s).queryTrack vessel period).map (Sigma.mk s)

/-- A report attributed to a vessel and a source. -/
structure Attributed (V : Type) where
  vessel : V
  source : Source
  position : DefaultPosition

/-- The position of source `s` for a report attributed to it, stamped with the identifier that the
identity store of `s` knows for the vessel. -/
def stamp (stores : SourceStores V) (s : Source) (report : Attributed V) : Option (Position s) :=
  if report.source = s then
    ((stores.identityStore s).getIdentifier report.vessel report.position.timestamp).map
      fun id => { report.position with id := id }
  else none

/-- A report is stamped and saved in the position store of its source. -/
def saveStamped (stores : SourceStores V) (report : Attributed V) : Option (SourceStores V) :=
  (stores.stamp report.source report).map fun position =>
    { stores with
      positionStore := Function.update stores.positionStore report.source
        ((stores.positionStore report.source).save position) }

/-- The stamped report. -/
def stamped (stores : SourceStores V) (report : Attributed V) : Option SourcePosition :=
  (stores.stamp report.source report).map (SourcePosition.mk report.source)

/-- The track element that delegates to the stamped report. -/
def element (stores : SourceStores V) (report : Attributed V) : TrackElement :=
  ⟨report.source, { delegate := stores.stamp report.source report }⟩

/-- The report carries the identifier that its source knows for the vessel at its time. -/
def Names (stores : SourceStores V) (v : V) (p : SourcePosition) : Prop :=
  (stores.identityStore p.source).getIdentifier v p.position.timestamp = some p.position.id

instance (stores : SourceStores V) (v : V) : DecidablePred (stores.Names v) :=
  fun _ => inferInstanceAs (Decidable (_ = _))

/-! ### Saving reports -/

/-- A report of another source is not stamped for `s`. -/
theorem stamp_of_ne (stores : SourceStores V) {s : Source} {report : Attributed V}
    (h : report.source ≠ s) : stores.stamp s report = none := if_neg h

/-- The stamp of a report says what the report says, and the identifier. -/
theorem stamp_eq_some {stores : SourceStores V} {s : Source} {report : Attributed V}
    {p : Position s} (h : stores.stamp s report = some p) :
    p.toDefaultPosition = report.position ∧
      (stores.identityStore s).getIdentifier report.vessel p.timestamp = some p.id := by
  by_cases hs : report.source = s
  · rw [stamp, if_pos hs] at h
    obtain ⟨id, hid, rfl⟩ := Option.map_eq_some_iff.mp h
    exact ⟨rfl, hid⟩
  · rw [stores.stamp_of_ne hs] at h
    exact absurd h.symm (Option.some_ne_none p)

/-- Every position store holds the reports of its source, in order, and is reached by `save`s
only. -/
structure Holds (stores : SourceStores V) (reports : List (Attributed V)) : Prop where
  consistent : ∀ s, (stores.positionStore s).Consistent (reports.filterMap (stores.stamp s))
  listening : ∀ s, (stores.positionStore s).table.listening = true

/-- Saving a stamped report changes no identity store. -/
theorem identityStore_of_saveStamped {stores stores' : SourceStores V} {report : Attributed V}
    (h : stores.saveStamped report = some stores') :
    stores'.identityStore = stores.identityStore := by
  obtain ⟨p, -, rfl⟩ := Option.map_eq_some_iff.mp h
  rfl

/-- The stamp depends on the identity stores only. -/
theorem stamp_congr {stores stores' : SourceStores V}
    (h : stores'.identityStore = stores.identityStore) : stores'.stamp = stores.stamp := by
  funext s report
  rw [stamp, stamp, h]

/-- Saving a further report. -/
theorem Holds.saveStamped {stores stores' : SourceStores V} {reports : List (Attributed V)}
    (h : Holds stores reports) {report : Attributed V}
    (hsave : stores.saveStamped report = some stores') :
    Holds stores' (reports ++ [report]) := by
  have hstamp := stamp_congr (identityStore_of_saveStamped hsave)
  obtain ⟨p, hp, rfl⟩ := Option.map_eq_some_iff.mp hsave
  constructor
  · intro s
    rw [hstamp, List.filterMap_append]
    by_cases hs : s = report.source
    · subst hs
      simpa [hp] using (h.consistent report.source).save (h.listening _) p
    · simpa [Function.update_of_ne hs, stores.stamp_of_ne (Ne.symm hs)] using h.consistent s
  · intro s
    by_cases hs : s = report.source
    · subst hs
      simpa [MapdbPositionStore.save_of_listening (h.listening report.source)]
        using h.listening report.source
    · simpa [Function.update_of_ne hs] using h.listening s

/-- Reports that all can be stamped are all saved. -/
theorem exists_run_saveStamped {stores : SourceStores V} {before reports : List (Attributed V)}
    (h : Holds stores before)
    (hstamp : ∀ r ∈ reports, ∃ p, stores.stamp r.source r = some p) :
    ∃ stores', run saveStamped stores reports = some stores' ∧
      stores'.identityStore = stores.identityStore ∧ Holds stores' (before ++ reports) := by
  induction reports generalizing stores before with
  | nil => exact ⟨stores, rfl, rfl, by simpa using h⟩
  | cons r reports ih =>
    obtain ⟨p, hp⟩ := hstamp r List.mem_cons_self
    obtain ⟨next, hnext⟩ : ∃ next, stores.saveStamped r = some next := by
      rw [saveStamped, hp]
      exact ⟨_, rfl⟩
    have hidentity := identityStore_of_saveStamped hnext
    obtain ⟨last, hlast, hid, hholds⟩ := ih (h.saveStamped hnext) fun r' hr' => by
      rw [stamp_congr hidentity]
      exact hstamp r' (List.mem_cons_of_mem _ hr')
    exact ⟨last, run_cons.mpr ⟨next, hnext, hlast⟩, hid.trans hidentity, by simpa using hholds⟩

/-! ### Tracks over half-open periods -/

/-- The slices of a half-open period take exactly its times before `Long.MAX_VALUE`. -/
theorem vesselSliced_iff_of_halfOpen {period : Range Date} {t : Date} (ht : t < Date.maxValue)
    (hlo : IdentityGenerator.HalfOpenCut period.lowerBound)
    (hhi : IdentityGenerator.HalfOpenCut period.upperBound) :
    VesselSliced period t ↔ t ∈ period := by
  refine vesselSliced_iff_mem.mpr fun hslip => ?_
  rw [VesselSlip, if_neg fun hmax => ht.ne hmax.2] at hslip
  rcases hslip.2 with hslip | hslip
  · exact hlo _ hslip
  · exact hhi _ hslip

/-- A `MapdbPositionStore` with correct indexes and without rows at `Long.MAX_VALUE` answers
half-open periods exactly. -/
theorem queryVessel_perm_of_halfOpen {I : Type} [LinearOrder I] {store : MapdbPositionStore I}
    {items : List (TypedPosition I)} (hindexes : MapdbPositionStore.IndexesDescribeTable store)
    (hrows : (store.table.rows.entries.map Prod.snd).Perm items)
    (htimestamp : ∀ p ∈ items, p.timestamp < Date.maxValue) (id : I) {period : Range Date}
    (hlo : IdentityGenerator.HalfOpenCut period.lowerBound)
    (hhi : IdentityGenerator.HalfOpenCut period.upperBound) :
    (store.queryVessel id period).Perm
      ((items.filter fun p => p.id = id ∧ p.timestamp ∈ period).map some) := by
  have hperm := (MapdbPositionStore.queryVessel_perm hindexes id period).trans
    ((hrows.filter _).map some)
  refine hperm.trans (List.Perm.of_eq (congrArg (List.map some) ?_))
  exact List.filter_congr fun p hp => decide_eq_decide.mpr
    (and_congr_right fun _ => vesselSliced_iff_of_halfOpen (htimestamp p hp) hlo hhi)

/-- Every position store holds the reports of its source, with correct indexes. -/
structure Contains (stores : SourceStores V) (saved : List SourcePosition) : Prop where
  indexes : ∀ s, MapdbPositionStore.IndexesDescribeTable (stores.positionStore s)
  rows : ∀ s, ((stores.positionStore s).table.rows.entries.map Prod.snd).Perm
    (saved.filterMap (positionOf s))

variable [DecidableEq V] {generator : IdentityGenerator V} {outcome : ∀ s : Source, Outcome V s.Id}

/-- The stores after one run of the generator on each of three new identity stores, with three
initialised position stores. -/
def generated (generator : IdentityGenerator V) (outcome : ∀ s : Source, Outcome V s.Id) :
    SourceStores V where
  identityStore s := generator.generate (outcome s) MemoryIdentityStore.new
  positionStore _ := MapdbPositionStore.init

section Contains

variable {stores : SourceStores V} {saved : List SourcePosition}

/-- The track of a vessel at a source consists of the positions of this source that name it. -/
theorem Contains.queryTrack_perm (h : Contains stores saved)
    (hidentity : stores.identityStore = (generated generator outcome).identityStore)
    (htimestamp : ∀ p ∈ saved, p.position.timestamp < Date.maxValue) (v : V) (s : Source) :
    ((stores.trackStoreOf s).queryTrack v Range.all).Perm
      (SingleSourceTrackStore.track ((saved.filterMap (positionOf s)).filter fun q =>
        q.timestamp ∈ Range.all ∧
          (stores.identityStore s).getIdentifier v q.timestamp = some q.id)) := by
  have hstore : (stores.trackStoreOf s).identityStore =
      generator.generate (outcome s) MemoryIdentityStore.new := congrFun hidentity s
  have hbefore : ∀ q ∈ saved.filterMap (positionOf s), q.timestamp < Date.maxValue := by
    intro q hq
    obtain ⟨p, hp, hpq⟩ := List.mem_filterMap.mp hq
    by_cases hs : p.source = s
    · subst hs
      rw [positionOf_source] at hpq
      exact Option.some.inj hpq ▸ htimestamp p hp
    · rw [positionOf_of_ne hs] at hpq
      cases hpq
  refine SingleSourceTrackStore.queryTrack_perm fun ip hip => ?_
  rw [hstore] at hip
  obtain ⟨hlo, hhi⟩ := IdentityGenerator.halfOpen_of_mem_queryIdentityfiers hip
  exact queryVessel_perm_of_halfOpen (h.indexes s) (h.rows s) hbefore ip.id hlo hhi

omit [DecidableEq V] in
/-- The saved positions of one source that name a vessel, as track elements. -/
theorem map_track_eq (saved : List SourcePosition) (v : V) (s : Source) :
    (SingleSourceTrackStore.track ((saved.filterMap (positionOf s)).filter fun q =>
      q.timestamp ∈ Range.all ∧
        (stores.identityStore s).getIdentifier v q.timestamp = some q.id)).map (Sigma.mk s) =
      ((saved.filter (stores.Names v)).filter fun p => p.source = s).map TrackElement.of := by
  induction saved with
  | nil => rfl
  | cons p saved ih =>
    by_cases hs : p.source = s
    · subst hs
      rw [List.filterMap_cons_some (positionOf_source p), List.filter_cons, List.filter_cons]
      by_cases hid : (stores.identityStore p.source).getIdentifier v p.position.timestamp =
          some p.position.id
      · have hp : stores.Names v p := hid
        simpa [hid, hp, SingleSourceTrackStore.track, TrackElement.of] using ih
      · have hp : ¬ stores.Names v p := hid
        simpa [hid, hp] using ih
    · rw [List.filterMap_cons_none (positionOf_of_ne hs), ih, List.filter_cons]
      split <;> simp [hs]

/-- With identities from the generator the composite track of a vessel consists of the saved reports
that name it. -/
theorem Contains.trackStore_queryTrack_perm (h : Contains stores saved)
    (hidentity : stores.identityStore = (generated generator outcome).identityStore)
    (htimestamp : ∀ p ∈ saved, p.position.timestamp < Date.maxValue) (v : V) :
    (stores.trackStore.queryTrack v Range.all).Perm
      ((saved.filter (stores.Names v)).map TrackElement.of) := by
  -- The reports that name the vessel, source by source.
  have hsources : (Source.all.flatMap fun s =>
      (saved.filter (stores.Names v)).filter fun p => p.source = s).Perm
        (saved.filter (stores.Names v)) := by
    refine (flatMap_filter_perm ?_ _).trans (List.Perm.of_eq ?_)
    · refine Source.nodup_all.imp fun hne p hp => ?_
      exact decide_eq_false fun hp' => hne ((of_decide_eq_true hp).symm.trans hp')
    · apply List.filter_eq_self.mpr
      intro p _
      exact List.any_eq_true.mpr ⟨p.source, Source.mem_all p.source, decide_eq_true rfl⟩
  calc stores.trackStore.queryTrack v Range.all
    _ = Source.all.flatMap fun s =>
          ((stores.trackStoreOf s).queryTrack v Range.all).map (Sigma.mk s) := by
        rw [CompositeTrackStore.queryTrack, trackStore, List.flatMap_map]
    _ ~ Source.all.flatMap fun s =>
          ((saved.filter (stores.Names v)).filter fun p => p.source = s).map TrackElement.of := by
        refine List.Perm.flatMap_left _ fun s _ => ?_
        rw [← map_track_eq]
        exact (h.queryTrack_perm hidentity htimestamp v s).map (Sigma.mk s)
    _ = (Source.all.flatMap fun s =>
          (saved.filter (stores.Names v)).filter fun p => p.source = s).map TrackElement.of := by
        rw [List.map_flatMap]
    _ ~ (saved.filter (stores.Names v)).map TrackElement.of := hsources.map _

/-- If no identifier of a source is given to two vessels, a report names at most one vessel. -/
theorem names_iff
    (hidentity : stores.identityStore = (generated generator outcome).identityStore)
    (hexclusive : ∀ s, IdentityGenerator.Exclusive (generator.generateCalls (outcome s)))
    {w : V} {p : SourcePosition} (hw : stores.Names w p) (v : V) : stores.Names v p ↔ w = v := by
  constructor
  · intro hv
    rw [Names, hidentity] at hv hw
    exact IdentityGenerator.eq_of_getIdentifier_eq (hexclusive p.source) hw hv
  · rintro rfl
    exact hw

/-- Of the reports made of some items, each of which names the vessel of its item, those that name
`v` are made of the items of `v`. -/
theorem filter_names_filterMap {α : Type} {vessel : α → V} {report? : α → Option SourcePosition}
    {v : V} (hnames : ∀ a p, report? a = some p → (stores.Names v p ↔ vessel a = v))
    (items : List α) :
    (items.filterMap report?).filter (stores.Names v) =
      (items.filter fun a => vessel a = v).filterMap report? := by
  rw [List.filter_filterMap, List.filterMap_filter]
  refine List.filterMap_congr fun a _ => ?_
  cases hreport : report? a with
  | none => simp
  | some p =>
    have hiff := hnames a p hreport
    simp [Option.filter, hiff]

end Contains

/-! ### Tracks over the saved reports -/

/-- Initialised position stores hold nothing. -/
theorem holds_generated : Holds (generated generator outcome) [] where
  consistent _ := MapdbPositionStore.consistent_init
  listening _ := rfl

/-- A report of a generated vessel can be stamped. -/
theorem exists_stamp (outcome : ∀ s : Source, Outcome V s.Id) {r : Attributed V}
    (hr : r.vessel ∈ generator.getVessels) :
    ∃ p, (generated generator outcome).stamp r.source r = some p := by
  obtain ⟨i, hi⟩ := IdentityGenerator.exists_getIdentifier (outcome r.source) hr
    r.position.timestamp
  refine ⟨⟨r.position, i⟩, ?_⟩
  rw [stamp, if_pos rfl]
  exact congrArg (Option.map _) hi

section Stamped

omit [DecidableEq V]

variable {stores : SourceStores V} {r : Attributed V} {p : SourcePosition}

/-- The stamped report says what the report says, and names its vessel. -/
theorem stamped_eq_some (h : stores.stamped r = some p) :
    p.position.toDefaultPosition = r.position ∧ stores.Names r.vessel p := by
  obtain ⟨q, hq, rfl⟩ := Option.map_eq_some_iff.mp h
  exact stamp_eq_some hq

/-- The element of a report delegates to the stamped report. -/
theorem element_of_stamped (h : stores.stamped r = some p) :
    stores.element r = TrackElement.of p := by
  obtain ⟨q, hq, rfl⟩ := Option.map_eq_some_iff.mp h
  rw [element, hq]
  rfl

/-- The stamped reports of one source. -/
theorem filterMap_stamp_eq (stores : SourceStores V) (reports : List (Attributed V)) (s : Source) :
    reports.filterMap (stores.stamp s) =
      (reports.filterMap stores.stamped).filterMap (positionOf s) := by
  rw [List.filterMap_filterMap]
  refine List.filterMap_congr fun r _ => ?_
  by_cases hs : r.source = s
  · subst hs
    rw [stamped]
    cases stores.stamp r.source r with
    | none => rfl
    | some q => exact (positionOf_source ⟨r.source, q⟩).symm
  · rw [stores.stamp_of_ne hs, stamped, Option.bind_map]
    refine (Option.bind_eq_none_iff.mpr fun q _ => ?_).symm
    exact positionOf_of_ne hs

/-- Stores that hold the reports contain the stamped ones. -/
theorem Holds.contains {reports : List (Attributed V)} (h : Holds stores reports) :
    Contains stores (reports.filterMap stores.stamped) where
  indexes s := (h.consistent s).toIndexesDescribeTable
  rows s := filterMap_stamp_eq stores reports s ▸ (h.consistent s).rows

/-- The elements of reports that all can be stamped. -/
theorem map_of_stamped {reports : List (Attributed V)}
    (hstamped : ∀ r ∈ reports, ∃ p, stores.stamped r = some p) :
    (reports.filterMap stores.stamped).map TrackElement.of = reports.map stores.element := by
  induction reports with
  | nil => rfl
  | cons r reports ih =>
    obtain ⟨p, hp⟩ := hstamped r List.mem_cons_self
    rw [List.filterMap_cons_some hp, List.map_cons, List.map_cons, element_of_stamped hp,
      ih fun r' hr' => hstamped r' (List.mem_cons_of_mem _ hr')]

end Stamped

/-- If no identifier of a source is given to two vessels, then all reports of generated vessels can
be stamped and saved, and the composite track of a vessel consists of the elements of its reports,
each once; the element of a report delegates to a position that says what the report says. -/
theorem composite_queryTrack_perm (generator : IdentityGenerator V)
    (outcome : ∀ s : Source, Outcome V s.Id)
    (hexclusive : ∀ s, IdentityGenerator.Exclusive (generator.generateCalls (outcome s)))
    (reports : List (Attributed V))
    (hvessel : ∀ r ∈ reports, r.vessel ∈ generator.getVessels)
    (htimestamp : ∀ r ∈ reports, r.position.timestamp < Date.maxValue) :
    ∃ stores, run saveStamped (generated generator outcome) reports = some stores ∧
      (∀ r ∈ reports, ∃ p, stores.element r = TrackElement.of p ∧
        p.position.toDefaultPosition = r.position) ∧
      ∀ v, (stores.trackStore.queryTrack v Range.all).Perm
        ((reports.filter fun r => r.vessel = v).map stores.element) := by
  have hstamp := fun r hr => exists_stamp outcome (hvessel r hr)
  obtain ⟨stores, hrun, hidentity, hholds⟩ := exists_run_saveStamped holds_generated hstamp
  rw [List.nil_append] at hholds
  have hstamped : ∀ r ∈ reports, ∃ p, stores.stamped r = some p := by
    intro r hr
    obtain ⟨q, hq⟩ := hstamp r hr
    rw [stamped, stamp_congr hidentity, hq]
    exact ⟨⟨r.source, q⟩, rfl⟩
  have hbefore : ∀ p ∈ reports.filterMap stores.stamped, p.position.timestamp < Date.maxValue := by
    intro p hp
    obtain ⟨r, hr, hrp⟩ := List.mem_filterMap.mp hp
    rw [(stamped_eq_some hrp).1]
    exact htimestamp r hr
  refine ⟨stores, hrun, fun r hr => ?_, fun v => ?_⟩
  · obtain ⟨p, hp⟩ := hstamped r hr
    exact ⟨p, element_of_stamped hp, (stamped_eq_some hp).1⟩
  · have hnames : ∀ r p, stores.stamped r = some p → (stores.Names v p ↔ r.vessel = v) :=
      fun r p hp => names_iff hidentity hexclusive (stamped_eq_some hp).2 v
    have htrack := hholds.contains.trackStore_queryTrack_perm hidentity hbefore v
    rw [filter_names_filterMap hnames, map_of_stamped] at htrack
    · exact htrack
    · exact fun r hr => hstamped r (List.mem_filter.mp hr).1

/-- A generator of two vessels with one change each. -/
def twoVessels : IdentityGenerator VesselId := ⟨2, 1, fun n => ⟨Int32.ofNat n⟩⟩

/-- Both vessels change at `100`, and every answer is a new identifier. -/
def twoVesselsOutcome : ∀ s : Source, Outcome VesselId s.Id
  | .ais => ⟨fun _ _ => ⟨100⟩, fun n k _ _ => Int32.ofNat (10 * n + k)⟩
  | .lrit => ⟨fun _ _ => ⟨100⟩, fun n k _ _ => Int32.ofNat (20 * n + k)⟩
  | .vms => ⟨fun _ _ => ⟨100⟩, fun n _ _ _ => if n = 0 then "A" else "B"⟩

/-- An AIS report before and a VMS report after the change of the first vessel, and an LRIT report
of the second one. -/
def threeReports : List (Attributed VesselId) :=
  [⟨⟨1⟩, .ais, ⟨⟨50⟩, 0, 0, 0⟩⟩, ⟨⟨1⟩, .vms, ⟨⟨150⟩, 0, 0, 0⟩⟩, ⟨⟨2⟩, .lrit, ⟨⟨100⟩, 0, 0, 0⟩⟩]

/-- The three reports come back in the tracks of their vessels. -/
theorem composite_queryTrack_threeReports :
    ∃ stores, run saveStamped (generated twoVessels twoVesselsOutcome) threeReports = some stores ∧
      (∀ r ∈ threeReports, ∃ p, stores.element r = TrackElement.of p ∧
        p.position.toDefaultPosition = r.position) ∧
      ∀ v, (stores.trackStore.queryTrack v Range.all).Perm
        ((threeReports.filter fun r => r.vessel = v).map stores.element) :=
  composite_queryTrack_perm twoVessels twoVesselsOutcome (fun s => by cases s <;> decide)
    threeReports (by decide) (by decide)

end SourceStores

end CwatchBackend
