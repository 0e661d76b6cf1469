import CwatchBackend.Process.Profile
import CwatchBackend.Store.TrackStore

/-!
# Enrichment

`process.DefaultEnrichmentService` looks up the vessel of a report under the identifier that the
report carries, at the time of processing.  A track looks up the identifiers of its vessel at the
times of the reports.  The two agree about a report whose identity is `v` exactly when the last
`set` call for `v` that covers the time of the report assigned the identifier of the report
(`enriched_report_in_track_iff`).
-/

namespace CwatchBackend

open Foundation MemoryIdentityStore

/-- `DefaultIdentityStores<V>`: the stores `mmsi()`, `imo()` and `ir()` under their sources. -/
abbrev DefaultIdentityStores (V : Type) : Type := ∀ s : Source, MemoryIdentityStore V s.Id

namespace DefaultEnrichmentService

variable {V : Type}

/-- `enrich(position, identity)` with the identity store of the source.  The identity is looked up
when it is first read, at the clock reading `now`, and kept; the identity of an unknown vessel is
`none`. -/
def enrich (stores : DefaultIdentityStores V) (s : Source) (now : Date) (position : Position s) :
    EnrichedPosition (Option V) (Position s) :=
  ⟨position, (stores s).getLatestVessel position.id now⟩

/-- `enrichAis(position)`. -/
def enrichAis (stores : DefaultIdentityStores V) (now : Date) (position : Position .ais) :
    EnrichedPosition (Option V) (Position .ais) :=
  enrich stores .ais now position

/-- `enrichLrit(position)`. -/
def enrichLrit (stores : DefaultIdentityStores V) (now : Date) (position : Position .lrit) :
    EnrichedPosition (Option V) (Position .lrit) :=
  enrich stores .lrit now position

/-- `enrichVms(position)`. -/
def enrichVms (stores : DefaultIdentityStores V) (now : Date) (position : Position .vms) :
    EnrichedPosition (Option V) (Position .vms) :=
  enrich stores .vms now position

/-- A report of any source, enriched by the method for its source. -/
def enrichPosition (stores : DefaultIdentityStores V) (now : Date) (position : SourcePosition) :
    Enriched (Option V) :=
  .ofSource position.source (enrich stores position.source now position.position)

/-! ### The live map and the tracks -/

variable [DecidableEq V]

/-- The identity of a report is the vessel of the last call with its identifier that covers the
time of processing. -/
theorem identity_enrich (calls : ∀ s : Source, List (SetCall V s.Id)) (s : Source) (now : Date)
    (p : Position s) :
    (enrich (fun s => replay (calls s)) s now p).identity = lastVessel (calls s) p.id now :=
  getVessel_replay (calls s) p.id now

/-- A stored report is in the track of `v` if the last call for `v` that covers its time assigned
its identifier. -/
theorem mem_queryTrack_iff {I : Type} [DecidableEq I] {calls : List (SetCall V I)}
    {positions : MemoryPositionStore I} {p : TypedPosition I} (hp : p ∈ positions.items) (v : V) :
    { delegate := some p } ∈
        SingleSourceTrackStore.queryTrack ⟨replay calls, positions⟩ v Range.all ↔
      lastIdentifier calls v p.timestamp = some p.id := by
  have htrack :=
    SingleSourceTrackStore.queryTrack_memory_perm (replay calls) positions v Range.all
  rw [htrack.mem_iff, SingleSourceTrackStore.mem_track_iff]
  simp [hp, getIdentifier_replay]

/-- A stored report whose identity at the time of processing is `v` is in the track of `v` if and
only if the last call for `v` that covers the time of the report assigned its identifier.  So it is
if the call that decides the identity covers the time of the report too and no later call for `v`
does. -/
theorem enriched_report_in_track_iff (calls : ∀ s : Source, List (SetCall V s.Id)) (s : Source)
    (positions : MemoryPositionStore s.Id) (p : Position s) (hp : p ∈ positions.items) (now : Date)
    (v : V) (hv : (enrich (fun s => replay (calls s)) s now p).identity = some v) :
    ({ delegate := some p } ∈
        SingleSourceTrackStore.queryTrack ⟨replay (calls s), positions⟩ v Range.all ↔
      lastIdentifier (calls s) v p.timestamp = some p.id) ∧
    ∀ pre c post, calls s = pre ++ c :: post → c.identifier = p.id → now ∈ c.period →
      (∀ d ∈ post, d.identifier = p.id → now ∉ d.period) → p.timestamp ∈ c.period →
      (∀ d ∈ post, d.vessel = v → p.timestamp ∉ d.period) →
      { delegate := some p } ∈
        SingleSourceTrackStore.queryTrack ⟨replay (calls s), positions⟩ v Range.all := by
  refine ⟨mem_queryTrack_iff hp v, fun pre c post hcalls hid hnow hdecides hcovers hsilent => ?_⟩
  rw [identity_enrich, hcalls, lastVessel] at hv
  have hvessel : c.vessel = v := by
    have hlast : lastSome? (SetCall.vesselOf p.id now) (pre ++ c :: post) = some c.vessel :=
      lastSome?_eq_some_iff.mpr ⟨pre, c, post, rfl, if_pos ⟨hid, hnow⟩,
        fun d hd => if_neg fun h => hdecides d hd h.1 h.2⟩
    exact Option.some.inj (hlast.symm.trans hv)
  rw [mem_queryTrack_iff hp, hcalls, lastIdentifier]
  exact lastSome?_eq_some_iff.mpr ⟨pre, c, post, rfl,
    SetCall.identifierOf_eq_some.mpr ⟨hvessel, hcovers, hid⟩,
    fun d hd => if_neg fun h => hsilent d hd h.1 h.2⟩

/-! ### A late report -/

/-- The vessel `1` carries the MMSI number `7` from the time `100` on. -/
def fromHundred : ∀ s : Source, List (SetCall VesselId s.Id)
  | .ais => [⟨⟨1⟩, Range.atLeast ⟨100⟩, (7 : Int32)⟩]
  | .lrit => []
  | .vms => []

/-- An AIS report with the MMSI number `7`. -/
def aisAt (time : Int64) : Position .ais := ⟨⟨⟨time⟩, 0, 0, 0⟩, (7 : Int32)⟩

/-- A report of the time `150`, processed at the time `200`, is in the track of its vessel. -/
theorem report_in_track :
    { delegate := some (aisAt 150) } ∈
      SingleSourceTrackStore.queryTrack ⟨replay (fromHundred .ais),
        (⟨[aisAt 150]⟩ : MemoryPositionStore (Source.Id .ais))⟩ ⟨1⟩ Range.all := by
  have htrack := enriched_report_in_track_iff fromHundred .ais ⟨[aisAt 150]⟩ (aisAt 150)
    List.mem_cons_self ⟨200⟩ ⟨1⟩ (by rw [identity_enrich]; decide)
  exact htrack.1.mpr (by decide)

/-- A report of the time `50`, processed at the time `200`, is shown as the vessel `1` but is not in
its track. -/
theorem late_report_not_in_track :
    (enrich (fun s => replay (fromHundred s)) .ais ⟨200⟩ (aisAt 50)).identity = some ⟨1⟩ ∧
      { delegate := some (aisAt 50) } ∉
        SingleSourceTrackStore.queryTrack ⟨replay (fromHundred .ais),
          (⟨[aisAt 50]⟩ : MemoryPositionStore (Source.Id .ais))⟩ ⟨1⟩ Range.all := by
  rw [identity_enrich, mem_queryTrack_iff List.mem_cons_self]
  decide

end DefaultEnrichmentService

end CwatchBackend
