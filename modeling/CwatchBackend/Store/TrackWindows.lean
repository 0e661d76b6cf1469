import CwatchBackend.Foundation.Windows
import CwatchBackend.Store.CompositeTrackStore

/-!
# Tracks window by window

A client that follows a vessel asks for its track one window after the other.  Whatever the bound
kinds of the windows are, the store over MapDB includes the lower endpoint of a window and excludes
the upper one, so that windows that follow each other share no position and miss none
(`additive_queryVessel`, `queryArea_windows`).

An identity period is cut where the window is, so the tracks of the windows of a period, one after
the other, are the track of the period (`additive_queryTrack`).  This holds for every state of the
store, and for the composite of the three sources up to the order of its elements
(`trackStore_windows`).
-/

namespace CwatchBackend

open Foundation
open scoped List

namespace MapdbPositionStore

variable {I : Type} [LinearOrder I]

/-- The arrays `{id, date}` ascend with the date. -/
theorem idDate_le_idDate {id : I} {d e : Date} (h : d ≤ e) :
    ([.id id, .long d.getTime.toInt] : IndexArray I) ≤ [.id id, .long e.getTime.toInt] := by
  rw [← not_lt]
  simpa [List.cons_lt_cons_iff] using Date.le_def.mp h

/-- The arrays `{date}` ascend with the date. -/
theorem date_le_date {d e : Date} (h : d ≤ e) :
    ([.long d.getTime.toInt] : IndexArray I) ≤ [.long e.getTime.toInt] := by
  rw [← not_lt]
  simpa [List.cons_lt_cons_iff] using Date.le_def.mp h

/-- Where a period is cut in two, the endpoint of the cut lies between its endpoints. -/
theorem exists_cut {r first rest : Range Date} (h : r.Splits first rest) :
    ∃ t, first.upperBound.endpoint? = some t ∧ rest.lowerBound.endpoint? = some t ∧
      (∀ d ∈ r.lowerBound.endpoint?, d ≤ t) ∧ ∀ d ∈ r.upperBound.endpoint?, t ≤ d := by
  obtain ⟨t, hfirst, hrest⟩ := h.exists_endpoint
  refine ⟨t, hfirst, hrest, fun d hd => ?_, fun d hd => ?_⟩
  · exact Cut.endpoint_le_endpoint (h.lowerBound ▸ first.ordered) hd hfirst
  · exact Cut.endpoint_le_endpoint (h.upperBound ▸ rest.ordered) hrest hd

/-- A vessel query of a period that is cut in two, for any content of the table and the indexes. -/
theorem additive_queryVessel (store : MapdbPositionStore I) (id : I) :
    Additive (store.queryVessel id) := by
  intro r first rest hsplit
  obtain ⟨t, hfirst, hrest, hlower, hupper⟩ := exists_cut hsplit
  rw [queryVessel, queryVessel, queryVessel, ← List.map_append]
  congr 1
  rw [elements_vesselSlice, elements_vesselSlice, elements_vesselSlice, hsplit.lowerBound, hfirst,
    hrest, hsplit.upperBound]
  refine store.lookupIdTimestamp.filter_split [.id id, .long t.getTime.toInt] ?_ ?_
  · intro x _
    rw [← Bool.decide_and, decide_eq_decide]
    simp only [Option.mem_some_iff, forall_eq', reduceCtorEq, false_imp_iff, and_true]
    constructor
    · rintro ⟨hid, hlo, hlt⟩
      refine ⟨⟨hid, hlo, fun d hd => ?_, fun _ => ?_⟩, hlt⟩
      · exact hlt.trans_le (idDate_le_idDate (hupper d hd))
      · exact hlt.le.trans (idDate_le_idDate (Date.le_maxValue t))
    · rintro ⟨⟨hid, hlo, -⟩, hlt⟩
      exact ⟨hid, hlo, hlt⟩
  · intro x _
    rw [← Bool.decide_and, decide_eq_decide]
    simp only [Option.mem_some_iff, forall_eq']
    constructor
    · rintro ⟨hid, hle, hhi, hmax⟩
      exact ⟨⟨hid, fun d hd => (idDate_le_idDate (hlower d hd)).trans hle, hhi, hmax⟩, hle⟩
    · rintro ⟨⟨hid, -, hhi, hmax⟩, hle⟩
      exact ⟨hid, hle, hhi, hmax⟩

/-- The walk of an area query of a period that is cut in two. -/
theorem additive_areaSlice (store : MapdbPositionStore I) :
    Additive fun period => (store.areaSlice period).elements.map (store.rowOf 1) := by
  intro r first rest hsplit
  obtain ⟨t, hfirst, hrest, hlower, hupper⟩ := exists_cut hsplit
  dsimp only
  rw [← List.map_append]
  congr 1
  rw [elements_areaSlice, elements_areaSlice, elements_areaSlice, hsplit.lowerBound, hfirst, hrest,
    hsplit.upperBound]
  refine store.lookupTimestamp.filter_split [.long t.getTime.toInt] ?_ ?_
  · intro x _
    rw [← Bool.decide_and, decide_eq_decide]
    simp only [Option.mem_some_iff, forall_eq']
    constructor
    · rintro ⟨hlo, hlt⟩
      exact ⟨⟨hlo, fun d hd => hlt.trans_le (date_le_date (hupper d hd))⟩, hlt⟩
    · rintro ⟨⟨hlo, -⟩, hlt⟩
      exact ⟨hlo, hlt⟩
  · intro x _
    rw [← Bool.decide_and, decide_eq_decide]
    simp only [Option.mem_some_iff, forall_eq']
    constructor
    · rintro ⟨hle, hhi⟩
      exact ⟨⟨fun d hd => (date_le_date (hlower d hd)).trans hle, hhi⟩, hle⟩
    · rintro ⟨⟨-, hhi⟩, hle⟩
      exact ⟨hle, hhi⟩

omit [LinearOrder I] in
/-- Filtering a stream by a box is filtering its parts, one after the other; it throws if one of
them throws. -/
theorem filterBox_append (box : Box) (os os' : List (Option (TypedPosition I))) :
    filterBox box (os ++ os') = do
      let found ← filterBox box os
      let found' ← filterBox box os'
      return found ++ found' := by
  induction os with
  | nil =>
    rw [List.nil_append, filterBox]
    cases filterBox box os' <;> rfl
  | cons o os ih =>
    cases o with
    | none => rfl
    | some p =>
      rw [List.cons_append, filterBox, filterBox, ih]
      cases filterBox box os with
      | error throwable => rfl
      | ok found =>
        cases filterBox box os' with
        | error throwable => rfl
        | ok found' =>
          by_cases hp : box.Contains p.toDefaultPosition <;> simp [hp, bind, Except.bind, pure,
            Except.pure]

/-- An area query of a period that is cut in two. -/
theorem queryArea_split (store : MapdbPositionStore I) {r first rest : Range Date}
    (hsplit : r.Splits first rest) (box : Box) :
    store.queryArea r box = do
      let found ← store.queryArea first box
      let found' ← store.queryArea rest box
      return found ++ found' := by
  have hslice := store.additive_areaSlice hsplit
  dsimp only at hslice
  rw [queryArea, hslice, filterBox_append]
  rfl

/-- The area queries of the windows of a period find, one after the other, what the query of the
period finds, and one of them throws if and only if that query throws. -/
theorem queryArea_windows (store : MapdbPositionStore I) {period : Range Date}
    {windows : List (Range Date)} (hwindows : period.Divides windows) (box : Box) :
    ((windows.mapM fun window => store.queryArea window box).map List.flatten) =
      store.queryArea period box := by
  induction hwindows with
  | whole r =>
    rw [List.mapM_cons, List.mapM_nil]
    cases store.queryArea r box with
    | error throwable => rfl
    | ok found => exact congrArg Except.ok (List.append_nil found)
  | @cut r first rest windows hsplit _ ih =>
    rw [store.queryArea_split hsplit box, ← ih, List.mapM_cons]
    cases store.queryArea first box with
    | error throwable => rfl
    | ok found => cases windows.mapM fun window => store.queryArea window box <;> rfl

/-- A store with an index entry at the time `150` whose row a failed pump has not written. -/
def halfPumped : MapdbPositionStore Int32 := init.pumpThrows [⟨⟨⟨150⟩, 0, 0, 0⟩, 1⟩]

/-- The first window is answered, and the second one throws like the whole period. -/
theorem queryArea_windows_halfPumped :
    let early : Range Date := Range.ofCuts .belowAll (.belowValue ⟨150⟩) (by decide)
    let windows := [early, Range.atLeast ⟨150⟩]
    halfPumped.queryArea early everywhere = .ok [] ∧
      ((windows.mapM fun window => halfPumped.queryArea window everywhere).map List.flatten) =
        halfPumped.queryArea Range.all everywhere := by
  intro early windows
  have hsplit : Range.all.Splits early (Range.atLeast ⟨150⟩) := ⟨rfl, rfl, rfl⟩
  exact ⟨rfl, halfPumped.queryArea_windows (.cut hsplit (.whole _)) everywhere⟩

end MapdbPositionStore

namespace SingleSourceTrackStore

variable {V I : Type} [LinearOrder I]

/-- A track of a period that is cut in two, whatever the identity store and the position store
hold. -/
theorem additive_queryTrack (identityStore : MemoryIdentityStore V I)
    (positions : MapdbPositionStore I) (vessel : V) :
    Additive (queryTrack ⟨identityStore, positions⟩ vessel) := by
  intro r first rest hsplit
  have hwalk := additive_subRangeMap
    (fun id => (positions.additive_queryVessel id).map createElement)
    (identityStore.vesselToId vessel).lookup hsplit
  simp only [queryTrack, MemoryIdentityStore.queryIdentityfiers, DateRangeMap.queryIdentityfiers,
    List.flatMap_map]
  exact hwalk

end SingleSourceTrackStore

namespace SourceStores

variable {V : Type}

/-- The tracks of the windows of a period, one after the other, are the track of the period for
every source, in the same order, and for all sources together up to the order, whatever the stores
hold. -/
theorem trackStore_windows (stores : SourceStores V) (vessel : V) {period : Range Date}
    {windows : List (Range Date)} (hwindows : period.Divides windows) :
    (∀ s, (windows.flatMap fun window => (stores.trackStoreOf s).queryTrack vessel window) =
        (stores.trackStoreOf s).queryTrack vessel period) ∧
      (windows.flatMap fun window => stores.trackStore.queryTrack vessel window) ~
        stores.trackStore.queryTrack vessel period := by
  have hsource : ∀ s, Additive ((stores.trackStoreOf s).queryTrack vessel) := fun s =>
    SingleSourceTrackStore.additive_queryTrack (stores.identityStore s) (stores.positionStore s)
      vessel
  refine ⟨fun s => (hsource s).flatMap_windows hwindows, ?_⟩
  have htrack : ∀ window, stores.trackStore.queryTrack vessel window = Source.all.flatMap fun s =>
      ((stores.trackStoreOf s).queryTrack vessel window).map (Sigma.mk s) := by
    intro window
    rw [CompositeTrackStore.queryTrack, trackStore, List.flatMap_map]
  calc (windows.flatMap fun window => stores.trackStore.queryTrack vessel window)
    _ ~ Source.all.flatMap fun s => windows.flatMap fun window =>
          ((stores.trackStoreOf s).queryTrack vessel window).map (Sigma.mk s) := by
        simp only [htrack]
        exact flatMap_flatMap_perm windows Source.all _
    _ = stores.trackStore.queryTrack vessel period := by
        rw [htrack]
        refine List.flatMap_congr fun s _ => ?_
        exact ((hsource s).map fun e => (⟨s, e⟩ : TrackElement)).flatMap_windows hwindows

/-- A vessel that changes its MMSI number at the time `100`, with a report before and one after. -/
def renamedStores : SourceStores VesselId where
  identityStore
    | .ais => MemoryIdentityStore.replay
        [⟨⟨7⟩, Range.all, (2 : Int32)⟩, ⟨⟨7⟩, Range.atLeast ⟨100⟩, (1 : Int32)⟩]
    | .lrit => .new
    | .vms => .new
  positionStore
    | .ais => (MapdbPositionStore.init.save ⟨⟨⟨150⟩, 0, 0, 0⟩, (1 : Int32)⟩).save
        ⟨⟨⟨50⟩, 0, 0, 0⟩, (2 : Int32)⟩
    | .lrit => .init
    | .vms => .init

/-- The track in two windows, the cut between them lying within the second identity period. -/
theorem trackStore_windows_renamed :
    let early : Range Date := Range.ofCuts .belowAll (.belowValue ⟨150⟩) (by decide)
    let windows := [early, Range.atLeast ⟨150⟩]
    (windows.flatMap fun window => renamedStores.trackStore.queryTrack ⟨7⟩ window) ~
        renamedStores.trackStore.queryTrack ⟨7⟩ Range.all ∧
      (windows.map fun window => (renamedStores.trackStore.queryTrack ⟨7⟩ window).length) =
        [1, 1] := by
  intro early windows
  have hsplit : Range.all.Splits early (Range.atLeast ⟨150⟩) := ⟨rfl, rfl, rfl⟩
  have hwindows : Range.all.Divides windows := .cut hsplit (.whole _)
  exact ⟨(trackStore_windows renamedStores ⟨7⟩ hwindows).2, by decide⟩

end SourceStores

end CwatchBackend
