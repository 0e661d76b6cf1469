import CwatchBackend.Store.PeriodQueries
import CwatchBackend.Store.TrackStore

/-!
# Chronological tracks

A track over a `MapdbPositionStore` is the concatenation of one slice of `lookupIdTimestamp` for
every identity period of the vessel.  Inside a slice all entries carry one identifier, so the order
of the index is the order of the timestamps (`vesselPositions_pairwise`).  Two slices follow each
other because their periods do: the earlier one ends at an endpoint that it excludes, and the later
one starts at an endpoint that is not smaller, whatever the bound kinds of the two periods say
(`VesselSliced.lt_of_le`).  Hence the timestamps of a track never decrease
(`queryTrack_chronological`).
-/

namespace CwatchBackend

open Foundation

/-- What the slice of a period lets through comes before what the slice of a later period lets
through. -/
theorem VesselSliced.lt_of_le {r s : Range Date} (hle : r.upperBound ≤ s.lowerBound) {t u : Date}
    (ht : VesselSliced r t) (hu : VesselSliced s u) : t < u := by
  obtain ⟨d, hd, e, he, hde⟩ := Cut.exists_endpoint_le hle r.upperBound_ne s.lowerBound_ne
  have hbefore : t < d := ht.1.2 d hd
  have hafter : e ≤ u := hu.1.1 e he
  exact hbefore.trans_le (hde.trans hafter)

namespace MapdbPositionStore

variable {I : Type} [LinearOrder I]

/-- Among the entries of one identifier the order of the index is chronological. -/
theorem timestamp_le_of_lt {k l : ℤ} {p q : TypedPosition I} (hid : p.id = q.id)
    (h : idTimestampEntry k p < idTimestampEntry l q) : p.timestamp ≤ q.timestamp := by
  by_contra hnle
  have hlt : q.timestamp.getTime.toInt < p.timestamp.getTime.toInt :=
    Date.lt_def.mp (not_le.mp hnle)
  have hgt : idTimestampEntry l q < idTimestampEntry k p := by
    simp [idTimestampEntry, List.cons_lt_cons_iff, hid, hlt]
  exact lt_asymm h hgt

/-- The positions that `queryVessel` returns. -/
def vesselPositions (store : MapdbPositionStore I) (id : I) (period : Range Date) :
    List (TypedPosition I) :=
  (store.queryVessel id period).reduceOption

/-- With correct indexes `queryVessel` returns no `null`. -/
theorem queryVessel_eq {store : MapdbPositionStore I} (h : IndexesDescribeTable store) (id : I)
    (period : Range Date) :
    store.queryVessel id period = (store.vesselPositions id period).map some := by
  obtain ⟨ps, hps, -⟩ := exists_map_of_perm (queryVessel_perm h id period)
  have hsome : (ps.map some).reduceOption = ps := by
    change (ps.map some).filterMap (fun o => o) = ps
    rw [List.filterMap_map]
    exact List.filterMap_some
  rw [vesselPositions, hps, hsome]

/-- With correct indexes the slice lets through what `queryVessel` returns. -/
theorem sliced_of_mem_vesselPositions {store : MapdbPositionStore I}
    (h : IndexesDescribeTable store) {id : I} {period : Range Date} {p : TypedPosition I}
    (hp : p ∈ store.vesselPositions id period) : p.id = id ∧ VesselSliced period p.timestamp := by
  have hperm := queryVessel_perm h id period
  rw [queryVessel_eq h] at hperm
  have hmem := hperm.mem_iff.mp (List.mem_map_of_mem hp)
  obtain ⟨q, hq, hqp⟩ := List.mem_map.mp hmem
  rw [← Option.some.inj hqp]
  simpa using (List.mem_filter.mp hq).2

/-- With correct indexes every entry of a slice is the entry of its row. -/
theorem rowOf_of_mem_vesselSlice {store : MapdbPositionStore I} (h : IndexesDescribeTable store)
    {id : I} {period : Range Date} {x : IndexArray I}
    (hx : x ∈ (store.vesselSlice id period).elements) :
    ∃ key p, x = idTimestampEntry key p ∧ store.rowOf 2 x = some p ∧ p.id = id := by
  rw [elements_vesselSlice] at hx
  obtain ⟨hindex, hslice⟩ := List.mem_filter.mp hx
  obtain ⟨e, he, rfl⟩ := List.mem_map.mp (h.idTimestamp.mem_iff.mp hindex)
  have hrow : store.rowOf 2 (idTimestampEntry e.1 e.2) = some e.2 :=
    store.table.rows.get_of_mem he
  exact ⟨e.1, e.2, rfl, hrow, (vesselSlice_idTimestampEntry.mp (of_decide_eq_true hslice)).1⟩

/-- With correct indexes the positions that `queryVessel` returns are in chronological order. -/
theorem vesselPositions_pairwise {store : MapdbPositionStore I} (h : IndexesDescribeTable store)
    (id : I) (period : Range Date) :
    (store.vesselPositions id period).Pairwise fun p q => p.timestamp ≤ q.timestamp := by
  have hrows : (store.queryVessel id period).Pairwise fun a b =>
      ∀ p ∈ a, ∀ q ∈ b, p.timestamp ≤ q.timestamp := by
    refine List.pairwise_map.mpr ((store.vesselSlice id period).sorted.imp_of_mem ?_)
    intro x y hx hy hlt p hp q hq
    obtain ⟨k, p', rfl, hp', hpid⟩ := rowOf_of_mem_vesselSlice h hx
    obtain ⟨l, q', rfl, hq', hqid⟩ := rowOf_of_mem_vesselSlice h hy
    obtain rfl : p' = p := Option.some.inj (hp'.symm.trans hp)
    obtain rfl : q' = q := Option.some.inj (hq'.symm.trans hq)
    exact timestamp_le_of_lt (hpid.trans hqid.symm) hlt
  rw [queryVessel_eq h] at hrows
  refine (List.pairwise_map.mp hrows).imp ?_
  intro p q hpq
  exact hpq p rfl q rfl

end MapdbPositionStore

namespace SingleSourceTrackStore

variable {V I : Type} [LinearOrder I]

/-- With correct indexes a track consists of the positions found in the identity periods, one
period after the other. -/
theorem queryTrack_mapdb_eq (identityStore : MemoryIdentityStore V I)
    {positions : MapdbPositionStore I} (h : MapdbPositionStore.IndexesDescribeTable positions)
    (vessel : V) (period : Range Date) :
    queryTrack ⟨identityStore, positions⟩ vessel period =
      track ((identityStore.queryIdentityfiers vessel period).flatMap fun ip =>
        positions.vesselPositions ip.id ip.period) := by
  rw [queryTrack, track, List.map_flatMap]
  refine List.flatMap_congr fun ip _ => ?_
  have hquery : DefaultPositionStore.queryVessel positions ip.id ip.period =
      (positions.vesselPositions ip.id ip.period).map some :=
    MapdbPositionStore.queryVessel_eq h ip.id ip.period
  rw [hquery, List.map_map]
  rfl

/-- Over correct indexes a track contains no `null`, and its timestamps never decrease, whatever
the history of the identities is. -/
theorem queryTrack_chronological [DecidableEq V] (calls : List (MemoryIdentityStore.SetCall V I))
    (positions : MapdbPositionStore I)
    (hindexes : MapdbPositionStore.IndexesDescribeTable positions) (vessel : V)
    (period : Range Date) :
    ∃ found, queryTrack ⟨MemoryIdentityStore.replay calls, positions⟩ vessel period = track found ∧
      found.Pairwise fun p q => p.timestamp ≤ q.timestamp := by
  refine ⟨_, queryTrack_mapdb_eq _ hindexes vessel period, ?_⟩
  refine List.pairwise_flatMap.mpr ⟨?_, ?_⟩
  · intro ip _
    exact MapdbPositionStore.vesselPositions_pairwise hindexes ip.id ip.period
  · -- The slices of two periods follow each other as the periods do.
    have hascending :=
      (MemoryIdentityStore.replay calls).queryIdentityfiers_ascending vessel period
    refine hascending.imp ?_
    intro ip ip' hle p hp q hq
    have hp := (MapdbPositionStore.sliced_of_mem_vesselPositions hindexes hp).2
    have hq := (MapdbPositionStore.sliced_of_mem_vesselPositions hindexes hq).2
    exact (hp.lt_of_le hle hq).le

/-- The vessel carries the identifier `2` until the time `100` and the identifier `1` from then on;
the two reports are stored in the order of their identifiers. -/
theorem queryTrack_chronological_renamed :
    let calls : List (MemoryIdentityStore.SetCall VesselId Int32) :=
      [⟨⟨7⟩, Range.all, 2⟩, ⟨⟨7⟩, Range.atLeast ⟨100⟩, 1⟩]
    let renamed : TypedPosition Int32 := ⟨⟨⟨100⟩, 0, 0, 0⟩, 1⟩
    let first : TypedPosition Int32 := ⟨⟨⟨0⟩, 0, 0, 0⟩, 2⟩
    let positions := (MapdbPositionStore.init.save renamed).save first
    (∃ found, queryTrack ⟨MemoryIdentityStore.replay calls, positions⟩ ⟨7⟩ Range.all =
        track found ∧ found.Pairwise fun p q => p.timestamp ≤ q.timestamp) ∧
      queryTrack ⟨MemoryIdentityStore.replay calls, positions⟩ ⟨7⟩ Range.all =
        track [first, renamed] := by
  intro calls renamed first positions
  have hconsistent : MapdbPositionStore.Consistent positions [renamed, first] :=
    (MapdbPositionStore.consistent_init.save rfl renamed).save rfl first
  refine ⟨?_, ?_⟩
  · exact queryTrack_chronological calls positions hconsistent.toIndexesDescribeTable ⟨7⟩ Range.all
  · decide

end SingleSourceTrackStore

end CwatchBackend
