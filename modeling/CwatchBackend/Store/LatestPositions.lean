import CwatchBackend.Store.PeriodQueries

/-!
# The latest positions

`queryLatest(from)` is to return the positions from `from` on, the latest first.
`MemoryPositionStore` filters its queue and sorts what is left; `MapdbPositionStore` walks its
index by timestamp downwards, from the last entry to the first one that is not below the array
`{from}`.

The entries of the index ascend by timestamp and then by key, so the walk descends by timestamp,
whatever the signs of the keys.  Two such answers with the same positions agree at every place in
the timestamp, and may differ only within a group of equal timestamps (`queryLatest_agrees`).
-/

namespace CwatchBackend

open Foundation

variable {I : Type}

/-- The timestamps do not increase. -/
def LatestFirst (ps : List (TypedPosition I)) : Prop :=
  ps.Pairwise fun p q => q.timestamp ≤ p.timestamp

/-- The same timestamps in the same places, and for every timestamp the same positions, possibly in
another order. -/
structure SameUpToTies (ps qs : List (TypedPosition I)) : Prop where
  timestamps : ps.map (fun p => p.timestamp) = qs.map fun q => q.timestamp
  positions : ∀ t : Date, (ps.filter fun p => p.timestamp = t).Perm
    (qs.filter fun q => q.timestamp = t)

/-- Rearrangements of one another that are both ordered by timestamp differ only among equal
timestamps. -/
theorem LatestFirst.sameUpToTies {ps qs : List (TypedPosition I)} (hps : LatestFirst ps)
    (hqs : LatestFirst qs) (hperm : ps.Perm qs) : SameUpToTies ps qs where
  timestamps := by
    have hps' : (ps.map fun p => p.timestamp).Pairwise (· ≥ ·) := List.pairwise_map.mpr hps
    have hqs' : (qs.map fun q => q.timestamp).Pairwise (· ≥ ·) := List.pairwise_map.mpr hqs
    exact (hperm.map _).eq_of_pairwise' hps' hqs'
  positions t := hperm.filter _

namespace MemoryPositionStore

/-- The store in memory returns the positions that are not before the date, each once. -/
theorem queryLatest_perm (store : MemoryPositionStore I) (fromDate : Date) :
    (store.queryLatest fromDate).Perm
      (store.items.filter fun p => ¬ p.timestamp < fromDate) :=
  List.mergeSort_perm _ _

/-- The store in memory returns the latest positions first. -/
theorem queryLatest_latestFirst (store : MemoryPositionStore I) (fromDate : Date) :
    LatestFirst (store.queryLatest fromDate) := by
  have hsorted : (store.queryLatest fromDate).Pairwise
      fun p q => decide (q.timestamp ≤ p.timestamp) = true := by
    apply List.pairwise_mergeSort
    · intro p q r hpq hqr
      exact decide_eq_true ((of_decide_eq_true hqr).trans (of_decide_eq_true hpq))
    · intro p q
      simpa using le_total q.timestamp p.timestamp
  exact hsorted.imp fun h => of_decide_eq_true h

end MemoryPositionStore

namespace MapdbPositionStore

variable [LinearOrder I]

/-- The entries of the index ascend by timestamp. -/
theorem timestamp_le_of_entry_lt {k l : ℤ} {p q : TypedPosition I}
    (h : timestampEntry k p < timestampEntry l q) : p.timestamp ≤ q.timestamp := by
  have hprefix : [.long p.timestamp.getTime.toInt] ≤ timestampEntry l q :=
    (datePrefix_le.mpr le_rfl).trans h.le
  exact datePrefix_le.mp hprefix

/-- With one entry for every row in the index, the store over MapDB returns the rows that are not
before the date, each once and the latest first. -/
theorem queryLatest_spec {store : MapdbPositionStore I}
    (hindex : store.lookupTimestamp.elements.Perm
      (store.table.rows.entries.map fun e => timestampEntry e.1 e.2)) (fromDate : Date) :
    ∃ found, store.queryLatest fromDate = found.map some ∧ LatestFirst found ∧
      found.Perm ((store.table.rows.entries.map Prod.snd).filter
        fun p => ¬ p.timestamp < fromDate) := by
  set slice := store.lookupTimestamp.tailSet [.long fromDate.getTime.toInt] true with hslice
  -- The slice consists of the entries of the rows that are not before the date.
  have hperm : slice.descendingSet.Perm ((store.table.rows.entries.filter
      fun e => ¬ e.2.timestamp < fromDate).map fun e => timestampEntry e.1 e.2) := by
    rw [NavigableSet.descendingSet, hslice, NavigableSet.elements_tailSet]
    refine (List.reverse_perm _).trans ((hindex.filter _).trans (List.Perm.of_eq ?_))
    rw [List.filter_map]
    congr 1
    apply List.filter_congr
    intro e _
    simp [datePrefix_le]
  obtain ⟨es, hes, hrows⟩ := exists_map_of_perm hperm
  refine ⟨es.map Prod.snd, ?_, ?_, ?_⟩
  · rw [queryLatest, ← hslice, hes, List.map_map, List.map_map]
    apply List.map_congr_left
    intro e he
    exact store.table.rows.get_of_mem (List.mem_of_mem_filter (hrows.mem_iff.mp he))
  · have hdescends := slice.descendingSet_pairwise
    rw [hes, List.pairwise_map] at hdescends
    exact List.pairwise_map.mpr (hdescends.imp timestamp_le_of_entry_lt)
  · refine (hrows.map Prod.snd).trans (List.Perm.of_eq ?_)
    rw [List.filter_map]
    rfl

/-- A `MapdbPositionStore` with one entry for every row in `lookupTimestamp` and a
`MemoryPositionStore` with the same positions both return the positions that are not before the
date, each stored occurrence once and the latest first; they differ only in the order of positions
with equal timestamps. -/
theorem queryLatest_agrees (store : MapdbPositionStore I) (memory : MemoryPositionStore I)
    (hrows : (store.table.rows.entries.map Prod.snd).Perm memory.items)
    (hindex : store.lookupTimestamp.elements.Perm
      (store.table.rows.entries.map fun e => timestampEntry e.1 e.2)) (fromDate : Date) :
    ∃ found, store.queryLatest fromDate = found.map some ∧
      LatestFirst found ∧
      LatestFirst (memory.queryLatest fromDate) ∧
      found.Perm (memory.items.filter fun p => ¬ p.timestamp < fromDate) ∧
      (memory.queryLatest fromDate).Perm
        (memory.items.filter fun p => ¬ p.timestamp < fromDate) ∧
      SameUpToTies found (memory.queryLatest fromDate) := by
  obtain ⟨found, hfound, hlatest, hperm⟩ := queryLatest_spec hindex fromDate
  have hfound' := hperm.trans (hrows.filter _)
  have hmemory := memory.queryLatest_perm fromDate
  have hmemoryLatest := memory.queryLatest_latestFirst fromDate
  exact ⟨found, hfound, hlatest, hmemoryLatest, hfound', hmemory,
    hlatest.sameUpToTies hmemoryLatest (hfound'.trans hmemory.symm)⟩

/-- A report of the vessel `2` at the time `100`. -/
def simultaneous : TypedPosition Int32 := ⟨⟨⟨100⟩, 0, 0, 0⟩, 2⟩

/-- Two simultaneous reports, pumped under negative keys into one store and saved in the other order
in the other one. -/
theorem queryLatest_agrees_simultaneous :
    ∃ found, (init.pump [report, simultaneous]).queryLatest ⟨100⟩ = found.map some ∧
      found.Perm [simultaneous, report] ∧
      SameUpToTies found
        (((MemoryPositionStore.empty.save simultaneous).save report).queryLatest ⟨100⟩) := by
  have hconsistent := consistent_init.pump [report, simultaneous]
  obtain ⟨found, hfound, -, -, hperm, -, hsame⟩ := queryLatest_agrees
    (init.pump [report, simultaneous])
    ((MemoryPositionStore.empty.save simultaneous).save report)
    (hconsistent.rows.trans (List.Perm.swap _ _ _)) hconsistent.timestamp ⟨100⟩
  exact ⟨found, hfound, hperm, hsame⟩

end MapdbPositionStore

end CwatchBackend
