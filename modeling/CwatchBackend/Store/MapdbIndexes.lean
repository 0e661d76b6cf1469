import CwatchBackend.Foundation.Run
import CwatchBackend.Store.MapdbPositionStore

/-!
# When the indexes describe the table

`IndexesDescribeTable` says that both indexes hold exactly one entry for every row of the table in
use and no other entries.  This file follows the property through every sequence of `save`, `pump`,
`clear` and `flush` calls on an initialised store.

The operations that keep it are collected in `Consistent`, which also ties the rows to the
positions saved or pumped since the last `clear` or `pump` (`contents`) and bounds the keys by the
sequence number, so that a generated key is always new.  `save` keeps it only while the listener is
attached to the table in use, and `pump` leaves the listener behind on the table it discards.
Hence the indexes describe the table throughout a run exactly when every `save` of the run is
called with the listener attached (`indexes_describe_table_iff`).
-/

namespace CwatchBackend

open Foundation

namespace MapdbPositionStore

variable {I : Type} [LinearOrder I]

/-- Both indexes hold exactly one entry for every row of the table, and no other entries. -/
structure IndexesDescribeTable (store : MapdbPositionStore I) : Prop where
  idTimestamp : store.lookupIdTimestamp.elements.Perm
    (store.table.rows.entries.map fun e => idTimestampEntry e.1 e.2)
  timestamp : store.lookupTimestamp.elements.Perm
    (store.table.rows.entries.map fun e => timestampEntry e.1 e.2)

/-- Every position of `held` is found exactly once through each of the indexes, and nothing else
is found. -/
structure FoundOnce (store : MapdbPositionStore I) (held : List (TypedPosition I)) : Prop where
  idTimestamp : (store.lookupIdTimestamp.elements.map (store.rowOf 2)).Perm (held.map some)
  timestamp : (store.lookupTimestamp.elements.map (store.rowOf 1)).Perm (held.map some)

/-! ### Runs of the store -/

/-- The calls that change the store. -/
inductive Operation (I : Type) where
  | save (position : TypedPosition I)
  | pump (positions : List (TypedPosition I))
  | clear
  | flush

/-- One call that returns normally. -/
def exec (store : MapdbPositionStore I) : Operation I → MapdbPositionStore I
  | .save position => store.save position
  | .pump positions => store.pump positions
  | .clear => store.clear
  | .flush => store.flush

/-- The steps of a run of the store. -/
def step (store : MapdbPositionStore I) (op : Operation I) : Option (MapdbPositionStore I) :=
  some (store.exec op)

/-- The positions held after one more call. -/
def hold (held : List (TypedPosition I)) : Operation I → List (TypedPosition I)
  | .save position => held ++ [position]
  | .pump positions => positions
  | .clear => []
  | .flush => held

/-- The positions saved or pumped since the last `clear` or `pump`. -/
def contents (ops : List (Operation I)) : List (TypedPosition I) := ops.foldl hold []

/-- A `save` is called while the listener is attached to the table in use. -/
def Listened (store : MapdbPositionStore I) (op : Operation I) : Prop :=
  ∀ position, op = .save position → store.table.listening = true

omit [LinearOrder I] in
/-- The contents after one more call. -/
theorem contents_concat (ops : List (Operation I)) (op : Operation I) :
    contents (ops ++ [op]) = hold (contents ops) op := by
  simp [contents]

/-! ### Keys -/

omit [LinearOrder I] in
/-- The index entry of a row determines its key. -/
theorem key_of_idTimestampEntry {k l : ℤ} {p q : TypedPosition I}
    (h : idTimestampEntry k p = idTimestampEntry l q) : k = l := by
  simp only [idTimestampEntry, List.cons.injEq, IndexField.long.injEq] at h
  exact h.2.2.1

omit [LinearOrder I] in
/-- The index entry of a row determines its key. -/
theorem key_of_timestampEntry {k l : ℤ} {p q : TypedPosition I}
    (h : timestampEntry k p = timestampEntry l q) : k = l := by
  simp only [timestampEntry, List.cons.injEq, IndexField.long.injEq] at h
  exact h.2.1

omit [LinearOrder I] in
/-- The keys of the pumped pairs lie below the keys drawn before. -/
theorem key_of_mem_pumpPairs {sequence : ℤ} {positions : List (TypedPosition I)}
    {e : ℤ × TypedPosition I} (he : e ∈ pumpPairs sequence positions) :
    -(sequence + positions.length) ≤ e.1 ∧ e.1 < -sequence := by
  induction positions generalizing sequence with
  | nil => simp [pumpPairs] at he
  | cons p positions ih =>
    rw [List.length_cons]
    rcases List.mem_cons.mp he with rfl | he
    · constructor <;> push_cast <;> omega
    · obtain ⟨hlo, hhi⟩ := ih he
      constructor <;> push_cast <;> omega

omit [LinearOrder I] in
/-- The keys handed to the pump source strictly decrease. -/
theorem pumpPairs_pairwise (sequence : ℤ) (positions : List (TypedPosition I)) :
    (pumpPairs sequence positions).Pairwise fun e f => f.1 < e.1 := by
  induction positions generalizing sequence with
  | nil => exact List.Pairwise.nil
  | cons p positions ih =>
    refine List.pairwise_cons.mpr ⟨fun e he => ?_, ih (sequence + 1)⟩
    exact (key_of_mem_pumpPairs he).2

omit [LinearOrder I] in
/-- The pumped pairs carry the pumped positions. -/
theorem pumpPairs_map_snd (sequence : ℤ) (positions : List (TypedPosition I)) :
    (pumpPairs sequence positions).map Prod.snd = positions := by
  induction positions generalizing sequence with
  | nil => rfl
  | cons p positions ih => rw [pumpPairs, List.map_cons, ih]

/-! ### What the operations do to the parts of the store -/

/-- Drawing the positions of a pump advances the sequence and fills both indexes with the entries
of the pumped pairs. -/
theorem foldl_draw (positions : List (TypedPosition I)) (store : MapdbPositionStore I) :
    positions.foldl draw store =
      { store with
        sequence := store.sequence + positions.length
        lookupIdTimestamp := (pumpPairs store.sequence positions).foldl
          (fun s e => s.add (idTimestampEntry e.1 e.2)) store.lookupIdTimestamp
        lookupTimestamp := (pumpPairs store.sequence positions).foldl
          (fun s e => s.add (timestampEntry e.1 e.2)) store.lookupTimestamp } := by
  induction positions generalizing store with
  | nil => simp [pumpPairs]
  | cons p positions ih =>
    rw [List.foldl_cons, ih]
    simp only [draw, update, pumpPairs, List.foldl_cons, List.length_cons]
    push_cast
    congr 1
    omega

/-- A `save` with the listener attached. -/
theorem save_of_listening {store : MapdbPositionStore I} (h : store.table.listening = true)
    (p : TypedPosition I) :
    store.save p =
      { table := { store.table with rows := store.table.rows.put (store.sequence + 1) p }
        sequence := store.sequence + 1
        lookupIdTimestamp :=
          store.lookupIdTimestamp.add (idTimestampEntry (store.sequence + 1) p)
        lookupTimestamp := store.lookupTimestamp.add (timestampEntry (store.sequence + 1) p) } := by
  simp [save, tablePut, update, h]

/-- A `save` with the listener detached leaves the indexes as they are. -/
theorem save_of_not_listening {store : MapdbPositionStore I} (h : store.table.listening = false)
    (p : TypedPosition I) :
    (store.save p).lookupIdTimestamp = store.lookupIdTimestamp := by
  simp [save, tablePut, h]

/-- A `save` puts its position into the table, and the listener stays where it is. -/
theorem table_save (store : MapdbPositionStore I) (p : TypedPosition I) :
    (store.save p).table =
      { store.table with rows := store.table.rows.put (store.sequence + 1) p } := by
  cases h : store.table.listening <;> simp [MapdbPositionStore.save, tablePut, update, h]

/-- A `save` puts its position into the table. -/
theorem rows_save (store : MapdbPositionStore I) (p : TypedPosition I) :
    (store.save p).table.rows = store.table.rows.put (store.sequence + 1) p := by
  rw [table_save]

/-- A `save` advances the sequence by one. -/
theorem sequence_save (store : MapdbPositionStore I) (p : TypedPosition I) :
    (store.save p).sequence = store.sequence + 1 := by
  cases h : store.table.listening <;> simp [MapdbPositionStore.save, tablePut, update, h]

/-- `clear` does not reset the sequence. -/
theorem sequence_clear (store : MapdbPositionStore I) : store.clear.sequence = store.sequence := by
  unfold clear
  split <;> rfl

/-- `clear` leaves no row. -/
theorem rows_clear (store : MapdbPositionStore I) : store.clear.table.rows.entries = [] := by
  unfold clear
  split
  · next hempty => exact List.isEmpty_iff.mp hempty
  · rfl

/-! ### The invariant -/

/-- The store after calls of which every `save` found the listener attached: the indexes describe
the table, the rows are the positions held, and no key lies beyond the sequence number. -/
structure Consistent (store : MapdbPositionStore I) (held : List (TypedPosition I)) : Prop
    extends IndexesDescribeTable store where
  rows : (store.table.rows.entries.map Prod.snd).Perm held
  keys : ∀ e ∈ store.table.rows.entries, -store.sequence ≤ e.1 ∧ e.1 ≤ store.sequence
  nonneg : 0 ≤ store.sequence

/-- An initialised store is consistent. -/
theorem consistent_init : Consistent (init : MapdbPositionStore I) [] where
  idTimestamp := List.Perm.refl _
  timestamp := List.Perm.refl _
  rows := List.Perm.refl _
  keys := by simp [init, NavigableMap.empty]
  nonneg := le_rfl

/-- A `save` with the listener attached adds one row and its two index entries. -/
theorem Consistent.save {store : MapdbPositionStore I} {held : List (TypedPosition I)}
    (h : Consistent store held) (hl : store.table.listening = true) (p : TypedPosition I) :
    Consistent (store.save p) (held ++ [p]) := by
  have hkey : ∀ e ∈ store.table.rows.entries, e.1 ≠ store.sequence + 1 := by
    intro e he
    have hbound := h.keys e he
    omega
  have hrows : (store.table.rows.put (store.sequence + 1) p).entries.Perm
      ((store.sequence + 1, p) :: store.table.rows.entries) :=
    store.table.rows.entries_put_perm hkey p
  have hnonneg := h.nonneg
  rw [save_of_listening hl]
  refine ⟨⟨?_, ?_⟩, ?_, ?_, ?_⟩
  · exact NavigableSet.elements_add_perm_put idTimestampEntry key_of_idTimestampEntry
      h.idTimestamp hkey p
  · exact NavigableSet.elements_add_perm_put timestampEntry key_of_timestampEntry
      h.timestamp hkey p
  · have hheld : ((store.table.rows.entries.map Prod.snd).cons p).Perm (held ++ [p]) :=
      (h.rows.cons p).trans (List.perm_append_singleton p held).symm
    exact (hrows.map Prod.snd).trans hheld
  · intro e he
    have hbound : e.1 = store.sequence + 1 ∨ -store.sequence ≤ e.1 ∧ e.1 ≤ store.sequence := by
      rcases List.mem_cons.mp (hrows.mem_iff.mp he) with rfl | he
      · exact Or.inl rfl
      · exact Or.inr (h.keys e he)
    simp only
    omega
  · simp only
    omega

/-- `clear` leaves an empty table and empty indexes. -/
theorem Consistent.clear {store : MapdbPositionStore I} {held : List (TypedPosition I)}
    (h : Consistent store held) : Consistent store.clear [] := by
  unfold MapdbPositionStore.clear
  split
  · next hempty =>
    have hnil : store.table.rows.entries = [] := List.isEmpty_iff.mp hempty
    exact ⟨h.toIndexesDescribeTable, by simp [hnil], h.keys, h.nonneg⟩
  · exact ⟨⟨List.Perm.refl _, List.Perm.refl _⟩, List.Perm.refl _,
      by simp [NavigableMap.empty], h.nonneg⟩

/-- A consistent store that holds nothing has an empty table and empty indexes. -/
theorem Consistent.eq_nil {store : MapdbPositionStore I} (h : Consistent store []) :
    store.table.rows.entries = [] ∧ store.lookupIdTimestamp.elements = [] ∧
      store.lookupTimestamp.elements = [] := by
  have hrows : store.table.rows.entries = [] := by simpa using h.rows
  refine ⟨hrows, ?_, ?_⟩
  · simpa [hrows] using h.idTimestamp
  · simpa [hrows] using h.timestamp

/-- `pump` leaves the pumped positions in the table and their entries in the indexes. -/
theorem Consistent.pump {store : MapdbPositionStore I} {held : List (TypedPosition I)}
    (h : Consistent store held) (positions : List (TypedPosition I)) :
    Consistent (store.pump positions) positions := by
  have hclear := h.clear
  obtain ⟨-, hid, htime⟩ := hclear.eq_nil
  have hnonneg := hclear.nonneg
  have hkeys : (pumpPairs store.clear.sequence positions).Pairwise fun e f => e.1 ≠ f.1 :=
    (pumpPairs_pairwise store.clear.sequence positions).imp fun hlt => hlt.ne'
  have hrows := NavigableMap.entries_ofEntries_perm hkeys
  rw [MapdbPositionStore.pump, foldl_draw]
  refine ⟨⟨?_, ?_⟩, ?_, ?_, ?_⟩
  · exact NavigableSet.elements_foldl_add_perm_ofEntries idTimestampEntry key_of_idTimestampEntry
      hid hkeys
  · exact NavigableSet.elements_foldl_add_perm_ofEntries timestampEntry key_of_timestampEntry
      htime hkeys
  · exact (hrows.map Prod.snd).trans (List.Perm.of_eq (pumpPairs_map_snd _ positions))
  · intro e he
    have hbound := key_of_mem_pumpPairs (hrows.mem_iff.mp he)
    simp only
    omega
  · simp only
    omega

/-- A call that finds the listener attached, if it is a `save`, keeps the store consistent. -/
theorem Consistent.exec {store : MapdbPositionStore I} {held : List (TypedPosition I)}
    (h : Consistent store held) {op : Operation I} (hl : Listened store op) :
    Consistent (store.exec op) (hold held op) := by
  cases op with
  | save p => exact h.save (hl p rfl) p
  | pump positions => exact h.pump positions
  | clear => exact h.clear
  | flush => exact h

/-- A run whose `save`s all find the listener attached leaves a consistent store. -/
theorem consistent_of_run {ops : List (Operation I)} {store : MapdbPositionStore I}
    (hmeet : StepsMeet step Listened init ops) (hrun : run step init ops = some store) :
    Consistent store (contents ops) := by
  induction ops using List.reverseRecOn generalizing store with
  | nil => exact Option.some.inj hrun ▸ consistent_init
  | append_singleton ops op ih =>
    obtain ⟨t, ht, hop⟩ := run_concat.mp hrun
    rw [contents_concat, ← Option.some.inj hop]
    exact (ih hmeet.of_append ht).exec (hmeet.last ht)

/-! ### Finding the rows through the indexes -/

/-- Walking a part of an index that holds one entry for every row yields, once each, the positions
whose entries lie in that part. -/
theorem walk_perm {store : MapdbPositionStore I} {index : List (IndexArray I)}
    {entry : ℤ → TypedPosition I → IndexArray I} {i : ℕ}
    (hindex : index.Perm (store.table.rows.entries.map fun e => entry e.1 e.2))
    (hrow : ∀ key p, store.rowOf i (entry key p) = store.table.rows.get key)
    {slice : IndexArray I → Bool} {pick : TypedPosition I → Bool}
    (hslice : ∀ key p, slice (entry key p) = pick p) :
    ((index.filter slice).map (store.rowOf i)).Perm
      (((store.table.rows.entries.map Prod.snd).filter pick).map some) := by
  refine ((hindex.filter slice).map _).trans (List.Perm.of_eq ?_)
  rw [List.filter_map, List.filter_map, List.map_map, List.map_map]
  have hpick : (slice ∘ fun e : ℤ × TypedPosition I => entry e.1 e.2) = pick ∘ Prod.snd :=
    funext fun e => hslice e.1 e.2
  rw [hpick]
  apply List.map_congr_left
  intro e he
  exact (hrow e.1 e.2).trans (store.table.rows.get_of_mem (List.mem_of_mem_filter he))

/-- Walking a part of `lookupIdTimestamp`. -/
theorem IndexesDescribeTable.walk_idTimestamp {store : MapdbPositionStore I}
    (h : IndexesDescribeTable store) (slice : IndexArray I → Bool) (pick : TypedPosition I → Bool)
    (hslice : ∀ key p, slice (idTimestampEntry key p) = pick p) :
    ((store.lookupIdTimestamp.elements.filter slice).map (store.rowOf 2)).Perm
      (((store.table.rows.entries.map Prod.snd).filter pick).map some) :=
  walk_perm h.idTimestamp (fun _ _ => rfl) hslice

/-- Walking a part of `lookupTimestamp`. -/
theorem IndexesDescribeTable.walk_timestamp {store : MapdbPositionStore I}
    (h : IndexesDescribeTable store) (slice : IndexArray I → Bool) (pick : TypedPosition I → Bool)
    (hslice : ∀ key p, slice (timestampEntry key p) = pick p) :
    ((store.lookupTimestamp.elements.filter slice).map (store.rowOf 1)).Perm
      (((store.table.rows.entries.map Prod.snd).filter pick).map some) :=
  walk_perm h.timestamp (fun _ _ => rfl) hslice

/-- In a consistent store every position held is found exactly once. -/
theorem Consistent.foundOnce {store : MapdbPositionStore I} {held : List (TypedPosition I)}
    (h : Consistent store held) : FoundOnce store held where
  idTimestamp := by
    have hwalk := h.walk_idTimestamp (fun _ => true) (fun _ => true) fun _ _ => rfl
    rw [List.filter_true, List.filter_true] at hwalk
    exact hwalk.trans (h.rows.map some)
  timestamp := by
    have hwalk := h.walk_timestamp (fun _ => true) (fun _ => true) fun _ _ => rfl
    rw [List.filter_true, List.filter_true] at hwalk
    exact hwalk.trans (h.rows.map some)

/-- Throughout a run of an initialised store the indexes describe the table, and every position
saved or pumped since the last `clear` or `pump` is found exactly once, if and only if every `save`
of the run is called while the listener is attached to the table in use. -/
theorem indexes_describe_table_iff (ops : List (Operation I)) :
    (∀ pre post store, ops = pre ++ post → run step init pre = some store →
      IndexesDescribeTable store ∧ FoundOnce store (contents pre)) ↔
      StepsMeet step Listened init ops := by
  constructor
  · intro h pre op post hops store hrun p hop
    by_contra hl
    have hl : store.table.listening = false := by simpa using hl
    subst hop
    -- The indexes are the same before and after the `save`, but the contents have grown.
    have hbefore := (h pre (.save p :: post) store hops hrun).2.idTimestamp.length_eq
    have hsaved : run step init (pre ++ [.save p]) = some (store.save p) :=
      run_concat.mpr ⟨store, hrun, rfl⟩
    have hafter :=
      (h (pre ++ [.save p]) post (store.save p) (by simp [hops]) hsaved).2.idTimestamp.length_eq
    rw [save_of_not_listening hl, contents_concat] at hafter
    simp only [List.length_map, hold, List.length_append, List.length_singleton] at hbefore hafter
    omega
  · intro hmeet pre post store hops hrun
    subst hops
    have hconsistent := consistent_of_run hmeet.of_append hrun
    exact ⟨hconsistent.toIndexesDescribeTable, hconsistent.foundOnce⟩

/-- A report saved after a `pump` is missing from the indexes. -/
theorem indexes_miss_saved_after_pump :
    let pumped : TypedPosition Int32 := ⟨⟨⟨0⟩, 0, 0, 0⟩, 1⟩
    let saved : TypedPosition Int32 := ⟨⟨⟨100⟩, 0, 0, 0⟩, 1⟩
    ∃ store, run step init [.pump [pumped], .save saved] = some store ∧
      (∃ e ∈ store.table.rows.entries, e.2 = saved) ∧
      ¬ IndexesDescribeTable store ∧
      ¬ FoundOnce store (contents [.pump [pumped], .save saved]) := by
  refine ⟨_, rfl, by decide, fun h => ?_, fun h => ?_⟩
  · exact absurd h.idTimestamp.length_eq (by decide)
  · exact absurd h.idTimestamp.length_eq (by decide)

end MapdbPositionStore

end CwatchBackend
