import CwatchBackend.Store.LatestPositions

/-!
# When the source of a pump fails

`pump` clears the store and then draws the positions one by one, and every position drawn gets its
entries in the two indexes at once.  The table that the entries refer to exists only when the stream
has come to its end.  If the stream throws before, the table in use is the cleared one, and the
entries of the positions drawn so far refer to no row of it.  The next `clear` finds an empty table
and does nothing, so the entries stay.

So a failed pump leaves the store consistent in each of the senses that one may ask for exactly if
the stream throws before it has delivered a position (`failed_pump_consistent_iff`).
-/

namespace CwatchBackend

open Foundation

namespace MapdbPositionStore

variable {I : Type} [LinearOrder I]

/-- Every entry of both indexes refers to a row of the table. -/
structure ReferToRows (store : MapdbPositionStore I) : Prop where
  idTimestamp : ∀ x ∈ store.lookupIdTimestamp.elements, ∃ p, store.rowOf 2 x = some p
  timestamp : ∀ x ∈ store.lookupTimestamp.elements, ∃ p, store.rowOf 1 x = some p

/-- Whatever is asked for, the answer consists of positions of `held`: no query yields a `null` or
throws. -/
structure ReturnsOnly (store : MapdbPositionStore I) (held : List (TypedPosition I)) : Prop where
  vessel : ∀ id period, ∀ o ∈ store.queryVessel id period, ∃ p ∈ held, o = some p
  area : ∀ period box, ∃ found, store.queryArea period box = .ok found ∧ ∀ p ∈ found, p ∈ held
  latest : ∀ fromDate, ∀ o ∈ store.queryLatest fromDate, ∃ p ∈ held, o = some p

/-- The table and both indexes are empty. -/
structure IsCleared (store : MapdbPositionStore I) : Prop where
  rows : store.table.rows.entries = []
  idTimestamp : store.lookupIdTimestamp.elements = []
  timestamp : store.lookupTimestamp.elements = []

/-! ### Entries that refer to rows -/

omit [LinearOrder I] in
/-- The filter of `queryArea` on a stream without `null`s. -/
theorem exists_filterBox {box : Box} {os : List (Option (TypedPosition I))}
    {held : List (TypedPosition I)} (h : ∀ o ∈ os, ∃ p ∈ held, o = some p) :
    ∃ found, filterBox box os = .ok found ∧ ∀ p ∈ found, p ∈ held := by
  induction os with
  | nil => exact ⟨[], rfl, nofun⟩
  | cons o os ih =>
    obtain ⟨p, hp, rfl⟩ := h o List.mem_cons_self
    obtain ⟨found, hfound, hheld⟩ := ih fun o ho => h o (List.mem_cons_of_mem _ ho)
    refine ⟨if box.Contains p.toDefaultPosition then p :: found else found, ?_, ?_⟩
    · rw [filterBox, hfound]
      rfl
    · split
      · exact List.forall_mem_cons.mpr ⟨hp, hheld⟩
      · exact hheld

/-- The row of an entry is a row of the table. -/
theorem mem_rows_of_rowOf {store : MapdbPositionStore I} {i : ℕ} {x : IndexArray I}
    {p : TypedPosition I} (h : store.rowOf i x = some p) :
    ∃ e ∈ store.table.rows.entries, e.2 = p := by
  unfold rowOf at h
  split at h
  · next key _ => exact ⟨(key, p), NavigableMap.mem_of_get h, rfl⟩
  · cases h

/-- If all entries refer to rows, the queries return positions of the table only. -/
theorem ReferToRows.returnsOnly {store : MapdbPositionStore I} (h : ReferToRows store)
    {held : List (TypedPosition I)} (hrows : ∀ e ∈ store.table.rows.entries, e.2 ∈ held) :
    ReturnsOnly store held := by
  -- A walk along a part of an index yields the rows of its entries.
  have hwalk : ∀ {index slice : List (IndexArray I)} {i : ℕ},
      (∀ x ∈ index, ∃ p, store.rowOf i x = some p) → (∀ x ∈ slice, x ∈ index) →
      ∀ o ∈ slice.map (store.rowOf i), ∃ p ∈ held, o = some p := by
    intro index slice i hindex hslice o ho
    obtain ⟨x, hx, rfl⟩ := List.mem_map.mp ho
    obtain ⟨p, hp⟩ := hindex x (hslice x hx)
    obtain ⟨e, he, rfl⟩ := mem_rows_of_rowOf hp
    exact ⟨e.2, hrows e he, hp⟩
  refine ⟨fun id period => hwalk h.idTimestamp fun x hx => ?_,
    fun period box => exists_filterBox (hwalk h.timestamp fun x hx => ?_),
    fun fromDate => hwalk h.timestamp fun x hx => ?_⟩
  · rw [elements_vesselSlice] at hx
    exact List.mem_of_mem_filter hx
  · rw [elements_areaSlice] at hx
    exact List.mem_of_mem_filter hx
  · exact List.mem_of_mem_filter (List.mem_reverse.mp hx)

/-- A `save` adds at most the entries of its position to the indexes. -/
theorem mem_indexes_save (store : MapdbPositionStore I) (p : TypedPosition I) :
    (∀ x ∈ (store.save p).lookupIdTimestamp.elements,
        x = idTimestampEntry (store.sequence + 1) p ∨ x ∈ store.lookupIdTimestamp.elements) ∧
      ∀ x ∈ (store.save p).lookupTimestamp.elements,
        x = timestampEntry (store.sequence + 1) p ∨ x ∈ store.lookupTimestamp.elements := by
  cases h : store.table.listening with
  | false =>
    simp only [MapdbPositionStore.save, tablePut, h]
    exact ⟨fun x hx => Or.inr hx, fun x hx => Or.inr hx⟩
  | true =>
    rw [save_of_listening h]
    exact ⟨fun x hx => NavigableSet.mem_add.mp hx, fun x hx => NavigableSet.mem_add.mp hx⟩

/-- A `save` leaves all entries referring to rows. -/
theorem ReferToRows.save {store : MapdbPositionStore I} (h : ReferToRows store)
    (p : TypedPosition I) : ReferToRows (store.save p) := by
  have hold : ∀ {i x}, (∃ q, store.rowOf i x = some q) →
      ∃ q, (store.save p).rowOf i x = some q := by
    rintro i x ⟨q, hq⟩
    unfold rowOf at hq ⊢
    split at hq
    · rw [rows_save]
      exact NavigableMap.exists_get_put hq _ _
    · cases hq
  have hnew : (store.save p).table.rows.get (store.sequence + 1) = some p := by
    rw [rows_save]
    exact NavigableMap.get_of_mem _ (NavigableMap.mem_put.mpr (Or.inl rfl))
  obtain ⟨hid, htime⟩ := mem_indexes_save store p
  constructor
  · intro x hx
    rcases hid x hx with rfl | hx
    · exact ⟨p, hnew⟩
    · exact hold (h.idTimestamp x hx)
  · intro x hx
    rcases htime x hx with rfl | hx
    · exact ⟨p, hnew⟩
    · exact hold (h.timestamp x hx)

/-! ### After the failure -/

/-- `clear` empties a store whose indexes describe the table. -/
theorem IndexesDescribeTable.isCleared_clear {store : MapdbPositionStore I}
    (h : IndexesDescribeTable store) : IsCleared store.clear := by
  unfold MapdbPositionStore.clear
  split
  · next hempty =>
    have hrows : store.table.rows.entries = [] := List.isEmpty_iff.mp hempty
    exact ⟨hrows, by simpa [hrows] using h.idTimestamp, by simpa [hrows] using h.timestamp⟩
  · exact ⟨rfl, rfl, rfl⟩

/-- `clear` does nothing to an empty table. -/
theorem clear_of_rows_eq_nil {store : MapdbPositionStore I}
    (h : store.table.rows.entries = []) : store.clear = store := by
  have hempty : store.table.rows.isEmpty = true := List.isEmpty_iff.mpr h
  rw [clear, if_pos hempty]

/-- Nothing is found in an empty table. -/
theorem rowOf_of_rows_eq_nil {store : MapdbPositionStore I} (h : store.table.rows.entries = [])
    (i : ℕ) (x : IndexArray I) : store.rowOf i x = none := by
  refine Option.eq_none_iff_forall_ne_some.mpr fun p hp => ?_
  obtain ⟨e, he, -⟩ := mem_rows_of_rowOf hp
  rw [h] at he
  cases he

/-- A pump whose source throws leaves the table that `clear` has left. -/
theorem table_pumpThrows (store : MapdbPositionStore I) (positions : List (TypedPosition I)) :
    (store.pumpThrows positions).table = store.clear.table := by
  rw [pumpThrows, foldl_draw]

/-- If the source has delivered a position, the index by timestamp has an entry for it. -/
theorem exists_entry_pumpThrows (store : MapdbPositionStore I) (p : TypedPosition I)
    (positions : List (TypedPosition I)) :
    ∃ key, timestampEntry key p ∈ (store.pumpThrows (p :: positions)).lookupTimestamp.elements := by
  rw [pumpThrows, foldl_draw]
  exact ⟨-(store.clear.sequence + 1), (NavigableSet.mem_foldl_add _ _ _).mpr
    (Or.inl ⟨_, List.mem_cons_self, rfl⟩)⟩

/-- An entry for a position without a row makes `queryLatest` yield a `null`. -/
theorem none_mem_queryLatest {store : MapdbPositionStore I} {key : ℤ} {p : TypedPosition I}
    (hentry : timestampEntry key p ∈ store.lookupTimestamp.elements)
    (hrow : store.rowOf 1 (timestampEntry key p) = none) :
    none ∈ store.queryLatest p.timestamp := by
  have hslice : timestampEntry key p ∈
      (store.lookupTimestamp.tailSet [.long p.timestamp.getTime.toInt] true).elements :=
    List.mem_filter.mpr ⟨hentry, decide_eq_true (datePrefix_le.mpr le_rfl)⟩
  exact List.mem_map.mpr ⟨_, List.mem_reverse.mpr hslice, hrow⟩

/-- A store without rows and with an entry has no consistent answer. -/
theorem not_returnsOnly {store : MapdbPositionStore I} (hrows : store.table.rows.entries = [])
    {key : ℤ} {p : TypedPosition I}
    (hentry : timestampEntry key p ∈ store.lookupTimestamp.elements)
    (held : List (TypedPosition I)) : ¬ ReturnsOnly store held := by
  intro h
  obtain ⟨q, -, hq⟩ := h.latest p.timestamp none
    (none_mem_queryLatest hentry (rowOf_of_rows_eq_nil hrows _ _))
  cases hq

/-- The entries of an empty store refer to rows. -/
theorem IsCleared.referToRows {store : MapdbPositionStore I} (h : IsCleared store) :
    ReferToRows store :=
  ⟨by simp [h.idTimestamp], by simp [h.timestamp]⟩

/-- What is saved into an empty store is all that the queries return. -/
theorem IsCleared.returnsOnly_foldl_save {store : MapdbPositionStore I} (h : IsCleared store)
    (saved : List (TypedPosition I)) : ReturnsOnly (saved.foldl save store) saved := by
  have hsaved : ReferToRows (saved.foldl save store) ∧
      ∀ e ∈ (saved.foldl save store).table.rows.entries, e.2 ∈ saved := by
    induction saved using List.reverseRecOn with
    | nil => exact ⟨h.referToRows, by simp [h.rows]⟩
    | append_singleton saved p ih =>
      rw [List.foldl_append, List.foldl_cons, List.foldl_nil]
      refine ⟨ih.1.save p, fun e he => ?_⟩
      rw [rows_save] at he
      rcases NavigableMap.mem_put.mp he with rfl | ⟨he, -⟩
      · exact List.mem_append_right _ List.mem_cons_self
      · exact List.mem_append_left _ (ih.2 e he)
  exact hsaved.1.returnsOnly hsaved.2

/-- After a pump whose source has thrown, the entries of the indexes refer to rows, the queries
yield neither a `null` nor an exception, the next `clear` leaves an empty store, and the queries
after it return nothing but the positions saved since: each of them if and only if the source had
not delivered a position. -/
theorem failed_pump_consistent_iff (store : MapdbPositionStore I)
    (hindexes : IndexesDescribeTable store) (positions : List (TypedPosition I)) :
    let failed := store.pumpThrows positions
    (ReferToRows failed ↔ positions = []) ∧
      (ReturnsOnly failed (failed.table.rows.entries.map Prod.snd) ↔ positions = []) ∧
      (IsCleared failed.clear ↔ positions = []) ∧
      ((∀ saved, ReturnsOnly (saved.foldl save failed.clear) saved) ↔ positions = []) := by
  intro failed
  have hrows : failed.table.rows.entries = [] := by
    rw [table_pumpThrows]
    exact rows_clear store
  have hclear : failed.clear = failed := clear_of_rows_eq_nil hrows
  cases positions with
  | nil =>
    have hcleared : IsCleared failed := hindexes.isCleared_clear
    have hrefer := hcleared.referToRows
    rw [hclear]
    refine ⟨iff_of_true hrefer rfl, iff_of_true (hrefer.returnsOnly fun e he => ?_) rfl,
      iff_of_true hcleared rfl, iff_of_true hcleared.returnsOnly_foldl_save rfl⟩
    exact List.mem_map_of_mem he
  | cons p rest =>
    -- The entry of the first position delivered refers to no row, and stays.
    obtain ⟨key, hentry⟩ := exists_entry_pumpThrows store p rest
    have hne : p :: rest ≠ [] := List.cons_ne_nil p rest
    rw [hclear]
    refine ⟨iff_of_false (fun h => ?_) hne, iff_of_false (not_returnsOnly hrows hentry _) hne,
      iff_of_false (fun h => ?_) hne,
      iff_of_false (fun h => not_returnsOnly hrows hentry _ (h [])) hne⟩
    · obtain ⟨q, hq⟩ := h.timestamp _ hentry
      rw [rowOf_of_rows_eq_nil hrows] at hq
      cases hq
    · rw [h.timestamp] at hentry
      cases hentry

/-- A source that throws at once does no harm to a store with one report. -/
theorem failed_pump_consistent_atOnce :
    let failed := (init.save report).pumpThrows []
    ReferToRows failed ∧ IsCleared failed.clear ∧
      ∀ saved, ReturnsOnly (saved.foldl save failed.clear) saved := by
  have hstore := (consistent_init.save rfl report).toIndexesDescribeTable
  obtain ⟨hrefer, -, hcleared, hlater⟩ := failed_pump_consistent_iff (init.save report) hstore []
  exact ⟨hrefer.mpr rfl, hcleared.mpr rfl, hlater.mpr rfl⟩

/-- The source throws after one report: the indexes keep its entries although the table is empty,
the queries yield `null`s and throw, and neither a `clear` nor a further `save` helps. -/
theorem failed_pump_inconsistent :
    let failed := (init.save report).pumpThrows [simultaneous]
    IndexesDescribeTable (init.save report) ∧ ¬ ReferToRows failed ∧
      failed.queryVessel 2 Range.all = [none] ∧ failed.queryLatest ⟨100⟩ = [none] ∧
      failed.queryArea Range.all everywhere = .error .nullPointerException ∧
      ¬ IsCleared failed.clear ∧
      none ∈ (failed.clear.save report).queryLatest ⟨100⟩ := by
  intro failed
  refine ⟨(consistent_init.save rfl report).toIndexesDescribeTable, fun h => ?_, by decide,
    by decide, by decide, fun h => ?_, by decide⟩
  · obtain ⟨q, hq⟩ := h.timestamp (timestampEntry (-2) simultaneous) (by decide)
    cases hq
  · exact absurd h.timestamp (by decide)

end MapdbPositionStore

end CwatchBackend
