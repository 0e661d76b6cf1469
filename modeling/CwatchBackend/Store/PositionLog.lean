import CwatchBackend.Foundation.StableSort
import CwatchBackend.Store.LatestPositions
import CwatchBackend.Store.RowKeys

/-!
# The store as a log

A `PositionLog` says what a `MapdbPositionStore` is for, without keys and without indexes: a list of
positions in the order of their keys, the pumped ones in front and in reverse.  Every query sorts
the positions that it asks for by their timestamps, stably, `queryLatest` walking them backwards.

The log keeps what a caller can notice of the listener.  A position saved while the listener is
detached is not listed, and only keeps `clear` from doing nothing.  A position drawn by a pump whose
source throws is listed without a row, and every query that comes to it yields a `null`.

Whatever calls are made on an initialised store, failing pumps included, all queries answer as those
of the log (`queries_eq_log`).  In particular a `clear` that finds a row makes the store answer,
from then on, as if it had just been initialised (`queries_after_clear`).
-/

namespace CwatchBackend

open Foundation MapdbPositionStore

/-- A listed position, and whether the table has its row. -/
structure LogEntry (I : Type) where
  position : TypedPosition I
  live : Bool

namespace LogEntry

variable {I : Type}

/-- What a query finds: the position, or `null` if the row is missing. -/
def found (e : LogEntry I) : Option (TypedPosition I) := if e.live then some e.position else none

/-- The timestamp of the position. -/
def timestamp (e : LogEntry I) : Date := e.position.timestamp

end LogEntry

/-- The listed positions in the order of their keys, the positions saved without being listed, and
whether the listener is attached. -/
structure PositionLog (I : Type) where
  entries : List (LogEntry I)
  unlisted : List (TypedPosition I)
  listening : Bool

namespace PositionLog

variable {I : Type}

/-- The log of an initialised store. -/
def init : PositionLog I := ⟨[], [], true⟩

/-- The table has no row. -/
def isEmpty (log : PositionLog I) : Bool :=
  log.entries.all (fun e => !e.live) && log.unlisted.isEmpty

/-- A saved position is listed last if the listener is attached. -/
def save (log : PositionLog I) (position : TypedPosition I) : PositionLog I :=
  if log.listening then { log with entries := log.entries ++ [⟨position, true⟩] }
  else { log with unlisted := log.unlisted ++ [position] }

/-- A log without a row stays as it is. -/
def clear (log : PositionLog I) : PositionLog I := if log.isEmpty then log else init

/-- The positions drawn by a pump are listed in front, the last one first. -/
def draw (log : PositionLog I) (positions : List (TypedPosition I)) (live : Bool) :
    PositionLog I :=
  { log with entries := positions.reverse.map (fun p => ⟨p, live⟩) ++ log.entries }

/-- A pump lists its positions and detaches the listener. -/
def pump (log : PositionLog I) (positions : List (TypedPosition I)) : PositionLog I :=
  { log.clear.draw positions true with listening := false }

/-- A pump whose source throws lists the positions drawn so far, without rows. -/
def pumpThrows (log : PositionLog I) (positions : List (TypedPosition I)) : PositionLog I :=
  log.clear.draw positions false

/-- The log after a call. -/
def attempt (log : PositionLog I) : Attempt I → PositionLog I
  | .returns (.save position) => log.save position
  | .returns (.pump positions) => log.pump positions
  | .returns .clear => log.clear
  | .returns .flush => log
  | .pumpThrows positions => log.pumpThrows positions

/-- What a query finds that asks for the positions that `pick` picks: earlier ones first, and
simultaneous ones in the order of the log. -/
def walk (log : PositionLog I) (pick : TypedPosition I → Bool) : List (Option (TypedPosition I)) :=
  (sortBy LogEntry.timestamp (log.entries.filter fun e => pick e.position)).map LogEntry.found

/-- `queryVessel(id, period)`. -/
def queryVessel [DecidableEq I] (log : PositionLog I) (id : I) (period : Range Date) :
    List (Option (TypedPosition I)) :=
  log.walk fun p => p.id = id ∧ VesselSliced period p.timestamp

/-- `queryArea(period, latitudeFrom, latitudeTo, longitudeFrom, longitudeTo)`. -/
def queryArea (log : PositionLog I) (period : Range Date) (box : Box) :
    Except Throwable (List (TypedPosition I)) :=
  filterBox box (log.walk fun p => AreaSliced period p.timestamp)

/-- `queryLatest(from)`. -/
def queryLatest (log : PositionLog I) (fromDate : Date) : List (Option (TypedPosition I)) :=
  (log.walk fun p => fromDate ≤ p.timestamp).reverse

/-- A log that is not empty is reset by `clear`. -/
theorem clear_of_not_isEmpty {log : PositionLog I} (h : log.isEmpty = false) :
    log.clear = init := by
  rw [clear, h]
  rfl

/-- A log is empty after `clear`. -/
theorem isEmpty_clear (log : PositionLog I) : log.clear.isEmpty = true := by
  unfold clear
  split
  · next h => exact h
  · rfl

/-- A log with a saved position is not empty. -/
theorem isEmpty_save (log : PositionLog I) (p : TypedPosition I) :
    (log.save p).isEmpty = false := by
  unfold save isEmpty
  split <;> simp

/-- What has been drawn without rows makes no log nonempty. -/
theorem isEmpty_draw (log : PositionLog I) (ps : List (TypedPosition I)) (live : Bool) :
    (log.draw ps live).isEmpty = ((!live || ps.isEmpty) && log.isEmpty) := by
  have hdead : (ps.reverse.map fun p => (⟨p, live⟩ : LogEntry I)).all (fun e => !e.live) =
      (!live || ps.isEmpty) := by
    cases live <;> cases ps <;> simp
  rw [isEmpty, draw, List.all_append, hdead, Bool.and_assoc]
  rfl

end PositionLog

namespace MapdbPositionStore

variable {I : Type} [LinearOrder I]

/-- The store after a call. -/
def attempt (store : MapdbPositionStore I) : Attempt I → MapdbPositionStore I
  | .returns op => store.exec op
  | .pumpThrows positions => store.pumpThrows positions

/-! ### The keys of a log -/

/-- The log of a store, with the keys of its entries: both indexes hold one entry for each of them,
a table without its row has no row under its key, and no key lies beyond the sequence number. -/
structure Represents (store : MapdbPositionStore I) (log : PositionLog I)
    (keyed : List (ℤ × LogEntry I)) : Prop where
  entries : keyed.map Prod.snd = log.entries
  ascending : keyed.Pairwise fun e f => e.1 < f.1
  bounded : ∀ e ∈ keyed, -store.sequence ≤ e.1 ∧ e.1 ≤ store.sequence
  nonneg : 0 ≤ store.sequence
  idTimestamp : store.lookupIdTimestamp.elements.Perm
    (keyed.map fun e => idTimestampEntry e.1 e.2.position)
  timestamp : store.lookupTimestamp.elements.Perm
    (keyed.map fun e => timestampEntry e.1 e.2.position)
  rows : ∀ e ∈ keyed, store.table.rows.get e.1 = e.2.found
  isEmpty : store.table.rows.isEmpty = log.isEmpty
  listening : store.table.listening = log.listening

/-- An initialised store represents the empty log. -/
theorem represents_init : Represents (init : MapdbPositionStore I) .init [] where
  entries := rfl
  ascending := List.Pairwise.nil
  bounded := by simp
  nonneg := le_rfl
  idTimestamp := List.Perm.refl _
  timestamp := List.Perm.refl _
  rows := by simp
  isEmpty := rfl
  listening := rfl

variable {store : MapdbPositionStore I} {log : PositionLog I} {keyed : List (ℤ × LogEntry I)}

/-- The keys of the log lie below the key of the next saved position. -/
theorem Represents.lt_next (h : Represents store log keyed) {e : ℤ × LogEntry I}
    (he : e ∈ keyed) : e.1 < store.sequence + 1 := by
  have hbound := h.bounded e he
  omega

/-- A `save` puts a row into the table under a key that the log does not have yet. -/
theorem Represents.rows_save (h : Represents store log keyed) (p : TypedPosition I) :
    ∀ e ∈ keyed, (store.save p).table.rows.get e.1 = e.2.found := by
  intro e he
  have hne : e.1 ≠ store.sequence + 1 := (h.lt_next he).ne
  rw [MapdbPositionStore.rows_save, NavigableMap.get_put, if_neg hne]
  exact h.rows e he

/-- A new entry is added to an index that holds the entries of the log. -/
theorem elements_add_perm_of_keyed (entry : ℤ → TypedPosition I → IndexArray I)
    (hkey : ∀ {k l p q}, entry k p = entry l q → k = l) {index : NavigableSet (IndexArray I)}
    (hindex : index.elements.Perm (keyed.map fun e => entry e.1 e.2.position)) {key : ℤ}
    (hnew : ∀ e ∈ keyed, e.1 ≠ key) (e : LogEntry I) :
    (index.add (entry key e.position)).elements.Perm
      ((keyed ++ [(key, e)]).map fun e => entry e.1 e.2.position) := by
  have hnotMem : entry key e.position ∉ index.elements := by
    intro hmem
    obtain ⟨f, hf, heq⟩ := List.mem_map.mp (hindex.mem_iff.mp hmem)
    exact hnew f hf (hkey heq)
  rw [List.map_append]
  exact (index.elements_add_perm hnotMem).trans
    ((hindex.cons _).trans (List.perm_append_singleton _ _).symm)

/-- A `save` with the listener attached lists its position last. -/
theorem Represents.save_listening (h : Represents store log keyed)
    (hl : store.table.listening = true) (p : TypedPosition I) :
    Represents (store.save p) (log.save p) (keyed ++ [(store.sequence + 1, ⟨p, true⟩)]) := by
  have hlog : log.save p = { log with entries := log.entries ++ [⟨p, true⟩] } := by
    rw [PositionLog.save, if_pos (h.listening ▸ hl)]
  have hnew : ∀ e ∈ keyed, e.1 ≠ store.sequence + 1 := fun e he => (h.lt_next he).ne
  have hnonneg := h.nonneg
  constructor
  case entries => rw [hlog, List.map_append, h.entries, List.map_singleton]
  case ascending =>
    refine List.pairwise_append.mpr ⟨h.ascending, List.pairwise_singleton _ _, ?_⟩
    intro e he f hf
    rw [List.mem_singleton.mp hf]
    exact h.lt_next he
  case bounded =>
    rw [sequence_save]
    intro e he
    rcases List.mem_append.mp he with he | he
    · have hbound := h.bounded e he
      omega
    · rw [List.mem_singleton.mp he]
      simp only
      omega
  case nonneg =>
    rw [sequence_save]
    omega
  case idTimestamp =>
    rw [save_of_listening hl]
    exact elements_add_perm_of_keyed idTimestampEntry key_of_idTimestampEntry h.idTimestamp hnew
      ⟨p, true⟩
  case timestamp =>
    rw [save_of_listening hl]
    exact elements_add_perm_of_keyed timestampEntry key_of_timestampEntry h.timestamp hnew
      ⟨p, true⟩
  case rows =>
    intro e he
    rcases List.mem_append.mp he with he | he
    · exact h.rows_save p e he
    · rw [List.mem_singleton.mp he, MapdbPositionStore.rows_save, NavigableMap.get_put, if_pos rfl]
      rfl
  case isEmpty =>
    rw [MapdbPositionStore.rows_save, NavigableMap.isEmpty_put, PositionLog.isEmpty_save]
  case listening =>
    rw [save_of_listening hl, hlog]
    exact h.listening

/-- A `save` with the listener detached changes no index. -/
theorem Represents.save_not_listening (h : Represents store log keyed)
    (hl : store.table.listening = false) (p : TypedPosition I) :
    Represents (store.save p) (log.save p) keyed := by
  have hlog : log.save p = { log with unlisted := log.unlisted ++ [p] } := by
    rw [PositionLog.save, ← h.listening, hl]
    rfl
  have hstore : store.save p = { store with
      sequence := store.sequence + 1
      table := { store.table with rows := store.table.rows.put (store.sequence + 1) p } } := by
    simp [MapdbPositionStore.save, tablePut, hl]
  have hnonneg := h.nonneg
  constructor
  case entries => rw [hlog, h.entries]
  case ascending => exact h.ascending
  case bounded =>
    rw [sequence_save]
    intro e he
    have hbound := h.bounded e he
    omega
  case nonneg =>
    rw [sequence_save]
    omega
  case idTimestamp =>
    rw [hstore]
    exact h.idTimestamp
  case timestamp =>
    rw [hstore]
    exact h.timestamp
  case rows => exact h.rows_save p
  case isEmpty =>
    rw [MapdbPositionStore.rows_save, NavigableMap.isEmpty_put, PositionLog.isEmpty_save]
  case listening =>
    rw [hstore, hlog]
    exact h.listening

/-- A `save` is a `save` of the log. -/
theorem Represents.save (h : Represents store log keyed) (p : TypedPosition I) :
    ∃ keyed', Represents (store.save p) (log.save p) keyed' := by
  cases hl : store.table.listening with
  | true => exact ⟨_, h.save_listening hl p⟩
  | false => exact ⟨_, h.save_not_listening hl p⟩

/-- A `clear` is a `clear` of the log. -/
theorem Represents.clear (h : Represents store log keyed) :
    ∃ keyed', Represents store.clear log.clear keyed' := by
  cases hempty : store.table.rows.isEmpty with
  | true =>
    refine ⟨keyed, ?_⟩
    rw [MapdbPositionStore.clear, PositionLog.clear, if_pos hempty, if_pos (h.isEmpty ▸ hempty)]
    exact h
  | false =>
    refine ⟨[], ?_⟩
    rw [MapdbPositionStore.clear, PositionLog.clear_of_not_isEmpty (h.isEmpty ▸ hempty), hempty]
    exact { represents_init with bounded := by simp, nonneg := h.nonneg }

/-! ### Drawing the positions of a pump -/

/-- The positions drawn by a pump under their keys, the last one first. -/
def drawn (sequence : ℤ) (positions : List (TypedPosition I)) (live : Bool) :
    List (ℤ × LogEntry I) :=
  (pumpPairs sequence positions).reverse.map fun e => (e.1, ⟨e.2, live⟩)

omit [LinearOrder I] in
/-- The keys of the positions drawn lie below all keys drawn before. -/
theorem key_of_mem_drawn {sequence : ℤ} {positions : List (TypedPosition I)} {live : Bool}
    {e : ℤ × LogEntry I} (he : e ∈ drawn sequence positions live) :
    -(sequence + positions.length) ≤ e.1 ∧ e.1 < -sequence := by
  obtain ⟨f, hf, rfl⟩ := List.mem_map.mp he
  exact key_of_mem_pumpPairs (List.mem_reverse.mp hf)

omit [LinearOrder I] in
/-- The positions drawn by a pump. -/
theorem drawn_map_snd (sequence : ℤ) (positions : List (TypedPosition I)) (live : Bool) :
    (drawn sequence positions live).map Prod.snd = positions.reverse.map fun p => ⟨p, live⟩ := by
  calc (drawn sequence positions live).map Prod.snd
    _ = ((pumpPairs sequence positions).map Prod.snd).reverse.map fun p => ⟨p, live⟩ := by
        rw [drawn, List.map_map, ← List.map_reverse, List.map_map]
        rfl
    _ = positions.reverse.map fun p => ⟨p, live⟩ := by rw [pumpPairs_map_snd]

/-- Drawing positions adds their entries to an index that holds the entries of the log. -/
theorem elements_foldl_add_perm_of_keyed (entry : ℤ → TypedPosition I → IndexArray I)
    (hkey : ∀ {k l p q}, entry k p = entry l q → k = l) {index : NavigableSet (IndexArray I)}
    (hindex : index.elements.Perm (keyed.map fun e => entry e.1 e.2.position)) {sequence : ℤ}
    (hkeyed : ∀ e ∈ keyed, -sequence ≤ e.1) (positions : List (TypedPosition I)) (live : Bool) :
    ((pumpPairs sequence positions).foldl (fun s e => s.add (entry e.1 e.2)) index).elements.Perm
      ((drawn sequence positions live ++ keyed).map fun e => entry e.1 e.2.position) := by
  have hdistinct : (pumpPairs sequence positions).Pairwise
      fun e f => entry e.1 e.2 ≠ entry f.1 f.2 :=
    (pumpPairs_pairwise sequence positions).imp fun hlt heq => hlt.ne' (hkey heq)
  have hnew : ∀ e ∈ pumpPairs sequence positions, entry e.1 e.2 ∉ index.elements := by
    intro e he hmem
    obtain ⟨f, hf, heq⟩ := List.mem_map.mp (hindex.mem_iff.mp hmem)
    have hlt := (key_of_mem_pumpPairs he).2
    have hle := hkeyed f hf
    have hsame : f.1 = e.1 := hkey heq
    omega
  have hfill := NavigableSet.elements_foldl_add_perm (fun e => entry e.1 e.2)
    (pumpPairs sequence positions) index hdistinct hnew
  refine hfill.trans ?_
  rw [List.map_append, drawn, List.map_map]
  exact (((List.reverse_perm (pumpPairs sequence positions)).map _).symm).append hindex

/-- What a pump has drawn represents the log with the drawn positions in front, if the table in use
has exactly their rows. -/
theorem Represents.draw (h : Represents store log keyed) (positions : List (TypedPosition I))
    (live : Bool) (table : Table I)
    (hdrawn : ∀ e ∈ drawn store.sequence positions live, table.rows.get e.1 = e.2.found)
    (hkeyed : ∀ e ∈ keyed, table.rows.get e.1 = e.2.found)
    (hempty : table.rows.isEmpty = (log.draw positions live).isEmpty) :
    Represents { positions.foldl MapdbPositionStore.draw store with table := table }
      { log.draw positions live with listening := table.listening }
      (drawn store.sequence positions live ++ keyed) := by
  have hle : ∀ e ∈ keyed, -store.sequence ≤ e.1 := fun e he => (h.bounded e he).1
  have hnonneg := h.nonneg
  rw [foldl_draw]
  constructor
  case entries => rw [List.map_append, drawn_map_snd, h.entries, PositionLog.draw]
  case ascending =>
    refine List.pairwise_append.mpr ⟨?_, h.ascending, ?_⟩
    · refine List.pairwise_map.mpr (List.pairwise_reverse.mpr ?_)
      exact pumpPairs_pairwise store.sequence positions
    · intro e he f hf
      exact (key_of_mem_drawn he).2.trans_le (hle f hf)
  case bounded =>
    simp only
    intro e he
    rcases List.mem_append.mp he with he | he
    · have hbound := key_of_mem_drawn he
      omega
    · have hbound := h.bounded e he
      omega
  case nonneg =>
    simp only
    omega
  case idTimestamp =>
    exact elements_foldl_add_perm_of_keyed idTimestampEntry key_of_idTimestampEntry h.idTimestamp
      hle positions live
  case timestamp =>
    exact elements_foldl_add_perm_of_keyed timestampEntry key_of_timestampEntry h.timestamp
      hle positions live
  case rows =>
    intro e he
    rcases List.mem_append.mp he with he | he
    · exact hdrawn e he
    · exact hkeyed e he
  case isEmpty => exact hempty
  case listening => rfl

/-- In an empty table every listed position is without a row. -/
theorem Represents.found_eq_none (h : Represents store log keyed)
    (hempty : store.table.rows.isEmpty = true) {e : ℤ × LogEntry I} (he : e ∈ keyed) :
    e.2.found = none := by
  rw [← h.rows e he]
  exact NavigableMap.get_of_isEmpty hempty e.1

/-- A pump is a pump of the log. -/
theorem Represents.pump (h : Represents store log keyed) (positions : List (TypedPosition I)) :
    ∃ keyed', Represents (store.pump positions) (log.pump positions) keyed' := by
  obtain ⟨keyed', h⟩ := h.clear
  have hempty : store.clear.table.rows.isEmpty = true := by
    rw [h.isEmpty]
    exact log.isEmpty_clear
  set pairs := pumpPairs store.clear.sequence positions with hpairs
  have hentries : (NavigableMap.ofEntries pairs).entries.Perm pairs :=
    NavigableMap.entries_ofEntries_perm ((pumpPairs_pairwise _ positions).imp fun hlt => hlt.ne')
  refine ⟨drawn store.clear.sequence positions true ++ keyed', ?_⟩
  refine h.draw positions true { rows := NavigableMap.ofEntries pairs, listening := false } ?_ ?_ ?_
  · intro e he
    obtain ⟨f, hf, rfl⟩ := List.mem_map.mp he
    exact NavigableMap.get_of_mem _ (hentries.mem_iff.mpr (List.mem_reverse.mp hf))
  · -- The positions listed before have no row, and their keys lie above those of the new rows.
    intro e he
    rw [h.found_eq_none hempty he]
    refine Option.eq_none_iff_forall_ne_some.mpr fun p hp => ?_
    have hmem := hentries.mem_iff.mp (NavigableMap.mem_of_get hp)
    have hlt := (key_of_mem_pumpPairs hmem).2
    have hle := (h.bounded e he).1
    simp only at hlt
    omega
  · rw [PositionLog.isEmpty_draw, log.isEmpty_clear, NavigableMap.isEmpty]
    simp only [Bool.not_true, Bool.false_or, Bool.and_true]
    rw [Bool.eq_iff_iff, List.isEmpty_iff, List.isEmpty_iff]
    constructor
    · intro hnil
      rw [hnil, List.nil_perm] at hentries
      rw [← pumpPairs_map_snd store.clear.sequence positions, ← hpairs, hentries, List.map_nil]
    · rintro rfl
      rfl

/-- A pump whose source throws is such a pump of the log. -/
theorem Represents.pumpThrows (h : Represents store log keyed)
    (positions : List (TypedPosition I)) :
    ∃ keyed', Represents (store.pumpThrows positions) (log.pumpThrows positions) keyed' := by
  obtain ⟨keyed', h⟩ := h.clear
  have hempty : store.clear.table.rows.isEmpty = true := by
    rw [h.isEmpty]
    exact log.isEmpty_clear
  have hstore : store.pumpThrows positions =
      { positions.foldl MapdbPositionStore.draw store.clear with table := store.clear.table } := by
    rw [MapdbPositionStore.pumpThrows, foldl_draw]
  have hdraw := h.draw positions false store.clear.table ?_ h.rows ?_
  · rw [h.listening] at hdraw
    refine ⟨drawn store.clear.sequence positions false ++ keyed', ?_⟩
    rw [hstore]
    exact hdraw
  · intro e he
    obtain ⟨f, -, rfl⟩ := List.mem_map.mp he
    exact NavigableMap.get_of_isEmpty hempty _
  · rw [PositionLog.isEmpty_draw, log.isEmpty_clear, hempty]
    simp

/-- Every call is that call of the log. -/
theorem Represents.attempt (h : Represents store log keyed) (a : Attempt I) :
    ∃ keyed', Represents (store.attempt a) (log.attempt a) keyed' := by
  cases a with
  | returns op =>
    cases op with
    | save position => exact h.save position
    | pump positions => exact h.pump positions
    | clear => exact h.clear
    | flush => exact ⟨keyed, h⟩
  | pumpThrows positions => exact h.pumpThrows positions

/-- Throughout a run the store represents the log. -/
theorem exists_represents_ofAttempts (attempts : List (Attempt I)) :
    ∃ keyed, Represents (attempts.foldl MapdbPositionStore.attempt init)
      (attempts.foldl PositionLog.attempt .init) keyed := by
  induction attempts using List.reverseRecOn with
  | nil => exact ⟨[], represents_init⟩
  | append_singleton attempts a ih =>
    obtain ⟨keyed, h⟩ := ih
    rw [List.foldl_append, List.foldl_cons, List.foldl_nil, List.foldl_append, List.foldl_cons,
      List.foldl_nil]
    exact h.attempt a

/-! ### What the queries find -/

/-- Entries of one identifier are ordered by timestamp and then by key. -/
theorem idTimestampEntry_lt {k l : ℤ} {p q : TypedPosition I} (hid : p.id = q.id)
    (h : p.timestamp < q.timestamp ∨ p.timestamp = q.timestamp ∧ k < l) :
    idTimestampEntry k p < idTimestampEntry l q := by
  rcases h with hlt | ⟨heq, hlt⟩
  · simp [idTimestampEntry, List.cons_lt_cons_iff, hid, Date.lt_def.mp hlt]
  · simp [idTimestampEntry, List.cons_lt_cons_iff, hid, heq, hlt]

/-- Entries are ordered by timestamp and then by key. -/
theorem timestampEntry_lt {k l : ℤ} {p q : TypedPosition I}
    (h : p.timestamp < q.timestamp ∨ p.timestamp = q.timestamp ∧ k < l) :
    timestampEntry k p < timestampEntry l q := by
  rcases h with hlt | ⟨heq, hlt⟩
  · simp [timestampEntry, List.cons_lt_cons_iff, Date.lt_def.mp hlt]
  · simp [timestampEntry, List.cons_lt_cons_iff, heq, hlt]

/-- Walking the part of an index that holds the entries of the picked positions finds what the log
finds: the entries ascend by timestamp and then by key, and so does the sorted log. -/
theorem Represents.walk_eq (h : Represents store log keyed)
    (entry : ℤ → TypedPosition I → IndexArray I) {index : NavigableSet (IndexArray I)} {i : ℕ}
    (hindex : index.elements.Perm (keyed.map fun e => entry e.1 e.2.position))
    (hrow : ∀ key p, store.rowOf i (entry key p) = store.table.rows.get key)
    {slice : IndexArray I → Bool} {pick : TypedPosition I → Bool}
    (hslice : ∀ key p, slice (entry key p) = pick p)
    (hlt : ∀ {k l p q}, pick p = true → pick q = true →
      (p.timestamp < q.timestamp ∨ p.timestamp = q.timestamp ∧ k < l) → entry k p < entry l q) :
    (index.elements.filter slice).map (store.rowOf i) = log.walk pick := by
  set picked := keyed.filter fun e => pick e.2.position with hpicked
  set sorted := sortBy (fun e : ℤ × LogEntry I => e.2.timestamp) picked with hsorted
  have hmem : ∀ e ∈ sorted, e ∈ keyed ∧ pick e.2.position = true := by
    intro e he
    exact List.mem_filter.mp ((sortBy_perm _ picked).mem_iff.mp he)
  have hperm : (index.elements.filter slice).Perm
      (sorted.map fun e => entry e.1 e.2.position) := by
    refine (hindex.filter slice).trans ?_
    rw [List.filter_map]
    have hpick : (slice ∘ fun e : ℤ × LogEntry I => entry e.1 e.2.position) =
        fun e => pick e.2.position := funext fun e => hslice e.1 e.2.position
    rw [hpick]
    exact ((sortBy_perm _ picked).map _).symm
  have hascends : (sorted.map fun e => entry e.1 e.2.position).Pairwise (· < ·) := by
    have hstable := sortBy_pairwise_of_pairwise (fun e : ℤ × LogEntry I => e.2.timestamp)
      (h.ascending.filter fun e => pick e.2.position)
    refine List.pairwise_map.mpr (hstable.imp_of_mem ?_)
    intro e f he hf hef
    exact hlt (hmem e he).2 (hmem f hf).2 hef
  have heq : index.elements.filter slice = sorted.map fun e => entry e.1 e.2.position :=
    hperm.eq_of_pairwise (fun _ _ _ _ hab hba => absurd hba (lt_asymm hab))
      (index.sorted.filter slice) hascends
  calc (index.elements.filter slice).map (store.rowOf i)
    _ = sorted.map fun e => e.2.found := by
        rw [heq, List.map_map]
        apply List.map_congr_left
        intro e he
        exact (hrow e.1 e.2.position).trans (h.rows e (hmem e he).1)
    _ = log.walk pick := by
        rw [PositionLog.walk, ← h.entries, List.filter_map, sortBy_map, List.map_map, hsorted,
          hpicked]
        rfl

/-- All queries of two stores have the same answers. -/
structure AnswersAlike (store store' : MapdbPositionStore I) : Prop where
  vessel : ∀ id period, store.queryVessel id period = store'.queryVessel id period
  area : ∀ period box, store.queryArea period box = store'.queryArea period box
  latest : ∀ fromDate, store.queryLatest fromDate = store'.queryLatest fromDate

/-- All queries of a store have the answers of a log. -/
structure AnswersAs (store : MapdbPositionStore I) (log : PositionLog I) : Prop where
  vessel : ∀ id period, store.queryVessel id period = log.queryVessel id period
  area : ∀ period box, store.queryArea period box = log.queryArea period box
  latest : ∀ fromDate, store.queryLatest fromDate = log.queryLatest fromDate

/-- A store answers as the log that it represents. -/
theorem Represents.answersAs (h : Represents store log keyed) : AnswersAs store log where
  vessel id period := by
    rw [queryVessel, elements_vesselSlice]
    refine h.walk_eq idTimestampEntry h.idTimestamp (fun _ _ => rfl)
      (fun key p => decide_eq_decide.mpr vesselSlice_idTimestampEntry) ?_
    intro k l p q hp hq hlt
    exact idTimestampEntry_lt ((of_decide_eq_true hp).1.trans (of_decide_eq_true hq).1.symm) hlt
  area period box := by
    rw [queryArea, PositionLog.queryArea, elements_areaSlice]
    congr 1
    exact h.walk_eq timestampEntry h.timestamp (fun _ _ => rfl)
      (fun key p => decide_eq_decide.mpr areaSlice_timestampEntry)
      fun _ _ hlt => timestampEntry_lt hlt
  latest fromDate := by
    rw [queryLatest, NavigableSet.descendingSet, NavigableSet.elements_tailSet, List.map_reverse,
      PositionLog.queryLatest]
    congr 1
    exact h.walk_eq timestampEntry h.timestamp (fun _ _ => rfl)
      (fun key p => decide_eq_decide.mpr datePrefix_le) fun _ _ hlt => timestampEntry_lt hlt

/-- After any calls on an initialised store, pumps whose source throws and saves without a listener
included, all queries have the answers of the log. -/
theorem queries_eq_log (attempts : List (Attempt I)) :
    AnswersAs (attempts.foldl attempt init) (attempts.foldl PositionLog.attempt .init) := by
  obtain ⟨keyed, h⟩ := exists_represents_ofAttempts attempts
  exact h.answersAs

/-- Once a `clear` has found a row, whatever has happened before, all queries have from then on the
answers of a store that has just been initialised. -/
theorem queries_after_clear (before after : List (Attempt I))
    (hrow : (before.foldl attempt (init : MapdbPositionStore I)).table.rows.isEmpty = false) :
    AnswersAlike ((before ++ .returns .clear :: after).foldl attempt init)
      (after.foldl attempt init) := by
  obtain ⟨keyed, hbefore⟩ := exists_represents_ofAttempts before
  have hlog : (before ++ .returns .clear :: after).foldl PositionLog.attempt .init =
      after.foldl PositionLog.attempt .init := by
    rw [List.foldl_append, List.foldl_cons]
    congr 1
    exact PositionLog.clear_of_not_isEmpty (hbefore.isEmpty ▸ hrow)
  obtain ⟨keyed', h⟩ := exists_represents_ofAttempts (before ++ .returns .clear :: after)
  obtain ⟨keyed'', h'⟩ := exists_represents_ofAttempts after
  rw [hlog] at h
  have hleft := h.answersAs
  have hright := h'.answersAs
  exact ⟨fun id period => (hleft.vessel id period).trans (hright.vessel id period).symm,
    fun period box => (hleft.area period box).trans (hright.area period box).symm,
    fun fromDate => (hleft.latest fromDate).trans (hright.latest fromDate).symm⟩

/-- A failed pump leaves an entry without a row that a `clear` does not remove; after one more
`save` it does. -/
theorem queries_after_clear_healed :
    let failed : List (Attempt Int32) := [.pumpThrows [report]]
    let healed : List (Attempt Int32) := failed ++ [.returns (.save report)]
    let after : List (Attempt Int32) := [.returns (.save simultaneous)]
    (failed.foldl attempt init).clear.queryVessel 1 Range.all = [none] ∧
      AnswersAlike ((healed ++ .returns .clear :: after).foldl attempt init)
        (init.save simultaneous) := by
  intro failed healed after
  exact ⟨by decide, queries_after_clear healed after (by decide)⟩

end MapdbPositionStore

end CwatchBackend
