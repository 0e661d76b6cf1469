import CwatchBackend.Foundation.Navigable
import CwatchBackend.Foundation.Range
import CwatchBackend.Message
import Mathlib.Data.List.Lex
import Mathlib.Data.Sum.Order

/-!
# The position store over MapDB

`store.MapdbPositionStore`: a table of reports under generated keys, and two indexes that are tree
sets of arrays, one by identifier and timestamp and one by timestamp.  The arrays are compared
element by element, a proper prefix coming first, so an array is a list of `IndexField`s in
lexicographic order and the period queries slice the indexes by prefixes.

The indexes are not maintained by `save` itself but by a modification listener that belongs to one
table object: `init` attaches it, `clear` detaches and re-attaches it around the removal of the
rows, and `pump` fills the indexes itself and then puts a new table object in the place of the old
one.  `Table.listening` records whether the listener is attached to the table object in use.
-/

namespace CwatchBackend

open Foundation

/-- An element of an index array: an identifier or a `Long`. -/
inductive IndexField (I : Type) where
  | id (value : I)
  | long (value : ℤ)

namespace IndexField

variable {I : Type}

/-- An index field among the identifiers and the numbers. -/
def toSum : IndexField I → I ⊕ₗ ℤ
  | id value => toLex (Sum.inl value)
  | long value => toLex (Sum.inr value)

/-- Distinct fields stay distinct. -/
theorem toSum_injective : Function.Injective (toSum : IndexField I → _) := by
  rintro (a | a) (b | b) h <;> cases h <;> rfl

variable [LinearOrder I]

instance : LinearOrder (IndexField I) := LinearOrder.lift' toSum toSum_injective

@[simp] theorem id_lt_id {a b : I} : id a < id b ↔ a < b := Sum.Lex.inl_lt_inl_iff

@[simp] theorem long_lt_long {a b : ℤ} : (long a : IndexField I) < long b ↔ a < b :=
  Sum.Lex.inr_lt_inr_iff

end IndexField

/-- An array of an index. -/
abbrev IndexArray (I : Type) := List (IndexField I)

/-- The entry of a row in `lookupIdTimestamp`. -/
def idTimestampEntry {I : Type} (key : ℤ) (p : TypedPosition I) : IndexArray I :=
  [.id p.id, .long p.timestamp.getTime.toInt, .long key]

/-- The entry of a row in `lookupTimestamp`. -/
def timestampEntry {I : Type} (key : ℤ) (p : TypedPosition I) : IndexArray I :=
  [.long p.timestamp.getTime.toInt, .long key]

/-- A table object: its rows, and whether `lookupListener` is attached to it. -/
structure Table (I : Type) where
  rows : NavigableMap ℤ (TypedPosition I)
  listening : Bool

/-- `MapdbPositionStore<I, P>`. -/
structure MapdbPositionStore (I : Type) [LinearOrder I] where
  table : Table I
  sequence : ℤ
  lookupIdTimestamp : NavigableSet (IndexArray I)
  lookupTimestamp : NavigableSet (IndexArray I)

namespace MapdbPositionStore

variable {I : Type} [LinearOrder I]

/-! ### The operations that change the store -/

/-- `init()`: an empty table with the listener attached, and two empty indexes. -/
def init : MapdbPositionStore I where
  table := { rows := NavigableMap.empty, listening := true }
  sequence := 0
  lookupIdTimestamp := NavigableSet.empty
  lookupTimestamp := NavigableSet.empty

/-- `lookupListener.update(key, oldVal, newVal)`. -/
def update (store : MapdbPositionStore I) (key : ℤ) (newVal : TypedPosition I) :
    MapdbPositionStore I :=
  { store with
    lookupIdTimestamp := store.lookupIdTimestamp.add (idTimestampEntry key newVal)
    lookupTimestamp := store.lookupTimestamp.add (timestampEntry key newVal) }

/-- `table.put(key, position)`: the listener is called if it is attached to this table. -/
def tablePut (store : MapdbPositionStore I) (key : ℤ) (position : TypedPosition I) :
    MapdbPositionStore I :=
  let stored := { store with
    table := { store.table with rows := store.table.rows.put key position } }
  if store.table.listening then stored.update key position else stored

/-- `save(position)`: `table.put(sequence.incrementAndGet(), position)`. -/
def save (store : MapdbPositionStore I) (position : TypedPosition I) : MapdbPositionStore I :=
  { store with sequence := store.sequence + 1 }.tablePut (store.sequence + 1) position

/-- `clear()`: nothing happens to an empty table; otherwise the listener is detached, the rows and
both indexes are emptied, and the listener is attached. -/
def clear (store : MapdbPositionStore I) : MapdbPositionStore I :=
  if store.table.rows.isEmpty then store else
    { store with
      table := { rows := NavigableMap.empty, listening := true }
      lookupIdTimestamp := NavigableSet.empty
      lookupTimestamp := NavigableSet.empty }

/-- One element drawn from the pump source: the position gets the key
`-sequence.incrementAndGet()` and the listener is called for it. -/
def draw (store : MapdbPositionStore I) (position : TypedPosition I) : MapdbPositionStore I :=
  { store with sequence := store.sequence + 1 }.update (-(store.sequence + 1)) position

/-- The pairs handed to `pumpSource`, given the sequence number before the first of them. -/
def pumpPairs (sequence : ℤ) : List (TypedPosition I) → List (ℤ × TypedPosition I)
  | [] => []
  | p :: positions => (-(sequence + 1), p) :: pumpPairs (sequence + 1) positions

/-- `pump(positions)`: after `clear()` the positions are drawn one after the other, and the table
is replaced by a new one that holds the drawn pairs; no listener is attached to it. -/
def pump (store : MapdbPositionStore I) (positions : List (TypedPosition I)) :
    MapdbPositionStore I :=
  { positions.foldl draw store.clear with
    table :=
      { rows := NavigableMap.ofEntries (pumpPairs store.clear.sequence positions)
        listening := false } }

/-- `pump` with a stream that throws after the given positions: they have been drawn, and the table
is still the one that `clear()` has left. -/
def pumpThrows (store : MapdbPositionStore I) (positions : List (TypedPosition I)) :
    MapdbPositionStore I :=
  positions.foldl draw store.clear

/-- `flush()`: a commit, which changes no row and no index entry. -/
def flush (store : MapdbPositionStore I) : MapdbPositionStore I := store

/-! ### The queries -/

/-- `table.get(element[i])`; a missing row is the `null` of the source. -/
def rowOf (store : MapdbPositionStore I) (i : ℕ) (element : IndexArray I) :
    Option (TypedPosition I) :=
  match element[i]? with
  | some (.long key) => store.table.rows.get key
  | _ => none

/-- `applyPeriod(source, period, keyFunction, noUpperBound)`. -/
def applyPeriod (source : NavigableSet (IndexArray I)) (period : Range Date)
    (keyFunction : ℤ → IndexArray I)
    (noUpperBound : NavigableSet (IndexArray I) → NavigableSet (IndexArray I)) :
    NavigableSet (IndexArray I) :=
  let source := match period.lowerBound.endpoint? with
    | some date => source.tailSet (keyFunction date.getTime.toInt) true
    | none => source
  match period.upperBound.endpoint? with
  | some date => source.headSet (keyFunction date.getTime.toInt) false
  | none => noUpperBound source

/-- The slice of `lookupIdTimestamp` that `queryVessel(id, period)` walks. -/
def vesselSlice (store : MapdbPositionStore I) (id : I) (period : Range Date) :
    NavigableSet (IndexArray I) :=
  applyPeriod (store.lookupIdTimestamp.tailSet [.id id] true) period
    (fun date => [.id id, .long date])
    (fun s => s.headSet [.id id, .long Int64.maxValue.toInt] true)

/-- `queryVessel(id, period)`; a `null` element of the stream is `none`. -/
def queryVessel (store : MapdbPositionStore I) (id : I) (period : Range Date) :
    List (Option (TypedPosition I)) :=
  (store.vesselSlice id period).elements.map (store.rowOf 2)

/-- The slice of `lookupTimestamp` that `queryArea` walks. -/
def areaSlice (store : MapdbPositionStore I) (period : Range Date) :
    NavigableSet (IndexArray I) :=
  applyPeriod store.lookupTimestamp period (fun date => [.long date]) id

/-- The `filter` of `queryArea`, which dereferences every element of the stream. -/
def filterBox (box : Box) : List (Option (TypedPosition I)) →
    Except Throwable (List (TypedPosition I))
  | [] => .ok []
  | none :: _ => .error .nullPointerException
  | some p :: ps => do
    let rest ← filterBox box ps
    return if box.Contains p.toDefaultPosition then p :: rest else rest

/-- `queryArea(period, latitudeFrom, latitudeTo, longitudeFrom, longitudeTo)`. -/
def queryArea (store : MapdbPositionStore I) (period : Range Date) (box : Box) :
    Except Throwable (List (TypedPosition I)) :=
  filterBox box ((store.areaSlice period).elements.map (store.rowOf 1))

/-- `queryLatest(from)`: the entries stamped `from` or later in descending order; a `null` element
of the stream is `none`. -/
def queryLatest (store : MapdbPositionStore I) (fromDate : Date) :
    List (Option (TypedPosition I)) :=
  (store.lookupTimestamp.tailSet [.long fromDate.getTime.toInt] true).descendingSet.map
    (store.rowOf 1)

end MapdbPositionStore

end CwatchBackend
