import CwatchBackend.Foundation.Range
import CwatchBackend.Message

/-!
# The position store in memory

`store.MemoryPositionStore`: a queue of reports; every query filters the whole queue.
-/

namespace CwatchBackend

open Foundation

/-- `MemoryPositionStore<I, P>`: the stored reports, oldest first. -/
structure MemoryPositionStore (I : Type) where
  items : List (TypedPosition I)

namespace MemoryPositionStore

variable {I : Type}

/-- A new store. -/
def empty : MemoryPositionStore I := ⟨[]⟩

/-- `save(position)`. -/
def save (store : MemoryPositionStore I) (position : TypedPosition I) : MemoryPositionStore I :=
  ⟨store.items ++ [position]⟩

/-- `clear()`. -/
def clear (_ : MemoryPositionStore I) : MemoryPositionStore I := empty

/-- `pump(positions)`: the store is cleared and every position is saved. -/
def pump (store : MemoryPositionStore I) (positions : List (TypedPosition I)) :
    MemoryPositionStore I :=
  positions.foldl save store.clear

/-- `queryVessel(id, period)`. -/
def queryVessel [DecidableEq I] (store : MemoryPositionStore I) (id : I) (period : Range Date) :
    List (TypedPosition I) :=
  store.items.filter fun p => p.id = id ∧ p.timestamp ∈ period

/-- `queryArea(period, latitudeFrom, latitudeTo, longitudeFrom, longitudeTo)`. -/
def queryArea (store : MemoryPositionStore I) (period : Range Date) (box : Box) :
    List (TypedPosition I) :=
  store.items.filter fun p => p.timestamp ∈ period ∧ box.Contains p.toDefaultPosition

/-- `queryLatest(from)`: a stable sort by the reversed order of the timestamps. -/
def queryLatest (store : MemoryPositionStore I) (fromDate : Date) : List (TypedPosition I) :=
  (store.items.filter fun p => ¬ p.timestamp < fromDate).mergeSort
    fun p q => decide (q.timestamp ≤ p.timestamp)

end MemoryPositionStore

end CwatchBackend
