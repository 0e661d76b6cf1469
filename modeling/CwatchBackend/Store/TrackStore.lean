import CwatchBackend.Store.MemoryIdentityStore
import CwatchBackend.Store.MapdbPositionStore
import CwatchBackend.Store.MemoryPositionStore

/-!
# Tracks

`store.SingleSourceTrackStore` walks the identity periods of a vessel and asks a position store for
each of them; `store.CompositeTrackStore` concatenates the tracks of several track stores.

A track is a join (`queryTrack_perm`): if the position store answers each of the walked periods
with the stored positions that it contains, then the track consists, each stored occurrence once, of
the positions stamped within the query period whose identifier is the one that the vessel was last
assigned at that time.  `MemoryPositionStore` answers so by definition
(`track_joins_identity_history`).
-/

namespace CwatchBackend

open Foundation
open scoped List

/-- `DefaultPositionStore<I, P>`, as far as positions are saved one by one and tracks are queried;
a `null` element of the answer is `none`. -/
class DefaultPositionStore (S : Type) (I : outParam Type) where
  save : S → TypedPosition I → S
  queryVessel : S → I → Range Date → List (Option (TypedPosition I))

instance {I : Type} [DecidableEq I] : DefaultPositionStore (MemoryPositionStore I) I where
  save := MemoryPositionStore.save
  queryVessel store id period := (store.queryVessel id period).map some

instance {I : Type} [LinearOrder I] : DefaultPositionStore (MapdbPositionStore I) I where
  save := MapdbPositionStore.save
  queryVessel := MapdbPositionStore.queryVessel

/-- `DelegatingTrackElement<P>`: every reading of the element is that of its delegate. -/
structure DelegatingTrackElement (P : Type) where
  delegate : Option P
  deriving DecidableEq

/-- `SingleSourceTrackStore<V, I, P>` over a position store of type `S`. -/
structure SingleSourceTrackStore (V I S : Type) where
  identityStore : MemoryIdentityStore V I
  positionStore : S

namespace SingleSourceTrackStore

variable {V I S : Type}

/-- `createElement(position)`. -/
def createElement {P : Type} (position : Option P) : DelegatingTrackElement P := ⟨position⟩

/-- `queryTrack(vessel, period)`. -/
def queryTrack [DefaultPositionStore S I] (store : SingleSourceTrackStore V I S) (vessel : V)
    (period : Range Date) : List (DelegatingTrackElement (TypedPosition I)) :=
  (store.identityStore.queryIdentityfiers vessel period).flatMap fun ip =>
    (DefaultPositionStore.queryVessel store.positionStore ip.id ip.period).map createElement

/-- The track whose elements delegate to the given positions. -/
def track (positions : List (TypedPosition I)) :
    List (DelegatingTrackElement (TypedPosition I)) :=
  positions.map fun p => { delegate := some p }

/-- A position is on the track if it is one of the positions. -/
theorem mem_track_iff {positions : List (TypedPosition I)} {p : TypedPosition I} :
    { delegate := some p } ∈ track positions ↔ p ∈ positions := by
  simp [track]

variable [DecidableEq I]

/-- If the position store answers every identity period of the vessel with the positions it
contains, the track joins the identity history with the stored positions. -/
theorem queryTrack_perm [DefaultPositionStore S I] {store : SingleSourceTrackStore V I S}
    {items : List (TypedPosition I)} {vessel : V} {period : Range Date}
    (hquery : ∀ ip ∈ store.identityStore.queryIdentityfiers vessel period,
      (DefaultPositionStore.queryVessel store.positionStore ip.id ip.period).Perm
        ((items.filter fun p => p.id = ip.id ∧ p.timestamp ∈ ip.period).map some)) :
    (store.queryTrack vessel period).Perm (track (items.filter fun p => p.timestamp ∈ period ∧
      store.identityStore.getIdentifier vessel p.timestamp = some p.id)) := by
  -- The periods pick disjoint parts of the stored positions.
  have hdisjoint : (store.identityStore.queryIdentityfiers vessel period).Pairwise fun ip ip' =>
      ∀ p : TypedPosition I, decide (p.id = ip.id ∧ p.timestamp ∈ ip.period) = true →
        decide (p.id = ip'.id ∧ p.timestamp ∈ ip'.period) = false := by
    refine (store.identityStore.queryIdentityfiers_disjoint vessel period).imp fun h p hp => ?_
    have hp := of_decide_eq_true hp
    exact decide_eq_false fun hp' => h p.timestamp hp.2 hp'.2
  have hpick : ∀ p : TypedPosition I,
      ((store.identityStore.queryIdentityfiers vessel period).any fun ip =>
        decide (p.id = ip.id ∧ p.timestamp ∈ ip.period)) =
      decide (p.timestamp ∈ period ∧
        store.identityStore.getIdentifier vessel p.timestamp = some p.id) := by
    intro p
    rw [Bool.eq_iff_iff, List.any_eq_true, decide_eq_true_eq,
      ← MemoryIdentityStore.exists_mem_queryIdentityfiers]
    simp only [decide_eq_true_eq, eq_comm (a := p.id)]
  calc store.queryTrack vessel period
    _ = ((store.identityStore.queryIdentityfiers vessel period).flatMap fun ip =>
          DefaultPositionStore.queryVessel store.positionStore ip.id ip.period).map
            createElement := by
        rw [List.map_flatMap, queryTrack]
    _ ~ ((store.identityStore.queryIdentityfiers vessel period).flatMap fun ip =>
          (items.filter fun p => p.id = ip.id ∧ p.timestamp ∈ ip.period).map some).map
            createElement := (List.Perm.flatMap_left _ hquery).map _
    _ = track ((store.identityStore.queryIdentityfiers vessel period).flatMap fun ip =>
          items.filter fun p => p.id = ip.id ∧ p.timestamp ∈ ip.period) := by
        rw [← List.map_flatMap, List.map_map]
        rfl
    _ ~ track (items.filter fun p => p.timestamp ∈ period ∧
          store.identityStore.getIdentifier vessel p.timestamp = some p.id) := by
        have hgather := flatMap_filter_perm hdisjoint items
        simp only [hpick] at hgather
        exact hgather.map _

/-- A `MemoryPositionStore` answers every period with the stored positions it contains. -/
theorem queryTrack_memory_perm (identityStore : MemoryIdentityStore V I)
    (positions : MemoryPositionStore I) (vessel : V) (period : Range Date) :
    (queryTrack ⟨identityStore, positions⟩ vessel period).Perm
      (track (positions.items.filter fun p => p.timestamp ∈ period ∧
        identityStore.getIdentifier vessel p.timestamp = some p.id)) :=
  queryTrack_perm fun _ _ => List.Perm.refl _

/-- Over a `MemoryPositionStore` the track of a vessel consists, each stored occurrence once, of the
positions stamped within the period with the identifier that the last `set` call for the vessel
covering their time assigned. -/
theorem track_joins_identity_history [DecidableEq V]
    (calls : List (MemoryIdentityStore.SetCall V I)) (positions : MemoryPositionStore I)
    (vessel : V) (period : Range Date) :
    (queryTrack ⟨MemoryIdentityStore.replay calls, positions⟩ vessel period).Perm
      (track (positions.items.filter fun p => p.timestamp ∈ period ∧
        MemoryIdentityStore.lastIdentifier calls vessel p.timestamp = some p.id)) := by
  simp only [← MemoryIdentityStore.getIdentifier_replay]
  exact queryTrack_memory_perm (MemoryIdentityStore.replay calls) positions vessel period

end SingleSourceTrackStore

end CwatchBackend
