import CwatchBackend.Foundation.RangeMap
import CwatchBackend.Foundation.Replay
import CwatchBackend.Message

/-!
# The identity store

`store.MemoryIdentityStore`: for every vessel a range map of the identifiers it carried, and for
every identifier a range map of the vessels that carried it.  One call of `set` writes one range
into one map of each kind and never looks at the others.

Both directions are read off the history of `set` calls: `getIdentifier v t` is the identifier of
the last call for `v` whose period contains `t` (`getIdentifier_replay`), and `getVessel i t` is the
vessel of the last call with `i` whose period contains `t` (`getVessel_replay`).
-/

namespace CwatchBackend

open Foundation

/-- `DefaultIdentityPeriod<I>`. -/
structure DefaultIdentityPeriod (I : Type) where
  id : I
  period : Range Date

/-- `MemoryIdentityStore.DateRangeMap`: its range map `lookup`. -/
structure DateRangeMap (T : Type) where
  lookup : TreeRangeMap Date T

namespace DateRangeMap

variable {T : Type}

/-- A new map, as the loaders of the two caches make it. -/
def new : DateRangeMap T := ⟨TreeRangeMap.create⟩

/-- `get(timestamp)`. -/
def get (m : DateRangeMap T) (timestamp : Date) : Option T := m.lookup.get timestamp

/-- `getLatest()`, where `now` is the clock reading of `new Date()`. -/
def getLatest (m : DateRangeMap T) (now : Date) : Option T := m.get now

/-- `queryIdentityfiers(period)`. -/
def queryIdentityfiers (m : DateRangeMap T) (period : Range Date) :
    List (DefaultIdentityPeriod T) :=
  (m.lookup.subRangeMap period).entries.map fun e => { id := e.2, period := e.1 }

/-- `set(period, identifier)`. -/
def set (m : DateRangeMap T) (period : Range Date) (identifier : T) : DateRangeMap T :=
  ⟨m.lookup.put period identifier⟩

@[simp] theorem get_new (t : Date) : (new : DateRangeMap T).get t = none := rfl

/-- An assignment overwrites what its period covers. -/
theorem get_set (m : DateRangeMap T) (period : Range Date) (identifier : T) (t : Date) :
    (m.set period identifier).get t = if t ∈ period then some identifier else m.get t :=
  m.lookup.get_put period identifier t

end DateRangeMap

/-- `MemoryIdentityStore<V, I>`.  The caches load a new map on the first access to a key, so each
of them is a map for every key. -/
structure MemoryIdentityStore (V I : Type) where
  vesselToId : V → DateRangeMap I
  idToVessel : I → DateRangeMap V

namespace MemoryIdentityStore

variable {V I : Type}

/-- A new store. -/
def new : MemoryIdentityStore V I := ⟨fun _ => .new, fun _ => .new⟩

/-- `queryIdentityfiers(vessel, period)`. -/
def queryIdentityfiers (store : MemoryIdentityStore V I) (vessel : V) (period : Range Date) :
    List (DefaultIdentityPeriod I) :=
  (store.vesselToId vessel).queryIdentityfiers period

/-- `getIdentifier(vessel, timestamp)`. -/
def getIdentifier (store : MemoryIdentityStore V I) (vessel : V) (timestamp : Date) : Option I :=
  (store.vesselToId vessel).get timestamp

/-- `getVessel(identifier, timestamp)`. -/
def getVessel (store : MemoryIdentityStore V I) (identifier : I) (timestamp : Date) : Option V :=
  (store.idToVessel identifier).get timestamp

/-- `getLatestVessel(identifier)` at the clock reading `now`. -/
def getLatestVessel (store : MemoryIdentityStore V I) (identifier : I) (now : Date) : Option V :=
  (store.idToVessel identifier).getLatest now

/-- A call of `set`. -/
structure SetCall (V I : Type) where
  vessel : V
  period : Range Date
  identifier : I

variable [DecidableEq V] [DecidableEq I]

/-- `set(vessel, period, identifier)`. -/
def set (store : MemoryIdentityStore V I) (call : SetCall V I) : MemoryIdentityStore V I where
  vesselToId := Function.update store.vesselToId call.vessel
    ((store.vesselToId call.vessel).set call.period call.identifier)
  idToVessel := Function.update store.idToVessel call.identifier
    ((store.idToVessel call.identifier).set call.period call.vessel)

/-- The store after the calls, oldest first. -/
def replay (calls : List (SetCall V I)) : MemoryIdentityStore V I := calls.foldl set new

/-! ### The history behind a store -/

/-- What a call says about the identifier of `v` at `t`. -/
def SetCall.identifierOf (v : V) (t : Date) (call : SetCall V I) : Option I :=
  if call.vessel = v ∧ t ∈ call.period then some call.identifier else none

/-- What a call says about the vessel that carries `i` at `t`. -/
def SetCall.vesselOf (i : I) (t : Date) (call : SetCall V I) : Option V :=
  if call.identifier = i ∧ t ∈ call.period then some call.vessel else none

/-- The identifier assigned by the last call for `v` whose period contains `t`. -/
def lastIdentifier (calls : List (SetCall V I)) (v : V) (t : Date) : Option I :=
  lastSome? (SetCall.identifierOf v t) calls

/-- The vessel assigned by the last call with `i` whose period contains `t`. -/
def lastVessel (calls : List (SetCall V I)) (i : I) (t : Date) : Option V :=
  lastSome? (SetCall.vesselOf i t) calls

omit [DecidableEq I] in
/-- A call says `i` about `v` at `t` if it assigns `i` to `v` over a period containing `t`. -/
theorem SetCall.identifierOf_eq_some {v : V} {t : Date} {call : SetCall V I} {i : I} :
    call.identifierOf v t = some i ↔ call.vessel = v ∧ t ∈ call.period ∧ call.identifier = i := by
  simp [identifierOf, and_assoc]

omit [DecidableEq V] in
/-- A call says `v` about `i` at `t` if it assigns `i` to `v` over a period containing `t`. -/
theorem SetCall.vesselOf_eq_some {i : I} {t : Date} {call : SetCall V I} {v : V} :
    call.vesselOf i t = some v ↔ call.identifier = i ∧ t ∈ call.period ∧ call.vessel = v := by
  simp [vesselOf, and_assoc]

/-- One call in the direction from vessels to identifiers. -/
theorem getIdentifier_set (store : MemoryIdentityStore V I) (call : SetCall V I) (v : V)
    (t : Date) : (store.set call).getIdentifier v t =
      (call.identifierOf v t).or (store.getIdentifier v t) := by
  unfold getIdentifier set SetCall.identifierOf
  dsimp only
  by_cases hv : call.vessel = v
  · subst hv
    rw [Function.update_self, DateRangeMap.get_set]
    split <;> simp [*]
  · rw [Function.update_of_ne (Ne.symm hv), if_neg fun h => hv h.1, Option.none_or]

/-- One call in the direction from identifiers to vessels. -/
theorem getVessel_set (store : MemoryIdentityStore V I) (call : SetCall V I) (i : I) (t : Date) :
    (store.set call).getVessel i t = (call.vesselOf i t).or (store.getVessel i t) := by
  unfold getVessel set SetCall.vesselOf
  dsimp only
  by_cases hi : call.identifier = i
  · subst hi
    rw [Function.update_self, DateRangeMap.get_set]
    split <;> simp [*]
  · rw [Function.update_of_ne (Ne.symm hi), if_neg fun h => hi h.1, Option.none_or]

/-- `getIdentifier` answers with the last call for the vessel that covers the time. -/
theorem getIdentifier_replay (calls : List (SetCall V I)) (v : V) (t : Date) :
    (replay calls).getIdentifier v t = lastIdentifier calls v t := by
  have hread := read_foldl (fun store : MemoryIdentityStore V I => store.getIdentifier v t)
    (fun store call => getIdentifier_set store call v t) new calls
  exact hread.trans Option.or_none

/-- `getVessel` answers with the last call with the identifier that covers the time. -/
theorem getVessel_replay (calls : List (SetCall V I)) (i : I) (t : Date) :
    (replay calls).getVessel i t = lastVessel calls i t := by
  have hread := read_foldl (fun store : MemoryIdentityStore V I => store.getVessel i t)
    (fun store call => getVessel_set store call i t) new calls
  exact hread.trans Option.or_none

/-! ### The identity periods of a vessel -/

omit [DecidableEq V] [DecidableEq I] in
/-- The identity periods of a vessel within `period` tell its identifier at every time of
`period`, and at no other time. -/
theorem exists_mem_queryIdentityfiers {store : MemoryIdentityStore V I} {v : V}
    {period : Range Date} {t : Date} {i : I} :
    (∃ ip ∈ store.queryIdentityfiers v period, ip.id = i ∧ t ∈ ip.period) ↔
      t ∈ period ∧ store.getIdentifier v t = some i := by
  rw [getIdentifier, DateRangeMap.get, ← TreeRangeMap.mem_subRangeMap]
  simp only [queryIdentityfiers, DateRangeMap.queryIdentityfiers, List.mem_map]
  constructor
  · rintro ⟨_, ⟨e, he, rfl⟩, rfl, ht⟩
    exact ⟨e.1, he, ht⟩
  · rintro ⟨r, hr, ht⟩
    exact ⟨_, ⟨(r, i), hr, rfl⟩, rfl, ht⟩

omit [DecidableEq V] [DecidableEq I] in
/-- Each identity period of a vessel ends where the next one starts, or earlier. -/
theorem queryIdentityfiers_ascending (store : MemoryIdentityStore V I) (v : V)
    (period : Range Date) :
    (store.queryIdentityfiers v period).Pairwise fun ip ip' =>
      ip.period.upperBound ≤ ip'.period.lowerBound :=
  List.pairwise_map.mpr ((store.vesselToId v).lookup.subRangeMap period).ascending

omit [DecidableEq V] [DecidableEq I] in
/-- No two identity periods of a vessel overlap. -/
theorem queryIdentityfiers_disjoint (store : MemoryIdentityStore V I) (v : V)
    (period : Range Date) :
    (store.queryIdentityfiers v period).Pairwise fun ip ip' =>
      ∀ t ∈ ip.period, t ∉ ip'.period := by
  refine (store.queryIdentityfiers_ascending v period).imp ?_
  intro ip ip' hle t ht
  exact Range.disjoint_of_le hle ht

end MemoryIdentityStore

end CwatchBackend
