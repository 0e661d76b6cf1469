import CwatchBackend.Store.MemoryIdentityStore

/-!
# Identity periods as a record of the identity store

`queryIdentityfiers` reads the map of a vessel, and `set` writes it together with the map of the
identifier.  A store that is set from the identity periods of another one, in whatever order, knows
the same identifiers (`identities_from_periods`).

It does not know the same vessels: where an identifier has passed from one vessel to another, the
old store has two vessels that point to it, and it points to the later one.  The new store points to
one of the two, depending on the order, but what it says in the one direction it also says in the
other.
-/

namespace CwatchBackend

open Foundation

namespace MemoryIdentityStore

variable {V I : Type}

/-- The call of `set` that records an identity period of the vessel. -/
def setCallOf (v : V) (ip : DefaultIdentityPeriod I) : SetCall V I := ⟨v, ip.period, ip.id⟩

/-- The calls of `set` that record the identity periods of the vessels within `period`. -/
def periodCalls (store : MemoryIdentityStore V I) (vessels : List V) (period : Range Date) :
    List (SetCall V I) :=
  vessels.flatMap fun v => (store.queryIdentityfiers v period).map (setCallOf v)

variable [DecidableEq V]

/-- What the recorded periods say about the identifier of a vessel. -/
theorem exists_mem_periodCalls {store : MemoryIdentityStore V I} {vessels : List V}
    {period : Range Date} {v : V} {t : Date} {i : I} :
    (∃ c ∈ store.periodCalls vessels period, c.identifierOf v t = some i) ↔
      v ∈ vessels ∧ t ∈ period ∧ store.getIdentifier v t = some i := by
  rw [← exists_mem_queryIdentityfiers]
  constructor
  · rintro ⟨c, hc, hspoken⟩
    obtain ⟨w, hw, hc⟩ := List.mem_flatMap.mp hc
    obtain ⟨ip, hip, rfl⟩ := List.mem_map.mp hc
    obtain ⟨rfl, ht, hi⟩ := SetCall.identifierOf_eq_some.mp hspoken
    exact ⟨hw, ip, hip, hi, ht⟩
  · rintro ⟨hv, ip, hip, hi, ht⟩
    exact ⟨setCallOf v ip, List.mem_flatMap.mpr ⟨v, hv, List.mem_map_of_mem hip⟩,
      SetCall.identifierOf_eq_some.mpr ⟨rfl, ht, hi⟩⟩

variable [DecidableEq I]

/-- A store that is set from the identity periods of the vessels of another one, in any order, knows
the identifiers of these vessels within the period, and no others.  A vessel that it knows for an
identifier has this identifier, and it knows one for every identifier that one of the vessels
has. -/
theorem identities_from_periods (store : MemoryIdentityStore V I) (vessels : List V)
    (period : Range Date) (calls : List (SetCall V I))
    (hcalls : calls.Perm (store.periodCalls vessels period)) :
    (∀ v t, (replay calls).getIdentifier v t =
        if v ∈ vessels ∧ t ∈ period then store.getIdentifier v t else none) ∧
      (∀ v t i, (replay calls).getVessel i t = some v →
        (replay calls).getIdentifier v t = some i) ∧
      ∀ v t i, (replay calls).getIdentifier v t = some i →
        ∃ w, (replay calls).getVessel i t = some w := by
  have hspoken : ∀ v t i, (∃ c ∈ calls, c.identifierOf v t = some i) ↔
      v ∈ vessels ∧ t ∈ period ∧ store.getIdentifier v t = some i := by
    intro v t i
    simp only [hcalls.mem_iff, exists_mem_periodCalls]
  have hknown : ∀ v t i, (replay calls).getIdentifier v t = some i ↔
      ∃ c ∈ calls, c.identifierOf v t = some i := by
    intro v t i
    rw [getIdentifier_replay]
    constructor
    · intro hlast
      obtain ⟨pre, c, post, rfl, hc, -⟩ := lastSome?_eq_some_iff.mp hlast
      exact ⟨c, by simp, hc⟩
    · intro hi
      -- All periods of the vessel that cover the time record its only identifier then.
      refine lastSome?_eq_some_of_agree hi fun d hd j hj => ?_
      have hold := ((hspoken v t i).mp hi).2.2
      have hold' := ((hspoken v t j).mp ⟨d, hd, hj⟩).2.2
      exact Option.some.inj (hold'.symm.trans hold)
  refine ⟨fun v t => Option.ext fun i => ?_, fun v t i hvessel => ?_, fun v t i hi => ?_⟩
  · rw [hknown, hspoken]
    by_cases h : v ∈ vessels ∧ t ∈ period
    · rw [if_pos h]
      exact ⟨fun hi => hi.2.2, fun hi => ⟨h.1, h.2, hi⟩⟩
    · rw [if_neg h]
      exact ⟨fun hi => absurd ⟨hi.1, hi.2.1⟩ h, fun hi => by cases hi⟩
  · rw [getVessel_replay] at hvessel
    obtain ⟨pre, c, post, rfl, hc, -⟩ := lastSome?_eq_some_iff.mp hvessel
    obtain ⟨hi, ht, hv⟩ := SetCall.vesselOf_eq_some.mp hc
    exact (hknown v t i).mpr ⟨c, by simp, SetCall.identifierOf_eq_some.mpr ⟨hv, ht, hi⟩⟩
  · obtain ⟨c, hc, hci⟩ := (hknown v t i).mp hi
    obtain ⟨hv, ht, hid⟩ := SetCall.identifierOf_eq_some.mp hci
    rw [getVessel_replay]
    refine Option.ne_none_iff_exists'.mp fun hnone => ?_
    have hsilent := lastSome?_eq_none_iff.mp hnone c hc
    rw [SetCall.vesselOf_eq_some.mpr ⟨hid, ht, hv⟩] at hsilent
    cases hsilent

/-- The identifier `7` passes from the vessel `1` to the vessel `2`, and the first vessel gets a new
one from the time `100` on, which leaves it pointing to the old one before. -/
def passed : MemoryIdentityStore VesselId Int32 :=
  replay [⟨⟨1⟩, Range.all, 7⟩, ⟨⟨2⟩, Range.all, 7⟩, ⟨⟨1⟩, Range.atLeast ⟨100⟩, 8⟩]

/-- Recorded again with the second vessel first. -/
def passedRecord : List (SetCall VesselId Int32) :=
  [⟨⟨2⟩, Range.all, 7⟩, ⟨⟨1⟩, Range.ofCuts .belowAll (.belowValue ⟨100⟩) (by decide), 7⟩,
    ⟨⟨1⟩, Range.atLeast ⟨100⟩, 8⟩]

/-- The new store knows what the old one knows of the first vessel, and does not contradict
itself. -/
theorem identities_from_periods_passed :
    (∀ t, (replay passedRecord).getIdentifier ⟨1⟩ t = passed.getIdentifier ⟨1⟩ t) ∧
      ∀ v t i, (replay passedRecord).getVessel i t = some v →
        (replay passedRecord).getIdentifier v t = some i := by
  have hcalls : passedRecord.Perm (passed.periodCalls [⟨2⟩, ⟨1⟩] Range.all) :=
    List.Perm.of_eq rfl
  obtain ⟨hidentifier, hvessel, -⟩ :=
    identities_from_periods passed [⟨2⟩, ⟨1⟩] Range.all passedRecord hcalls
  refine ⟨fun t => ?_, hvessel⟩
  rw [hidentifier, if_pos ⟨by decide, Range.mem_all t⟩]

end MemoryIdentityStore

end CwatchBackend
