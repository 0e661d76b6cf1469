import CwatchBackend.Store.MemoryIdentityStore

/-!
# The two directions of the identity store

A call `set(v, period, i)` makes `v` and `i` point to each other on `period`.  A later call for `v`
with another identifier redirects `v` but not `i`, and a later call with `i` for another vessel
redirects `i` but not `v`: the map that the call does not write keeps what it had.  So `v` and `i`
agree about each other at `t` exactly when, after the last call that paired them at `t`, either both
of them were redirected at `t` or none (`directions_agree_iff`).
-/

namespace CwatchBackend

namespace MemoryIdentityStore

open Foundation

variable {V I : Type} [DecidableEq V] [DecidableEq I]

/-- The call makes `v` and `i` point to each other at `t`. -/
def SetCall.Pairs (v : V) (i : I) (t : Date) (call : SetCall V I) : Prop :=
  call.vessel = v ∧ call.identifier = i ∧ t ∈ call.period

instance (v : V) (i : I) (t : Date) : DecidablePred (SetCall.Pairs v i t) :=
  fun _ => inferInstanceAs (Decidable (_ ∧ _))

/-- The two directions agree about whether `v` carries `i` at `t`. -/
def DirectionsAgree (store : MemoryIdentityStore V I) (v : V) (i : I) (t : Date) : Prop :=
  store.getIdentifier v t = some i ↔ store.getVessel i t = some v

/-- Without a call that paired them, neither points to the other. -/
theorem directionsAgree_of_unpaired {calls : List (SetCall V I)} {v : V} {i : I} {t : Date}
    (h : ∀ c ∈ calls, ¬ c.Pairs v i t) : DirectionsAgree (replay calls) v i t := by
  rw [DirectionsAgree, getIdentifier_replay, getVessel_replay, lastIdentifier, lastVessel,
    lastSome?_eq_some_iff, lastSome?_eq_some_iff]
  constructor
  · rintro ⟨_, c, _, rfl, hc, -⟩
    obtain ⟨hv, ht, hi⟩ := SetCall.identifierOf_eq_some.mp hc
    exact absurd ⟨hv, hi, ht⟩ (h c (by simp))
  · rintro ⟨_, c, _, rfl, hc, -⟩
    obtain ⟨hi, ht, hv⟩ := SetCall.vesselOf_eq_some.mp hc
    exact absurd ⟨hv, hi, ht⟩ (h c (by simp))

/-- Since the last call that paired them, `v` still points to `i` exactly when no call for `v` has
covered `t`. -/
theorem getIdentifier_iff_of_paired {pre post : List (SetCall V I)} {c : SetCall V I} {v : V}
    {i : I} {t : Date} (hc : c.Pairs v i t) (hpost : ∀ d ∈ post, ¬ d.Pairs v i t) :
    (replay (pre ++ c :: post)).getIdentifier v t = some i ↔
      ¬ ∃ d ∈ post, d.vessel = v ∧ t ∈ d.period := by
  rw [getIdentifier_replay, lastIdentifier, lastSome?_append_cons_eq_some_iff]
  · simp [SetCall.identifierOf]
  · exact SetCall.identifierOf_eq_some.mpr ⟨hc.1, hc.2.2, hc.2.1⟩
  · intro d hd h
    obtain ⟨hv, ht, hi⟩ := SetCall.identifierOf_eq_some.mp h
    exact hpost d hd ⟨hv, hi, ht⟩

/-- Since the last call that paired them, `i` still points to `v` exactly when no call with `i` has
covered `t`. -/
theorem getVessel_iff_of_paired {pre post : List (SetCall V I)} {c : SetCall V I} {v : V}
    {i : I} {t : Date} (hc : c.Pairs v i t) (hpost : ∀ d ∈ post, ¬ d.Pairs v i t) :
    (replay (pre ++ c :: post)).getVessel i t = some v ↔
      ¬ ∃ d ∈ post, d.identifier = i ∧ t ∈ d.period := by
  rw [getVessel_replay, lastVessel, lastSome?_append_cons_eq_some_iff]
  · simp [SetCall.vesselOf]
  · exact SetCall.vesselOf_eq_some.mpr ⟨hc.2.1, hc.2.2, hc.1⟩
  · intro d hd h
    obtain ⟨hi, ht, hv⟩ := SetCall.vesselOf_eq_some.mp h
    exact hpost d hd ⟨hv, hi, ht⟩

/-- The two directions agree about `v` and `i` at `t` if and only if, after the last call that
paired them at `t`, a call for `v` has covered `t` exactly when a call with `i` has. -/
theorem directions_agree_iff (calls : List (SetCall V I)) (v : V) (i : I) (t : Date) :
    DirectionsAgree (replay calls) v i t ↔
      ∀ pre c post, calls = pre ++ c :: post → c.Pairs v i t →
        (∀ d ∈ post, ¬ d.Pairs v i t) →
        ((∃ d ∈ post, d.vessel = v ∧ t ∈ d.period) ↔
          ∃ d ∈ post, d.identifier = i ∧ t ∈ d.period) := by
  constructor
  · rintro hagree pre c post rfl hc hpost
    rw [DirectionsAgree, getIdentifier_iff_of_paired hc hpost,
      getVessel_iff_of_paired hc hpost] at hagree
    exact not_iff_not.mp hagree
  · intro h
    by_cases hpaired : ∃ c ∈ calls, c.Pairs v i t
    · obtain ⟨pre, c, post, rfl, hc, hpost⟩ := exists_last_of_exists hpaired
      rw [DirectionsAgree, getIdentifier_iff_of_paired hc hpost, getVessel_iff_of_paired hc hpost]
      exact not_congr (h pre c post rfl hc hpost)
    · push Not at hpaired
      exact directionsAgree_of_unpaired hpaired

/-- An identifier that passes to another vessel leaves the first vessel pointing to it. -/
theorem directions_disagree_after_passing :
    ¬ DirectionsAgree (replay [(⟨⟨1⟩, Range.all, 7⟩ : SetCall VesselId Int32),
      ⟨⟨2⟩, Range.all, 7⟩]) ⟨1⟩ 7 ⟨0⟩ := by
  rw [DirectionsAgree, getIdentifier_replay, getVessel_replay]
  decide

end MemoryIdentityStore

end CwatchBackend
