import CwatchBackend.Store.MemoryIdentityStore
import Mathlib.Data.List.Sort

/-!
# The identity generator

`test.IdentityGenerator`: every vessel gets an identifier for all times and then, at random dates in
ascending order, a new identifier from each date on.

A generated history gives every generated vessel an identifier at every time
(`exists_getIdentifier`), and every period of it contains its lower endpoint and not its upper one
(`halfOpen_of_mem_queryIdentityfiers`).  If the ids of the vessels are distinct, the identifier at a
time is the one made for the last change that is not later, in sorted order, whatever the store held
before (`getIdentifier_generate`).
-/

namespace CwatchBackend

open Foundation MemoryIdentityStore

/-- `IdentityGenerator<V>`. -/
structure IdentityGenerator (V : Type) where
  vesselCount : ℕ
  changeCount : ℕ
  vesselIdFunction : ℕ → V

/-- The random dates drawn in one run of `generate`, and the identifiers answered by the
`identityFunction` of that run.  The first argument is the place of the vessel in `getVessels`, the
second one counts the draws or the answers for this vessel. -/
structure Outcome (V I : Type) where
  nextDate : ℕ → ℕ → Date
  identityFunction : ℕ → ℕ → V → Option Date → I

namespace IdentityGenerator

variable {V I : Type}

/-- `IdentityGenerator.newInstance()` with the given counts. -/
def newInstance (vesselCount changeCount : ℕ) : IdentityGenerator VesselId where
  vesselCount := vesselCount
  changeCount := changeCount
  vesselIdFunction n := ⟨Int32.ofNat n⟩

/-- `getVessels()`: the vessels numbered `1` to `vesselCount`. -/
def getVessels (generator : IdentityGenerator V) : List V :=
  (List.range generator.vesselCount).map fun n => generator.vesselIdFunction (n + 1)

/-- The change dates of a vessel, sorted. -/
def changeDates (generator : IdentityGenerator V) (nextDate : ℕ → Date) : List Date :=
  ((List.range generator.changeCount).map nextDate).insertionSort (· ≤ ·)

/-- The calls of `set` for one vessel. -/
def vesselCalls (generator : IdentityGenerator V) (nextDate : ℕ → Date)
    (identityFunction : ℕ → V → Option Date → I) (vessel : V) : List (SetCall V I) :=
  { vessel := vessel, period := Range.all, identifier := identityFunction 0 vessel none } ::
    ((generator.changeDates nextDate).zipIdx 1).map fun change =>
      { vessel := vessel
        period := Range.atLeast change.1
        identifier := identityFunction change.2 vessel (some change.1) }

/-- The calls of `set` in a run of `generate`. -/
def generateCalls (generator : IdentityGenerator V) (outcome : Outcome V I) :
    List (SetCall V I) :=
  generator.getVessels.zipIdx.flatMap fun v =>
    generator.vesselCalls (outcome.nextDate v.2) (outcome.identityFunction v.2) v.1

/-- `generate(store, identityFunction)`. -/
def generate [DecidableEq V] [DecidableEq I] (generator : IdentityGenerator V)
    (outcome : Outcome V I) (store : MemoryIdentityStore V I) : MemoryIdentityStore V I :=
  (generator.generateCalls outcome).foldl set store

/-- No identifier is given to two vessels. -/
def Exclusive (calls : List (SetCall V I)) : Prop :=
  ∀ c ∈ calls, ∀ d ∈ calls, c.identifier = d.identifier → c.vessel = d.vessel

instance [DecidableEq V] [DecidableEq I] (calls : List (SetCall V I)) :
    Decidable (Exclusive calls) :=
  inferInstanceAs (Decidable (∀ c ∈ calls, ∀ d ∈ calls,
    c.identifier = d.identifier → c.vessel = d.vessel))

/-- The last change of a vessel that is not after `t`, in sorted order, and its number. -/
def lastChange (generator : IdentityGenerator V) (nextDate : ℕ → Date) (t : Date) :
    Option (Date × ℕ) :=
  (((generator.changeDates nextDate).zipIdx 1).filter fun change => change.1 ≤ t).getLast?

/-- The identifier produced for the last change that is not after `t`, or the initial one. -/
def identifierAt (generator : IdentityGenerator V) (nextDate : ℕ → Date)
    (identityFunction : ℕ → V → Option Date → I) (vessel : V) (t : Date) : I :=
  match generator.lastChange nextDate t with
  | some change => identityFunction change.2 vessel (some change.1)
  | none => identityFunction 0 vessel none

/-- The change dates are the drawn dates. -/
theorem changeDates_perm (generator : IdentityGenerator V) (nextDate : ℕ → Date) :
    (generator.changeDates nextDate).Perm ((List.range generator.changeCount).map nextDate) :=
  List.perm_insertionSort _ _

/-- The change dates ascend. -/
theorem changeDates_pairwise (generator : IdentityGenerator V) (nextDate : ℕ → Date) :
    (generator.changeDates nextDate).Pairwise (· ≤ ·) :=
  List.pairwise_insertionSort _ _

/-! ### What a run of the generator leaves behind -/

/-- Every generated vessel is assigned an identifier for all times. -/
theorem exists_call_of_mem_getVessels {generator : IdentityGenerator V} (outcome : Outcome V I)
    {v : V} (hv : v ∈ generator.getVessels) :
    ∃ c ∈ generator.generateCalls outcome, c.vessel = v ∧ c.period = Range.all := by
  obtain ⟨n, hn, rfl⟩ := List.mem_iff_getElem.mp hv
  refine ⟨_, List.mem_flatMap.mpr ⟨(generator.getVessels[n], n), ?_, List.mem_cons_self⟩, rfl, rfl⟩
  exact List.mem_zipIdx_iff_getElem?.mpr (List.getElem?_eq_getElem hn)

/-- The periods of the calls are the whole time line and half-lines with their endpoint. -/
theorem period_of_mem_generateCalls {generator : IdentityGenerator V} {outcome : Outcome V I}
    {c : SetCall V I} (hc : c ∈ generator.generateCalls outcome) :
    c.period = Range.all ∨ ∃ date, c.period = Range.atLeast date := by
  obtain ⟨v, -, hc⟩ := List.mem_flatMap.mp hc
  rcases List.mem_cons.mp hc with rfl | hc
  · exact Or.inl rfl
  · obtain ⟨change, -, rfl⟩ := List.mem_map.mp hc
    exact Or.inr ⟨change.1, rfl⟩

variable [DecidableEq V] [DecidableEq I]

/-- A generated vessel has an identifier at every time. -/
theorem exists_getIdentifier {generator : IdentityGenerator V} (outcome : Outcome V I) {v : V}
    (hv : v ∈ generator.getVessels) (t : Date) :
    ∃ i, (generator.generate outcome new).getIdentifier v t = some i := by
  obtain ⟨c, hc, hcv, hperiod⟩ := exists_call_of_mem_getVessels outcome hv
  refine Option.ne_none_iff_exists'.mp fun hnone => ?_
  have hlast : lastIdentifier (generator.generateCalls outcome) v t = none := by
    rw [← getIdentifier_replay]
    exact hnone
  have hsilent := lastSome?_eq_none_iff.mp hlast c hc
  rw [SetCall.identifierOf, if_pos ⟨hcv, hperiod ▸ Range.mem_all t⟩] at hsilent
  exact absurd hsilent (Option.some_ne_none _)

/-- Where no identifier is given to two vessels, vessels with one identifier are equal. -/
theorem eq_of_getIdentifier_eq {generator : IdentityGenerator V} {outcome : Outcome V I}
    (hexclusive : Exclusive (generator.generateCalls outcome)) {v w : V} {t u : Date} {i : I}
    (hv : (generator.generate outcome new).getIdentifier v t = some i)
    (hw : (generator.generate outcome new).getIdentifier w u = some i) : v = w := by
  have hcall : ∀ {v t}, (generator.generate outcome new).getIdentifier v t = some i →
      ∃ c ∈ generator.generateCalls outcome, c.vessel = v ∧ c.identifier = i := by
    intro v t h
    have hlast : lastIdentifier (generator.generateCalls outcome) v t = some i := by
      rw [← getIdentifier_replay]
      exact h
    obtain ⟨_, c, _, hcalls, hc, -⟩ := lastSome?_eq_some_iff.mp hlast
    obtain ⟨hcv, -, hci⟩ := SetCall.identifierOf_eq_some.mp hc
    exact ⟨c, by simp [hcalls], hcv, hci⟩
  obtain ⟨c, hc, rfl, hci⟩ := hcall hv
  obtain ⟨d, hd, rfl, hdi⟩ := hcall hw
  exact hexclusive c hc d hd (hci.trans hdi.symm)

/-! ### The identifier at a time -/

omit [DecidableEq I] in
/-- The calls for a vessel say at every time the identifier of the last change before it. -/
theorem lastIdentifier_vesselCalls (generator : IdentityGenerator V) (nextDate : ℕ → Date)
    (identityFunction : ℕ → V → Option Date → I) (v : V) (t : Date) :
    lastIdentifier (generator.vesselCalls nextDate identityFunction v) v t =
      some (generator.identifierAt nextDate identityFunction v t) := by
  -- The initial identifier is assigned for all times, each change from its date on.
  have hinitial : SetCall.identifierOf v t
      ⟨v, Range.all, identityFunction 0 v none⟩ = some (identityFunction 0 v none) := by
    simp [SetCall.identifierOf]
  have hchange : (SetCall.identifierOf v t ∘ fun change : Date × ℕ =>
        (⟨v, Range.atLeast change.1, identityFunction change.2 v (some change.1)⟩ : SetCall V I)) =
      fun change => if change.1 ≤ t then some (identityFunction change.2 v (some change.1))
        else none := by
    funext change
    simp [SetCall.identifierOf]
  rw [vesselCalls, ← List.singleton_append, lastIdentifier, lastSome?_append, lastSome?_map,
    hchange, lastSome?_ite, ← List.nil_append [_], lastSome?_concat, hinitial, Option.some_or,
    identifierAt, lastChange]
  cases (((generator.changeDates nextDate).zipIdx 1).filter fun change => change.1 ≤ t).getLast? <;>
    rfl

omit [DecidableEq I] in
/-- The calls for a vessel say nothing about the others. -/
theorem identifierOf_of_mem_vesselCalls {generator : IdentityGenerator V} {nextDate : ℕ → Date}
    {identityFunction : ℕ → V → Option Date → I} {w v : V} (hne : w ≠ v) {c : SetCall V I}
    (hc : c ∈ generator.vesselCalls nextDate identityFunction w) (t : Date) :
    c.identifierOf v t = none := by
  have hvessel : c.vessel = w := by
    rcases List.mem_cons.mp hc with rfl | hc
    · rfl
    · obtain ⟨change, -, rfl⟩ := List.mem_map.mp hc
      rfl
  rw [SetCall.identifierOf, if_neg]
  rintro ⟨hv, -⟩
  exact hne (hvessel.symm.trans hv)

omit [DecidableEq I] in
/-- If the vessels are distinct, a run of the generator says about the vessel at place `n` what the
calls for it say. -/
theorem lastIdentifier_generateCalls {generator : IdentityGenerator V}
    (hdistinct : generator.getVessels.Nodup) (outcome : Outcome V I) {n : ℕ} {v : V}
    (hv : generator.getVessels[n]? = some v) (t : Date) :
    lastIdentifier (generator.generateCalls outcome) v t =
      some (generator.identifierAt (outcome.nextDate n) (outcome.identityFunction n) v t) := by
  have hplaces : generator.getVessels.zipIdx.Pairwise fun a b => a.1 ≠ b.1 := by
    refine List.pairwise_map.mp ?_
    rw [List.zipIdx_map_fst]
    exact hdistinct
  have hmem : (v, n) ∈ generator.getVessels.zipIdx := List.mem_zipIdx_iff_getElem?.mpr hv
  obtain ⟨pre, post, hsplit⟩ := List.append_of_mem hmem
  rw [hsplit] at hplaces
  obtain ⟨-, hrest, hcross⟩ := List.pairwise_append.mp hplaces
  obtain ⟨hpost, -⟩ := List.pairwise_cons.mp hrest
  rw [generateCalls, hsplit, List.flatMap_append, List.flatMap_cons, lastIdentifier,
    lastSome?_middle]
  · exact generator.lastIdentifier_vesselCalls (outcome.nextDate n) (outcome.identityFunction n) v t
  · intro c hc
    obtain ⟨w, hw, hc⟩ := List.mem_flatMap.mp hc
    exact identifierOf_of_mem_vesselCalls (hcross w hw (v, n) List.mem_cons_self) hc t
  · intro c hc
    obtain ⟨w, hw, hc⟩ := List.mem_flatMap.mp hc
    exact identifierOf_of_mem_vesselCalls (hpost w hw).symm hc t

omit [DecidableEq I] in
/-- A run of the generator says nothing about other vessels. -/
theorem lastIdentifier_generateCalls_of_notMem {generator : IdentityGenerator V}
    (outcome : Outcome V I) {v : V} (hv : v ∉ generator.getVessels) (t : Date) :
    lastIdentifier (generator.generateCalls outcome) v t = none := by
  refine lastSome?_eq_none_iff.mpr fun c hc => ?_
  obtain ⟨w, hw, hc⟩ := List.mem_flatMap.mp hc
  have hwv : w.1 ≠ v := by
    rintro rfl
    exact hv (List.fst_mem_of_mem_zipIdx hw)
  exact identifierOf_of_mem_vesselCalls hwv hc t

/-- If the ids of the vessels are distinct, then after a run of the generator over any store the
identifier of every generated vessel is defined at every time and is the one produced for its last
change that is not later, in sorted order, or the initial one; the other vessels keep their
identifiers.  The changes of a vessel are its drawn dates in ascending order. -/
theorem getIdentifier_generate (generator : IdentityGenerator V)
    (hdistinct : generator.getVessels.Nodup) (outcome : Outcome V I)
    (store : MemoryIdentityStore V I) :
    (∀ n v, generator.getVessels[n]? = some v → ∀ t,
        (generator.generate outcome store).getIdentifier v t =
          some (generator.identifierAt (outcome.nextDate n) (outcome.identityFunction n) v t)) ∧
      (∀ v, v ∉ generator.getVessels → ∀ t,
        (generator.generate outcome store).getIdentifier v t = store.getIdentifier v t) ∧
      ∀ n, (generator.changeDates (outcome.nextDate n)).Pairwise (· ≤ ·) ∧
        (generator.changeDates (outcome.nextDate n)).Perm
          ((List.range generator.changeCount).map (outcome.nextDate n)) := by
  have hread : ∀ v t, (generator.generate outcome store).getIdentifier v t =
      (lastIdentifier (generator.generateCalls outcome) v t).or (store.getIdentifier v t) := by
    intro v t
    exact read_foldl (fun store : MemoryIdentityStore V I => store.getIdentifier v t)
      (fun store call => getIdentifier_set store call v t) store _
  refine ⟨?_, ?_, fun n => ⟨changeDates_pairwise _ _, changeDates_perm _ _⟩⟩
  · intro n v hv t
    rw [hread, lastIdentifier_generateCalls hdistinct outcome hv, Option.some_or]
  · intro v hv t
    rw [hread, lastIdentifier_generateCalls_of_notMem outcome hv, Option.none_or]

/-- Two vessels with the change dates `30`, `10`, `10` each, generated over a store that knows one
of them and a third one. -/
theorem getIdentifier_generate_two :
    let generator := newInstance 2 3
    let outcome : Outcome VesselId Int32 :=
      { nextDate := fun _ c => if c = 0 then ⟨30⟩ else ⟨10⟩
        identityFunction := fun n k _ _ => Int32.ofNat (10 * n + k) }
    let store : MemoryIdentityStore VesselId Int32 :=
      replay [⟨⟨2⟩, Range.all, 77⟩, ⟨⟨9⟩, Range.atLeast ⟨0⟩, 88⟩]
    (generator.generate outcome store).getIdentifier ⟨2⟩ ⟨0⟩ = some 10 ∧
      (generator.generate outcome store).getIdentifier ⟨2⟩ ⟨10⟩ = some 12 ∧
      (generator.generate outcome store).getIdentifier ⟨2⟩ ⟨50⟩ = some 13 ∧
      (generator.generate outcome store).getIdentifier ⟨9⟩ ⟨50⟩ = some 88 := by
  intro generator outcome store
  obtain ⟨hgenerated, hothers, -⟩ := getIdentifier_generate generator (by decide) outcome store
  refine ⟨?_, ?_, ?_, ?_⟩
  · exact (hgenerated 1 ⟨2⟩ (by decide) ⟨0⟩).trans (by decide)
  · exact (hgenerated 1 ⟨2⟩ (by decide) ⟨10⟩).trans (by decide)
  · exact (hgenerated 1 ⟨2⟩ (by decide) ⟨50⟩).trans (by decide)
  · exact (hothers ⟨9⟩ (by decide) ⟨50⟩).trans (by decide)

/-! ### Half-open periods -/

/-- A cut below a value, or beyond all values: the only cuts of half-open periods. -/
def HalfOpenCut (c : Cut Date) : Prop := ∀ t, c ≠ .aboveValue t

/-- An assignment over a half-open period leaves the periods of every vessel half-open. -/
theorem forallCuts_set {store : MemoryIdentityStore V I} {call : SetCall V I}
    (h : ∀ v, (store.vesselToId v).lookup.ForallCuts HalfOpenCut)
    (hlo : HalfOpenCut call.period.lowerBound) (hhi : HalfOpenCut call.period.upperBound) (v : V) :
    ((store.set call).vesselToId v).lookup.ForallCuts HalfOpenCut := by
  unfold MemoryIdentityStore.set
  by_cases hv : v = call.vessel
  · subst hv
    simp only [Function.update_self]
    exact (h _).put hlo hhi call.identifier
  · simp only [Function.update_of_ne hv]
    exact h v

/-- After a run of the generator the periods of every vessel are half-open. -/
theorem forallCuts_generate (generator : IdentityGenerator V) (outcome : Outcome V I) (v : V) :
    ((generator.generate outcome new).vesselToId v).lookup.ForallCuts HalfOpenCut := by
  have hcuts : ∀ c ∈ generator.generateCalls outcome,
      HalfOpenCut c.period.lowerBound ∧ HalfOpenCut c.period.upperBound := by
    intro c hc
    rcases period_of_mem_generateCalls hc with h | ⟨date, h⟩ <;>
      simp [h, HalfOpenCut, Range.all, Range.atLeast]
  unfold generate
  generalize generator.generateCalls outcome = calls at hcuts
  induction calls using List.reverseRecOn generalizing v with
  | nil => exact TreeRangeMap.forallCuts_create _
  | append_singleton calls c ih =>
    rw [List.foldl_append, List.foldl_cons, List.foldl_nil]
    obtain ⟨hlo, hhi⟩ := hcuts c (by simp)
    exact forallCuts_set (fun v => ih v fun d hd => hcuts d (by simp [hd])) hlo hhi v

/-- After a run of the generator every identity period of a vessel is half-open. -/
theorem halfOpen_of_mem_queryIdentityfiers {generator : IdentityGenerator V}
    {outcome : Outcome V I} {v : V} {ip : DefaultIdentityPeriod I}
    (hip : ip ∈ (generator.generate outcome new).queryIdentityfiers v Range.all) :
    HalfOpenCut ip.period.lowerBound ∧ HalfOpenCut ip.period.upperBound := by
  obtain ⟨e, he, rfl⟩ := List.mem_map.mp hip
  exact (forallCuts_generate generator outcome v).clip (Or.inl rfl) (Or.inl rfl) e he

end IdentityGenerator

end CwatchBackend
