import CwatchBackend.Process.Enrichment
import CwatchBackend.Test.IdentityGenerator
import Mathlib.Logic.Function.Basic

/-!
# The real-time simulator

`test.RealTimeSimulator` turns the moves of a simulated vessel into reports: the vessel is encoded
by the identifier it carries at the time of the move, and the backend decodes the report by the
vessel that carries the identifier at the time of processing.  The first look-up goes through the
map of the vessel and the second one through the map of the identifier, and an assignment that
overwrites in the one map need not do so in the other.

The round trip succeeds on generated identities (`simulated_report_identity`): a call of the
generator that covers a time covers all later ones, and no identifier goes to two vessels, so
whichever call speaks about the identifier later on names the same vessel (`getVessel_of_covers`).
`CwatchBackendMain` draws its identifiers by a scheme that is exclusive in this sense for all vessel
counts that its integers can bear (`exclusive_of_scheme`).
-/

namespace CwatchBackend

open Foundation MemoryIdentityStore IdentityGenerator DefaultEnrichmentService

namespace RealTimeSimulator

variable {V : Type}

/-- The report of the source `s` that the callback of `simulate` creates for the position `pos` of
the vessel `v`.  A vessel without identifier would get a report with the identifier `null`, which is
`none` here. -/
def createReport (stores : DefaultIdentityStores V) (s : Source) (v : V) (pos : DefaultPosition) :
    Option (Position s) :=
  ((stores s).getIdentifier v pos.timestamp).map fun identifier => { pos with id := identifier }

/-- The callback of `simulate`: the drawn number selects the source. -/
def simulate (stores : DefaultIdentityStores V) (v : V) (nextInt : Fin 3) (pos : DefaultPosition) :
    Option SourcePosition :=
  match nextInt with
  | 0 => (createReport stores .ais v pos).map (SourcePosition.mk .ais)
  | 1 => (createReport stores .lrit v pos).map (SourcePosition.mk .lrit)
  | 2 => (createReport stores .vms v pos).map (SourcePosition.mk .vms)

variable [DecidableEq V]

/-! ### From the vessel to the identifier and back -/

omit [DecidableEq V] in
/-- A generated call that covers a time covers every later time. -/
theorem mem_period_of_le {generator : IdentityGenerator V} {I : Type} {outcome : Outcome V I}
    {c : SetCall V I} (hc : c ∈ generator.generateCalls outcome) {t now : Date}
    (ht : t ∈ c.period) (hnow : t ≤ now) : now ∈ c.period := by
  rcases period_of_mem_generateCalls hc with hperiod | ⟨date, hperiod⟩
  · rw [hperiod]
    exact Range.mem_all now
  · rw [hperiod, Range.mem_atLeast] at ht ⊢
    exact ht.trans hnow

/-- Where no identifier is given to two vessels, an identifier stands for the vessel it was given to
at every time that one of its calls covers. -/
theorem getVessel_of_covers {I : Type} [DecidableEq I] {calls : List (SetCall V I)}
    (hexclusive : Exclusive calls) {c : SetCall V I} (hc : c ∈ calls) {t : Date}
    (ht : t ∈ c.period) : (replay calls).getVessel c.identifier t = some c.vessel := by
  rw [getVessel_replay]
  cases hlast : lastVessel calls c.identifier t with
  | none =>
    have hsilent := lastSome?_eq_none_iff.mp hlast c hc
    rw [SetCall.vesselOf, if_pos ⟨rfl, ht⟩] at hsilent
    cases hsilent
  | some w =>
    obtain ⟨pre, d, post, rfl, hd, -⟩ := lastSome?_eq_some_iff.mp hlast
    obtain ⟨hid, -, rfl⟩ := SetCall.vesselOf_eq_some.mp hd
    exact congrArg some (hexclusive d (by simp) c hc hid)

/-- The identifier of a vessel at a time stands for the vessel then and at every later time. -/
theorem getVessel_of_getIdentifier {I : Type} [DecidableEq I] {generator : IdentityGenerator V}
    {outcome : Outcome V I} (hexclusive : Exclusive (generator.generateCalls outcome)) {v : V}
    {t now : Date} {i : I}
    (hi : (generator.generate outcome new).getIdentifier v t = some i) (hnow : t ≤ now) :
    (generator.generate outcome new).getVessel i now = some v := by
  have hlast : lastIdentifier (generator.generateCalls outcome) v t = some i := by
    rw [← getIdentifier_replay]
    exact hi
  obtain ⟨pre, c, post, hcalls, hc, -⟩ := lastSome?_eq_some_iff.mp hlast
  obtain ⟨rfl, ht, rfl⟩ := SetCall.identifierOf_eq_some.mp hc
  have hmem : c ∈ generator.generateCalls outcome := by simp [hcalls]
  exact getVessel_of_covers hexclusive hmem (mem_period_of_le hmem ht hnow)

/-- A simulated report of a generated vessel has an identifier, the identifier stands for the vessel
at the time of the report, and whatever report carries the identifier is enriched with the vessel
when it is processed at that time or later. -/
theorem simulated_report_identity (generator : IdentityGenerator V)
    (outcome : ∀ s : Source, Outcome V s.Id) (s : Source)
    (hexclusive : Exclusive (generator.generateCalls (outcome s))) (v : V)
    (hv : v ∈ generator.getVessels) (pos : DefaultPosition) :
    let stores : DefaultIdentityStores V := fun s => generator.generate (outcome s) new
    ∃ i, (stores s).getIdentifier v pos.timestamp = some i ∧
      createReport stores s v pos = some { pos with id := i } ∧
      (stores s).getVessel i pos.timestamp = some v ∧
      ∀ now, pos.timestamp ≤ now → ∀ report : Position s, report.id = i →
        (enrich stores s now report).identity = some v := by
  intro stores
  obtain ⟨i, hi⟩ := exists_getIdentifier (outcome s) hv pos.timestamp
  refine ⟨i, hi, ?_, getVessel_of_getIdentifier hexclusive hi le_rfl, ?_⟩
  · rw [createReport, hi, Option.map_some]
  · rintro now hnow report rfl
    exact getVessel_of_getIdentifier hexclusive hi hnow

/-- Two vessels with a first MMSI number each and a new one from the time `100` on; nothing is known
about their other identifiers. -/
def twoVessels : ∀ s : Source, Outcome VesselId s.Id
  | .ais => ⟨fun _ _ => ⟨100⟩, fun _ k v _ => (v.id * 1000 + Int32.ofNat (100 + k) : Int32)⟩
  | .lrit => ⟨fun _ _ => ⟨100⟩, fun _ _ _ _ => (0 : Int32)⟩
  | .vms => ⟨fun _ _ => ⟨100⟩, fun _ _ _ _ => ""⟩

/-- The vessel `2` reports at the time `50` under its first MMSI number, and the report is
recognised at the time `200`. -/
theorem simulated_report_identity_twoVessels :
    let stores : DefaultIdentityStores VesselId :=
      fun s => (newInstance 2 1).generate (twoVessels s) new
    ∃ i, (stores .ais).getIdentifier ⟨2⟩ ⟨50⟩ = some i ∧
      (enrich stores .ais ⟨200⟩ ⟨⟨⟨50⟩, 0, 0, 0⟩, i⟩).identity = some ⟨2⟩ := by
  obtain ⟨i, hi, -, -, henrich⟩ := simulated_report_identity (newInstance 2 1) twoVessels .ais
    (by decide) ⟨2⟩ (by decide) ⟨⟨50⟩, 0, 0, 0⟩
  exact ⟨i, hi, henrich ⟨200⟩ (by decide) ⟨⟨⟨50⟩, 0, 0, 0⟩, i⟩ rfl⟩

/-- Whatever number the callback of `simulate` draws, its report is recognised at the time of the
report and later. -/
theorem simulate_identity (generator : IdentityGenerator V) (outcome : ∀ s : Source, Outcome V s.Id)
    (hexclusive : ∀ s, Exclusive (generator.generateCalls (outcome s))) {v : V}
    (hv : v ∈ generator.getVessels) (nextInt : Fin 3) (pos : DefaultPosition) :
    let stores : DefaultIdentityStores V := fun s => generator.generate (outcome s) new
    ∃ s, ∃ report : Position s, simulate stores v nextInt pos = some ⟨s, report⟩ ∧
      report.toDefaultPosition = pos ∧ ∀ now, pos.timestamp ≤ now →
        (enrich stores s now report).identity = some v := by
  intro stores
  have hcreate : ∀ s, ∃ report : Position s, createReport stores s v pos = some report ∧
      report.toDefaultPosition = pos ∧ ∀ now, pos.timestamp ≤ now →
        (enrich stores s now report).identity = some v := by
    intro s
    obtain ⟨i, hi⟩ := exists_getIdentifier (outcome s) hv pos.timestamp
    refine ⟨{ pos with id := i }, ?_, rfl, ?_⟩
    · rw [createReport, hi, Option.map_some]
    · intro now hnow
      exact getVessel_of_getIdentifier (hexclusive s) hi hnow
  match nextInt with
  | 0 =>
    obtain ⟨report, hreport, h⟩ := hcreate .ais
    exact ⟨.ais, report, congrArg (Option.map (SourcePosition.mk .ais)) hreport, h⟩
  | 1 =>
    obtain ⟨report, hreport, h⟩ := hcreate .lrit
    exact ⟨.lrit, report, congrArg (Option.map (SourcePosition.mk .lrit)) hreport, h⟩
  | 2 =>
    obtain ⟨report, hreport, h⟩ := hcreate .vms
    exact ⟨.vms, report, congrArg (Option.map (SourcePosition.mk .vms)) hreport, h⟩

/-! ### The identifiers of `CwatchBackendMain` -/

/-- `v.getId() * 1000 + draw`. -/
def schemeNumber (v : VesselId) (draw : Int32) : Int32 := v.id * 1000 + draw

/-- The `identityFunction` of the outcome follows the scheme of `CwatchBackendMain`: every answer is
`v.getId() * 1000` plus a draw of at most three digits, as a number or written out. -/
def FollowsScheme {I : Type} (render : Int32 → I) (outcome : Outcome VesselId I) : Prop :=
  ∀ n k v date, ∃ draw : Int32, 0 ≤ draw.toInt ∧ draw.toInt < 1000 ∧
    outcome.identityFunction n k v date = render (schemeNumber v draw)

/-- The scheme number of a vessel that is small enough is that of ordinary arithmetic. -/
theorem toInt_schemeNumber {n : ℕ} (hn : n ≤ 2147482) {draw : Int32} (hlo : 0 ≤ draw.toInt)
    (hhi : draw.toInt < 1000) :
    (schemeNumber ⟨Int32.ofNat n⟩ draw).toInt = n * 1000 + draw.toInt := by
  have hnat : (Int32.ofNat n).toInt = n := Int32.toInt_ofNat_of_lt (by omega)
  have hthousand : (1000 : Int32).toInt = 1000 := rfl
  rw [schemeNumber, Int32.toInt_add, Int32.toInt_mul, hnat, hthousand,
    Int.bmod_eq_of_le (n := n * 1000) (by omega) (by omega)]
  exact Int.bmod_eq_of_le (by omega) (by omega)

omit [DecidableEq V] in
/-- The vessel of a generated call is a numbered one and its identifier was answered for it. -/
theorem of_mem_generateCalls {generator : IdentityGenerator V} {I : Type} {outcome : Outcome V I}
    {c : SetCall V I} (hc : c ∈ generator.generateCalls outcome) :
    (∃ n < generator.vesselCount, c.vessel = generator.vesselIdFunction (n + 1)) ∧
      ∃ n k date, c.identifier = outcome.identityFunction n k c.vessel date := by
  obtain ⟨v, hv, hc⟩ := List.mem_flatMap.mp hc
  have hvessel : c.vessel = v.1 := by
    rcases List.mem_cons.mp hc with rfl | hc
    · rfl
    · obtain ⟨change, -, rfl⟩ := List.mem_map.mp hc
      rfl
  constructor
  · obtain ⟨n, hn, hvn⟩ := List.mem_map.mp (List.fst_mem_of_mem_zipIdx hv)
    exact ⟨n, List.mem_range.mp hn, hvessel.trans hvn.symm⟩
  · rcases List.mem_cons.mp hc with rfl | hc
    · exact ⟨v.2, 0, none, rfl⟩
    · obtain ⟨change, -, rfl⟩ := List.mem_map.mp hc
      exact ⟨v.2, change.2, some change.1, rfl⟩

/-- The scheme of `CwatchBackendMain` gives no identifier to two of at most 2147482 vessels. -/
theorem exclusive_of_scheme {I : Type} {render : Int32 → I} (hrender : Function.Injective render)
    {vesselCount changeCount : ℕ} (hcount : vesselCount ≤ 2147482)
    {outcome : Outcome VesselId I} (hscheme : FollowsScheme render outcome) :
    Exclusive ((newInstance vesselCount changeCount).generateCalls outcome) := by
  intro c hc d hd hcd
  obtain ⟨⟨m, hm, hcv⟩, cn, ck, cdate, hci⟩ := of_mem_generateCalls hc
  obtain ⟨⟨n, hn, hdv⟩, dn, dk, ddate, hdi⟩ := of_mem_generateCalls hd
  obtain ⟨r, hrlo, hrhi, hr⟩ := hscheme cn ck c.vessel cdate
  obtain ⟨q, hqlo, hqhi, hq⟩ := hscheme dn dk d.vessel ddate
  have hnumber : schemeNumber c.vessel r = schemeNumber d.vessel q :=
    hrender ((hr.symm.trans hci.symm).trans (hcd.trans (hdi.trans hq)))
  simp only [newInstance] at hm hn hcv hdv
  rw [hcv, hdv] at hnumber ⊢
  have hint := congrArg Int32.toInt hnumber
  rw [toInt_schemeNumber (by omega) hrlo hrhi, toInt_schemeNumber (by omega) hqlo hqhi] at hint
  have hmn : m = n := by omega
  rw [hmn]

end RealTimeSimulator

end CwatchBackend
