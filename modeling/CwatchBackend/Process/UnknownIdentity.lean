import CwatchBackend.Process.Enrichment
import CwatchBackend.Process.ProfileRuns
import Mathlib.Data.Sigma.Basic

/-!
# Ships of unknown identity

A report whose identifier belongs to no vessel is enriched with the identity `null`, and `null` is a
key of `positionMap` like any other.  So all ships of unknown identity share one entry, whatever
their identifiers and sources, and a report of one of them is handed over to the views only if it is
newer than what has been processed of all others.

`handOver` lists the reports that a profile hands over to its views; a view that every call reaches
is handed exactly these (`handed_eq_append_handOver`).  Removing the reports of all other unknown
ships from a run leaves what is handed over of one of them as it is exactly if none of the reports
that would be handed over then comes after a report of another unknown ship that is as recent
(`unknown_ships_independent_iff`), and with it what such a view is handed of this ship
(`handed_independent_iff`).
-/

namespace CwatchBackend

open Foundation MemoryIdentityStore

/-- An identifier together with the source that it belongs to. -/
abbrev Identifier : Type := (s : Source) × s.Id

/-- The identifier that a report carries. -/
def SourcePosition.identifier (p : SourcePosition) : Identifier := ⟨p.source, p.position.id⟩

/-- The identifier that an enriched report carries. -/
def EnrichedPosition.identifier {V : Type} (e : Enriched V) : Identifier := e.position.identifier

/-! ### What a profile hands over -/

namespace MemoryLatestPositionProfile

variable {V W : Type} [DecidableEq V]

/-- The reports handed over to the views in a run of calls. -/
def handOver : List (ProfileState.Call V W) → MemoryLatestPositionProfile V W → List (Enriched V)
  | [], _ => []
  | c :: calls, profile =>
    match c.report? with
    | none => handOver calls profile
    | some (now, _, e) =>
      match profile.handsOver now e with
      | (true, profile) => e :: handOver calls profile
      | (false, profile) => handOver calls profile

/-- The reports handed over are the accepted ones that enter `positionMap`. -/
theorem handOver_eq (calls : List (ProfileState.Call V W))
    (profile : MemoryLatestPositionProfile V W) :
    handOver calls profile = entering EnrichedPosition.identity EnrichedPosition.timestamp
      profile.positionMap (ProfileState.accepted profile calls) := by
  induction calls generalizing profile with
  | nil => rfl
  | cons c calls ih =>
    rw [handOver, ProfileState.accepted, List.filterMap_cons, ProfileState.acceptedReport]
    cases c.report? with
    | none => exact ih profile
    | some r =>
      obtain ⟨now, order, e⟩ := r
      simp only [handsOver_eq, Option.bind_some]
      by_cases haccepts : profile.Accepts now e
      · have hkeep := ih (profile.keep e)
        simp only [haccepts, if_true, entering]
        by_cases hnewer : profile.IsNewer e
        · simp only [hnewer, decide_true, if_true, hkeep]
          rfl
        · simp only [hnewer, decide_false, if_false, hkeep]
          rfl
      · simp only [haccepts, if_false]
        exact ih profile

end MemoryLatestPositionProfile

namespace ProfileState

open MemoryLatestPositionProfile

variable {V W σ : Type} [DecidableEq V] [DecidableEq W] {handle : Handler V W σ}

/-- A view that every call reaches is handed exactly the reports that the profile hands over. -/
theorem handed_eq_append_handOver {s₀ s : ProfileState V W σ} {calls : List (Call V W)}
    (hrun : run (step handle) s₀ calls = some s) {w : W}
    (hreaches : StepsMeet (step handle) (Reaches handle w) s₀ calls) :
    s.views.handed w = s₀.views.handed w ++ handOver calls s₀.profile := by
  induction calls generalizing s₀ with
  | nil =>
    rw [← Option.some.inj hrun]
    exact (List.append_nil _).symm
  | cons c calls ih =>
    obtain ⟨t, hstep, ht⟩ := run_cons.mp hrun
    have haccepted : accepted t.profile calls = accepted s₀.profile calls := by
      rw [accepted, (extends_of_step hstep).acceptedReport_eq, accepted]
    rw [ih ht (hreaches.tail hstep), handOver_eq, handOver_eq, haccepted, accepted, accepted,
      List.filterMap_cons]
    rcases step_cases hstep with
      ⟨hnone, hviews, hmap, -⟩ |
      ⟨now, order, e, hc, -, -, haccepts, hreport, hprofile, hold, hnew⟩
    · rw [hnone, hviews, hmap]
    · rw [hreport, hprofile, entering]
      by_cases hnewer : s₀.profile.IsNewer e
      · have hvisited : w ∈ s₀.views.visited handle e order :=
          Views.mem_visited_iff.mpr (hreaches.head now order e hc haccepts hnewer)
        rw [if_pos hnewer, (hnew hnewer).1, Views.handed_after_of_mem hvisited, List.append_assoc]
        rfl
      · rw [if_neg hnewer, hold hnewer]
        rfl

end ProfileState

/-! ### Reports on their way from the simulator to the profile -/

/-- A report that arrives: the calls of `set` that the identity stores have seen when its identity
is looked up, the clock reading of the look-up, and the clock reading and the iteration order of the
call of the profile. -/
structure Arrival (V W : Type) where
  history : ∀ s : Source, List (SetCall V s.Id)
  clock : Date
  now : Int64
  order : List W
  report : SourcePosition

namespace Arrival

variable {V W : Type} [DecidableEq V]

/-- The identity stores at the look-up. -/
def stores (a : Arrival V W) : DefaultIdentityStores V := fun s => replay (a.history s)

/-- The enriched report. -/
def enriched (a : Arrival V W) : Enriched (Option V) :=
  DefaultEnrichmentService.enrichPosition a.stores a.clock a.report

/-- The call of the profile. -/
def call (a : Arrival V W) : ProfileState.Call (Option V) W :=
  match a.report with
  | ⟨.ais, p⟩ =>
    .processAis a.now a.order (DefaultEnrichmentService.enrichAis a.stores a.clock p)
  | ⟨.lrit, p⟩ =>
    .processLrit a.now a.order (DefaultEnrichmentService.enrichLrit a.stores a.clock p)
  | ⟨.vms, p⟩ =>
    .processVms a.now a.order (DefaultEnrichmentService.enrichVms a.stores a.clock p)

/-- The call processes the enriched report. -/
theorem report?_call (a : Arrival V W) : a.call.report? = some (a.now, a.order, a.enriched) := by
  obtain ⟨history, clock, now, order, ⟨source, p⟩⟩ := a
  cases source <;> rfl

end Arrival

/-- The report belongs to an unknown ship with another identifier than `i`. -/
def OtherUnknown {V : Type} (i : Identifier) (e : Enriched (Option V)) : Prop :=
  e.identity = none ∧ e.identifier ≠ i

instance {V : Type} [DecidableEq V] (i : Identifier) :
    DecidablePred (OtherUnknown i : Enriched (Option V) → Prop) :=
  fun _ => inferInstanceAs (Decidable (_ ∧ _))

namespace MemoryLatestPositionProfile

variable {V W : Type} [DecidableEq V]

/-- The reports with the identifier `i` that are handed over. -/
def handOverOf (i : Identifier) (arrivals : List (Arrival V W))
    (profile : MemoryLatestPositionProfile (Option V) W) : List (Enriched (Option V)) :=
  (handOver (arrivals.map Arrival.call) profile).filter fun e => e.identifier = i

/-- The run without the reports of the other unknown ships. -/
def withoutOthers (i : Identifier) (arrivals : List (Arrival V W)) : List (Arrival V W) :=
  arrivals.filter fun a => ¬ OtherUnknown i a.enriched

/-- No accepted report of the unknown ship `i` that is newer than the entry of `null` at the start
and than all earlier reports of `i` comes after a report of another unknown ship that is at least as
recent. -/
def Undisturbed (i : Identifier) (profile : MemoryLatestPositionProfile (Option V) W)
    (reports : List (Enriched (Option V))) : Prop :=
  ∀ pre e post, reports = pre ++ e :: post → e.identity = none → e.identifier = i →
    profile.IsNewer e →
    (∀ c ∈ pre, c.identity = none → c.identifier = i → c.timestamp < e.timestamp) →
    ∀ c ∈ pre, OtherUnknown i c → c.timestamp < e.timestamp

/-- The report of an arrival, if it is accepted. -/
theorem acceptedReport_call (profile : MemoryLatestPositionProfile (Option V) W)
    (a : Arrival V W) : ProfileState.acceptedReport profile a.call =
      if profile.Accepts a.now a.enriched then some a.enriched else none := by
  rw [ProfileState.acceptedReport, a.report?_call, Option.bind_some]

/-- The accepted reports without those of the other unknown ships. -/
theorem accepted_withoutOthers (i : Identifier) (arrivals : List (Arrival V W))
    (profile : MemoryLatestPositionProfile (Option V) W) :
    ProfileState.accepted profile ((withoutOthers i arrivals).map Arrival.call) =
      (ProfileState.accepted profile (arrivals.map Arrival.call)).filter
        fun e => ¬ OtherUnknown i e := by
  rw [ProfileState.accepted, ProfileState.accepted, List.filterMap_map, List.filterMap_map,
    withoutOthers, List.filterMap_filter, List.filter_filterMap]
  congr 1
  funext a
  simp only [Function.comp_apply, acceptedReport_call]
  by_cases haccepts : profile.Accepts a.now a.enriched
  · by_cases hother : OtherUnknown i a.enriched <;> simp [haccepts, hother, Option.filter]
  · simp [haccepts]

/-- The reports of `i` that enter `positionMap` are the same without the reports of the other
unknown ships if and only if these disturb none of them. -/
theorem filter_entering_iff_undisturbed (i : Identifier)
    (profile : MemoryLatestPositionProfile (Option V) W)
    (reports : List (Enriched (Option V))) :
    (entering EnrichedPosition.identity EnrichedPosition.timestamp profile.positionMap
        reports).filter (fun e => e.identifier = i) =
      (entering EnrichedPosition.identity EnrichedPosition.timestamp profile.positionMap
        (reports.filter fun e => ¬ OtherUnknown i e)).filter (fun e => e.identifier = i) ↔
      Undisturbed i profile reports := by
  have hpick : ∀ e : Enriched (Option V), decide (e.identifier = i) = true →
      decide (¬ OtherUnknown i e) = true :=
    fun e he => decide_eq_true fun hother => hother.2 (of_decide_eq_true he)
  rw [filter_entering_eq_iff hpick]
  constructor
  · intro h pre e post hreports hnone hid hnewer hown c hc hother
    refine h pre e post hreports (decide_eq_true hid) hnewer (fun d hd hk => ?_) c hc
      (hother.1.trans hnone.symm)
    -- What shares the entry of `null` and has not been removed is a report of `i`.
    obtain ⟨hd, hkept⟩ := List.mem_filter.mp hd
    have hdnone : d.identity = none := hk.trans hnone
    have hdi : d.identifier = i :=
      by_contra fun hne => of_decide_eq_true hkept ⟨hdnone, hne⟩
    exact hown d hd hdnone hdi
  · intro h pre e post hreports hid hnewer hkept c hc hk
    by_cases hother : OtherUnknown i c
    · have hnone : e.identity = none := hk.symm.trans hother.1
      refine h pre e post hreports hnone (of_decide_eq_true hid) hnewer
        (fun d hd hdnone hdi => ?_) c hc hother
      exact hkept d (List.mem_filter.mpr ⟨hd, decide_eq_true fun hd => hd.2 hdi⟩)
        (hdnone.trans hnone.symm)
    · exact hkept c (List.mem_filter.mpr ⟨hc, decide_eq_true hother⟩) hk

/-- The reports of an identifier that are handed over are the same with and without those of the
other ships of unknown identity if and only if no accepted report of the identifier that would be
handed over without them comes after one of theirs that is at least as recent. -/
theorem unknown_ships_independent_iff (i : Identifier) (arrivals : List (Arrival V W))
    (profile : MemoryLatestPositionProfile (Option V) W) :
    handOverOf i arrivals profile = handOverOf i (withoutOthers i arrivals) profile ↔
      Undisturbed i profile (ProfileState.accepted profile (arrivals.map Arrival.call)) := by
  rw [handOverOf, handOverOf, handOver_eq, handOver_eq, accepted_withoutOthers,
    filter_entering_iff_undisturbed]

/-- A view that every call of both runs reaches is handed the same reports of the identifier in them
if and only if the other ships of unknown identity disturb none of them. -/
theorem handed_independent_iff {σ : Type} [DecidableEq W] {handle : Handler (Option V) W σ}
    (i : Identifier) {arrivals : List (Arrival V W)} {s₀ s s' : ProfileState (Option V) W σ}
    (hrun : run (ProfileState.step handle) s₀ (arrivals.map Arrival.call) = some s)
    (hrun' : run (ProfileState.step handle) s₀ ((withoutOthers i arrivals).map Arrival.call) =
      some s') {w : W}
    (hreaches : StepsMeet (ProfileState.step handle) (ProfileState.Reaches handle w) s₀
      (arrivals.map Arrival.call))
    (hreaches' : StepsMeet (ProfileState.step handle) (ProfileState.Reaches handle w) s₀
      ((withoutOthers i arrivals).map Arrival.call)) :
    (s.views.handed w).filter (fun e => e.identifier = i) =
        (s'.views.handed w).filter (fun e => e.identifier = i) ↔
      Undisturbed i s₀.profile
        (ProfileState.accepted s₀.profile (arrivals.map Arrival.call)) := by
  rw [ProfileState.handed_eq_append_handOver hrun hreaches,
    ProfileState.handed_eq_append_handOver hrun' hreaches', List.filter_append, List.filter_append,
    List.append_right_inj, handOver_eq, handOver_eq, accepted_withoutOthers,
    filter_entering_iff_undisturbed]

/-- A report of a ship that no identity store knows, under the given MMSI number. -/
def stranger (mmsi : Int32) (time : Int64) : Arrival VesselId Unit where
  history _ := []
  clock := ⟨500⟩
  now := 500
  order := [()]
  report := ⟨.ais, ⟨⟨⟨time⟩, 0, 0, 0⟩, mmsi⟩⟩

/-- A profile of everything with one view, which has been handed nothing and never throws. -/
def everything : ProfileState (Option VesselId) Unit Unit where
  profile := (new .all 1000).register ()
  views := { state := fun _ => (), handed := fun _ => [] }

/-- Handling a report without an effect. -/
def ignore : Handler (Option VesselId) Unit Unit := fun _ _ _ => ((), none)

/-- A report of the unknown MMSI number `2` is not handed over, because a more recent one of the
unknown MMSI number `1` has been; without the latter it is. -/
theorem unknown_ships_interfere :
    let i : Identifier := ⟨.ais, (2 : Int32)⟩
    let arrivals := [stranger 1 200, stranger 2 100]
    (∀ a ∈ arrivals, a.enriched.identity = none) ∧
      handOverOf i arrivals everything.profile ≠
        handOverOf i (withoutOthers i arrivals) everything.profile ∧
      (∃ s, run (ProfileState.step ignore) everything (arrivals.map Arrival.call) = some s ∧
        (s.views.handed ()).filter (fun e => e.identifier = i) = []) ∧
      ∃ s, run (ProfileState.step ignore) everything
          ((withoutOthers i arrivals).map Arrival.call) = some s ∧
        (s.views.handed ()).filter (fun e => e.identifier = i) = [(stranger 2 100).enriched] := by
  intro i arrivals
  refine ⟨by decide, fun h => ?_, ⟨_, rfl, rfl⟩, ⟨_, rfl, rfl⟩⟩
  exact absurd (congrArg List.length h) (by decide)

end MemoryLatestPositionProfile

end CwatchBackend
