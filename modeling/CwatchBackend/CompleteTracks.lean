import CwatchBackend.CwatchBackendMain

/-!
# Complete tracks

The vessels are simulated on several threads at once, and each of them saves its reports step by
step.  No step of one thread undoes what another one has written: the reports that are missing from
a store, or from one of its indexes, are those whose calls of `save` are still in progress
(`savesRecorded_of_run`).  When all calls have returned, the composite track of a vessel consists of
the reports that the simulator has created for it, each once (`tracks_hold_moves`).
-/

namespace CwatchBackend

open Foundation MapdbPositionStore
open scoped List

namespace CwatchBackendMain

open Backend RealTimeSimulator

variable {V W T : Type}

/-! ### The reports of a run -/

/-- A call of the callback of `simulate`: the vessel, the drawn number and the position. -/
structure Move (V : Type) where
  vessel : V
  nextInt : Fin 3
  position : DefaultPosition

/-- The report that the callback creates. -/
def Move.report (stores : DefaultIdentityStores V) (move : Move V) : Option SourcePosition :=
  simulate stores move.vessel move.nextInt move.position

/-- The reports that the steps send into the routes, in their order. -/
def sentReports (actions : List (Action V W T)) : List SourcePosition :=
  actions.filterMap sentReport?

/-- The step does not end a call of `save` with an exception. -/
def SaveReturns (b : Routes V W T) : Action V W T → Prop
  | .throwRoute t => ∀ p, b.route t ≠ some (.saving p)
  | _ => True

/-! ### What the stores record -/

/-- The store of a source and its calls of `save`, with the keys that have been handed out. -/
def savesOf (b : Routes V W T) (s : Source) (issued : List (ℤ × Position s)) :
    ConcurrentSaves s.Id T where
  store := (b.saves s).store
  saving := (b.saves s).saving
  issued := issued

/-- Every store has recorded the reports of its source, apart from what the calls in progress have
still to write, and a thread saves in the store of the report in its route only. -/
structure SavesRecorded (b : Routes V W T) (sent : List SourcePosition) : Prop where
  recorded : ∀ s, ∃ issued, Recorded (savesOf b s issued) ∧
    issued.map Prod.snd = sent.filterMap (positionOf s)
  saving : ∀ s t call, (b.saves s).saving t = some call →
    ∃ p, b.route t = some (.saving p) ∧ p.source = s

/-- Nothing is sent at the start. -/
theorem savesRecorded_start :
    SavesRecorded (start V W T (storesOf fun _ => .mapdb)) [] where
  recorded s := ⟨[], recorded_start, rfl⟩
  saving s t call h := by cases h

variable [DecidableEq T]

/-- A thread makes a step in the route of the report `p`, given what the step leaves of its call and
of its route. -/
theorem SavesRecorded.update {b : Routes V W T} {sent sent' : List SourcePosition}
    (h : SavesRecorded b sent) {t : T} {p : SourcePosition}
    {saves : SaveSteps.Saves (storesOf (fun _ => .mapdb) p.source) T} {route : T → Option Exchange}
    (hrecorded : ∃ issued, Recorded ⟨saves.store, saves.saving, issued⟩ ∧
      issued.map Prod.snd = sent'.filterMap (positionOf p.source))
    (hsent : ∀ s, p.source ≠ s → sent'.filterMap (positionOf s) = sent.filterMap (positionOf s))
    (hothers : ∀ s, p.source ≠ s → (b.saves s).saving t = none)
    (hsaving : ∀ u, u ≠ t → saves.saving u = (b.saves p.source).saving u)
    (hroute : ∀ u, u ≠ t → route u = b.route u)
    (hcall : ∀ call, saves.saving t = some call → route t = some (.saving p)) :
    SavesRecorded { b with
      saves := Function.update b.saves p.source saves, route := route } sent' where
  recorded := by
    refine (Function.forall_update_iff b.saves fun s saves =>
      ∃ issued : List (ℤ × Position s),
        Recorded (⟨saves.store, saves.saving, issued⟩ : ConcurrentSaves s.Id T) ∧
          issued.map Prod.snd = sent'.filterMap (positionOf s)).mpr ⟨hrecorded, fun s hs => ?_⟩
    rw [hsent s (Ne.symm hs)]
    exact h.recorded s
  saving := by
    refine (Function.forall_update_iff b.saves fun s saves => ∀ u call,
      saves.saving u = some call → ∃ q, route u = some (.saving q) ∧ q.source = s).mpr
        ⟨fun u call hu => ?_, fun s hs u call hu => ?_⟩
    · by_cases hut : u = t
      · exact ⟨p, hut ▸ hcall call (hut ▸ hu), rfl⟩
      · rw [hroute u hut]
        exact h.saving p.source u call (hsaving u hut ▸ hu)
    · have hut : u ≠ t := by
        rintro rfl
        rw [hothers s (Ne.symm hs)] at hu
        cases hu
      rw [hroute u hut]
      exact h.saving s u call hu

omit [DecidableEq T] in
/-- A thread that is not saving in the route of a report of the source `s` has no call there. -/
theorem SavesRecorded.saving_eq_none {b : Routes V W T} {sent : List SourcePosition}
    (h : SavesRecorded b sent) {t : T} {s : Source}
    (hroute : ∀ p, b.route t = some (.saving p) → p.source ≠ s) : (b.saves s).saving t = none := by
  refine Option.eq_none_iff_forall_ne_some.mpr fun call hcall => ?_
  obtain ⟨p, hp, hs⟩ := h.saving s t call hcall
  exact hroute p hp hs

/-- A thread whose route is free sends a report. -/
theorem SavesRecorded.send {b : Routes V W T} {sent : List SourcePosition}
    (h : SavesRecorded b sent) {t : T} (p : SourcePosition) (hfree : b.route t = none) :
    SavesRecorded { b with
      saves := Function.update b.saves p.source ((b.saves p.source).beginSave t p.position)
      route := Function.update b.route t (some (.saving p)) } (sent ++ [p]) := by
  have hidle : ∀ s, (b.saves s).saving t = none :=
    fun s => h.saving_eq_none fun q hq => by simp [hfree] at hq
  obtain ⟨issued, hrecorded, hissued⟩ := h.recorded p.source
  refine h.update ⟨_, hrecorded.save (hidle p.source) p.position, ?_⟩ (fun s hs => ?_)
    (fun s _ => hidle s) (fun u hu => Function.update_of_ne hu _ _)
    (fun u hu => Function.update_of_ne hu _ _) (fun _ _ => Function.update_self _ _ _)
  · simp [savesOf, hissued]
  · simp [positionOf_of_ne hs]

/-- A call of `save` makes a step. -/
theorem SavesRecorded.advance {b : Routes V W T} {sent : List SourcePosition}
    (h : SavesRecorded b sent) {t : T} {p : SourcePosition} {call : Saving p.source.Id}
    (hroute : b.route t = some (.saving p)) (hcall : (b.saves p.source).saving t = some call) :
    SavesRecorded { b with
      saves := Function.update b.saves p.source ((b.saves p.source).advance t call)
      route :=
        if (((b.saves p.source).advance t call).saving t).isNone then
          Function.update b.route t (some (.saved p))
        else b.route } sent := by
  obtain ⟨issued, hrecorded, hissued⟩ := h.recorded p.source
  refine h.update ⟨issued, hrecorded.advance hcall, hissued⟩ (fun _ _ => rfl)
    (fun s hs => h.saving_eq_none fun q hq => ?_) (fun u hu => Function.update_of_ne hu _ _)
    (fun u hu => ?_) (fun call' hcall' => ?_)
  · obtain rfl : p = q := Exchange.saving.inj (Option.some.inj (hroute.symm.trans hq))
    exact hs
  · split
    · exact Function.update_of_ne hu _ _
    · rfl
  · rw [if_neg (by simp [hcall'])]
    exact hroute

omit [DecidableEq T] in
/-- A step that leaves the calls of `save` alone, and the routes of the threads that are saving. -/
theorem SavesRecorded.leave {b b' : Routes V W T} {sent : List SourcePosition}
    (h : SavesRecorded b sent) (hsaves : b'.saves = b.saves)
    (hroute : ∀ t p, b.route t = some (.saving p) → b'.route t = some (.saving p)) :
    SavesRecorded b' sent where
  recorded s := by
    have hsame : savesOf b' s = savesOf b s := by
      funext issued
      rw [savesOf, savesOf, hsaves]
    exact hsame ▸ h.recorded s
  saving s t call hcall := by
    rw [hsaves] at hcall
    obtain ⟨p, hp, hs⟩ := h.saving s t call hcall
    exact ⟨p, hroute t p hp, hs⟩

/-- The second processor takes over a report, or the route ends after `save`. -/
theorem SavesRecorded.leaveSaved {b b' : Routes V W T} {sent : List SourcePosition}
    (h : SavesRecorded b sent) {t : T} {p : SourcePosition} (hroute : b.route t = some (.saved p))
    (hsaves : b'.saves = b.saves) (hroute' : b'.route = Function.update b.route t none) :
    SavesRecorded b' sent := by
  refine h.leave hsaves fun u q hq => ?_
  have hu : u ≠ t := by
    rintro rfl
    cases hroute.symm.trans hq
  rw [hroute', Function.update_of_ne hu]
  exact hq

variable [DecidableEq V] [DecidableEq W]

/-- A step after which every call of `save` goes on records what it sends. -/
theorem savesRecorded_of_step {b b' : Routes V W T} {a : Action V W T}
    {sent : List SourcePosition} (h : SavesRecorded b sent) (ha : SaveReturns b a)
    (hstep : b.step a = some b') : SavesRecorded b' (sent ++ (sentReport? a).toList) := by
  cases stepped_of_step hstep with
  | send t p free => exact h.send p free
  | advance t p call hroute hcall => exact (List.append_nil sent).symm ▸ h.advance hroute hcall
  | throwSave t p hroute => exact absurd hroute (ha p)
  | throwSaved t p hroute => exact (List.append_nil sent).symm ▸ h.leaveSaved hroute rfl rfl
  | process t stores clock p hroute =>
    exact (List.append_nil sent).symm ▸ h.leaveSaved hroute rfl rfl
  | passOn _ _ hquiet hpasses =>
    rw [hquiet, Option.toList_none, List.append_nil]
    exact h.leave hpasses.saves fun t p hp => hpasses.route ▸ hp

/-- At every moment of a run in which no call of `save` throws, the stores have recorded what has
been sent. -/
theorem savesRecorded_of_run {actions : List (Action V W T)} {b : Routes V W T}
    (hreturn : StepsMeet Backend.step SaveReturns (start V W T (storesOf fun _ => .mapdb)) actions)
    (hrun : run Backend.step (start V W T (storesOf fun _ => .mapdb)) actions = some b) :
    SavesRecorded b (sentReports actions) := by
  refine run_history (I := fun actions b => SavesRecorded b (sentReports actions))
    savesRecorded_start (fun actions b a b' h ha hstep => ?_) hreturn hrun
  have hsent : sentReports (actions ++ [a]) = sentReports actions ++ (sentReport? a).toList := by
    rw [sentReports, List.filterMap_append, sentReports]
    cases ha : sentReport? a <;> simp [ha]
  rw [hsent]
  exact savesRecorded_of_step h ha hstep

/-! ### After all calls -/

section Tracks

variable {generator : IdentityGenerator V} {outcome : ∀ s : Source, Outcome V s.Id}

omit [DecidableEq T] [DecidableEq W] in
/-- When no call of `save` is in progress, the stores contain the sent reports. -/
theorem SavesRecorded.contains {b : Routes V W T} {sent : List SourcePosition}
    (h : SavesRecorded b sent) (hidle : ∀ s t, (b.saves s).saving t = none) :
    (sourceStores generator outcome b).Contains sent where
  indexes s := by
    obtain ⟨issued, hrecorded, -⟩ := h.recorded s
    exact hrecorded.indexesDescribeTable (hidle s)
  rows s := by
    obtain ⟨issued, hrecorded, hissued⟩ := h.recorded s
    exact hissued ▸ (hrecorded.rows_perm (hidle s)).map Prod.snd

omit [DecidableEq T] [DecidableEq W] in
/-- A report of a vessel names it, and no other vessel. -/
theorem names_iff_of_report
    (hexclusive : ∀ s, IdentityGenerator.Exclusive (generator.generateCalls (outcome s)))
    (b : Routes V W T) {move : Move V} {p : SourcePosition}
    (hreport : move.report (identityStores generator outcome) = some p) (v : V) :
    (sourceStores generator outcome b).Names v p ↔ move.vessel = v := by
  obtain ⟨htime, hid⟩ := simulate_eq_some hreport
  have hown : (sourceStores generator outcome b).Names move.vessel p := by
    rw [← htime] at hid
    exact hid
  exact SourceStores.names_iff rfl hexclusive hown v

omit [DecidableEq T] [DecidableEq W] in
/-- The callback creates a report for every generated vessel. -/
theorem isSome_report
    (hexclusive : ∀ s, IdentityGenerator.Exclusive (generator.generateCalls (outcome s)))
    {move : Move V} (h : move.vessel ∈ generator.getVessels) :
    (move.report (identityStores generator outcome)).isSome = true := by
  obtain ⟨s, report, hreport, -⟩ :=
    simulate_identity generator outcome hexclusive h move.nextInt move.position
  exact Option.isSome_iff_exists.mpr ⟨⟨s, report⟩, hreport⟩

/-- Whatever the threads interleave: when all calls of `save` have returned, and none has thrown,
the composite track of a vessel consists of the reports that the simulator has created for it, each
once. -/
theorem tracks_hold_moves (generator : IdentityGenerator V) (outcome : ∀ s : Source, Outcome V s.Id)
    (hexclusive : ∀ s, IdentityGenerator.Exclusive (generator.generateCalls (outcome s)))
    (moves : List (Move V)) (hvessel : ∀ move ∈ moves, move.vessel ∈ generator.getVessels)
    (htimestamp : ∀ move ∈ moves, move.position.timestamp < Date.maxValue)
    (actions : List (Action V W T)) (b : Routes V W T)
    (hsent : (sentReports actions).Perm
      (moves.filterMap (Move.report (identityStores generator outcome))))
    (hreturn : StepsMeet Backend.step SaveReturns (start V W T (storesOf fun _ => .mapdb)) actions)
    (hrun : run Backend.step (start V W T (storesOf fun _ => .mapdb)) actions = some b)
    (hidle : ∀ s t, (b.saves s).saving t = none) (v : V) :
    ((sourceStores generator outcome b).trackStore.queryTrack v Range.all).Perm
        (((moves.filter fun move => move.vessel = v).filterMap
          (Move.report (identityStores generator outcome))).map TrackElement.of) ∧
      ((sourceStores generator outcome b).trackStore.queryTrack v Range.all).length =
        (moves.filter fun move => move.vessel = v).length := by
  have hbefore : ∀ p ∈ sentReports actions, p.position.timestamp < Date.maxValue := by
    intro p hp
    obtain ⟨move, hmove, hreport⟩ := List.mem_filterMap.mp (hsent.subset hp)
    obtain ⟨htime, -⟩ := simulate_eq_some hreport
    exact htime ▸ htimestamp move hmove
  have hcontains : (sourceStores generator outcome b).Contains (sentReports actions) :=
    (savesRecorded_of_run hreturn hrun).contains hidle
  have hidentity : (sourceStores generator outcome b).identityStore =
      (SourceStores.generated generator outcome).identityStore := rfl
  have hnamed := hsent.filter ((sourceStores generator outcome b).Names v)
  rw [SourceStores.filter_names_filterMap fun move p hreport =>
    names_iff_of_report hexclusive b hreport v] at hnamed
  have htrack := (hcontains.trackStore_queryTrack_perm hidentity hbefore v).trans
    (hnamed.map TrackElement.of)
  refine ⟨htrack, ?_⟩
  rw [htrack.length_eq, List.length_map, List.filterMap_length_eq_length]
  intro move hmove
  exact isSome_report hexclusive (hvessel move (List.mem_filter.mp hmove).1)

end Tracks

/-- The first vessel moves before and after it gets its second MMSI number, and the second vessel
reports through VMS. -/
def threeMoves : List (Move VesselId) :=
  [⟨⟨1⟩, ⟨0, by decide⟩, ⟨⟨50⟩, 0, 0, 0⟩⟩, ⟨⟨1⟩, ⟨0, by decide⟩, ⟨⟨150⟩, 0, 0, 0⟩⟩,
    ⟨⟨2⟩, ⟨2, by decide⟩, ⟨⟨100⟩, 0, 0, 0⟩⟩]

/-- The report of the first vessel under its first MMSI number. -/
def firstMmsi : SourcePosition := ⟨.ais, ⟨⟨⟨50⟩, 0, 0, 0⟩, (0 : Int32)⟩⟩

/-- The report of the first vessel under its second MMSI number. -/
def secondMmsi : SourcePosition := ⟨.ais, ⟨⟨⟨150⟩, 0, 0, 0⟩, (1 : Int32)⟩⟩

/-- The report of the second vessel. -/
def secondVessel : SourcePosition := ⟨.vms, ⟨⟨⟨100⟩, 0, 0, 0⟩, "B"⟩⟩

/-- Two threads save the reports of the first vessel in turns, the later one first, and one of them
goes on with the report of the second vessel. -/
def threeMovesSaved : List (Action VesselId Unit Bool) :=
  [.send true secondMmsi, .send false firstMmsi, .advance false, .advance true, .advance true,
    .advance false, .advance false, .process false (fun _ => .new) ⟨500⟩, .send false secondVessel,
    .advance false, .advance true, .advance false, .advance false]

/-- The track of the first vessel consists of its two reports. -/
theorem tracks_hold_moves_threeMoves :
    ∃ b : Routes VesselId Unit Bool, run Backend.step
        (start VesselId Unit Bool (storesOf fun _ => .mapdb)) threeMovesSaved = some b ∧
      ((sourceStores SourceStores.twoVessels SourceStores.twoVesselsOutcome b).trackStore.queryTrack
        ⟨1⟩ Range.all).Perm [.of firstMmsi, .of secondMmsi] := by
  obtain ⟨b, hrun⟩ : ∃ b : Routes VesselId Unit Bool, run Backend.step
      (start VesselId Unit Bool (storesOf fun _ => .mapdb)) threeMovesSaved = some b := ⟨_, rfl⟩
  have hexclusive : ∀ s, IdentityGenerator.Exclusive
      (SourceStores.twoVessels.generateCalls (SourceStores.twoVesselsOutcome s)) := by
    intro s
    cases s <;> decide
  have hreturn : StepsMeet Backend.step SaveReturns
      (start VesselId Unit Bool (storesOf fun _ => .mapdb)) threeMovesSaved := by
    iterate 13 refine stepsMeet_cons trivial fun _ _ => ?_
    exact stepsMeet_nil
  have hidle : ∀ s t, (b.saves s).saving t = none := by
    obtain rfl := Option.some.inj hrun
    intro s t
    cases s <;> cases t <;> rfl
  have hsent : (sentReports threeMovesSaved).Perm (threeMoves.filterMap
      (Move.report (identityStores SourceStores.twoVessels SourceStores.twoVesselsOutcome))) :=
    List.Perm.swap firstMmsi secondMmsi [secondVessel]
  obtain ⟨htrack, -⟩ := tracks_hold_moves SourceStores.twoVessels SourceStores.twoVesselsOutcome
    hexclusive threeMoves (by decide) (by decide) threeMovesSaved b hsent hreturn hrun hidle ⟨1⟩
  exact ⟨b, hrun, htrack⟩

end CwatchBackendMain

end CwatchBackend
