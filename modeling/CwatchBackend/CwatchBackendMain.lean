import CwatchBackend.RouteConfiguration
import CwatchBackend.Store.CompositeTrackStore
import CwatchBackend.Test.RealTimeSimulator

/-!
# The application

`CwatchBackendMain`: identities are generated for the three sources, and then the vessels are
simulated; every report goes through the route of its source, which saves it in a
`MapdbPositionStore` and passes it on to the live map.

The live map attributes a report to the vessel of its identifier at the time of processing, and a
track asks for the identifiers of its vessel at the times of the reports.  On the generated
identities they agree at every moment, whatever the threads of the routes interleave and whatever
throws: a report that is shown as the vessel `v` is on the composite track of `v`, and on no other
one (`shown_reports_on_tracks`).
-/

namespace CwatchBackend

open Foundation MapdbPositionStore

/-! ### Tracks over a store in which calls are in progress -/

section Tracks

variable {V I T : Type} [LinearOrder I] {store : MapdbPositionStore I}
  {saving : T → Option (Saving I)} {identityStore : MemoryIdentityStore V I} {v : V}

/-- A position that is indexed is on the track of the vessel that carried its identifier. -/
theorem mem_queryTrack_of_indexed {p : TypedPosition I} (hindexed : SaveSteps.Indexed store p)
    (ht : p.timestamp < Date.maxValue)
    (hperiods : ∀ ip ∈ identityStore.queryIdentityfiers v Range.all,
      IdentityGenerator.HalfOpenCut ip.period.lowerBound ∧
        IdentityGenerator.HalfOpenCut ip.period.upperBound)
    (hid : identityStore.getIdentifier v p.timestamp = some p.id) :
    { delegate := some p } ∈
      SingleSourceTrackStore.queryTrack ⟨identityStore, store⟩ v Range.all := by
  obtain ⟨ip, hip, hipid, htime⟩ :=
    MemoryIdentityStore.exists_mem_queryIdentityfiers.mpr ⟨Range.mem_all _, hid⟩
  obtain ⟨key, hrow, hentry⟩ := hindexed
  have hslice : idTimestampEntry key p ∈ (store.vesselSlice ip.id ip.period).elements := by
    rw [elements_vesselSlice, List.mem_filter, decide_eq_true_iff, vesselSlice_idTimestampEntry,
      SourceStores.vesselSliced_iff_of_halfOpen ht (hperiods ip hip).1 (hperiods ip hip).2]
    exact ⟨hentry, hipid.symm, htime⟩
  have hfound : some p ∈ store.queryVessel ip.id ip.period :=
    List.mem_map.mpr ⟨_, hslice, store.table.rows.get_of_mem hrow⟩
  exact List.mem_flatMap.mpr ⟨ip, hip, List.mem_map.mpr ⟨some p, hfound, rfl⟩⟩

/-- The vessel carried the identifiers of the positions on its track. -/
theorem getIdentifier_of_mem_queryTrack {p : TypedPosition I} (hsound : Sound store saving)
    (ht : ∀ row ∈ store.table.rows.entries, row.2.timestamp < Date.maxValue)
    (hperiods : ∀ ip ∈ identityStore.queryIdentityfiers v Range.all,
      IdentityGenerator.HalfOpenCut ip.period.lowerBound ∧
        IdentityGenerator.HalfOpenCut ip.period.upperBound)
    (hp : { delegate := some p } ∈
      SingleSourceTrackStore.queryTrack ⟨identityStore, store⟩ v Range.all) :
    identityStore.getIdentifier v p.timestamp = some p.id := by
  obtain ⟨ip, hip, hp⟩ := List.mem_flatMap.mp hp
  obtain ⟨found, hfound, helement⟩ := List.mem_map.mp hp
  obtain rfl : found = some p := congrArg DelegatingTrackElement.delegate helement
  obtain ⟨x, hx, hrow⟩ := List.mem_map.mp hfound
  rw [elements_vesselSlice, List.mem_filter, decide_eq_true_iff] at hx
  obtain ⟨row, hmem, rfl⟩ := hsound.idTimestamp x hx.1
  have hget : store.rowOf 2 (idTimestampEntry row.1 row.2) = some row.2 :=
    store.table.rows.get_of_mem hmem
  obtain rfl : row.2 = p := Option.some.inj (hget.symm.trans hrow)
  rw [vesselSlice_idTimestampEntry, SourceStores.vesselSliced_iff_of_halfOpen (ht row hmem)
    (hperiods ip hip).1 (hperiods ip hip).2] at hx
  exact (MemoryIdentityStore.exists_mem_queryIdentityfiers.mp
    ⟨ip, hip, hx.2.1.symm, hx.2.2⟩).2

end Tracks

/-! ### The application -/

/-- The report that is sent through the route. -/
def Exchange.position : Exchange → SourcePosition
  | .saving position => position
  | .saved position => position

namespace CwatchBackendMain

open Backend DefaultEnrichmentService RealTimeSimulator

variable {V W T : Type} [DecidableEq V] [DecidableEq W] [DecidableEq T]

/-- The routes over the three stores of `MapdbStoreConfiguration`. -/
abbrev Routes (V W T : Type) : Type := Backend V W T (storesOf fun _ => .mapdb)

section Model

variable (generator : IdentityGenerator V) (outcome : ∀ s : Source, Outcome V s.Id)

/-- `mmsiIdentityStore`, `imoIdentityStore` and `irIdentityStore` after `generate`. -/
def identityStores : DefaultIdentityStores V := fun s => generator.generate (outcome s) .new

/-- The stores of the three sources. -/
def sourceStores (b : Routes V W T) : SourceStores V where
  identityStore := identityStores generator outcome
  positionStore s := (b.saves s).store

/-- The callback of the simulator has created the report, for some vessel, draw and position. -/
def IsSimulated (position : SourcePosition) : Prop :=
  ∃ v ∈ generator.getVessels, ∃ nextInt pos, pos.timestamp < Date.maxValue ∧
    simulate (identityStores generator outcome) v nextInt pos = some position

/-- The steps of the application: the threads send simulated reports, and a report is enriched with
the generated identities, at the time of the report or later. -/
def Simulated (b : Routes V W T) : Action V W T → Prop
  | .send _ position => IsSimulated generator outcome position
  | .process t stores clock => stores = identityStores generator outcome ∧
      ∀ position, b.route t = some (.saved position) → position.position.timestamp ≤ clock
  | _ => True

end Model

/-! ### Whose reports are shown -/

section Attribution

variable {generator : IdentityGenerator V} {outcome : ∀ s : Source, Outcome V s.Id}

/-- The vessel carries the identifier of the report at the time of the report. -/
structure Carries (generator : IdentityGenerator V) (outcome : ∀ s : Source, Outcome V s.Id) (v : V)
    (p : SourcePosition) : Prop where
  generated : v ∈ generator.getVessels
  identifier : (identityStores generator outcome p.source).getIdentifier v p.position.timestamp =
    some p.position.id
  before_max : p.position.timestamp < Date.maxValue

omit [DecidableEq V] in
/-- The report of a simulated position says what the position says, and the identifier that its
source knows for the vessel. -/
theorem simulate_eq_some {stores : DefaultIdentityStores V} {v : V} {nextInt : Fin 3}
    {pos : DefaultPosition} {p : SourcePosition} (h : simulate stores v nextInt pos = some p) :
    p.position.toDefaultPosition = pos ∧
      (stores p.source).getIdentifier v pos.timestamp = some p.position.id := by
  have hcreate : ∀ s, (createReport stores s v pos).map (SourcePosition.mk s) = some p →
      p.position.toDefaultPosition = pos ∧
        (stores p.source).getIdentifier v pos.timestamp = some p.position.id := by
    intro s hs
    obtain ⟨report, hreport, rfl⟩ := Option.map_eq_some_iff.mp hs
    obtain ⟨i, hi, rfl⟩ := Option.map_eq_some_iff.mp hreport
    exact ⟨rfl, hi⟩
  match nextInt with
  | 0 => exact hcreate .ais h
  | 1 => exact hcreate .lrit h
  | 2 => exact hcreate .vms h

/-- A simulated report carries the identifier of its vessel. -/
theorem exists_carries_of_isSimulated {p : SourcePosition}
    (h : IsSimulated generator outcome p) : ∃ v, Carries generator outcome v p := by
  obtain ⟨v, hv, nextInt, pos, hpos, hsimulate⟩ := h
  obtain ⟨rfl, hi⟩ := simulate_eq_some hsimulate
  exact ⟨v, hv, hi, hpos⟩

/-- No row is stamped `Long.MAX_VALUE`. -/
def BeforeMax {I : Type} [LinearOrder I] (store : MapdbPositionStore I) : Prop :=
  ∀ row ∈ store.table.rows.entries, row.2.timestamp < Date.maxValue

/-- All reports in the routes and in the stores come from the simulator, and those with which the
second processor has begun are attributed to the vessels that carry their identifiers. -/
structure Attributed (generator : IdentityGenerator V) (outcome : ∀ s : Source, Outcome V s.Id)
    (b : Routes V W T) : Prop where
  route : ∀ t x, b.route t = some x → ∃ v, Carries generator outcome v x.position
  rows : ∀ s, BeforeMax ((sourceStores generator outcome b).positionStore s)
  processed : ∀ e, b.Processed e →
    ∃ v, e.identity = some v ∧ Carries generator outcome v e.position

omit [DecidableEq W] [DecidableEq T] in
/-- Before the first report. -/
theorem attributed_start :
    Attributed generator outcome (start V W T (storesOf fun _ => .mapdb)) where
  route t x h := by cases h
  rows s row hrow := absurd hrow List.not_mem_nil
  processed := by
    refine forall_processed_iff.mpr ⟨fun x hx => absurd hx List.not_mem_nil, ?_,
      fun d hd => absurd hd List.not_mem_nil, fun w e he => absurd he List.not_mem_nil⟩
    rintro e ⟨profile, hmem, -⟩
    cases hmem

omit [DecidableEq W] in
/-- A step of a thread, given what it leaves of its route and of the store of its source. -/
theorem Attributed.update {b : Routes V W T} (h : Attributed generator outcome b) (t : T)
    {next : Option Exchange}
    (hnext : ∀ x, next = some x → ∃ v, Carries generator outcome v x.position) (s : Source)
    (saves : SaveSteps.Saves (SaveSteps.mapdb s.Id) T) (hrows : BeforeMax (I := s.Id) saves.store) :
    Attributed generator outcome { b with
      saves := Function.update b.saves s saves, route := Function.update b.route t next } where
  route := (Function.forall_update_iff b.route fun _ o =>
    ∀ x, o = some x → ∃ v, Carries generator outcome v x.position).mpr
      ⟨hnext, fun u _ => h.route u⟩
  rows := (Function.forall_update_iff b.saves fun s saves =>
    BeforeMax (I := s.Id) saves.store).mpr ⟨hrows, fun s' _ => h.rows s'⟩
  processed e he := h.processed e (processed_congr he rfl rfl rfl rfl)

omit [DecidableEq T] in
/-- A step of a call of `save` adds at most the row of its position. -/
theorem beforeMax_advance {I : Type} [LinearOrder I] {store : MapdbPositionStore I}
    {saving : T → Option (Saving I)} (h : BeforeMax store) (hsound : Sound store saving) {t : T}
    {call : Saving I} (hcall : saving t = some call)
    (hposition : call.position.timestamp < Date.maxValue) : BeforeMax (call.advance store).1 := by
  obtain ⟨key, position, stage⟩ := call
  cases stage with
  | numbered =>
    intro row hrow
    rcases (mem_put_rows (hsound.fresh t _ hcall rfl)).mp hrow with rfl | hrow
    · exact hposition
    · exact h row hrow
  | stored => exact h
  | idIndexed => exact h

omit [DecidableEq W] in
/-- A thread leaves its route, and nothing but the processed reports changes. -/
theorem Attributed.leave {b b' : Routes V W T} (h : Attributed generator outcome b) (t : T)
    (hsaves : b'.saves = b.saves) (hroute : b'.route = Function.update b.route t none)
    (hprocessed : ∀ e, b'.Processed e → b.Processed e ∨
      ∃ v, e.identity = some v ∧ Carries generator outcome v e.position) :
    Attributed generator outcome b' where
  route u x hx := by
    rw [hroute] at hx
    exact h.route u x (eq_some_of_update_none hx)
  rows s := by
    rw [sourceStores, hsaves]
    exact h.rows s
  processed e he := (hprocessed e he).elim (h.processed e) id

omit [DecidableEq W] in
/-- A call of `save` makes a step. -/
theorem Attributed.advance {b : Routes V W T} (h : Attributed generator outcome b)
    (hbacked : Backed (fun s => SaveSteps.lawsOfKind s.Id T .mapdb) b) {t : T} {p : SourcePosition}
    {call : Saving p.source.Id} (hroute : b.route t = some (.saving p))
    (hcall : (b.saves p.source).saving t = some call) :
    Attributed generator outcome { b with
      saves := Function.update b.saves p.source ((b.saves p.source).advance t call)
      route :=
        if (((b.saves p.source).advance t call).saving t).isNone then
          Function.update b.route t (some (.saved p))
        else b.route } := by
  have hsound : Sound (I := p.source.Id) (b.saves p.source).store (b.saves p.source).saving :=
    (hbacked.inv p.source).toSound
  have hposition : call.position = p.position := hbacked.calling t p call hroute hcall
  obtain ⟨v, hv⟩ := h.route t _ hroute
  have hrows := beforeMax_advance (h.rows p.source) hsound hcall (hposition ▸ hv.before_max)
  have hnext : ∀ x : Exchange, x.position = p → ∀ y, some x = some y →
      ∃ v, Carries generator outcome v y.position := by
    rintro x rfl y hy
    exact ⟨v, Option.some.inj hy ▸ hv⟩
  split
  · exact h.update t (hnext (.saved p) rfl) p.source ((b.saves p.source).advance t call) hrows
  · have hsame : b.route = Function.update b.route t (some (.saving p)) :=
      (Function.update_eq_self_iff.mpr hroute.symm).symm
    rw [hsame]
    exact h.update t (hnext (.saving p) rfl) p.source ((b.saves p.source).advance t call) hrows

/-- A report that is enriched with the generated identities, at its time or later, is attributed to
the vessel that carries its identifier. -/
theorem Carries.identity_enrichPosition {v : V} {p : SourcePosition}
    (h : Carries generator outcome v p)
    (hexclusive : IdentityGenerator.Exclusive (generator.generateCalls (outcome p.source)))
    {clock : Date} (hclock : p.position.timestamp ≤ clock) :
    (enrichPosition (identityStores generator outcome) clock p).identity = some v :=
  getVessel_of_getIdentifier hexclusive h.identifier hclock

/-- Every step of the application attributes its reports. -/
theorem attributed_of_step
    (hexclusive : ∀ s, IdentityGenerator.Exclusive (generator.generateCalls (outcome s)))
    {b b' : Routes V W T} {a : Action V W T} (h : Attributed generator outcome b)
    (hbacked : Backed (fun s => SaveSteps.lawsOfKind s.Id T .mapdb) b)
    (ha : Simulated generator outcome b a) (hstep : b.step a = some b') :
    Attributed generator outcome b' := by
  cases stepped_of_step hstep with
  | send t p free =>
    refine h.update t (fun x hx => ?_) p.source _ (h.rows p.source)
    exact Option.some.inj hx ▸ exists_carries_of_isSimulated ha
  | advance t p call hroute hcall => exact h.advance hbacked hroute hcall
  | throwSave t p hroute =>
    exact h.update t (fun x hx => by cases hx) p.source _ (h.rows p.source)
  | throwSaved t p hroute =>
    exact h.leave t rfl rfl fun e he => Or.inl (processed_congr he rfl rfl rfl rfl)
  | process t stores clock p hroute =>
    obtain ⟨rfl, hclock⟩ := ha
    obtain ⟨v, hv⟩ := h.route t _ hroute
    refine h.leave t rfl rfl fun e he => ?_
    rcases processed_process e he with he | rfl
    · exact Or.inl he
    · exact Or.inr ⟨v, hv.identity_enrichPosition (hexclusive p.source) (hclock p hroute), hv⟩
  | passOn _ _ _ hpasses =>
    refine ⟨fun t x hx => h.route t x (hpasses.route ▸ hx), fun s => ?_,
      fun e he => h.processed e (hpasses.processed e he)⟩
    rw [sourceStores, hpasses.saves]
    exact h.rows s

omit [DecidableEq W] [DecidableEq T] in
/-- The element of a report on the composite track of a vessel is one on the track of its source. -/
theorem mem_trackStore_iff {b : Routes V W T} {u : V} {p : SourcePosition} :
    TrackElement.of p ∈ (sourceStores generator outcome b).trackStore.queryTrack u Range.all ↔
      { delegate := some p.position } ∈
        ((sourceStores generator outcome b).trackStoreOf p.source).queryTrack u Range.all := by
  simp only [CompositeTrackStore.queryTrack, SourceStores.trackStore, List.flatMap_map,
    List.mem_flatMap, List.mem_map]
  constructor
  · rintro ⟨s, -, element, helement, heq⟩
    obtain ⟨rfl, hheq⟩ := Sigma.mk.inj heq
    exact eq_of_heq hheq ▸ helement
  · exact fun helement => ⟨p.source, Source.mem_all _, _, helement, rfl⟩

/-- At every moment of every run of the application, whatever throws: a report that is an entry of
the `positionMap` of a profile or has been handed to a view is attributed to a generated vessel, and
it is on the composite track of this vessel and of no other one. -/
theorem shown_reports_on_tracks (generator : IdentityGenerator V)
    (outcome : ∀ s : Source, Outcome V s.Id)
    (hexclusive : ∀ s, IdentityGenerator.Exclusive (generator.generateCalls (outcome s)))
    (actions : List (Action V W T)) (b : Routes V W T)
    (hsimulated : StepsMeet Backend.step (Simulated generator outcome)
      (start V W T (storesOf fun _ => .mapdb)) actions)
    (hrun : run Backend.step (start V W T (storesOf fun _ => .mapdb)) actions = some b)
    (e : Enriched (Option V)) (he : b.IsEntry e ∨ ∃ w, e ∈ b.handed w) :
    ∃ v ∈ generator.getVessels, e.identity = some v ∧ ∀ u,
      TrackElement.of e.position ∈
        (sourceStores generator outcome b).trackStore.queryTrack u Range.all ↔ u = v := by
  obtain ⟨hbacked, hattributed⟩ : Backed (fun s => SaveSteps.lawsOfKind s.Id T .mapdb) b ∧
      Attributed generator outcome b :=
    run_invariant (I := fun b => Backed (fun s => SaveSteps.lawsOfKind s.Id T .mapdb) b ∧
        Attributed generator outcome b)
      (fun _ _ _ h ha hstep => ⟨backed_of_step h.1 hstep,
        attributed_of_step hexclusive h.2 h.1 ha hstep⟩)
      ⟨backed_start, attributed_start⟩ hsimulated hrun
  have hprocessed : b.Processed e := he.elim .entry fun ⟨w, hw⟩ => .handed w hw
  obtain ⟨v, hv, hcarries⟩ := hattributed.processed e hprocessed
  have hperiods : ∀ u, ∀ ip ∈
      (identityStores generator outcome e.position.source).queryIdentityfiers u Range.all,
      IdentityGenerator.HalfOpenCut ip.period.lowerBound ∧
        IdentityGenerator.HalfOpenCut ip.period.upperBound :=
    fun u ip hip => IdentityGenerator.halfOpen_of_mem_queryIdentityfiers hip
  refine ⟨v, hcarries.generated, hv, fun u => mem_trackStore_iff.trans ⟨fun hmem => ?_, ?_⟩⟩
  · have hid := getIdentifier_of_mem_queryTrack (hbacked.inv e.position.source).toSound
      (hattributed.rows e.position.source) (hperiods u) hmem
    exact IdentityGenerator.eq_of_getIdentifier_eq (hexclusive e.position.source) hid
      hcarries.identifier
  · rintro rfl
    exact mem_queryTrack_of_indexed (hbacked.processed e hprocessed) hcarries.before_max
      (hperiods u) hcarries.identifier

end Attribution

/-- The report of the first vessel at the time `100`, under its second MMSI number. -/
def secondNumber : SourcePosition := ⟨.ais, ⟨⟨⟨100⟩, 0, 0, 0⟩, (1 : Int32)⟩⟩

/-- It goes through its route and is handed to the only view. -/
def secondNumberShown : List (Action VesselId Unit Bool) :=
  [.load .all 1000, .register 0 (), .send false secondNumber, .advance false, .advance false,
    .advance false,
    .process false (identityStores SourceStores.twoVessels SourceStores.twoVesselsOutcome) ⟨500⟩,
    .test 0 500 [()], .deliver 0]

/-- The report is on the track of the first vessel and not on that of the second one. -/
theorem shown_reports_on_tracks_secondNumber :
    ∃ b : Routes VesselId Unit Bool, run Backend.step
        (start VesselId Unit Bool (storesOf fun _ => .mapdb)) secondNumberShown = some b ∧
      ∀ u, TrackElement.of secondNumber ∈ (sourceStores SourceStores.twoVessels
        SourceStores.twoVesselsOutcome b).trackStore.queryTrack u Range.all ↔ u = ⟨1⟩ := by
  obtain ⟨b, hrun⟩ : ∃ b : Routes VesselId Unit Bool, run Backend.step
      (start VesselId Unit Bool (storesOf fun _ => .mapdb)) secondNumberShown = some b := ⟨_, rfl⟩
  have hsimulated : StepsMeet Backend.step
      (Simulated SourceStores.twoVessels SourceStores.twoVesselsOutcome)
      (start VesselId Unit Bool (storesOf fun _ => .mapdb)) secondNumberShown := by
    have hsent : IsSimulated SourceStores.twoVessels SourceStores.twoVesselsOutcome secondNumber :=
      ⟨⟨1⟩, by decide, 0, ⟨⟨100⟩, 0, 0, 0⟩, by decide, rfl⟩
    refine stepsMeet_cons trivial fun _ h₁ => stepsMeet_cons trivial fun _ h₂ =>
      stepsMeet_cons hsent fun _ h₃ => stepsMeet_cons trivial fun _ h₄ =>
      stepsMeet_cons trivial fun _ h₅ => stepsMeet_cons trivial fun _ h₆ =>
      stepsMeet_cons ⟨rfl, fun position hroute => ?_⟩ fun _ _ => stepsMeet_cons trivial fun _ _ =>
      stepsMeet_cons trivial fun _ _ => stepsMeet_nil
    obtain rfl := Option.some.inj h₁
    obtain rfl := Option.some.inj h₂
    obtain rfl := Option.some.inj h₃
    obtain rfl := Option.some.inj h₄
    obtain rfl := Option.some.inj h₅
    obtain rfl := Option.some.inj h₆
    obtain rfl : secondNumber = position := Exchange.saved.inj (Option.some.inj hroute)
    decide
  have hexclusive : ∀ s, IdentityGenerator.Exclusive
      (SourceStores.twoVessels.generateCalls (SourceStores.twoVesselsOutcome s)) := by
    intro s
    cases s <;> decide
  have hhanded : enrichPosition (identityStores SourceStores.twoVessels
      SourceStores.twoVesselsOutcome) ⟨500⟩ secondNumber ∈ b.handed () := by
    obtain rfl := Option.some.inj hrun
    exact List.mem_cons_self
  obtain ⟨v, -, hidentity, htracks⟩ := shown_reports_on_tracks SourceStores.twoVessels
    SourceStores.twoVesselsOutcome hexclusive secondNumberShown b hsimulated hrun _
    (Or.inr ⟨(), hhanded⟩)
  have hv : (enrichPosition (identityStores SourceStores.twoVessels
      SourceStores.twoVesselsOutcome) ⟨500⟩ secondNumber).identity = some ⟨1⟩ := by decide
  obtain rfl := Option.some.inj (hidentity.symm.trans hv)
  exact ⟨b, hrun, htracks⟩

end CwatchBackendMain

end CwatchBackend
