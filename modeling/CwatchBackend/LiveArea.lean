import CwatchBackend.RouteConfiguration

/-!
# The area query of the live map

`MemoryLatestPositionProfile.queryArea` asks the `positionMap` of a profile for the vessels in an
area.  It finds the vessels whose latest accepted report lies in the area, each once, with this
report (`queryArea_latest`).

The position stores are asked for an area as well.  What the live map finds, the store of its source
finds for the same area over the whole time line, at every moment and whatever the threads
interleave (`live_area_in_stores`): a report enters a `positionMap` only after `save` has added its
entry to the second index, too.
-/

namespace CwatchBackend

open Foundation MapdbPositionStore DefaultEnrichmentService

/-! ### What the live map finds -/

section Latest

variable {V W σ : Type} [DecidableEq V] [DecidableEq W]

omit [DecidableEq V] [DecidableEq W] in
/-- What an area query finds. -/
theorem mem_queryArea {profile : MemoryLatestPositionProfile V W} {order : List V} {box : Box}
    {e : Enriched V} : e ∈ profile.queryArea order box ↔
      (∃ v ∈ order, profile.positionMap v = some e) ∧ box.Contains e.position.default := by
  rw [MemoryLatestPositionProfile.queryArea, List.mem_filter, List.mem_filterMap,
    decide_eq_true_iff]

omit [DecidableEq V] [DecidableEq W] in
/-- The entries of a profile that keeps every report under its vessel stand for different
vessels. -/
theorem map_identity_entries {profile : MemoryLatestPositionProfile V W}
    (hidentity : ∀ v e, profile.positionMap v = some e → e.identity = v) {order : List V}
    (horder : profile.Iterates order) :
    (order.filterMap profile.positionMap).map EnrichedPosition.identity = order := by
  have hsame : ∀ v ∈ order, (profile.positionMap v).map EnrichedPosition.identity = some v := by
    intro v hv
    obtain ⟨e, he⟩ := Option.isSome_iff_exists.mp ((horder.2 v).mp hv)
    rw [he, Option.map_some, hidentity v e he]
  calc (order.filterMap profile.positionMap).map EnrichedPosition.identity
    _ = order.filterMap fun v => (profile.positionMap v).map EnrichedPosition.identity :=
        List.map_filterMap
    _ = order.filterMap some := List.filterMap_congr hsame
    _ = order := List.filterMap_some

omit [DecidableEq V] [DecidableEq W] in
/-- A profile that keeps the latest of the reports finds, in an area, the vessels whose latest
report lies there, each once. -/
theorem queryArea_of_keeps {profile : MemoryLatestPositionProfile V W}
    {reports : List (Enriched V)}
    (hkeeps : Keeps EnrichedPosition.identity EnrichedPosition.timestamp profile.positionMap
      reports)
    {order : List V} (horder : profile.Iterates order) (box : Box) :
    ((profile.queryArea order box).map EnrichedPosition.identity).Nodup ∧
      ∀ e, e ∈ profile.queryArea order box ↔ box.Contains e.position.default ∧
        IsLatest EnrichedPosition.identity EnrichedPosition.timestamp reports e.identity e := by
  constructor
  · have hentries := map_identity_entries (fun v e he => (hkeeps.isLatest v e he).mem.2) horder
    have hnodup : ((order.filterMap profile.positionMap).map EnrichedPosition.identity).Nodup := by
      rw [hentries]
      exact horder.1
    exact hnodup.sublist (List.filter_sublist.map _)
  · intro e
    rw [mem_queryArea, and_comm]
    refine and_congr_right fun _ => ⟨?_, fun hlatest => ?_⟩
    · rintro ⟨v, -, he⟩
      have hlatest := hkeeps.isLatest v e he
      obtain ⟨-, rfl⟩ := hlatest.mem
      exact hlatest
    · obtain ⟨c, hc⟩ := hkeeps.exists_entry e hlatest.mem.1
      obtain rfl : c = e := (hkeeps.isLatest _ c hc).eq hlatest
      exact ⟨c.identity, (horder.2 _).mpr (Option.isSome_iff_exists.mpr ⟨c, hc⟩), hc⟩

/-- After any run of a profile, whatever its views throw, an area query finds the vessels whose
latest accepted report lies in the area, each once, with this report. -/
theorem queryArea_latest (handle : Handler V W σ) (positionFilter : EnrichedPositionFilter V)
    (timeoutMilliseconds : Int64) (views : Finset W) (state : W → σ)
    (calls : List (ProfileState.Call V W)) (s : ProfileState V W σ)
    (hrun : run (ProfileState.step handle)
      (ProfileState.start positionFilter timeoutMilliseconds views state) calls = some s)
    (order : List V) (horder : s.profile.Iterates order) (box : Box) :
    let reports := ProfileState.accepted
      (ProfileState.start positionFilter timeoutMilliseconds views state).profile calls
    ((s.profile.queryArea order box).map EnrichedPosition.identity).Nodup ∧
      ∀ e, e ∈ s.profile.queryArea order box ↔ box.Contains e.position.default ∧
        IsLatest EnrichedPosition.identity EnrichedPosition.timestamp reports e.identity e :=
  queryArea_of_keeps (ProfileState.keeps_of_run hrun).2 horder box

/-- A report of the vessel `1` at a given time and latitude. -/
def reportFrom (time : Int64) (latitude : ℚ) : EnrichedPosition VesselId (Position .ais) :=
  ⟨⟨⟨⟨time⟩, latitude, 0, 0⟩, (7 : Int32)⟩, ⟨1⟩⟩

/-- The vessel reports from two places. -/
def twoPlaces : List (ProfileState.Call VesselId Bool) :=
  [.processAis 500 [] (reportFrom 100 10), .processAis 500 [] (reportFrom 200 20)]

/-- The area of the first place. -/
def firstPlace : Box := ⟨bound 5, bound 15, ⊥, ⊤⟩

/-- The vessel is not found in the first place any more. -/
theorem queryArea_latest_twoPlaces :
    ∃ s, run (ProfileState.step ProfileState.quiet)
        (ProfileState.start .all 1000 ∅ fun _ => ()) twoPlaces = some s ∧
      ∀ e ∈ s.profile.queryArea [⟨1⟩] firstPlace, e.identity ≠ ⟨1⟩ := by
  obtain ⟨s, hrun⟩ : ∃ s, run (ProfileState.step ProfileState.quiet)
      (ProfileState.start .all 1000 ∅ fun _ => ()) twoPlaces = some s := ⟨_, rfl⟩
  have horder : s.profile.Iterates [⟨1⟩] := by
    have hkeeps := (ProfileState.keeps_of_run hrun).2
    refine ⟨List.nodup_singleton _, fun v => ⟨fun hv => ?_, fun hv => ?_⟩⟩
    · obtain rfl := List.mem_singleton.mp hv
      exact Option.isSome_iff_exists.mpr
        (hkeeps.exists_entry (.ofSource .ais (reportFrom 100 10)) List.mem_cons_self)
    · obtain ⟨e, he⟩ := Option.isSome_iff_exists.mp hv
      obtain ⟨hmem, rfl⟩ := (hkeeps.isLatest v e he).mem
      have hone : ∀ e ∈ ProfileState.accepted (ProfileState.start .all 1000 (∅ : Finset Bool)
          fun _ => ()).profile twoPlaces, e.identity ∈ [(⟨1⟩ : VesselId)] := by decide
      exact hone e hmem
  obtain ⟨-, hfound⟩ := queryArea_latest ProfileState.quiet .all 1000 ∅ (fun _ => ()) twoPlaces s
    hrun [⟨1⟩] horder firstPlace
  refine ⟨s, hrun, fun e he hidentity => ?_⟩
  obtain ⟨hbox, hlatest⟩ := (hfound e).mp he
  have hsecond : IsLatest EnrichedPosition.identity EnrichedPosition.timestamp
      (ProfileState.accepted (ProfileState.start .all 1000 (∅ : Finset Bool) fun _ => ()).profile
        twoPlaces) ⟨1⟩ (.ofSource .ais (reportFrom 200 20)) :=
    ⟨[.ofSource .ais (reportFrom 100 10)], [], rfl, rfl, by decide, by decide⟩
  rw [hidentity] at hlatest
  rw [hlatest.eq hsecond] at hbox
  exact absurd hbox.2.1 (by decide)

end Latest

/-! ### What the stores find -/

namespace SaveSteps

variable {I T : Type} [LinearOrder I]

/-- The position has a row with an entry in each of the two indexes. -/
def IndexedTwice (store : MapdbPositionStore I) (p : TypedPosition I) : Prop :=
  ∃ key, (key, p) ∈ store.table.rows.entries ∧
    idTimestampEntry key p ∈ store.lookupIdTimestamp.elements ∧
    timestampEntry key p ∈ store.lookupTimestamp.elements

/-- What is indexed twice has its entry in `lookupIdTimestamp`. -/
theorem IndexedTwice.indexed {store : MapdbPositionStore I} {p : TypedPosition I}
    (h : IndexedTwice store p) : Indexed store p := by
  obtain ⟨key, hrow, hid, -⟩ := h
  exact ⟨key, hrow, hid⟩

omit [LinearOrder I] in
/-- A walk along entries that refer to rows finds the rows, and does not throw. -/
theorem filterBox_eq_ok {os : List (Option (TypedPosition I))} (h : ∀ o ∈ os, ∃ p, o = some p)
    (box : Box) : ∃ found, filterBox box os = .ok found ∧
      ∀ p, some p ∈ os → box.Contains p.toDefaultPosition → p ∈ found := by
  have hsome : os = (os.filterMap id).map some := by
    induction os with
    | nil => rfl
    | cons o os ih =>
      obtain ⟨p, rfl⟩ := h o List.mem_cons_self
      exact congrArg (some p :: ·) (ih fun o ho => h o (List.mem_cons_of_mem _ ho))
  rw [hsome, filterBox_map_some]
  refine ⟨_, rfl, fun p hp hbox => List.mem_filter.mpr ⟨?_, decide_eq_true hbox⟩⟩
  exact (List.mem_map_of_injective (Option.some_injective _)).mp hp

/-- The area query over the whole time line finds what is indexed twice. -/
theorem IndexedTwice.mem_queryArea {store : MapdbPositionStore I}
    {saving : T → Option (Saving I)} {p : TypedPosition I} (h : IndexedTwice store p)
    (hsound : Sound store saving) {box : Box} (hbox : box.Contains p.toDefaultPosition) :
    ∃ found, store.queryArea Range.all box = .ok found ∧ p ∈ found := by
  obtain ⟨key, hrow, -, hentry⟩ := h
  have hrows : ∀ o ∈ (store.areaSlice Range.all).elements.map (store.rowOf 1),
      ∃ q, o = some q := by
    intro o ho
    obtain ⟨x, hx, rfl⟩ := List.mem_map.mp ho
    rw [elements_areaSlice, List.mem_filter] at hx
    obtain ⟨row, hmem, rfl⟩ := hsound.timestamp x hx.1
    exact ⟨row.2, store.table.rows.get_of_mem hmem⟩
  have hslice : timestampEntry key p ∈ (store.areaSlice Range.all).elements := by
    rw [elements_areaSlice, List.mem_filter, decide_eq_true_iff, areaSlice_timestampEntry]
    exact ⟨hentry, areaSliced_all _⟩
  obtain ⟨found, hfound, hmem⟩ := filterBox_eq_ok hrows box
  refine ⟨found, hfound, hmem p ?_ hbox⟩
  exact List.mem_map.mpr ⟨_, hslice, store.table.rows.get_of_mem hrow⟩

variable [DecidableEq T] {store : MapdbPositionStore I} {saving : T → Option (Saving I)}

omit [DecidableEq T] in
/-- What is indexed twice stays so while a call makes a step. -/
theorem IndexedTwice.advance {p : TypedPosition I} (h : IndexedTwice store p)
    (hsaves : ListenedSaves store saving) {t : T} {call : Saving I} (ht : saving t = some call) :
    IndexedTwice (call.advance store).1 p := by
  obtain ⟨k, hrow, hid, htime⟩ := h
  obtain ⟨key, position, stage⟩ := call
  cases stage with
  | numbered => exact ⟨k, (mem_put_rows (hsaves.fresh t _ ht rfl)).mpr (Or.inr hrow), hid, htime⟩
  | stored => exact ⟨k, hrow, NavigableSet.mem_add.mpr (Or.inr hid), htime⟩
  | idIndexed => exact ⟨k, hrow, hid, NavigableSet.mem_add.mpr (Or.inr htime)⟩

omit [DecidableEq T] in
/-- When a call returns, its position is indexed twice. -/
theorem indexedTwice_of_return (hsaves : ListenedSaves store saving) {t : T} {call : Saving I}
    (ht : saving t = some call) (hreturn : (call.advance store).2 = none) :
    IndexedTwice (call.advance store).1 call.position := by
  obtain ⟨key, position, stage⟩ := call
  cases stage with
  | numbered => simp [Saving.advance, hsaves.listening] at hreturn
  | stored => cases hreturn
  | idIndexed =>
    have hstored : Stage.idIndexed ≠ .numbered := by decide
    exact ⟨key, hsaves.row t _ ht hstored, hsaves.indexed t _ ht rfl,
      NavigableSet.mem_add.mpr (Or.inl rfl)⟩

/-- The store over MapDB holds what is indexed twice. -/
def mapdbAreaLaws (I T : Type) [LinearOrder I] [DecidableEq T] : (mapdb I).Laws T :=
  { mapdbLaws I T with
    Held := IndexedTwice
    held_beginSave := fun _ h => h
    held_advance := fun hsaves ht h => IndexedTwice.advance h hsaves ht
    held_of_return := fun hsaves ht hreturn => indexedTwice_of_return hsaves ht hreturn
    found := fun _ h hmax => (IndexedTwice.indexed h).mem_queryVessel hmax }

/-- The laws under which a store of either kind answers area queries. -/
def areaLawsOfKind (I T : Type) [LinearOrder I] [DecidableEq T] :
    ∀ kind : Kind, (ofKind I kind).Laws T
  | .memory => memoryLaws I T
  | .mapdb => mapdbAreaLaws I T

/-- `queryArea` of a store of either kind. -/
def queryArea : ∀ kind : Kind, (ofKind I kind).Store → Range Date → Box →
    Except Throwable (List (TypedPosition I))
  | .memory => fun (store : MemoryPositionStore I) period box => .ok (store.queryArea period box)
  | .mapdb => MapdbPositionStore.queryArea

/-- A store of either kind finds what it holds. -/
theorem exists_queryArea {kind : Kind} {store : (ofKind I kind).Store}
    {saving : T → Option (ofKind I kind).Call} {p : TypedPosition I} {box : Box}
    (hinv : (areaLawsOfKind I T kind).Inv store saving)
    (hheld : (areaLawsOfKind I T kind).Held store p) (hbox : box.Contains p.toDefaultPosition) :
    ∃ found, queryArea kind store Range.all box = .ok found ∧ p ∈ found := by
  cases kind with
  | memory =>
    exact ⟨_, rfl, List.mem_filter.mpr ⟨hheld, decide_eq_true ⟨Range.mem_all _, hbox⟩⟩⟩
  | mapdb =>
    have hindexed : IndexedTwice store p := hheld
    exact hindexed.mem_queryArea (ListenedSaves.toSound hinv) hbox

end SaveSteps

namespace Backend

variable {V W T : Type} [DecidableEq V] [DecidableEq W] [DecidableEq T]

/-- At every moment of every run of the routes, whatever throws: what the area query of a profile
finds, in whatever order its map is iterated, is found by the store of its source for the same area
over the whole time line, and that query does not throw. -/
theorem live_area_in_stores (kind : Source → SaveSteps.Kind) (actions : List (Action V W T))
    (b : Backend V W T (storesOf kind))
    (hrun : run step (start V W T (storesOf kind)) actions = some b)
    (profile : MemoryLatestPositionProfile (Option V) W) (hprofile : profile ∈ b.profiles)
    (order : List (Option V)) (box : Box) (e : Enriched (Option V))
    (he : e ∈ profile.queryArea order box) :
    ∃ found, SaveSteps.queryArea (kind e.position.source) (b.saves e.position.source).store
      Range.all box = .ok found ∧ e.position.position ∈ found := by
  have hbacked : Backed (fun s => SaveSteps.areaLawsOfKind s.Id T (kind s)) b :=
    run_invariant_of_step (fun _ _ _ h hstep => backed_of_step h hstep) backed_start hrun
  obtain ⟨⟨v, -, hentry⟩, hbox⟩ := mem_queryArea.mp he
  have hheld := hbacked.processed e (.entry ⟨profile, hprofile, v, hentry⟩)
  exact SaveSteps.exists_queryArea (hbacked.inv e.position.source) hheld hbox

/-- The area query of the only profile finds the report, and so does the store. -/
theorem live_area_in_stores_oneReport :
    ∃ b, run step (start VesselId Unit Bool (storesOf aisInMapdb)) oneReport = some b ∧
      ∃ found, SaveSteps.queryArea (aisInMapdb .ais) (b.saves .ais).store Range.all everywhere =
        .ok found ∧ aisPosition.position ∈ found := by
  obtain ⟨b, hrun⟩ : ∃ b, run step (start VesselId Unit Bool (storesOf aisInMapdb)) oneReport =
      some b := ⟨_, rfl⟩
  obtain ⟨profile, hprofile, hentry⟩ : ∃ profile ∈ b.profiles, profile.positionMap none =
      some (enrichPosition (fun _ => .new) ⟨500⟩ aisPosition) := by
    obtain rfl := Option.some.inj hrun
    exact ⟨_, List.mem_cons_self, rfl⟩
  have hfound : enrichPosition (fun _ => .new) ⟨500⟩ aisPosition ∈
      profile.queryArea [none] everywhere :=
    mem_queryArea.mpr ⟨⟨none, List.mem_cons_self, hentry⟩, everywhere_contains _⟩
  exact ⟨b, hrun, live_area_in_stores aisInMapdb oneReport b hrun profile hprofile [none] everywhere
    _ hfound⟩

end Backend

end CwatchBackend
