import CwatchBackend.Process.Enrichment
import CwatchBackend.Process.ProfileRuns
import CwatchBackend.Store.SaveSteps

/-!
# The routes

`RouteConfiguration`: a report that is sent into the route of its source is first saved in the store
of the source and then processed by `DefaultLatestPositionService`, which enriches it and passes it
to every profile of its cache.  The processors of a route run one after the other in the thread of
the sender, and one that throws ends the route; the profiles are processed in parallel.

Any number of threads send reports, and their steps come in any order: the steps of `save`, the
tests of a profile for a report, the delivery of a report to one view.  Any of them may throw
instead.  Profiles come and go with the cache, and views register at any time.

At every moment whatever a profile or a view has seen of a report is found in the store of its
source (`shown_reports_are_stored`): the second processor starts only when `save` has returned, and
the laws of the store promise the rest.
-/

namespace CwatchBackend

open Foundation MemoryLatestPositionProfile DefaultEnrichmentService

/-- The thread has sent a report into its route: the first processor is running, or it has returned
and the second one has not begun. -/
inductive Exchange where
  | saving (position : SourcePosition)
  | saved (position : SourcePosition)

/-- The three stores with the calls of `save` in progress, the routes of the threads, the profiles
created so far, the `profileCache` of `DefaultLatestPositionService` with the places of the profiles
in it, the reports that the profiles have still to test, the reports that are being delivered, each
with the views it has still to be handed to, and what every view has been handed. -/
structure Backend (V W T : Type) (S : ∀ s : Source, SaveSteps s.Id) where
  saves : ∀ s : Source, SaveSteps.Saves (S s) T
  route : T → Option Exchange
  profiles : List (MemoryLatestPositionProfile (Option V) W)
  profileCache : List ℕ
  tests : List (ℕ × Enriched (Option V))
  deliveries : List (Enriched (Option V) × List W)
  handed : W → List (Enriched (Option V))

namespace Backend

variable {V W T : Type} {S : ∀ s : Source, SaveSteps s.Id}

/-- The backend before the first report. -/
def start (V W T : Type) (S : ∀ s : Source, SaveSteps s.Id) : Backend V W T S where
  saves s := .start (S s) T
  route := fun _ => none
  profiles := []
  profileCache := []
  tests := []
  deliveries := []
  handed := fun _ => []

/-- The steps.  A thread sends a report, and its call of `save` gets on; it begins the second
processor, where the identity of the report comes out of the given stores at the given clock
reading; a profile tests a report at the clock reading `now`, to iterate its views in the order
`order`; a report is handed to the next view; a route, a test or a delivery is cut off by an
exception; a profile is loaded into the cache or collected from it, and a view registers. -/
inductive Action (V W T : Type) where
  | send (t : T) (position : SourcePosition)
  | advance (t : T)
  | process (t : T) (stores : DefaultIdentityStores V) (clock : Date)
  | test (i : ℕ) (now : Int64) (order : List W)
  | deliver (i : ℕ)
  | throwRoute (t : T)
  | throwTest (i : ℕ)
  | throwDelivery (i : ℕ)
  | load (positionFilter : EnrichedPositionFilter (Option V)) (timeoutMilliseconds : Int64)
  | collect (q : ℕ)
  | register (q : ℕ) (view : W)

variable [DecidableEq V] [DecidableEq W] [DecidableEq T]

/-- One step. -/
def step (b : Backend V W T S) : Action V W T → Option (Backend V W T S)
  | .send t position =>
    match b.route t with
    | some _ => none
    | none =>
      some { b with
        saves := Function.update b.saves position.source
          ((b.saves position.source).beginSave t position.position)
        route := Function.update b.route t (some (.saving position)) }
  | .advance t =>
    match b.route t with
    | some (.saving position) =>
      match (b.saves position.source).saving t with
      | none => none
      | some call =>
        let saves := (b.saves position.source).advance t call
        some { b with
          saves := Function.update b.saves position.source saves
          route :=
            -- When `save` has returned, the route goes on.
            if (saves.saving t).isNone then Function.update b.route t (some (.saved position))
            else b.route }
    | _ => none
  | .process t stores clock =>
    match b.route t with
    | some (.saved position) =>
      -- The tests run in parallel, so the thread need not wait for them here.
      let e := enrichPosition stores clock position
      some { b with
        route := Function.update b.route t none
        tests := b.tests ++ b.profileCache.map fun q => (q, e) }
    | _ => none
  | .test i now order =>
    match b.tests[i]? with
    | none => none
    | some (q, e) =>
      match b.profiles[q]? with
      | none => none
      | some profile =>
        if ∀ w ∈ order, w ∈ profile.views then
          match profile.handsOver now e with
          | (true, profile) =>
            some { b with
              profiles := b.profiles.set q profile
              tests := b.tests.eraseIdx i
              deliveries := b.deliveries ++ [(e, order)] }
          | (false, profile) =>
            some { b with profiles := b.profiles.set q profile, tests := b.tests.eraseIdx i }
        else none
  | .deliver i =>
    match b.deliveries[i]? with
    | some (e, w :: remaining) =>
      some { b with
        deliveries := b.deliveries.set i (e, remaining)
        handed := Function.update b.handed w (b.handed w ++ [e]) }
    | _ => none
  | .throwRoute t =>
    match b.route t with
    | none => none
    | some (.saving position) =>
      some { b with
        saves := Function.update b.saves position.source ((b.saves position.source).throw t)
        route := Function.update b.route t none }
    | some (.saved _) => some { b with route := Function.update b.route t none }
  | .throwTest i => some { b with tests := b.tests.eraseIdx i }
  | .throwDelivery i => some { b with deliveries := b.deliveries.eraseIdx i }
  | .load positionFilter timeoutMilliseconds =>
    some { b with
      profiles := b.profiles ++ [.new positionFilter timeoutMilliseconds]
      profileCache := b.profileCache ++ [b.profiles.length] }
  | .collect q => some { b with profileCache := b.profileCache.erase q }
  | .register q view =>
    match b.profiles[q]? with
    | none => none
    | some profile => some { b with profiles := b.profiles.set q (profile.register view) }

/-! ### The reports with which the second processor has begun -/

section Processed

omit [DecidableEq V] [DecidableEq W] [DecidableEq T]

/-- The report is an entry of the `positionMap` of a profile. -/
def IsEntry (b : Backend V W T S) (e : Enriched (Option V)) : Prop :=
  ∃ profile ∈ b.profiles, ∃ v, profile.positionMap v = some e

/-- The second processor has begun with the report: a profile is going to test it, has it in its
`positionMap` or is delivering it, or a view has been handed it. -/
inductive Processed (b : Backend V W T S) (e : Enriched (Option V)) : Prop where
  | test (q : ℕ) (h : (q, e) ∈ b.tests)
  | entry (h : b.IsEntry e)
  | delivery (order : List W) (h : (e, order) ∈ b.deliveries)
  | handed (w : W) (h : e ∈ b.handed w)

/-- What holds of the reports with which the second processor has begun. -/
theorem forall_processed_iff {b : Backend V W T S} {P : Enriched (Option V) → Prop} :
    (∀ e, b.Processed e → P e) ↔ (∀ x ∈ b.tests, P x.2) ∧ (∀ e, b.IsEntry e → P e) ∧
      (∀ d ∈ b.deliveries, P d.1) ∧ ∀ w, ∀ e ∈ b.handed w, P e := by
  constructor
  · exact fun h => ⟨fun x hx => h x.2 (.test x.1 hx), fun e he => h e (.entry he),
      fun d hd => h d.1 (.delivery d.2 hd), fun w e he => h e (.handed w he)⟩
  · rintro ⟨htest, hentry, hdelivery, hhanded⟩ e he
    cases he with
    | test q he => exact htest (q, e) he
    | entry he => exact hentry e he
    | delivery order he => exact hdelivery (e, order) he
    | handed w he => exact hhanded w e he

/-- The places where a report is with which the second processor has begun. -/
theorem forall_processed (b : Backend V W T S) :
    (∀ x ∈ b.tests, b.Processed x.2) ∧ (∀ e, b.IsEntry e → b.Processed e) ∧
      (∀ d ∈ b.deliveries, b.Processed d.1) ∧ ∀ w, ∀ e ∈ b.handed w, b.Processed e :=
  forall_processed_iff.mp fun _ he => he

/-- It depends on neither the calls of `save` nor the routes nor the cache with which reports the
second processor has begun. -/
theorem processed_congr {b b' : Backend V W T S} {e : Enriched (Option V)} (h : b'.Processed e)
    (hprofiles : b'.profiles = b.profiles) (htests : b'.tests = b.tests)
    (hdeliveries : b'.deliveries = b.deliveries) (hhanded : b'.handed = b.handed) :
    b.Processed e := by
  cases h with
  | test q h => exact .test q (htests ▸ h)
  | entry h =>
    obtain ⟨profile, hmem, hentry⟩ := h
    exact .entry ⟨profile, hprofiles ▸ hmem, hentry⟩
  | delivery order h => exact .delivery order (hdeliveries ▸ h)
  | handed w h => exact .handed w (hhanded ▸ h)

/-- The entries of the profiles when one of them has been replaced. -/
theorem isEntry_of_set {b b' : Backend V W T S} {q : ℕ}
    {profile : MemoryLatestPositionProfile (Option V) W}
    (hprofiles : b'.profiles = b.profiles.set q profile) {e : Enriched (Option V)}
    (h : b'.IsEntry e) : b.IsEntry e ∨ ∃ v, profile.positionMap v = some e := by
  obtain ⟨profile', hmem, v, hv⟩ := h
  rw [hprofiles] at hmem
  rcases List.mem_or_eq_of_mem_set hmem with hmem | rfl
  · exact Or.inl ⟨profile', hmem, v, hv⟩
  · exact Or.inr ⟨v, hv⟩

/-- A step that leaves the calls of `save` and the routes alone, and passes on only reports with
which the second processor has begun. -/
structure PassesOn (b b' : Backend V W T S) : Prop where
  saves : b'.saves = b.saves
  route : b'.route = b.route
  processed : ∀ e, b'.Processed e → b.Processed e

end Processed

/-! ### What a step does -/

/-- A profile tests a report. -/
theorem passesOn_test {b b' : Backend V W T S} {i : ℕ} {now : Int64} {order : List W}
    (h : b.step (.test i now order) = some b') : b.PassesOn b' := by
  obtain ⟨htests, hentries, hdeliveries, hhanded⟩ := b.forall_processed
  rw [step] at h
  split at h
  · cases h
  next q e htest =>
  split at h
  · cases h
  next profile hprofile =>
  have he : b.Processed e := .test q (List.mem_of_getElem? htest)
  -- The profile has at most one new entry, the report that was to be tested.
  have hentry : ∀ {b' : Backend V W T S} {f}, b'.profiles =
      b.profiles.set q (profile.handsOver now e).2 → b'.IsEntry f → b.Processed f := by
    intro b' f hprofiles hf
    rcases isEntry_of_set hprofiles hf with hf | ⟨v, hv⟩
    · exact .entry hf
    · rcases positionMap_handsOver hv with rfl | hv
      · exact he
      · exact .entry ⟨profile, List.mem_of_getElem? hprofile, v, hv⟩
  split at h
  · split at h
    · next profile' hhands =>
      obtain rfl := Option.some.inj h
      refine ⟨rfl, rfl, forall_processed_iff.mpr ⟨?_, ?_, ?_, hhanded⟩⟩
      · intro x hx
        exact htests x (List.mem_of_mem_eraseIdx hx)
      · intro f hf
        exact hentry (by rw [hhands]) hf
      · intro d hd
        rcases List.mem_append.mp hd with hd | hd
        · exact hdeliveries d hd
        · exact (List.mem_singleton.mp hd) ▸ he
    · next profile' hhands =>
      obtain rfl := Option.some.inj h
      refine ⟨rfl, rfl, forall_processed_iff.mpr ⟨?_, ?_, hdeliveries, hhanded⟩⟩
      · intro x hx
        exact htests x (List.mem_of_mem_eraseIdx hx)
      · intro f hf
        exact hentry (by rw [hhands]) hf
  · cases h

/-- A report is handed to a view. -/
theorem passesOn_deliver {b b' : Backend V W T S} {i : ℕ} (h : b.step (.deliver i) = some b') :
    b.PassesOn b' := by
  obtain ⟨htests, hentries, hdeliveries, hhanded⟩ := b.forall_processed
  rw [step] at h
  split at h
  · next e w remaining hi =>
    have he : b.Processed e := .delivery (w :: remaining) (List.mem_of_getElem? hi)
    obtain rfl := Option.some.inj h
    refine ⟨rfl, rfl, forall_processed_iff.mpr ⟨htests, hentries, ?_, ?_⟩⟩
    · intro d hd
      rcases List.mem_or_eq_of_mem_set hd with hd | rfl
      · exact hdeliveries d hd
      · exact he
    · intro u f hf
      have hhands : f ∈ Function.update b.handed w (b.handed w ++ [e]) u := hf
      by_cases hu : u = w
      · rw [hu, Function.update_self] at hhands
        rcases List.mem_append.mp hhands with hf | hf
        · exact hhanded w f hf
        · exact List.mem_singleton.mp hf ▸ he
      · rw [Function.update_of_ne hu] at hhands
        exact hhanded u f hhands
  · cases h

/-- A profile is loaded into the cache. -/
theorem passesOn_load {b b' : Backend V W T S}
    {positionFilter : EnrichedPositionFilter (Option V)} {timeoutMilliseconds : Int64}
    (h : b.step (.load positionFilter timeoutMilliseconds) = some b') : b.PassesOn b' := by
  obtain ⟨htests, hentries, hdeliveries, hhanded⟩ := b.forall_processed
  obtain rfl := Option.some.inj h
  refine ⟨rfl, rfl, forall_processed_iff.mpr ⟨htests, ?_, hdeliveries, hhanded⟩⟩
  rintro f ⟨profile, hmem, v, hv⟩
  rcases List.mem_append.mp hmem with hmem | hmem
  · exact .entry ⟨profile, hmem, v, hv⟩
  · rw [List.mem_singleton.mp hmem] at hv
    cases hv

/-- A view registers. -/
theorem passesOn_register {b b' : Backend V W T S} {q : ℕ} {view : W}
    (h : b.step (.register q view) = some b') : b.PassesOn b' := by
  obtain ⟨htests, hentries, hdeliveries, hhanded⟩ := b.forall_processed
  rw [step] at h
  split at h
  · cases h
  · next profile hprofile =>
    obtain rfl := Option.some.inj h
    refine ⟨rfl, rfl, forall_processed_iff.mpr ⟨htests, fun f hf => ?_, hdeliveries, hhanded⟩⟩
    rcases isEntry_of_set rfl hf with hf | ⟨v, hv⟩
    · exact .entry hf
    · exact .entry ⟨profile, List.mem_of_getElem? hprofile, v, hv⟩

/-- A test is cut off. -/
theorem passesOn_throwTest {b b' : Backend V W T S} {i : ℕ}
    (h : b.step (.throwTest i) = some b') : b.PassesOn b' := by
  obtain ⟨htests, hentries, hdeliveries, hhanded⟩ := b.forall_processed
  obtain rfl := Option.some.inj h
  exact ⟨rfl, rfl, forall_processed_iff.mpr
    ⟨fun x hx => htests x (List.mem_of_mem_eraseIdx hx), hentries, hdeliveries, hhanded⟩⟩

/-- A delivery is cut off. -/
theorem passesOn_throwDelivery {b b' : Backend V W T S} {i : ℕ}
    (h : b.step (.throwDelivery i) = some b') : b.PassesOn b' := by
  obtain ⟨htests, hentries, hdeliveries, hhanded⟩ := b.forall_processed
  obtain rfl := Option.some.inj h
  exact ⟨rfl, rfl, forall_processed_iff.mpr
    ⟨htests, hentries, fun d hd => hdeliveries d (List.mem_of_mem_eraseIdx hd), hhanded⟩⟩

/-- A profile is collected. -/
theorem passesOn_collect {b b' : Backend V W T S} {q : ℕ} (h : b.step (.collect q) = some b') :
    b.PassesOn b' := by
  obtain rfl := Option.some.inj h
  exact ⟨rfl, rfl, fun e he => processed_congr he rfl rfl rfl rfl⟩

omit [DecidableEq V] [DecidableEq W] [DecidableEq T] in
/-- The second processor begins with the report `e`. -/
theorem processed_process {b : Backend V W T S} {route : T → Option Exchange}
    {e : Enriched (Option V)} :
    ∀ f, Processed { b with
      route := route, tests := b.tests ++ b.profileCache.map fun q => (q, e) } f →
      b.Processed f ∨ f = e := by
  obtain ⟨htests, hentries, hdeliveries, hhanded⟩ := b.forall_processed
  refine forall_processed_iff.mpr ⟨fun x hx => ?_, fun f hf => Or.inl (hentries f hf),
    fun d hd => Or.inl (hdeliveries d hd), fun w f hf => Or.inl (hhanded w f hf)⟩
  rcases List.mem_append.mp hx with hx | hx
  · exact Or.inl (htests x hx)
  · obtain ⟨q, -, rfl⟩ := List.mem_map.mp hx
    exact Or.inr rfl

/-- The report that a step sends into its route. -/
def sentReport? : Action V W T → Option SourcePosition
  | .send _ position => some position
  | _ => none

/-- The steps by what they do to the calls of `save` and to the routes: a thread sends a report,
gets on with its call of `save` or is cut off in it; it leaves its route after `save`, cut off or
with the second processor begun; or only tests and deliveries get on. -/
inductive Stepped (b : Backend V W T S) : Action V W T → Backend V W T S → Prop
  | send (t : T) (p : SourcePosition) (free : b.route t = none) :
      Stepped b (.send t p) { b with
        saves := Function.update b.saves p.source ((b.saves p.source).beginSave t p.position)
        route := Function.update b.route t (some (.saving p)) }
  | advance (t : T) (p : SourcePosition) (call : (S p.source).Call)
      (hroute : b.route t = some (.saving p)) (hcall : (b.saves p.source).saving t = some call) :
      Stepped b (.advance t) { b with
        saves := Function.update b.saves p.source ((b.saves p.source).advance t call)
        route :=
          if (((b.saves p.source).advance t call).saving t).isNone then
            Function.update b.route t (some (.saved p))
          else b.route }
  | throwSave (t : T) (p : SourcePosition) (hroute : b.route t = some (.saving p)) :
      Stepped b (.throwRoute t) { b with
        saves := Function.update b.saves p.source ((b.saves p.source).throw t)
        route := Function.update b.route t none }
  | throwSaved (t : T) (p : SourcePosition) (hroute : b.route t = some (.saved p)) :
      Stepped b (.throwRoute t) { b with route := Function.update b.route t none }
  | process (t : T) (stores : DefaultIdentityStores V) (clock : Date) (p : SourcePosition)
      (hroute : b.route t = some (.saved p)) :
      Stepped b (.process t stores clock) { b with
        route := Function.update b.route t none
        tests := b.tests ++ b.profileCache.map fun q => (q, enrichPosition stores clock p) }
  | passOn (action : Action V W T) (b' : Backend V W T S) (hquiet : sentReport? action = none)
      (hpasses : b.PassesOn b') : Stepped b action b'

/-- Every step is one of these. -/
theorem stepped_of_step {b b' : Backend V W T S} {action : Action V W T}
    (h : b.step action = some b') : Stepped b action b' := by
  cases action with
  | send t p =>
    cases hroute : b.route t with
    | some x => simp only [step, hroute, reduceCtorEq] at h
    | none =>
      simp only [step, hroute] at h
      exact Option.some.inj h ▸ .send t p hroute
  | advance t =>
    cases hroute : b.route t with
    | none => simp only [step, hroute, reduceCtorEq] at h
    | some x =>
      cases x with
      | saved p => simp only [step, hroute, reduceCtorEq] at h
      | saving p =>
        cases hcall : (b.saves p.source).saving t with
        | none => simp only [step, hroute, hcall, reduceCtorEq] at h
        | some call =>
          simp only [step, hroute, hcall] at h
          exact Option.some.inj h ▸ .advance t p call hroute hcall
  | throwRoute t =>
    cases hroute : b.route t with
    | none => simp only [step, hroute, reduceCtorEq] at h
    | some x =>
      simp only [step, hroute] at h
      cases x with
      | saving p => exact Option.some.inj h ▸ .throwSave t p hroute
      | saved p => exact Option.some.inj h ▸ .throwSaved t p hroute
  | process t stores clock =>
    cases hroute : b.route t with
    | none => simp only [step, hroute, reduceCtorEq] at h
    | some x =>
      cases x with
      | saving p => simp only [step, hroute, reduceCtorEq] at h
      | saved p =>
        simp only [step, hroute] at h
        exact Option.some.inj h ▸ .process t stores clock p hroute
  | test i now order => exact .passOn _ b' rfl (passesOn_test h)
  | deliver i => exact .passOn _ b' rfl (passesOn_deliver h)
  | throwTest i => exact .passOn _ b' rfl (passesOn_throwTest h)
  | throwDelivery i => exact .passOn _ b' rfl (passesOn_throwDelivery h)
  | load positionFilter timeoutMilliseconds => exact .passOn _ b' rfl (passesOn_load h)
  | collect q => exact .passOn _ b' rfl (passesOn_collect h)
  | register q view => exact .passOn _ b' rfl (passesOn_register h)

/-! ### What is shown is stored -/

section Backed

variable (laws : ∀ s : Source, (S s).Laws T)

/-- The store of its source holds the position. -/
def Holds (b : Backend V W T S) (p : SourcePosition) : Prop :=
  (laws p.source).Held (b.saves p.source).store p.position

/-- A thread that is saving has a call with its position, and a position is held when its route has
come to the second processor. -/
structure Backed (b : Backend V W T S) : Prop where
  inv : ∀ s, (laws s).Inv (b.saves s).store (b.saves s).saving
  calling : ∀ t p c, b.route t = some (.saving p) → (b.saves p.source).saving t = some c →
    (S p.source).position c = p.position
  saved : ∀ t p, b.route t = some (.saved p) → b.Holds laws p
  processed : ∀ e, b.Processed e → b.Holds laws e.position

variable {laws}

omit [DecidableEq V] [DecidableEq W] in
/-- Before the first report nothing is processed. -/
theorem backed_start : Backed laws (start V W T S) where
  inv s := (laws s).inv_init
  calling t p c h := by cases h
  saved t p h := by cases h
  processed e he := by
    cases he with
    | test q he => cases he
    | entry he =>
      obtain ⟨profile, hmem, -⟩ := he
      cases hmem
    | delivery order he => cases he
    | handed w he => cases he

omit [DecidableEq V] [DecidableEq W] in
/-- A step of a thread in the route of the report `p`, given what it does to the store of the source
and how the route goes on. -/
theorem Backed.update_saves {b : Backend V W T S} (h : Backed laws b) (t : T) (p : SourcePosition)
    {saves : SaveSteps.Saves (S p.source) T} {route : T → Option Exchange}
    (hinv : (laws p.source).Inv saves.store saves.saving)
    (hheld : ∀ q, (laws p.source).Held (b.saves p.source).store q →
      (laws p.source).Held saves.store q)
    (hsaving : ∀ u, u ≠ t → saves.saving u = (b.saves p.source).saving u)
    (hroute : ∀ u, u ≠ t → route u = b.route u)
    (hnext : route t = none ∨
      route t = some (.saved p) ∧ (laws p.source).Held saves.store p.position ∨
      route t = some (.saving p) ∧
        ∀ c, saves.saving t = some c → (S p.source).position c = p.position) :
    Backed laws { b with saves := Function.update b.saves p.source saves, route := route } := by
  have hself : Function.update b.saves p.source saves p.source = saves :=
    Function.update_self _ _ _
  have hheld' : ∀ q : SourcePosition, b.Holds laws q →
      (laws q.source).Held (Function.update b.saves p.source saves q.source).store q.position := by
    have hall := (Function.forall_update_iff b.saves fun s x =>
      ∀ q, (laws s).Held (b.saves s).store q → (laws s).Held x.store q).mpr
      ⟨hheld, fun s _ q hq => hq⟩
    exact fun q hq => hall q.source q.position hq
  have hsaving' : ∀ s u, u ≠ t →
      (Function.update b.saves p.source saves s).saving u = (b.saves s).saving u :=
    (Function.forall_update_iff b.saves fun s x =>
      ∀ u, u ≠ t → x.saving u = (b.saves s).saving u).mpr ⟨hsaving, fun s _ u _ => rfl⟩
  constructor
  · exact (Function.forall_update_iff b.saves fun s x => (laws s).Inv x.store x.saving).mpr
      ⟨hinv, fun s _ => h.inv s⟩
  · intro u q c hq hc
    by_cases hu : u = t
    · subst hu
      rcases hnext with hnext | ⟨hnext, -⟩ | ⟨hnext, hposition⟩
      · cases hnext.symm.trans hq
      · cases hnext.symm.trans hq
      · obtain rfl : p = q := Exchange.saving.inj (Option.some.inj (hnext.symm.trans hq))
        have hc : (Function.update b.saves p.source saves p.source).saving u = some c := hc
        rw [hself] at hc
        exact hposition c hc
    · exact h.calling u q c (hroute u hu ▸ hq) (hsaving' _ u hu ▸ hc)
  · intro u q hq
    by_cases hu : u = t
    · subst hu
      rcases hnext with hnext | ⟨hnext, hposition⟩ | ⟨hnext, -⟩
      · cases hnext.symm.trans hq
      · obtain rfl : p = q := Exchange.saved.inj (Option.some.inj (hnext.symm.trans hq))
        have hheld : (laws p.source).Held (Function.update b.saves p.source saves p.source).store
            p.position := by
          rw [hself]
          exact hposition
        exact hheld
      · cases hnext.symm.trans hq
    · exact hheld' q (h.saved u q (hroute u hu ▸ hq))
  · intro e he
    exact hheld' e.position (h.processed e (processed_congr he rfl rfl rfl rfl))

omit [DecidableEq V] [DecidableEq W] in
/-- A thread begins to save a report. -/
theorem Backed.send {b : Backend V W T S} (h : Backed laws b) (t : T) (p : SourcePosition) :
    Backed laws { b with
      saves := Function.update b.saves p.source ((b.saves p.source).beginSave t p.position)
      route := Function.update b.route t (some (.saving p)) } := by
  have hinv := (laws p.source).inv_beginSave t p.position (h.inv p.source)
  refine h.update_saves t p hinv (fun q hq => (laws p.source).held_beginSave p.position hq)
    (fun u hu => Function.update_of_ne hu _ _) (fun u hu => Function.update_of_ne hu _ _)
    (Or.inr (Or.inr ⟨Function.update_self _ _ _, fun c hc => ?_⟩))
  rw [SaveSteps.Saves.saving_beginSave] at hc
  exact Option.some.inj hc ▸ (laws p.source).position_beginSave _ _

omit [DecidableEq V] [DecidableEq W] in
/-- A call of `save` makes a step; if it returns, its position is held. -/
theorem Backed.advance {b : Backend V W T S} (h : Backed laws b) {t : T} {p : SourcePosition}
    {call : (S p.source).Call} (hroute : b.route t = some (.saving p))
    (hcall : (b.saves p.source).saving t = some call) :
    Backed laws { b with
      saves := Function.update b.saves p.source ((b.saves p.source).advance t call)
      route :=
        if (((b.saves p.source).advance t call).saving t).isNone then
          Function.update b.route t (some (.saved p))
        else b.route } := by
  have hinv := (laws p.source).inv_advance (h.inv p.source) hcall
  have hposition : (S p.source).position call = p.position := h.calling t p call hroute hcall
  refine h.update_saves t p hinv
    (fun q hq => (laws p.source).held_advance (h.inv p.source) hcall hq)
    (fun u hu => Function.update_of_ne hu _ _) (fun u hu => ?_) ?_
  · split
    · exact Function.update_of_ne hu _ _
    · rfl
  · rw [SaveSteps.Saves.saving_advance]
    cases hreturn : ((S p.source).advance call (b.saves p.source).store).2 with
    | none =>
      have hheld := (laws p.source).held_of_return (h.inv p.source) hcall hreturn
      exact Or.inr (Or.inl ⟨Function.update_self _ _ _, hposition ▸ hheld⟩)
    | some call' =>
      refine Or.inr (Or.inr ⟨hroute, fun c hc => ?_⟩)
      obtain rfl := Option.some.inj hc
      exact ((laws p.source).position_advance hreturn).trans hposition

omit [DecidableEq V] [DecidableEq W] in
/-- A call of `save` is cut off. -/
theorem Backed.throwSave {b : Backend V W T S} (h : Backed laws b) (t : T) (p : SourcePosition) :
    Backed laws { b with
      saves := Function.update b.saves p.source ((b.saves p.source).throw t)
      route := Function.update b.route t none } :=
  h.update_saves t p ((laws p.source).inv_throw t (h.inv p.source)) (fun _ hq => hq)
    (fun _ hu => Function.update_of_ne hu _ _) (fun _ hu => Function.update_of_ne hu _ _)
    (Or.inl (Function.update_self _ _ _))

omit [DecidableEq V] [DecidableEq W] in
/-- When a thread leaves its route, the other routes stay as they are. -/
theorem eq_some_of_update_none {route : T → Option Exchange} {t u : T} {x : Exchange}
    (h : Function.update route t none u = some x) : route u = some x := by
  by_cases hu : u = t
  · rw [hu, Function.update_self] at h
    cases h
  · rwa [Function.update_of_ne hu] at h

omit [DecidableEq V] [DecidableEq W] in
/-- The stores are left alone, no route gets any further, and whatever is new to the second
processor has been saved. -/
theorem Backed.of_saves_eq {b b' : Backend V W T S} (h : Backed laws b)
    (hsaves : b'.saves = b.saves) (hroute : ∀ u x, b'.route u = some x → b.route u = some x)
    (hprocessed : ∀ e, b'.Processed e → b.Processed e ∨
      ∃ t, b.route t = some (.saved e.position)) : Backed laws b' := by
  have hholds : ∀ q : SourcePosition, b.Holds laws q → b'.Holds laws q := by
    intro q hq
    rw [Holds, hsaves]
    exact hq
  constructor
  · rw [hsaves]
    exact h.inv
  · intro u q c hq hc
    exact h.calling u q c (hroute u _ hq) (hsaves ▸ hc)
  · intro u q hq
    exact hholds q (h.saved u q (hroute u _ hq))
  · intro e he
    rcases hprocessed e he with he | ⟨t, ht⟩
    · exact hholds _ (h.processed e he)
    · exact hholds _ (h.saved t _ ht)

/-- Every step keeps the backend backed. -/
theorem backed_of_step {b b' : Backend V W T S} {action : Action V W T} (h : Backed laws b)
    (hstep : b.step action = some b') : Backed laws b' := by
  cases stepped_of_step hstep with
  | send t p _ => exact h.send t p
  | advance t p call hroute hcall => exact h.advance hroute hcall
  | throwSave t p _ => exact h.throwSave t p
  | throwSaved t p _ =>
    exact h.of_saves_eq rfl (fun u x hx => eq_some_of_update_none hx)
      fun e he => Or.inl (processed_congr he rfl rfl rfl rfl)
  | process t stores clock p hroute =>
    refine h.of_saves_eq rfl (fun u x hx => eq_some_of_update_none hx) fun e he => ?_
    rcases processed_process e he with he | rfl
    · exact Or.inl he
    · exact Or.inr ⟨t, hroute⟩
  | passOn _ _ _ hpasses =>
    exact h.of_saves_eq hpasses.saves (fun u x hx => hpasses.route ▸ hx) fun e he =>
      Or.inl (hpasses.processed e he)

end Backed

/-! ### The backend with its stores -/

/-- The position stores of the three sources. -/
abbrev storesOf (kind : Source → SaveSteps.Kind) (s : Source) : SaveSteps s.Id :=
  SaveSteps.ofKind s.Id (kind s)

/-- At every moment of every run every report that is an entry of the `positionMap` of a profile or
has been handed to a view is returned by the vessel query of the store of its own source over the
whole time line, unless it is stamped `Long.MAX_VALUE`. -/
theorem shown_reports_are_stored (kind : Source → SaveSteps.Kind) (actions : List (Action V W T))
    (b : Backend V W T (storesOf kind))
    (hrun : run step (start V W T (storesOf kind)) actions = some b) (e : Enriched (Option V))
    (he : b.IsEntry e ∨ ∃ w, e ∈ b.handed w) (hmax : e.timestamp < Date.maxValue) :
    some e.position.position ∈ (storesOf kind e.position.source).queryVessel
      (b.saves e.position.source).store e.position.position.id Range.all := by
  have hbacked : Backed (fun s => SaveSteps.lawsOfKind s.Id T (kind s)) b :=
    run_invariant_of_step (fun _ _ _ h hstep => backed_of_step h hstep) backed_start hrun
  have hprocessed : b.Processed e := he.elim .entry fun ⟨w, hw⟩ => .handed w hw
  exact (SaveSteps.lawsOfKind _ T _).found (hbacked.inv e.position.source)
    (hbacked.processed e hprocessed) hmax

/-- The AIS reports are stored by MapDB and the others in memory. -/
def aisInMapdb : Source → SaveSteps.Kind
  | .ais => .mapdb
  | _ => .memory

/-- An AIS report at the time `100`. -/
def aisPosition : SourcePosition := ⟨.ais, ⟨⟨⟨100⟩, 0, 0, 0⟩, (7 : Int32)⟩⟩

/-- A report is sent by one of two threads, passes the tests of the only profile and is handed to
its view; the other thread begins to save the same report and is cut off. -/
def oneReport : List (Action VesselId Unit Bool) :=
  [.load .all 1000, .register 0 (), .send false aisPosition, .advance false, .send true aisPosition,
    .advance false, .advance true, .advance false, .throwRoute true,
    .process false (fun _ => .new) ⟨500⟩, .test 0 500 [()], .deliver 0]

/-- The report that has been handed to the view is found. -/
theorem shown_reports_are_stored_oneReport :
    ∃ b, run step (start VesselId Unit Bool (storesOf aisInMapdb)) oneReport = some b ∧
      some aisPosition.position ∈
        (storesOf aisInMapdb .ais).queryVessel (b.saves .ais).store (7 : Int32) Range.all := by
  obtain ⟨b, hrun⟩ : ∃ b, run step (start VesselId Unit Bool (storesOf aisInMapdb)) oneReport =
      some b := ⟨_, rfl⟩
  have hhanded : enrichPosition (fun _ => .new) ⟨500⟩ aisPosition ∈ b.handed () := by
    obtain rfl := Option.some.inj hrun
    exact List.mem_cons_self
  exact ⟨b, hrun, shown_reports_are_stored aisInMapdb oneReport b hrun
    (enrichPosition (fun _ => .new) ⟨500⟩ aisPosition) (Or.inr ⟨(), hhanded⟩) (by decide)⟩

end Backend

end CwatchBackend
