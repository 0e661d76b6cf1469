import CwatchBackend.Process.ViewLifetimes

/-!
# What views in use are handed

While no view throws, every reachable view has been handed the records among the reports that its
profile has accepted since it was loaded, apart from those that arrived before the view was
constructed (`live_views_handed`).
-/

namespace CwatchBackend

open Foundation

namespace LatestPositionService

variable {V σ : Type}

/-- The report of the step, if the profile `p` is called and accepts it with this filter and
timeout. -/
def acceptedReport (positionFilter : EnrichedPositionFilter V) (timeoutMilliseconds : Int64)
    (p : ℕ) : Action V → Option (Enriched V)
  | .process calls e =>
    let profile : MemoryLatestPositionProfile V ℕ := .new positionFilter timeoutMilliseconds
    (calls.find? fun call => call.profile = p).bind fun call =>
      if profile.Accepts call.now e then some e else none
  | _ => none

/-- The reports of the steps that the profile `p` accepts, in arrival order. -/
def acceptedReports (positionFilter : EnrichedPositionFilter V) (timeoutMilliseconds : Int64)
    (p : ℕ) (actions : List (Action V)) : List (Enriched V) :=
  actions.filterMap (acceptedReport positionFilter timeoutMilliseconds p)

/-- The accepted reports with a further step. -/
theorem acceptedReports_concat (positionFilter : EnrichedPositionFilter V)
    (timeoutMilliseconds : Int64) (p : ℕ) (actions : List (Action V)) (a : Action V) :
    acceptedReports positionFilter timeoutMilliseconds p (actions ++ [a]) =
      acceptedReports positionFilter timeoutMilliseconds p actions ++
        (acceptedReport positionFilter timeoutMilliseconds p a).toList := by
  rw [acceptedReports, List.filterMap_append, acceptedReports]
  cases ha : acceptedReport positionFilter timeoutMilliseconds p a <;> simp [ha]

/-- The call of a profile among calls of different profiles. -/
theorem find?_profile {calls : List ProfileCall} (hcalls : (calls.map ProfileCall.profile).Nodup)
    {call : ProfileCall} (hcall : call ∈ calls) :
    (calls.find? fun c => c.profile = call.profile) = some call := by
  induction calls with
  | nil => cases hcall
  | cons first calls ih =>
    rw [List.map_cons, List.nodup_cons] at hcalls
    rcases List.mem_cons.mp hcall with rfl | hcall
    · exact List.find?_cons_of_pos (by simp)
    · have hne : first.profile ≠ call.profile := fun heq =>
        hcalls.1 (heq ▸ List.mem_map_of_mem hcall)
      rw [List.find?_cons_of_neg (by simpa using hne), ih hcalls.2 hcall]

variable [DecidableEq V] (beans : ServiceBeans V σ) (state : σ)

/-- The call of `getUnchecked` that comes after the steps `before` loads the profile `p`. -/
def LoadedAfter (before : List (Action V)) (name : String)
    (positionFilter : EnrichedPositionFilter V) (p : ℕ) : Prop :=
  ∃ s, run (step beans) (new state) before = some s ∧ s.profileCache name = none ∧
    beans.getProfile name = some positionFilter ∧ s.profiles.length = p

/-- The constructor call that comes after the steps `before` constructs the view `v`, with the
profile `p`. -/
def ConstructedAfter (before : List (Action V)) (v p : ℕ) : Prop :=
  ∃ s viewId, run (step beans) (new state) before = some s ∧
    s.registering = some (.holding viewId p) ∧ s.views.length = v

/-- No view throws. -/
def ReturnsNormally (s : LatestPositionService V σ) (a : Action V) : Prop :=
  ∀ calls e, a = .process calls e → (s.forEachProfile beans e calls).2 = none

/-- The profile has been loaded after `before`, and `since` are the steps since then. -/
structure ServedSince (before since : List (Action V)) (positionFilter : EnrichedPositionFilter V)
    (states : Views V ℕ σ) (p : ℕ) (loaded : LoadedProfile V) : Prop where
  loadedAfter : LoadedAfter beans state before loaded.name positionFilter p
  filter_eq : loaded.profile.positionFilter = positionFilter
  timeout_eq : loaded.profile.timeoutMilliseconds = beans.timeoutMilliseconds
  keeps : Keeps EnrichedPosition.identity EnrichedPosition.timestamp loaded.profile.positionMap
    (acceptedReports positionFilter beans.timeoutMilliseconds p since)
  handed : ∀ v ∈ loaded.profile.views, ∃ between decodes after,
    since = between ++ .construct decodes :: after ∧
      ConstructedAfter beans state (before ++ .getUnchecked loaded.name :: between) v p ∧
      states.handed v = recordsAfter EnrichedPosition.identity EnrichedPosition.timestamp
        (acceptedReports positionFilter beans.timeoutMilliseconds p between)
        (acceptedReports positionFilter beans.timeoutMilliseconds p after)

/-- Every cached profile has served its views since it was loaded. -/
structure Served (actions : List (Action V)) (s : LatestPositionService V σ) : Prop where
  linked : s.Linked
  fresh : ∀ v, s.views.length ≤ v → s.states.handed v = []
  served : ∀ (p : ℕ) (loaded : LoadedProfile V), s.profiles[p]? = some loaded →
    s.profileCache loaded.name = some p → ∃ before since positionFilter,
      actions = before ++ .getUnchecked loaded.name :: since ∧
        ServedSince beans state before since positionFilter s.states p loaded

variable {beans state} {before since actions : List (Action V)}
  {positionFilter : EnrichedPositionFilter V} {states states' : Views V ℕ σ} {p : ℕ}
  {loaded loaded' : LoadedProfile V} {a : Action V} {s s' : LatestPositionService V σ}

/-- A profile that has just been loaded has no views. -/
theorem servedSince_new {name : String} (h : LoadedAfter beans state before name positionFilter p) :
    ServedSince beans state before [] positionFilter states p
      ⟨name, .new positionFilter beans.timeoutMilliseconds⟩ where
  loadedAfter := h
  filter_eq := rfl
  timeout_eq := rfl
  keeps := keeps_nil
  handed v hv := absurd hv (Finset.notMem_empty v)

/-- A step that is no report and gives the profile no view. -/
theorem ServedSince.quiet
    (h : ServedSince beans state before since positionFilter states p loaded)
    (ha : acceptedReport positionFilter beans.timeoutMilliseconds p a = none)
    (hprofile : ∃ views ⊆ loaded.profile.views,
      loaded' = { loaded with profile := { loaded.profile with views } }) :
    ServedSince beans state before (since ++ [a]) positionFilter states p loaded' := by
  have hreports : ∀ l : List (Action V),
      acceptedReports positionFilter beans.timeoutMilliseconds p (l ++ [a]) =
        acceptedReports positionFilter beans.timeoutMilliseconds p l := by
    intro l
    rw [acceptedReports_concat, ha, Option.toList_none, List.append_nil]
  obtain ⟨views, hviews, rfl⟩ := hprofile
  refine ⟨h.loadedAfter, h.filter_eq, h.timeout_eq, (hreports since).symm ▸ h.keeps, ?_⟩
  intro v hv
  obtain ⟨between, decodes, after, rfl, hconstructed, hhanded⟩ := h.handed v (hviews hv)
  refine ⟨between, decodes, after ++ [a], by simp, hconstructed, ?_⟩
  rw [hreports]
  exact hhanded

/-- A view is constructed for the profile. -/
theorem ServedSince.construct
    (h : ServedSince beans state before since positionFilter states p loaded) {v : ℕ}
    {decodes : Bool}
    (hconstructed : ConstructedAfter beans state (before ++ .getUnchecked loaded.name :: since) v p)
    (hfresh : states.handed v = []) :
    ServedSince beans state before (since ++ [.construct decodes]) positionFilter states p
      { loaded with profile := loaded.profile.register v } := by
  have hquiet := h.quiet (a := .construct decodes) rfl ⟨_, subset_rfl, rfl⟩
  refine ⟨hquiet.loadedAfter, hquiet.filter_eq, hquiet.timeout_eq, hquiet.keeps, ?_⟩
  intro u hu
  rcases Finset.mem_insert.mp hu with rfl | hu
  · exact ⟨since, decodes, [], rfl, hconstructed, hfresh⟩
  · exact hquiet.handed u hu

/-- The profile receives a report and hands it to its views. -/
theorem ServedSince.process {call : ProfileCall}
    (h : ServedSince beans state before since positionFilter states call.profile loaded)
    {calls : List ProfileCall} (hcalls : (calls.map ProfileCall.profile).Nodup)
    (hcall : call ∈ calls) {e : Enriched V}
    (hhanded : ∀ v ∈ loaded.profile.views, states'.handed v =
      states.handed v ++ if (loaded.profile.handsOver call.now e).1 then [e] else []) :
    ServedSince beans state before (since ++ [.process calls e]) positionFilter states'
      call.profile (loaded.receive call.now e) := by
  have haccepts : loaded.profile.Accepts call.now e ↔
      (MemoryLatestPositionProfile.new positionFilter beans.timeoutMilliseconds :
        MemoryLatestPositionProfile V ℕ).Accepts call.now e := by
    rw [MemoryLatestPositionProfile.Accepts, MemoryLatestPositionProfile.testTimeout, h.filter_eq,
      h.timeout_eq]
    rfl
  have hreports : ∀ l : List (Action V),
      acceptedReports positionFilter beans.timeoutMilliseconds call.profile
          (l ++ [.process calls e]) =
        acceptedReports positionFilter beans.timeoutMilliseconds call.profile l ++
          if loaded.profile.Accepts call.now e then [e] else [] := by
    intro l
    rw [acceptedReports_concat, acceptedReport, find?_profile hcalls hcall, Option.bind_some,
      if_congr haccepts rfl rfl]
    split <;> rfl
  have hprofile := loaded.receive_eq call.now e
  rw [MemoryLatestPositionProfile.handsOver_eq] at hhanded
  by_cases hpasses : loaded.profile.Accepts call.now e
  · simp only [if_pos hpasses] at hprofile hreports hhanded
    rw [hprofile]
    refine ⟨h.loadedAfter, h.filter_eq, h.timeout_eq, (hreports since).symm ▸ h.keeps.concat e, ?_⟩
    intro v hv
    obtain ⟨between, decodes, after, rfl, hconstructed, hbefore⟩ := h.handed v hv
    refine ⟨between, decodes, after ++ [.process calls e], by simp, hconstructed, ?_⟩
    -- The report is newer than the entry of its vessel if it exceeds all that has been accepted.
    have hsplit : acceptedReports positionFilter beans.timeoutMilliseconds call.profile
        (between ++ .construct decodes :: after) =
          acceptedReports positionFilter beans.timeoutMilliseconds call.profile between ++
            acceptedReports positionFilter beans.timeoutMilliseconds call.profile after := by
      rw [acceptedReports, List.filterMap_append, List.filterMap_cons_none rfl]
      rfl
    have hnewer := h.keeps.newer_iff_exceeds (b := e)
    rw [hsplit] at hnewer
    rw [hhanded v hv, hbefore, hreports, recordsAfter_concat, if_congr hnewer.symm rfl rfl]
    simp [MemoryLatestPositionProfile.IsNewer]
  · simp only [if_neg hpasses, List.append_nil] at hprofile hreports hhanded
    rw [hprofile]
    refine ⟨h.loadedAfter, h.filter_eq, h.timeout_eq, (hreports since).symm ▸ h.keeps, ?_⟩
    intro v hv
    obtain ⟨between, decodes, after, rfl, hconstructed, hbefore⟩ := h.handed v hv
    refine ⟨between, decodes, after ++ [.process calls e], by simp, hconstructed, ?_⟩
    rw [hhanded v hv, hbefore, hreports]
    simp

/-! ### Runs -/

/-- Nothing has been loaded yet. -/
theorem served_new : Served beans state [] (new state) where
  linked := linked_new state
  fresh v _ := rfl
  served p loaded hloaded := by cases hloaded

/-- A cached profile has served its views with a further step that is no report and gives it no
view. -/
theorem Served.extend (h : Served beans state actions s) (hloaded : s.profiles[p]? = some loaded)
    (hcache : s.profileCache loaded.name = some p)
    (hreport : ∀ positionFilter,
      acceptedReport positionFilter beans.timeoutMilliseconds p a = none)
    (hprofile : ∃ views ⊆ loaded.profile.views,
      loaded' = { loaded with profile := { loaded.profile with views } }) :
    ∃ before since positionFilter,
      actions ++ [a] = before ++ .getUnchecked loaded'.name :: since ∧
        ServedSince beans state before since positionFilter s.states p loaded' := by
  obtain ⟨before, since, positionFilter, rfl, hserved⟩ := h.served p loaded hloaded hcache
  have hname : loaded'.name = loaded.name := by
    obtain ⟨views, -, rfl⟩ := hprofile
    rfl
  refine ⟨before, since ++ [a], positionFilter, ?_, hserved.quiet (hreport _) hprofile⟩
  rw [hname, List.append_assoc, List.cons_append]

/-- A report is processed and no view throws. -/
theorem Served.process (h : Served beans state actions s) {calls : List ProfileCall}
    {e : Enriched V} (hiterates : s.Iterates calls) (hcompletes : s.Completes calls)
    (hnormal : (s.forEachProfile beans e calls).2 = none) :
    Served beans state (actions ++ [.process calls e]) (s.forEachProfile beans e calls).1 := by
  obtain ⟨hcalls, hiterates⟩ := hiterates
  -- A call iterates the views of its profile.
  have hviews : ∀ call ∈ calls, call.order.Nodup ∧
      ∀ v ∈ call.order, ∃ view, s.views[v]? = some view ∧ view.profile = call.profile := by
    intro call hcall
    obtain ⟨⟨loaded, hloaded, -⟩, horder, hviews⟩ := hiterates call hcall
    refine ⟨horder, fun v hv => h.linked.member call.profile loaded v hloaded ?_⟩
    rw [← hviews loaded hloaded]
    exact List.mem_toFinset.mpr hv
  obtain ⟨profiles, states, hframe⟩ := exists_forEachProfile beans s e calls
  constructor
  case linked => exact h.linked.process hcalls
  case fresh =>
    intro v hv
    rw [hframe] at hv
    rw [handed_forEachProfile_of_notMem]
    · exact h.fresh v hv
    · intro call hcall
      refine ⟨(hviews call hcall).1, fun hmem => ?_⟩
      obtain ⟨view, hview, -⟩ := (hviews call hcall).2 v hmem
      have hlt := (List.getElem?_eq_some_iff.mp hview).1
      exact absurd hv (Nat.not_le_of_lt hlt)
  case served =>
    intro p loaded' hloaded' hcache'
    obtain ⟨loaded, hloaded⟩ := exists_of_getElem?_forEachProfile hloaded'
    obtain ⟨loaded'', hloaded'', hname, -⟩ := exists_getElem?_forEachProfile hcalls hloaded
    obtain rfl := Option.some.inj (hloaded'.symm.trans hloaded'')
    rw [hframe, hname] at hcache'
    have hlt : p < s.profiles.length := (List.getElem?_eq_some_iff.mp hloaded).1
    obtain ⟨call, hcall, rfl⟩ := List.mem_map.mp (hcompletes p hlt ⟨loaded, hloaded, hcache'⟩)
    rw [getElem?_forEachProfile_of_mem hcalls hcall hloaded] at hloaded'
    obtain rfl := Option.some.inj hloaded'
    obtain ⟨before, since, positionFilter, rfl, hserved⟩ := h.served _ loaded hloaded hcache'
    refine ⟨before, since ++ [.process calls e], positionFilter, ?_,
      hserved.process hcalls hcall fun v hv => ?_⟩
    · rw [List.append_assoc, List.cons_append, LoadedProfile.name_receive]
    · obtain ⟨-, horder, hset⟩ := hiterates call hcall
      obtain ⟨pre, post, rfl⟩ := List.append_of_mem hcall
      -- The view is a view of this profile only.
      have hother : ∀ c ∈ pre ++ post, c.order.Nodup ∧ v ∉ c.order := by
        intro c hc
        have hmem : c ∈ pre ++ call :: post := by
          rcases List.mem_append.mp hc with hc | hc
          · exact List.mem_append_left _ hc
          · exact List.mem_append_right _ (List.mem_cons_of_mem _ hc)
        refine ⟨(hviews c hmem).1, fun hv' => ?_⟩
        obtain ⟨view, hview, hprofile⟩ := (hviews c hmem).2 v hv'
        obtain ⟨view', hview', hprofile'⟩ := h.linked.member _ loaded v hloaded hv
        obtain rfl := Option.some.inj (hview.symm.trans hview')
        rw [List.map_append, List.map_cons, List.nodup_middle, ← List.map_append] at hcalls
        refine (List.nodup_cons.mp hcalls).1 (List.mem_map.mpr ⟨c, hc, ?_⟩)
        exact hprofile.symm.trans hprofile'
      refine handed_forEachProfile_of_mem hcalls
        (fun c hc => hother c (List.mem_append_left _ hc))
        (fun c hc => hother c (List.mem_append_right _ hc)) horder ?_ hloaded hnormal
      rw [← hset loaded hloaded] at hv
      exact List.mem_toFinset.mp hv

/-- Every cached profile has served its views with a further step. -/
theorem Served.concat (h : Served beans state actions s)
    (hrun : run (step beans) (new state) actions = some s) (hstep : step beans s a = some s')
    (hnormal : ReturnsNormally beans s a) : Served beans state (actions ++ [a]) s' := by
  have hlinked := linked_of_step h.linked hstep
  cases stepped_of_step hstep with
  | cached name p free hcache =>
    exact ⟨hlinked, h.fresh, fun p loaded hloaded hcache =>
      h.extend hloaded hcache (fun _ => rfl) ⟨_, subset_rfl, rfl⟩⟩
  | unknown name free hcache hprofile =>
    exact ⟨hlinked, h.fresh, fun p loaded hloaded hcache =>
      h.extend hloaded hcache (fun _ => rfl) ⟨_, subset_rfl, rfl⟩⟩
  | loaded name positionFilter free hcache hprofile =>
    refine ⟨hlinked, h.fresh, fun p loaded hloaded hcached => ?_⟩
    rcases getElem?_load_cases hloaded with hold | ⟨rfl, rfl⟩
    · have hlt : p < s.profiles.length := (List.getElem?_eq_some_iff.mp hold).1
      have hname : loaded.name ≠ name := by
        rintro rfl
        rw [profileCache_load_self] at hcached
        exact absurd (Option.some.inj hcached) (Nat.ne_of_gt hlt)
      rw [profileCache_load_of_ne hname] at hcached
      exact h.extend hold hcached (fun _ => rfl) ⟨_, subset_rfl, rfl⟩
    · exact ⟨actions, [], positionFilter, rfl, servedSince_new ⟨s, hrun, hcache, hprofile, rfl⟩⟩
  | construct viewId p decodes hregistering =>
    refine ⟨hlinked, fun v hv => h.fresh v ?_, fun q loaded' hloaded' hcached => ?_⟩
    · rw [LatestPositionService.construct, List.length_append, List.length_singleton] at hv
      omega
    · rw [getElem?_construct] at hloaded'
      obtain ⟨loaded, hloaded, rfl⟩ := Option.map_eq_some_iff.mp hloaded'
      by_cases hpq : p = q
      · subst hpq
        simp only [if_true] at hcached ⊢
        obtain ⟨before, since, positionFilter, rfl, hserved⟩ := h.served p loaded hloaded hcached
        refine ⟨before, since ++ [.construct decodes], positionFilter, ?_, ?_⟩
        · rw [List.append_assoc, List.cons_append]
        · exact hserved.construct ⟨s, viewId, hrun, hregistering, rfl⟩ (h.fresh _ le_rfl)
      · simp only [if_neg hpq] at hcached ⊢
        exact h.extend hloaded hcached (fun _ => rfl) ⟨_, subset_rfl, rfl⟩
  | hold v hregistering =>
    exact ⟨hlinked, h.fresh, fun p loaded hloaded hcache =>
      h.extend hloaded hcache (fun _ => rfl) ⟨_, subset_rfl, rfl⟩⟩
  | drop v =>
    exact ⟨hlinked, h.fresh, fun p loaded hloaded hcache =>
      h.extend hloaded hcache (fun _ => rfl) ⟨_, subset_rfl, rfl⟩⟩
  | process calls e iterates completes =>
    have hreturn := hnormal calls e rfl
    exact h.process iterates (completes hreturn) hreturn
  | collect object unreachable =>
    cases object with
    | view u =>
      refine ⟨hlinked, h.fresh, fun q loaded' hloaded' hcached => ?_⟩
      obtain ⟨loaded, hloaded, rfl⟩ :=
        Option.map_eq_some_iff.mp ((List.getElem?_map ..).symm.trans hloaded')
      exact h.extend hloaded hcached (fun _ => rfl) ⟨_, Finset.erase_subset _ _, rfl⟩
    | profile p =>
      exact ⟨hlinked, h.fresh, fun q loaded hloaded hcached =>
        h.extend hloaded (Option.filter_eq_some_iff.mp hcached).1 (fun _ => rfl)
          ⟨_, subset_rfl, rfl⟩⟩

/-- Every cached profile has served its views in every run in which no view throws. -/
theorem served_of_run (hrun : run (step beans) (new state) actions = some s)
    (hnormal : StepsMeet (step beans) (ReturnsNormally beans) (new state) actions) :
    Served beans state actions s := by
  induction actions using List.reverseRecOn generalizing s with
  | nil => exact Option.some.inj hrun ▸ served_new
  | append_singleton actions a ih =>
    obtain ⟨t, ht, hstep⟩ := run_concat.mp hrun
    exact (ih ht hnormal.of_append).concat ht hstep (hnormal.last ht)

/-- In every run in which no view throws, whenever the garbage collector takes unreachable objects,
a reachable view has been handed the records among the reports that its profile has accepted since
it was loaded, except for those from before the construction of the view. -/
theorem live_views_handed (beans : ServiceBeans V σ) (state : σ)
    (hrun : run (step beans) (new state) actions = some s)
    (hnormal : StepsMeet (step beans) (ReturnsNormally beans) (new state) actions) {v : ℕ}
    (hv : s.Reachable (.view v)) :
    ∃ before name between decodes after positionFilter p,
      actions = before ++ .getUnchecked name :: (between ++ .construct decodes :: after) ∧
        LoadedAfter beans state before name positionFilter p ∧
        ConstructedAfter beans state (before ++ .getUnchecked name :: between) v p ∧
        s.states.handed v = recordsAfter EnrichedPosition.identity EnrichedPosition.timestamp
          (acceptedReports positionFilter beans.timeoutMilliseconds p between)
          (acceptedReports positionFilter beans.timeoutMilliseconds p after) := by
  have h := served_of_run hrun hnormal
  obtain ⟨view, loaded, -, hloaded, hmem, hcache⟩ := h.linked.registered v hv
  obtain ⟨before, since, positionFilter, rfl, hserved⟩ := h.served _ loaded hloaded hcache
  obtain ⟨between, decodes, after, rfl, hconstructed, hhanded⟩ := hserved.handed v hmem
  exact ⟨before, loaded.name, between, decodes, after, positionFilter, view.profile, rfl,
    hserved.loadedAfter, hconstructed, hhanded⟩

/-- Views that never throw return normally. -/
theorem returnsNormally_of_handle (h : ∀ w x e, (beans.handle w x e).2 = none)
    (s : LatestPositionService V σ) (a : Action V) : ReturnsNormally beans s a := by
  have hviews : ∀ (e : Enriched V) (order : List ℕ) (views : Views V ℕ σ),
      (views.forEach beans.handle e order).2 = none := by
    intro e order
    induction order with
    | nil => exact fun views => rfl
    | cons w order ih =>
      intro views
      have hhand : views.hand beans.handle w e = ((views.hand beans.handle w e).1, none) :=
        Prod.ext rfl (h w _ e)
      rw [Views.forEach, hhand]
      exact ih _
  rintro calls e -
  induction calls generalizing s with
  | nil => rfl
  | cons call calls ih =>
    rw [forEachProfile, ih, Option.or_none]
    cases hloaded : s.profiles[call.profile]? with
    | none => rw [processProfile, hloaded]
    | some loaded =>
      rw [processProfile_of_some hloaded]
      dsimp only
      split
      · exact hviews e call.order s.states
      · rfl

/-- An AIS report of the vessel `1`. -/
def reportAt (timestamp : Date) : Enriched VesselId :=
  .ofSource .ais ⟨⟨⟨timestamp, 0, 0, 0⟩, (7 : Int32)⟩, ⟨1⟩⟩

/-- The view of the second session is constructed after the first report, and the third report is
older than the second one. -/
def threeReports : List (Action VesselId) :=
  [.getUnchecked "default", .construct true, .hold, .process [⟨0, 500, [0]⟩] (reportAt ⟨100⟩),
    .getUnchecked "default", .construct true, .hold, .drop 0, .collect (.view 0),
    .process [⟨0, 600, [1]⟩] (reportAt ⟨300⟩), .process [⟨0, 700, [1]⟩] (reportAt ⟨200⟩)]

/-- The view of the second session is handed the second report only. -/
theorem live_views_handed_threeReports :
    ∃ s, run (step (defaultBeans VesselId)) (new ()) threeReports = some s ∧
      s.states.handed 1 = [reportAt ⟨300⟩] ∧
      ∃ earlier since, s.states.handed 1 =
        recordsAfter EnrichedPosition.identity EnrichedPosition.timestamp earlier since := by
  obtain ⟨s, hrun⟩ : ∃ s, run (step (defaultBeans VesselId)) (new ()) threeReports = some s :=
    ⟨_, rfl⟩
  have hhanded : (run (step (defaultBeans VesselId)) (new ()) threeReports).map
      (fun s => s.states.handed 1) = some [reportAt ⟨300⟩] := rfl
  have hheld : (run (step (defaultBeans VesselId)) (new ()) threeReports).map
      reachableViews = some {1} := by decide
  rw [hrun, Option.map_some] at hhanded hheld
  have hnormal : StepsMeet (step (defaultBeans VesselId)) (ReturnsNormally (defaultBeans VesselId))
      (new ()) threeReports :=
    fun _ _ _ _ t _ => returnsNormally_of_handle (fun _ _ _ => rfl) t _
  have hreach : s.Reachable (.view 1) := by
    rw [reachable_view_iff, Option.some.inj hheld]
    exact Finset.mem_singleton_self 1
  obtain ⟨before, name, between, decodes, after, positionFilter, p, -, -, -, hrecords⟩ :=
    live_views_handed (defaultBeans VesselId) () hrun hnormal hreach
  exact ⟨s, hrun, Option.some.inj hhanded, _, _, hrecords⟩

end LatestPositionService

end CwatchBackend
