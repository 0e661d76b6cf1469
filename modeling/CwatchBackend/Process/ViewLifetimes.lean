import CwatchBackend.Process.LatestPositionService

/-!
# Weak references lose no view in use

A reachable view stays registered with the profile that the cache has under its name, whenever the
garbage collector runs and whatever the other sessions do (`live_views_registered`).

While no view throws, a reachable view has been handed the records among the reports that its
profile has accepted since it was loaded, those from before the construction of the view apart
(`live_views_handed`).
-/

namespace CwatchBackend

open Foundation

namespace LoadedProfile

variable {V : Type} [DecidableEq V]

/-- The profile after it has processed the report. -/
def receive (now : Int64) (e : Enriched V) (loaded : LoadedProfile V) : LoadedProfile V :=
  { loaded with profile := (loaded.profile.handsOver now e).2 }

theorem receive_eq (now : Int64) (e : Enriched V) (loaded : LoadedProfile V) :
    loaded.receive now e =
      if loaded.profile.Accepts now e then { loaded with profile := loaded.profile.keep e }
      else loaded := by
  rw [receive, MemoryLatestPositionProfile.handsOver_eq]
  split <;> rfl

@[simp] theorem name_receive (now : Int64) (e : Enriched V) (loaded : LoadedProfile V) :
    (loaded.receive now e).name = loaded.name := rfl

@[simp] theorem views_receive (now : Int64) (e : Enriched V) (loaded : LoadedProfile V) :
    (loaded.receive now e).profile.views = loaded.profile.views := by
  rw [receive_eq]
  split <;> rfl

end LoadedProfile

namespace LatestPositionService

variable {V σ : Type} [DecidableEq V] {beans : ServiceBeans V σ}
  {s s' : LatestPositionService V σ} {e : Enriched V} {p v : ℕ} {call : ProfileCall}
  {calls pre post : List ProfileCall}

/-! ### Processing a report -/

/-- A profile hands the report over to its views if it passes the tests. -/
theorem processProfile_of_some {loaded : LoadedProfile V}
    (hloaded : s.profiles[call.profile]? = some loaded) :
    s.processProfile beans e call =
      ({ s with
          profiles := s.profiles.set call.profile (loaded.receive call.now e)
          states :=
            if (loaded.profile.handsOver call.now e).1 then
              (s.states.forEach beans.handle e call.order).1
            else s.states },
        if (loaded.profile.handsOver call.now e).1 then
          (s.states.forEach beans.handle e call.order).2
        else none) := by
  rw [processProfile, hloaded, LoadedProfile.receive]
  simp only [ProfileState.process_eq_handsOver]
  rcases loaded.profile.handsOver call.now e with ⟨_ | _, profile⟩
  · rfl
  · rfl

/-- A call changes no other profile. -/
theorem getElem?_processProfile_of_ne {q : ℕ} (hq : q ≠ call.profile) :
    (s.processProfile beans e call).1.profiles[q]? = s.profiles[q]? := by
  cases hloaded : s.profiles[call.profile]? with
  | none => rw [processProfile, hloaded]
  | some loaded => rw [processProfile_of_some hloaded, List.getElem?_set_ne hq.symm]

/-- Processing a report changes the profiles and the states of the views only. -/
theorem exists_forEachProfile (beans : ServiceBeans V σ) (s : LatestPositionService V σ)
    (e : Enriched V) (calls : List ProfileCall) :
    ∃ profiles states, (s.forEachProfile beans e calls).1 = { s with profiles, states } := by
  induction calls generalizing s with
  | nil => exact ⟨s.profiles, s.states, rfl⟩
  | cons call calls ih =>
    obtain ⟨profiles, states, hrest⟩ := ih (s.processProfile beans e call).1
    refine ⟨profiles, states, ?_⟩
    rw [forEachProfile, hrest]
    cases hloaded : s.profiles[call.profile]? with
    | none => simp only [processProfile, hloaded]
    | some loaded => rw [processProfile_of_some hloaded]

/-- Processing a report creates no profile. -/
theorem length_forEachProfile :
    (s.forEachProfile beans e calls).1.profiles.length = s.profiles.length := by
  induction calls generalizing s with
  | nil => rfl
  | cons call calls ih =>
    rw [forEachProfile, ih]
    cases hloaded : s.profiles[call.profile]? with
    | none => rw [processProfile, hloaded]
    | some loaded => rw [processProfile_of_some hloaded, List.length_set]

/-- A profile that is not called does not change. -/
theorem getElem?_forEachProfile_of_notMem {q : ℕ} (hq : q ∉ calls.map ProfileCall.profile) :
    (s.forEachProfile beans e calls).1.profiles[q]? = s.profiles[q]? := by
  induction calls generalizing s with
  | nil => rfl
  | cons call calls ih =>
    rw [List.map_cons, List.mem_cons, not_or] at hq
    rw [forEachProfile, ih hq.2, getElem?_processProfile_of_ne hq.1]

/-- A profile that is called once receives the report. -/
theorem getElem?_forEachProfile_of_mem (hcalls : (calls.map ProfileCall.profile).Nodup)
    (hcall : call ∈ calls) {loaded : LoadedProfile V}
    (hloaded : s.profiles[call.profile]? = some loaded) :
    (s.forEachProfile beans e calls).1.profiles[call.profile]? =
      some (loaded.receive call.now e) := by
  induction calls generalizing s with
  | nil => cases hcall
  | cons first calls ih =>
    rw [List.map_cons, List.nodup_cons] at hcalls
    rw [forEachProfile]
    rcases List.mem_cons.mp hcall with rfl | hcall
    · have hlt : call.profile < s.profiles.length := (List.getElem?_eq_some_iff.mp hloaded).1
      rw [getElem?_forEachProfile_of_notMem hcalls.1, processProfile_of_some hloaded,
        List.getElem?_set_self hlt]
    · have hne : call.profile ≠ first.profile := fun heq =>
        hcalls.1 (heq ▸ List.mem_map_of_mem hcall)
      exact ih hcalls.2 hcall ((getElem?_processProfile_of_ne hne).trans hloaded)

/-- Every profile keeps its name and its views. -/
theorem exists_getElem?_forEachProfile (hcalls : (calls.map ProfileCall.profile).Nodup) {q : ℕ}
    {loaded : LoadedProfile V} (hq : s.profiles[q]? = some loaded) :
    ∃ loaded' : LoadedProfile V, (s.forEachProfile beans e calls).1.profiles[q]? = some loaded' ∧
      loaded'.name = loaded.name ∧ loaded'.profile.views = loaded.profile.views := by
  by_cases hmem : q ∈ calls.map ProfileCall.profile
  · obtain ⟨call, hcall, rfl⟩ := List.mem_map.mp hmem
    exact ⟨_, getElem?_forEachProfile_of_mem hcalls hcall hq, loaded.name_receive call.now e,
      loaded.views_receive call.now e⟩
  · exact ⟨loaded, (getElem?_forEachProfile_of_notMem hmem).trans hq, rfl, rfl⟩

/-- There are no other profiles than before. -/
theorem exists_of_getElem?_forEachProfile {q : ℕ} {loaded' : LoadedProfile V}
    (hq : (s.forEachProfile beans e calls).1.profiles[q]? = some loaded') :
    ∃ loaded, s.profiles[q]? = some loaded := by
  have hlength : (s.forEachProfile beans e calls).1.profiles.length = s.profiles.length :=
    length_forEachProfile
  have hlt : q < s.profiles.length := hlength ▸ (List.getElem?_eq_some_iff.mp hq).1
  exact ⟨_, List.getElem?_eq_getElem hlt⟩

/-- A view that no call iterates is handed nothing. -/
theorem handed_forEachProfile_of_notMem (hv : ∀ c ∈ calls, c.order.Nodup ∧ v ∉ c.order) :
    (s.forEachProfile beans e calls).1.states.handed v = s.states.handed v := by
  induction calls generalizing s with
  | nil => rfl
  | cons call calls ih =>
    obtain ⟨⟨horder, hnotMem⟩, hv⟩ := List.forall_mem_cons.mp hv
    rw [forEachProfile, ih hv]
    cases hloaded : s.profiles[call.profile]? with
    | none => rw [processProfile, hloaded]
    | some loaded =>
      rw [processProfile_of_some hloaded]
      dsimp only
      split
      · rw [(Views.forEach_eq beans.handle e horder s.states).1]
        refine Views.handed_after_of_notMem fun hvisited => hnotMem ?_
        obtain ⟨pre, post, horder', -⟩ := Views.mem_visited_iff.mp hvisited
        simp [horder']
      · rfl

/-- A view that one call iterates is handed the report if its profile hands it over, provided that
no view throws. -/
theorem handed_forEachProfile_of_mem {loaded : LoadedProfile V}
    (hcalls : ((pre ++ call :: post).map ProfileCall.profile).Nodup)
    (hpre : ∀ c ∈ pre, c.order.Nodup ∧ v ∉ c.order)
    (hpost : ∀ c ∈ post, c.order.Nodup ∧ v ∉ c.order)
    (horder : call.order.Nodup) (hv : v ∈ call.order)
    (hloaded : s.profiles[call.profile]? = some loaded)
    (hnormal : (s.forEachProfile beans e (pre ++ call :: post)).2 = none) :
    (s.forEachProfile beans e (pre ++ call :: post)).1.states.handed v =
      s.states.handed v ++ if (loaded.profile.handsOver call.now e).1 then [e] else [] := by
  induction pre generalizing s with
  | nil =>
    rw [List.nil_append, forEachProfile] at hnormal ⊢
    rw [handed_forEachProfile_of_notMem hpost]
    have hreturn := (Option.or_eq_none_iff.mp hnormal).1
    rw [processProfile_of_some hloaded] at hreturn ⊢
    dsimp only at hreturn ⊢
    split
    · next hhands =>
      rw [if_pos hhands] at hreturn
      obtain ⟨hafter, hnone⟩ := Views.forEach_eq beans.handle e horder s.states
      rw [hafter, Views.visited_of_allReturn (hnone.mp hreturn), Views.handed_after_of_mem hv]
    · rw [List.append_nil]
  | cons first pre ih =>
    obtain ⟨hfirst, hpre⟩ := List.forall_mem_cons.mp hpre
    rw [List.cons_append, List.map_cons, List.nodup_cons] at hcalls
    have hne : call.profile ≠ first.profile := fun heq =>
      hcalls.1 (heq ▸ List.mem_map_of_mem (by simp))
    rw [List.cons_append, forEachProfile] at hnormal ⊢
    -- The call before is a loop of its own.
    have hloop : (s.processProfile beans e first).1 = (s.forEachProfile beans e [first]).1 := rfl
    rw [ih hcalls.2 hpre ((getElem?_processProfile_of_ne hne).trans hloaded)
      (Option.or_eq_none_iff.mp hnormal).2, hloop,
      handed_forEachProfile_of_notMem (List.forall_mem_singleton.mpr hfirst)]

/-! ### Registered views -/

omit [DecidableEq V]

/-- The view is among the views of its profile, and the cache has this profile under its name. -/
def Registered (s : LatestPositionService V σ) (v : ℕ) : Prop :=
  ∃ (view : RegisteredView) (loaded : LoadedProfile V), s.views[v]? = some view ∧
    s.profiles[view.profile]? = some loaded ∧ v ∈ loaded.profile.views ∧
    s.profileCache loaded.name = some view.profile

/-- The cache has its profiles under their names, the registration in progress has got one of them,
a profile has none but its own views, and reachable views are registered. -/
structure Linked (s : LatestPositionService V σ) : Prop where
  cached : ∀ name p, s.profileCache name = some p →
    ∃ loaded, s.profiles[p]? = some loaded ∧ loaded.name = name
  holding : ∀ viewId p, s.registering = some (.holding viewId p) → s.IsCached p
  member : ∀ (p : ℕ) (loaded : LoadedProfile V) (v : ℕ), s.profiles[p]? = some loaded →
    v ∈ loaded.profile.views → ∃ view : RegisteredView, s.views[v]? = some view ∧ view.profile = p
  registered : ∀ v, s.Reachable (.view v) → s.Registered v

/-- Nothing has been loaded or registered. -/
theorem linked_new (state : σ) : (new state : LatestPositionService V σ).Linked where
  cached name p h := by cases h
  holding viewId p h := by cases h
  member p loaded v h := by cases h
  registered v h := by
    rcases h with hheld | hregistering
    · exact absurd hheld (Finset.notMem_empty v)
    · cases hregistering

/-- A registered view stays registered if its profile keeps it and the cache keeps the profile. -/
theorem Registered.mono (h : s.Registered v)
    (hviews : ∀ view, s.views[v]? = some view → s'.views[v]? = some view)
    (hprofiles : ∀ (view : RegisteredView) (loaded : LoadedProfile V),
      s.profiles[view.profile]? = some loaded → v ∈ loaded.profile.views →
      s.profileCache loaded.name = some view.profile →
      ∃ loaded' : LoadedProfile V, s'.profiles[view.profile]? = some loaded' ∧
        v ∈ loaded'.profile.views ∧ s'.profileCache loaded'.name = some view.profile) :
    s'.Registered v := by
  obtain ⟨view, loaded, hview, hloaded, hmem, hcache⟩ := h
  obtain ⟨loaded', hloaded', hmem', hcache'⟩ := hprofiles view loaded hloaded hmem hcache
  exact ⟨view, loaded', hviews view hview, hloaded', hmem', hcache'⟩

/-- The registration gets on, or sessions get and drop views. -/
theorem Linked.of_references (h : s.Linked) (viewIdSequence : Int32)
    (registering : Option Registration) (held : Finset ℕ)
    (hholding : ∀ viewId p, registering = some (.holding viewId p) → s.IsCached p)
    (hreach : ∀ v, ({ s with viewIdSequence, registering, held } :
      LatestPositionService V σ).Reachable (.view v) → s.Reachable (.view v)) :
    ({ s with viewIdSequence, registering, held } : LatestPositionService V σ).Linked where
  cached := h.cached
  holding := hholding
  member := h.member
  registered v hv := h.registered v (hreach v hv)

/-- An id is drawn. -/
theorem Linked.drawId (h : s.Linked) (viewIdSequence : Int32) :
    ({ s with viewIdSequence } : LatestPositionService V σ).Linked :=
  h.of_references viewIdSequence s.registering s.held h.holding fun _ hv => hv.of_eq rfl rfl

/-- A cached profile is found under its name. -/
theorem Linked.isCached (h : s.Linked) {name : String} (hcache : s.profileCache name = some p) :
    s.IsCached p := by
  obtain ⟨loaded, hloaded, rfl⟩ := h.cached name p hcache
  exact ⟨loaded, hloaded, hcache⟩

/-- A profile is loaded under a name that the cache does not have. -/
theorem Linked.load (h : s.Linked) {name : String} (hcache : s.profileCache name = none)
    (viewId : Int32) (profile : MemoryLatestPositionProfile V ℕ) (hviews : profile.views = ∅) :
    (s.load viewId name profile).Linked := by
  have hne : ∀ {name' q}, s.profileCache name' = some q → name' ≠ name := by
    rintro name' q hq rfl
    rw [hcache] at hq
    cases hq
  constructor
  case cached =>
    intro name' q hq
    by_cases hname : name' = name
    · subst hname
      rw [profileCache_load_self] at hq
      exact Option.some.inj hq ▸ ⟨_, getElem?_load_new, rfl⟩
    · rw [profileCache_load_of_ne hname] at hq
      obtain ⟨loaded, hloaded, rfl⟩ := h.cached name' q hq
      exact ⟨loaded, getElem?_load_of_some hloaded, rfl⟩
  case holding =>
    intro viewId' q hq
    obtain ⟨-, rfl⟩ := Registration.holding.inj (Option.some.inj hq)
    exact ⟨_, getElem?_load_new, profileCache_load_self⟩
  case member =>
    intro q loaded v hq hv
    rcases getElem?_load_cases hq with hq | ⟨rfl, rfl⟩
    · exact h.member q loaded v hq hv
    · rw [hviews] at hv
      exact absurd hv (Finset.notMem_empty v)
  case registered =>
    intro v hv
    have hheld : v ∈ s.held := by
      rcases hv with hheld | hregistering
      · exact hheld
      · cases hregistering
    refine (h.registered v (.held hheld)).mono (fun view hview => hview) ?_
    intro view loaded hloaded hmem hcached
    exact ⟨loaded, getElem?_load_of_some hloaded, hmem,
      (profileCache_load_of_ne (hne hcached)).trans hcached⟩

/-- A view is constructed for the profile that its registration has got. -/
theorem Linked.construct (h : s.Linked) {viewId : Int32}
    (hregistering : s.registering = some (.holding viewId p)) (decodes : Bool) :
    (s.construct viewId p decodes).Linked := by
  obtain ⟨loaded, hloaded, hcache⟩ := h.holding viewId p hregistering
  -- Every profile keeps its name and its views.
  have hprofiles : ∀ (q : ℕ) (loaded : LoadedProfile V), s.profiles[q]? = some loaded →
      ∃ loaded' : LoadedProfile V, (s.construct viewId p decodes).profiles[q]? = some loaded' ∧
        loaded'.name = loaded.name ∧ loaded.profile.views ⊆ loaded'.profile.views := by
    intro q loaded hq
    refine ⟨_, (getElem?_construct q).trans (congrArg _ hq), ?_⟩
    split
    · exact ⟨rfl, Finset.subset_insert _ _⟩
    · exact ⟨rfl, subset_rfl⟩
  constructor
  case cached =>
    intro name q hq
    obtain ⟨loaded, hloaded, rfl⟩ := h.cached name q hq
    obtain ⟨loaded', hloaded', hname, -⟩ := hprofiles q loaded hloaded
    exact ⟨loaded', hloaded', hname⟩
  case holding =>
    intro viewId' q hq
    cases decodes <;> cases hq
  case member =>
    intro q loaded' u hq hu
    rw [getElem?_construct] at hq
    obtain ⟨loaded, hloaded, rfl⟩ := Option.map_eq_some_iff.mp hq
    have hold : u ∈ loaded.profile.views →
        ∃ view, (s.construct viewId p decodes).views[u]? = some view ∧ view.profile = q := by
      intro hu
      obtain ⟨view, hview, hprofile⟩ := h.member q loaded u hloaded hu
      exact ⟨view, getElem?_views_construct_of_some hview, hprofile⟩
    split at hu
    · next hpq =>
      rcases Finset.mem_insert.mp hu with rfl | hu
      · exact ⟨_, getElem?_views_construct_new, hpq⟩
      · exact hold hu
    · exact hold hu
  case registered =>
    intro u hu
    rcases hu with hheld | hconstructed
    · refine (h.registered u (.held hheld)).mono
        (fun view hview => getElem?_views_construct_of_some hview) ?_
      intro view loaded hloaded hmem hcached
      obtain ⟨loaded', hloaded', hname, hsubset⟩ := hprofiles _ loaded hloaded
      exact ⟨loaded', hloaded', hsubset hmem, hname ▸ hcached⟩
    · have hu : s.views.length = u := by
        cases decodes
        · cases hconstructed
        · exact Registration.constructed.inj (Option.some.inj hconstructed)
      refine hu ▸ ⟨⟨viewId, p⟩, { loaded with profile := loaded.profile.register s.views.length },
        getElem?_views_construct_new, ?_, Finset.mem_insert_self _ _, hcache⟩
      rw [getElem?_construct, Option.mem_def.mp hloaded, Option.map_some, if_pos rfl]

/-- The garbage collector takes an object that is not reachable. -/
theorem Linked.collect (h : s.Linked) {object : WeakObject} (hobject : ¬ s.Reachable object) :
    (s.collect object).Linked := by
  cases object with
  | view u =>
    have hprofiles : ∀ (q : ℕ) (loaded : LoadedProfile V), s.profiles[q]? = some loaded →
        (s.collect (.view u)).profiles[q]? = some { loaded with
          profile := { loaded.profile with views := loaded.profile.views.erase u } } :=
      fun q loaded hq => (List.getElem?_map ..).trans (by rw [hq, Option.map_some])
    constructor
    case cached =>
      intro name q hq
      obtain ⟨loaded, hloaded, rfl⟩ := h.cached name q hq
      exact ⟨_, hprofiles q loaded hloaded, rfl⟩
    case holding =>
      intro viewId q hq
      obtain ⟨loaded, hloaded, hcache⟩ := h.holding viewId q hq
      exact ⟨_, hprofiles q loaded hloaded, hcache⟩
    case member =>
      intro q loaded' v hq hv
      obtain ⟨loaded, hloaded, rfl⟩ :=
        Option.map_eq_some_iff.mp ((List.getElem?_map ..).symm.trans hq)
      exact h.member q loaded v hloaded (Finset.mem_of_mem_erase hv)
    case registered =>
      intro v hreach
      have hv : s.Reachable (.view v) := (reachable_collect_iff _ _).mp hreach
      have hne : v ≠ u := fun heq => hobject (heq ▸ hv)
      refine (h.registered v hv).mono (fun view hview => hview) ?_
      intro view loaded hloaded hmem hcache
      exact ⟨_, hprofiles _ loaded hloaded, Finset.mem_erase.mpr ⟨hne, hmem⟩, hcache⟩
  | profile p =>
    have hcache : ∀ {name q}, q ≠ p → s.profileCache name = some q →
        (s.collect (.profile p)).profileCache name = some q := fun hne hq =>
      Option.filter_eq_some_iff.mpr ⟨hq, by simpa using hne⟩
    constructor
    case cached =>
      intro name q hq
      exact h.cached name q (Option.filter_eq_some_iff.mp hq).1
    case holding =>
      intro viewId q hq
      obtain ⟨loaded, hloaded, hcached⟩ := h.holding viewId q hq
      refine ⟨loaded, hloaded, hcache ?_ hcached⟩
      rintro rfl
      exact hobject (.holding hq)
    case member => exact h.member
    case registered =>
      intro v hreach
      have hv : s.Reachable (.view v) := (reachable_collect_iff _ _).mp hreach
      obtain ⟨view, loaded, hview, hloaded, hmem, hcached⟩ := h.registered v hv
      refine ⟨view, loaded, hview, hloaded, hmem, hcache ?_ hcached⟩
      rintro rfl
      exact hobject (.profile hview hv)

/-- A report is processed. -/
theorem Linked.process [DecidableEq V] (h : s.Linked)
    (hcalls : (calls.map ProfileCall.profile).Nodup) :
    (s.forEachProfile beans e calls).1.Linked := by
  have hprofiles : ∀ (q : ℕ) (loaded : LoadedProfile V), s.profiles[q]? = some loaded →
      ∃ loaded' : LoadedProfile V,
        (s.forEachProfile beans e calls).1.profiles[q]? = some loaded' ∧
          loaded'.name = loaded.name ∧ loaded'.profile.views = loaded.profile.views :=
    fun _ _ hq => exists_getElem?_forEachProfile hcalls hq
  have hold : ∀ (q : ℕ) (loaded' : LoadedProfile V),
      (s.forEachProfile beans e calls).1.profiles[q]? = some loaded' →
        ∃ loaded, s.profiles[q]? = some loaded :=
    fun _ _ hq => exists_of_getElem?_forEachProfile hq
  obtain ⟨profiles, states, hframe⟩ := exists_forEachProfile beans s e calls
  rw [hframe] at hprofiles hold ⊢
  constructor
  case cached =>
    intro name q hq
    obtain ⟨loaded, hloaded, rfl⟩ := h.cached name q hq
    obtain ⟨loaded', hloaded', hname, -⟩ := hprofiles q loaded hloaded
    exact ⟨loaded', hloaded', hname⟩
  case holding =>
    intro viewId q hq
    obtain ⟨loaded, hloaded, hcache⟩ := h.holding viewId q hq
    obtain ⟨loaded', hloaded', hname, -⟩ := hprofiles q loaded hloaded
    exact ⟨loaded', hloaded', hname ▸ hcache⟩
  case member =>
    intro q loaded' v hq hv
    obtain ⟨loaded, hloaded⟩ := hold q loaded' hq
    obtain ⟨loaded'', hloaded'', -, hviews⟩ := hprofiles q loaded hloaded
    obtain rfl := Option.some.inj (hq.symm.trans hloaded'')
    exact h.member q loaded v hloaded (hviews ▸ hv)
  case registered =>
    intro v hreach
    have hv : s.Reachable (.view v) := hreach.of_eq rfl rfl
    refine (h.registered v hv).mono (fun view hview => hview) ?_
    intro view loaded hloaded hmem hcached
    obtain ⟨loaded', hloaded', hname, hviews⟩ := hprofiles _ loaded hloaded
    exact ⟨loaded', hloaded', hviews ▸ hmem, hname ▸ hcached⟩

/-- Every step keeps the references. -/
theorem linked_of_step [DecidableEq V] {a : Action V} (h : s.Linked)
    (hstep : step beans s a = some s') : s'.Linked := by
  cases stepped_of_step hstep with
  | cached name p free hcache =>
    refine h.of_references (s.viewIdSequence + 1) _ s.held ?_ ?_
    · intro viewId q hq
      obtain ⟨-, rfl⟩ := Registration.holding.inj (Option.some.inj hq)
      exact h.isCached hcache
    · rintro v (hheld | hregistering)
      · exact .held hheld
      · cases hregistering
  | unknown name free hcache hprofile => exact h.drawId _
  | loaded name positionFilter free hcache hprofile =>
    exact (h.drawId (s.viewIdSequence + 1)).load hcache s.viewIdSequence
      (.new positionFilter beans.timeoutMilliseconds) rfl
  | construct viewId p decodes hregistering => exact h.construct hregistering decodes
  | hold v hregistering =>
    refine h.of_references s.viewIdSequence none _ (fun _ _ hq => by cases hq) ?_
    rintro u (hheld | hregistering')
    · rcases Finset.mem_insert.mp hheld with rfl | hheld
      · exact .constructed hregistering
      · exact .held hheld
    · cases hregistering'
  | drop v =>
    refine h.of_references s.viewIdSequence s.registering _ h.holding ?_
    rintro u (hheld | hregistering)
    · exact .held (Finset.mem_of_mem_erase hheld)
    · exact .constructed hregistering
  | process calls e iterates completes => exact h.process iterates.1
  | collect object unreachable => exact h.collect unreachable

/-- In every run, a reachable view is registered with the profile that the cache has under its
name: neither the registrations and the ends of other sessions nor the garbage collector can take
it from the reports of its profile. -/
theorem live_views_registered [DecidableEq V] (beans : ServiceBeans V σ) (state : σ)
    {actions : List (Action V)} (hrun : run (step beans) (new state) actions = some s)
    (hv : s.Reachable (.view v)) : s.Registered v := by
  have hlinked : s.Linked := by
    refine run_invariant_of_step ?_ (linked_new state) hrun
    exact fun s a t hs hstep => linked_of_step hs hstep
  exact hlinked.registered v hv

/-- Two sessions start views of the default profile.  The first one ends, and its view is taken by
the garbage collector. -/
def firstSessionEnds {V : Type} : List (Action V) :=
  [.getUnchecked "default", .construct true, .hold, .getUnchecked "default", .construct true, .hold,
    .drop 0, .collect (.view 0)]

/-- The service with the default profile and with views that never throw. -/
def defaultBeans (V : Type) : ServiceBeans V Unit where
  getProfile := MemoryProfileService.getProfile
  timeoutMilliseconds := 1000
  handle := fun _ _ _ => ((), none)

/-- The view of the second session stays registered. -/
theorem live_views_registered_firstSessionEnds :
    ∃ s, run (step (defaultBeans VesselId)) (new ()) firstSessionEnds = some s ∧
      s.Registered 1 ∧ ¬ s.Reachable (.view 0) := by
  obtain ⟨s, hrun⟩ : ∃ s, run (step (defaultBeans VesselId)) (new ()) firstSessionEnds = some s :=
    ⟨_, rfl⟩
  have hheld : (run (step (defaultBeans VesselId)) (new ()) firstSessionEnds).map
      reachableViews = some {1} := by decide
  rw [hrun, Option.map_some] at hheld
  have hreachable : ∀ v, s.Reachable (.view v) ↔ v = 1 := by
    intro v
    rw [reachable_view_iff, Option.some.inj hheld, Finset.mem_singleton]
  refine ⟨s, hrun, ?_, fun h => absurd ((hreachable 0).mp h) (by decide)⟩
  exact live_views_registered (defaultBeans VesselId) () hrun ((hreachable 1).mpr rfl)

/-! ### A full collection -/

/-- The views and the profiles that are not reachable. -/
def garbage (s : LatestPositionService V σ) : List WeakObject :=
  ((List.range s.views.length).map WeakObject.view ++
    (List.range s.profiles.length).map WeakObject.profile).filter fun object => ¬ s.Reachable object

/-- The garbage is not reachable. -/
theorem not_reachable_of_mem_garbage {object : WeakObject} (h : object ∈ s.garbage) :
    ¬ s.Reachable object := by
  simpa using (List.mem_filter.mp h).2

/-- A view that is not garbage is reachable. -/
theorem reachable_view_of_notMem_garbage (hv : v < s.views.length)
    (h : WeakObject.view v ∉ s.garbage) : s.Reachable (.view v) := by
  by_contra hreach
  refine h (List.mem_filter.mpr ⟨List.mem_append_left _ ?_, by simpa using hreach⟩)
  exact List.mem_map_of_mem (List.mem_range.mpr hv)

/-- A profile that is not garbage is reachable. -/
theorem reachable_profile_of_notMem_garbage (hp : p < s.profiles.length)
    (h : WeakObject.profile p ∉ s.garbage) : s.Reachable (.profile p) := by
  by_contra hreach
  refine h (List.mem_filter.mpr ⟨List.mem_append_right _ ?_, by simpa using hreach⟩)
  exact List.mem_map_of_mem (List.mem_range.mpr hp)

/-- Objects that are not reachable can be collected one after the other. -/
theorem run_collect [DecidableEq V] (beans : ServiceBeans V σ) {objects : List WeakObject}
    (h : ∀ object ∈ objects, ¬ s.Reachable object) :
    run (step beans) s (objects.map Action.collect) = some (objects.foldl collect s) := by
  induction objects generalizing s with
  | nil => rfl
  | cons object objects ih =>
    obtain ⟨hobject, hobjects⟩ := List.forall_mem_cons.mp h
    rw [List.map_cons, List.foldl_cons, run_cons]
    refine ⟨s.collect object, if_neg hobject, ih fun other hother => ?_⟩
    rw [reachable_collect_iff]
    exact hobjects other hother

/-- A collection clears the references to the collected profiles. -/
theorem profileCache_foldl_collect {objects : List WeakObject} {name : String} :
    (objects.foldl collect s).profileCache name = some p ↔
      s.profileCache name = some p ∧ WeakObject.profile p ∉ objects := by
  induction objects generalizing s with
  | nil => simp
  | cons object objects ih =>
    rw [List.foldl_cons, ih, List.mem_cons, not_or]
    cases object with
    | view u => simp [collect]
    | profile q => simp [collect, Option.filter_eq_some_iff, and_assoc]

/-- A collection clears the references to the collected views. -/
theorem getElem?_foldl_collect (objects : List WeakObject) {loaded : LoadedProfile V}
    (hloaded : s.profiles[p]? = some loaded) :
    ∃ views, (objects.foldl collect s).profiles[p]? =
        some { loaded with profile := { loaded.profile with views } } ∧
      ∀ v, v ∈ views ↔ v ∈ loaded.profile.views ∧ WeakObject.view v ∉ objects := by
  induction objects generalizing s loaded with
  | nil => exact ⟨loaded.profile.views, hloaded, by simp⟩
  | cons object objects ih =>
    rw [List.foldl_cons]
    cases object with
    | view u =>
      have hcollected : (s.collect (.view u)).profiles[p]? = some { loaded with
          profile := { loaded.profile with views := loaded.profile.views.erase u } } :=
        (List.getElem?_map ..).trans (by rw [hloaded, Option.map_some])
      obtain ⟨views, hviews, hmem⟩ := ih hcollected
      refine ⟨views, hviews, fun v => (hmem v).trans ?_⟩
      simp only [Finset.mem_erase, List.mem_cons, WeakObject.view.injEq, not_or]
      tauto
    | profile q =>
      obtain ⟨views, hviews, hmem⟩ := ih (s := s.collect (.profile q)) hloaded
      refine ⟨views, hviews, fun v => (hmem v).trans ?_⟩
      simp

/-- A collection leaves the sessions and the views as they are. -/
theorem exists_foldl_collect (s : LatestPositionService V σ) (objects : List WeakObject) :
    ∃ profiles profileCache, objects.foldl collect s = { s with profiles, profileCache } := by
  induction objects generalizing s with
  | nil => exact ⟨s.profiles, s.profileCache, rfl⟩
  | cons object objects ih =>
    obtain ⟨profiles, profileCache, hrest⟩ := ih (s.collect object)
    refine ⟨profiles, profileCache, ?_⟩
    rw [List.foldl_cons, hrest]
    cases object <;> rfl

/-- In every state of a run the garbage collector can take all that is not in use: then the cache
has exactly the profiles that are reachable, under their names, and every profile has exactly those
of its views that are reachable; its `positionMap` and the views themselves are as before. -/
theorem garbage_collected [DecidableEq V] (beans : ServiceBeans V σ) (state : σ)
    {actions : List (Action V)} (hrun : run (step beans) (new state) actions = some s) :
    ∃ s', run (step beans) s (s.garbage.map Action.collect) = some s' ∧
      (∃ profiles profileCache, s' = { s with profiles, profileCache }) ∧
      (∀ name p, s'.profileCache name = some p ↔
        s.Reachable (.profile p) ∧ s.profiles[p]?.map LoadedProfile.name = some name) ∧
      ∀ (p : ℕ) (loaded : LoadedProfile V), s.profiles[p]? = some loaded → ∃ views,
        s'.profiles[p]? = some { loaded with profile := { loaded.profile with views } } ∧
          ∀ v, v ∈ views ↔
            s.Reachable (.view v) ∧ s.views[v]?.map RegisteredView.profile = some p := by
  have hlinked : s.Linked := by
    refine run_invariant_of_step ?_ (linked_new state) hrun
    exact fun s a t hs hstep => linked_of_step hs hstep
  refine ⟨s.garbage.foldl collect s, run_collect beans fun _ => not_reachable_of_mem_garbage,
    exists_foldl_collect s s.garbage, fun name p => ?_, fun p loaded hloaded => ?_⟩
  · rw [profileCache_foldl_collect]
    constructor
    · rintro ⟨hcache, hgarbage⟩
      obtain ⟨loaded, hloaded, rfl⟩ := hlinked.cached name p hcache
      have hlt : p < s.profiles.length := (List.getElem?_eq_some_iff.mp hloaded).1
      exact ⟨reachable_profile_of_notMem_garbage hlt hgarbage, by rw [hloaded, Option.map_some]⟩
    · rintro ⟨hreach, hname⟩
      refine ⟨?_, fun hgarbage => not_reachable_of_mem_garbage hgarbage hreach⟩
      obtain ⟨loaded, hloaded, hcache⟩ : s.IsCached p := by
        cases hreach with
        | holding hregistering => exact hlinked.holding _ p hregistering
        | profile hview hv =>
          obtain ⟨view, loaded, hview', hloaded, -, hcache⟩ := hlinked.registered _ hv
          obtain rfl := Option.some.inj (hview.symm.trans hview')
          exact ⟨loaded, hloaded, hcache⟩
      rw [Option.mem_def.mp hloaded, Option.map_some] at hname
      exact Option.some.inj hname ▸ hcache
  · obtain ⟨views, hviews, hmem⟩ := getElem?_foldl_collect s.garbage hloaded
    refine ⟨views, hviews, fun v => (hmem v).trans ?_⟩
    constructor
    · rintro ⟨hv, hgarbage⟩
      obtain ⟨view, hview, rfl⟩ := hlinked.member p loaded v hloaded hv
      have hlt : v < s.views.length := (List.getElem?_eq_some_iff.mp hview).1
      exact ⟨reachable_view_of_notMem_garbage hlt hgarbage, by rw [hview, Option.map_some]⟩
    · rintro ⟨hreach, hprofile⟩
      refine ⟨?_, fun hgarbage => not_reachable_of_mem_garbage hgarbage hreach⟩
      obtain ⟨view, loaded', hview, hloaded', hv, -⟩ := hlinked.registered v hreach
      rw [hview, Option.map_some] at hprofile
      obtain rfl := Option.some.inj hprofile
      obtain rfl := Option.some.inj (hloaded.symm.trans hloaded')
      exact hv

/-- The second session has ended as well. -/
def bothSessionsEnd {V : Type} : List (Action V) := firstSessionEnds ++ [.drop 1]

/-- The cache still has the profile, and nothing is left of it after a collection. -/
theorem garbage_collected_bothSessionsEnd :
    ∃ s s' : LatestPositionService VesselId Unit,
      run (step (defaultBeans VesselId)) (new ()) bothSessionsEnd = some s ∧
        s.profileCache "default" = some 0 ∧
        run (step (defaultBeans VesselId)) s (s.garbage.map Action.collect) = some s' ∧
        ∀ name, s'.profileCache name = none := by
  obtain ⟨s, hrun⟩ : ∃ s, run (step (defaultBeans VesselId)) (new ()) bothSessionsEnd = some s :=
    ⟨_, rfl⟩
  have hcache : (run (step (defaultBeans VesselId)) (new ()) bothSessionsEnd).map
      (fun s => s.profileCache "default") = some (some 0) := by decide
  have hheld : (run (step (defaultBeans VesselId)) (new ()) bothSessionsEnd).map
      reachableViews = some ∅ := by decide
  have hregistering : (run (step (defaultBeans VesselId)) (new ()) bothSessionsEnd).map
      (fun s => s.registering.bind Registration.profile?) = some none := by decide
  rw [hrun, Option.map_some] at hcache hheld hregistering
  obtain ⟨s', hcollected, -, hcached, -⟩ := garbage_collected (defaultBeans VesselId) () hrun
  refine ⟨s, s', hrun, Option.some.inj hcache, hcollected, fun name => ?_⟩
  refine Option.eq_none_iff_forall_ne_some.mpr fun p hp => ?_
  have hreach := ((hcached name p).mp hp).1
  rw [reachable_profile_iff, Option.some.inj hheld, Option.some.inj hregistering] at hreach
  simp at hreach

end LatestPositionService

end CwatchBackend
