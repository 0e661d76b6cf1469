import CwatchBackend.Process.ProfileRuns
import Mathlib.Data.Finset.Erase

/-!
# The service of latest positions

`process.DefaultLatestPositionService`: `register` takes a profile out of `profileCache`, which
loads it if it is missing, and constructs a view that registers itself with the profile.  A report
is passed to every profile of the cache.

The cache refers to its profiles and a profile to its views by weak references, which the garbage
collector clears when the object is not reachable any more.  Strong references are those of the
sessions to their views, of a view to its profile, and of the registration in progress to what it
has got so far (`Reachable`): `start`, the only caller of `register`, is `synchronized`.

Profiles and views are objects on a heap, and a reference is an index.
-/

namespace CwatchBackend

open Foundation

/-- What `DefaultLatestPositionService` is constructed with, and what handling a report does to the
views.  `getProfile name` is the filter of the profile that the profile service has under the name,
and `none` where it answers `null`. -/
structure ServiceBeans (V σ : Type) where
  getProfile : String → Option (EnrichedPositionFilter V)
  timeoutMilliseconds : Int64
  handle : Handler V ℕ σ

/-- `getProfile(name)` of `MemoryProfileService`. -/
def MemoryProfileService.getProfile {V : Type} (name : String) :
    Option (EnrichedPositionFilter V) :=
  if name = "default" then some .all else none

/-- A profile that the cache has loaded, and the name under which it has been loaded. -/
structure LoadedProfile (V : Type) where
  name : String
  profile : MemoryLatestPositionProfile V ℕ

/-- The fields of a view that never change: its id and its profile. -/
structure RegisteredView where
  viewId : Int32
  profile : ℕ

/-- A call of `register`: it has drawn an id and got its profile, or it has constructed the view. -/
inductive Registration where
  | holding (viewId : Int32) (profile : ℕ)
  | constructed (view : ℕ)

/-- A call of one profile with a report: the profile, its clock reading, and the order in which it
iterates its views. -/
structure ProfileCall where
  profile : ℕ
  now : Int64
  order : List ℕ

/-- The objects that are referred to weakly. -/
inductive WeakObject where
  | view (view : ℕ)
  | profile (profile : ℕ)

/-- `DefaultLatestPositionService` with the profiles and the views created so far, the registration
in progress, and the views that the sessions hold. -/
structure LatestPositionService (V σ : Type) where
  profiles : List (LoadedProfile V)
  profileCache : String → Option ℕ
  viewIdSequence : Int32
  views : List RegisteredView
  states : Views V ℕ σ
  registering : Option Registration
  held : Finset ℕ

namespace LatestPositionService

variable {V σ : Type}

/-- The service before the first registration. -/
def new (state : σ) : LatestPositionService V σ where
  profiles := []
  profileCache := fun _ => none
  viewIdSequence := 0
  views := []
  states := { state := fun _ => state, handed := fun _ => [] }
  registering := none
  held := ∅

/-! ### Registering a view -/

/-- A profile has been loaded, and the registration gets it. -/
def load (s : LatestPositionService V σ) (viewId : Int32) (profileName : String)
    (profile : MemoryLatestPositionProfile V ℕ) : LatestPositionService V σ :=
  { s with
    profiles := s.profiles ++ [⟨profileName, profile⟩]
    profileCache := Function.update s.profileCache profileName (some s.profiles.length)
    registering := some (.holding viewId s.profiles.length) }

section Load

variable {s : LatestPositionService V σ} {viewId : Int32} {profileName : String}
  {profile : MemoryLatestPositionProfile V ℕ} {p : ℕ} {loaded : LoadedProfile V}

/-- The profiles that have been loaded before. -/
theorem getElem?_load_of_some (h : s.profiles[p]? = some loaded) :
    (s.load viewId profileName profile).profiles[p]? = some loaded :=
  (List.getElem?_append_left (List.getElem?_eq_some_iff.mp h).1).trans h

/-- The new profile. -/
theorem getElem?_load_new :
    (s.load viewId profileName profile).profiles[s.profiles.length]? =
      some ⟨profileName, profile⟩ :=
  List.getElem?_concat_length

/-- There are no other profiles. -/
theorem getElem?_load_cases (h : (s.load viewId profileName profile).profiles[p]? = some loaded) :
    s.profiles[p]? = some loaded ∨ p = s.profiles.length ∧ loaded = ⟨profileName, profile⟩ := by
  rcases Nat.lt_trichotomy p s.profiles.length with hlt | rfl | hlt
  · exact Or.inl ((List.getElem?_append_left hlt).symm.trans h)
  · rw [getElem?_load_new] at h
    exact Or.inr ⟨rfl, (Option.some.inj h).symm⟩
  · rw [load, List.getElem?_eq_none (by simp; omega)] at h
    cases h

/-- The new profile is cached. -/
theorem profileCache_load_self :
    (s.load viewId profileName profile).profileCache profileName = some s.profiles.length :=
  Function.update_self ..

/-- Under the other names the same profiles are cached. -/
theorem profileCache_load_of_ne {name : String} (h : name ≠ profileName) :
    (s.load viewId profileName profile).profileCache name = s.profileCache name :=
  Function.update_of_ne h ..

end Load

/-- `register` up to the constructor call: `viewIdSequence.getAndIncrement()`, then
`profileCache.getUnchecked(profileName)`. -/
def getUnchecked (beans : ServiceBeans V σ) (s : LatestPositionService V σ)
    (profileName : String) : LatestPositionService V σ :=
  let viewId := s.viewIdSequence
  let s := { s with viewIdSequence := viewId + 1 }
  match s.profileCache profileName with
  | some profile => { s with registering := some (.holding viewId profile) }
  | none =>
    match beans.getProfile profileName with
    -- The loader throws a `NullPointerException`, and nothing is cached.
    | none => s
    | some positionFilter =>
      s.load viewId profileName (.new positionFilter beans.timeoutMilliseconds)

/-- The constructor of the view, which registers the view with its profile and then decodes the
coordinate reference system of the positions.  If that throws, nobody gets the view. -/
def construct (s : LatestPositionService V σ) (viewId : Int32) (profile : ℕ) (decodes : Bool) :
    LatestPositionService V σ :=
  let view := s.views.length
  { s with
    profiles := s.profiles.modify profile fun loaded =>
      { loaded with profile := loaded.profile.register view }
    views := s.views ++ [⟨viewId, profile⟩]
    registering := if decodes then some (.constructed view) else none }

section Construct

variable {s : LatestPositionService V σ} {viewId : Int32} {p v : ℕ} {decodes : Bool}

/-- The profiles after a view has been constructed. -/
theorem getElem?_construct (q : ℕ) :
    (s.construct viewId p decodes).profiles[q]? = s.profiles[q]?.map fun loaded =>
      if p = q then { loaded with profile := loaded.profile.register s.views.length }
      else loaded := by
  rw [construct, List.getElem?_modify]
  split <;> rfl

/-- The views that have been constructed before. -/
theorem getElem?_views_construct_of_some {view : RegisteredView} (h : s.views[v]? = some view) :
    (s.construct viewId p decodes).views[v]? = some view :=
  (List.getElem?_append_left (List.getElem?_eq_some_iff.mp h).1).trans h

/-- The new view. -/
theorem getElem?_views_construct_new :
    (s.construct viewId p decodes).views[s.views.length]? = some ⟨viewId, p⟩ :=
  List.getElem?_concat_length

end Construct

/-! ### Processing a report -/

/-- The profile is a value of the cache. -/
def IsCached (s : LatestPositionService V σ) (p : ℕ) : Prop :=
  ∃ loaded ∈ s.profiles[p]?, s.profileCache loaded.name = some p

instance (s : LatestPositionService V σ) : DecidablePred s.IsCached := fun p =>
  match h : s.profiles[p]? with
  | none => isFalse (by simp [IsCached, h])
  | some loaded => decidable_of_iff (s.profileCache loaded.name = some p) (by simp [IsCached, h])

/-- The calls are calls of profiles of the cache, at most one of each, and every call iterates all
views of its profile. -/
def Iterates (s : LatestPositionService V σ) (calls : List ProfileCall) : Prop :=
  (calls.map ProfileCall.profile).Nodup ∧ ∀ c ∈ calls, s.IsCached c.profile ∧ c.order.Nodup ∧
    ∀ loaded ∈ s.profiles[c.profile]?, c.order.toFinset = loaded.profile.views

instance (s : LatestPositionService V σ) (calls : List ProfileCall) :
    Decidable (s.Iterates calls) :=
  inferInstanceAs (Decidable (_ ∧ _))

/-- Every profile of the cache is called. -/
def Completes (s : LatestPositionService V σ) (calls : List ProfileCall) : Prop :=
  ∀ p < s.profiles.length, s.IsCached p → p ∈ calls.map ProfileCall.profile

instance (s : LatestPositionService V σ) (calls : List ProfileCall) :
    Decidable (s.Completes calls) :=
  inferInstanceAs
    (Decidable (∀ p < s.profiles.length, s.IsCached p → p ∈ calls.map ProfileCall.profile))

section Process

variable [DecidableEq V]

/-- One profile processes the report. -/
def processProfile (beans : ServiceBeans V σ) (s : LatestPositionService V σ) (e : Enriched V)
    (call : ProfileCall) : LatestPositionService V σ × Option Throwable :=
  match s.profiles[call.profile]? with
  | none => (s, none)
  | some loaded =>
    let result :=
      ProfileState.process beans.handle ⟨loaded.profile, s.states⟩ call.now call.order e
    ({ s with
        profiles := s.profiles.set call.profile { loaded with profile := result.1.profile }
        states := result.1.views }, result.2)

/-- `forEachProfile`: the profiles have no views in common, so their parallel calls are taken one
after the other. -/
def forEachProfile (beans : ServiceBeans V σ) (e : Enriched V) :
    List ProfileCall → LatestPositionService V σ → LatestPositionService V σ × Option Throwable
  | [], s => (s, none)
  | call :: calls, s =>
    let result := s.processProfile beans e call
    let rest := forEachProfile beans e calls result.1
    (rest.1, result.2.or rest.2)

end Process

/-! ### Collecting garbage -/

/-- There is a path of strong references to the object, from a session or from the registration in
progress. -/
inductive Reachable (s : LatestPositionService V σ) : WeakObject → Prop
  | held {v : ℕ} (hheld : v ∈ s.held) : Reachable s (.view v)
  | constructed {v : ℕ} (hregistering : s.registering = some (.constructed v)) :
      Reachable s (.view v)
  | holding {viewId : Int32} {p : ℕ} (hregistering : s.registering = some (.holding viewId p)) :
      Reachable s (.profile p)
  | profile {v : ℕ} {view : RegisteredView} (hview : s.views[v]? = some view)
      (hreachable : Reachable s (.view v)) : Reachable s (.profile view.profile)

/-- The views that are reachable. -/
def reachableViews (s : LatestPositionService V σ) : Finset ℕ :=
  match s.registering with
  | some (.constructed v) => insert v s.held
  | _ => s.held

/-- A view is reachable if a session holds it or it has just been constructed. -/
theorem reachable_view_iff {s : LatestPositionService V σ} {v : ℕ} :
    s.Reachable (.view v) ↔ v ∈ s.reachableViews := by
  rw [reachableViews]
  constructor
  · rintro (hheld | hregistering)
    · split
      · exact Finset.mem_insert_of_mem hheld
      · exact hheld
    · rw [hregistering]
      exact Finset.mem_insert_self v s.held
  · intro hv
    split at hv
    · next u hregistering =>
      rcases Finset.mem_insert.mp hv with rfl | hheld
      · exact .constructed hregistering
      · exact .held hheld
    · exact .held hv

/-- A view stays reachable if the sessions and the registration hold the same views. -/
theorem Reachable.of_eq {s s' : LatestPositionService V σ} {v : ℕ} (h : s.Reachable (.view v))
    (hregistering : s'.registering = s.registering) (hheld : s'.held = s.held) :
    s'.Reachable (.view v) := by
  rw [reachable_view_iff, reachableViews] at h ⊢
  rwa [hregistering, hheld]

/-- The profile that a registration refers to before the view is constructed. -/
def Registration.profile? : Registration → Option ℕ
  | .holding _ profile => some profile
  | .constructed _ => none

/-- A profile is reachable if the registration in progress has just got it or one of its views is
reachable. -/
theorem reachable_profile_iff {s : LatestPositionService V σ} {p : ℕ} :
    s.Reachable (.profile p) ↔
      (s.registering.bind Registration.profile? = some p ∨
        ∃ v ∈ s.reachableViews, (s.views[v]?.map RegisteredView.profile) = some p) := by
  constructor
  · intro h
    cases h with
    | holding hregistering => exact Or.inl (by rw [hregistering]; rfl)
    | @profile v view hview hreachable =>
      exact Or.inr ⟨v, reachable_view_iff.mp hreachable, by rw [hview]; rfl⟩
  · rintro (hregistering | ⟨v, hv, hprofile⟩)
    · obtain ⟨registration, hregistering, hp⟩ := Option.bind_eq_some_iff.mp hregistering
      cases registration with
      | holding viewId profile => exact Option.some.inj hp ▸ .holding hregistering
      | constructed view => cases hp
    · obtain ⟨view, hview, rfl⟩ := Option.map_eq_some_iff.mp hprofile
      exact .profile hview (reachable_view_iff.mpr hv)

instance (s : LatestPositionService V σ) : DecidablePred s.Reachable := fun object =>
  match object with
  | .view _ => decidable_of_iff _ reachable_view_iff.symm
  | .profile _ => decidable_of_iff _ reachable_profile_iff.symm

/-- The weak references to the object are cleared. -/
def collect (s : LatestPositionService V σ) : WeakObject → LatestPositionService V σ
  | .view v =>
    { s with
      profiles := s.profiles.map fun loaded =>
        { loaded with profile := { loaded.profile with views := loaded.profile.views.erase v } } }
  | .profile p => { s with profileCache := fun name => (s.profileCache name).filter (· ≠ p) }

/-- Clearing references to unreachable objects leaves the same objects reachable. -/
theorem reachable_collect_iff {s : LatestPositionService V σ} (collected object : WeakObject) :
    (s.collect collected).Reachable object ↔ s.Reachable object := by
  cases object with
  | view v => cases collected <;> exact ⟨fun h => h.of_eq rfl rfl, fun h => h.of_eq rfl rfl⟩
  | profile p =>
    rw [reachable_profile_iff, reachable_profile_iff]
    cases collected <;> rfl

/-! ### The steps -/

/-- A registration draws its id and gets its profile, it constructs its view, or its session gets
the view; a session drops a view; a report is processed by the given calls; the garbage collector
takes an object. -/
inductive Action (V : Type) where
  | getUnchecked (profileName : String)
  | construct (decodes : Bool)
  | hold
  | drop (view : ℕ)
  | process (calls : List ProfileCall) (e : Enriched V)
  | collect (object : WeakObject)

variable [DecidableEq V]

/-- One step.  A report comes to every profile of the cache, unless an exception ends the loop
early. -/
def step (beans : ServiceBeans V σ) (s : LatestPositionService V σ) :
    Action V → Option (LatestPositionService V σ)
  | .getUnchecked profileName =>
    match s.registering with
    | some _ => none
    | none => some (s.getUnchecked beans profileName)
  | .construct decodes =>
    match s.registering with
    | some (.holding viewId profile) => some (s.construct viewId profile decodes)
    | _ => none
  | .hold =>
    match s.registering with
    | some (.constructed view) =>
      some { s with registering := none, held := insert view s.held }
    | _ => none
  | .drop view => some { s with held := s.held.erase view }
  | .process calls e =>
    let result := s.forEachProfile beans e calls
    if s.Iterates calls ∧ (result.2 = none → s.Completes calls) then some result.1 else none
  | .collect object => if s.Reachable object then none else some (s.collect object)

/-- The steps, one constructor for each outcome. -/
inductive Stepped (beans : ServiceBeans V σ) (s : LatestPositionService V σ) :
    Action V → LatestPositionService V σ → Prop
  | cached (profileName : String) (p : ℕ) (free : s.registering = none)
      (hcache : s.profileCache profileName = some p) :
      Stepped beans s (.getUnchecked profileName)
        { s with
          viewIdSequence := s.viewIdSequence + 1
          registering := some (.holding s.viewIdSequence p) }
  | unknown (profileName : String) (free : s.registering = none)
      (hcache : s.profileCache profileName = none)
      (hprofile : beans.getProfile profileName = none) : Stepped beans s (.getUnchecked profileName)
        { s with viewIdSequence := s.viewIdSequence + 1 }
  | loaded (profileName : String) (positionFilter : EnrichedPositionFilter V)
      (free : s.registering = none) (hcache : s.profileCache profileName = none)
      (hprofile : beans.getProfile profileName = some positionFilter) :
      Stepped beans s (.getUnchecked profileName)
        ({ s with viewIdSequence := s.viewIdSequence + 1 }.load s.viewIdSequence profileName
          (.new positionFilter beans.timeoutMilliseconds))
  | construct (viewId : Int32) (p : ℕ) (decodes : Bool)
      (hregistering : s.registering = some (.holding viewId p)) :
      Stepped beans s (.construct decodes) (s.construct viewId p decodes)
  | hold (v : ℕ) (hregistering : s.registering = some (.constructed v)) :
      Stepped beans s .hold { s with registering := none, held := insert v s.held }
  | drop (v : ℕ) : Stepped beans s (.drop v) { s with held := s.held.erase v }
  | process (calls : List ProfileCall) (e : Enriched V) (iterates : s.Iterates calls)
      (completes : (s.forEachProfile beans e calls).2 = none → s.Completes calls) :
      Stepped beans s (.process calls e) (s.forEachProfile beans e calls).1
  | collect (object : WeakObject) (unreachable : ¬ s.Reachable object) :
      Stepped beans s (.collect object) (s.collect object)

/-- Every step has one of these outcomes. -/
theorem stepped_of_step {beans : ServiceBeans V σ} {s s' : LatestPositionService V σ}
    {a : Action V} (h : step beans s a = some s') : Stepped beans s a s' := by
  cases a with
  | getUnchecked profileName =>
    rw [step] at h
    split at h
    · cases h
    · next free =>
      obtain rfl := Option.some.inj h
      rw [getUnchecked]
      split
      · next p hcache => exact .cached profileName p free hcache
      · next hcache =>
        split
        · next hprofile => exact .unknown profileName free hcache hprofile
        · next positionFilter hprofile =>
          exact .loaded profileName positionFilter free hcache hprofile
  | construct decodes =>
    simp only [step] at h
    split at h
    · next viewId p hregistering =>
      exact Option.some.inj h ▸ .construct viewId p decodes hregistering
    · cases h
  | hold =>
    simp only [step] at h
    split at h
    · next v hregistering => exact Option.some.inj h ▸ .hold v hregistering
    · cases h
  | drop v => exact Option.some.inj h ▸ .drop v
  | process calls e =>
    rw [step, Option.ite_none_right_eq_some] at h
    obtain ⟨⟨iterates, completes⟩, h⟩ := h
    exact Option.some.inj h ▸ .process calls e iterates completes
  | collect object =>
    rw [step, Option.ite_none_left_eq_some] at h
    exact Option.some.inj h.2 ▸ .collect object h.1

end LatestPositionService

end CwatchBackend
