import CwatchBackend.Web.SessionIsolation

/-!
# Started views are found

`start` puts its view into the map that it has found in the session or created, and a message looks
for it in the map that has been copied into its websocket.  Both are the same map unless a
handshake, which is not synchronized, or a `start` request creates a second map for the session
after its attribute has been read: whoever holds the first map then keeps holding it.

`Harmless` says that a step that creates a map replaces none that is in use.  In every run of such
steps every view that has been started is found on every websocket of its session
(`started_views_found`); two handshakes at the same time may make a run that breaks it
(`started_view_not_found`).
-/

namespace CwatchBackend

open Foundation

namespace Web

variable {S W V : Type} [DecidableEq S] [DecidableEq W] {services : ℕ → Services V}
  {web web' : Web S W V}

/-- The session for which the step creates a map. -/
def creates (web : Web S W V) : WebAction S W → Option S
  | .createForHandshake w =>
    match web.websocket w with
    | some (.absent session) => some session
    | _ => none
  | .createForStart =>
    match web.starting with
    | some (.absent session) => some session
    | _ => none
  | _ => none

/-- No websocket of the session and no `start` request holds the map, and it is empty. -/
structure Unused (web : Web S W V) (session : S) (viewsMap : ℕ) : Prop where
  websocket : ∀ w, web.websocket w ≠ some (.connected session (some viewsMap))
  starting : ∀ request, web.starting = some request → request.viewsMap? ≠ some viewsMap
  empty : ∀ viewId, web.find viewsMap viewId = none

/-- A step that creates a map for a session does not replace one that is in use. -/
def Harmless (web : Web S W V) (action : WebAction S W) : Prop :=
  ∀ session, web.creates action = some session →
    ∀ viewsMap, web.sessionAttribute session = some viewsMap → web.Unused session viewsMap

/-- Every session has one map, which its websockets and its `start` requests hold and in which the
ids that have been returned to it are found. -/
structure Shared (web : Web S W V) : Prop where
  present : ∀ w session, web.websocket w = some (.present session) →
    ∃ viewsMap, web.sessionAttribute session = some viewsMap
  connected : ∀ w session viewsMap, web.websocket w = some (.connected session viewsMap) →
    ∃ m, viewsMap = some m ∧ web.sessionAttribute session = some m
  holding : ∀ session viewsMap, web.starting = some (.holding session viewsMap) →
    web.sessionAttribute session = some viewsMap
  registered : ∀ session viewsMap viewId view,
    web.starting = some (.registered session viewsMap viewId view) →
    web.sessionAttribute session = some viewsMap
  returned : ∀ session viewId, (session, viewId) ∈ web.returned →
    ∃ m v, web.sessionAttribute session = some m ∧ web.find m viewId = some v

omit [DecidableEq S] [DecidableEq W] in
/-- Without maps nothing is shared. -/
theorem shared_new : Shared (new : Web S W V) where
  present w session h := by cases h
  connected w session viewsMap h := by cases h
  holding session viewsMap h := by cases h
  registered session viewsMap viewId view h := by cases h
  returned session viewId h := absurd h List.not_mem_nil

omit [DecidableEq W] in
/-- Views are still found when a map is created. -/
theorem find_createMap {session : S} {m : ℕ} {viewId : Int32} {v : ℕ}
    (h : web.find m viewId = some v) : (web.createMap session).find m viewId = some v := by
  obtain ⟨object, hobject, hget⟩ := Option.bind_eq_some_iff.mp h
  exact Option.bind_eq_some_iff.mpr ⟨object, getElem?_append_of_eq_some hobject, hget⟩

omit [DecidableEq W] in
/-- A map is created for a session that has none in use. -/
theorem Shared.createMap (h : Shared web) {session : S}
    (hunused : ∀ viewsMap, web.sessionAttribute session = some viewsMap →
      web.Unused session viewsMap) :
    Shared (web.createMap session) := by
  have hother : ∀ {session' m}, session' ≠ session → web.sessionAttribute session' = some m →
      (web.createMap session).sessionAttribute session' = some m :=
    fun hne hm => (sessionAttribute_createMap_of_ne web hne).trans hm
  refine ⟨?_, ?_, ?_, ?_, ?_⟩
  · intro w session' hw
    by_cases hs : session' = session
    · rw [hs]
      exact ⟨_, sessionAttribute_createMap_self web session⟩
    · obtain ⟨m, hm⟩ := h.present w session' hw
      exact ⟨m, hother hs hm⟩
  · intro w session' viewsMap hw
    obtain ⟨m, rfl, hm⟩ := h.connected w session' viewsMap hw
    refine ⟨m, rfl, hother ?_ hm⟩
    rintro rfl
    exact (hunused m hm).websocket w hw
  · intro session' viewsMap hstarting
    have hm := h.holding session' viewsMap hstarting
    refine hother ?_ hm
    rintro rfl
    exact (hunused viewsMap hm).starting _ hstarting rfl
  · intro session' viewsMap viewId view hstarting
    have hm := h.registered session' viewsMap viewId view hstarting
    refine hother ?_ hm
    rintro rfl
    exact (hunused viewsMap hm).starting _ hstarting rfl
  · intro session' viewId hmem
    obtain ⟨m, v, hm, hv⟩ := h.returned session' viewId hmem
    refine ⟨m, v, hother ?_ hm, find_createMap hv⟩
    rintro rfl
    rw [(hunused m hm).empty viewId] at hv
    cases hv

omit [DecidableEq S] in
/-- A websocket gets on. -/
theorem Shared.setWebsocket (h : Shared web) (w : W) {websocket : Websocket S}
    (hpresent : ∀ session, websocket = .present session →
      ∃ viewsMap, web.sessionAttribute session = some viewsMap)
    (hconnected : ∀ session viewsMap, websocket = .connected session viewsMap →
      ∃ m, viewsMap = some m ∧ web.sessionAttribute session = some m) :
    Shared { web with websocket := Function.update web.websocket w (some websocket) } :=
  { h with
    present := fun w' session hw' => (eq_or_of_update hw').elim
      (fun heq => hpresent session (Option.some.inj heq)) (h.present w' session)
    connected := fun w' session viewsMap hw' => (eq_or_of_update hw').elim
      (fun heq => hconnected session viewsMap (Option.some.inj heq))
      (h.connected w' session viewsMap) }

omit [DecidableEq S] [DecidableEq W] in
/-- The view that has been put into a map is found there. -/
theorem find_putView_self {session : S} {viewsMap : ℕ} (h : web.OwnedBy session viewsMap)
    (viewId : Int32) (view : ℕ) (starting : Option (StartRequest S))
    (returned : List (S × Int32)) :
    find { web with
      viewsMaps := web.viewsMaps.modify viewsMap fun viewsMap => viewsMap.put viewId view
      starting, returned } viewsMap viewId = some view := by
  obtain ⟨object, hobject, -⟩ := h
  simp [find, hobject]

omit [DecidableEq S] [DecidableEq W] in
/-- Where a view has been found one is still found. -/
theorem find_putView {m v : ℕ} {viewId' : Int32} (h : web.find m viewId' = some v)
    (viewsMap : ℕ) (viewId : Int32) (view : ℕ) (starting : Option (StartRequest S))
    (returned : List (S × Int32)) :
    ∃ v', find { web with
      viewsMaps := web.viewsMaps.modify viewsMap fun viewsMap => viewsMap.put viewId view
      starting, returned } m viewId' = some v' := by
  obtain ⟨object, hobject, hget⟩ := Option.bind_eq_some_iff.mp h
  by_cases hm : viewsMap = m
  · by_cases hid : viewId' = viewId
    · exact ⟨view, by simp [find, hobject, hm, hid]⟩
    · exact ⟨v, by simp [find, hobject, hm, ViewsMap.get_put_of_ne object hid, hget]⟩
  · exact ⟨v, by simp [find, hobject, hm, hget]⟩

omit [DecidableEq S] [DecidableEq W] in
/-- A `start` request puts its view into the map of its session. -/
theorem Shared.putView (h : Shared web) (howned : Owned web) {session : S} {viewsMap : ℕ}
    {viewId : Int32} {view : ℕ}
    (hstarting : web.starting = some (.registered session viewsMap viewId view)) :
    Shared { web with
      viewsMaps := web.viewsMaps.modify viewsMap fun viewsMap => viewsMap.put viewId view
      starting := none
      returned := web.returned ++ [(session, viewId)] } := by
  refine { h with
    holding := nofun, registered := nofun, returned := fun session' viewId' hmem => ?_ }
  rcases List.mem_append.mp hmem with hmem | hmem
  · obtain ⟨m, v, hm, hv⟩ := h.returned session' viewId' hmem
    obtain ⟨v', hv'⟩ := find_putView hv viewsMap viewId view none _
    exact ⟨m, v', hm, hv'⟩
  · obtain ⟨rfl, rfl⟩ := Prod.mk.inj (List.mem_singleton.mp hmem)
    have hown := (howned.registered session' viewsMap viewId' view hstarting).1
    have hattribute := h.registered session' viewsMap viewId' view hstarting
    exact ⟨viewsMap, view, hattribute, find_putView_self hown viewId' view none _⟩

omit [DecidableEq S] [DecidableEq W] in
/-- A message arrives. -/
theorem Shared.positionsView (h : Shared web) (viewsMap : Option ℕ) (viewId : Int32)
    (viewport : Viewport) : Shared (web.positionsView services viewsMap viewId viewport).1 := by
  rcases positionsView_cases services web viewsMap viewId viewport with
    hsame | ⟨m, v, started, -, -, -, hset⟩
  · rw [hsame]
    exact h
  · rw [hset]
    exact { h with }

/-- Every harmless step keeps one map for every session. -/
theorem shared_of_step {action : WebAction S W} (howned : Owned web) (h : Shared web)
    (hharmless : web.Harmless action) (hstep : web.step services action = some web') :
    Shared web' := by
  cases stepped_of_step hstep with
  | handshakeAbsent w session _ _ => exact h.setWebsocket w nofun nofun
  | handshakePresent w session viewsMap _ hread =>
    refine h.setWebsocket w (fun session' heq => ?_) nofun
    obtain rfl := Websocket.present.inj heq
    exact ⟨viewsMap, hread⟩
  | createForHandshake w session hw =>
    have hcreates : web.creates (.createForHandshake w) = some session := by
      simp only [creates, hw]
    refine (h.createMap (hharmless session hcreates)).setWebsocket w (fun session' heq => ?_) nofun
    obtain rfl := Websocket.present.inj heq
    exact ⟨_, sessionAttribute_createMap_self web session⟩
  | copyAttributes w session hw =>
    obtain ⟨m, hm⟩ := h.present w session hw
    refine h.setWebsocket w nofun fun session' viewsMap heq => ?_
    obtain ⟨rfl, rfl⟩ := Websocket.connected.inj heq
    exact ⟨m, hm, hm⟩
  | startAbsent session _ _ => exact { h with holding := nofun, registered := nofun }
  | startHolding session viewsMap _ hread =>
    refine { h with holding := fun session' viewsMap' heq => ?_, registered := nofun }
    obtain ⟨rfl, rfl⟩ := StartRequest.holding.inj (Option.some.inj heq)
    exact hread
  | createForStart session hstarting =>
    have hcreates : web.creates (.createForStart : WebAction S W) = some session := by
      simp only [creates, hstarting]
    refine { h.createMap (hharmless session hcreates) with
      holding := fun session' viewsMap heq => ?_, registered := nofun }
    obtain ⟨rfl, rfl⟩ := StartRequest.holding.inj (Option.some.inj heq)
    exact sessionAttribute_createMap_self web session
  | register session viewsMap hstarting =>
    refine { h with holding := nofun, registered := fun session' viewsMap' viewId view heq => ?_ }
    obtain ⟨rfl, rfl, -, -⟩ := StartRequest.registered.inj (Option.some.inj heq)
    exact h.holding session viewsMap hstarting
  | registerThrows session viewsMap _ => exact { h with holding := nofun, registered := nofun }
  | putView session viewsMap viewId view hstarting => exact h.putView howned hstarting
  | positionsView w session viewsMap viewId viewport _ =>
    exact h.positionsView viewsMap viewId viewport

/-- In every run whose steps do not replace a map that is in use, a message with an id that `start`
has returned finds the view on every websocket of the session, and sets its viewport. -/
theorem started_views_found (services : ℕ → Services V) (actions : List (WebAction S W))
    (web : Web S W V) (hmeet : StepsMeet (step services) Harmless new actions)
    (hrun : run (step services) new actions = some web) :
    ∀ session viewId w viewsMap viewport, (session, viewId) ∈ web.returned →
      web.websocket w = some (.connected session viewsMap) →
      ∃ (m v : ℕ) (started : StartedView S V), viewsMap = some m ∧
        web.find m viewId = some v ∧ web.views[v]? = some started ∧
        started.session = session ∧ started.viewId = viewId ∧
        web.positionsView services viewsMap viewId viewport =
          ({ web with
              views := web.views.set v
                { started with view := (started.view.setVieport (services v) viewport).1 } },
            (started.view.setVieport (services v) viewport).2) := by
  obtain ⟨howned, hshared⟩ : Owned web ∧ Shared web :=
    run_invariant (I := fun web => Owned web ∧ Shared web)
      (fun _ _ _ h hharmless hstep =>
        ⟨owned_of_step h.1 hstep, shared_of_step h.1 h.2 hharmless hstep⟩)
      ⟨owned_new, shared_new⟩ hmeet hrun
  intro session viewId w viewsMap viewport hmem hw
  obtain ⟨m, rfl, hm⟩ := hshared.connected w session viewsMap hw
  obtain ⟨m', v, hm', hv⟩ := hshared.returned session viewId hmem
  obtain rfl := Option.some.inj (hm.symm.trans hm')
  -- The map belongs to the session, and so does the view in it.
  obtain ⟨object, hobject, howner⟩ := howned.websocket w session m hw
  obtain ⟨object', hobject', hget⟩ := Option.bind_eq_some_iff.mp hv
  obtain rfl := Option.some.inj (hobject.symm.trans hobject')
  obtain ⟨started, hstarted, hsession, hviewId⟩ := howned.entry m object hobject viewId v hget
  refine ⟨m, v, started, rfl, hv, hstarted, hsession.trans howner, hviewId, ?_⟩
  simp only [positionsView, Option.bind_some, hv, hstarted]

/-! ### Two browser tabs -/

/-- A session opens a websocket and starts a view. -/
def oneTab : List (WebAction Unit Bool) :=
  [.readForHandshake false (), .createForHandshake false, .copyAttributes false,
    .readForStart (), .register, .putView]

/-- A message finds the view on the websocket and sets its viewport. -/
theorem started_views_found_oneTab :
    ∃ web : Web Unit Bool VesselId, run (step planeViews) new oneTab = some web ∧
      ∀ viewport, ∃ (v : ℕ) (started : StartedView Unit VesselId), web.find 0 0 = some v ∧
        web.views[v]? = some started ∧
        (web.positionsView planeViews (some 0) 0 viewport).2 =
          (started.view.setVieport (planeViews v) viewport).2 := by
  obtain ⟨web, hrun⟩ : ∃ web : Web Unit Bool VesselId,
      run (step planeViews) new oneTab = some web := ⟨_, rfl⟩
  have hmeet : StepsMeet (step planeViews) Harmless (new : Web Unit Bool VesselId) oneTab := by
    -- Only the second step creates a map, and the session has none before.
    refine stepsMeet_cons nofun fun _ h₁ => ?_
    obtain rfl := Option.some.inj h₁
    refine stepsMeet_cons (fun _ _ _ hread => nomatch hread) fun _ h₂ => ?_
    obtain rfl := Option.some.inj h₂
    refine stepsMeet_cons nofun fun _ _ => stepsMeet_cons nofun fun _ _ =>
      stepsMeet_cons nofun fun _ _ => stepsMeet_cons nofun fun _ _ => stepsMeet_nil
  have hw : web.websocket false = some (.connected () (some 0)) := by
    obtain rfl := Option.some.inj hrun
    rfl
  have hreturned : ((), 0) ∈ web.returned := by
    obtain rfl := Option.some.inj hrun
    decide
  refine ⟨web, hrun, fun viewport => ?_⟩
  obtain ⟨m, v, started, hm, hv, hstarted, -, -, hset⟩ := started_views_found planeViews oneTab web
    hmeet hrun () 0 false (some 0) viewport hreturned hw
  obtain rfl := Option.some.inj hm
  exact ⟨v, started, hv, hstarted, congrArg Prod.snd hset⟩

/-- Two browser tabs of a session open their websockets at the same time, and one of them starts a
view. -/
def twoTabs : List (WebAction Unit Bool) :=
  [.readForHandshake false (), .readForHandshake true (), .createForHandshake false,
    .copyAttributes false, .createForHandshake true, .copyAttributes true, .readForStart (),
    .register, .putView]

/-- The view is in the map that the second handshake has created, and a message on the first
websocket ends with a `NullPointerException`. -/
theorem started_view_not_found :
    ∃ web : Web Unit Bool VesselId, run (step planeViews) new twoTabs = some web ∧
      ((), 0) ∈ web.returned ∧
      web.websocket false = some (.connected () (some 0)) ∧
      ∀ viewport, web.positionsView planeViews (some 0) 0 viewport =
        (web, some .nullPointerException) :=
  ⟨_, rfl, by decide, rfl, fun _ => rfl⟩

end Web

end CwatchBackend
