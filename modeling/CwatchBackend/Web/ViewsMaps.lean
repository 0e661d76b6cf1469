import CwatchBackend.Foundation.Run
import CwatchBackend.Process.View

/-!
# The views of the HTTP sessions

`LatestPositionConfiguration` keeps the views of an HTTP session in a map that is an attribute of
the session.  Two components create the map if it is missing: the interceptor of the websocket
handshakes, which is not synchronized, and the controller in `start`, which is.  After the
interceptor a second one copies the attributes of the session, and with them the reference to the
map, into the websocket, and `positionsView` looks up the views of its messages there.

The maps and the views are objects on a heap, and a reference is an index.  `step` lets handshakes,
`start` requests and messages make their accesses to the shared objects one at a time, in any order.
A `start` request ends without a view if `register` throws, and the id that it has drawn is lost.
-/

namespace CwatchBackend

open Foundation

/-- `Map<Integer, LatestPositionView<VesselId>>`: references to views under their ids.  `owner` is
kept for the statements: the session for which the map has been created. -/
structure ViewsMap (S : Type) where
  owner : S
  get : Int32 → Option ℕ

namespace ViewsMap

variable {S : Type}

/-- `new HashMap<>()`. -/
def new (owner : S) : ViewsMap S := ⟨owner, fun _ => none⟩

/-- `put(viewId, view)`. -/
def put (viewsMap : ViewsMap S) (viewId : Int32) (view : ℕ) : ViewsMap S :=
  { viewsMap with get := Function.update viewsMap.get viewId (some view) }

@[simp] theorem get_put_self (viewsMap : ViewsMap S) (viewId : Int32) (view : ℕ) :
    (viewsMap.put viewId view).get viewId = some view := Function.update_self ..

theorem get_put_of_ne (viewsMap : ViewsMap S) {viewId viewId' : Int32} (h : viewId' ≠ viewId)
    (view : ℕ) : (viewsMap.put viewId view).get viewId' = viewsMap.get viewId' :=
  Function.update_of_ne h ..

end ViewsMap

/-- A view that has been registered, and the session of the `start` request that registered it. -/
structure StartedView (S V : Type) where
  session : S
  viewId : Int32
  view : DefaultLatestPositionView V

/-- A websocket of a session: its handshake has found no map, it has found or created one, or the
attributes have been copied. -/
inductive Websocket (S : Type) where
  | absent (session : S)
  | present (session : S)
  | connected (session : S) (viewsMap : Option ℕ)

/-- A `start` request: it has found no map, it has found or created one, or it has registered its
view. -/
inductive StartRequest (S : Type) where
  | absent (session : S)
  | holding (session : S) (viewsMap : ℕ)
  | registered (session : S) (viewsMap : ℕ) (viewId : Int32) (view : ℕ)

/-- The map that a `start` request is going to fill. -/
def StartRequest.viewsMap? {S : Type} : StartRequest S → Option ℕ
  | .absent _ => none
  | .holding _ viewsMap => some viewsMap
  | .registered _ viewsMap _ _ => some viewsMap

/-- The id that a `start` request is going to return. -/
def StartRequest.viewId? {S : Type} : StartRequest S → Option Int32
  | .absent _ => none
  | .holding _ _ => none
  | .registered _ _ viewId _ => some viewId

/-- The sessions with their attribute `positionViewsMap`, the websockets, and the `start` request in
progress: `start` is `synchronized`, so there is only one.  `returned` lists the ids that `start`
has returned to the sessions. -/
structure Web (S W V : Type) where
  sessionAttribute : S → Option ℕ
  viewsMaps : List (ViewsMap S)
  websocket : W → Option (Websocket S)
  starting : Option (StartRequest S)
  viewIdSequence : Int32
  views : List (StartedView S V)
  returned : List (S × Int32)

/-- The accesses to the shared objects.  The call of `register` of a `start` request returns a view or
throws. -/
inductive WebAction (S W : Type) where
  | readForHandshake (w : W) (session : S)
  | createForHandshake (w : W)
  | copyAttributes (w : W)
  | readForStart (session : S)
  | createForStart
  | register
  | registerThrows
  | putView
  | positionsView (w : W) (viewId : Int32) (viewport : Viewport)

/-- In the access `register` draws the id of a view, whether it returns or throws. -/
def WebAction.drawsId {S W : Type} : WebAction S W → Bool
  | .register => true
  | .registerThrows => true
  | _ => false

namespace Web

variable {S W V : Type} [DecidableEq S] [DecidableEq W]

/-- No session has a map yet. -/
def new : Web S W V where
  sessionAttribute := fun _ => none
  viewsMaps := []
  websocket := fun _ => none
  starting := none
  viewIdSequence := 0
  views := []
  returned := []

/-- `viewsMap.get(viewId)`. -/
def find (web : Web S W V) (viewsMap : ℕ) (viewId : Int32) : Option ℕ :=
  web.viewsMaps[viewsMap]?.bind fun viewsMap => viewsMap.get viewId

/-- `session.setAttribute(SESSION_POSITION_VIEWS_MAP, new HashMap<>())`. -/
def createMap (web : Web S W V) (session : S) : Web S W V :=
  { web with
    sessionAttribute := Function.update web.sessionAttribute session (some web.viewsMaps.length)
    viewsMaps := web.viewsMaps ++ [ViewsMap.new session] }

omit [DecidableEq W] in
@[simp] theorem sessionAttribute_createMap_self (web : Web S W V) (session : S) :
    (web.createMap session).sessionAttribute session = some web.viewsMaps.length :=
  Function.update_self ..

omit [DecidableEq W] in
theorem sessionAttribute_createMap_of_ne (web : Web S W V) {session session' : S}
    (h : session' ≠ session) :
    (web.createMap session).sessionAttribute session' = web.sessionAttribute session' :=
  Function.update_of_ne h ..

/-- `positionsView(viewData, headers)` on a websocket with the given map. -/
def positionsView (services : ℕ → Services V) (web : Web S W V) (viewsMap : Option ℕ)
    (viewId : Int32) (viewport : Viewport) : Web S W V × Option Throwable :=
  match viewsMap.bind fun viewsMap => web.find viewsMap viewId with
  | none => (web, some .nullPointerException)
  | some v =>
    match web.views[v]? with
    | none => (web, some .nullPointerException)
    | some started =>
      let result := started.view.setVieport (services v) viewport
      ({ web with views := web.views.set v { started with view := result.1 } }, result.2)

/-- The steps of the handshakes, of the `start` requests and of the messages. -/
def step (services : ℕ → Services V) (web : Web S W V) : WebAction S W → Option (Web S W V)
  | .readForHandshake w session =>
    match web.websocket w with
    | some _ => none
    | none =>
      let websocket : Websocket S := match web.sessionAttribute session with
        | none => .absent session
        | some _ => .present session
      some { web with websocket := Function.update web.websocket w (some websocket) }
  | .createForHandshake w =>
    match web.websocket w with
    | some (.absent session) =>
      some { web.createMap session with
        websocket := Function.update web.websocket w (some (.present session)) }
    | _ => none
  | .copyAttributes w =>
    match web.websocket w with
    | some (.present session) =>
      let websocket : Websocket S := .connected session (web.sessionAttribute session)
      some { web with websocket := Function.update web.websocket w (some websocket) }
    | _ => none
  | .readForStart session =>
    match web.starting with
    | some _ => none
    | none =>
      let request : StartRequest S := match web.sessionAttribute session with
        | none => .absent session
        | some viewsMap => .holding session viewsMap
      some { web with starting := some request }
  | .createForStart =>
    match web.starting with
    | some (.absent session) =>
      some { web.createMap session with
        starting := some (.holding session web.viewsMaps.length) }
    | _ => none
  | .register =>
    match web.starting with
    | some (.holding session viewsMap) =>
      -- `viewIdSequence.getAndIncrement()` in the constructor call of the view.
      let viewId := web.viewIdSequence
      some { web with
        viewIdSequence := web.viewIdSequence + 1
        views := web.views ++ [⟨session, viewId, .new⟩]
        starting := some (.registered session viewsMap viewId web.views.length) }
    | _ => none
  | .registerThrows =>
    match web.starting with
    | some (.holding _ _) =>
      -- No profile has the name, or the constructor throws; the id has been drawn before.
      some { web with viewIdSequence := web.viewIdSequence + 1, starting := none }
    | _ => none
  | .putView =>
    match web.starting with
    | some (.registered session viewsMap viewId view) =>
      some { web with
        viewsMaps := web.viewsMaps.modify viewsMap fun viewsMap => viewsMap.put viewId view
        starting := none
        returned := web.returned ++ [(session, viewId)] }
    | _ => none
  | .positionsView w viewId viewport =>
    match web.websocket w with
    | some (.connected _ viewsMap) => some (web.positionsView services viewsMap viewId viewport).1
    | _ => none

/-! ### What a step does -/

omit [DecidableEq S] [DecidableEq W] in
/-- A message finds no view and changes nothing, or it finds a view and gives it a new viewport. -/
theorem positionsView_cases (services : ℕ → Services V) (web : Web S W V) (viewsMap : Option ℕ)
    (viewId : Int32) (viewport : Viewport) :
    web.positionsView services viewsMap viewId viewport = (web, some .nullPointerException) ∨
      ∃ m v started, viewsMap = some m ∧ web.find m viewId = some v ∧
        web.views[v]? = some started ∧
        web.positionsView services viewsMap viewId viewport =
          ({ web with
              views := web.views.set v
                { started with view := (started.view.setVieport (services v) viewport).1 } },
            (started.view.setVieport (services v) viewport).2) := by
  unfold positionsView
  cases viewsMap with
  | none => exact Or.inl rfl
  | some m =>
    rw [Option.bind_some]
    cases hfind : web.find m viewId with
    | none => exact Or.inl rfl
    | some v =>
      dsimp only
      cases hview : web.views[v]? with
      | none => exact Or.inl rfl
      | some started => exact Or.inr ⟨m, v, started, rfl, hfind, hview, rfl⟩

/-- The steps, one constructor for each outcome of an access. -/
inductive Stepped (services : ℕ → Services V) (web : Web S W V) :
    WebAction S W → Web S W V → Prop
  | handshakeAbsent (w : W) (session : S) (free : web.websocket w = none)
      (hread : web.sessionAttribute session = none) :
      Stepped services web (.readForHandshake w session)
        { web with websocket := Function.update web.websocket w (some (.absent session)) }
  | handshakePresent (w : W) (session : S) (viewsMap : ℕ) (free : web.websocket w = none)
      (hread : web.sessionAttribute session = some viewsMap) :
      Stepped services web (.readForHandshake w session)
        { web with websocket := Function.update web.websocket w (some (.present session)) }
  | createForHandshake (w : W) (session : S) (hw : web.websocket w = some (.absent session)) :
      Stepped services web (.createForHandshake w)
        { web.createMap session with
          websocket := Function.update web.websocket w (some (.present session)) }
  | copyAttributes (w : W) (session : S) (hw : web.websocket w = some (.present session)) :
      Stepped services web (.copyAttributes w)
        { web with
          websocket := Function.update web.websocket w
            (some (.connected session (web.sessionAttribute session))) }
  | startAbsent (session : S) (free : web.starting = none)
      (hread : web.sessionAttribute session = none) :
      Stepped services web (.readForStart session)
        { web with starting := some (.absent session) }
  | startHolding (session : S) (viewsMap : ℕ) (free : web.starting = none)
      (hread : web.sessionAttribute session = some viewsMap) :
      Stepped services web (.readForStart session)
        { web with starting := some (.holding session viewsMap) }
  | createForStart (session : S) (hstarting : web.starting = some (.absent session)) :
      Stepped services web .createForStart
        { web.createMap session with
          starting := some (.holding session web.viewsMaps.length) }
  | register (session : S) (viewsMap : ℕ)
      (hstarting : web.starting = some (.holding session viewsMap)) :
      Stepped services web .register
        { web with
          viewIdSequence := web.viewIdSequence + 1
          views := web.views ++ [⟨session, web.viewIdSequence, .new⟩]
          starting := some (.registered session viewsMap web.viewIdSequence web.views.length) }
  | registerThrows (session : S) (viewsMap : ℕ)
      (hstarting : web.starting = some (.holding session viewsMap)) :
      Stepped services web .registerThrows
        { web with viewIdSequence := web.viewIdSequence + 1, starting := none }
  | putView (session : S) (viewsMap : ℕ) (viewId : Int32) (view : ℕ)
      (hstarting : web.starting = some (.registered session viewsMap viewId view)) :
      Stepped services web .putView
        { web with
          viewsMaps := web.viewsMaps.modify viewsMap fun viewsMap => viewsMap.put viewId view
          starting := none
          returned := web.returned ++ [(session, viewId)] }
  | positionsView (w : W) (session : S) (viewsMap : Option ℕ) (viewId : Int32)
      (viewport : Viewport) (hw : web.websocket w = some (.connected session viewsMap)) :
      Stepped services web (.positionsView w viewId viewport)
        (web.positionsView services viewsMap viewId viewport).1

/-- Every step has one of these outcomes. -/
theorem stepped_of_step {services : ℕ → Services V} {web web' : Web S W V}
    {action : WebAction S W} (h : web.step services action = some web') :
    Stepped services web action web' := by
  cases action with
  | readForHandshake w session =>
    cases hw : web.websocket w with
    | some websocket => simp only [step, hw, reduceCtorEq] at h
    | none =>
      simp only [step, hw] at h
      obtain rfl := Option.some.inj h
      cases hread : web.sessionAttribute session with
      | none => exact .handshakeAbsent w session hw hread
      | some viewsMap => exact .handshakePresent w session viewsMap hw hread
  | createForHandshake w =>
    simp only [step] at h
    split at h
    · next session hw => exact Option.some.inj h ▸ .createForHandshake w session hw
    · cases h
  | copyAttributes w =>
    simp only [step] at h
    split at h
    · next session hw => exact Option.some.inj h ▸ .copyAttributes w session hw
    · cases h
  | readForStart session =>
    cases hstarting : web.starting with
    | some request => simp only [step, hstarting, reduceCtorEq] at h
    | none =>
      simp only [step, hstarting] at h
      obtain rfl := Option.some.inj h
      cases hread : web.sessionAttribute session with
      | none => exact .startAbsent session hstarting hread
      | some viewsMap => exact .startHolding session viewsMap hstarting hread
  | createForStart =>
    simp only [step] at h
    split at h
    · next session hstarting => exact Option.some.inj h ▸ .createForStart session hstarting
    · cases h
  | register =>
    simp only [step] at h
    split at h
    · next session viewsMap hstarting =>
      exact Option.some.inj h ▸ .register session viewsMap hstarting
    · cases h
  | registerThrows =>
    simp only [step] at h
    split at h
    · next session viewsMap hstarting =>
      exact Option.some.inj h ▸ .registerThrows session viewsMap hstarting
    · cases h
  | putView =>
    simp only [step] at h
    split at h
    · next session viewsMap viewId view hstarting =>
      exact Option.some.inj h ▸ .putView session viewsMap viewId view hstarting
    · cases h
  | positionsView w viewId viewport =>
    simp only [step] at h
    split at h
    · next session viewsMap hw =>
      exact Option.some.inj h ▸ .positionsView w session viewsMap viewId viewport hw
    · cases h

end Web

end CwatchBackend
