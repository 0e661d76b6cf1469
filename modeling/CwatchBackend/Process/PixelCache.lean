import CwatchBackend.Process.ViewDecision
import CwatchBackend.Process.ViewFailures

/-!
# The pixel cache

A client position keeps the pixel that has been computed for it and the viewport object that
computed it, and `locatePixel(clientPosition)` computes the pixel again only for another object.  A
`RecomputingView` is a view without that cache: it locates the position of the client whenever it
needs its pixel.

`DefaultLatestPositionView.recomputing` forgets the cache of a view.  As long as the cache is
correct, which it is in every run, forgetting it commutes with every call (`recomputing_perform`),
so that the two views throw and send the same (`pixel_cache_transparent`).
-/

namespace CwatchBackend

open Foundation

/-- A view that keeps no pixels. -/
structure RecomputingView (V : Type) where
  clientState : V → Option (PositionMessage V)
  clientViewport : Option ClientViewport
  viewports : ℕ
  attempts : ℕ
  sent : List (PositionMessage V)

namespace RecomputingView

variable {V : Type}

/-- A new view. -/
def new : RecomputingView V where
  clientState := fun _ => none
  clientViewport := none
  viewports := 0
  attempts := 0
  sent := []

/-- `setVieport(viewport)`. -/
def setVieport (services : Services V) (view : RecomputingView V) (viewport : Viewport) :
    RecomputingView V × Option Throwable :=
  match ClientViewport.new services view.viewports viewport with
  | .ok clientViewport =>
    ({ view with clientViewport := some clientViewport, viewports := view.viewports + 1 }, none)
  | .error throwable => (view, some throwable)

/-- What is done with the pixel of a client position, computed from its coordinates. -/
def withClientPixel (view : RecomputingView V) (clientViewport : ClientViewport)
    (clientPosition : PositionMessage V)
    (use : ClientPixel → RecomputingView V × Option Throwable) :
    RecomputingView V × Option Throwable :=
  match clientViewport.locatePixel clientPosition.latitude clientPosition.longitude with
  | .ok pixel => use pixel
  | .error throwable => (view, some throwable)

variable [DecidableEq V]

/-- `sendToClient(enrichedPosition)`. -/
def sendToClient (services : Services V) (view : RecomputingView V) (e : Enriched V) :
    RecomputingView V × Option Throwable :=
  let cp := DefaultLatestPositionView.messageOf e
  match services.convertAndSend view.attempts cp with
  | none =>
    ({ view with
        attempts := view.attempts + 1
        sent := view.sent ++ [cp]
        clientState := Function.update view.clientState e.identity (some cp) }, none)
  | some throwable => ({ view with attempts := view.attempts + 1 }, some throwable)

/-- `processDefault(enrichedPosition)`, with every pixel computed anew. -/
def processDefault (services : Services V) (view : RecomputingView V) (e : Enriched V) :
    RecomputingView V × Option Throwable :=
  match view.clientViewport with
  | none => (view, none)
  | some clientViewport =>
    let position := e.position.default
    match clientViewport.locatePixel position.latitude position.longitude with
    | .error throwable => (view, some throwable)
    | .ok newPixel =>
      match newPixel.visible, view.clientState e.identity with
      | true, none => view.sendToClient services e
      | true, some current =>
        if !fuzzyEquals position.heading current.heading headingTolerance then
          view.sendToClient services e
        else
          view.withClientPixel clientViewport current fun pixel =>
            if pixel.isDifferentThan newPixel then view.sendToClient services e else (view, none)
      | false, none => (view, none)
      | false, some current =>
        view.withClientPixel clientViewport current fun pixel =>
          if pixel.visible then view.sendToClient services e else (view, none)

/-- The view after a call, and what the call throws. -/
def perform (view : RecomputingView V) : ViewCall V → RecomputingView V × Option Throwable
  | .processDefault services e => view.processDefault services e
  | .setVieport services viewport => view.setVieport services viewport

/-- A new view after the given calls, whatever they have thrown. -/
def ofCalls (calls : List (ViewCall V)) : RecomputingView V :=
  calls.foldl (fun view call => (view.perform call).1) new

end RecomputingView

namespace DefaultLatestPositionView

variable {V : Type}

/-- The view without its cached pixels. -/
def recomputing (view : DefaultLatestPositionView V) : RecomputingView V where
  clientState := view.message
  clientViewport := view.clientViewport
  viewports := view.viewports
  attempts := view.attempts
  sent := view.sent

/-- What a call yields, without the cached pixels. -/
def recomputed (result : DefaultLatestPositionView V × Option Throwable) :
    RecomputingView V × Option Throwable :=
  (result.1.recomputing, result.2)

/-- A view knows of a vessel what it knows of it without the cached pixels. -/
theorem clientState_recomputing (view : DefaultLatestPositionView V) (v : V) :
    view.recomputing.clientState v = (view.clientState v).map ClientPosition.toPositionMessage :=
  rfl

/-- A new viewport leaves the cached pixels alone. -/
theorem recomputing_setVieport (services : Services V) (view : DefaultLatestPositionView V)
    (viewport : Viewport) :
    view.recomputing.setVieport services viewport =
      recomputed (view.setVieport services viewport) := by
  unfold RecomputingView.setVieport DefaultLatestPositionView.setVieport
  have hviewports : view.recomputing.viewports = view.viewports := rfl
  rw [hviewports]
  cases ClientViewport.new services view.viewports viewport <;> rfl

variable [DecidableEq V] {services : Services V} {e : Enriched V}

/-- A message goes out alike, and the cache of its vessel is empty then. -/
theorem recomputing_sendToClient (view : DefaultLatestPositionView V) :
    view.recomputing.sendToClient services e = recomputed (view.sendToClient services e) := by
  unfold RecomputingView.sendToClient DefaultLatestPositionView.sendToClient
  have hattempts : view.recomputing.attempts = view.attempts := rfl
  rw [hattempts]
  dsimp only
  cases services.convertAndSend view.attempts (messageOf e) with
  | none =>
    have hmessage := message_update view e.identity ⟨messageOf e, none⟩
    simp only [recomputed, recomputing]
    congr 2
    exact hmessage.symm
  | some throwable => rfl

/-- A correct cache yields the pixel that would have been computed, or throws what its computation
would have thrown; using it changes nothing but the cache. -/
theorem recomputing_withClientPixel {view : DefaultLatestPositionView V} (h : Remembers view)
    {vp : ClientViewport} (hvp : view.clientViewport = some vp) {current : ClientPosition V}
    (hcurrent : view.clientState e.identity = some current)
    {use : DefaultLatestPositionView V → ClientPixel →
      DefaultLatestPositionView V × Option Throwable}
    {use' : ClientPixel → RecomputingView V × Option Throwable}
    (huse : ∀ view' pixel, view'.recomputing = view.recomputing →
      use' pixel = recomputed (use view' pixel)) :
    view.recomputing.withClientPixel vp current.toPositionMessage use' =
      recomputed (view.withClientPixel vp current e.identity use) := by
  have hpixel := (h.cached e.identity current hcurrent).clientPixel_eq hvp
  unfold RecomputingView.withClientPixel DefaultLatestPositionView.withClientPixel
  rw [← hpixel, ClientViewport.clientPixel]
  cases hlocate : vp.locateClient current with
  | error throwable => rfl
  | ok located =>
    obtain ⟨pixel, cached⟩ := located
    refine huse _ pixel ?_
    have hmessage := (ClientViewport.locateClient_eq_ok hlocate).1
    rw [recomputing, message_cache hcurrent hmessage]
    rfl

/-- A report is processed alike. -/
theorem recomputing_processDefault {view : DefaultLatestPositionView V} (h : Remembers view) :
    view.recomputing.processDefault services e = recomputed (view.processDefault services e) := by
  -- The pixel of the client position is used to decide whether to send.
  have huse : ∀ (sends : ClientPixel → Bool) (view' : DefaultLatestPositionView V)
      (pixel : ClientPixel), view'.recomputing = view.recomputing →
      (if sends pixel then view.recomputing.sendToClient services e
        else (view.recomputing, none)) =
        recomputed (if sends pixel then view'.sendToClient services e else (view', none)) := by
    intro sends view' pixel hsame
    rw [← hsame, recomputing_sendToClient]
    cases sends pixel <;> rfl
  unfold RecomputingView.processDefault DefaultLatestPositionView.processDefault
  have hviewport : view.recomputing.clientViewport = view.clientViewport := rfl
  rw [hviewport]
  cases hvp : view.clientViewport with
  | none => rfl
  | some vp =>
    dsimp only
    cases hpixel : vp.locatePixel e.position.default.latitude e.position.default.longitude with
    | error throwable => rfl
    | ok newPixel =>
      dsimp only
      rw [clientState_recomputing]
      cases newPixel.visible <;> cases hcurrent : view.clientState e.identity
      all_goals simp only [Option.map_none, Option.map_some]
      case false.none => rfl
      case true.none => exact recomputing_sendToClient view
      case false.some current =>
        exact recomputing_withClientPixel h hvp hcurrent (huse fun pixel => pixel.visible)
      case true.some current =>
        split
        · exact recomputing_sendToClient view
        · exact recomputing_withClientPixel h hvp hcurrent
            (huse fun pixel => pixel.isDifferentThan newPixel)

/-- With a correct cache every call does and throws what it would without the cache. -/
theorem recomputing_perform {view : DefaultLatestPositionView V} (h : Remembers view)
    (call : ViewCall V) : view.recomputing.perform call = recomputed (view.perform call) := by
  cases call with
  | processDefault services e => exact recomputing_processDefault h
  | setVieport services viewport => exact recomputing_setVieport services view viewport

/-- A view without cache goes through every run as a view with the cache does. -/
theorem recomputing_ofCalls (calls : List (ViewCall V)) :
    RecomputingView.ofCalls calls = (ofCalls calls).recomputing := by
  induction calls using List.reverseRecOn with
  | nil => rfl
  | append_singleton calls call ih =>
    rw [RecomputingView.ofCalls, ofCalls, List.foldl_append, List.foldl_append]
    rw [RecomputingView.ofCalls, ofCalls] at ih
    have hstep := recomputing_perform (remembers_ofCalls calls) call
    rw [ofCalls] at hstep
    rw [ih, List.foldl_cons, List.foldl_nil, List.foldl_cons, List.foldl_nil, hstep]
    rfl

/-- In every run, after whatever calls: locating what the client has been sent of a vessel yields,
or throws, what the current viewport computes for its coordinates; and a view that computes every
pixel anew has sent the same messages and throws at the next call what the view with the cache
throws. -/
theorem pixel_cache_transparent (calls : List (ViewCall V)) :
    (∀ vp ∈ (ofCalls calls).clientViewport, ∀ v, ∀ cp ∈ (ofCalls calls).clientState v,
        (vp.locateClient cp).map Prod.fst = vp.locatePixel cp.latitude cp.longitude) ∧
      (RecomputingView.ofCalls calls).sent = (ofCalls calls).sent ∧
      ∀ call, ((RecomputingView.ofCalls calls).perform call).2 =
        ((ofCalls calls).perform call).2 := by
  have hremembers := remembers_ofCalls calls
  refine ⟨?_, ?_, ?_⟩
  · intro vp hvp v cp hcp
    exact (hremembers.cached v cp hcp).clientPixel_eq hvp
  · rw [recomputing_ofCalls]
    rfl
  · intro call
    rw [recomputing_ofCalls, recomputing_perform hremembers]
    rfl

end DefaultLatestPositionView

end CwatchBackend
