import CwatchBackend.Process.LivePicture

/-!
# Calls on a view that throw

Both calls on a view may throw at several points: `setVieport` when the matrix has the wrong size,
the projection is unknown or the affine transform cannot be made; `processDefault` when the pixel of
the report or of the client position cannot be computed, or when the messaging template refuses the
message.  All of these come before the view is changed, except that a pixel may have been cached; so
a call that throws leaves the viewport, the messages recorded and the messages sent as they were
(`kept_of_throws`).

A `ViewCall` carries the services as they behave during that call, so that in a run every call may
fail or succeed independently of the others.
-/

namespace CwatchBackend

open Foundation

/-- A call on a view, with the services as they are at that time. -/
inductive ViewCall (V : Type) where
  | processDefault (services : Services V) (e : Enriched V)
  | setVieport (services : Services V) (viewport : Viewport)

namespace DefaultLatestPositionView

variable {V : Type} [DecidableEq V] {services : Services V} {e : Enriched V}

/-- The view after a call, and what the call throws. -/
def perform (view : DefaultLatestPositionView V) :
    ViewCall V → DefaultLatestPositionView V × Option Throwable
  | .processDefault services e => view.processDefault services e
  | .setVieport services viewport => view.setVieport services viewport

/-- A new view after the given calls, whatever they have thrown. -/
def ofCalls (calls : List (ViewCall V)) : DefaultLatestPositionView V :=
  calls.foldl (fun view call => (view.perform call).1) new

/-- Every call of a run leaves a view that remembers the picture of its client. -/
theorem Remembers.perform {view : DefaultLatestPositionView V} (h : Remembers view)
    (call : ViewCall V) : Remembers (view.perform call).1 := by
  cases call with
  | processDefault services e => exact (h.processDefault e).1
  | setVieport services viewport => exact h.setVieport viewport

/-- A view remembers the picture of its client throughout every run. -/
theorem remembers_ofCalls (calls : List (ViewCall V)) : Remembers (ofCalls calls) := by
  induction calls using List.reverseRecOn with
  | nil => exact remembers_new
  | append_singleton calls call ih =>
    rw [ofCalls, List.foldl_append, List.foldl_cons, List.foldl_nil]
    exact ih.perform call

/-! ### What a call that throws leaves behind -/

/-- The viewport, the entries of `clientState` up to their cached pixels, and the messages sent are
the same. -/
structure Kept (view view' : DefaultLatestPositionView V) : Prop where
  clientViewport : view'.clientViewport = view.clientViewport
  message : view'.message = view.message
  sent : view'.sent = view.sent

omit [DecidableEq V] in
/-- A view that has not changed has been kept. -/
theorem Kept.refl (view : DefaultLatestPositionView V) : Kept view view := ⟨rfl, rfl, rfl⟩

omit [DecidableEq V] in
/-- What has been kept twice has been kept. -/
theorem Kept.trans {view view' view'' : DefaultLatestPositionView V} (h : Kept view view')
    (h' : Kept view' view'') : Kept view view'' :=
  ⟨h'.clientViewport.trans h.clientViewport, h'.message.trans h.message, h'.sent.trans h.sent⟩

/-- A message that the template refuses is not recorded. -/
theorem kept_of_sendToClient_throws {view : DefaultLatestPositionView V}
    (h : (view.sendToClient services e).2 ≠ none) : Kept view (view.sendToClient services e).1 := by
  unfold DefaultLatestPositionView.sendToClient at h ⊢
  dsimp only at h ⊢
  split at h
  · exact absurd rfl h
  · exact ⟨rfl, rfl, rfl⟩

/-- If the pixel of the client position cannot be computed nothing happens, and otherwise all that
happens before it is used is that it is cached. -/
theorem kept_of_withClientPixel_throws {view : DefaultLatestPositionView V} {vp : ClientViewport}
    {current : ClientPosition V} (hcurrent : view.clientState e.identity = some current)
    {use : DefaultLatestPositionView V → ClientPixel →
      DefaultLatestPositionView V × Option Throwable}
    (huse : ∀ view' pixel, (use view' pixel).2 ≠ none → Kept view' (use view' pixel).1)
    (h : (view.withClientPixel vp current e.identity use).2 ≠ none) :
    Kept view (view.withClientPixel vp current e.identity use).1 := by
  unfold DefaultLatestPositionView.withClientPixel at h ⊢
  cases hlocate : vp.locateClient current with
  | error throwable => exact Kept.refl view
  | ok located =>
    obtain ⟨pixel, cached⟩ := located
    rw [hlocate] at h
    have hcached : Kept view { view with
        clientState := Function.update view.clientState e.identity (some cached) } :=
      ⟨rfl, message_cache hcurrent (ClientViewport.locateClient_eq_ok hlocate).1, rfl⟩
    exact hcached.trans (huse _ pixel h)

/-- A report whose processing throws, wherever it does, leaves the view as it was. -/
theorem kept_of_processDefault_throws {view : DefaultLatestPositionView V}
    (h : (view.processDefault services e).2 ≠ none) :
    Kept view (view.processDefault services e).1 := by
  -- The pixel of the client position is used to decide whether to send.
  have huse : ∀ (sends : ClientPixel → Bool) (view' : DefaultLatestPositionView V)
      (pixel : ClientPixel),
      (if sends pixel then view'.sendToClient services e else (view', none)).2 ≠ none →
      Kept view' (if sends pixel then view'.sendToClient services e else (view', none)).1 := by
    intro sends view' pixel hthrows
    cases hsends : sends pixel with
    | true =>
      rw [hsends] at hthrows
      exact kept_of_sendToClient_throws hthrows
    | false => exact Kept.refl view'
  unfold DefaultLatestPositionView.processDefault at h ⊢
  cases hvp : view.clientViewport with
  | none => exact Kept.refl view
  | some vp =>
    rw [hvp] at h
    dsimp only at h ⊢
    cases hpixel : vp.locatePixel e.position.default.latitude e.position.default.longitude with
    | error throwable => exact Kept.refl view
    | ok newPixel =>
      rw [hpixel] at h
      dsimp only at h ⊢
      cases hvisible : newPixel.visible <;> cases hcurrent : view.clientState e.identity
      all_goals simp only [hvisible, hcurrent] at h ⊢
      case false.none => exact Kept.refl view
      case true.none => exact kept_of_sendToClient_throws h
      case false.some current =>
        exact kept_of_withClientPixel_throws hcurrent (huse fun pixel => pixel.visible) h
      case true.some current =>
        split at h
        · next hheading =>
          rw [if_pos hheading]
          exact kept_of_sendToClient_throws h
        · next hheading =>
          rw [if_neg hheading]
          exact kept_of_withClientPixel_throws hcurrent
            (huse fun pixel => pixel.isDifferentThan newPixel) h

omit [DecidableEq V] in
/-- A viewport that cannot be made leaves the view as it was. -/
theorem setVieport_of_throws {view : DefaultLatestPositionView V} {viewport : Viewport}
    (h : (view.setVieport services viewport).2 ≠ none) :
    (view.setVieport services viewport).1 = view := by
  unfold DefaultLatestPositionView.setVieport at h ⊢
  split at h
  · exact absurd rfl h
  · rfl

/-- A call that throws leaves the view as it was. -/
theorem kept_of_throws {view : DefaultLatestPositionView V} {call : ViewCall V}
    (h : (view.perform call).2 ≠ none) : Kept view (view.perform call).1 := by
  cases call with
  | processDefault services e => exact kept_of_processDefault_throws h
  | setVieport services viewport =>
    have hsame : (view.setVieport services viewport).1 = view := setVieport_of_throws h
    rw [perform, hsame]
    exact Kept.refl view

/-- A call on a view in any state that throws leaves its viewport and its record of the client as
they were, and in every run, whatever fails in it, this record is the replay of the messages that
the messaging template has taken. -/
theorem failed_call_keeps_view :
    (∀ (view : DefaultLatestPositionView V) (call : ViewCall V), (view.perform call).2 ≠ none →
        Kept view (view.perform call).1) ∧
      ∀ calls : List (ViewCall V), (ofCalls calls).message = picture (ofCalls calls).sent :=
  ⟨fun _ _ => kept_of_throws, fun calls => (remembers_ofCalls calls).picture.symm⟩

/-- Services as those of the plane, but with a messaging template that takes no message. -/
def refusing : Services VesselId :=
  { plane () with convertAndSend := fun _ _ => some (.runtimeException "session is closed") }

/-- The message of a ship that has moved is refused: the view still knows the old one, and so does
the client. -/
theorem failed_call_keeps_view_refused :
    let shown : List (ViewCall VesselId) :=
      [.setVieport (plane ()) square, .processDefault (plane ()) (.ofSource .ais (shipAt 100 20))]
    let call : ViewCall VesselId := .processDefault refusing (.ofSource .ais (shipAt 200 30))
    ((ofCalls shown).perform call).2 = some (.runtimeException "session is closed") ∧
      Kept (ofCalls shown) ((ofCalls shown).perform call).1 ∧
      (ofCalls (shown ++ [call])).message ⟨1⟩ = some ⟨⟨1⟩, 20, 50, 90⟩ := by
  intro shown call
  obtain ⟨hkept, hpicture⟩ := failed_call_keeps_view (V := VesselId)
  have hthrows : ((ofCalls shown).perform call).2 =
      some (.runtimeException "session is closed") := by decide +kernel
  refine ⟨hthrows, hkept (ofCalls shown) call (by simp [hthrows]), ?_⟩
  rw [hpicture]
  decide +kernel

end DefaultLatestPositionView

end CwatchBackend
