import CwatchBackend.Process.ViewPicture

/-!
# Whether a report is sent

`processDefault` computes the pixel of the report and, if that does not decide yet, the pixel of
what the client has been sent of the vessel.  `Sends` is its decision as a function of the viewports
in which the two pixels are computed; under one viewport the report is sent and recorded if that is
the decision and the messaging template takes the message, and otherwise the client learns nothing
(`outcome_processDefault`).
-/

namespace CwatchBackend

open Foundation

variable {V : Type}

/-- The heading of the report is not within the tolerance of the one that the client has been
sent. -/
def Turned (e : Enriched V) (current : ClientPosition V) : Bool :=
  !fuzzyEquals e.position.default.heading current.heading headingTolerance

/-- The picture changes when the pixel `pixel` of a vessel is replaced by `newPixel`. -/
def ClientPixel.Changes (newPixel pixel : ClientPixel) : Bool :=
  if newPixel.visible then pixel.isDifferentThan newPixel else pixel.visible

namespace ClientViewport

/-- The pixel of a report. -/
def reportPixel (vp : ClientViewport) (e : Enriched V) : Except Throwable ClientPixel :=
  vp.locatePixel e.position.default.latitude e.position.default.longitude

/-- The pixel of a client position, which may be the cached one. -/
def clientPixel (vp : ClientViewport) (current : ClientPosition V) : Except Throwable ClientPixel :=
  (vp.locateClient current).map Prod.fst

/-- The client position at a pixel computed in `vp` differs from the report at `newPixel`. -/
def Changes (vp : ClientViewport) (newPixel : ClientPixel) (current : ClientPosition V) : Bool :=
  match vp.clientPixel current with
  | .ok pixel => newPixel.Changes pixel
  | .error _ => false

/-- A report is to be sent, if its pixel is computed in `vp` and that of the client position in
`vp'`. -/
def Sends (vp vp' : ClientViewport) (e : Enriched V) (current : Option (ClientPosition V)) : Bool :=
  match vp.reportPixel e, current with
  | .error _, _ => false
  | .ok newPixel, none => newPixel.visible
  | .ok newPixel, some current =>
    newPixel.visible && Turned e current || vp'.Changes newPixel current

end ClientViewport

namespace DefaultLatestPositionView

variable [DecidableEq V] {services : Services V} {e : Enriched V}
  {view view' view₁ view₂ : DefaultLatestPositionView V}

omit [DecidableEq V] in
/-- What is cached correctly is the pixel that the current viewport computes, so that a client
position has that pixel, cached or not. -/
theorem CachesCorrectly.clientPixel_eq {vp : ClientViewport} {cp : ClientPosition V}
    (h : view.CachesCorrectly cp) (hvp : view.clientViewport = some vp) :
    vp.clientPixel cp = vp.locatePixel cp.latitude cp.longitude := by
  by_cases hcached : ∃ pixel, cp.cache = some (vp.reference, pixel)
  · obtain ⟨pixel, hcached⟩ := hcached
    have hpixel := (h vp.reference pixel hcached).2 vp hvp rfl
    rw [ClientViewport.clientPixel, ClientViewport.locateClient_of_cached hcached, hpixel]
    rfl
  · rw [not_exists] at hcached
    rw [ClientViewport.clientPixel, ClientViewport.locateClient_of_not_cached hcached]
    cases vp.locatePixel cp.latitude cp.longitude <;> rfl

/-! ### What becomes of a report -/

/-- The report has been sent to the client, and the view has recorded it. -/
structure Sent (view view' : DefaultLatestPositionView V) (e : Enriched V) : Prop where
  sent : view'.sent = view.sent ++ [messageOf e]
  message : view'.message = Function.update view.message e.identity (some (messageOf e))

/-- Nothing has been sent, and nothing has been recorded. -/
structure Unsent (view view' : DefaultLatestPositionView V) : Prop where
  sent : view'.sent = view.sent
  message : view'.message = view.message

/-- The report has been sent or not, as `sends` says. -/
def Outcome (sends : Bool) (view view' : DefaultLatestPositionView V) (e : Enriched V) : Prop :=
  if sends then Sent view view' e else Unsent view view'

/-- A report is not both sent and not sent. -/
theorem Sent.not_unsent (h : Sent view view' e) : ¬ Unsent view view' := by
  intro h'
  have hlength := congrArg List.length (h.sent.symm.trans h'.sent)
  simp at hlength

/-- The outcome tells whether the report has been sent. -/
theorem Outcome.sent_iff {sends : Bool} (h : Outcome sends view view' e) :
    Sent view view' e ↔ sends = true := by
  cases sends with
  | true => exact iff_of_true h rfl
  | false => exact iff_of_false (fun hsent => hsent.not_unsent h) nofun

/-- Two outcomes for the same view are alike exactly if the report is sent in both or in
neither. -/
theorem Outcome.agree_iff {sends₁ sends₂ : Bool} (h₁ : Outcome sends₁ view view₁ e)
    (h₂ : Outcome sends₂ view view₂ e) :
    (view₁.sent = view₂.sent ∧ view₁.message = view₂.message) ↔ sends₁ = sends₂ := by
  constructor
  · rintro ⟨hsent, hmessage⟩
    have hiff : Sent view view₁ e ↔ Sent view view₂ e :=
      ⟨fun h => ⟨hsent ▸ h.sent, hmessage ▸ h.message⟩,
        fun h => ⟨hsent ▸ h.sent, hmessage ▸ h.message⟩⟩
    rw [h₁.sent_iff, h₂.sent_iff] at hiff
    exact Bool.eq_iff_iff.mpr hiff
  · rintro rfl
    cases sends₁ with
    | true =>
      have h₁ : Sent view view₁ e := h₁
      have h₂ : Sent view view₂ e := h₂
      exact ⟨h₁.sent.trans h₂.sent.symm, h₁.message.trans h₂.message.symm⟩
    | false =>
      have h₁ : Unsent view view₁ := h₁
      have h₂ : Unsent view view₂ := h₂
      exact ⟨h₁.sent.trans h₂.sent.symm, h₁.message.trans h₂.message.symm⟩

/-- The messaging template takes the next message of the view. -/
def Accepted (services : Services V) (view : DefaultLatestPositionView V) (e : Enriched V) : Bool :=
  (services.convertAndSend view.attempts (messageOf e)).isNone

/-- Sending succeeds if the messaging template takes the message. -/
theorem outcome_sendToClient (services : Services V) (view : DefaultLatestPositionView V)
    (e : Enriched V) :
    Outcome (Accepted services view e) view (view.sendToClient services e).1 e := by
  have hmessage : (view.sendToClient services e).2 = none →
      (view.sendToClient services e).1.message = _ := message_sendToClient
  unfold DefaultLatestPositionView.sendToClient at hmessage ⊢
  unfold Accepted
  dsimp only at hmessage ⊢
  cases hthrows : services.convertAndSend view.attempts (messageOf e) with
  | none =>
    rw [hthrows] at hmessage
    exact ⟨rfl, hmessage rfl⟩
  | some throwable => exact ⟨rfl, rfl⟩

/-- A call that does nothing sends nothing. -/
theorem outcome_false (view : DefaultLatestPositionView V) (e : Enriched V) :
    Outcome false view view e := ⟨rfl, rfl⟩

/-- Locating what the client has been sent of a vessel, and sending if its pixel asks for it. -/
theorem outcome_withClientPixel (view : DefaultLatestPositionView V) {current : ClientPosition V}
    (hcurrent : view.clientState e.identity = some current) (vp : ClientViewport)
    (newPixel : ClientPixel)
    {use : DefaultLatestPositionView V → ClientPixel →
      DefaultLatestPositionView V × Option Throwable}
    (huse : ∀ view pixel, use view pixel =
      if newPixel.Changes pixel then view.sendToClient services e else (view, none)) :
    Outcome (vp.Changes newPixel current && Accepted services view e) view
      (view.withClientPixel vp current e.identity use).1 e := by
  unfold DefaultLatestPositionView.withClientPixel ClientViewport.Changes ClientViewport.clientPixel
  cases hlocate : vp.locateClient current with
  | error throwable => exact outcome_false view e
  | ok located =>
    obtain ⟨pixel, cached⟩ := located
    -- The cached pixel is not part of what the client knows.
    have hsame : message { view with
        clientState := Function.update view.clientState e.identity (some cached) } =
          view.message := message_cache hcurrent (ClientViewport.locateClient_eq_ok hlocate).1
    dsimp only [Except.map]
    rw [huse]
    cases newPixel.Changes pixel with
    | false => exact ⟨rfl, hsame⟩
    | true =>
      have hsend := outcome_sendToClient services { view with
        clientState := Function.update view.clientState e.identity (some cached) } e
      rw [Bool.true_and, if_pos rfl]
      unfold Outcome at hsend ⊢
      have haccepted : Accepted services { view with
          clientState := Function.update view.clientState e.identity (some cached) } e =
            Accepted services view e := rfl
      rw [haccepted] at hsend
      split at hsend
      · next h => rw [if_pos h]; exact ⟨hsend.sent, hsame ▸ hsend.message⟩
      · next h => rw [if_neg h]; exact ⟨hsend.sent, hsend.message.trans hsame⟩

/-- Under one viewport a report is sent if the two pixels in it ask for it. -/
theorem outcome_processDefault (services : Services V) (view : DefaultLatestPositionView V)
    (e : Enriched V) {vp : ClientViewport} (hvp : view.clientViewport = some vp) :
    Outcome (vp.Sends vp e (view.clientState e.identity) && Accepted services view e) view
      (view.processDefault services e).1 e := by
  unfold DefaultLatestPositionView.processDefault ClientViewport.Sends ClientViewport.reportPixel
  rw [hvp]
  dsimp only
  cases hpixel : vp.locatePixel e.position.default.latitude e.position.default.longitude with
  | error throwable => exact outcome_false view e
  | ok newPixel =>
    dsimp only
    cases hvisible : newPixel.visible <;> cases hcurrent : view.clientState e.identity
    all_goals simp only [hvisible, Bool.true_and, Bool.false_and, Bool.false_or]
    case false.none => exact outcome_false view e
    case true.none => exact outcome_sendToClient services view e
    case false.some current =>
      refine outcome_withClientPixel view hcurrent vp newPixel fun view pixel => ?_
      rw [ClientPixel.Changes, hvisible]
      rfl
    case true.some current =>
      rw [← Turned]
      cases hturned : Turned e current with
      | true =>
        rw [Bool.true_or, Bool.true_and]
        exact outcome_sendToClient services view e
      | false =>
        rw [Bool.false_or, if_neg Bool.false_ne_true]
        refine outcome_withClientPixel view hcurrent vp newPixel fun view pixel => ?_
        rw [ClientPixel.Changes, hvisible]
        rfl

end DefaultLatestPositionView

end CwatchBackend
