import CwatchBackend.Process.SentReports
import CwatchBackend.Web.MapClient

/-!
# The link between a client and its view

`main.js` starts a view, subscribes to its destination, and from then on sends the viewport of the
map whenever the map has been moved.  The frames of the client and the messages of the view are on
their way for some time; meanwhile the server handles the reports and the other clients.  The broker
passes a message on only if the client has subscribed by then.

The frames and the messages may be handled in any order here, and anything may throw.  If both are
handled in the order in which they have been sent (`LinkAction.InOrder`), no message is lost
(`layer_draws_sent`), and a link at rest shows the server's reports within the tolerances
(`quiet_link_shows`).  The order matters: a message that is overtaken is drawn over the one that was
sent after it (`overtaken_position_drawn`).
-/

namespace CwatchBackend

open Foundation DefaultLatestPositionView

/-- A frame of the client. -/
inductive ClientFrame where
  | subscribe
  | positionsView (viewport : Viewport)

/-- How far `main.js` has come: its websocket is connected, it has the id of its view, or it has
subscribed and listens to the map. -/
inductive ClientPhase where
  | connected
  | started
  | subscribed
  deriving DecidableEq

/-- A client, the server with its view, and the frames and messages on their way. -/
structure PositionLink (V W : Type) where
  phase : ClientPhase
  layer : VesselsLayer V
  toServer : List ClientFrame
  live : LiveState V W
  isSubscribed : Bool
  toClient : List (PositionMessage V)

/-- The steps of a link.  `handle i` and `deliver i` take the frame and the message that are on
their way since the other ones before them. -/
inductive LinkAction (V W : Type) where
  | server (a : LiveAction V W)
  | start
  | subscribe
  | moveend (viewport : Viewport)
  | handle (i : ℕ)
  | deliver (i : ℕ)

/-- Frames and messages arrive in the order in which they have been sent. -/
def LinkAction.InOrder {V W : Type} : LinkAction V W → Prop
  | .handle i => i = 0
  | .deliver i => i = 0
  | _ => True

/-- The view that an operation of the server registers or gives a viewport. -/
def LiveAction.view? {V W : Type} : LiveAction V W → Option W
  | .call (.register w) => some w
  | .call _ => none
  | .setVieport w _ => some w

namespace PositionLink

section Model

variable {V W : Type} [DecidableEq V] [DecidableEq W] (services : W → Services V)
  (positionTransform : ℚ × ℚ → ℚ × ℚ) (w : W)

/-- A client that has just connected. -/
def new (live : LiveState V W) : PositionLink V W where
  phase := .connected
  layer := .new
  toServer := []
  live := live
  isSubscribed := false
  toClient := []

/-- The server has performed an operation.  The broker passes on what the view of the client has
sent in it. -/
def serve (link : PositionLink V W) (live : LiveState V W) : PositionLink V W :=
  let messages := (live.views.state w).sent.drop (link.live.views.state w).sent.length
  { link with
    live
    toClient := if link.isSubscribed then link.toClient ++ messages else link.toClient }

/-- The operation of the server in a step. -/
def operation? (link : PositionLink V W) : LinkAction V W → Option (LiveAction V W)
  | .server a => some a
  | .start => some (.call (.register w))
  | .handle i =>
    match link.toServer[i]? with
    | some (.positionsView viewport) => some (.setVieport w viewport)
    | _ => none
  | _ => none

/-- The steps of a link of the client that starts the view `w`. -/
def step (link : PositionLink V W) : LinkAction V W → Option (PositionLink V W)
  | .server a =>
    if a.view? = some w then none else (attemptStep services link.live a).map (link.serve w)
  | .start =>
    if link.phase = .connected then
      (attemptStep services link.live (.call (.register w))).map
        ({ link with phase := .started }.serve w)
    else none
  | .subscribe =>
    if link.phase = .started then
      some { link with phase := .subscribed, toServer := link.toServer ++ [.subscribe] }
    else none
  | .moveend viewport =>
    if link.phase = .subscribed then
      some { link with toServer := link.toServer ++ [.positionsView viewport] }
    else none
  | .handle i =>
    match link.toServer[i]? with
    | none => none
    | some .subscribe =>
      some { link with toServer := link.toServer.eraseIdx i, isSubscribed := true }
    | some (.positionsView viewport) =>
      (attemptStep services link.live (.setVieport w viewport)).map
        ({ link with toServer := link.toServer.eraseIdx i }.serve w)
  | .deliver i =>
    match link.toClient[i]? with
    | none => none
    | some pos =>
      some { link with
        toClient := link.toClient.eraseIdx i
        layer := link.layer.onPosition positionTransform pos }

/-- The operation of the server in the step, if there is one, does not throw. -/
def Returns (link : PositionLink V W) (a : LinkAction V W) : Prop :=
  ∀ b ∈ link.operation? w a, (liveStep services link.live b).isSome

instance (link : PositionLink V W) (a : LinkAction V W) : Decidable (link.Returns services w a) :=
  inferInstanceAs (Decidable (∀ b ∈ link.operation? w a, (liveStep services link.live b).isSome))

end Model

variable {V W : Type} [DecidableEq V] [DecidableEq W] {services : W → Services V}
  {positionTransform : ℚ × ℚ → ℚ × ℚ} {w : W} {link link' : PositionLink V W}

/-- What a step in order does. -/
inductive Stepped (services : W → Services V) (positionTransform : ℚ × ℚ → ℚ × ℚ) (w : W)
    (link : PositionLink V W) : LinkAction V W → PositionLink V W → Prop
  | server (a : LiveAction V W) (live : LiveState V W) (other : a.view? ≠ some w)
      (hlive : attemptStep services link.live a = some live) :
      Stepped services positionTransform w link (.server a) (link.serve w live)
  | start (live : LiveState V W) (hphase : link.phase = .connected)
      (hlive : attemptStep services link.live (.call (.register w)) = some live) :
      Stepped services positionTransform w link .start
        ({ link with phase := .started }.serve w live)
  | subscribe (hphase : link.phase = .started) :
      Stepped services positionTransform w link .subscribe
        { link with phase := .subscribed, toServer := link.toServer ++ [.subscribe] }
  | moveend (viewport : Viewport) (hphase : link.phase = .subscribed) :
      Stepped services positionTransform w link (.moveend viewport)
        { link with toServer := link.toServer ++ [.positionsView viewport] }
  | subscribed (frames : List ClientFrame) (hframes : link.toServer = .subscribe :: frames) :
      Stepped services positionTransform w link (.handle 0)
        { link with toServer := frames, isSubscribed := true }
  | positionsView (viewport : Viewport) (frames : List ClientFrame) (live : LiveState V W)
      (hframes : link.toServer = .positionsView viewport :: frames)
      (hlive : attemptStep services link.live (.setVieport w viewport) = some live) :
      Stepped services positionTransform w link (.handle 0)
        ({ link with toServer := frames }.serve w live)
  | deliver (pos : PositionMessage V) (messages : List (PositionMessage V))
      (hmessages : link.toClient = pos :: messages) :
      Stepped services positionTransform w link (.deliver 0)
        { link with
          toClient := messages
          layer := link.layer.onPosition positionTransform pos }

/-- Every step in order has one of these outcomes. -/
theorem stepped_of_step {a : LinkAction V W} (ha : a.InOrder)
    (h : step services positionTransform w link a = some link') :
    Stepped services positionTransform w link a link' := by
  cases a with
  | server a =>
    rw [step, Option.ite_none_left_eq_some, Option.map_eq_some_iff] at h
    obtain ⟨other, live, hlive, rfl⟩ := h
    exact .server a live other hlive
  | start =>
    rw [step, Option.ite_none_right_eq_some, Option.map_eq_some_iff] at h
    obtain ⟨hphase, live, hlive, rfl⟩ := h
    exact .start live hphase hlive
  | subscribe =>
    rw [step, Option.ite_none_right_eq_some] at h
    exact Option.some.inj h.2 ▸ .subscribe h.1
  | moveend viewport =>
    rw [step, Option.ite_none_right_eq_some] at h
    exact Option.some.inj h.2 ▸ .moveend viewport h.1
  | handle i =>
    obtain rfl : i = 0 := ha
    rw [step] at h
    cases hframes : link.toServer with
    | nil =>
      rw [hframes] at h
      cases h
    | cons frame frames =>
      rw [hframes] at h
      cases frame with
      | subscribe => exact Option.some.inj h ▸ .subscribed frames hframes
      | positionsView viewport =>
        obtain ⟨live, hlive, rfl⟩ := Option.map_eq_some_iff.mp h
        exact .positionsView viewport frames live hframes hlive
  | deliver i =>
    obtain rfl : i = 0 := ha
    rw [step] at h
    cases hmessages : link.toClient with
    | nil =>
      rw [hmessages] at h
      cases h
    | cons pos messages =>
      rw [hmessages] at h
      exact Option.some.inj h ▸ .deliver pos messages hmessages

/-! ### No message is lost -/

/-- The view is silent until its client has subscribed, the client subscribes before it sends a
viewport, and the messages that have been sent are those delivered and those on their way. -/
structure Lossless (positionTransform : ℚ × ℚ → ℚ × ℚ) (w : W) (link : PositionLink V W) :
    Prop where
  idle : link.phase ≠ .subscribed → link.toServer = []
  subscribes : link.phase = .subscribed → link.isSubscribed = false →
    ∃ frames, link.toServer = .subscribe :: frames
  silent : link.isSubscribed = false →
    (link.live.views.state w).clientViewport = none ∧ (link.live.views.state w).sent = []
  delivered : ∃ delivered, (link.live.views.state w).sent = delivered ++ link.toClient ∧
    link.layer = delivered.foldl (VesselsLayer.onPosition positionTransform) .new

omit [DecidableEq W] in
/-- A new link. -/
theorem lossless_new {live : LiveState V W}
    (hnew : live.views.state w = DefaultLatestPositionView.new) :
    Lossless positionTransform w (new live) where
  idle _ := rfl
  subscribes h _ := by cases h
  silent _ := by
    rw [new, hnew]
    exact ⟨rfl, rfl⟩
  delivered := ⟨[], congrArg DefaultLatestPositionView.sent hnew, rfl⟩

/-- An operation of the server that gives no viewport to a view without subscription. -/
theorem Lossless.serve (h : Lossless positionTransform w link) {a : LiveAction V W}
    {live : LiveState V W} (hlive : attemptStep services link.live a = some live)
    (ha : link.isSubscribed = false → ∀ viewport, a ≠ .setVieport w viewport) :
    Lossless positionTransform w (link.serve w live) := by
  obtain ⟨delivered, hsent, hlayer⟩ := h.delivered
  obtain ⟨messages, hmessages⟩ := sent_prefix_of_attemptStep hlive w
  have hview : link.isSubscribed = false → live.views.state w = link.live.views.state w :=
    fun hsubscribed =>
      view_of_attemptStep_of_noViewport hlive (h.silent hsubscribed).1 (ha hsubscribed)
  refine ⟨h.idle, h.subscribes, fun hsubscribed => ?_, delivered, ?_, hlayer⟩
  · rw [PositionLink.serve, hview hsubscribed]
    exact h.silent hsubscribed
  · rw [PositionLink.serve, ← hmessages, List.drop_left]
    cases hsubscribed : link.isSubscribed with
    | true => rw [if_pos rfl, hsent, List.append_assoc]
    | false =>
      rw [hmessages, hview hsubscribed, hsent]
      rfl

/-- Every step in order loses no message. -/
theorem lossless_of_step {a : LinkAction V W} (h : Lossless positionTransform w link)
    (ha : a.InOrder) (hstep : step services positionTransform w link a = some link') :
    Lossless positionTransform w link' := by
  cases stepped_of_step ha hstep with
  | server a live other hlive =>
    refine h.serve hlive fun _ viewport heq => other ?_
    rw [heq]
    rfl
  | start live hphase hlive =>
    have hstarted : Lossless positionTransform w { link with phase := .started } :=
      { h with
        idle := fun _ => h.idle (by rw [hphase]; exact ClientPhase.noConfusion)
        subscribes := fun h => by cases h }
    exact hstarted.serve hlive fun _ _ heq => by cases heq
  | subscribe hphase =>
    have hframes := h.idle (by rw [hphase]; exact ClientPhase.noConfusion)
    exact { h with
      idle := fun hne => absurd rfl hne
      subscribes := fun _ _ => ⟨[], by rw [hframes]; rfl⟩ }
  | moveend viewport hphase =>
    refine { h with
      idle := fun hne => absurd hphase hne
      subscribes := fun _ hsubscribed => ?_ }
    obtain ⟨frames, hframes⟩ := h.subscribes hphase hsubscribed
    exact ⟨frames ++ [.positionsView viewport], by rw [hframes]; rfl⟩
  | subscribed frames hframes =>
    refine { h with
      idle := fun hne => ?_
      subscribes := fun _ hsubscribed => by cases hsubscribed
      silent := fun hsubscribed => by cases hsubscribed }
    have hnil := h.idle hne
    rw [hframes] at hnil
    cases hnil
  | positionsView viewport frames live hframes hlive =>
    have hphase : link.phase = .subscribed := by
      by_contra hne
      rw [h.idle hne] at hframes
      cases hframes
    have hsubscribed : link.isSubscribed = true := by
      by_contra hne
      obtain ⟨_, hfirst⟩ := h.subscribes hphase (Bool.not_eq_true _ ▸ hne)
      rw [hframes] at hfirst
      cases hfirst
    have hhandled : Lossless positionTransform w { link with toServer := frames } :=
      { h with
        idle := fun hne => absurd hphase hne
        subscribes := fun _ hne => absurd (hsubscribed.symm.trans hne) Bool.noConfusion }
    exact hhandled.serve hlive fun hne => absurd (hsubscribed.symm.trans hne) Bool.noConfusion
  | deliver pos messages hmessages =>
    obtain ⟨delivered, hsent, hlayer⟩ := h.delivered
    refine { h with delivered := ⟨delivered ++ [pos], ?_, ?_⟩ }
    · rw [hsent, hmessages, List.append_assoc]
      rfl
    · rw [hlayer, List.foldl_append]
      rfl

/-- No run in order loses a message. -/
theorem lossless_of_run (h : Lossless positionTransform w link) {actions : List (LinkAction V W)}
    (hinOrder : ∀ a ∈ actions, a.InOrder)
    (hrun : run (step services positionTransform w) link actions = some link') :
    Lossless positionTransform w link' := by
  refine run_invariant (P := fun _ a => a.InOrder)
    (fun _ _ _ h ha hstep => lossless_of_step h ha hstep) h ?_ hrun
  rintro pre a post rfl - -
  exact hinOrder a (by simp)

/-- In every run in order, whatever the server throws, the messages that the view has sent are those
that the client has got, followed by those on their way, and the layer draws the last message of
every vessel among those it has got. -/
theorem layer_draws_sent (services : W → Services V) (positionTransform : ℚ × ℚ → ℚ × ℚ) (w : W)
    {live : LiveState V W} (hnew : live.views.state w = DefaultLatestPositionView.new)
    {actions : List (LinkAction V W)} (hinOrder : ∀ a ∈ actions, a.InOrder)
    (hrun : run (step services positionTransform w) (new live) actions = some link) :
    ∃ delivered, (link.live.views.state w).sent = delivered ++ link.toClient ∧
      link.layer.Draws positionTransform (picture delivered) := by
  have hlossless : Lossless positionTransform w link :=
    lossless_of_run (lossless_new hnew) hinOrder hrun
  obtain ⟨delivered, hsent, hlayer⟩ := hlossless.delivered
  exact ⟨delivered, hsent, hlayer ▸ VesselsLayer.draws_foldl_onPosition positionTransform delivered⟩

/-- The server before its first client. -/
def noViews : LiveState VesselId Unit :=
  ProfileState.start .all 1000 ∅ fun _ => DefaultLatestPositionView.new

/-- The client starts its view and subscribes. -/
def opened : List (LinkAction VesselId Unit) := [.start, .subscribe]

/-- The server gets the viewport of the client, the ship moves out of the tolerances, and the
messages arrive. -/
def twoPositions : List (LinkAction VesselId Unit) :=
  [.handle 0, .handle 0, .server (.call (.processAis 500 [()] (shipAt 100 20))),
    .server (.call (.processAis 500 [()] (shipAt 200 30))), .deliver 0, .deliver 0]

/-- A client that follows a ship. -/
def followed : List (LinkAction VesselId Unit) := opened ++ .moveend square :: twoPositions

/-- Nothing overtakes anything in it. -/
theorem inOrder_followed : ∀ a ∈ followed, a.InOrder := by
  simp [followed, opened, twoPositions, LinkAction.InOrder]

/-- The client is sent two messages and draws the second one. -/
theorem layer_draws_sent_followed :
    ∃ link delivered, run (step plane id ()) (new noViews) followed = some link ∧
      delivered ++ link.toClient = [⟨⟨1⟩, 20, 50, 90⟩, ⟨⟨1⟩, 30, 50, 90⟩] ∧
      link.layer.Draws id (picture delivered) := by
  obtain ⟨link, hrun⟩ : ∃ link, run (step plane id ()) (new noViews) followed = some link :=
    Option.isSome_iff_exists.mp (by decide +kernel)
  have hsent : (run (step plane id ()) (new noViews) followed).map (fun link =>
      (link.live.views.state ()).sent) =
        some [⟨⟨1⟩, 20, 50, 90⟩, ⟨⟨1⟩, 30, 50, 90⟩] := by decide +kernel
  rw [hrun, Option.map_some, Option.some_inj] at hsent
  have hnew : noViews.views.state () = DefaultLatestPositionView.new := rfl
  obtain ⟨delivered, hdelivered, hdraws⟩ :=
    layer_draws_sent plane id () hnew inOrder_followed hrun
  exact ⟨link, delivered, hrun, hdelivered.symm.trans hsent, hdraws⟩

/-! ### A link at rest -/

/-- All views remember, and the view of the client is registered once it has been started. -/
structure Sound (w : W) (link : PositionLink V W) : Prop where
  remembers : ∀ u, Remembers (link.live.views.state u)
  registered : link.phase ≠ .connected → w ∈ link.live.profile.views

/-- The client has sent the viewport last, and the server has not handled it yet. -/
structure Pending (viewport : Viewport) (link : PositionLink V W) : Prop where
  phase : link.phase = .subscribed
  last : ∃ frames, link.toServer = frames ++ [.positionsView viewport]

/-- The view has got the viewport in the link `link₁`, and its client is sent every entry accepted
since.  No frame is on its way. -/
structure Taken (services : W → Services V) (w : W) (viewport : Viewport)
    (link₁ link : PositionLink V W) : Prop where
  phase : link.phase = .subscribed
  handled : link.toServer = []
  shows : ∃ reference vp, ClientViewport.new (services w) reference viewport = .ok vp ∧
    (link₁.live.views.state w).clientViewport = some vp ∧ ShowsSince link₁.live link.live w vp

/-- Registered views stay registered. -/
theorem views_subset_of_liveStep {s t : LiveState V W} {a : LiveAction V W}
    (h : liveStep services s a = some t) : s.profile.views ⊆ t.profile.views := by
  cases a with
  | call c =>
    rcases liveStep_call_cases h with ⟨-, -, hviews⟩ | ⟨e, -, hviews, -⟩
    · exact hviews
    · exact hviews.symm.subset
  | setVieport u viewport =>
    rw [(liveStep_setVieport h).1]

/-- An operation of the server that does not throw. -/
theorem Sound.serve (h : Sound w link) {a : LiveAction V W} {live : LiveState V W}
    (hlive : liveStep services link.live a = some live) : Sound w (link.serve w live) where
  remembers := remembers_of_step h.remembers hlive
  registered hphase := views_subset_of_liveStep hlive (h.registered hphase)

/-- Every step in order that returns keeps the link sound. -/
theorem sound_of_step {a : LinkAction V W} (h : Sound w link) (ha : a.InOrder)
    (hreturns : Returns services w link a)
    (hstep : step services positionTransform w link a = some link') : Sound w link' := by
  cases stepped_of_step ha hstep with
  | server a live other hlive =>
    exact h.serve (liveStep_of_attemptStep hlive (hreturns _ rfl))
  | start live hphase hlive =>
    have hlive := liveStep_of_attemptStep hlive (hreturns _ rfl)
    refine ⟨remembers_of_step h.remembers hlive, fun _ => ?_⟩
    rw [liveStep, Option.ite_none_right_eq_some, ProfileState.step,
      Option.ite_none_right_eq_some] at hlive
    rw [← Option.some.inj hlive.2.2]
    exact Finset.mem_insert_self ..
  | subscribe hphase =>
    exact ⟨h.remembers, fun _ => h.registered (by rw [hphase]; exact ClientPhase.noConfusion)⟩
  | moveend viewport hphase => exact ⟨h.remembers, h.registered⟩
  | subscribed frames hframes => exact ⟨h.remembers, h.registered⟩
  | positionsView viewport frames live hframes hlive =>
    have hoperation : link.operation? w (.handle 0) = some (.setVieport w viewport) := by
      rw [operation?, hframes]
      rfl
    have hhandled : Sound w { link with toServer := frames } := ⟨h.remembers, h.registered⟩
    exact hhandled.serve (liveStep_of_attemptStep hlive (hreturns _ hoperation))
  | deliver pos messages hmessages => exact ⟨h.remembers, h.registered⟩

/-- The last viewport of the client stays on its way until the view gets it. -/
theorem pending_or_taken_of_step {viewport : Viewport} {a : LinkAction V W} (hsound : Sound w link)
    (h : Pending viewport link) (ha : a.InOrder) (hlast : ∀ viewport', a ≠ .moveend viewport')
    (hreturns : Returns services w link a)
    (hstep : step services positionTransform w link a = some link') :
    Pending viewport link' ∨ a = .handle 0 ∧ Taken services w viewport link' link' := by
  obtain ⟨hphase, waiting, hwaiting⟩ := h
  cases stepped_of_step ha hstep with
  | server a live other hlive => exact Or.inl ⟨hphase, waiting, hwaiting⟩
  | start live hconnected hlive =>
    exact absurd (hphase.symm.trans hconnected) ClientPhase.noConfusion
  | subscribe hstarted => exact absurd (hphase.symm.trans hstarted) ClientPhase.noConfusion
  | moveend viewport' _ => exact absurd rfl (hlast viewport')
  | subscribed frames hframes =>
    rw [hframes] at hwaiting
    cases waiting with
    | nil => cases hwaiting
    | cons frame waiting => exact Or.inl ⟨hphase, waiting, (List.cons.inj hwaiting).2⟩
  | positionsView viewport' frames live hframes hlive =>
    have hoperation : link.operation? w (.handle 0) = some (.setVieport w viewport') := by
      rw [operation?, hframes]
      rfl
    have hlive := liveStep_of_attemptStep hlive (hreturns _ hoperation)
    rw [hframes] at hwaiting
    cases waiting with
    | cons frame waiting => exact Or.inl ⟨hphase, waiting, (List.cons.inj hwaiting).2⟩
    | nil =>
      obtain ⟨hframe, rfl⟩ := List.cons.inj hwaiting
      obtain rfl := ClientFrame.positionsView.inj hframe
      have hw := hsound.registered (by rw [hphase]; exact ClientPhase.noConfusion)
      obtain ⟨reference, vp, hvp, hshows⟩ :=
        showsSince_of_setVieport hlive (views_subset_of_liveStep hlive hw)
      exact Or.inr ⟨rfl, hphase, rfl, reference, vp, hvp, hshows.viewport, hshows⟩
  | deliver pos messages hmessages => exact Or.inl ⟨hphase, waiting, hwaiting⟩

/-- Until the client sends another viewport the view keeps its viewport. -/
theorem taken_of_step {viewport : Viewport} (hno : viewport.NoOverflow)
    {link₁ : PositionLink V W} {a : LinkAction V W} (hsound : Sound w link)
    (h : Taken services w viewport link₁ link) (ha : a.InOrder)
    (hlast : ∀ viewport', a ≠ .moveend viewport') (hreturns : Returns services w link a)
    (hstep : step services positionTransform w link a = some link') :
    Taken services w viewport link₁ link' := by
  obtain ⟨hphase, hhandled, reference, vp, hvp, hvp₁, hshows⟩ := h
  cases stepped_of_step ha hstep with
  | server a live other hlive =>
    have hlive := liveStep_of_attemptStep hlive (hreturns _ rfl)
    refine ⟨hphase, hhandled, reference, vp, hvp, hvp₁, ?_⟩
    refine showsSince_of_step (ClientViewport.spans_of_new hvp hno) hsound.remembers hshows ?_ hlive
    rintro viewport' rfl
    exact other rfl
  | start live hconnected hlive =>
    exact absurd (hphase.symm.trans hconnected) ClientPhase.noConfusion
  | subscribe hstarted => exact absurd (hphase.symm.trans hstarted) ClientPhase.noConfusion
  | moveend viewport' _ => exact absurd rfl (hlast viewport')
  | subscribed frames hframes =>
    rw [hhandled] at hframes
    cases hframes
  | positionsView viewport' frames live hframes hlive =>
    rw [hhandled] at hframes
    cases hframes
  | deliver pos messages hmessages => exact ⟨hphase, hhandled, reference, vp, hvp, hvp₁, hshows⟩

/-- Every run in order in which nothing throws keeps the link sound. -/
theorem sound_of_run {link' : PositionLink V W} {actions : List (LinkAction V W)}
    (h : Sound w link) (hinOrder : ∀ a ∈ actions, a.InOrder)
    (hreturns : StepsMeet (step services positionTransform w) (Returns services w) link actions)
    (hrun : run (step services positionTransform w) link actions = some link') : Sound w link' := by
  refine run_invariant (P := fun link a => a.InOrder ∧ Returns services w link a)
    (fun _ _ _ h ha hstep => sound_of_step h ha.1 ha.2 hstep) h ?_ hrun
  rintro pre a post rfl t ht
  exact ⟨hinOrder a (by simp), hreturns pre a post rfl t ht⟩

/-- In every run in which the client sends no other viewport, the view gets the last one by the time
all frames have been handled. -/
theorem taken_of_run {viewport : Viewport} (hno : viewport.NoOverflow) (hsound : Sound w link)
    (hpending : Pending viewport link) {post : List (LinkAction V W)}
    (hlast : ∀ viewport', LinkAction.moveend viewport' ∉ post)
    (hinOrder : ∀ a ∈ post, a.InOrder)
    (hreturns : StepsMeet (step services positionTransform w) (Returns services w) link post)
    (hrun : run (step services positionTransform w) link post = some link')
    (hframes : link'.toServer = []) :
    ∃ handled later link₁, post = handled ++ .handle 0 :: later ∧
      run (step services positionTransform w) link (handled ++ [.handle 0]) = some link₁ ∧
      Taken services w viewport link₁ link' := by
  have hmeet : StepsMeet (step services positionTransform w)
      (fun link a => (a.InOrder ∧ ∀ viewport', a ≠ .moveend viewport') ∧ Returns services w link a)
      link post := by
    rintro pre a post rfl t ht
    refine ⟨⟨hinOrder a (by simp), ?_⟩, hreturns pre a post rfl t ht⟩
    rintro viewport' rfl
    exact hlast viewport' (by simp)
  have hcross := run_crosses (P := fun link => Sound w link ∧ Pending viewport link)
    (R := fun a => a = .handle 0)
    (Q := fun link₁ link => Sound w link ∧ Taken services w viewport link₁ link)
    (fun link a link' h ha hstep => ?_) (fun link₁ link a link' h ha hstep => ?_)
    ⟨hsound, hpending⟩ hmeet hrun
  · rcases hcross with ⟨-, -, frames, hlast⟩ | ⟨handled, _, later, link₁, hpost, rfl, hrun₁, -, h⟩
    · rw [hframes] at hlast
      exact absurd hlast.symm (List.append_ne_nil_of_right_ne_nil _ (List.cons_ne_nil _ _))
    · exact ⟨handled, later, link₁, hpost, hrun₁, h⟩
  · obtain ⟨⟨hinOrder, hlast⟩, hreturns⟩ := ha
    have hsound := sound_of_step h.1 hinOrder hreturns hstep
    exact (pending_or_taken_of_step h.1 h.2 hinOrder hlast hreturns hstep).imp
      (fun hpending => ⟨hsound, hpending⟩) fun htaken => ⟨htaken.1, hsound, htaken.2⟩
  · obtain ⟨⟨hinOrder, hlast⟩, hreturns⟩ := ha
    exact ⟨sound_of_step h.1 hinOrder hreturns hstep,
      taken_of_step hno h.1 h.2 hinOrder hlast hreturns hstep⟩

/-- In every run in order in which nothing throws, whatever the server has done before the client
connects, and after the client has moved its map for the last time: once all frames and messages
have arrived, the view has got this viewport in a step of the run, and every entry of `positionMap`
that has been accepted since is drawn within the tolerances if it is visible, and otherwise not at
all. -/
theorem quiet_link_shows (services : W → Services V) (positionTransform : ℚ × ℚ → ℚ × ℚ) (w : W)
    (positionFilter : EnrichedPositionFilter V) (timeoutMilliseconds : Int64) (views : Finset W)
    {earlier : List (LiveAction V W)} {live : LiveState V W}
    (hlive : run (attemptStep services) (ProfileState.start positionFilter timeoutMilliseconds views
      fun _ => DefaultLatestPositionView.new) earlier = some live)
    (hnew : live.views.state w = DefaultLatestPositionView.new)
    {pre post : List (LinkAction V W)} {viewport : Viewport} (hno : viewport.NoOverflow)
    (hlast : ∀ viewport', LinkAction.moveend viewport' ∉ post)
    (hinOrder : ∀ a ∈ pre ++ .moveend viewport :: post, a.InOrder)
    (hreturns : StepsMeet (step services positionTransform w) (Returns services w) (new live)
      (pre ++ .moveend viewport :: post))
    (hrun : run (step services positionTransform w) (new live) (pre ++ .moveend viewport :: post) =
      some link)
    (hframes : link.toServer = []) (hmessages : link.toClient = []) :
    ∃ handled later link₁, post = handled ++ .handle 0 :: later ∧
      run (step services positionTransform w) (new live)
        (pre ++ .moveend viewport :: (handled ++ [.handle 0])) = some link₁ ∧
      ∃ reference vp drawn, ClientViewport.new (services w) reference viewport = .ok vp ∧
        (link₁.live.views.state w).clientViewport = some vp ∧
        link.layer.Draws positionTransform drawn ∧
        ∀ v e, link.live.profile.positionMap v = some e →
          link₁.live.profile.positionMap v ≠ some e → Shows vp (drawn v) e.position.default := by
  have hlossless : Lossless positionTransform w link :=
    lossless_of_run (lossless_new hnew) hinOrder hrun
  obtain ⟨before, hbefore, hrest⟩ := run_append.mp hrun
  obtain ⟨moved, hmoved, hpost⟩ := run_cons.mp hrest
  have hinOrderMoved : LinkAction.InOrder (.moveend viewport : LinkAction V W) := trivial
  have hsoundBefore : Sound w before := by
    have hremembers : ∀ u, Remembers (live.views.state u) :=
      run_invariant_of_step (I := fun s => ∀ u, Remembers (s.views.state u))
        (fun _ _ _ hs hstep => remembers_of_attemptStep hs hstep) (fun _ => remembers_new) hlive
    exact sound_of_run ⟨hremembers, fun hne => absurd rfl hne⟩
      (fun a ha => hinOrder a (List.mem_append_left _ ha)) hreturns.of_append hbefore
  have hreturnsMoved := hreturns.after hbefore
  have hsound := sound_of_step hsoundBefore hinOrderMoved hreturnsMoved.head hmoved
  have hpending : Pending viewport moved := by
    cases stepped_of_step hinOrderMoved hmoved with
    | moveend _ hphase => exact ⟨hphase, _, rfl⟩
  obtain ⟨handled, later, link₁, rfl, hrun₁, -, -, reference, vp, hvp, hvp₁, hshows⟩ :=
    taken_of_run hno hsound hpending hlast
      (fun a ha => hinOrder a (List.mem_append_right _ (List.mem_cons_of_mem _ ha)))
      (hreturnsMoved.tail hmoved) hpost hframes
  refine ⟨handled, later, link₁, rfl, ?_, reference, vp, picture (link.live.views.state w).sent,
    hvp, hvp₁, ?_, fun v e he hsince => ?_⟩
  · exact run_append.mpr ⟨before, hbefore, run_cons.mpr ⟨moved, hmoved, hrun₁⟩⟩
  · obtain ⟨delivered, hsent, hlayer⟩ := hlossless.delivered
    rw [hsent, hmessages, List.append_nil, hlayer]
    exact VesselsLayer.draws_foldl_onPosition positionTransform delivered
  · have hremembers : Sound w link := sound_of_run hsound
      (fun a ha => hinOrder a (List.mem_append_right _ (List.mem_cons_of_mem _ ha)))
      (hreturnsMoved.tail hmoved) hpost
    rw [(hremembers.remembers w).picture]
    exact hshows.shows v e he hsince

/-- The client draws the ship at the second position. -/
theorem quiet_link_shows_followed :
    ∃ link, run (step plane id ()) (new noViews) followed = some link ∧
      link.layer.feature ⟨1⟩ = some ⟨(50, 30), -90⟩ ∧
      ∃ e vp drawn, link.live.profile.positionMap ⟨1⟩ = some e ∧
        link.layer.Draws id drawn ∧ Shows vp (drawn ⟨1⟩) e.position.default := by
  obtain ⟨link, hrun⟩ : ∃ link, run (step plane id ()) (new noViews) followed = some link :=
    Option.isSome_iff_exists.mp (by decide +kernel)
  have hquiet : (run (step plane id ()) (new noViews) followed).map (fun link =>
      (link.toServer.isEmpty, link.toClient.isEmpty, link.layer.feature ⟨1⟩)) =
        some (true, true, some ⟨(50, 30), -90⟩) := by decide +kernel
  rw [hrun, Option.map_some, Option.some_inj, Prod.mk.injEq, Prod.mk.injEq, List.isEmpty_iff,
    List.isEmpty_iff] at hquiet
  obtain ⟨hframes, hmessages, hfeature⟩ := hquiet
  have hreturns : StepsMeet (step plane id ()) (Returns plane ()) (new noViews) followed := by
    decide +kernel
  have hlast : ∀ viewport, LinkAction.moveend viewport ∉ twoPositions := by simp [twoPositions]
  obtain ⟨handled, later, link₁, hpost, hrun₁, reference, vp, drawn, -, -, hdraws, hshows⟩ :=
    quiet_link_shows plane id () .all 1000 ∅ run_nil rfl square_noOverflow hlast inOrder_followed
      hreturns hrun hframes hmessages
  obtain ⟨e, he⟩ : ∃ e, link.live.profile.positionMap ⟨1⟩ = some e := by
    have hentry : (run (step plane id ()) (new noViews) followed).all (fun link =>
        (link.live.profile.positionMap ⟨1⟩).isSome) := by decide +kernel
    rw [hrun] at hentry
    exact Option.isSome_iff_exists.mp hentry
  refine ⟨link, hrun, hfeature, e, vp, drawn, he, hdraws, hshows ⟨1⟩ e he ?_⟩
  -- There is no entry yet when the server handles the first frame or the second one.
  have hnone : (run (step plane id ()) (new noViews)
      (opened ++ .moveend square :: (handled ++ [.handle 0]))).all fun link =>
        (link.live.profile.positionMap ⟨1⟩).isNone := by
    rcases handled with _ | ⟨a, _ | ⟨b, handled⟩⟩
    · decide +kernel
    · obtain ⟨rfl, -⟩ := List.cons.inj hpost
      decide +kernel
    · have hmem : LinkAction.handle 0 ∈ twoPositions.drop 2 := by
        rw [hpost]
        simp
      simp [twoPositions] at hmem
  have hrun₁ : run (step plane id ()) (new noViews)
      (opened ++ .moveend square :: (handled ++ [.handle 0])) = some link₁ := hrun₁
  rw [hrun₁] at hnone
  rw [Option.isNone_iff_eq_none.mp hnone]
  exact (Option.some_ne_none e).symm

/-- If the second message overtakes the first one, the client keeps drawing the first position. -/
theorem overtaken_position_drawn :
    ∃ link, run (step plane id ()) (new noViews)
        (opened ++ .moveend square :: (twoPositions.take 4 ++ [.deliver 1, .deliver 0])) =
          some link ∧ link.toServer = [] ∧ link.toClient = [] ∧
      link.layer.feature ⟨1⟩ = some ⟨(50, 20), -90⟩ := by
  obtain ⟨link, hrun⟩ : ∃ link, run (step plane id ()) (new noViews)
      (opened ++ .moveend square :: (twoPositions.take 4 ++ [.deliver 1, .deliver 0])) =
        some link := Option.isSome_iff_exists.mp (by decide +kernel)
  have hquiet : (run (step plane id ()) (new noViews)
      (opened ++ .moveend square :: (twoPositions.take 4 ++ [.deliver 1, .deliver 0]))).map
        (fun link => (link.toServer.isEmpty, link.toClient.isEmpty, link.layer.feature ⟨1⟩)) =
          some (true, true, some ⟨(50, 20), -90⟩) := by decide +kernel
  rw [hrun, Option.map_some, Option.some_inj, Prod.mk.injEq, Prod.mk.injEq, List.isEmpty_iff,
    List.isEmpty_iff] at hquiet
  exact ⟨link, hrun, hquiet⟩

end PositionLink

end CwatchBackend
