import CwatchBackend.Foundation.Circle
import CwatchBackend.Process.LivePicture
import CwatchBackend.Process.ViewDecision
import Mathlib.Data.Rat.Floor

/-!
# When the drawn picture has to change

`PictureChanges` says when the picture drawn from what the client has been sent differs from the one
drawn from a report: the vessel is new, its mark has moved or has turned, or it has left the map.
Headings are compared on the circle of the compass there, and by their difference in the code, so a
vessel that turns past north is sent although its mark stays as it is.  The two agree in all other
cases (`sends_iff_picture_changes_iff`).
-/

namespace CwatchBackend

open Foundation

variable {V : Type} [DecidableEq V]

/-- The positions of the two messages are drawn more than a pixel apart, or only the newer one is
drawn. -/
def Moved (vp : ClientViewport) (newPixel : ClientPixel) (cp : PositionMessage V) : Prop :=
  ∃ pixel, vp.locatePixel cp.latitude cp.longitude = .ok pixel ∧
    (pixel.visible = false ∨ 1 < |pixel.x.toInt - newPixel.x.toInt| ∨
      1 < |pixel.y.toInt - newPixel.y.toInt|)

/-- The picture has to change for a report of a vessel of which the client has been sent `known`. -/
def PictureChanges (vp : ClientViewport) (known : Option (PositionMessage V))
    (p : DefaultPosition) : Prop :=
  ∃ newPixel, vp.locatePixel p.latitude p.longitude = .ok newPixel ∧
    (newPixel.visible = true ∧ known = none ∨
      newPixel.visible = true ∧ (∃ cp, known = some cp ∧ Moved vp newPixel cp) ∨
      newPixel.visible = true ∧
        (∃ cp, known = some cp ∧ 5 < circularDistance 360 p.heading cp.heading) ∨
      newPixel.visible = false ∧
        ∃ cp pixel, known = some cp ∧ vp.locatePixel cp.latitude cp.longitude = .ok pixel ∧
          pixel.visible = true)

/-- The vessel has been drawn and is drawn at almost the same place, and its heading has passed
north but has hardly turned. -/
def TurnedPastNorth (vp : ClientViewport) (known : Option (PositionMessage V))
    (p : DefaultPosition) : Prop :=
  ∃ newPixel cp, vp.locatePixel p.latitude p.longitude = .ok newPixel ∧ newPixel.visible = true ∧
    known = some cp ∧ ¬ Moved vp newPixel cp ∧ 355 ≤ |p.heading - cp.heading|

namespace DefaultLatestPositionView

variable {services : Services V} {view : DefaultLatestPositionView V} {vp : ClientViewport}

omit [DecidableEq V] in
/-- Where the report is drawn, the pixels ask for a message if the mark has moved. -/
theorem changes_iff_moved (hspans : vp.Spans) {latitude longitude : ℚ} {newPixel : ClientPixel}
    (hnew : vp.locatePixel latitude longitude = .ok newPixel) (hvisible : newPixel.visible = true)
    {cp : ClientPosition V} (hpixel : vp.clientPixel cp = vp.locatePixel cp.latitude cp.longitude) :
    vp.Changes newPixel cp = true ↔ Moved vp newPixel cp.toPositionMessage := by
  rw [ClientViewport.Changes, hpixel, Moved]
  cases hlocate : vp.locatePixel cp.latitude cp.longitude with
  | error throwable => simp
  | ok pixel =>
    have hdifferent := ClientViewport.isDifferentThan_iff hspans hlocate hnew hvisible
    simp only [ClientPixel.Changes, hvisible, if_true, hdifferent, Except.ok.injEq,
      exists_eq_left']
    rfl

omit [DecidableEq V] in
/-- Where the report is not drawn, the pixels ask for a message if the vessel has been drawn. -/
theorem changes_iff_visible {newPixel : ClientPixel} (hvisible : newPixel.visible = false)
    {cp : ClientPosition V} (hpixel : vp.clientPixel cp = vp.locatePixel cp.latitude cp.longitude) :
    vp.Changes newPixel cp = true ↔
      ∃ pixel, vp.locatePixel cp.latitude cp.longitude = .ok pixel ∧ pixel.visible = true := by
  rw [ClientViewport.Changes, hpixel]
  cases vp.locatePixel cp.latitude cp.longitude with
  | error throwable => simp
  | ok pixel => simp [ClientPixel.Changes, hvisible]

omit [DecidableEq V] in
/-- The code compares headings by their difference. -/
theorem turned_iff {e : Enriched V} {cp : ClientPosition V} :
    Turned e cp = true ↔ 5 < |e.position.default.heading - cp.heading| := by
  have hequal : e.position.default.heading = cp.heading →
      ¬ 5 < |e.position.default.heading - cp.heading| := by
    intro heq
    rw [heq, sub_self, abs_zero]
    decide
  simp only [Turned, fuzzyEquals, Bool.not_or, Bool.and_eq_true, Bool.not_eq_true',
    decide_eq_false_iff_not, not_le]
  exact and_iff_left_of_imp fun hlt heq => hequal heq hlt

/-- A report is sent exactly in the case `P` if that is the case in which it is to be sent. -/
theorem Outcome.exactly_iff {sends : Bool} {view' : DefaultLatestPositionView V} {e : Enriched V}
    (h : Outcome sends view view' e) (P : Prop) :
    ((P → Sent view view' e) ∧ (¬ P → Unsent view view')) ↔ (P ↔ sends = true) := by
  cases sends with
  | true =>
    have h : Sent view view' e := h
    rw [iff_true_right rfl]
    exact ⟨fun hexactly => by_contra fun hP => h.not_unsent (hexactly.2 hP),
      fun hP => ⟨fun _ => h, fun hnot => absurd hP hnot⟩⟩
  | false =>
    have h : Unsent view view' := h
    rw [iff_false_right Bool.false_ne_true]
    exact ⟨fun hexactly hP => (hexactly.1 hP).not_unsent h,
      fun hnot => ⟨fun hP => absurd hP hnot, fun _ => h⟩⟩

/-- What is to be done with a report of a vessel whose mark is drawn. -/
theorem moved_or_turned_iff {a b : ℚ} (ha : 0 ≤ a ∧ a ≤ 360) (hb : 0 ≤ b ∧ b ≤ 360) (moved : Prop) :
    ((moved ∨ 5 < circularDistance 360 a b) ↔ (5 < |a - b| ∨ moved)) ↔
      ¬ (¬ moved ∧ 355 ≤ |a - b|) := by
  have hturn : |a - b| ≤ 360 := abs_le.mpr ⟨by linarith [ha.1, hb.2], by linarith [ha.2, hb.1]⟩
  have hfar : 355 ≤ |a - b| → 5 < |a - b| := fun h => by linarith
  have hcircle : 5 < circularDistance 360 a b ↔ 5 < |a - b| ∧ ¬ 355 ≤ |a - b| := by
    rw [lt_circularDistance_iff (by norm_num) hturn, not_le]
    norm_num
  rw [hcircle]
  by_cases hmoved : moved
  · simp [hmoved]
  · by_cases hpast : 355 ≤ |a - b|
    · simp [hmoved, hpast, hfar hpast]
    · simp [hmoved, hpast]

/-- Under a viewport whose pixels do not overflow, a report is sent and recorded exactly when the
picture has to change, if and only if it does not turn a vessel past north whose mark stays as it
is. -/
theorem sends_iff_picture_changes_iff (services : Services V) (view : DefaultLatestPositionView V)
    (e : Enriched V) (vp : ClientViewport) (hvp : view.clientViewport = some vp)
    (hspans : vp.Spans)
    (hcached : ∀ cp, view.clientState e.identity = some cp → view.CachesCorrectly cp)
    (hheading : 0 ≤ e.position.default.heading ∧ e.position.default.heading ≤ 360)
    (hknown : ∀ cp, view.message e.identity = some cp → 0 ≤ cp.heading ∧ cp.heading ≤ 360)
    (haccepted : Accepted services view e = true) :
    ((PictureChanges vp (view.message e.identity) e.position.default →
          Sent view (view.processDefault services e).1 e) ∧
        (¬ PictureChanges vp (view.message e.identity) e.position.default →
          Unsent view (view.processDefault services e).1)) ↔
      ¬ TurnedPastNorth vp (view.message e.identity) e.position.default := by
  have houtcome := outcome_processDefault services view e hvp
  rw [haccepted, Bool.and_true] at houtcome
  rw [houtcome.exactly_iff, PictureChanges, TurnedPastNorth]
  unfold ClientViewport.Sends ClientViewport.reportPixel
  cases hpixel : vp.locatePixel e.position.default.latitude e.position.default.longitude with
  | error throwable => simp
  | ok newPixel =>
    cases hcurrent : view.clientState e.identity with
    | none =>
      have hmessage : view.message e.identity = none := by rw [message, hcurrent]; rfl
      simp [hmessage]
    | some cp =>
      have hmessage : view.message e.identity = some cp.toPositionMessage := by
        rw [message, hcurrent]; rfl
      have hlocate := (hcached cp hcurrent).clientPixel_eq hvp
      simp only [hmessage, Except.ok.injEq, exists_eq_left', Option.some.injEq]
      cases hvisible : newPixel.visible with
      | true =>
        have hmoved := changes_iff_moved hspans hpixel hvisible hlocate
        have hcases := moved_or_turned_iff hheading (hknown _ hmessage)
          (Moved vp newPixel cp.toPositionMessage)
        simpa [hvisible, hmoved, turned_iff] using hcases
      | false =>
        have hchanges := changes_iff_visible hvisible hlocate
        simp [hvisible, hchanges]

/-! ### A ship that turns past north -/

/-- An AIS report of the vessel `1` with a given heading. -/
def headed (time : Int64) (heading : ℚ) : Enriched VesselId :=
  .ofSource .ais ⟨⟨⟨⟨time⟩, 20, 50, heading⟩, (7 : Int32)⟩, ⟨1⟩⟩

/-- A view with the viewport `square` whose client has been sent the heading `359`. -/
def headingNorth : DefaultLatestPositionView VesselId :=
  ((new.setVieport (plane ()) square).1.processDefault (plane ()) (headed 100 359)).1

/-- The view has its viewport and remembers its client. -/
theorem headingNorth_remembers :
    headingNorth.Remembers ∧ headingNorth.clientViewport = some squareViewport := by
  have hset : ((new.setVieport (plane ()) square).1 :
      DefaultLatestPositionView VesselId).Remembers := remembers_new.setVieport square
  obtain ⟨hremembers, hviewport⟩ : headingNorth.Remembers ∧ _ :=
    hset.processDefault (headed 100 359)
  exact ⟨hremembers, hviewport.trans rfl⟩

/-- The client has been sent the heading `359`. -/
theorem headingNorth_message :
    headingNorth.message ⟨1⟩ = some ⟨⟨1⟩, 20, 50, 359⟩ := by
  decide +kernel

/-- A ship that turns from `359` to `90` degrees is sent exactly when the picture changes. -/
theorem sends_iff_picture_changes_headed :
    (PictureChanges squareViewport (headingNorth.message ⟨1⟩) (headed 200 90).position.default →
        Sent headingNorth (headingNorth.processDefault (plane ()) (headed 200 90)).1
          (headed 200 90)) ∧
      (¬ PictureChanges squareViewport (headingNorth.message ⟨1⟩)
          (headed 200 90).position.default →
        Unsent headingNorth (headingNorth.processDefault (plane ()) (headed 200 90)).1) := by
  obtain ⟨hremembers, hvp⟩ := headingNorth_remembers
  refine (sends_iff_picture_changes_iff (plane ()) headingNorth (headed 200 90) squareViewport hvp
    squareViewport_spans (fun cp hcp => hremembers.cached _ cp hcp) (by decide +kernel)
    (fun cp hcp => ?_) rfl).mpr ?_
  · obtain rfl := Option.some.inj (headingNorth_message.symm.trans hcp)
    decide +kernel
  · rintro ⟨newPixel, cp, -, -, hcp, -, hpast⟩
    obtain rfl := Option.some.inj (headingNorth_message.symm.trans hcp)
    exact absurd hpast (by decide +kernel)

/-- A ship that turns from `359` to `1` degrees, at the same place, is sent although the picture
does not have to change. -/
theorem sends_unchanged_picture :
    headingNorth.clientViewport = some squareViewport ∧ squareViewport.Spans ∧
      headingNorth.Remembers ∧ Accepted (plane ()) headingNorth (headed 200 1) = true ∧
      ¬ PictureChanges squareViewport (headingNorth.message ⟨1⟩) (headed 200 1).position.default ∧
      Sent headingNorth (headingNorth.processDefault (plane ()) (headed 200 1)).1
        (headed 200 1) := by
  obtain ⟨hremembers, hvp⟩ := headingNorth_remembers
  have hlocate : squareViewport.locatePixel 20 50 = .ok ⟨true, 20, 50⟩ := by decide +kernel
  have hsent := (outcome_processDefault (plane ()) headingNorth (headed 200 1) hvp).sent_iff
  refine ⟨hvp, squareViewport_spans, hremembers, rfl, ?_, hsent.mpr (by decide +kernel)⟩
  rintro ⟨newPixel, hpixel, hchanges⟩
  obtain rfl := Except.ok.inj (hlocate.symm.trans hpixel)
  rw [headingNorth_message] at hchanges
  rcases hchanges with ⟨-, hnone⟩ | ⟨-, cp, hcp, pixel, hsame, hmoved⟩ | ⟨-, cp, hcp, hturned⟩ |
    ⟨hhidden, -⟩
  · cases hnone
  · obtain rfl := Option.some.inj hcp
    obtain rfl := Except.ok.inj (hlocate.symm.trans hsame)
    exact absurd hmoved (by decide)
  · obtain rfl := Option.some.inj hcp
    exact absurd hturned (by decide +kernel)
  · cases hhidden

end DefaultLatestPositionView

end CwatchBackend
