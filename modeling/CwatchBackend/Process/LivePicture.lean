import CwatchBackend.Process.ProfileRuns
import CwatchBackend.Process.ViewPicture

/-!
# The live picture

Runs of a profile with its views, in which reports and new viewports alternate in any order.  Every
view remembers throughout (`remembers_of_step`), and an entry of `positionMap` that has been
accepted under the current viewport of a view is shown by the client of the view within the
tolerances (`live_picture`).
-/

namespace CwatchBackend

open Foundation DefaultLatestPositionView

variable {V W : Type} [DecidableEq V] [DecidableEq W] {services : W → Services V}

/-- The calls of a profile, and new viewports for its views. -/
inductive LiveAction (V W : Type) where
  | call (c : ProfileState.Call V W)
  | setVieport (w : W) (viewport : Viewport)

/-- A profile with the views of its clients. -/
abbrev LiveState (V W : Type) : Type := ProfileState V W (DefaultLatestPositionView V)

/-- The steps of a run in which no operation throws. -/
def liveStep (services : W → Services V) (s : LiveState V W) :
    LiveAction V W → Option (LiveState V W)
  | .call c =>
    if (s.call (handle services) c).2 = none then s.step (handle services) c else none
  | .setVieport w viewport =>
    match (s.views.state w).setVieport (services w) viewport with
    | (view, none) =>
      some { s with views := { s.views with state := Function.update s.views.state w view } }
    | (_, some _) => none

/-! ### One step -/

/-- What a call does to the entries and to the views: nothing, or an accepted report `e` that is
newer becomes the entry of its vessel and is handled by every registered view. -/
theorem liveStep_call_cases {s t : LiveState V W} {c : ProfileState.Call V W}
    (h : liveStep services s (.call c) = some t) :
    (t.views.state = s.views.state ∧ t.profile.positionMap = s.profile.positionMap ∧
        s.profile.views ⊆ t.profile.views) ∨
      ∃ e, t.profile.positionMap =
          Function.update s.profile.positionMap e.identity (some e) ∧
        t.profile.views = s.profile.views ∧
        ∀ w, if w ∈ s.profile.views then
            t.views.state w = ((s.views.state w).processDefault (services w) e).1 ∧
              ((s.views.state w).processDefault (services w) e).2 = none
          else t.views.state w = s.views.state w := by
  rw [liveStep, Option.ite_none_right_eq_some] at h
  obtain ⟨hreturns, hstep⟩ := h
  rcases ProfileState.step_cases hstep with
    ⟨-, hviews, hmap, hextends⟩ | ⟨_, order, e, -, -, horder, -, -, hprofile, hold, hnew⟩
  · exact Or.inl ⟨by rw [hviews], hmap, hextends.views⟩
  · by_cases hnewer : s.profile.IsNewer e
    · obtain ⟨hafter, hiff⟩ := hnew hnewer
      have hall := hiff.mp hreturns
      refine Or.inr ⟨e, ?_, by rw [hprofile]; rfl, fun w => ?_⟩
      · rw [hprofile, MemoryLatestPositionProfile.positionMap_keep_of_isNewer hnewer]
      · rw [hafter, Views.visited_of_allReturn hall, ← horder]
        simp only [List.mem_toFinset, Views.after]
        split
        · next hw => exact ⟨rfl, not_ne_iff.mp (hall w hw)⟩
        · rfl
    · rw [MemoryLatestPositionProfile.keep_of_not_isNewer hnewer] at hprofile
      refine Or.inl ⟨by rw [hold hnewer], by rw [hprofile], by rw [hprofile]⟩

/-- A new viewport changes one view and no entry. -/
theorem liveStep_setVieport {s t : LiveState V W} {w : W} {viewport : Viewport}
    (h : liveStep services s (.setVieport w viewport) = some t) :
    t.profile = s.profile ∧
      ((s.views.state w).setVieport (services w) viewport).2 = none ∧
      t.views.state = Function.update s.views.state w
        ((s.views.state w).setVieport (services w) viewport).1 := by
  rw [liveStep] at h
  split at h
  · next view hview =>
    obtain rfl := Option.some.inj h
    rw [hview]
    exact ⟨rfl, rfl, rfl⟩
  · cases h

/-- Every step leaves views that remember. -/
theorem remembers_of_step {s t : LiveState V W} {a : LiveAction V W}
    (hs : ∀ w, Remembers (s.views.state w)) (h : liveStep services s a = some t) :
    ∀ w, Remembers (t.views.state w) := by
  intro w
  cases a with
  | call c =>
    rcases liveStep_call_cases h with ⟨hstate, -, -⟩ | ⟨e, -, -, hstate⟩
    · exact hstate ▸ hs w
    · have hw := hstate w
      split at hw
      · rw [hw.1]
        exact ((hs w).processDefault e).1
      · exact hw ▸ hs w
  | setVieport u viewport =>
    obtain ⟨-, -, hstate⟩ := liveStep_setVieport h
    rw [hstate]
    by_cases hu : w = u
    · subst hu
      rw [Function.update_self]
      exact (hs w).setVieport viewport
    · rw [Function.update_of_ne hu]
      exact hs w

/-! ### Under one viewport -/

/-- The view `w` has the viewport `vp`, and its client shows every entry that has been accepted
since the state `s₁`. -/
structure ShowsSince (s₁ s : LiveState V W) (w : W) (vp : ClientViewport) : Prop where
  registered : w ∈ s.profile.views
  viewport : (s.views.state w).clientViewport = some vp
  shows : ∀ v e, s.profile.positionMap v = some e → s₁.profile.positionMap v ≠ some e →
    Shows vp ((s.views.state w).message v) e.position.default

/-- As long as the view gets no new viewport, its client shows every entry accepted since. -/
theorem showsSince_of_step {s₁ s t : LiveState V W} {w : W} {vp : ClientViewport}
    (hspans : vp.Spans) (hremembers : ∀ w, Remembers (s.views.state w))
    (hs : ShowsSince s₁ s w vp) {a : LiveAction V W}
    (ha : ∀ viewport, a ≠ .setVieport w viewport) (h : liveStep services s a = some t) :
    ShowsSince s₁ t w vp := by
  obtain ⟨hw, hvp, hshows⟩ := hs
  cases a with
  | call c =>
    rcases liveStep_call_cases h with ⟨hstate, hmap, hviews⟩ | ⟨e, hmap, hviews, hstate⟩
    · refine ⟨hviews hw, hstate ▸ hvp, ?_⟩
      rwa [hstate, hmap]
    · obtain ⟨hview, hreturns⟩ : t.views.state w = _ ∧ _ := if_pos hw ▸ hstate w
      refine ⟨hviews ▸ hw, ?_, ?_⟩
      · rw [hview, ((hremembers w).processDefault e).2, hvp]
      · intro v f hf hsince
        rw [hmap] at hf
        rw [hview]
        by_cases hv : v = e.identity
        · rw [hv, Function.update_self] at hf
          obtain rfl := Option.some.inj hf
          rw [hv]
          exact shows_of_processDefault (hremembers w) hvp hspans hreturns
        · rw [Function.update_of_ne hv] at hf
          rw [message_processDefault_of_ne (hremembers w) hvp hreturns hv]
          exact hshows v f hf hsince
  | setVieport u viewport =>
    have hu : w ≠ u := fun hu => ha viewport (hu ▸ rfl)
    obtain ⟨hprofile, -, hstate⟩ := liveStep_setVieport h
    refine ⟨hprofile ▸ hw, ?_, ?_⟩
    · rwa [hstate, Function.update_of_ne hu]
    · rwa [hstate, hprofile, Function.update_of_ne hu]

/-- After a new viewport the view has it, and no entry has been accepted since. -/
theorem showsSince_of_setVieport {s s₁ : LiveState V W} {w : W} {viewport : Viewport}
    (h : liveStep services s (.setVieport w viewport) = some s₁) (hw : w ∈ s₁.profile.views) :
    ∃ reference vp, ClientViewport.new (services w) reference viewport = .ok vp ∧
      ShowsSince s₁ s₁ w vp := by
  obtain ⟨-, hreturns, hstate⟩ := liveStep_setVieport h
  unfold DefaultLatestPositionView.setVieport at hreturns hstate
  split at hstate
  · next vp hnew =>
    refine ⟨_, vp, hnew, hw, ?_, fun v e he hsince => absurd he hsince⟩
    rw [hstate, Function.update_self]
  · next hthrows =>
    rw [hthrows] at hreturns
    cases hreturns

/-- In every run in which no operation throws, at every moment after a new viewport of a registered
view and before its next one: an entry of `positionMap` that has been accepted since is shown by the
client within the tolerances if it is visible, and otherwise not shown at all. -/
theorem live_picture (services : W → Services V) (s₀ s₁ s : LiveState V W)
    (hnew : ∀ w, s₀.views.state w = DefaultLatestPositionView.new)
    (pre post : List (LiveAction V W)) (w : W) (viewport : Viewport)
    (hviewport : viewport.NoOverflow)
    (hrun₁ : run (liveStep services) s₀ (pre ++ [.setVieport w viewport]) = some s₁)
    (hw : w ∈ s₁.profile.views) (hrun : run (liveStep services) s₁ post = some s)
    (hpost : ∀ viewport', LiveAction.setVieport w viewport' ∉ post) (v : V) (e : Enriched V)
    (he : s.profile.positionMap v = some e) (hsince : s₁.profile.positionMap v ≠ some e) :
    ∃ reference vp, ClientViewport.new (services w) reference viewport = .ok vp ∧
      (s.views.state w).clientViewport = some vp ∧
      Shows vp (picture (s.views.state w).sent v) e.position.default := by
  have hremembers₀ : ∀ w, Remembers (s₀.views.state w) := fun w => hnew w ▸ remembers_new
  have hremembers₁ : ∀ w, Remembers (s₁.views.state w) :=
    run_invariant_of_step (I := fun s => ∀ w, Remembers (s.views.state w))
      (fun _ _ _ hs h => remembers_of_step hs h) hremembers₀ hrun₁
  obtain ⟨s', -, hset⟩ := run_concat.mp hrun₁
  obtain ⟨reference, vp, hvp, hshows₁⟩ := showsSince_of_setVieport hset hw
  have hspans := ClientViewport.spans_of_new hvp hviewport
  obtain ⟨hremembers, hshows⟩ : (∀ w, Remembers (s.views.state w)) ∧ ShowsSince s₁ s w vp := by
    refine run_invariant (P := fun _ a => ∀ viewport', a ≠ .setVieport w viewport')
      (I := fun s => (∀ w, Remembers (s.views.state w)) ∧ ShowsSince s₁ s w vp)
      (fun _ _ _ hs ha h =>
        ⟨remembers_of_step hs.1 h, showsSince_of_step hspans hs.1 hs.2 ha h⟩)
      ⟨hremembers₁, hshows₁⟩ ?_ hrun
    rintro pre' a post' rfl - - viewport' rfl
    exact hpost viewport' (by simp)
  refine ⟨reference, vp, hvp, hshows.viewport, ?_⟩
  rw [(hremembers w).picture]
  exact hshows.shows v e he hsince

/-! ### A ship that moves a little -/

/-- Services with the identity as the only projection, and with the affine transforms of the plane;
every message goes out. -/
def plane : Unit → Services VesselId := fun _ =>
  { findMathTransform := fun _ => .ok .ok
    createAffineTransform := fun matrix => .ok (affine matrix)
    convertAndSend := fun _ _ => none }

/-- A viewport of 100 by 100 pixels with a margin of 10 around it. -/
def square : Viewport where
  matrix := [1, 0, 0, 0, 0, 1, 0, 0, 0, 0, 1, 0, 0, 0, 0, 1]
  margin := 10
  height := 100
  width := 100
  projection := "EPSG:4326"

/-- The `int` arithmetic of that viewport does not overflow. -/
theorem square_noOverflow : square.NoOverflow :=
  ⟨by decide, ⟨by decide, by decide⟩, ⟨by decide, by decide⟩, by decide, by decide⟩

/-- The viewport object of `square` in a new view. -/
def DefaultLatestPositionView.squareViewport : ClientViewport :=
  (new.setVieport (plane ()) square : DefaultLatestPositionView VesselId × _).1.clientViewport.get
    rfl

/-- Nor does that of its viewport object. -/
theorem DefaultLatestPositionView.squareViewport_spans : squareViewport.Spans := by
  have hnew : ClientViewport.new (plane ()) 0 square = .ok squareViewport := rfl
  exact ClientViewport.spans_of_new hnew square_noOverflow

/-- An AIS report of the vessel `1` at a given time and latitude. -/
def shipAt (time : Int64) (latitude : ℚ) : EnrichedPosition VesselId (Position .ais) :=
  ⟨⟨⟨⟨time⟩, latitude, 50, 90⟩, (7 : Int32)⟩, ⟨1⟩⟩

/-- Two reports of a ship that moves by half a pixel. -/
def twoReports : List (LiveAction VesselId Unit) :=
  [.call (.processAis 500 [()] (shipAt 100 20)), .call (.processAis 500 [()] (shipAt 200 (41 / 2)))]

/-- A profile of everything with one new view. -/
def oneView : LiveState VesselId Unit :=
  ProfileState.start .all 1000 {()} fun _ => DefaultLatestPositionView.new

/-- The state after the client has sent its viewport. -/
def squareSet : LiveState VesselId Unit :=
  (run (liveStep plane) oneView ([] ++ [.setVieport () square])).get rfl

/-- The state after the two reports. -/
def shipMoved : LiveState VesselId Unit :=
  (run (liveStep plane) squareSet twoReports).get (by decide +kernel)

/-- The client is shown the entry of the ship within the tolerances. -/
theorem live_picture_shipMoved :
    ∃ e, shipMoved.profile.positionMap ⟨1⟩ = some e ∧
      ∃ reference vp, ClientViewport.new (plane ()) reference square = .ok vp ∧
        (shipMoved.views.state ()).clientViewport = some vp ∧
        Shows vp (picture (shipMoved.views.state ()).sent ⟨1⟩) e.position.default := by
  obtain ⟨e, he⟩ : ∃ e, shipMoved.profile.positionMap ⟨1⟩ = some e :=
    Option.isSome_iff_exists.mp (by decide +kernel)
  exact ⟨e, he, live_picture plane oneView squareSet shipMoved (fun _ => rfl) [] twoReports ()
    square square_noOverflow (Option.some_get _).symm (by decide) (Option.some_get _).symm
    (by simp [twoReports]) ⟨1⟩ e he nofun⟩

end CwatchBackend
