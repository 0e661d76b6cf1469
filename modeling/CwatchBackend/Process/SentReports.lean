import CwatchBackend.Process.LivePicture

/-!
# The reports that a client is sent

Every message of a view is the position of a report that it has been handed, and each such report is
sent at most once.  So the reports behind the messages are, in their order, some of the records of
the profile, and the picture of a vessel never goes back to an earlier report
(`sent_reports_increase`).  This holds of all runs, whatever views throw and whatever viewports
cannot be made.
-/

namespace CwatchBackend

open Foundation

namespace DefaultLatestPositionView

variable {V : Type} [DecidableEq V] {services : Services V} {e : Enriched V}
  {view view' : DefaultLatestPositionView V}

/-- The view has sent nothing more, or the given report. -/
def SendsAtMost (e : Enriched V) (view view' : DefaultLatestPositionView V) : Prop :=
  view'.sent = view.sent ∨ view'.sent = view.sent ++ [messageOf e]

/-- A message that is refused has not been sent. -/
theorem sendsAtMost_sendToClient (view : DefaultLatestPositionView V) (e : Enriched V) :
    SendsAtMost e view (view.sendToClient services e).1 := by
  unfold DefaultLatestPositionView.sendToClient
  dsimp only
  split
  · exact Or.inr rfl
  · exact Or.inl rfl

/-- Locating a client position sends nothing. -/
theorem sendsAtMost_withClientPixel {vp : ClientViewport} {cp : ClientPosition V} {v : V}
    {use : DefaultLatestPositionView V → ClientPixel →
      DefaultLatestPositionView V × Option Throwable}
    (huse : ∀ view pixel, SendsAtMost e view (use view pixel).1) :
    SendsAtMost e view (view.withClientPixel vp cp v use).1 := by
  unfold DefaultLatestPositionView.withClientPixel
  split
  · next pixel cached hlocate => exact huse _ pixel
  · exact Or.inl rfl

/-- A report is sent at most once, and nothing else is. -/
theorem sendsAtMost_processDefault (view : DefaultLatestPositionView V) (e : Enriched V) :
    SendsAtMost e view (view.processDefault services e).1 := by
  have hsend : ∀ (sends : Bool) (view : DefaultLatestPositionView V),
      SendsAtMost e view (if sends then view.sendToClient services e else (view, none)).1 := by
    intro sends view
    split
    · exact sendsAtMost_sendToClient view e
    · exact Or.inl rfl
  unfold DefaultLatestPositionView.processDefault
  split
  · exact Or.inl rfl
  · dsimp only
    split
    · exact Or.inl rfl
    · split
      · exact sendsAtMost_sendToClient view e
      · split
        · exact sendsAtMost_sendToClient view e
        · exact sendsAtMost_withClientPixel fun view pixel => hsend _ view
      · exact Or.inl rfl
      · exact sendsAtMost_withClientPixel fun view pixel => hsend _ view

omit [DecidableEq V] in
/-- A new viewport sends nothing. -/
theorem sent_setVieport (view : DefaultLatestPositionView V) (viewport : Viewport) :
    (view.setVieport services viewport).1.sent = view.sent := by
  rcases setVieport_cases services view viewport with hview | ⟨vp, -, hview⟩ <;> rw [hview]

/-- The picture of a vessel is the message of the last of its reports. -/
theorem picture_map_messageOf (reports : List (Enriched V)) (v : V) :
    picture (reports.map messageOf) v =
      (lastOf EnrichedPosition.identity v reports).map messageOf := by
  induction reports using List.reverseRecOn with
  | nil => rfl
  | append_singleton reports e ih =>
    rw [List.map_append, List.map_singleton, picture_concat, lastOf_concat]
    by_cases hv : e.identity = v
    · rw [if_pos hv, ← hv]
      exact Function.update_self ..
    · rw [if_neg hv, ← ih]
      exact Function.update_of_ne (Ne.symm hv) ..

end DefaultLatestPositionView

open DefaultLatestPositionView

variable {V W : Type} [DecidableEq V] [DecidableEq W] {services : W → Services V}
  {s t : LiveState V W}

/-- The steps of a run in which any operation may throw. -/
def attemptStep (services : W → Services V) (s : LiveState V W) :
    LiveAction V W → Option (LiveState V W)
  | .call c => s.step (handle services) c
  | .setVieport w viewport =>
    let view := ((s.views.state w).setVieport (services w) viewport).1
    some { s with views := { s.views with state := Function.update s.views.state w view } }

/-- What a step does to a view: nothing, or it handles a report or gets a new viewport. -/
theorem view_of_attemptStep {a : LiveAction V W} (h : attemptStep services s a = some t) (w : W) :
    t.views.state w = s.views.state w ∨
      (∃ e, t.views.state w = ((s.views.state w).processDefault (services w) e).1) ∨
      ∃ viewport, a = .setVieport w viewport ∧
        t.views.state w = ((s.views.state w).setVieport (services w) viewport).1 := by
  cases a with
  | call c =>
    rcases ProfileState.step_cases h with
      ⟨-, hviews, -⟩ | ⟨_, order, e, -, -, -, -, -, -, hold, hnew⟩
    · exact Or.inl (by rw [hviews])
    · by_cases hnewer : s.profile.IsNewer e
      · rw [(hnew hnewer).1, Views.after]
        dsimp only
        split
        · exact Or.inr (Or.inl ⟨e, rfl⟩)
        · exact Or.inl rfl
      · exact Or.inl (by rw [hold hnewer])
  | setVieport u viewport =>
    obtain rfl := Option.some.inj h
    by_cases hu : w = u
    · subst hu
      exact Or.inr (Or.inr ⟨viewport, rfl, Function.update_self ..⟩)
    · exact Or.inl (Function.update_of_ne hu ..)

/-- Without a viewport a view is left as it is. -/
theorem view_of_attemptStep_of_noViewport {a : LiveAction V W}
    (h : attemptStep services s a = some t) {w : W}
    (hnone : (s.views.state w).clientViewport = none)
    (ha : ∀ viewport, a ≠ .setVieport w viewport) : t.views.state w = s.views.state w := by
  rcases view_of_attemptStep h w with hsame | ⟨e, hview⟩ | ⟨viewport, rfl, -⟩
  · exact hsame
  · rw [hview, processDefault, hnone]
  · exact absurd rfl (ha viewport)

/-- No step takes a message back. -/
theorem sent_prefix_of_attemptStep {a : LiveAction V W} (h : attemptStep services s a = some t)
    (w : W) : (s.views.state w).sent <+: (t.views.state w).sent := by
  rcases view_of_attemptStep h w with hview | ⟨e, hview⟩ | ⟨viewport, -, hview⟩
  · exact hview ▸ List.prefix_refl _
  · have hsends : SendsAtMost e (s.views.state w)
        ((s.views.state w).processDefault (services w) e).1 :=
      sendsAtMost_processDefault (s.views.state w) e
    rw [hview]
    rcases hsends with hsame | hsends
    · exact hsame ▸ List.prefix_refl _
    · exact hsends ▸ List.prefix_append _ _
  · rw [hview, sent_setVieport]

/-- Every step leaves views that remember, whatever throws. -/
theorem remembers_of_attemptStep {a : LiveAction V W} (hs : ∀ w, Remembers (s.views.state w))
    (h : attemptStep services s a = some t) : ∀ w, Remembers (t.views.state w) := by
  intro w
  rcases view_of_attemptStep h w with hview | ⟨e, hview⟩ | ⟨viewport, -, hview⟩ <;> rw [hview]
  · exact hs w
  · exact ((hs w).processDefault e).1
  · exact (hs w).setVieport viewport

/-- A step in which nothing throws is one in which anything may throw. -/
theorem liveStep_of_attemptStep {a : LiveAction V W} (h : attemptStep services s a = some t)
    (hreturns : (liveStep services s a).isSome) : liveStep services s a = some t := by
  obtain ⟨u, hu⟩ := Option.isSome_iff_exists.mp hreturns
  rw [hu, ← h]
  cases a with
  | call c =>
    rw [liveStep, Option.ite_none_right_eq_some] at hu
    exact hu.2.symm
  | setVieport w viewport =>
    rw [liveStep] at hu
    split at hu
    · next view hview =>
      rw [← hu, attemptStep, hview]
    · cases hu

/-- The call of an action. -/
def LiveAction.call? : LiveAction V W → Option (ProfileState.Call V W)
  | .call c => some c
  | .setVieport _ _ => none

/-- The profile has accepted the reports of the calls since it was started, and every view has sent
some of the records among them. -/
structure SendsRecords (s₀ : LiveState V W) (calls : List (ProfileState.Call V W))
    (s : LiveState V W) : Prop where
  extends_start : ProfileState.Extends s₀ s
  keeps : Keeps EnrichedPosition.identity EnrichedPosition.timestamp s.profile.positionMap
    (ProfileState.accepted s₀.profile calls)
  sent : ∀ w, ∃ reports : List (Enriched V),
    reports.Sublist (ProfileState.recordsOf s₀.profile calls) ∧
      (s.views.state w).sent = reports.map messageOf

/-- A new viewport leaves the profile and all messages as they are. -/
theorem SendsRecords.setVieport {s₀ : LiveState V W} {calls : List (ProfileState.Call V W)}
    (h : SendsRecords s₀ calls s) {w : W} {viewport : Viewport}
    (hstep : attemptStep services s (.setVieport w viewport) = some t) :
    SendsRecords s₀ calls t := by
  obtain rfl := Option.some.inj hstep
  refine ⟨⟨h.extends_start.positionFilter, h.extends_start.timeoutMilliseconds,
    h.extends_start.views⟩, h.keeps, fun u => ?_⟩
  obtain ⟨reports, hreports, hsent⟩ := h.sent u
  refine ⟨reports, hreports, ?_⟩
  by_cases hu : u = w
  · subst hu
    have hview : ((s.views.state u).setVieport (services u) viewport).1.sent =
        (s.views.state u).sent := sent_setVieport _ viewport
    rw [← hsent, ← hview]
    exact congrArg DefaultLatestPositionView.sent (Function.update_self ..)
  · rw [← hsent]
    exact congrArg DefaultLatestPositionView.sent (Function.update_of_ne hu ..)

/-- A call sends the accepted report to some of the views, if it is a record. -/
theorem SendsRecords.call {s₀ : LiveState V W} {calls : List (ProfileState.Call V W)}
    (h : SendsRecords s₀ calls s) {c : ProfileState.Call V W}
    (hstep : attemptStep services s (.call c) = some t) : SendsRecords s₀ (calls ++ [c]) t := by
  have hextends := h.extends_start.step hstep
  have haccepted := h.extends_start.accepted_concat calls c
  rcases ProfileState.step_cases hstep with
    ⟨hnone, hviews, hmap, -⟩ | ⟨now, order, e, -, -, -, -, hreport, hprofile, hold, hnew⟩
  · rw [hnone, Option.toList_none, List.append_nil] at haccepted
    refine ⟨hextends, ?_, ?_⟩
    · rw [haccepted, hmap]
      exact h.keeps
    · rw [ProfileState.recordsOf, haccepted, hviews]
      exact h.sent
  · rw [hreport, Option.toList_some] at haccepted
    refine ⟨hextends, ?_, fun w => ?_⟩
    · rw [haccepted, hprofile]
      exact h.keeps.concat e
    · obtain ⟨reports, hreports, hsent⟩ := h.sent w
      rw [ProfileState.recordsOf, haccepted, records_concat]
      by_cases hnewer : s.profile.IsNewer e
      · rw [if_pos (h.keeps.newer_iff_exceeds.mp hnewer), (hnew hnewer).1, Views.after]
        dsimp only
        split
        · have hsends : SendsAtMost e (s.views.state w)
              ((s.views.state w).processDefault (services w) e).1 :=
            sendsAtMost_processDefault (s.views.state w) e
          rcases hsends with hsame | hsends
          · exact ⟨reports, hreports.trans (List.sublist_append_left _ _), hsame.trans hsent⟩
          · refine ⟨reports ++ [e], hreports.append (List.Sublist.refl [e]), ?_⟩
            rw [List.map_append, ← hsent]
            exact hsends
        · exact ⟨reports, hreports.trans (List.sublist_append_left _ _), hsent⟩
      · rw [if_neg (mt h.keeps.newer_iff_exceeds.mpr hnewer), List.append_nil, hold hnewer]
        exact ⟨reports, hreports, hsent⟩

/-- In every run every view sends some of the records of its profile. -/
theorem sendsRecords_of_run {positionFilter : EnrichedPositionFilter V}
    {timeoutMilliseconds : Int64} {views : Finset W} {actions : List (LiveAction V W)}
    (hrun : run (attemptStep services) (ProfileState.start positionFilter timeoutMilliseconds views
      fun _ => DefaultLatestPositionView.new) actions = some s) :
    SendsRecords (ProfileState.start positionFilter timeoutMilliseconds views
      fun _ => DefaultLatestPositionView.new) (actions.filterMap LiveAction.call?) s := by
  induction actions using List.reverseRecOn generalizing s with
  | nil =>
    rw [← Option.some.inj hrun]
    exact ⟨⟨rfl, rfl, Finset.Subset.refl _⟩, keeps_nil, fun w => ⟨[], List.nil_sublist _, rfl⟩⟩
  | append_singleton actions a ih =>
    obtain ⟨u, hu, hstep⟩ := run_concat.mp hrun
    rw [List.filterMap_append]
    cases a with
    | call c => exact (ih hu).call hstep
    | setVieport w viewport =>
      rw [List.filterMap_cons_none rfl, List.filterMap_nil, List.append_nil]
      exact (ih hu).setVieport hstep

/-- In every run, whatever throws, the messages of a view are, in this order, the positions of some
of the records among the reports that its profile has accepted, each sent once.  The timestamps of
the reports that its client is sent of a vessel strictly increase, and the picture of the vessel is
that of the last of them. -/
theorem sent_reports_increase (services : W → Services V)
    (positionFilter : EnrichedPositionFilter V) (timeoutMilliseconds : Int64) (views : Finset W)
    {actions : List (LiveAction V W)}
    (hrun : run (attemptStep services) (ProfileState.start positionFilter timeoutMilliseconds views
      fun _ => DefaultLatestPositionView.new) actions = some s) (w : W) :
    ∃ reports : List (Enriched V),
      reports.Sublist (records EnrichedPosition.identity EnrichedPosition.timestamp
        (ProfileState.accepted (.new positionFilter timeoutMilliseconds)
          (actions.filterMap LiveAction.call?))) ∧
      (s.views.state w).sent = reports.map messageOf ∧
      Increasing EnrichedPosition.identity EnrichedPosition.timestamp reports ∧
      ∀ v, picture (s.views.state w).sent v =
        (lastOf EnrichedPosition.identity v reports).map messageOf := by
  obtain ⟨reports, hreports, hsent⟩ := (sendsRecords_of_run hrun).sent w
  refine ⟨reports, hreports, hsent, (increasing_records _).sublist hreports, fun v => ?_⟩
  rw [hsent]
  exact picture_map_messageOf reports v

/-- A ship moves, and an earlier report of it comes late. -/
def delayedReport : List (LiveAction VesselId Unit) :=
  [.setVieport () square, .call (.processAis 500 [()] (shipAt 100 20)),
    .call (.processAis 500 [()] (shipAt 200 30)), .call (.processAis 500 [()] (shipAt 150 25))]

/-- The client is sent the two reports that came in time, and keeps the picture of the second. -/
theorem sent_reports_increase_delayedReport :
    ∃ s, run (attemptStep plane) oneView delayedReport = some s ∧
      ∃ reports : List (Enriched VesselId),
        (s.views.state ()).sent = reports.map messageOf ∧
          Increasing EnrichedPosition.identity EnrichedPosition.timestamp reports ∧
          (s.views.state ()).sent = [⟨⟨1⟩, 20, 50, 90⟩, ⟨⟨1⟩, 30, 50, 90⟩] := by
  obtain ⟨s, hrun⟩ : ∃ s, run (attemptStep plane) oneView delayedReport = some s :=
    Option.isSome_iff_exists.mp (by decide +kernel)
  have hsent : (run (attemptStep plane) oneView delayedReport).map
      (fun s => (s.views.state ()).sent) = some [⟨⟨1⟩, 20, 50, 90⟩, ⟨⟨1⟩, 30, 50, 90⟩] := by
    decide +kernel
  rw [hrun, Option.map_some] at hsent
  obtain ⟨reports, -, hreports, hincreasing, -⟩ :=
    sent_reports_increase plane .all 1000 {()} hrun ()
  exact ⟨s, hrun, reports, hreports, hincreasing, Option.some.inj hsent⟩

end CwatchBackend
