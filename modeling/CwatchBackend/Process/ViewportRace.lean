import CwatchBackend.Process.LivePicture
import CwatchBackend.Process.ViewDecision

/-!
# A viewport that is replaced during a report

`processDefault` runs in the thread of a report and `setVieport` in the thread of a websocket, and
nothing excludes one while the other is in progress.  `processDefault` reads the field
`clientViewport` up to three times: for the `null` test, for the pixel of the report and for the
pixel of what the client has been sent.  `raceStep` lets the new viewport come at any time between
these reads.

The call ends as if the new viewport had come before or after it, except that a new viewport that
comes between the last two reads lets pixels of two viewports be compared
(`viewport_change_atomic_iff`).
-/

namespace CwatchBackend

open Foundation

namespace DefaultLatestPositionView

variable {V : Type}

/-- Where a call of `processDefault` stands: before the `null` test, before the pixel of the report
is located, before that of the client position is, or at its end. -/
inductive Progress (V : Type) where
  | called
  | tested
  | located (newPixel : ClientPixel) (current : ClientPosition V)
  | returned (throwable : Option Throwable)

/-- One call of `processDefault` and one call of `setVieport`, and whether the latter is over. -/
structure Race (V : Type) where
  view : DefaultLatestPositionView V
  progress : Progress V
  replaced : Bool

/-- The threads of the two calls. -/
inductive RaceAction where
  | processDefault
  | setVieport
  deriving DecidableEq

/-- Both calls are about to begin. -/
def Race.start (view : DefaultLatestPositionView V) : Race V := ⟨view, .called, false⟩

/-- The call is over. -/
def Progress.isOver : Progress V → Bool
  | .returned _ => true
  | _ => false

/-- Both calls are over. -/
def Race.Finished (race : Race V) : Prop :=
  race.replaced = true ∧ race.progress.isOver = true

instance (race : Race V) : Decidable race.Finished := inferInstanceAs (Decidable (_ ∧ _))

/-- A call that has ended. -/
def returning (result : DefaultLatestPositionView V × Option Throwable) :
    DefaultLatestPositionView V × Progress V :=
  (result.1, .returned result.2)

variable [DecidableEq V] (services : Services V) (e : Enriched V) (viewport : Viewport)

/-- `processDefault(enrichedPosition)` from one read of `clientViewport` to the next. -/
def advance (view : DefaultLatestPositionView V) :
    Progress V → DefaultLatestPositionView V × Progress V
  | .called =>
    match view.clientViewport with
    | none => (view, .returned none)
    | some _ => (view, .tested)
  | .tested =>
    match view.clientViewport with
    | none => (view, .returned (some .nullPointerException))
    | some clientViewport =>
      let position := e.position.default
      match clientViewport.locatePixel position.latitude position.longitude with
      | .error throwable => (view, .returned (some throwable))
      | .ok newPixel =>
        match newPixel.visible, view.clientState e.identity with
        | true, none => returning (view.sendToClient services e)
        | true, some current =>
          if !fuzzyEquals position.heading current.heading headingTolerance then
            returning (view.sendToClient services e)
          else (view, .located newPixel current)
        | false, none => (view, .returned none)
        | false, some current => (view, .located newPixel current)
  | .located newPixel current =>
    match view.clientViewport with
    | none => (view, .returned (some .nullPointerException))
    | some clientViewport =>
      returning <| view.withClientPixel clientViewport current e.identity fun view pixel =>
        if newPixel.Changes pixel then view.sendToClient services e else (view, none)
  | .returned throwable => (view, .returned throwable)

/-- One step of one of the two calls. -/
def raceStep (race : Race V) : RaceAction → Option (Race V)
  | .processDefault =>
    match race.progress with
    | .returned _ => none
    | progress =>
      let next := advance services e race.view progress
      some { race with view := next.1, progress := next.2 }
  | .setVieport =>
    if race.replaced then none
    else some { race with view := (race.view.setVieport services viewport).1, replaced := true }

/-- The view after the report and then the new viewport. -/
def before (view : DefaultLatestPositionView V) : DefaultLatestPositionView V :=
  ((view.processDefault services e).1.setVieport services viewport).1

/-- The view after the new viewport and then the report. -/
def after (view : DefaultLatestPositionView V) : DefaultLatestPositionView V :=
  ((view.setVieport services viewport).1.processDefault services e).1

/-- The client has been sent the same messages, and the view has recorded the same. -/
def Agree (view view' : DefaultLatestPositionView V) : Prop :=
  view.sent = view'.sent ∧ view.message = view'.message

/-- If the viewport is replaced between the two pixels, the pixel of the report in the old viewport
differs from that of the client position in the new viewport exactly if it differs from the one in
the old viewport, or exactly if the report is to be sent in the new viewport. -/
def Untorn (race : Race V) (action : RaceAction) : Prop :=
  action = .setVieport → ∀ newPixel current vp vp', race.progress = .located newPixel current →
    race.view.clientViewport = some vp →
    ClientViewport.new services race.view.viewports viewport = .ok vp' →
    Accepted services race.view e = true →
    vp'.Changes newPixel current = vp.Changes newPixel current ∨
      vp'.Changes newPixel current = vp'.Sends vp' e (some current)

/-! ### A call that is not disturbed -/

/-- The rest of a call of `processDefault`, without interference. -/
def rest (s : DefaultLatestPositionView V × Progress V) :
    DefaultLatestPositionView V × Progress V :=
  let next := fun s : DefaultLatestPositionView V × Progress V => advance services e s.1 s.2
  next (next (next s))

/-- The number of reads of `clientViewport` that may still come. -/
def Progress.reads : Progress V → ℕ
  | .called => 3
  | .tested => 2
  | .located _ _ => 1
  | .returned _ => 0

variable {services e viewport} {view view' view₀ : DefaultLatestPositionView V}

/-- Every step of the call leaves fewer reads. -/
theorem reads_advance (services : Services V) (e : Enriched V)
    (s : DefaultLatestPositionView V × Progress V) :
    (advance services e s.1 s.2).2.reads ≤ s.2.reads - 1 := by
  obtain ⟨view, p⟩ := s
  cases p with
  | returned throwable => exact le_rfl
  | located newPixel current =>
    simp only [advance]
    split <;> exact le_rfl
  | called =>
    simp only [advance]
    split <;> simp [Progress.reads]
  | tested =>
    simp only [advance]
    split
    · simp [Progress.reads]
    · split
      · simp [Progress.reads]
      · split
        · simp [Progress.reads, returning]
        · split <;> simp [Progress.reads, returning]
        · simp [Progress.reads]
        · simp [Progress.reads]

/-- A call without reads to come is over. -/
theorem advance_of_reads_eq_zero {p : Progress V} (h : p.reads = 0) :
    advance services e view p = (view, p) := by
  cases p with
  | returned throwable => rfl
  | _ => cases h

/-- Nothing is left of a call that is over. -/
theorem rest_of_reads_eq_zero {p : Progress V} (h : p.reads = 0) :
    rest services e (view, p) = (view, p) := by
  simp only [rest, advance_of_reads_eq_zero h]

/-- A step of the call does not change what the whole call does. -/
theorem rest_advance (p : Progress V) :
    rest services e (advance services e view p) = rest services e (view, p) := by
  have hreads : (rest services e (view, p)).2.reads = 0 := by
    have h₁ := reads_advance services e (view, p)
    have h₂ := reads_advance services e (advance services e view p)
    have h₃ := reads_advance services e
      (advance services e (advance services e view p).1 (advance services e view p).2)
    have hp : p.reads ≤ 3 := by cases p <;> simp [Progress.reads]
    simp only [rest] at h₁ h₂ h₃ ⊢
    omega
  exact advance_of_reads_eq_zero hreads

/-- A whole call is `processDefault`. -/
theorem rest_called :
    rest services e (view, .called) = returning (view.processDefault services e) := by
  unfold DefaultLatestPositionView.processDefault
  cases hvp : view.clientViewport with
  | none => simp only [rest, advance, hvp, returning]
  | some vp =>
    simp only [rest, advance, hvp]
    cases vp.locatePixel e.position.default.latitude e.position.default.longitude with
    | error throwable => rfl
    | ok newPixel =>
      cases hvisible : newPixel.visible <;> cases view.clientState e.identity
      case false.none => simp only [hvisible, returning]
      case false.some current =>
        simp only [hvisible, hvp, returning, ClientPixel.Changes]
        rfl
      case true.none => simp only [hvisible, returning]
      case true.some current =>
        simp only [hvisible]
        cases fuzzyEquals e.position.default.heading current.heading headingTolerance with
        | false => simp only [Bool.not_false, if_true, returning]
        | true =>
          simp only [Bool.not_true, Bool.false_eq_true, if_false, hvp, returning,
            ClientPixel.Changes, hvisible, if_true]

/-! ### The view until the viewport is replaced -/

/-- What is known of a call that was made for the view `view₀` and has not been disturbed: until it
sends or caches a pixel the view is as it was, and the rest of the call is that of a whole call. -/
structure Reached (services : Services V) (e : Enriched V) (view₀ : DefaultLatestPositionView V)
    (s : DefaultLatestPositionView V × Progress V) : Prop where
  rest_eq : rest services e s = rest services e (view₀, .called)
  called : s.2 = .called → s.1 = view₀
  tested : s.2 = .tested → s.1 = view₀ ∧ ∃ vp, view₀.clientViewport = some vp
  located : ∀ newPixel current, s.2 = .located newPixel current →
    s.1 = view₀ ∧ view₀.clientState e.identity = some current ∧
      (newPixel.visible && Turned e current) = false ∧
      ∃ vp, view₀.clientViewport = some vp ∧ vp.reportPixel e = .ok newPixel

/-- A call that has just been made. -/
theorem reached_called : Reached services e view₀ (view₀, .called) where
  rest_eq := rfl
  called _ := rfl
  tested h := by cases h
  located _ _ h := by cases h

/-- A call is left unchanged by its own end. -/
theorem Reached.of_returned {throwable : Option Throwable}
    (h : rest services e (view, .returned throwable) = rest services e (view₀, .called)) :
    Reached services e view₀ (view, .returned throwable) where
  rest_eq := h
  called h := by cases h
  tested h := by cases h
  located _ _ h := by cases h

/-- A call that has located the report, and has found that the heading does not decide. -/
theorem Reached.of_located {vp : ClientViewport} (hvp : view.clientViewport = some vp)
    {newPixel : ClientPixel} (hpixel : vp.reportPixel e = .ok newPixel)
    {current : ClientPosition V} (hcurrent : view.clientState e.identity = some current)
    (hturned : (newPixel.visible && Turned e current) = false)
    (hrest : rest services e (view, .located newPixel current) =
      rest services e (view, .called)) :
    Reached services e view (view, .located newPixel current) := by
  refine ⟨hrest, nofun, nofun, fun newPixel' current' heq => ?_⟩
  obtain ⟨rfl, rfl⟩ := Progress.located.inj heq
  exact ⟨rfl, hcurrent, hturned, vp, hvp, hpixel⟩

/-- The next step of a call that has not been disturbed. -/
theorem Reached.advance {s : DefaultLatestPositionView V × Progress V}
    (h : Reached services e view₀ s) :
    Reached services e view₀ (advance services e s.1 s.2) := by
  have hrest := (rest_advance s.2).trans h.rest_eq
  obtain ⟨view, p⟩ := s
  cases p with
  | returned throwable => exact h
  | located newPixel current =>
    simp only [DefaultLatestPositionView.advance] at hrest ⊢
    split at hrest
    · exact .of_returned hrest
    · exact .of_returned hrest
  | called =>
    obtain rfl : view = view₀ := h.called rfl
    simp only [DefaultLatestPositionView.advance] at hrest ⊢
    cases hvp : view.clientViewport with
    | none =>
      rw [hvp] at hrest
      exact .of_returned hrest
    | some vp =>
      rw [hvp] at hrest
      exact ⟨hrest, nofun, fun _ => ⟨rfl, vp, hvp⟩, nofun⟩
  | tested =>
    obtain ⟨rfl, vp, hvp⟩ : view = view₀ ∧ _ := h.tested rfl
    simp only [DefaultLatestPositionView.advance, hvp] at hrest ⊢
    cases hpixel : vp.locatePixel e.position.default.latitude e.position.default.longitude with
    | error throwable =>
      rw [hpixel] at hrest
      exact .of_returned hrest
    | ok newPixel =>
      rw [hpixel] at hrest
      cases hvisible : newPixel.visible <;> cases hcurrent : view.clientState e.identity
      all_goals simp only [hvisible, hcurrent] at hrest ⊢
      case false.none => exact .of_returned hrest
      case false.some current =>
        have hturned : (newPixel.visible && Turned e current) = false := by
          rw [hvisible, Bool.false_and]
        exact .of_located hvp hpixel hcurrent hturned hrest
      case true.none => exact .of_returned hrest
      case true.some current =>
        cases hturned : Turned e current with
        | true =>
          rw [Turned] at hturned
          rw [if_pos hturned] at hrest ⊢
          exact .of_returned hrest
        | false =>
          have hnot : ¬ (!fuzzyEquals e.position.default.heading current.heading
              headingTolerance) = true := by rw [← Turned, hturned]; exact Bool.false_ne_true
          rw [if_neg hnot] at hrest ⊢
          have hturned' : (newPixel.visible && Turned e current) = false := by
            rw [hturned, Bool.and_false]
          exact .of_located hvp hpixel hcurrent hturned' hrest

/-- A step of the call in the thread of the report. -/
theorem raceStep_processDefault {race race' : Race V}
    (h : raceStep services e viewport race .processDefault = some race') :
    (race'.view, race'.progress) = advance services e race.view race.progress ∧
      race'.replaced = race.replaced := by
  unfold raceStep at h
  split at h
  · split at h
    · cases h
    · obtain rfl := Option.some.inj h
      exact ⟨rfl, rfl⟩
  · next heq => cases heq

/-- The step of the websocket. -/
theorem raceStep_setVieport {race race' : Race V}
    (h : raceStep services e viewport race .setVieport = some race') :
    race.replaced = false ∧
      race' = { race with
        view := (race.view.setVieport services viewport).1
        replaced := true } := by
  unfold raceStep at h
  split at h
  · next heq => cases heq
  · split at h
    · cases h
    · next hreplaced => exact ⟨by simpa using hreplaced, (Option.some.inj h).symm⟩

/-- Until the viewport is replaced the call is not disturbed. -/
theorem reached_of_run {actions : List RaceAction} {race : Race V}
    (hrun : run (raceStep services e viewport) (Race.start view₀) actions = some race)
    (hreplaced : race.replaced = false) :
    Reached services e view₀ (race.view, race.progress) := by
  refine run_invariant_of_step (I := fun race => race.replaced = false →
    Reached services e view₀ (race.view, race.progress)) ?_ (fun _ => reached_called) hrun hreplaced
  intro race action race' hrace hstep hreplaced
  cases action with
  | processDefault =>
    obtain ⟨hview, hsame⟩ := raceStep_processDefault hstep
    rw [hview]
    exact (hrace (hsame ▸ hreplaced)).advance
  | setVieport =>
    obtain ⟨-, rfl⟩ := raceStep_setVieport hstep
    cases hreplaced

/-- After the viewport has been replaced the rest of the call is not disturbed. -/
theorem rest_of_run {actions : List RaceAction} {race race' : Race V}
    (hreplaced : race.replaced = true)
    (hrun : run (raceStep services e viewport) race actions = some race') :
    rest services e (race'.view, race'.progress) =
      rest services e (race.view, race.progress) := by
  have hboth := run_invariant_of_step (I := fun race' : Race V => race'.replaced = true ∧
    rest services e (race'.view, race'.progress) =
      rest services e (race.view, race.progress)) ?_ ⟨hreplaced, rfl⟩ hrun
  · exact hboth.2
  · rintro s action t ⟨hs, hrest⟩ hstep
    cases action with
    | processDefault =>
      obtain ⟨hview, hsame⟩ := raceStep_processDefault hstep
      rw [hview, rest_advance]
      exact ⟨hsame.trans hs, hrest⟩
    | setVieport =>
      obtain ⟨hfalse, -⟩ := raceStep_setVieport hstep
      rw [hs] at hfalse
      cases hfalse

/-! ### The view at the end -/

omit [DecidableEq V] in
/-- What is equal agrees. -/
theorem Agree.of_eq (h : view = view') : Agree view view' := h ▸ ⟨rfl, rfl⟩

omit [DecidableEq V] in
/-- A new viewport sends nothing and records nothing. -/
theorem agree_setVieport (services : Services V) (view : DefaultLatestPositionView V)
    (viewport : Viewport) : Agree (view.setVieport services viewport).1 view := by
  rcases setVieport_cases services view viewport with hsame | ⟨vp, -, hset⟩
  · rw [hsame]
    exact ⟨rfl, rfl⟩
  · rw [hset]
    exact ⟨rfl, rfl⟩

/-- The outcome of a report depends only on what the client has been sent and what the view has
recorded. -/
theorem Outcome.congr {sends : Bool} {view view' result result' : DefaultLatestPositionView V}
    (h : Outcome sends view result e) (hview : Agree view view') (hresult : Agree result' result) :
    Outcome sends view' result' e := by
  obtain ⟨hsent, hmessage⟩ := hview
  obtain ⟨hsent', hmessage'⟩ := hresult
  cases sends with
  | true =>
    have h : Sent view result e := h
    refine (⟨?_, ?_⟩ : Sent view' result' e)
    · rw [hsent', h.sent, hsent]
    · rw [hmessage', h.message, hmessage]
  | false =>
    have h : Unsent view result := h
    exact (⟨hsent'.trans (h.sent.trans hsent), hmessage'.trans (h.message.trans hmessage)⟩ :
      Unsent view' result')

/-- A call that has not located the report, or whose view gets no new viewport, ends as if the
viewport had been replaced after it or before it. -/
theorem Reached.rest_setVieport {s : DefaultLatestPositionView V × Progress V}
    (h : Reached services e view₀ s)
    (hwhole : (s.1.setVieport services viewport).1 = s.1 ∨
      ∀ newPixel current, s.2 ≠ .located newPixel current) :
    (rest services e ((s.1.setVieport services viewport).1, s.2)).1 =
        before services e viewport view₀ ∨
      (rest services e ((s.1.setVieport services viewport).1, s.2)).1 =
        after services e viewport view₀ := by
  obtain ⟨view, p⟩ := s
  cases p with
  | returned throwable =>
    -- The call has ended.
    have hview : (view, .returned throwable) = returning (view₀.processDefault services e) := by
      rw [← rest_called, ← h.rest_eq]
      rfl
    obtain ⟨rfl, -⟩ := Prod.mk.inj hview
    exact Or.inl rfl
  | called =>
    -- The call has not read the viewport yet.
    obtain rfl : view = view₀ := h.called rfl
    rw [rest_called]
    exact Or.inr rfl
  | tested =>
    -- A viewport that is not `null` is replaced by another one.
    obtain ⟨rfl, vp, hvp⟩ : view = view₀ ∧ _ := h.tested rfl
    have htested : DefaultLatestPositionView.advance services e
        (view.setVieport services viewport).1 .called =
          ((view.setVieport services viewport).1, .tested) := by
      rcases setVieport_cases services view viewport with hsame | ⟨vp', -, hset⟩
      · simp only [hsame, DefaultLatestPositionView.advance, hvp]
      · simp only [hset, DefaultLatestPositionView.advance]
    rw [← htested, rest_advance, rest_called]
    exact Or.inr rfl
  | located newPixel current =>
    -- The new viewport could not be made.
    obtain ⟨rfl, -⟩ : view = view₀ ∧ _ := h.located newPixel current rfl
    have hsame : (view.setVieport services viewport).1 = view :=
      hwhole.resolve_right fun hnot => hnot newPixel current rfl
    have hrest : rest services e (view, .located newPixel current) =
        returning (view.processDefault services e) := h.rest_eq.trans rest_called
    rw [after, hsame, hrest]
    exact Or.inr rfl

/-- Once the report has been located its pixel decides, whatever the viewport in which the client
position is going to be located. -/
theorem Reached.sends_eq {s : DefaultLatestPositionView V × Progress V}
    (h : Reached services e view₀ s) {newPixel : ClientPixel} {current : ClientPosition V}
    (hlocated : s.2 = .located newPixel current) {vp : ClientViewport}
    (hvp : view₀.clientViewport = some vp) (vp' : ClientViewport) :
    vp.Sends vp' e (some current) = vp'.Changes newPixel current := by
  obtain ⟨-, -, hturned, vp₀, hvp₀, hpixel⟩ := h.located newPixel current hlocated
  obtain rfl := Option.some.inj (hvp.symm.trans hvp₀)
  simp only [ClientViewport.Sends, hpixel, hturned, Bool.false_or]

/-- A call that has located the report compares its pixel with one in the new viewport. -/
theorem Reached.outcome_torn {s : DefaultLatestPositionView V × Progress V}
    (h : Reached services e view₀ s) {newPixel : ClientPixel} {current : ClientPosition V}
    (hlocated : s.2 = .located newPixel current) {vp' : ClientViewport}
    (hnew : ClientViewport.new services view₀.viewports viewport = .ok vp') :
    Outcome (vp'.Changes newPixel current && Accepted services view₀ e) view₀
      (rest services e ((s.1.setVieport services viewport).1, s.2)).1 e := by
  obtain ⟨hview, hcurrent, -⟩ := h.located newPixel current hlocated
  have hset : (view₀.setVieport services viewport).1 =
      { view₀ with clientViewport := some vp', viewports := view₀.viewports + 1 } := by
    simp only [DefaultLatestPositionView.setVieport, hnew]
  rw [hview, hlocated, hset]
  exact (outcome_withClientPixel { view₀ with
      clientViewport := some vp', viewports := view₀.viewports + 1 } hcurrent vp' newPixel
    fun _ _ => rfl).congr ⟨rfl, rfl⟩ ⟨rfl, rfl⟩

/-- The outcome of the report before the new viewport. -/
theorem outcome_before (services : Services V) (view : DefaultLatestPositionView V)
    (e : Enriched V) (viewport : Viewport) {vp : ClientViewport}
    (hvp : view.clientViewport = some vp) :
    Outcome (vp.Sends vp e (view.clientState e.identity) && Accepted services view e) view
      (before services e viewport view) e :=
  (outcome_processDefault services view e hvp).congr ⟨rfl, rfl⟩ (agree_setVieport _ _ _)

/-- The outcome of the report after the new viewport. -/
theorem outcome_after (services : Services V) (view : DefaultLatestPositionView V)
    (e : Enriched V) (viewport : Viewport) {vp : ClientViewport}
    (hnew : ClientViewport.new services view.viewports viewport = .ok vp) :
    Outcome (vp.Sends vp e (view.clientState e.identity) && Accepted services view e) view
      (after services e viewport view) e := by
  have hset : (view.setVieport services viewport).1 =
      { view with clientViewport := some vp, viewports := view.viewports + 1 } := by
    simp only [DefaultLatestPositionView.setVieport, hnew]
  rw [after, hset]
  exact (outcome_processDefault services { view with
    clientViewport := some vp, viewports := view.viewports + 1 } e rfl).congr ⟨rfl, rfl⟩ ⟨rfl, rfl⟩

/-- A call that has located the report ends as if the viewport had been replaced after it or before
it, if and only if the mixed comparison decides as one of the others does or nothing can be sent. -/
theorem Reached.agree_iff {s : DefaultLatestPositionView V × Progress V}
    (h : Reached services e view₀ s) {newPixel : ClientPixel} {current : ClientPosition V}
    (hlocated : s.2 = .located newPixel current) {vp vp' : ClientViewport}
    (hvp : view₀.clientViewport = some vp)
    (hnew : ClientViewport.new services view₀.viewports viewport = .ok vp') :
    (Agree (rest services e ((s.1.setVieport services viewport).1, s.2)).1
          (before services e viewport view₀) ∨
        Agree (rest services e ((s.1.setVieport services viewport).1, s.2)).1
          (after services e viewport view₀)) ↔
      (Accepted services view₀ e = true →
        vp'.Changes newPixel current = vp.Changes newPixel current ∨
          vp'.Changes newPixel current = vp'.Sends vp' e (some current)) := by
  obtain ⟨-, hcurrent, -⟩ := h.located newPixel current hlocated
  have htorn := h.outcome_torn hlocated hnew
  have hbefore := htorn.agree_iff (outcome_before services view₀ e viewport hvp)
  have hafter := htorn.agree_iff (outcome_after services view₀ e viewport hnew)
  rw [hcurrent] at hbefore hafter
  rw [h.sends_eq hlocated hvp] at hbefore
  rw [Agree, Agree, hbefore, hafter]
  cases Accepted services view₀ e <;> simp

/-- As long as the websocket makes no step the viewport is not replaced. -/
theorem replaced_of_run {actions : List RaceAction} {race : Race V}
    (hrun : run (raceStep services e viewport) (Race.start view₀) actions = some race)
    (hnot : RaceAction.setVieport ∉ actions) : race.replaced = false := by
  refine run_invariant (P := fun _ action => action = .processDefault)
    (I := fun race => race.replaced = false) ?_ rfl ?_ hrun
  · rintro race action race' hrace rfl hstep
    exact (raceStep_processDefault hstep).2.trans hrace
  · rintro pre action post rfl - -
    cases action with
    | processDefault => rfl
    | setVieport => exact absurd (by simp) hnot

/-- The end of a run, seen from the step of the websocket: the call has not been disturbed before
it, and does the rest of its work under the new viewport. -/
theorem view_of_run {pre post : List RaceAction} {race swapped : Race V}
    (hrun : run (raceStep services e viewport) (Race.start view)
      (pre ++ .setVieport :: post) = some race)
    (hreads : race.progress.reads = 0)
    (hpre : run (raceStep services e viewport) (Race.start view) pre = some swapped) :
    Reached services e view (swapped.view, swapped.progress) ∧
      race.view = (rest services e
        ((swapped.view.setVieport services viewport).1, swapped.progress)).1 := by
  obtain ⟨swapped', hpre', hpost⟩ := run_append.mp hrun
  obtain rfl := Option.some.inj (hpre.symm.trans hpre')
  obtain ⟨race', hstep, hpost⟩ := run_cons.mp hpost
  obtain ⟨hnot, rfl⟩ := raceStep_setVieport hstep
  have hrest := rest_of_run rfl hpost
  rw [rest_of_reads_eq_zero hreads] at hrest
  exact ⟨reached_of_run hpre hnot, congrArg Prod.fst hrest⟩

/-- A report and a new viewport, interleaved in any way, end as if one of them had come after the
other, if and only if the viewport is not replaced between the two pixels in such a way that the
comparison across the two viewports decides differently from the comparisons in both of them. -/
theorem viewport_change_atomic_iff (services : Services V) (view : DefaultLatestPositionView V)
    (e : Enriched V) (viewport : Viewport) (actions : List RaceAction) (race : Race V)
    (hrun : run (raceStep services e viewport) (Race.start view) actions = some race)
    (hfinished : race.Finished) :
    (Agree race.view (before services e viewport view) ∨
        Agree race.view (after services e viewport view)) ↔
      StepsMeet (raceStep services e viewport) (Untorn services e viewport) (Race.start view)
        actions := by
  obtain ⟨hreplaced, hover⟩ := hfinished
  have hreads : race.progress.reads = 0 := by
    cases hprogress : race.progress with
    | returned throwable => rfl
    | _ => rw [hprogress] at hover; cases hover
  constructor
  · rintro hagree pre action post rfl swapped hpre rfl newPixel current vp vp' hlocated hvp hnew
    obtain ⟨hreached, hview⟩ := view_of_run hrun hreads hpre
    obtain ⟨hsame, -⟩ : swapped.view = view ∧ _ := hreached.located newPixel current hlocated
    rw [hsame] at hvp hnew ⊢
    rw [hview] at hagree
    exact (hreached.agree_iff hlocated hvp hnew).mp hagree
  · intro hmeet
    have hmem : RaceAction.setVieport ∈ actions := by
      by_contra hnot
      have hfalse := replaced_of_run hrun hnot
      rw [hreplaced] at hfalse
      cases hfalse
    obtain ⟨pre, post, rfl⟩ := List.append_of_mem hmem
    obtain ⟨swapped, hpre, -⟩ := run_append.mp hrun
    obtain ⟨hreached, hview⟩ := view_of_run hrun hreads hpre
    have huntorn := hmeet pre .setVieport post rfl swapped hpre rfl
    rw [hview]
    by_cases hwhole : (swapped.view.setVieport services viewport).1 = swapped.view ∨
        ∀ newPixel current, swapped.progress ≠ .located newPixel current
    · exact (hreached.rest_setVieport hwhole).imp Agree.of_eq Agree.of_eq
    · push Not at hwhole
      obtain ⟨hset, newPixel, current, hlocated⟩ := hwhole
      obtain ⟨hsame, -, -, vp, hvp, -⟩ : swapped.view = view ∧ _ :=
        hreached.located newPixel current hlocated
      rw [hsame] at hset huntorn
      rcases setVieport_cases services view viewport with hfails | ⟨vp', hnew, -⟩
      · exact absurd hfails hset
      · exact (hreached.agree_iff hlocated hvp hnew).mpr
          (huntorn newPixel current vp vp' hlocated hvp hnew)

/-! ### A report that is lost -/

/-- The viewport `square`, moved by ten pixels. -/
def moved : Viewport := { square with matrix := [1, 0, 0, 0, 0, 1, 0, 0, 0, 0, 1, 0, 10, 0, 0, 1] }

/-- A view with the viewport `square` whose client has been sent the ship at the latitude `20`. -/
def shipShown : DefaultLatestPositionView VesselId :=
  ((new.setVieport (plane ()) square).1.processDefault (plane ())
    (.ofSource .ais (shipAt 100 20))).1

/-- The ship reports the latitude `30`. -/
def shipMoves : Enriched VesselId := .ofSource .ais (shipAt 200 30)

/-- The new viewport comes before the report has been read at all. -/
def movedFirst : List RaceAction :=
  [.setVieport, .processDefault, .processDefault, .processDefault]

/-- The end of that run. -/
def shipSent : Race VesselId :=
  (run (raceStep (plane ()) shipMoves moved) (Race.start shipShown) movedFirst).get
    (by decide +kernel)

/-- The two calls end as if one had come after the other. -/
theorem viewport_change_atomic_movedFirst :
    Agree shipSent.view (before (plane ()) shipMoves moved shipShown) ∨
      Agree shipSent.view (after (plane ()) shipMoves moved shipShown) := by
  refine (viewport_change_atomic_iff (plane ()) shipShown shipMoves moved movedFirst shipSent
    (Option.some_get _).symm (by decide +kernel)).mpr ?_
  rintro (_ | ⟨action₀, pre⟩) action post hactions race hpre rfl newPixel current vp vp' hlocated
  · obtain rfl := Option.some.inj hpre
    cases hlocated
  · rw [movedFirst, List.cons_append, List.cons.injEq] at hactions
    have hmem : RaceAction.setVieport ∈ [RaceAction.processDefault, .processDefault,
        .processDefault] := by rw [hactions.2]; simp
    exact absurd hmem (by decide)

/-- The new viewport comes between the pixel of the report and that of the client position. -/
def movedBetween : List RaceAction :=
  [.processDefault, .processDefault, .setVieport, .processDefault]

/-- The report is sent when it comes before the new viewport and when it comes after it, but not
when the new viewport comes between its two pixels: the new place of the ship in the old viewport
is the old place of the ship in the new one. -/
theorem viewport_change_not_atomic :
    ∃ race, run (raceStep (plane ()) shipMoves moved) (Race.start shipShown) movedBetween =
        some race ∧ race.Finished ∧
      ¬ Agree race.view (before (plane ()) shipMoves moved shipShown) ∧
      ¬ Agree race.view (after (plane ()) shipMoves moved shipShown) := by
  refine ⟨_, (Option.some_get (by decide +kernel)).symm, by decide +kernel, fun h => ?_,
    fun h => ?_⟩
  · exact absurd (congrArg List.length h.1) (by decide +kernel)
  · exact absurd (congrArg List.length h.1) (by decide +kernel)

end DefaultLatestPositionView

end CwatchBackend
