import CwatchBackend.Foundation.Truncation
import CwatchBackend.Process.View

/-!
# What a view knows of its client

The client keeps the last message of every vessel (`picture`).  A view knows this picture: its
`clientState` holds the same messages, and every cached pixel is the one that the viewport it was
cached for computes (`Remembers`).

`processDefault_cases` says what `processDefault` sends and what it suppresses; after a report the
client shows its position within the tolerances (`shows_of_processDefault`).
-/

namespace CwatchBackend

open Foundation

/-! ### Pixels of a viewport -/

/-- A number between two `int`s is cut towards zero. -/
theorem toInt_castInt {a b : Int32} {d : ℚ} (ha : (a.toInt : ℚ) ≤ d) (hb : d ≤ b.toInt) :
    (castInt d).toInt = truncate d := by
  obtain ⟨hlo, hhi⟩ := truncate_mem ha hb
  rw [castInt, ← truncate_eq_tdiv]
  exact Int32.toInt_ofIntClamp (a.minValue_le_toInt.trans hlo) (hhi.trans b.toInt_le)

/-- Casting a number between two `int`s stays between them. -/
theorem castInt_mem {a b : Int32} {d : ℚ} (ha : (a.toInt : ℚ) ≤ d) (hb : d ≤ b.toInt) :
    a.toInt ≤ (castInt d).toInt ∧ (castInt d).toInt ≤ b.toInt := by
  rw [toInt_castInt ha hb]
  exact truncate_mem ha hb

/-- The negative of an `int` that has one. -/
theorem toInt_neg_of_lt {z : Int32} (h : -z.toInt < 2 ^ 31) : (-z).toInt = -z.toInt := by
  have hlt := z.toInt_lt
  rw [Int32.toInt_neg]
  exact Int.bmod_eq_of_le (by omega) (by omega)

/-- Comparing the absolute value of an `int` with the tolerance: the least `int` has none, and
`Math.abs` leaves it negative. -/
theorem pixelTolerance_lt_abs {z : Int32} :
    pixelTolerance < z.abs ↔ pixelTolerance.toInt < |z.toInt| ∧ z.toInt ≠ -2 ^ 31 := by
  by_cases hmin : z.toInt = -2 ^ 31
  · obtain rfl : z = Int32.minValue := Int32.toInt_inj.mp hmin
    decide
  · have hne : z.toBitVec ≠ BitVec.intMin 32 := fun h => hmin (congrArg BitVec.toInt h)
    have habs : z.abs.toInt = |z.toInt| := by
      rw [Int.abs_eq_natAbs]
      exact BitVec.toInt_abs_eq_natAbs_of_ne_intMin hne
    rw [Int32.lt_iff_toInt_lt, habs]
    exact (and_iff_left hmin).symm

/-- Comparing the difference of two `int`s with the tolerance, where it does not overflow. -/
theorem pixelTolerance_lt_abs_iff {x y : Int32} (hspan : |x.toInt - y.toInt| < 2 ^ 31) :
    pixelTolerance < (x - y).abs ↔ pixelTolerance.toInt < |x.toInt - y.toInt| := by
  obtain ⟨hlo, hhi⟩ := abs_lt.mp hspan
  have hsub : (x - y).toInt = x.toInt - y.toInt := by
    rw [Int32.toInt_sub]
    exact Int.bmod_eq_of_le (by omega) (by omega)
  rw [pixelTolerance_lt_abs, hsub]
  exact and_iff_left (by omega)

/-- A viewport object has the bounds of its message. -/
theorem ClientViewport.eq_of_new {V : Type} {services : Services V} {reference : ℕ}
    {viewport : Viewport} {vp : ClientViewport}
    (h : ClientViewport.new services reference viewport = .ok vp) :
    ∃ transform, vp = {
      reference, transform
      minX := -viewport.margin
      minY := -viewport.margin
      maxX := viewport.width + viewport.margin
      maxY := viewport.height + viewport.margin } := by
  unfold ClientViewport.new at h
  cases hmatrix : GeneralMatrix.new viewport.matrix with
  | error => rw [hmatrix] at h; cases h
  | ok matrix4 =>
    cases hcrs : services.findMathTransform viewport.projection with
    | error => rw [hmatrix, hcrs] at h; cases h
    | ok crsTransform =>
      cases haffine : services.createAffineTransform (matrix3 matrix4) with
      | error =>
        rw [hmatrix, hcrs] at h
        simp only [bind, Except.bind, haffine] at h
        cases h
      | ok affineTransform =>
        rw [hmatrix, hcrs] at h
        simp only [bind, Except.bind, haffine] at h
        exact ⟨_, (Except.ok.inj h).symm⟩

/-- The bounds of a viewport do not overflow. -/
structure Viewport.BoundsFit (viewport : Viewport) : Prop where
  margin : -viewport.margin.toInt < 2 ^ 31
  maxX : -2 ^ 31 ≤ viewport.width.toInt + viewport.margin.toInt ∧
    viewport.width.toInt + viewport.margin.toInt < 2 ^ 31
  maxY : -2 ^ 31 ≤ viewport.height.toInt + viewport.margin.toInt ∧
    viewport.height.toInt + viewport.margin.toInt < 2 ^ 31

/-- The `int` arithmetic of a viewport does not overflow: neither its bounds nor the difference of
two pixels between them. -/
structure Viewport.NoOverflow (viewport : Viewport) : Prop where
  margin : -viewport.margin.toInt < 2 ^ 31
  maxX : -2 ^ 31 ≤ viewport.width.toInt + viewport.margin.toInt ∧
    viewport.width.toInt + viewport.margin.toInt < 2 ^ 31
  maxY : -2 ^ 31 ≤ viewport.height.toInt + viewport.margin.toInt ∧
    viewport.height.toInt + viewport.margin.toInt < 2 ^ 31
  spanX : viewport.width.toInt + 2 * viewport.margin.toInt < 2 ^ 31
  spanY : viewport.height.toInt + 2 * viewport.margin.toInt < 2 ^ 31

namespace ClientViewport

/-- The bounds are those of the map enlarged by the margin on all four sides. -/
structure Encloses (vp : ClientViewport) (viewport : Viewport) : Prop where
  minX : vp.minX.toInt = -viewport.margin.toInt
  maxX : vp.maxX.toInt = viewport.width.toInt + viewport.margin.toInt
  minY : vp.minY.toInt = -viewport.margin.toInt
  maxY : vp.maxY.toInt = viewport.height.toInt + viewport.margin.toInt

/-- Bounds that do not overflow are those of the map enlarged by the margin. -/
theorem encloses_of_new {V : Type} {services : Services V} {reference : ℕ} {viewport : Viewport}
    {vp : ClientViewport} (h : ClientViewport.new services reference viewport = .ok vp)
    (hfit : viewport.BoundsFit) : vp.Encloses viewport := by
  have hneg := toInt_neg_of_lt hfit.margin
  have hadd : ∀ a : Int32, -2 ^ 31 ≤ a.toInt + viewport.margin.toInt ∧
      a.toInt + viewport.margin.toInt < 2 ^ 31 →
      (a + viewport.margin).toInt = a.toInt + viewport.margin.toInt := by
    intro a ha
    rw [Int32.toInt_add]
    exact Int.bmod_eq_of_le (by omega) (by omega)
  obtain ⟨_, rfl⟩ := eq_of_new h
  exact ⟨hneg, hadd _ hfit.maxX, hneg, hadd _ hfit.maxY⟩

/-- Pixels between the bounds differ by less than `2 ^ 31`. -/
structure Spans (vp : ClientViewport) : Prop where
  x : vp.maxX.toInt - vp.minX.toInt < 2 ^ 31
  y : vp.maxY.toInt - vp.minY.toInt < 2 ^ 31

/-- The viewport of a message without overflow. -/
theorem spans_of_new {V : Type} {services : Services V} {reference : ℕ} {viewport : Viewport}
    {vp : ClientViewport} (h : ClientViewport.new services reference viewport = .ok vp)
    (hno : viewport.NoOverflow) : vp.Spans := by
  have hencloses := encloses_of_new h ⟨hno.margin, hno.maxX, hno.maxY⟩
  have hx := hno.spanX
  have hy := hno.spanY
  constructor
  · rw [hencloses.maxX, hencloses.minX]
    omega
  · rw [hencloses.maxY, hencloses.minY]
    omega

/-- A transformed point is visible if it lies between the bounds. -/
theorem visible_pixelOf_iff {vp : ClientViewport} {dst : ℚ × ℚ} :
    (vp.pixelOf dst).visible = true ↔
      ((vp.minX.toInt : ℚ) ≤ dst.1 ∧ dst.1 ≤ vp.maxX.toInt) ∧
        (vp.minY.toInt : ℚ) ≤ dst.2 ∧ dst.2 ≤ vp.maxY.toInt := by
  simp [pixelOf, and_assoc]

/-- The pixel of a point is the pixel of the transformed point. -/
theorem locatePixel_eq_ok {vp : ClientViewport} {latitude longitude : ℚ} {pixel : ClientPixel} :
    vp.locatePixel latitude longitude = .ok pixel ↔
      ∃ dst, vp.transform (latitude, longitude) = .ok dst ∧ vp.pixelOf dst = pixel := by
  unfold locatePixel
  cases vp.transform (latitude, longitude) <;> simp [Except.map]

/-- The pixel located is that of the transformed point. -/
theorem pixelOf_of_locatePixel {vp : ClientViewport} {latitude longitude : ℚ} {dst : ℚ × ℚ}
    {pixel : ClientPixel} (hdst : vp.transform (latitude, longitude) = .ok dst)
    (h : vp.locatePixel latitude longitude = .ok pixel) : vp.pixelOf dst = pixel := by
  obtain ⟨dst', hdst', hpixel⟩ := locatePixel_eq_ok.mp h
  obtain rfl := Except.ok.inj (hdst'.symm.trans hdst)
  exact hpixel

/-- A visible pixel lies between the bounds. -/
theorem mem_of_visible {vp : ClientViewport} {latitude longitude : ℚ} {pixel : ClientPixel}
    (h : vp.locatePixel latitude longitude = .ok pixel) (hvisible : pixel.visible = true) :
    (vp.minX.toInt ≤ pixel.x.toInt ∧ pixel.x.toInt ≤ vp.maxX.toInt) ∧
      (vp.minY.toInt ≤ pixel.y.toInt ∧ pixel.y.toInt ≤ vp.maxY.toInt) := by
  obtain ⟨dst, -, rfl⟩ := locatePixel_eq_ok.mp h
  obtain ⟨⟨hx, hx'⟩, hy, hy'⟩ := visible_pixelOf_iff.mp hvisible
  exact ⟨castInt_mem hx hx', castInt_mem hy hy'⟩

/-- A pixel is different from a visible one if it is not visible or more than the tolerance away. -/
theorem isDifferentThan_iff {vp : ClientViewport} (hspans : vp.Spans)
    {latitude longitude latitude' longitude' : ℚ} {pixel other : ClientPixel}
    (h : vp.locatePixel latitude longitude = .ok pixel)
    (h' : vp.locatePixel latitude' longitude' = .ok other) (hvisible : other.visible = true) :
    pixel.isDifferentThan other = true ↔ pixel.visible = false ∨
      pixelTolerance.toInt < |pixel.x.toInt - other.x.toInt| ∨
      pixelTolerance.toInt < |pixel.y.toInt - other.y.toInt| := by
  rw [ClientPixel.isDifferentThan, hvisible]
  cases hboth : pixel.visible with
  | false => simp
  | true =>
    obtain ⟨hpx, hpy⟩ := mem_of_visible h hboth
    obtain ⟨hox, hoy⟩ := mem_of_visible h' hvisible
    obtain ⟨hspanX, hspanY⟩ := hspans
    have hx : |pixel.x.toInt - other.x.toInt| < 2 ^ 31 := abs_lt.mpr ⟨by omega, by omega⟩
    have hy : |pixel.y.toInt - other.y.toInt| < 2 ^ 31 := abs_lt.mpr ⟨by omega, by omega⟩
    simp [pixelTolerance_lt_abs_iff hx, pixelTolerance_lt_abs_iff hy]

/-- Visible pixels that are not different are within the tolerance of each other. -/
theorem abs_sub_le_of_not_isDifferentThan {vp : ClientViewport} (hspans : vp.Spans)
    {latitude longitude latitude' longitude' : ℚ} {pixel other : ClientPixel}
    (h : vp.locatePixel latitude longitude = .ok pixel)
    (h' : vp.locatePixel latitude' longitude' = .ok other) (hvisible : other.visible = true)
    (hsame : pixel.isDifferentThan other = false) :
    pixel.visible = true ∧ |pixel.x.toInt - other.x.toInt| ≤ pixelTolerance.toInt ∧
      |pixel.y.toInt - other.y.toInt| ≤ pixelTolerance.toInt := by
  have hnot := (isDifferentThan_iff hspans h h' hvisible).not.mp (ne_true_of_eq_false hsame)
  simpa only [not_or, Bool.not_eq_false, not_lt] using hnot

end ClientViewport

/-! ### What a view remembers -/

section Picture

variable {V : Type} [DecidableEq V]

/-- The handler of the position messages in `main.js`: the vessel gets the new position. -/
def onMessage (vessels : V → Option (PositionMessage V)) (pos : PositionMessage V) :
    V → Option (PositionMessage V) :=
  Function.update vessels pos.identity (some pos)

/-- The picture of a client: the last message of every vessel. -/
def picture (messages : List (PositionMessage V)) : V → Option (PositionMessage V) :=
  messages.foldl onMessage fun _ => none

/-- The picture after a further message. -/
theorem picture_concat (messages : List (PositionMessage V)) (pos : PositionMessage V) :
    picture (messages ++ [pos]) = Function.update (picture messages) pos.identity (some pos) := by
  rw [picture, List.foldl_append]
  rfl

end Picture

namespace DefaultLatestPositionView

variable {V : Type} [DecidableEq V] {services : Services V} {view : DefaultLatestPositionView V}

/-- What the client has been sent of a vessel, as far as the view knows. -/
def message (view : DefaultLatestPositionView V) (v : V) : Option (PositionMessage V) :=
  (view.clientState v).map ClientPosition.toPositionMessage

/-- The pixel cached in a client position is the one that the viewport it was cached for computes,
if that is the current one. -/
def CachesCorrectly (view : DefaultLatestPositionView V) (cp : ClientPosition V) : Prop :=
  ∀ reference pixel, cp.cache = some (reference, pixel) → reference < view.viewports ∧
    ∀ vp, view.clientViewport = some vp → vp.reference = reference →
      vp.locatePixel cp.latitude cp.longitude = .ok pixel

/-- The view knows the picture of its client, and caches pixels correctly. -/
structure Remembers (view : DefaultLatestPositionView V) : Prop where
  picture : picture view.sent = view.message
  fresh : ∀ vp, view.clientViewport = some vp → vp.reference < view.viewports
  cached : ∀ v cp, view.clientState v = some cp → view.CachesCorrectly cp

/-- A new view remembers its empty picture. -/
theorem remembers_new : Remembers (new : DefaultLatestPositionView V) where
  picture := rfl
  fresh _ h := by cases h
  cached _ _ h := by cases h

/-- The entries of a map after the update of one of them. -/
theorem forall_update {P : ClientPosition V → Prop}
    {state : V → Option (ClientPosition V)} (h : ∀ v cp, state v = some cp → P cp) (u : V)
    {cp' : ClientPosition V} (hcp' : P cp') :
    ∀ v cp, Function.update state u (some cp') v = some cp → P cp := by
  refine (Function.forall_update_iff state fun _ o => ∀ cp, o = some cp → P cp).mpr
    ⟨fun cp hcp => ?_, fun v _ => h v⟩
  exact Option.some.inj hcp ▸ hcp'

/-- A viewport that has just been made has no cached pixels. -/
theorem Remembers.setVieport (h : Remembers view) (viewport : Viewport) :
    Remembers (view.setVieport services viewport).1 := by
  unfold DefaultLatestPositionView.setVieport
  split
  · next clientViewport hnew =>
    have hreference : clientViewport.reference = view.viewports := by
      obtain ⟨_, rfl⟩ := ClientViewport.eq_of_new hnew
      rfl
    refine ⟨h.picture, ?_, ?_⟩
    · intro vp hvp
      rw [← Option.some.inj hvp, hreference]
      exact Nat.lt_succ_self _
    · intro v cp hcp reference pixel hcache
      obtain ⟨hlt, -⟩ := h.cached v cp hcp reference pixel hcache
      refine ⟨Nat.lt_succ_of_lt hlt, fun vp hvp hvpref => ?_⟩
      rw [← Option.some.inj hvp, hreference] at hvpref
      omega
  · exact h

/-- What the view knows of the vessels after an update of one of them. -/
theorem message_update (view : DefaultLatestPositionView V) (v : V) (cp : ClientPosition V) :
    message { view with clientState := Function.update view.clientState v (some cp) } =
      Function.update view.message v (some cp.toPositionMessage) := by
  funext u
  by_cases hu : u = v
  · subst hu
    simp [message]
  · simp [message, Function.update_of_ne hu]

/-- A pixel cached in a client position is not part of what the view knows of the vessels. -/
theorem message_cache {v : V} {cp cp' : ClientPosition V} (hcp : view.clientState v = some cp)
    (hmessage : cp'.toPositionMessage = cp.toPositionMessage) :
    message { view with clientState := Function.update view.clientState v (some cp') } =
      view.message := by
  rw [message_update, hmessage]
  exact Function.update_eq_self_iff.mpr (by rw [message, hcp]; rfl)

/-- A message changes the picture and what the view knows of it alike. -/
theorem Remembers.sendToClient (h : Remembers view) (e : Enriched V) :
    Remembers (view.sendToClient services e).1 := by
  unfold DefaultLatestPositionView.sendToClient
  dsimp only
  split
  · refine ⟨?_, h.fresh, forall_update h.cached e.identity fun _ _ hcache => by cases hcache⟩
    rw [picture_concat, h.picture]
    exact (message_update view e.identity ⟨messageOf e, none⟩).symm
  · exact ⟨h.picture, h.fresh, h.cached⟩

/-- Locating a client position yields the pixel that the viewport computes for it, and caches it. -/
theorem Remembers.locateClient (h : Remembers view) {vp : ClientViewport}
    (hvp : view.clientViewport = some vp) {v : V} {cp cp' : ClientPosition V} {pixel : ClientPixel}
    (hcp : view.clientState v = some cp) (hlocate : vp.locateClient cp = .ok (pixel, cp')) :
    vp.locatePixel cp.latitude cp.longitude = .ok pixel ∧
      cp'.toPositionMessage = cp.toPositionMessage ∧ cp'.cache = some (vp.reference, pixel) := by
  obtain ⟨hmessage, hcache, hpixel | hcached⟩ := ClientViewport.locateClient_eq_ok hlocate
  · exact ⟨hpixel, hmessage, hcache⟩
  · obtain ⟨-, hcorrect⟩ := h.cached v cp hcp vp.reference pixel hcached
    exact ⟨hcorrect vp hvp rfl, hmessage, hcache⟩

/-- Caching a pixel changes nothing that the view remembers. -/
theorem Remembers.cache (h : Remembers view) {vp : ClientViewport}
    (hvp : view.clientViewport = some vp) {v : V} {cp cp' : ClientPosition V} {pixel : ClientPixel}
    (hcp : view.clientState v = some cp) (hlocate : vp.locateClient cp = .ok (pixel, cp')) :
    Remembers { view with clientState := Function.update view.clientState v (some cp') } ∧
      message { view with clientState := Function.update view.clientState v (some cp') } =
        view.message := by
  obtain ⟨hpixel, hmessage, hcache⟩ := h.locateClient hvp hcp hlocate
  have hsame : message { view with clientState := Function.update view.clientState v (some cp') } =
      view.message := message_cache hcp hmessage
  refine ⟨⟨h.picture.trans hsame.symm, h.fresh, forall_update h.cached v ?_⟩, hsame⟩
  intro reference pixel' hcache'
  obtain ⟨rfl, rfl⟩ := Prod.mk.inj (Option.some.inj (hcache.symm.trans hcache'))
  refine ⟨h.fresh vp hvp, fun vp' hvp' _ => ?_⟩
  obtain rfl := Option.some.inj (hvp.symm.trans hvp')
  rw [congrArg PositionMessage.latitude hmessage, congrArg PositionMessage.longitude hmessage]
  exact hpixel

/-! ### What a report does to a view -/

/-- Sending changes no viewport. -/
theorem clientViewport_sendToClient (view : DefaultLatestPositionView V) (e : Enriched V) :
    (view.sendToClient services e).1.clientViewport = view.clientViewport := by
  unfold DefaultLatestPositionView.sendToClient
  dsimp only
  split <;> rfl

/-- A message that has been sent is what the view knows of the vessel. -/
theorem message_sendToClient {e : Enriched V} (h : (view.sendToClient services e).2 = none) :
    (view.sendToClient services e).1.message =
      Function.update view.message e.identity (some (messageOf e)) := by
  unfold DefaultLatestPositionView.sendToClient at h ⊢
  dsimp only at h ⊢
  split
  · exact message_update view e.identity ⟨messageOf e, none⟩
  · next hthrows =>
    rw [hthrows] at h
    cases h

/-- What is kept by whatever is done with the pixel of a client position is kept by locating it
first. -/
theorem Remembers.withClientPixel (h : Remembers view) {vp : ClientViewport}
    (hvp : view.clientViewport = some vp) {v : V} {cp : ClientPosition V}
    (hcp : view.clientState v = some cp)
    {use : DefaultLatestPositionView V → ClientPixel →
      DefaultLatestPositionView V × Option Throwable}
    (huse : ∀ view' pixel, Remembers view' → view'.clientViewport = some vp →
      Remembers (use view' pixel).1 ∧ (use view' pixel).1.clientViewport = some vp) :
    Remembers (view.withClientPixel vp cp v use).1 ∧
      (view.withClientPixel vp cp v use).1.clientViewport = some vp := by
  unfold DefaultLatestPositionView.withClientPixel
  split
  · next pixel cp' hlocate =>
    exact huse _ pixel (h.cache hvp hcp hlocate).1 hvp
  · exact ⟨h, hvp⟩

/-- Locating a client position that returns normally yields its pixel. -/
theorem Remembers.withClientPixel_eq (h : Remembers view) {vp : ClientViewport}
    (hvp : view.clientViewport = some vp) {v : V} {cp : ClientPosition V}
    (hcp : view.clientState v = some cp)
    {use : DefaultLatestPositionView V → ClientPixel →
      DefaultLatestPositionView V × Option Throwable}
    (hreturns : (view.withClientPixel vp cp v use).2 = none) :
    ∃ view' pixel, view.withClientPixel vp cp v use = use view' pixel ∧
      view'.message = view.message ∧
      vp.locatePixel cp.latitude cp.longitude = .ok pixel := by
  unfold DefaultLatestPositionView.withClientPixel at hreturns ⊢
  cases hlocate : vp.locateClient cp with
  | error throwable =>
    rw [hlocate] at hreturns
    cases hreturns
  | ok located =>
    obtain ⟨pixel, cp'⟩ := located
    exact ⟨_, pixel, rfl, (h.cache hvp hcp hlocate).2, (h.locateClient hvp hcp hlocate).1⟩

/-- A report changes no viewport and leaves a view that remembers, whether it returns normally or
not. -/
theorem Remembers.processDefault (h : Remembers view) (e : Enriched V) :
    Remembers (view.processDefault services e).1 ∧
      (view.processDefault services e).1.clientViewport = view.clientViewport := by
  have hsend : ∀ view' : DefaultLatestPositionView V, Remembers view' →
      Remembers (view'.sendToClient services e).1 ∧
        (view'.sendToClient services e).1.clientViewport = view'.clientViewport :=
    fun view' h' => ⟨h'.sendToClient e, clientViewport_sendToClient view' e⟩
  unfold DefaultLatestPositionView.processDefault
  split
  · exact ⟨h, rfl⟩
  · next vp hvp =>
    dsimp only
    split
    · exact ⟨h, rfl⟩
    · split
      · exact hsend view h
      · next current hcurrent =>
        split
        · exact hsend view h
        · rw [hvp]
          apply h.withClientPixel hvp hcurrent
          intro view' pixel h' hvp'
          split
          · exact hvp' ▸ hsend view' h'
          · exact ⟨h', hvp'⟩
      · exact ⟨h, rfl⟩
      · next current hcurrent =>
        rw [hvp]
        apply h.withClientPixel hvp hcurrent
        intro view' pixel h' hvp'
        split
        · exact hvp' ▸ hsend view' h'
        · exact ⟨h', hvp'⟩

/-- A report that returns normally under a viewport is either sent, or suppressed: because the
client has the vessel at almost the same place with almost the same heading, or because neither the
report nor the position that the client has is visible. -/
theorem processDefault_cases (h : Remembers view) {vp : ClientViewport}
    (hvp : view.clientViewport = some vp) {e : Enriched V}
    (hreturns : (view.processDefault services e).2 = none) :
    ∃ newPixel, vp.locatePixel e.position.default.latitude e.position.default.longitude =
        .ok newPixel ∧
      ((view.processDefault services e).1.message =
          Function.update view.message e.identity (some (messageOf e)) ∨
        (view.processDefault services e).1.message = view.message ∧
          (newPixel.visible = true → ∃ cp pixel, view.message e.identity = some cp ∧
            fuzzyEquals e.position.default.heading cp.heading headingTolerance = true ∧
            vp.locatePixel cp.latitude cp.longitude = .ok pixel ∧
            pixel.isDifferentThan newPixel = false) ∧
          (newPixel.visible = false → ∀ cp, view.message e.identity = some cp →
            ∃ pixel, vp.locatePixel cp.latitude cp.longitude = .ok pixel ∧
              pixel.visible = false)) := by
  unfold DefaultLatestPositionView.processDefault at hreturns ⊢
  rw [hvp] at hreturns ⊢
  dsimp only at hreturns ⊢
  cases hpixel : vp.locatePixel e.position.default.latitude e.position.default.longitude with
  | error throwable =>
    rw [hpixel] at hreturns
    cases hreturns
  | ok newPixel =>
    rw [hpixel] at hreturns
    dsimp only at hreturns ⊢
    refine ⟨newPixel, rfl, ?_⟩
    cases hvisible : newPixel.visible <;> cases hcurrent : view.clientState e.identity
    all_goals simp only [hvisible, hcurrent] at hreturns ⊢
    case false.none =>
      have hmessage : view.message e.identity = none := by rw [message, hcurrent]; rfl
      exact Or.inr ⟨trivial, nofun, fun _ cp hcp => nomatch hmessage.symm.trans hcp⟩
    case false.some current =>
      have hmessage : view.message e.identity = some current.toPositionMessage := by
        rw [message, hcurrent]; rfl
      obtain ⟨view', pixel, huse, hsame, hlocate⟩ := h.withClientPixel_eq hvp hcurrent hreturns
      rw [huse] at hreturns ⊢
      split at hreturns
      · next hpixelVisible =>
        rw [if_pos hpixelVisible, message_sendToClient hreturns, hsame]
        exact Or.inl rfl
      · next hpixelVisible =>
        rw [if_neg hpixelVisible]
        refine Or.inr ⟨hsame, nofun, fun _ cp hcp => ?_⟩
        obtain rfl := Option.some.inj (hmessage.symm.trans hcp)
        exact ⟨pixel, hlocate, by simpa using hpixelVisible⟩
    case true.none => exact Or.inl (message_sendToClient hreturns)
    case true.some current =>
      have hmessage : view.message e.identity = some current.toPositionMessage := by
        rw [message, hcurrent]; rfl
      split at hreturns
      · next hheading =>
        rw [if_pos hheading]
        exact Or.inl (message_sendToClient hreturns)
      · next hheading =>
        rw [if_neg hheading]
        obtain ⟨view', pixel, huse, hsame, hlocate⟩ := h.withClientPixel_eq hvp hcurrent hreturns
        rw [huse] at hreturns ⊢
        split at hreturns
        · next hdifferent =>
          rw [if_pos hdifferent, message_sendToClient hreturns, hsame]
          exact Or.inl rfl
        · next hdifferent =>
          rw [if_neg hdifferent]
          refine Or.inr ⟨hsame, fun _ => ⟨_, pixel, hmessage, ?_, hlocate, ?_⟩, nofun⟩
          · simpa using hheading
          · simpa using hdifferent

/-- A report changes what the client has of its own vessel only. -/
theorem message_processDefault_of_ne (h : Remembers view) {vp : ClientViewport}
    (hvp : view.clientViewport = some vp) {e : Enriched V}
    (hreturns : (view.processDefault services e).2 = none) {v : V} (hv : v ≠ e.identity) :
    (view.processDefault services e).1.message v = view.message v := by
  obtain ⟨_, -, hsent | ⟨hsame, -⟩⟩ := processDefault_cases h hvp hreturns
  · rw [hsent, Function.update_of_ne hv]
  · rw [hsame]

/-- The client shows the position within the tolerances: a visible position at almost the same place
with almost the same heading, and one that is not visible not at all. -/
def Shows (vp : ClientViewport) (shown : Option (PositionMessage V)) (p : DefaultPosition) : Prop :=
  ∃ newPixel, vp.locatePixel p.latitude p.longitude = .ok newPixel ∧
    (newPixel.visible = true → ∃ cp pixel, shown = some cp ∧
      vp.locatePixel cp.latitude cp.longitude = .ok pixel ∧ pixel.visible = true ∧
      |pixel.x.toInt - newPixel.x.toInt| ≤ pixelTolerance.toInt ∧
      |pixel.y.toInt - newPixel.y.toInt| ≤ pixelTolerance.toInt ∧
      |cp.heading - p.heading| ≤ headingTolerance) ∧
    (newPixel.visible = false → ∀ cp, shown = some cp →
      ∃ pixel, vp.locatePixel cp.latitude cp.longitude = .ok pixel ∧ pixel.visible = false)

/-- After a report that returns normally the client shows its position within the tolerances. -/
theorem shows_of_processDefault (h : Remembers view) {vp : ClientViewport}
    (hvp : view.clientViewport = some vp) (hspans : vp.Spans) {e : Enriched V}
    (hreturns : (view.processDefault services e).2 = none) :
    Shows vp ((view.processDefault services e).1.message e.identity) e.position.default := by
  obtain ⟨newPixel, hpixel, hsent | ⟨hsame, hvisible, hinvisible⟩⟩ :=
    processDefault_cases h hvp hreturns
  · rw [hsent, Function.update_self]
    refine ⟨newPixel, hpixel, ?_, ?_⟩
    · intro hnew
      refine ⟨messageOf e, newPixel, rfl, hpixel, hnew, ?_⟩
      simp [messageOf, pixelTolerance, headingTolerance]
    · intro hnew cp hcp
      obtain rfl := Option.some.inj hcp
      exact ⟨newPixel, hpixel, hnew⟩
  · rw [hsame]
    refine ⟨newPixel, hpixel, fun hnew => ?_, hinvisible⟩
    obtain ⟨cp, pixel, hcp, hheading, hlocate, hsimilar⟩ := hvisible hnew
    obtain ⟨hpixelVisible, hx, hy⟩ :=
      ClientViewport.abs_sub_le_of_not_isDifferentThan hspans hlocate hpixel hnew hsimilar
    refine ⟨cp, pixel, hcp, hlocate, hpixelVisible, hx, hy, ?_⟩
    rw [abs_sub_comm]
    simp only [fuzzyEquals, Bool.or_eq_true, decide_eq_true_eq] at hheading
    rcases hheading with hheading | hheading
    · exact hheading
    · rw [hheading, sub_self, abs_zero]
      decide

end DefaultLatestPositionView

end CwatchBackend
