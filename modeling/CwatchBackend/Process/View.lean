import CwatchBackend.Process.Profile
import Mathlib.Algebra.Order.Ring.Rat
import Mathlib.Algebra.Order.Ring.Abs

/-!
# The view of one client

`process.DefaultLatestPositionView`: a view knows the viewport of its client and what the client has
been sent of every vessel, and sends a report only if the picture of the client has to change.

The projections and the affine transforms come from GeoTools, and the messages go out through the
messaging template of Spring; all of them are `Services` here, and may throw.  A call that throws
keeps what it has done before, so a call yields a state and what it throws.
-/

namespace CwatchBackend

/-- `LatestPositionView.Viewport`: the viewport message of a client. -/
structure Viewport where
  matrix : List ℚ
  margin : Int32
  height : Int32
  width : Int32
  projection : String

/-- `MathTransform`: a transformed point, or what the transform throws. -/
abbrev MathTransform : Type := ℚ × ℚ → Except Throwable (ℚ × ℚ)

/-- What a client is sent of a position: the fields `id`, `lat`, `lon` and `hdg`. -/
structure PositionMessage (V : Type) where
  identity : V
  latitude : ℚ
  longitude : ℚ
  heading : ℚ
  deriving DecidableEq

/-- The libraries that a view uses.  `findMathTransform` decodes a projection and finds the
transform from the coordinates of the positions to it; `convertAndSend n` is what sending the `n`-th
message of the view throws. -/
structure Services (V : Type) where
  findMathTransform : String → Except Throwable MathTransform
  createAffineTransform : (Fin 3 → Fin 3 → ℚ) → Except Throwable MathTransform
  convertAndSend : ℕ → PositionMessage V → Option Throwable

/-! ### Pixels -/

/-- `HEADING_TOLERANCE`. -/
def headingTolerance : ℚ := 5

/-- `PIXEL_TOLERANCE`. -/
def pixelTolerance : Int32 := 1

/-- `DoubleMath.fuzzyEquals(a, b, tolerance)`. -/
def fuzzyEquals (a b tolerance : ℚ) : Bool := |a - b| ≤ tolerance || a = b

/-- The cast `(int) d`: towards zero, and to the nearest `int` beyond the range of `int`. -/
def castInt (d : ℚ) : Int32 := Int32.ofIntClamp (d.num.tdiv d.den)

/-- `ClientPixel`. -/
structure ClientPixel where
  visible : Bool
  x : Int32
  y : Int32
  deriving DecidableEq

/-- `isDifferentThan(other)`. -/
def ClientPixel.isDifferentThan (pixel other : ClientPixel) : Bool :=
  pixel.visible != other.visible ||
    pixelTolerance < (pixel.x - other.x).abs ||
    pixelTolerance < (pixel.y - other.y).abs

/-! ### Viewports -/

/-- `GeneralMatrix(4, 4, elements)`, row by row. -/
structure GeneralMatrix where
  elements : List ℚ
  length_eq : elements.length = 16

/-- The matrix of the given elements; another number of elements is refused. -/
def GeneralMatrix.new (elements : List ℚ) : Except Throwable GeneralMatrix :=
  if h : elements.length = 16 then .ok ⟨elements, h⟩
  else .error (.illegalArgumentException (toString elements.length))

/-- `getElement(row, column)`. -/
def GeneralMatrix.getElement (matrix : GeneralMatrix) (row column : Fin 4) : ℚ :=
  matrix.elements.get ⟨4 * row + column, by rw [matrix.length_eq]; omega⟩

/-- `matrix3.map(pos)`. -/
def mapIndex (pos : Fin 3) : Fin 4 := if pos = 2 then 3 else pos.castSucc

/-- `matrix3.getElement(row, column)`. -/
def matrix3 (matrix4 : GeneralMatrix) (row column : Fin 3) : ℚ :=
  matrix4.getElement (mapIndex column) (mapIndex row)

/-- The transform of the plane with the given matrix in homogeneous coordinates. -/
def affine (matrix : Fin 3 → Fin 3 → ℚ) : MathTransform := fun p =>
  .ok (matrix 0 0 * p.1 + matrix 0 1 * p.2 + matrix 0 2,
    matrix 1 0 * p.1 + matrix 1 1 * p.2 + matrix 1 2)

/-- `ClientViewport`.  `reference` tells the objects of one view apart. -/
structure ClientViewport where
  reference : ℕ
  transform : MathTransform
  minX : Int32
  maxX : Int32
  minY : Int32
  maxY : Int32

namespace ClientViewport

/-- `new ClientViewport(viewport)`. -/
def new {V : Type} (services : Services V) (reference : ℕ) (viewport : Viewport) :
    Except Throwable ClientViewport := do
  let matrix4 ← GeneralMatrix.new viewport.matrix
  let crsTransform ← services.findMathTransform viewport.projection
  let affineTransform ← services.createAffineTransform (matrix3 matrix4)
  return {
    reference
    transform := fun point => crsTransform point >>= affineTransform
    minX := -viewport.margin
    minY := -viewport.margin
    maxX := viewport.width + viewport.margin
    maxY := viewport.height + viewport.margin }

/-- The pixel of a transformed point. -/
def pixelOf (viewport : ClientViewport) (dst : ℚ × ℚ) : ClientPixel where
  visible := !(dst.1 < viewport.minX.toInt || dst.1 > viewport.maxX.toInt ||
    dst.2 < viewport.minY.toInt || dst.2 > viewport.maxY.toInt)
  x := castInt dst.1
  y := castInt dst.2

/-- `locatePixel(latitude, longitude)`. -/
def locatePixel (viewport : ClientViewport) (latitude longitude : ℚ) :
    Except Throwable ClientPixel :=
  (viewport.transform (latitude, longitude)).map viewport.pixelOf

end ClientViewport

/-- `ClientPosition`: what the client has been sent, and the fields `pixelViewport` and `pixel`. -/
structure ClientPosition (V : Type) extends PositionMessage V where
  cache : Option (ℕ × ClientPixel)

/-- `locatePixel(clientPosition)`: the pixel, and the client position that caches it. -/
def ClientViewport.locateClient {V : Type} (viewport : ClientViewport)
    (clientPosition : ClientPosition V) : Except Throwable (ClientPixel × ClientPosition V) :=
  let locate := do
    let pixel ← viewport.locatePixel clientPosition.latitude clientPosition.longitude
    return (pixel, { clientPosition with cache := some (viewport.reference, pixel) })
  match clientPosition.cache with
  | some (reference, pixel) =>
    if reference = viewport.reference then .ok (pixel, clientPosition) else locate
  | none => locate

namespace ClientViewport

variable {V : Type} {viewport : ClientViewport} {cp cp' : ClientPosition V} {pixel : ClientPixel}

/-- A pixel cached for the viewport is returned as it is. -/
theorem locateClient_of_cached (h : cp.cache = some (viewport.reference, pixel)) :
    viewport.locateClient cp = .ok (pixel, cp) := by
  simp only [locateClient, h, if_true]

/-- Without a pixel cached for the viewport one is computed and cached. -/
theorem locateClient_of_not_cached (h : ∀ pixel, cp.cache ≠ some (viewport.reference, pixel)) :
    viewport.locateClient cp = (viewport.locatePixel cp.latitude cp.longitude).map
      fun pixel => (pixel, { cp with cache := some (viewport.reference, pixel) }) := by
  have hlocate : viewport.locateClient cp = (do
      let pixel ← viewport.locatePixel cp.latitude cp.longitude
      return (pixel, { cp with cache := some (viewport.reference, pixel) })) := by
    unfold locateClient
    cases hcache : cp.cache with
    | none => rfl
    | some c =>
      obtain ⟨reference, pixel⟩ := c
      have hreference : reference ≠ viewport.reference := by
        rintro rfl
        exact h pixel hcache
      exact if_neg hreference
  rw [hlocate]
  cases viewport.locatePixel cp.latitude cp.longitude <;> rfl

/-- Locating a client position changes nothing but its cache, which holds the pixel then; the pixel
has been computed or was cached before. -/
theorem locateClient_eq_ok (h : viewport.locateClient cp = .ok (pixel, cp')) :
    cp'.toPositionMessage = cp.toPositionMessage ∧
      cp'.cache = some (viewport.reference, pixel) ∧
      (viewport.locatePixel cp.latitude cp.longitude = .ok pixel ∨
        cp.cache = some (viewport.reference, pixel)) := by
  by_cases hcached : ∃ pixel, cp.cache = some (viewport.reference, pixel)
  · obtain ⟨cached, hcached⟩ := hcached
    rw [locateClient_of_cached hcached] at h
    obtain ⟨rfl, rfl⟩ := Prod.mk.inj (Except.ok.inj h)
    exact ⟨rfl, hcached, Or.inr hcached⟩
  · rw [not_exists] at hcached
    rw [locateClient_of_not_cached hcached] at h
    cases hpixel : viewport.locatePixel cp.latitude cp.longitude with
    | error throwable =>
      rw [hpixel] at h
      cases h
    | ok computed =>
      rw [hpixel] at h
      obtain ⟨rfl, rfl⟩ := Prod.mk.inj (Except.ok.inj h)
      exact ⟨rfl, rfl, Or.inl rfl⟩

end ClientViewport

/-! ### The view -/

/-- `DefaultLatestPositionView<V>`, with the number of viewports made for it, the number of messages
it has tried to send, and the messages it has sent. -/
structure DefaultLatestPositionView (V : Type) where
  clientState : V → Option (ClientPosition V)
  clientViewport : Option ClientViewport
  viewports : ℕ
  attempts : ℕ
  sent : List (PositionMessage V)

namespace DefaultLatestPositionView

variable {V : Type}

/-- A new view. -/
def new : DefaultLatestPositionView V where
  clientState := fun _ => none
  clientViewport := none
  viewports := 0
  attempts := 0
  sent := []

/-- `setVieport(viewport)`. -/
def setVieport (services : Services V) (view : DefaultLatestPositionView V) (viewport : Viewport) :
    DefaultLatestPositionView V × Option Throwable :=
  match ClientViewport.new services view.viewports viewport with
  | .ok clientViewport =>
    ({ view with clientViewport := some clientViewport, viewports := view.viewports + 1 }, none)
  | .error throwable => (view, some throwable)

/-- A new viewport changes nothing, if it cannot be made, or else only the viewport. -/
theorem setVieport_cases (services : Services V) (view : DefaultLatestPositionView V)
    (viewport : Viewport) :
    (view.setVieport services viewport).1 = view ∨
      ∃ vp, ClientViewport.new services view.viewports viewport = .ok vp ∧
        (view.setVieport services viewport).1 =
          { view with clientViewport := some vp, viewports := view.viewports + 1 } := by
  unfold DefaultLatestPositionView.setVieport
  split
  · next vp hvp => exact Or.inr ⟨vp, hvp, rfl⟩
  · exact Or.inl rfl

/-- What the client is sent of a report. -/
def messageOf (e : Enriched V) : PositionMessage V where
  identity := e.identity
  latitude := e.position.default.latitude
  longitude := e.position.default.longitude
  heading := e.position.default.heading

variable [DecidableEq V]

/-- `sendToClient(enrichedPosition)`. -/
def sendToClient (services : Services V) (view : DefaultLatestPositionView V) (e : Enriched V) :
    DefaultLatestPositionView V × Option Throwable :=
  let cp := messageOf e
  match services.convertAndSend view.attempts cp with
  | none =>
    ({ view with
        attempts := view.attempts + 1
        sent := view.sent ++ [cp]
        clientState := Function.update view.clientState e.identity (some ⟨cp, none⟩) }, none)
  | some throwable => ({ view with attempts := view.attempts + 1 }, some throwable)

/-- `clientViewport.locatePixel(currentClientPosition)` for the client position of a vessel, and
what is done with the pixel. -/
def withClientPixel (view : DefaultLatestPositionView V) (clientViewport : ClientViewport)
    (clientPosition : ClientPosition V) (identity : V)
    (use : DefaultLatestPositionView V → ClientPixel →
      DefaultLatestPositionView V × Option Throwable) :
    DefaultLatestPositionView V × Option Throwable :=
  match clientViewport.locateClient clientPosition with
  | .ok (pixel, cached) =>
    use { view with clientState := Function.update view.clientState identity (some cached) } pixel
  | .error throwable => (view, some throwable)

/-- `processDefault(enrichedPosition)`. -/
def processDefault (services : Services V) (view : DefaultLatestPositionView V) (e : Enriched V) :
    DefaultLatestPositionView V × Option Throwable :=
  match view.clientViewport with
  | none => (view, none)
  | some clientViewport =>
    let position := e.position.default
    match clientViewport.locatePixel position.latitude position.longitude with
    | .error throwable => (view, some throwable)
    | .ok newPixel =>
      match newPixel.visible, view.clientState e.identity with
      | true, none => view.sendToClient services e
      | true, some current =>
        if !fuzzyEquals position.heading current.heading headingTolerance then
          view.sendToClient services e
        else
          view.withClientPixel clientViewport current e.identity fun view pixel =>
            if pixel.isDifferentThan newPixel then view.sendToClient services e else (view, none)
      | false, none => (view, none)
      | false, some current =>
        view.withClientPixel clientViewport current e.identity fun view pixel =>
          if pixel.visible then view.sendToClient services e else (view, none)

/-- `processAis`, `processLrit` and `processVms` of a view are `processDefault`. -/
def handle {W : Type} (services : W → Services V) : Handler V W (DefaultLatestPositionView V) :=
  fun w view e => view.processDefault (services w) e

end DefaultLatestPositionView

end CwatchBackend
