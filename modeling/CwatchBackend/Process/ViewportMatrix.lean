import CwatchBackend.Process.LivePicture
import Mathlib.LinearAlgebra.Matrix.Notation

/-!
# The matrix of a viewport

The client sends its `coordinateToPixelMatrix`: sixteen numbers, a matrix of four rows and columns,
column by column.  `GeneralMatrix` reads them row by row, which transposes the matrix, and `matrix3`
leaves out the third row and column and transposes again.  So `matrix3` does to `(x, y, 1)` what the
matrix of the client does to `(x, y, 0, 1)` (`matrix3_mulVec`), and a position has the pixel that
the client computes for it (`server_pixels_are_client_pixels`).

What `createAffineTransform` makes of `matrix3` belongs to GeoTools; it is assumed to be the
documented transform for the matrices that have the last row `0 0 1`.
-/

namespace CwatchBackend

open Foundation

/-- `frameState.coordinateToPixelMatrix`: the elements are those of the columns, one after the
other. -/
def coordinateToPixelMatrix (elements : List ℚ) (h : elements.length = 16) :
    Matrix (Fin 4) (Fin 4) ℚ :=
  fun row column => elements.get ⟨4 * column + row, by rw [h]; omega⟩

/-- The matrix of the client applied to a projected coordinate. -/
def homogeneousPixel (elements : List ℚ) (h : elements.length = 16) (x y : ℚ) : Fin 4 → ℚ :=
  (coordinateToPixelMatrix elements h).mulVec ![x, y, 0, 1]

/-- The point lies within the map enlarged by the margin on all four sides, edges included. -/
def Viewport.Contains (viewport : Viewport) (p : ℚ × ℚ) : Prop :=
  ((-viewport.margin.toInt ≤ p.1) ∧ p.1 ≤ viewport.width.toInt + viewport.margin.toInt) ∧
    (-viewport.margin.toInt ≤ p.2) ∧ p.2 ≤ viewport.height.toInt + viewport.margin.toInt

instance (viewport : Viewport) (p : ℚ × ℚ) : Decidable (viewport.Contains p) :=
  inferInstanceAs (Decidable ((_ ∧ _) ∧ _ ∧ _))

/-- Bounds that do not overflow let a point be visible if the enlarged map contains it. -/
theorem ClientViewport.Encloses.visible_iff {vp : ClientViewport} {viewport : Viewport}
    (h : vp.Encloses viewport) (p : ℚ × ℚ) :
    (vp.pixelOf p).visible = true ↔ viewport.Contains p := by
  rw [visible_pixelOf_iff, h.minX, h.maxX, h.minY, h.maxY, Viewport.Contains]
  push_cast
  rfl

/-! ### The two matrices -/

section Matrix

variable {elements : List ℚ} (h : elements.length = 16)

/-- `matrix3` is the matrix of the client without its third row and column. -/
theorem matrix3_apply (row column : Fin 3) :
    matrix3 ⟨elements, h⟩ row column =
      coordinateToPixelMatrix elements h (mapIndex row) (mapIndex column) := rfl

/-- A row of the client's matrix applied to a point with the third coordinate `0`. -/
theorem homogeneousPixel_apply (x y : ℚ) (row : Fin 4) :
    homogeneousPixel elements h x y row =
      coordinateToPixelMatrix elements h row 0 * x + coordinateToPixelMatrix elements h row 1 * y +
        coordinateToPixelMatrix elements h row 3 := by
  rw [homogeneousPixel, Matrix.mulVec_eq_sum]
  simp [Fin.sum_univ_four, mul_comm]

/-- A row of `matrix3` does to `(x, y, 1)` what the row of the client's matrix in its place does to
`(x, y, 0, 1)`. -/
theorem matrix3_mulVec_apply (x y : ℚ) (row : Fin 3) :
    (Matrix.of (matrix3 ⟨elements, h⟩)).mulVec ![x, y, 1] row =
      homogeneousPixel elements h x y (mapIndex row) := by
  rw [homogeneousPixel_apply, Matrix.mulVec_eq_sum]
  simp [Fin.sum_univ_three, matrix3_apply, mapIndex, mul_comm]

/-- `matrix3` applied to `(x, y, 1)` yields the first, the second and the fourth component of what
the client computes. -/
theorem matrix3_mulVec (x y : ℚ) :
    (Matrix.of (matrix3 ⟨elements, h⟩)).mulVec ![x, y, 1] =
      ![homogeneousPixel elements h x y 0, homogeneousPixel elements h x y 1,
        homogeneousPixel elements h x y 3] := by
  funext row
  rw [matrix3_mulVec_apply]
  fin_cases row <;> rfl

/-- The affine transform of `matrix3` yields the pixel that the client computes. -/
theorem affine_matrix3 (x y : ℚ) :
    affine (matrix3 ⟨elements, h⟩) (x, y) =
      .ok (homogeneousPixel elements h x y 0, homogeneousPixel elements h x y 1) := by
  rw [homogeneousPixel_apply, homogeneousPixel_apply]
  rfl

end Matrix

/-- The matrix that the server makes of the client's one does to a projected coordinate what that
one does.  Hence, if the last row of the client's matrix is `0 0 0 1` and the bounds do not
overflow, a viewport is made, and every position that has a projected coordinate is located at the
pixel of the client: it is visible exactly if the map enlarged by the margin contains that pixel,
and its coordinates are cut to `int`s, which cuts those of a visible one towards zero. -/
theorem server_pixels_are_client_pixels {V : Type} (services : Services V)
    (haffine : ∀ matrix : Fin 3 → Fin 3 → ℚ, matrix 2 = ![0, 0, 1] →
      services.createAffineTransform matrix = .ok (affine matrix))
    (viewport : Viewport) (hmatrix : viewport.matrix.length = 16) (x y : ℚ) :
    let pixel := homogeneousPixel viewport.matrix hmatrix x y
    (Matrix.of (matrix3 ⟨viewport.matrix, hmatrix⟩)).mulVec ![x, y, 1] =
        ![pixel 0, pixel 1, pixel 3] ∧
      (coordinateToPixelMatrix viewport.matrix hmatrix 3 = ![0, 0, 0, 1] → viewport.BoundsFit →
        ∀ reference crsTransform,
          services.findMathTransform viewport.projection = .ok crsTransform →
          ∃ vp, ClientViewport.new services reference viewport = .ok vp ∧
            ∀ latitude longitude, crsTransform (latitude, longitude) = .ok (x, y) →
              ∃ located, vp.locatePixel latitude longitude = .ok located ∧
                (located.visible = true ↔ viewport.Contains (pixel 0, pixel 1)) ∧
                located.x = castInt (pixel 0) ∧ located.y = castInt (pixel 1) ∧
                (located.visible = true →
                  located.x.toInt = truncate (pixel 0) ∧
                    located.y.toInt = truncate (pixel 1))) := by
  intro pixel
  refine ⟨matrix3_mulVec hmatrix x y, ?_⟩
  intro hlast hfit reference crsTransform hcrs
  have hlast3 : matrix3 ⟨viewport.matrix, hmatrix⟩ 2 = ![0, 0, 1] := by
    funext column
    rw [matrix3_apply]
    have hrow : mapIndex 2 = 3 := rfl
    rw [hrow, hlast]
    fin_cases column <;> rfl
  have hnew : ClientViewport.new services reference viewport = .ok
      { reference
        transform := fun point => crsTransform point >>= affine (matrix3 ⟨viewport.matrix, hmatrix⟩)
        minX := -viewport.margin
        minY := -viewport.margin
        maxX := viewport.width + viewport.margin
        maxY := viewport.height + viewport.margin } := by
    unfold ClientViewport.new GeneralMatrix.new
    rw [dif_pos hmatrix, hcrs]
    simp only [bind, Except.bind, haffine _ hlast3]
    rfl
  refine ⟨_, hnew, fun latitude longitude hxy => ?_⟩
  have hencloses := ClientViewport.encloses_of_new hnew hfit
  refine ⟨_, ClientViewport.locatePixel_eq_ok.mpr ⟨(pixel 0, pixel 1), ?_, rfl⟩,
    hencloses.visible_iff _, rfl, rfl, fun hvisible => ?_⟩
  · simp only [hxy, bind, Except.bind]
    exact affine_matrix3 hmatrix x y
  · obtain ⟨⟨hx, hx'⟩, hy, hy'⟩ := ClientViewport.visible_pixelOf_iff.mp hvisible
    exact ⟨toInt_castInt hx hx', toInt_castInt hy hy'⟩

/-- A map that is turned and stretched. -/
def skewed : Viewport := { square with matrix := [2, 1, 0, 0, 3, 4, 0, 0, 0, 0, 1, 0, 5, 6, 0, 1] }

/-- The coordinate `(10, 5)` is drawn at the pixel `(40, 36)`. -/
theorem server_pixels_are_client_pixels_skewed :
    ∃ vp, ClientViewport.new (plane ()) 0 skewed = .ok vp ∧
      ∃ located, vp.locatePixel 10 5 = .ok located ∧ located.visible = true ∧
        located.x = 40 ∧ located.y = 36 := by
  obtain ⟨-, hlocate⟩ := server_pixels_are_client_pixels (plane ()) (fun _ _ => rfl) skewed rfl 10 5
  obtain ⟨vp, hnew, hpixel⟩ := hlocate (by decide +kernel)
    ⟨by decide, ⟨by decide, by decide⟩, ⟨by decide, by decide⟩⟩ 0 .ok rfl
  obtain ⟨located, hlocated, hvisible, hx, hy, -⟩ := hpixel 10 5 rfl
  refine ⟨vp, hnew, located, hlocated, hvisible.mpr (by decide +kernel), ?_, ?_⟩
  · exact hx.trans (by decide +kernel)
  · exact hy.trans (by decide +kernel)

end CwatchBackend
