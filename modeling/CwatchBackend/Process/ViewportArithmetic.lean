import CwatchBackend.Process.ViewportMatrix

/-!
# The arithmetic of pixels

Bounds, coordinates and differences of pixels are `int`s, and the width, the height and the margin
come unchecked from the client.

A bound `size + margin` that overflows becomes negative, and hides the part of the enlarged map that
lies beyond it (`visible_iff_of_nonneg`).  The difference of two visible coordinates may overflow as
well, but stays large, except that `Math.abs` has no value for the least `int`: a difference of
exactly `2 ^ 31` goes unnoticed (`pixelTolerance_lt_abs_sub_iff`).  `viewport_arithmetic_iff` says
when all of this agrees with the arithmetic of the integers.

Even without overflow the coordinates are cut towards zero, so that the pixel `0` is twice as wide
as the others.  Two visible points whose pixels do not differ are less than two pixels apart on each
axis, unless they straddle the left or the upper edge of the map (`suppressed_movement_iff`).
-/

namespace CwatchBackend

open Foundation DefaultLatestPositionView

/-! ### Bounds that overflow -/

/-- The bound `size + margin` has overflowed, and the coordinate lies beyond what it has become. -/
def CutOff (size margin : Int32) (d : ℚ) : Prop :=
  2 ^ 31 ≤ size.toInt + margin.toInt ∧ ((size.toInt + margin.toInt - 2 ^ 32 : ℤ) : ℚ) < d

instance (size margin : Int32) (d : ℚ) : Decidable (CutOff size margin d) :=
  inferInstanceAs (Decidable (_ ∧ _))

/-- The sum of two numbers that are not negative, as an `int`. -/
theorem toInt_add_of_nonneg {size margin : Int32} (hsize : 0 ≤ size.toInt)
    (hmargin : 0 ≤ margin.toInt) :
    (size + margin).toInt =
      if size.toInt + margin.toInt < 2 ^ 31 then size.toInt + margin.toInt
      else size.toInt + margin.toInt - 2 ^ 32 := by
  have hsizeLt := size.toInt_lt
  have hmarginLt := margin.toInt_lt
  rw [Int32.toInt_add]
  split
  · exact Int.bmod_eq_of_le (by omega) (by omega)
  · refine (Int.bmod_eq_iff (by decide)).mpr ⟨by omega, by omega, -1, ?_⟩
    push_cast
    ring

/-- A coordinate up to `size + margin` lies within the computed bound unless it is cut off. -/
theorem le_toInt_add_iff {size margin : Int32} (hsize : 0 ≤ size.toInt)
    (hmargin : 0 ≤ margin.toInt) {d : ℚ} :
    d ≤ (size + margin).toInt ↔ d ≤ size.toInt + margin.toInt ∧ ¬ CutOff size margin d := by
  rw [toInt_add_of_nonneg hsize hmargin, CutOff]
  split
  · next hfits =>
    have hnot : ¬ 2 ^ 31 ≤ size.toInt + margin.toInt := not_le.mpr hfits
    simp only [hnot, false_and, not_false_eq_true, and_true]
    push_cast
    rfl
  · next hwraps =>
    have hle : ((size.toInt + margin.toInt - 2 ^ 32 : ℤ) : ℚ) ≤ size.toInt + margin.toInt := by
      push_cast
      linarith
    rw [not_and, not_lt]
    exact ⟨fun h => ⟨h.trans hle, fun _ => h⟩, fun h => h.2 (not_lt.mp hwraps)⟩

namespace ClientViewport

variable {V : Type} {services : Services V} {reference : ℕ} {viewport : Viewport}
  {vp : ClientViewport}

/-- The viewport of a message without negative numbers shows of the enlarged map what the bounds, as
they have become, do not cut off. -/
theorem visible_iff_of_nonneg (hnew : ClientViewport.new services reference viewport = .ok vp)
    (hwidth : 0 ≤ viewport.width.toInt) (hheight : 0 ≤ viewport.height.toInt)
    (hmargin : 0 ≤ viewport.margin.toInt) (p : ℚ × ℚ) :
    (vp.pixelOf p).visible = true ↔ viewport.Contains p ∧
      ¬ CutOff viewport.width viewport.margin p.1 ∧
        ¬ CutOff viewport.height viewport.margin p.2 := by
  have hneg := toInt_neg_of_lt (z := viewport.margin) (by omega)
  obtain ⟨_, rfl⟩ := eq_of_new hnew
  rw [visible_pixelOf_iff, hneg, le_toInt_add_iff hwidth hmargin, le_toInt_add_iff hheight hmargin,
    Viewport.Contains]
  push_cast
  tauto

/-- The coordinates of a visible point are cut towards zero, and are greater than the least
`int`. -/
theorem coordinates_of_visible (hnew : ClientViewport.new services reference viewport = .ok vp)
    (hmargin : 0 ≤ viewport.margin.toInt) {p : ℚ × ℚ} (hvisible : (vp.pixelOf p).visible = true) :
    ((vp.pixelOf p).x.toInt = truncate p.1 ∧ -2 ^ 31 < (vp.pixelOf p).x.toInt) ∧
      (vp.pixelOf p).y.toInt = truncate p.2 ∧ -2 ^ 31 < (vp.pixelOf p).y.toInt := by
  have hneg : -2 ^ 31 < (-viewport.margin).toInt := by
    have hlt := viewport.margin.toInt_lt
    rw [toInt_neg_of_lt (by omega)]
    omega
  obtain ⟨_, rfl⟩ := eq_of_new hnew
  obtain ⟨⟨hx, hx'⟩, hy, hy'⟩ := visible_pixelOf_iff.mp hvisible
  exact ⟨⟨toInt_castInt hx hx', hneg.trans_le (castInt_mem hx hx').1⟩,
    toInt_castInt hy hy', hneg.trans_le (castInt_mem hy hy').1⟩

end ClientViewport

/-! ### Differences that overflow -/

/-- The comparison with the tolerance finds no difference: there is hardly any, or its absolute
value is no `int`. -/
def Unnoticed (d : ℤ) : Prop := |d| ≤ 1 ∨ |d| = 2 ^ 31

instance (d : ℤ) : Decidable (Unnoticed d) := inferInstanceAs (Decidable (_ ∨ _))

/-- Two points are apart on an axis on which the difference of their coordinates is `2 ^ 31`, and
that is all that could be noticed. -/
def Missed (p q : ℚ × ℚ) : Prop :=
  (|truncate p.1 - truncate q.1| = 2 ^ 31 ∨ |truncate p.2 - truncate q.2| = 2 ^ 31) ∧
    Unnoticed (truncate p.1 - truncate q.1) ∧ Unnoticed (truncate p.2 - truncate q.2)

instance (p q : ℚ × ℚ) : Decidable (Missed p q) := inferInstanceAs (Decidable ((_ ∨ _) ∧ _ ∧ _))

/-- The difference of two `int`s comes out on the other side of zero if it overflows. -/
theorem toInt_sub_of_overflow {x y : Int32} (h : 2 ^ 31 ≤ |x.toInt - y.toInt|)
    (hx : -2 ^ 31 < x.toInt) (hy : -2 ^ 31 < y.toInt) :
    |(x - y).toInt| = 2 ^ 32 - |x.toInt - y.toInt| ∧
      ((x - y).toInt = -2 ^ 31 ↔ |x.toInt - y.toInt| = 2 ^ 31) := by
  have hxlt := x.toInt_lt
  have hylt := y.toInt_lt
  rw [Int32.toInt_sub]
  rcases le_abs.mp h with h | h
  · have hwrap : (x.toInt - y.toInt).bmod (2 ^ 32) = x.toInt - y.toInt - 2 ^ 32 := by
      refine (Int.bmod_eq_iff (by decide)).mpr ⟨by omega, by omega, -1, by push_cast; ring⟩
    rw [hwrap, abs_of_nonneg (a := x.toInt - y.toInt) (by omega), abs_of_nonpos (by omega)]
    exact ⟨by omega, by omega⟩
  · by_cases hmin : x.toInt - y.toInt = -2 ^ 31
    · have hwrap : (x.toInt - y.toInt).bmod (2 ^ 32) = -2 ^ 31 := by
        rw [hmin]; decide
      rw [hwrap, hmin]
      decide
    · have hwrap : (x.toInt - y.toInt).bmod (2 ^ 32) = x.toInt - y.toInt + 2 ^ 32 := by
        refine (Int.bmod_eq_iff (by decide)).mpr ⟨by omega, by omega, 1, by push_cast; ring⟩
      rw [hwrap, abs_of_nonpos (a := x.toInt - y.toInt) (by omega), abs_of_nonneg (by omega)]
      exact ⟨by omega, by omega⟩

/-- Comparing the difference of two `int`s, which may overflow, with the tolerance. -/
theorem pixelTolerance_lt_abs_sub_iff {x y : Int32} (hx : -2 ^ 31 < x.toInt)
    (hy : -2 ^ 31 < y.toInt) :
    pixelTolerance < (x - y).abs ↔ ¬ Unnoticed (x.toInt - y.toInt) := by
  have hxlt := x.toInt_lt
  have hylt := y.toInt_lt
  have htolerance : pixelTolerance.toInt = 1 := rfl
  rw [Unnoticed, not_or, not_le]
  by_cases hspan : |x.toInt - y.toInt| < 2 ^ 31
  · rw [pixelTolerance_lt_abs_iff hspan, htolerance]
    exact (and_iff_left hspan.ne).symm
  · -- The absolute value of the overflown difference is what is missing to `2 ^ 32`.
    obtain ⟨habs, hmin⟩ := toInt_sub_of_overflow (not_lt.mp hspan) hx hy
    have hbound : |x.toInt - y.toInt| ≤ 2 ^ 32 - 2 := abs_le.mpr ⟨by omega, by omega⟩
    rw [pixelTolerance_lt_abs, htolerance, habs, ne_eq, hmin]
    exact and_congr_left fun _ => iff_of_true (by omega) (by omega)

/-! ### When nothing wraps -/

/-- The enlarged map contains the point, but a bound that has overflowed cuts it off. -/
def Viewport.CutsOff (viewport : Viewport) (p : ℚ × ℚ) : Prop :=
  viewport.Contains p ∧
    (CutOff viewport.width viewport.margin p.1 ∨ CutOff viewport.height viewport.margin p.2)

instance (viewport : Viewport) (p : ℚ × ℚ) : Decidable (viewport.CutsOff p) :=
  inferInstanceAs (Decidable (_ ∧ (_ ∨ _)))

/-- Two visible points are different if a difference of their coordinates is noticed. -/
theorem ClientViewport.isDifferentThan_iff_of_visible {V : Type} {services : Services V}
    {reference : ℕ} {viewport : Viewport} {vp : ClientViewport}
    (hnew : ClientViewport.new services reference viewport = .ok vp)
    (hmargin : 0 ≤ viewport.margin.toInt) {p q : ℚ × ℚ} (hp : (vp.pixelOf p).visible = true)
    (hq : (vp.pixelOf q).visible = true) :
    (vp.pixelOf p).isDifferentThan (vp.pixelOf q) = true ↔
      ¬ (Unnoticed (truncate p.1 - truncate q.1) ∧ Unnoticed (truncate p.2 - truncate q.2)) := by
  obtain ⟨⟨hpx, hpx'⟩, hpy, hpy'⟩ := coordinates_of_visible hnew hmargin hp
  obtain ⟨⟨hqx, hqx'⟩, hqy, hqy'⟩ := coordinates_of_visible hnew hmargin hq
  have hx := pixelTolerance_lt_abs_sub_iff hpx' hqx'
  have hy := pixelTolerance_lt_abs_sub_iff hpy' hqy'
  rw [hpx, hqx] at hx
  rw [hpy, hqy] at hy
  rw [ClientPixel.isDifferentThan, hp, hq, not_and_or]
  simp [hx, hy]

/-- Whatever is more than one apart is noticed unless it is missed. -/
theorem notice_iff_not_missed (p q : ℚ × ℚ) :
    (¬ (Unnoticed (truncate p.1 - truncate q.1) ∧ Unnoticed (truncate p.2 - truncate q.2)) ↔
        1 < |truncate p.1 - truncate q.1| ∨ 1 < |truncate p.2 - truncate q.2|) ↔
      ¬ Missed p q := by
  unfold Missed Unnoticed
  generalize |truncate p.1 - truncate q.1| = dx
  generalize |truncate p.2 - truncate q.2| = dy
  omega

/-- For a viewport message without negative numbers and two points: both are visible exactly if the
enlarged map contains them, and, if both are visible, different exactly if their coordinates are
more than one apart, if and only if no bound that has overflowed cuts one of them off and no
difference of `2 ^ 31` is missed. -/
theorem viewport_arithmetic_iff {V : Type} (services : Services V) (reference : ℕ)
    (viewport : Viewport) (vp : ClientViewport)
    (hnew : ClientViewport.new services reference viewport = .ok vp)
    (hwidth : 0 ≤ viewport.width.toInt) (hheight : 0 ≤ viewport.height.toInt)
    (hmargin : 0 ≤ viewport.margin.toInt) (latitude longitude latitude' longitude' : ℚ)
    (p q : ℚ × ℚ) (hp : vp.transform (latitude, longitude) = .ok p)
    (hq : vp.transform (latitude', longitude') = .ok q) (pixel other : ClientPixel)
    (hpixel : vp.locatePixel latitude longitude = .ok pixel)
    (hother : vp.locatePixel latitude' longitude' = .ok other) :
    ((pixel.visible = true ↔ viewport.Contains p) ∧
        (other.visible = true ↔ viewport.Contains q) ∧
        (pixel.visible = true → other.visible = true →
          (pixel.isDifferentThan other = true ↔
            1 < |pixel.x.toInt - other.x.toInt| ∨ 1 < |pixel.y.toInt - other.y.toInt|))) ↔
      ¬ viewport.CutsOff p ∧ ¬ viewport.CutsOff q ∧
        ¬ (viewport.Contains p ∧ viewport.Contains q ∧ Missed p q) := by
  obtain rfl := ClientViewport.pixelOf_of_locatePixel hp hpixel
  obtain rfl := ClientViewport.pixelOf_of_locatePixel hq hother
  have hvisible := ClientViewport.visible_iff_of_nonneg hnew hwidth hheight hmargin
  -- A point is visible exactly if the enlarged map contains it unless it is cut off.
  have hcut : ∀ p, ((vp.pixelOf p).visible = true ↔ viewport.Contains p) ↔
      ¬ viewport.CutsOff p := by
    intro p
    rw [hvisible p, Viewport.CutsOff]
    tauto
  rw [hcut, hcut, and_congr_right_iff]
  intro hp
  rw [and_congr_right_iff]
  intro hq
  rw [← hcut] at hp hq
  rw [← hp, ← hq, not_and, not_and]
  refine imp_congr_right fun hpv => imp_congr_right fun hqv => ?_
  obtain ⟨⟨hpx, -⟩, hpy, -⟩ := ClientViewport.coordinates_of_visible hnew hmargin hpv
  obtain ⟨⟨hqx, -⟩, hqy, -⟩ := ClientViewport.coordinates_of_visible hnew hmargin hqv
  rw [ClientViewport.isDifferentThan_iff_of_visible hnew hmargin hpv hqv, hpx, hqx, hpy, hqy]
  exact notice_iff_not_missed p q

/-- Two points of a map of ordinary size. -/
theorem viewport_arithmetic_iff_square :
    ∃ pixel other, squareViewport.locatePixel 50 50 = .ok pixel ∧
      squareViewport.locatePixel 53 200 = .ok other ∧
      (pixel.visible = true ↔ square.Contains (50, 50)) ∧
      (other.visible = true ↔ square.Contains (53, 200)) := by
  have hp : squareViewport.transform (50, 50) = .ok (50, 50) := by decide +kernel
  have hq : squareViewport.transform (53, 200) = .ok (53, 200) := by decide +kernel
  refine ⟨_, _, rfl, rfl, ?_⟩
  obtain ⟨hpixel, hother, -⟩ := (viewport_arithmetic_iff (plane ()) 0 square squareViewport rfl
    (by decide) (by decide) (by decide) 50 50 53 200 (50, 50) (53, 200) hp hq _ _ rfl rfl).mpr
      ⟨by decide +kernel, by decide +kernel, by decide +kernel⟩
  exact ⟨hpixel, hother⟩

/-- A map as wide as an `int` can tell. -/
def wide : Viewport := { square with width := 2147483647 }

/-- A map with a margin of `2 ^ 30` pixels, whose bounds do not overflow. -/
def vast : Viewport := { square with width := 1073741823, margin := 1073741824 }

/-- On a map that is too wide nothing is visible; on one with a vast margin two visible points at
opposite ends are not different. -/
theorem viewport_arithmetic_wraps :
    (∃ vp pixel, ClientViewport.new (plane ()) 0 wide = .ok vp ∧
        vp.locatePixel 50 50 = .ok pixel ∧ wide.Contains (50, 50) ∧ pixel.visible = false) ∧
      ∃ vp pixel other, ClientViewport.new (plane ()) 0 vast = .ok vp ∧
        vp.locatePixel (-1073741824) 50 = .ok pixel ∧ vp.locatePixel 1073741824 50 = .ok other ∧
        pixel.visible = true ∧ other.visible = true ∧
        1 < |pixel.x.toInt - other.x.toInt| ∧ pixel.isDifferentThan other = false := by
  refine ⟨⟨_, _, rfl, rfl, by decide +kernel, by decide +kernel⟩, _, _, _, rfl, rfl, rfl, ?_⟩
  decide +kernel

/-! ### Movement that is suppressed -/

/-- On both axes the coordinates are cut to the same or to adjacent integers. -/
def Adjacent (p q : ℚ × ℚ) : Prop :=
  |truncate p.1 - truncate q.1| ≤ 1 ∧ |truncate p.2 - truncate q.2| ≤ 1

instance (p q : ℚ × ℚ) : Decidable (Adjacent p q) := inferInstanceAs (Decidable (_ ∧ _))

/-- Two visible points are not different if their coordinates are cut to adjacent integers. -/
theorem ClientViewport.not_isDifferentThan_iff {vp : ClientViewport} (hspans : vp.Spans)
    {latitude longitude latitude' longitude' : ℚ} {p q : ℚ × ℚ}
    (hpixel : vp.locatePixel latitude longitude = .ok (vp.pixelOf p))
    (hother : vp.locatePixel latitude' longitude' = .ok (vp.pixelOf q))
    (hp : (vp.pixelOf p).visible = true) (hq : (vp.pixelOf q).visible = true) :
    (vp.pixelOf p).isDifferentThan (vp.pixelOf q) = false ↔ Adjacent p q := by
  obtain ⟨⟨hpx, hpx'⟩, hpy, hpy'⟩ := visible_pixelOf_iff.mp hp
  obtain ⟨⟨hqx, hqx'⟩, hqy, hqy'⟩ := visible_pixelOf_iff.mp hq
  have htolerance : pixelTolerance.toInt = 1 := rfl
  have hdifferent := isDifferentThan_iff hspans hpixel hother hq
  have hpixelX : (vp.pixelOf p).x.toInt = truncate p.1 := toInt_castInt hpx hpx'
  have hpixelY : (vp.pixelOf p).y.toInt = truncate p.2 := toInt_castInt hpy hpy'
  have hotherX : (vp.pixelOf q).x.toInt = truncate q.1 := toInt_castInt hqx hqx'
  have hotherY : (vp.pixelOf q).y.toInt = truncate q.2 := toInt_castInt hqy hqy'
  rw [htolerance, hp, hpixelX, hpixelY, hotherX, hotherY] at hdifferent
  rw [← Bool.not_eq_true, hdifferent, Adjacent]
  simp

/-- Two points that are visible in a viewport in which nothing overflows: that they are less than
two pixels apart on each axis if their pixels are not different holds if and only if it is not the
case that their coordinates are cut to adjacent integers on both axes and straddle zero on one. -/
theorem suppressed_movement_iff (vp : ClientViewport) (hspans : vp.Spans)
    (latitude longitude latitude' longitude' : ℚ) (p q : ℚ × ℚ)
    (hp : vp.transform (latitude, longitude) = .ok p)
    (hq : vp.transform (latitude', longitude') = .ok q) (pixel other : ClientPixel)
    (hpixel : vp.locatePixel latitude longitude = .ok pixel)
    (hother : vp.locatePixel latitude' longitude' = .ok other)
    (hvisible : pixel.visible = true) (hvisible' : other.visible = true) :
    (pixel.isDifferentThan other = false → |p.1 - q.1| < 2 ∧ |p.2 - q.2| < 2) ↔
      ¬ (Adjacent p q ∧ (Straddles p.1 q.1 ∨ Straddles p.2 q.2)) := by
  obtain rfl := ClientViewport.pixelOf_of_locatePixel hp hpixel
  obtain rfl := ClientViewport.pixelOf_of_locatePixel hq hother
  rw [ClientViewport.not_isDifferentThan_iff hspans hpixel hother hvisible hvisible', not_and,
    not_or]
  refine imp_congr_right fun hadjacent => ?_
  rw [← not_le, ← not_le, two_le_abs_sub_iff hadjacent.1, two_le_abs_sub_iff hadjacent.2]

/-- Two points inside the map that are one pixel apart. -/
theorem suppressed_movement_iff_square :
    ∃ pixel other, squareViewport.locatePixel 50 50 = .ok pixel ∧
      squareViewport.locatePixel 51 50 = .ok other ∧
      (pixel.isDifferentThan other = false → |(50 : ℚ) - 51| < 2 ∧ |(50 : ℚ) - 50| < 2) := by
  have hp : squareViewport.transform (50, 50) = .ok (50, 50) := by decide +kernel
  have hq : squareViewport.transform (51, 50) = .ok (51, 50) := by decide +kernel
  refine ⟨_, _, rfl, rfl, ?_⟩
  refine (suppressed_movement_iff squareViewport squareViewport_spans 50 50 51 50 (50, 50) (51, 50)
    hp hq _ _ rfl rfl (by decide +kernel) (by decide +kernel)).mpr ?_
  rintro ⟨-, ⟨hfar, -⟩ | ⟨hfar, -⟩⟩
  · exact absurd hfar (by decide +kernel)
  · exact absurd hfar (by decide +kernel)

/-- Two points on either side of the left edge, the one in the margin and the other inside the map:
they are `14/5` pixels apart, and their pixels are not different. -/
theorem suppressed_movement_at_edge :
    ClientViewport.new (plane ()) 0 square = .ok squareViewport ∧ squareViewport.Spans ∧
      squareViewport.transform (-9/10, 50) = .ok (-9/10, 50) ∧
      squareViewport.transform (19/10, 50) = .ok (19/10, 50) ∧
      ∃ pixel other, squareViewport.locatePixel (-9/10) 50 = .ok pixel ∧
        squareViewport.locatePixel (19/10) 50 = .ok other ∧
        pixel.visible = true ∧ other.visible = true ∧
        pixel.isDifferentThan other = false ∧ ¬ |(-9/10 : ℚ) - 19/10| < 2 := by
  refine ⟨rfl, squareViewport_spans, by decide +kernel, by decide +kernel, _, _, rfl, rfl, ?_⟩
  decide +kernel

end CwatchBackend
