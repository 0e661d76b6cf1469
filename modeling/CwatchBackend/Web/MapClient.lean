import CwatchBackend.Process.ViewPicture

/-!
# The vessels layer of the map

The handler of the position messages in `main.js` draws every vessel as a feature of a vector layer.
The features of the vessels are found in `vessels`; a vessel without a feature gets one, and
otherwise its feature gets the new geometry and style.

The layer has one feature for every vessel of which a message has arrived, drawn as the last of
these messages says, and no other features (`draws_foldl_onPosition`).
-/

namespace CwatchBackend

/-- `ol.Feature`: the point and the rotation of its icon, in units of `Math.PI / 180`. -/
structure Feature where
  geometry : ℚ × ℚ
  rotation : ℚ
  deriving DecidableEq

/-- The feature that is drawn for a message.  `positionTransform` is the transform from `EPSG:4326`
to the projection of the map. -/
def Feature.ofPosition {V : Type} (positionTransform : ℚ × ℚ → ℚ × ℚ) (pos : PositionMessage V) :
    Feature where
  geometry := positionTransform (pos.longitude, pos.latitude)
  rotation := -pos.heading

/-- The features of the layer in the order in which they have been added, and the features of the
vessels by their places in it.  The properties of `vessels` are named by the numbers that
`VesselIdSerializer` writes, so that different vessels have different properties. -/
structure VesselsLayer (V : Type) where
  features : List Feature
  vessels : V → Option ℕ

namespace VesselsLayer

variable {V : Type} [DecidableEq V]

/-- A new layer. -/
def new : VesselsLayer V := ⟨[], fun _ => none⟩

/-- The handler of the position messages. -/
def onPosition (positionTransform : ℚ × ℚ → ℚ × ℚ) (layer : VesselsLayer V)
    (pos : PositionMessage V) : VesselsLayer V :=
  let feature := Feature.ofPosition positionTransform pos
  match layer.vessels pos.identity with
  | none =>
    { features := layer.features ++ [feature]
      vessels := Function.update layer.vessels pos.identity (some layer.features.length) }
  | some vessel => { layer with features := layer.features.set vessel feature }

/-- A vessel without a feature gets one at the end. -/
theorem onPosition_of_none {positionTransform : ℚ × ℚ → ℚ × ℚ} {layer : VesselsLayer V}
    {pos : PositionMessage V} (h : layer.vessels pos.identity = none) :
    layer.onPosition positionTransform pos =
      { features := layer.features ++ [Feature.ofPosition positionTransform pos]
        vessels := Function.update layer.vessels pos.identity (some layer.features.length) } := by
  rw [onPosition, h]

/-- The feature of a vessel stays at its place. -/
theorem onPosition_of_some {positionTransform : ℚ × ℚ → ℚ × ℚ} {layer : VesselsLayer V}
    {pos : PositionMessage V} {vessel : ℕ} (h : layer.vessels pos.identity = some vessel) :
    layer.onPosition positionTransform pos =
      { layer with
        features := layer.features.set vessel (Feature.ofPosition positionTransform pos) } := by
  rw [onPosition, h]

/-- The feature of a vessel. -/
def feature (layer : VesselsLayer V) (v : V) : Option Feature :=
  (layer.vessels v).bind fun vessel => layer.features[vessel]?

/-- The layer has a feature for every vessel of the picture, as the picture says, and no other
features. -/
structure Draws (positionTransform : ℚ × ℚ → ℚ × ℚ) (layer : VesselsLayer V)
    (picture : V → Option (PositionMessage V)) : Prop where
  feature : ∀ v, layer.feature v = (picture v).map (Feature.ofPosition positionTransform)
  bounded : ∀ v vessel, layer.vessels v = some vessel → vessel < layer.features.length
  unique : ∀ vessel < layer.features.length, ∃! v, layer.vessels v = some vessel

variable {positionTransform : ℚ × ℚ → ℚ × ℚ} {layer : VesselsLayer V}
  {picture : V → Option (PositionMessage V)}

omit [DecidableEq V] in
/-- A new layer draws nothing. -/
theorem draws_new : Draws positionTransform (new : VesselsLayer V) fun _ => none where
  feature _ := rfl
  bounded _ _ h := by cases h
  unique vessel h := absurd h (Nat.not_lt_zero vessel)

omit [DecidableEq V] in
/-- Different vessels have different features. -/
theorem Draws.injective (h : Draws positionTransform layer picture) {u v : V} {vessel : ℕ}
    (hu : layer.vessels u = some vessel) (hv : layer.vessels v = some vessel) : u = v :=
  (h.unique vessel (h.bounded u vessel hu)).unique hu hv

/-- A message draws its vessel anew. -/
theorem Draws.onPosition (h : Draws positionTransform layer picture) (pos : PositionMessage V) :
    Draws positionTransform (layer.onPosition positionTransform pos)
      (Function.update picture pos.identity (some pos)) := by
  cases hvessel : layer.vessels pos.identity with
  | none =>
    rw [onPosition_of_none hvessel]
    have hself : Function.update layer.vessels pos.identity (some layer.features.length)
        pos.identity = some layer.features.length := Function.update_self ..
    have hother : ∀ {v}, v ≠ pos.identity →
        Function.update layer.vessels pos.identity (some layer.features.length) v =
          layer.vessels v := fun hv => Function.update_of_ne hv ..
    constructor
    case feature =>
      intro v
      by_cases hv : v = pos.identity
      · subst hv
        simp [VesselsLayer.feature]
      · rw [Function.update_of_ne hv, ← h.feature v]
        simp only [VesselsLayer.feature, hother hv]
        refine Option.bind_congr fun vessel hmem => ?_
        exact List.getElem?_append_left (h.bounded v vessel hmem)
    case bounded =>
      intro v vessel hv
      rw [List.length_append, List.length_singleton]
      by_cases hidentity : v = pos.identity
      · subst hidentity
        have hlength : layer.features.length = vessel := Option.some.inj (hself.symm.trans hv)
        omega
      · exact Nat.lt_succ_of_lt (h.bounded v vessel ((hother hidentity).symm.trans hv))
    case unique =>
      intro vessel hlt
      rw [List.length_append, List.length_singleton] at hlt
      rcases Nat.lt_succ_iff_lt_or_eq.mp hlt with hlt | rfl
      · obtain ⟨v, hv, hunique⟩ := h.unique vessel hlt
        have hne : v ≠ pos.identity := by
          rintro rfl
          rw [hvessel] at hv
          cases hv
        refine ⟨v, (hother hne).trans hv, fun u hu => hunique u ?_⟩
        by_cases hidentity : u = pos.identity
        · subst hidentity
          exact absurd (Option.some.inj (hself.symm.trans hu)) hlt.ne'
        · exact (hother hidentity).symm.trans hu
      · refine ⟨pos.identity, hself, fun u hu => ?_⟩
        by_contra hidentity
        have hlt := h.bounded u _ ((hother hidentity).symm.trans hu)
        exact absurd hlt (lt_irrefl _)
  | some vessel =>
    rw [onPosition_of_some hvessel]
    have hlt : vessel < layer.features.length := h.bounded _ vessel hvessel
    constructor
    case feature =>
      intro v
      by_cases hv : v = pos.identity
      · subst hv
        simp [VesselsLayer.feature, hvessel, hlt]
      · rw [Function.update_of_ne hv, ← h.feature v]
        refine Option.bind_congr fun other hother => List.getElem?_set_ne fun heq => hv ?_
        exact h.injective hother (heq ▸ hvessel)
    case bounded =>
      intro v other hother
      rw [List.length_set]
      exact h.bounded v other hother
    case unique =>
      intro other hother
      rw [List.length_set] at hother
      exact h.unique other hother

/-- After any messages the layer draws the picture that they make. -/
theorem draws_foldl_onPosition (positionTransform : ℚ × ℚ → ℚ × ℚ)
    (messages : List (PositionMessage V)) :
    Draws positionTransform (messages.foldl (VesselsLayer.onPosition positionTransform) new)
      (CwatchBackend.picture messages) := by
  induction messages using List.reverseRecOn with
  | nil => exact draws_new
  | append_singleton messages pos ih =>
    rw [List.foldl_append, picture_concat]
    exact ih.onPosition pos

end VesselsLayer

end CwatchBackend
