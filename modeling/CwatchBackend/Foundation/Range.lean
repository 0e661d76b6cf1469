import Mathlib.Data.Prod.Lex
import Mathlib.Order.MinMax
import Mathlib.Order.WithBot
import Mathlib.Tactic.Common

/-!
# Ranges over a linear order

A range is the stretch of a linear order between two *cuts*, in the sense of Guava's `Range`.  A
cut lies below everything, just below a value, just above a value, or above everything; the cuts
are themselves linearly ordered, so that the four bound kinds (unbounded, open, closed) of either
end become comparisons of cuts.

`Cut.position` embeds the cuts into `WithBot (WithTop (T ×ₗ Bool))`, from which they take their
order.  A value `t` lies in a range exactly when the cut just below `t` lies at or above the lower
bound and strictly below the upper bound (`Range.mem_iff`); every fact about membership goes
through that statement.  `Range.restrict` is the non-empty intersection of a range with the window
between two cuts.
-/

namespace Foundation

/-- A cut of `T`: below everything, just below a value, just above a value, above everything. -/
inductive Cut (T : Type*) where
  | belowAll
  | belowValue (endpoint : T)
  | aboveValue (endpoint : T)
  | aboveAll

namespace Cut

variable {T : Type*}

/-- The place of a cut among the values of `T`, each value being split into the cut just below it
and the cut just above it. -/
def position : Cut T → WithBot (WithTop (T ×ₗ Bool))
  | belowAll => ⊥
  | belowValue t => WithBot.some (WithTop.some (toLex (t, false)))
  | aboveValue t => WithBot.some (WithTop.some (toLex (t, true)))
  | aboveAll => WithBot.some ⊤

/-- Distinct cuts have distinct places. -/
theorem position_injective : Function.Injective (position : Cut T → _) := by
  rintro (_ | s | s | _) (_ | t | t | _) h <;> cases h <;> rfl

/-- The endpoint of a cut, absent for the two unbounded cuts. -/
def endpoint? : Cut T → Option T
  | belowValue t => some t
  | aboveValue t => some t
  | _ => none

/-- A bound without an endpoint is one of the two unbounded cuts. -/
theorem endpoint_eq_none_iff {c : Cut T} : c.endpoint? = none ↔ c = belowAll ∨ c = aboveAll := by
  cases c <;> simp [endpoint?]

variable [LinearOrder T]

instance : LinearOrder (Cut T) := LinearOrder.lift' position position_injective

/-- Cuts are compared by their places. -/
theorem le_def {c d : Cut T} : c ≤ d ↔ c.position ≤ d.position := Iff.rfl

/-- Cuts are compared by their places. -/
theorem lt_def {c d : Cut T} : c < d ↔ c.position < d.position := Iff.rfl

@[simp] theorem belowAll_le (c : Cut T) : belowAll ≤ c := bot_le (a := c.position)

@[simp] theorem le_aboveAll (c : Cut T) : c ≤ aboveAll := by
  cases c <;> simp [le_def, position]

@[simp] theorem belowAll_lt_belowValue (t : T) : belowAll < belowValue t := by
  simp [lt_def, position]

@[simp] theorem belowAll_lt_aboveValue (t : T) : belowAll < aboveValue t :=
  WithBot.bot_lt_coe _

@[simp] theorem belowValue_lt_aboveAll (t : T) : belowValue t < aboveAll :=
  WithBot.coe_lt_coe.mpr (WithTop.coe_lt_top _)

@[simp] theorem belowAll_lt_aboveAll : (belowAll : Cut T) < aboveAll :=
  WithBot.bot_lt_coe _

@[simp] theorem belowValue_le_belowValue {s t : T} : belowValue s ≤ belowValue t ↔ s ≤ t := by
  simp [le_def, position, Prod.Lex.toLex_le_toLex, ← le_iff_lt_or_eq]

@[simp] theorem belowValue_lt_belowValue {s t : T} : belowValue s < belowValue t ↔ s < t := by
  simp [lt_def, position, Prod.Lex.toLex_lt_toLex]

@[simp] theorem aboveValue_le_belowValue {s t : T} : aboveValue s ≤ belowValue t ↔ s < t := by
  simp [le_def, position, Prod.Lex.toLex_le_toLex]

@[simp] theorem belowValue_lt_aboveValue {s t : T} : belowValue s < aboveValue t ↔ s ≤ t := by
  rw [← not_le, aboveValue_le_belowValue, not_lt]

@[simp] theorem belowValue_le_aboveValue {s t : T} : belowValue s ≤ aboveValue t ↔ s ≤ t := by
  simp [le_def, position, Prod.Lex.toLex_le_toLex, ← le_iff_lt_or_eq]

@[simp] theorem aboveValue_le_aboveValue {s t : T} : aboveValue s ≤ aboveValue t ↔ s ≤ t := by
  simp [le_def, position, Prod.Lex.toLex_le_toLex, ← le_iff_lt_or_eq]

/-- Guava's `Cut.isLessThan`: the cut lies below the value. -/
def IsLessThan : Cut T → T → Prop
  | belowAll, _ => True
  | belowValue s, t => s ≤ t
  | aboveValue s, t => s < t
  | aboveAll, _ => False

instance : ∀ (c : Cut T) (t : T), Decidable (c.IsLessThan t)
  | belowAll, _ => isTrue trivial
  | belowValue s, t => inferInstanceAs (Decidable (s ≤ t))
  | aboveValue s, t => inferInstanceAs (Decidable (s < t))
  | aboveAll, _ => isFalse id

/-- A cut lies below a value exactly when it is at most the cut just below that value. -/
theorem isLessThan_iff {c : Cut T} {t : T} : c.IsLessThan t ↔ c ≤ belowValue t := by
  cases c with
  | belowAll => simp [IsLessThan]
  | belowValue s => simp [IsLessThan]
  | aboveValue s => simp [IsLessThan]
  | aboveAll => simp [IsLessThan]

/-- Nothing lies between the cut just below a value and the cut just above it. -/
theorem lt_aboveValue_iff {c : Cut T} {t : T} : c < aboveValue t ↔ c ≤ belowValue t := by
  cases c with
  | belowAll => exact iff_of_true (belowAll_lt_aboveValue t) (belowAll_le _)
  | belowValue s => rw [belowValue_lt_aboveValue, belowValue_le_belowValue]
  | aboveValue s => rw [lt_iff_not_ge, aboveValue_le_aboveValue, not_le, aboveValue_le_belowValue]
  | aboveAll =>
    have hnle : ¬ aboveAll ≤ belowValue t := not_le.mpr (belowValue_lt_aboveAll t)
    exact iff_of_false (not_lt.mpr (le_aboveAll _)) hnle

/-- The endpoint of a lower bound, if there is one, is at most `t` exactly when the bound lies at or
below `t`, or just above it. -/
theorem endpoint_le_iff {c : Cut T} (hc : c ≠ aboveAll) {t : T} :
    (∀ s ∈ c.endpoint?, s ≤ t) ↔ c ≤ belowValue t ∨ c = aboveValue t := by
  cases c with
  | belowAll => simp [endpoint?]
  | belowValue s => simp [endpoint?]
  | aboveValue s =>
    simp only [endpoint?, Option.mem_some_iff, forall_eq', aboveValue_le_belowValue,
      aboveValue.injEq]
    exact le_iff_lt_or_eq
  | aboveAll => exact absurd rfl hc

/-- The endpoint of an upper bound, if there is one, exceeds `t` exactly when the bound lies above
`t`, and not just above it. -/
theorem lt_endpoint_iff {c : Cut T} (hc : c ≠ belowAll) {t : T} :
    (∀ s ∈ c.endpoint?, t < s) ↔ belowValue t < c ∧ c ≠ aboveValue t := by
  cases c with
  | belowAll => exact absurd rfl hc
  | belowValue s => simp [endpoint?]
  | aboveValue s => simp [endpoint?, lt_iff_le_and_ne, eq_comm]
  | aboveAll => simp [endpoint?]

/-- Between an upper bound and a later lower bound lie two endpoints, in this order. -/
theorem exists_endpoint_le {c d : Cut T} (h : c ≤ d) (hc : c ≠ belowAll) (hd : d ≠ aboveAll) :
    ∃ s ∈ c.endpoint?, ∃ t ∈ d.endpoint?, s ≤ t := by
  cases c with
  | belowAll => exact absurd rfl hc
  | belowValue s =>
    cases d with
    | belowAll => exact absurd (belowAll_lt_belowValue s) (not_lt.mpr h)
    | belowValue t => exact ⟨s, rfl, t, rfl, belowValue_le_belowValue.mp h⟩
    | aboveValue t => exact ⟨s, rfl, t, rfl, belowValue_le_aboveValue.mp h⟩
    | aboveAll => exact absurd rfl hd
  | aboveValue s =>
    cases d with
    | belowAll => exact absurd (belowAll_lt_aboveValue s) (not_lt.mpr h)
    | belowValue t => exact ⟨s, rfl, t, rfl, (aboveValue_le_belowValue.mp h).le⟩
    | aboveValue t => exact ⟨s, rfl, t, rfl, aboveValue_le_aboveValue.mp h⟩
    | aboveAll => exact absurd rfl hd
  | aboveAll => exact absurd (le_antisymm (le_aboveAll d) h) hd

end Cut

/-- A range between two cuts.  As in Guava, the lower cut does not exceed the upper one, no range
starts above everything and none ends below everything; a range may still be empty. -/
structure Range (T : Type*) [LinearOrder T] where
  lowerBound : Cut T
  upperBound : Cut T
  ordered : lowerBound ≤ upperBound
  lowerBound_ne : lowerBound ≠ .aboveAll
  upperBound_ne : upperBound ≠ .belowAll

namespace Range

variable {T : Type*} [LinearOrder T]

/-- The non-empty range between two cuts. -/
def ofCuts (lo hi : Cut T) (h : lo < hi) : Range T where
  lowerBound := lo
  upperBound := hi
  ordered := h.le
  lowerBound_ne := fun hlo => absurd (Cut.le_aboveAll hi) (not_le.mpr (hlo ▸ h))
  upperBound_ne := fun hhi => absurd (Cut.belowAll_le lo) (not_le.mpr (hhi ▸ h))

/-- `Range.all()`. -/
def all : Range T := ofCuts .belowAll .aboveAll Cut.belowAll_lt_aboveAll

/-- `Range.atLeast(t)`: the half-line `[t, +∞)`. -/
def atLeast (t : T) : Range T := ofCuts (.belowValue t) .aboveAll (Cut.belowValue_lt_aboveAll t)

/-- `Range.closed(s, t)`: the segment `[s, t]`. -/
def closed (s t : T) (h : s ≤ t) : Range T :=
  ofCuts (.belowValue s) (.aboveValue t) (Cut.belowValue_lt_aboveValue.mpr h)

@[simp] theorem lowerBound_ofCuts {lo hi : Cut T} (h : lo < hi) :
    (ofCuts lo hi h).lowerBound = lo := rfl

@[simp] theorem upperBound_ofCuts {lo hi : Cut T} (h : lo < hi) :
    (ofCuts lo hi h).upperBound = hi := rfl

/-- `Range.isEmpty()`: nothing lies between the two cuts. -/
def IsEmpty (r : Range T) : Prop := r.lowerBound = r.upperBound

instance (r : Range T) : Decidable r.IsEmpty :=
  inferInstanceAs (Decidable (r.lowerBound = r.upperBound))

/-- `Range.contains(t)`. -/
instance : Membership T (Range T) where
  mem r t := r.lowerBound.IsLessThan t ∧ ¬ r.upperBound.IsLessThan t

instance (t : T) (r : Range T) : Decidable (t ∈ r) :=
  inferInstanceAs (Decidable (_ ∧ ¬ _))

/-- A value lies in a range when the cut just below it lies between the bounds. -/
theorem mem_iff {t : T} {r : Range T} :
    t ∈ r ↔ r.lowerBound ≤ .belowValue t ∧ .belowValue t < r.upperBound := by
  change r.lowerBound.IsLessThan t ∧ ¬ r.upperBound.IsLessThan t ↔ _
  rw [Cut.isLessThan_iff, Cut.isLessThan_iff, not_le]

@[simp] theorem mem_all (t : T) : t ∈ (all : Range T) := by
  simp [mem_iff, all]

@[simp] theorem mem_atLeast {s t : T} : t ∈ atLeast s ↔ s ≤ t := by
  simp [mem_iff, atLeast]

@[simp] theorem mem_closed {s t u : T} (h : s ≤ t) : u ∈ closed s t h ↔ s ≤ u ∧ u ≤ t := by
  simp [mem_iff, closed]

/-- Nothing lies in an empty range. -/
theorem IsEmpty.notMem {r : Range T} (h : r.IsEmpty) (t : T) : t ∉ r := by
  intro ht
  obtain ⟨hlo, hhi⟩ := mem_iff.mp ht
  exact absurd (lt_of_le_of_lt hlo hhi) (h ▸ lt_irrefl _)

/-- A range that is not empty has its lower bound strictly below its upper bound. -/
theorem lt_of_not_isEmpty {r : Range T} (h : ¬ r.IsEmpty) : r.lowerBound < r.upperBound :=
  lt_of_le_of_ne r.ordered h

/-- Two ranges, the first of which ends where the second starts or earlier, share no value. -/
theorem disjoint_of_le {r s : Range T} (h : r.upperBound ≤ s.lowerBound) {t : T} (hr : t ∈ r) :
    t ∉ s := by
  intro hs
  have hlt : Cut.belowValue t < s.lowerBound := (mem_iff.mp hr).2.trans_le h
  exact absurd (mem_iff.mp hs).1 (not_le.mpr hlt)

/-! ### Restriction to a window -/

/-- The intersection of a range with the window between two cuts, if it is not empty. -/
def restrict (r : Range T) (lo hi : Cut T) : Option (Range T) :=
  if h : max r.lowerBound lo < min r.upperBound hi then some (ofCuts _ _ h) else none

/-- A restriction exists exactly when the intersection is not empty, and lies between the larger
lower cut and the smaller upper cut. -/
theorem restrict_eq_some {r s : Range T} {lo hi : Cut T} (h : r.restrict lo hi = some s) :
    s.lowerBound = max r.lowerBound lo ∧ s.upperBound = min r.upperBound hi ∧
      s.lowerBound < s.upperBound := by
  unfold restrict at h
  split at h
  · next hlt => cases h; exact ⟨rfl, rfl, hlt⟩
  · cases h

/-- The values of a restriction are the values of the range inside the window. -/
theorem mem_restrict {r s : Range T} {lo hi : Cut T} (h : r.restrict lo hi = some s) {t : T} :
    t ∈ s ↔ t ∈ r ∧ lo ≤ .belowValue t ∧ .belowValue t < hi := by
  obtain ⟨hlo, hhi, -⟩ := restrict_eq_some h
  rw [mem_iff, mem_iff, hlo, hhi, max_le_iff, lt_min_iff]
  tauto

/-- A value of the range inside the window witnesses that the restriction exists. -/
theorem exists_restrict {r : Range T} {lo hi : Cut T} {t : T} (ht : t ∈ r)
    (hlo : lo ≤ .belowValue t) (hhi : .belowValue t < hi) : ∃ s, r.restrict lo hi = some s := by
  have hlt : max r.lowerBound lo < min r.upperBound hi :=
    lt_of_le_of_lt (max_le (mem_iff.mp ht).1 hlo) (lt_min (mem_iff.mp ht).2 hhi)
  exact ⟨_, dif_pos hlt⟩

end Range

end Foundation
