import Mathlib.Algebra.Order.Ring.Rat
import Mathlib.Data.Int.Order.Basic
import Mathlib.Data.String.Basic
import Mathlib.Order.WithBot
import Mathlib.Tactic.Common

/-!
# Positions

The data that the components exchange: timestamps, the position reports of the three sources
(`AisPosition`, `LritPosition`, `VmsPosition`) and the exceptions a call may end with.

A `java.util.Date` is its 64-bit number of milliseconds.  Coordinates and headings are ordinary
numbers, modelled exactly.  The three kinds of report differ only in the type of their identifier
(`Source.Id`), so `Position s` is the report type of the source `s`.
-/

namespace CwatchBackend

/-- `java.util.Date`: a point in time, in milliseconds. -/
structure Date where
  getTime : Int64
  deriving DecidableEq

namespace Date

/-- Distinct points in time have distinct numbers of milliseconds. -/
theorem toInt_injective : Function.Injective fun d : Date => d.getTime.toInt := by
  rintro ⟨a⟩ ⟨b⟩ h
  exact congrArg Date.mk (Int64.toInt.inj h)

instance : LinearOrder Date := LinearOrder.lift' (fun d => d.getTime.toInt) toInt_injective

/-- Points in time are compared by their milliseconds. -/
theorem le_def {a b : Date} : a ≤ b ↔ a.getTime.toInt ≤ b.getTime.toInt := Iff.rfl

/-- Points in time are compared by their milliseconds. -/
theorem lt_def {a b : Date} : a < b ↔ a.getTime.toInt < b.getTime.toInt := Iff.rfl

/-- The point in time of `Long.MAX_VALUE` milliseconds. -/
def maxValue : Date := ⟨Int64.maxValue⟩

/-- No point in time lies after that of `Long.MAX_VALUE`. -/
theorem le_maxValue (d : Date) : d ≤ maxValue := Int64.toInt_le d.getTime

/-- Every other point in time lies before that of `Long.MAX_VALUE`. -/
theorem lt_maxValue_iff {d : Date} : d < maxValue ↔ d ≠ maxValue := (le_maxValue d).lt_iff_ne

end Date

/-- What a call may throw. -/
inductive Throwable where
  | nullPointerException
  | illegalArgumentException (message : String)
  | runtimeException (cause : String)
  deriving DecidableEq

/-- The sources of position reports. -/
inductive Source where
  | ais
  | lrit
  | vms
  deriving DecidableEq

/-- All sources. -/
def Source.all : List Source := [ais, lrit, vms]

/-- Every source is among them. -/
theorem Source.mem_all (s : Source) : s ∈ all := by cases s <;> decide

/-- No source occurs twice. -/
theorem Source.nodup_all : all.Nodup := by decide

instance linearOrderInt32 : LinearOrder Int32 where
  le_refl := Int32.le_refl
  le_trans _ _ _ := Int32.le_trans
  lt_iff_le_not_ge a b := by
    simp only [Int32.lt_iff_toInt_lt, Int32.le_iff_toInt_le]
    omega
  le_antisymm _ _ := Int32.le_antisymm
  le_total := Int32.le_total
  toDecidableLE := inferInstance
  toDecidableEq := inferInstance
  toDecidableLT := inferInstance

/-- The identifiers of a source: MMSI and IMO numbers, and IR codes. -/
def Source.Id : Source → Type
  | .ais => Int32
  | .lrit => Int32
  | .vms => String

instance : ∀ s : Source, LinearOrder s.Id
  | .ais => inferInstanceAs (LinearOrder Int32)
  | .lrit => inferInstanceAs (LinearOrder Int32)
  | .vms => inferInstanceAs (LinearOrder String)

/-- `message.DefaultPosition`: what every report says. -/
structure DefaultPosition where
  timestamp : Date
  latitude : ℚ
  longitude : ℚ
  heading : ℚ
  deriving DecidableEq

/-- `message.TypedPosition<I>`: a report and the identifier it carries. -/
structure TypedPosition (I : Type) extends DefaultPosition where
  id : I
  deriving DecidableEq

/-- The reports of a source: `AisPosition`, `LritPosition` or `VmsPosition`. -/
abbrev Position (s : Source) : Type := TypedPosition s.Id

/-- A report of any source. -/
structure SourcePosition where
  source : Source
  position : Position source

/-- A bound of an area query, which may be infinite. -/
abbrev Bound := WithBot (WithTop ℚ)

/-- A coordinate among the bounds. -/
def bound (q : ℚ) : Bound := ((q : WithTop ℚ) : WithBot (WithTop ℚ))

/-- The four bounds of an area query. -/
structure Box where
  latitudeFrom : Bound
  latitudeTo : Bound
  longitudeFrom : Bound
  longitudeTo : Bound

/-- The four comparisons of an area query. -/
def Box.Contains (box : Box) (p : DefaultPosition) : Prop :=
  box.latitudeFrom ≤ bound p.latitude ∧
    bound p.latitude ≤ box.latitudeTo ∧
    box.longitudeFrom ≤ bound p.longitude ∧
    bound p.longitude ≤ box.longitudeTo

instance (box : Box) (p : DefaultPosition) : Decidable (box.Contains p) :=
  inferInstanceAs (Decidable (_ ∧ _))

/-- `store.VesselId`. -/
structure VesselId where
  id : Int32
  deriving DecidableEq

end CwatchBackend
