import CwatchBackend.Foundation.Latest
import CwatchBackend.Foundation.Run
import CwatchBackend.Message
import Mathlib.Data.Finset.Insert
import Mathlib.Data.Finset.Dedup

/-!
# The profile of latest positions

`process.MemoryLatestPositionProfile`: a report that is recent enough and passes the filter enters
`positionMap` if it is newer than the entry of its vessel, and is then handed to the registered
views one after the other.  A view that throws ends the call; what has been done before stays done.

The views are objects with a state of their own.  `handle w` is what handling a report does to the
state of the view `w`, and whether it throws.  Every call of a profile comes with its clock reading
and with the order in which the set of views is iterated.
-/

namespace CwatchBackend

open Foundation

/-- `EnrichedPosition<V, P>`. -/
structure EnrichedPosition (V P : Type) where
  position : P
  identity : V

/-- An enriched report of any of the three sources. -/
abbrev Enriched (V : Type) : Type := EnrichedPosition V SourcePosition

/-- What the report says, whatever its source. -/
def SourcePosition.default (p : SourcePosition) : DefaultPosition := p.position.toDefaultPosition

/-- `getPosition().getTimestamp()`. -/
def EnrichedPosition.timestamp {V : Type} (e : Enriched V) : Date := e.position.default.timestamp

/-- An enriched report of a source among those of any source. -/
def EnrichedPosition.ofSource {V : Type} (s : Source) (e : EnrichedPosition V (Position s)) :
    Enriched V :=
  ⟨⟨s, e.position⟩, e.identity⟩

/-- `EnrichedPositionFilter<V>`. -/
structure EnrichedPositionFilter (V : Type) where
  testAis : EnrichedPosition V (Position .ais) → Bool
  testLrit : EnrichedPosition V (Position .lrit) → Bool
  testVms : EnrichedPosition V (Position .vms) → Bool

/-- The test of the filter for the source of the report. -/
def EnrichedPositionFilter.test {V : Type} (filter : EnrichedPositionFilter V) :
    Enriched V → Bool
  | ⟨⟨.ais, p⟩, identity⟩ => filter.testAis ⟨p, identity⟩
  | ⟨⟨.lrit, p⟩, identity⟩ => filter.testLrit ⟨p, identity⟩
  | ⟨⟨.vms, p⟩, identity⟩ => filter.testVms ⟨p, identity⟩

/-- `EnrichedPositionFilter.ALL`. -/
def EnrichedPositionFilter.all {V : Type} : EnrichedPositionFilter V :=
  ⟨fun _ => true, fun _ => true, fun _ => true⟩

/-! ### The views -/

/-- The view objects: their states and, kept for the statements, the reports that each of them has
been handed, oldest first. -/
structure Views (V W σ : Type) where
  state : W → σ
  handed : W → List (Enriched V)

/-- What handling a report does to the state of a view, and what it throws. -/
abbrev Handler (V W σ : Type) : Type := W → σ → Enriched V → σ × Option Throwable

namespace Views

variable {V W σ : Type} [DecidableEq W] (handle : Handler V W σ)

/-- A view is handed a report. -/
def hand (views : Views V W σ) (w : W) (e : Enriched V) : Views V W σ × Option Throwable :=
  let result := handle w (views.state w) e
  ({ state := Function.update views.state w result.1
     handed := Function.update views.handed w (views.handed w ++ [e]) }, result.2)

/-- `views.stream().forEach(v -> v.process(e))`: an exception ends the loop. -/
def forEach (e : Enriched V) : List W → Views V W σ → Views V W σ × Option Throwable
  | [], views => (views, none)
  | w :: order, views =>
    match views.hand handle w e with
    | (views, none) => forEach e order views
    | (views, some throwable) => (views, some throwable)

end Views

/-! ### The profile -/

/-- `MemoryLatestPositionProfile<V>` with views of type `W`. -/
structure MemoryLatestPositionProfile (V W : Type) where
  views : Finset W
  positionMap : V → Option (Enriched V)
  positionFilter : EnrichedPositionFilter V
  timeoutMilliseconds : Int64

namespace MemoryLatestPositionProfile

variable {V W : Type}

/-- A new profile. -/
def new (positionFilter : EnrichedPositionFilter V) (timeoutMilliseconds : Int64) :
    MemoryLatestPositionProfile V W :=
  { views := ∅, positionMap := fun _ => none, positionFilter, timeoutMilliseconds }

/-- `register(view)`. -/
def register [DecidableEq W] (profile : MemoryLatestPositionProfile V W) (view : W) :
    MemoryLatestPositionProfile V W :=
  { profile with views := insert view profile.views }

/-- The order is one in which `positionMap.values()` may be iterated: every vessel with an entry
comes once. -/
def Iterates (profile : MemoryLatestPositionProfile V W) (order : List V) : Prop :=
  order.Nodup ∧ ∀ v, v ∈ order ↔ (profile.positionMap v).isSome = true

/-- `queryArea(latitudeFrom, latitudeTo, longitudeFrom, longitudeTo)`, with the entries in the
order `order` of their vessels. -/
def queryArea (profile : MemoryLatestPositionProfile V W) (order : List V) (box : Box) :
    List (Enriched V) :=
  (order.filterMap profile.positionMap).filter fun e => box.Contains e.position.default

/-- `testTimeout(position)` at the clock reading `now`, in the arithmetic of `long`. -/
def testTimeout (profile : MemoryLatestPositionProfile V W) (now : Int64) (e : Enriched V) :
    Bool :=
  now - profile.timeoutMilliseconds < e.timestamp.getTime

/-- `testNewer(position)`: its answer, and the profile with the report in its `positionMap` if the
answer is yes. -/
def testNewer [DecidableEq V] (profile : MemoryLatestPositionProfile V W) (e : Enriched V) :
    Bool × MemoryLatestPositionProfile V W :=
  let currentLatest := profile.positionMap e.identity
  -- An absent entry is the `null` of the source.
  if currentLatest.all fun latest => latest.timestamp < e.timestamp then
    (true, { profile with positionMap := Function.update profile.positionMap e.identity (some e) })
  else (false, profile)

/-- The report passes the timeout and the filter. -/
def Accepts (profile : MemoryLatestPositionProfile V W) (now : Int64) (e : Enriched V) : Prop :=
  profile.testTimeout now e = true ∧ profile.positionFilter.test e = true

instance (profile : MemoryLatestPositionProfile V W) (now : Int64) (e : Enriched V) :
    Decidable (profile.Accepts now e) :=
  inferInstanceAs (Decidable (_ ∧ _))

/-- The condition under which `processAis`, `processLrit` and `processVms` hand the report over to
the views, and the profile after it has been evaluated. -/
def handsOver [DecidableEq V] (profile : MemoryLatestPositionProfile V W) (now : Int64)
    (e : Enriched V) : Bool × MemoryLatestPositionProfile V W :=
  if profile.testTimeout now e && profile.positionFilter.test e then profile.testNewer e
  else (false, profile)

end MemoryLatestPositionProfile

/-- A profile and the view objects. -/
structure ProfileState (V W σ : Type) where
  profile : MemoryLatestPositionProfile V W
  views : Views V W σ

namespace ProfileState

variable {V W σ : Type} [DecidableEq V] [DecidableEq W] (handle : Handler V W σ)

/-- What `processAis`, `processLrit` and `processVms` have in common: the three tests, then the
views in the order `order`. -/
def process (s : ProfileState V W σ) (now : Int64) (order : List W) (e : Enriched V) :
    ProfileState V W σ × Option Throwable :=
  if s.profile.testTimeout now e && s.profile.positionFilter.test e then
    match s.profile.testNewer e with
    | (true, profile) =>
      let result := s.views.forEach handle e order
      (⟨profile, result.1⟩, result.2)
    | (false, profile) => (⟨profile, s.views⟩, none)
  else (s, none)

/-- `processAis(position)`. -/
def processAis (s : ProfileState V W σ) (now : Int64) (order : List W)
    (position : EnrichedPosition V (Position .ais)) : ProfileState V W σ × Option Throwable :=
  s.process handle now order (.ofSource .ais position)

/-- `processLrit(position)`. -/
def processLrit (s : ProfileState V W σ) (now : Int64) (order : List W)
    (position : EnrichedPosition V (Position .lrit)) : ProfileState V W σ × Option Throwable :=
  s.process handle now order (.ofSource .lrit position)

/-- `processVms(position)`. -/
def processVms (s : ProfileState V W σ) (now : Int64) (order : List W)
    (position : EnrichedPosition V (Position .vms)) : ProfileState V W σ × Option Throwable :=
  s.process handle now order (.ofSource .vms position)

/-- The calls of a profile: a report, with the clock reading and the iteration order of the call,
or the registration of a view. -/
inductive Call (V W : Type) where
  | processAis (now : Int64) (order : List W) (position : EnrichedPosition V (Position .ais))
  | processLrit (now : Int64) (order : List W) (position : EnrichedPosition V (Position .lrit))
  | processVms (now : Int64) (order : List W) (position : EnrichedPosition V (Position .vms))
  | register (view : W)

/-- The report of a call, with its clock reading and its iteration order. -/
def Call.report? : Call V W → Option (Int64 × List W × Enriched V)
  | .processAis now order position => some (now, order, .ofSource .ais position)
  | .processLrit now order position => some (now, order, .ofSource .lrit position)
  | .processVms now order position => some (now, order, .ofSource .vms position)
  | .register _ => none

/-- One call: the state it leaves and what it throws. -/
def call (s : ProfileState V W σ) : Call V W → ProfileState V W σ × Option Throwable
  | .processAis now order position => s.processAis handle now order position
  | .processLrit now order position => s.processLrit handle now order position
  | .processVms now order position => s.processVms handle now order position
  | .register view => ({ s with profile := s.profile.register view }, none)

/-- The iteration order of the call visits every registered view once. -/
def Visits (s : ProfileState V W σ) (c : Call V W) : Prop :=
  ∀ r ∈ c.report?, r.2.1.Nodup ∧ r.2.1.toFinset = s.profile.views

instance (s : ProfileState V W σ) (c : Call V W) : Decidable (s.Visits c) :=
  inferInstanceAs (Decidable (∀ r ∈ c.report?, r.2.1.Nodup ∧ r.2.1.toFinset = s.profile.views))

/-- The steps of a sequential run: calls that visit the registered views. -/
def step (s : ProfileState V W σ) (c : Call V W) : Option (ProfileState V W σ) :=
  if s.Visits c then some (s.call handle c).1 else none

end ProfileState

end CwatchBackend
