import CwatchBackend.Process.Profile

/-!
# Sequential runs of a profile

A call is described once: which reports enter `positionMap` (`profile_process`), and which views are
handed the report, namely those that no throwing view precedes in the iteration order
(`mem_visited_iff`, `views_process`).

Over a run `positionMap` keeps the latest accepted report of every vessel, and a view is handed the
records among the accepted reports exactly if every call reaches it (`latest_reports`).  A view that
throws costs the views after it the report for good, for a report that has once entered
`positionMap` is never newer again (`failing_view_costs_report`).
-/

namespace CwatchBackend

open Foundation

/-! ### One pass over the views -/

namespace Views

variable {V W σ : Type} [DecidableEq W] {handle : Handler V W σ}

/-- Handling the report throws in the view. -/
def Throws (handle : Handler V W σ) (views : Views V W σ) (e : Enriched V) (w : W) : Prop :=
  (handle w (views.state w) e).2 ≠ none

instance (views : Views V W σ) (e : Enriched V) : DecidablePred (views.Throws handle e) :=
  fun w => inferInstanceAs (Decidable ((handle w (views.state w) e).2 ≠ none))

/-- The views up to the first one that throws. -/
def visited (handle : Handler V W σ) (views : Views V W σ) (e : Enriched V) : List W → List W
  | [] => []
  | w :: order => if views.Throws handle e w then [w] else w :: visited handle views e order

omit [DecidableEq W] in
/-- A view is visited if no throwing view precedes it. -/
theorem mem_visited_iff {views : Views V W σ} {e : Enriched V} {order : List W} {w : W} :
    w ∈ views.visited handle e order ↔
      ∃ pre post, order = pre ++ w :: post ∧ ∀ u ∈ pre, ¬ views.Throws handle e u := by
  induction order with
  | nil => simp [visited]
  | cons u order ih =>
    rw [visited]
    constructor
    · intro hw
      split at hw
      · exact ⟨[], order, by rw [List.mem_singleton.mp hw, List.nil_append], by simp⟩
      · next hu =>
        rcases List.mem_cons.mp hw with rfl | hw
        · exact ⟨[], order, rfl, by simp⟩
        · obtain ⟨pre, post, rfl, hpre⟩ := ih.mp hw
          exact ⟨u :: pre, post, rfl, List.forall_mem_cons.mpr ⟨hu, hpre⟩⟩
    · rintro ⟨pre, post, horder, hpre⟩
      cases pre with
      | nil =>
        obtain ⟨rfl, -⟩ := List.cons.inj horder
        split <;> simp
      | cons u' pre =>
        obtain ⟨rfl, rfl⟩ := List.cons.inj horder
        obtain ⟨hu, hpre⟩ := List.forall_mem_cons.mp hpre
        rw [if_neg hu]
        exact List.mem_cons_of_mem _ (ih.mpr ⟨pre, post, rfl, hpre⟩)

omit [DecidableEq W] in
/-- The visited views depend on the states of the views in the order only. -/
theorem visited_congr {views views' : Views V W σ} {e : Enriched V} {order : List W}
    (h : ∀ w ∈ order, views'.state w = views.state w) :
    views'.visited handle e order = views.visited handle e order := by
  induction order with
  | nil => rfl
  | cons w order ih =>
    obtain ⟨hw, horder⟩ := List.forall_mem_cons.mp h
    have hthrows : views'.Throws handle e w ↔ views.Throws handle e w := by rw [Throws, hw, Throws]
    rw [visited, visited, ih horder, if_congr hthrows rfl rfl]

omit [DecidableEq W] in
/-- Without throwing views all are visited. -/
theorem visited_of_allReturn {views : Views V W σ} {e : Enriched V} {order : List W}
    (h : ∀ w ∈ order, ¬ views.Throws handle e w) : views.visited handle e order = order := by
  induction order with
  | nil => rfl
  | cons w order ih =>
    obtain ⟨hw, horder⟩ := List.forall_mem_cons.mp h
    rw [visited, if_neg hw, ih horder]

/-- The views after some of them have handled a report. -/
def after (handle : Handler V W σ) (views : Views V W σ) (e : Enriched V) (visited : List W) :
    Views V W σ where
  state w := if w ∈ visited then (handle w (views.state w) e).1 else views.state w
  handed w := if w ∈ visited then views.handed w ++ [e] else views.handed w

/-- A view that has handled the report has been handed it. -/
theorem handed_after_of_mem {views : Views V W σ} {e : Enriched V} {l : List W} {w : W}
    (hw : w ∈ l) : (views.after handle e l).handed w = views.handed w ++ [e] := if_pos hw

/-- Another view has been handed nothing. -/
theorem handed_after_of_notMem {views : Views V W σ} {e : Enriched V} {l : List W} {w : W}
    (hw : w ∉ l) : (views.after handle e l).handed w = views.handed w := if_neg hw

/-- Handling the report in one more view. -/
theorem after_after {views : Views V W σ} {e : Enriched V} {w : W} {l : List W} (hw : w ∉ l) :
    (views.after handle e [w]).after handle e l = views.after handle e (w :: l) := by
  have hother : ∀ u ∈ l, u ≠ w := fun u hu h => hw (h ▸ hu)
  simp only [after, mk.injEq, List.mem_cons, List.not_mem_nil, or_false]
  constructor <;> funext u <;> by_cases hu : u ∈ l
  · simp [hu, hother u hu]
  · simp [hu]
  · simp [hu, hother u hu]
  · simp [hu]

/-- The loop hands the report to the visited views, and ends normally if none of them throws. -/
theorem forEach_eq (handle : Handler V W σ) (e : Enriched V) {order : List W}
    (horder : order.Nodup) (views : Views V W σ) :
    (views.forEach handle e order).1 = views.after handle e (views.visited handle e order) ∧
      ((views.forEach handle e order).2 = none ↔ ∀ w ∈ order, ¬ views.Throws handle e w) := by
  induction order generalizing views with
  | nil => simp [forEach, visited, after]
  | cons w order ih =>
    obtain ⟨hw, horder⟩ := List.nodup_cons.mp horder
    have hhand : (views.hand handle w e).1 = views.after handle e [w] := by
      simp only [hand, after, mk.injEq]
      constructor <;> funext u <;> by_cases hu : u = w <;> simp [Function.update, hu]
    by_cases hthrows : views.Throws handle e w
    · obtain ⟨throwable, hthrowable⟩ := Option.ne_none_iff_exists'.mp hthrows
      have hresult : views.hand handle w e = (views.after handle e [w], some throwable) :=
        Prod.ext hhand hthrowable
      rw [forEach, visited, hresult, if_pos hthrows]
      simp [hthrows]
    · have hresult : views.hand handle w e = (views.after handle e [w], none) :=
        Prod.ext hhand (not_ne_iff.mp hthrows)
      -- Handling the report changes no state but that of `w`, which does not come again.
      have hstate : ∀ u ∈ order, (views.after handle e [w]).state u = views.state u := by
        intro u hu
        have hne : u ≠ w := fun h => hw (h ▸ hu)
        simp [after, hne]
      have hvisited : w ∉ views.visited handle e order := by
        intro h
        obtain ⟨pre, post, rfl, -⟩ := mem_visited_iff.mp h
        exact hw (by simp)
      obtain ⟨hafter, hnone⟩ := ih horder (views.after handle e [w])
      rw [forEach, visited, hresult, if_neg hthrows]
      constructor
      · rw [hafter, visited_congr hstate, after_after hvisited]
      · rw [hnone, List.forall_mem_cons, and_iff_right hthrows]
        refine forall₂_congr fun u hu => ?_
        simp only [Throws, hstate u hu]

end Views

/-! ### One call -/

namespace MemoryLatestPositionProfile

variable {V W : Type} [DecidableEq V]

/-- The report is newer than the entry of its vessel. -/
abbrev IsNewer (profile : MemoryLatestPositionProfile V W) (e : Enriched V) : Prop :=
  Newer EnrichedPosition.identity EnrichedPosition.timestamp profile.positionMap e

/-- The profile after a report has passed the timeout and the filter. -/
def keep (profile : MemoryLatestPositionProfile V W) (e : Enriched V) :
    MemoryLatestPositionProfile V W :=
  { profile with
    positionMap :=
      keepLatest EnrichedPosition.identity EnrichedPosition.timestamp profile.positionMap e }

/-- `testNewer` keeps the latest report of every vessel. -/
theorem testNewer_eq (profile : MemoryLatestPositionProfile V W) (e : Enriched V) :
    profile.testNewer e = (decide (profile.IsNewer e), profile.keep e) := by
  have hnewer : ((profile.positionMap e.identity).all fun latest =>
      latest.timestamp < e.timestamp) = decide (profile.IsNewer e) := by
    rw [Bool.eq_iff_iff, decide_eq_true_iff, IsNewer, Newer]
    cases profile.positionMap e.identity <;> simp
  rw [testNewer, hnewer]
  by_cases h : profile.IsNewer e
  · rw [if_pos (decide_eq_true h), decide_eq_true h, keep, keepLatest, if_pos h]
  · rw [if_neg (by simpa using h), decide_eq_false h, keep, keepLatest, if_neg h]

/-- A report that is not newer changes nothing. -/
theorem keep_of_not_isNewer {profile : MemoryLatestPositionProfile V W} {e : Enriched V}
    (h : ¬ profile.IsNewer e) : profile.keep e = profile := by
  rw [keep, keepLatest, if_neg h]

/-- A report that is newer replaces the entry of its vessel. -/
theorem positionMap_keep_of_isNewer {profile : MemoryLatestPositionProfile V W} {e : Enriched V}
    (h : profile.IsNewer e) :
    (profile.keep e).positionMap =
      Function.update profile.positionMap e.identity (some e) := by
  rw [keep, keepLatest, if_pos h]

/-- A report is handed over if it is accepted and newer. -/
theorem handsOver_eq (profile : MemoryLatestPositionProfile V W) (now : Int64) (e : Enriched V) :
    profile.handsOver now e =
      if profile.Accepts now e then (decide (profile.IsNewer e), profile.keep e)
      else (false, profile) := by
  rw [handsOver, testNewer_eq]
  exact if_congr (by simp [Accepts]) rfl rfl

/-- The tests put no other report into `positionMap`. -/
theorem positionMap_handsOver {profile : MemoryLatestPositionProfile V W} {now : Int64}
    {e f : Enriched V} {v : V} (h : (profile.handsOver now e).2.positionMap v = some f) :
    f = e ∨ profile.positionMap v = some f := by
  rw [handsOver_eq] at h
  by_cases haccepts : profile.Accepts now e ∧ profile.IsNewer e
  · rw [if_pos haccepts.1, positionMap_keep_of_isNewer haccepts.2] at h
    by_cases hv : v = e.identity
    · subst hv
      rw [Function.update_self] at h
      exact Or.inl (Option.some.inj h).symm
    · rw [Function.update_of_ne hv] at h
      exact Or.inr h
  · refine Or.inr ?_
    split at h
    · next h' => rwa [keep_of_not_isNewer fun hnewer => haccepts ⟨h', hnewer⟩] at h
    · exact h

end MemoryLatestPositionProfile

namespace ProfileState

variable {V W σ : Type} [DecidableEq V] [DecidableEq W] {handle : Handler V W σ}

/-- `process` hands over what passes the tests. -/
theorem process_eq_handsOver (s : ProfileState V W σ) (now : Int64) (order : List W)
    (e : Enriched V) :
    s.process handle now order e =
      match s.profile.handsOver now e with
      | (true, profile) =>
        (⟨profile, (s.views.forEach handle e order).1⟩, (s.views.forEach handle e order).2)
      | (false, profile) => (⟨profile, s.views⟩, none) := by
  unfold process MemoryLatestPositionProfile.handsOver
  split
  · rfl
  · rfl

/-- A report that does not pass the timeout and the filter changes nothing. -/
theorem process_of_not_accepts {s : ProfileState V W σ} {now : Int64} {e : Enriched V}
    (h : ¬ s.profile.Accepts now e) (order : List W) :
    s.process handle now order e = (s, none) := by
  rw [process, if_neg]
  simpa [MemoryLatestPositionProfile.Accepts] using h

/-- A report that is not newer changes nothing. -/
theorem process_of_not_isNewer {s : ProfileState V W σ} {now : Int64} {e : Enriched V}
    (h : ¬ s.profile.IsNewer e) (order : List W) :
    s.process handle now order e = (s, none) := by
  by_cases haccepts : s.profile.Accepts now e
  · rw [process, if_pos (by simpa [MemoryLatestPositionProfile.Accepts] using haccepts),
      MemoryLatestPositionProfile.testNewer_eq, decide_eq_false h,
      MemoryLatestPositionProfile.keep_of_not_isNewer h]
  · exact process_of_not_accepts haccepts order

/-- A report that passes all tests enters `positionMap` and is handed to the visited views. -/
theorem process_of_isNewer (handle : Handler V W σ) {s : ProfileState V W σ} {now : Int64}
    {e : Enriched V} (haccepts : s.profile.Accepts now e) (hnewer : s.profile.IsNewer e)
    {order : List W} (horder : order.Nodup) :
    (s.process handle now order e).1 =
        ⟨s.profile.keep e, s.views.after handle e (s.views.visited handle e order)⟩ ∧
      ((s.process handle now order e).2 = none ↔ ∀ w ∈ order, ¬ s.views.Throws handle e w) := by
  obtain ⟨hafter, hnone⟩ := Views.forEach_eq handle e horder s.views
  rw [process, if_pos (by simpa [MemoryLatestPositionProfile.Accepts] using haccepts),
    MemoryLatestPositionProfile.testNewer_eq, decide_eq_true hnewer]
  exact ⟨congrArg (ProfileState.mk _) hafter, hnone⟩

/-- An accepted report is kept if it is newer. -/
theorem profile_process {s : ProfileState V W σ} {now : Int64} {e : Enriched V} {order : List W}
    (horder : order.Nodup) :
    (s.process handle now order e).1.profile =
      if s.profile.Accepts now e then s.profile.keep e else s.profile := by
  by_cases haccepts : s.profile.Accepts now e
  · rw [if_pos haccepts]
    by_cases hnewer : s.profile.IsNewer e
    · rw [(process_of_isNewer handle haccepts hnewer horder).1]
    · rw [process_of_not_isNewer hnewer, MemoryLatestPositionProfile.keep_of_not_isNewer hnewer]
  · rw [process_of_not_accepts haccepts, if_neg haccepts]

/-- A call with a report processes the report. -/
theorem call_of_report {c : Call V W} {now : Int64} {order : List W} {e : Enriched V}
    (h : c.report? = some (now, order, e)) (s : ProfileState V W σ) :
    s.call handle c = s.process handle now order e := by
  cases c <;> cases h <;> rfl

omit [DecidableEq V] [DecidableEq W] in
/-- A call without a report registers a view. -/
theorem eq_register_of_report {c : Call V W} (h : c.report? = none) :
    ∃ view, c = .register view := by
  cases c with
  | register view => exact ⟨view, rfl⟩
  | _ => cases h

/-- The call returns normally. -/
def ReturnsNormally (handle : Handler V W σ) (s : ProfileState V W σ) (c : Call V W) : Prop :=
  (s.call handle c).2 = none

/-- The call reaches the view `w`: if its report passes all tests, the iteration comes to `w` before
any view throws. -/
def Reaches (handle : Handler V W σ) (w : W) (s : ProfileState V W σ) (c : Call V W) : Prop :=
  ∀ now order e, c.report? = some (now, order, e) → s.profile.Accepts now e →
    s.profile.IsNewer e → ∃ pre post, order = pre ++ w :: post ∧
      ∀ u ∈ pre, ¬ s.views.Throws handle e u

/-! ### Runs -/

/-- A profile with an empty `positionMap` and the given views, none of which has been handed a
report. -/
def start (positionFilter : EnrichedPositionFilter V) (timeoutMilliseconds : Int64)
    (views : Finset W) (state : W → σ) : ProfileState V W σ where
  profile :=
    { (.new positionFilter timeoutMilliseconds : MemoryLatestPositionProfile V W) with views }
  views := { state, handed := fun _ => [] }

/-- The report of the call, if it passes the timeout and the filter of the profile. -/
def acceptedReport (profile : MemoryLatestPositionProfile V W) (c : Call V W) :
    Option (Enriched V) :=
  c.report?.bind fun r => if profile.Accepts r.1 r.2.2 then some r.2.2 else none

/-- The accepted reports of the calls, in arrival order. -/
def accepted (profile : MemoryLatestPositionProfile V W) (calls : List (Call V W)) :
    List (Enriched V) :=
  calls.filterMap (acceptedReport profile)

/-- The accepted reports that are newer than all earlier accepted ones of their vessel. -/
def recordsOf (profile : MemoryLatestPositionProfile V W) (calls : List (Call V W)) :
    List (Enriched V) :=
  records EnrichedPosition.identity EnrichedPosition.timestamp (accepted profile calls)

/-- `s` is reached from `s₀` with its filter, its timeout and all its views. -/
structure Extends (s₀ s : ProfileState V W σ) : Prop where
  positionFilter : s.profile.positionFilter = s₀.profile.positionFilter
  timeoutMilliseconds : s.profile.timeoutMilliseconds = s₀.profile.timeoutMilliseconds
  views : s₀.profile.views ⊆ s.profile.views

omit [DecidableEq V] [DecidableEq W] in
/-- Reports are accepted with the same filter and timeout throughout a run. -/
theorem Extends.accepts_iff {s₀ s : ProfileState V W σ} (h : Extends s₀ s) {now : Int64}
    {e : Enriched V} : s.profile.Accepts now e ↔ s₀.profile.Accepts now e := by
  rw [MemoryLatestPositionProfile.Accepts, MemoryLatestPositionProfile.testTimeout,
    h.positionFilter, h.timeoutMilliseconds]
  rfl

/-- What a call does: a report enters `positionMap` if it is accepted and newer, and is then handed
to the visited views. -/
theorem step_cases {s t : ProfileState V W σ} {c : Call V W} (h : step handle s c = some t) :
    (acceptedReport s.profile c = none ∧ t.views = s.views ∧
        t.profile.positionMap = s.profile.positionMap ∧ Extends s t) ∨
      ∃ now order e, c.report? = some (now, order, e) ∧ order.Nodup ∧
        order.toFinset = s.profile.views ∧ s.profile.Accepts now e ∧
        acceptedReport s.profile c = some e ∧ t.profile = s.profile.keep e ∧
        (¬ s.profile.IsNewer e → t.views = s.views) ∧
        (s.profile.IsNewer e →
          t.views = s.views.after handle e (s.views.visited handle e order) ∧
          (ReturnsNormally handle s c ↔ ∀ w ∈ order, ¬ s.views.Throws handle e w)) := by
  rw [step, Option.ite_none_right_eq_some] at h
  obtain ⟨hvisits, ht⟩ := h
  have ht := Option.some.inj ht
  cases hc : c.report? with
  | none =>
    obtain ⟨view, rfl⟩ := eq_register_of_report hc
    subst ht
    exact Or.inl ⟨rfl, rfl, rfl, rfl, rfl, Finset.subset_insert view s.profile.views⟩
  | some r =>
    obtain ⟨now, order, e⟩ := r
    obtain ⟨horder, hviews⟩ := hvisits _ hc
    rw [call_of_report hc] at ht
    by_cases haccepts : s.profile.Accepts now e
    · have hreport : acceptedReport s.profile c = some e := by
        rw [acceptedReport, hc, Option.bind_some, if_pos haccepts]
      refine Or.inr ⟨now, order, e, rfl, horder, hviews, haccepts, hreport, ?_, ?_, ?_⟩
      · rw [← ht, profile_process horder, if_pos haccepts]
      · intro hnewer
        rw [← ht, process_of_not_isNewer hnewer]
      · intro hnewer
        obtain ⟨hafter, hnone⟩ := process_of_isNewer handle haccepts hnewer horder
        rw [← ht, hafter, ReturnsNormally, call_of_report hc]
        exact ⟨rfl, hnone⟩
    · rw [process_of_not_accepts haccepts] at ht
      subst ht
      refine Or.inl ⟨?_, rfl, rfl, rfl, rfl, Finset.Subset.refl _⟩
      rw [acceptedReport, hc, Option.bind_some, if_neg haccepts]

/-- A call keeps the filter, the timeout and the views. -/
theorem extends_of_step {s t : ProfileState V W σ} {c : Call V W}
    (h : step handle s c = some t) : Extends s t := by
  rcases step_cases h with ⟨-, -, -, hextends⟩ | ⟨_, _, e, -, -, -, -, -, hprofile, -, -⟩
  · exact hextends
  · constructor <;> rw [hprofile]
    · rfl
    · rfl
    · exact Finset.Subset.refl _

/-- What a run keeps, it keeps with a further call. -/
theorem Extends.step {s₀ s t : ProfileState V W σ} (hs : Extends s₀ s) {c : Call V W}
    (h : step handle s c = some t) : Extends s₀ t := by
  have ht := extends_of_step h
  exact ⟨ht.positionFilter.trans hs.positionFilter,
    ht.timeoutMilliseconds.trans hs.timeoutMilliseconds, hs.views.trans ht.views⟩

omit [DecidableEq V] [DecidableEq W] in
/-- The calls whose reports are accepted are the same throughout a run. -/
theorem Extends.acceptedReport_eq {s₀ s : ProfileState V W σ} (h : Extends s₀ s) :
    acceptedReport s.profile = acceptedReport s₀.profile :=
  funext fun c => by simp only [acceptedReport, h.accepts_iff]

omit [DecidableEq V] [DecidableEq W] in
/-- The accepted reports with a further call. -/
theorem Extends.accepted_concat {s₀ s : ProfileState V W σ} (h : Extends s₀ s)
    (calls : List (Call V W)) (c : Call V W) :
    accepted s₀.profile (calls ++ [c]) =
      accepted s₀.profile calls ++ (acceptedReport s.profile c).toList := by
  rw [accepted, List.filterMap_append, h.acceptedReport_eq, accepted]
  cases hc : acceptedReport s₀.profile c <;> simp [hc]

section Start

variable {positionFilter : EnrichedPositionFilter V} {timeoutMilliseconds : Int64}
  {views : Finset W} {state : W → σ}

/-- Throughout a run `positionMap` keeps the latest accepted reports. -/
theorem keeps_of_run {calls : List (Call V W)} {s : ProfileState V W σ}
    (hrun : run (step handle) (start positionFilter timeoutMilliseconds views state) calls =
      some s) :
    Extends (start positionFilter timeoutMilliseconds views state) s ∧
      Keeps EnrichedPosition.identity EnrichedPosition.timestamp s.profile.positionMap
        (accepted (start positionFilter timeoutMilliseconds views state).profile calls) := by
  refine run_history_of_step (I := fun calls s =>
    Extends (start positionFilter timeoutMilliseconds views state) s ∧
      Keeps EnrichedPosition.identity EnrichedPosition.timestamp s.profile.positionMap
        (accepted (start positionFilter timeoutMilliseconds views state).profile calls))
    ⟨⟨rfl, rfl, Finset.Subset.refl _⟩, keeps_nil⟩ ?_ hrun
  rintro calls t c s ⟨hextends, hkeeps⟩ hstep
  refine ⟨hextends.step hstep, ?_⟩
  rw [hextends.accepted_concat]
  rcases step_cases hstep with
    ⟨hnone, -, hmap, -⟩ | ⟨_, _, e, -, -, -, -, hreport, hprofile, -, -⟩
  · rw [hnone, hmap]
    simpa using hkeeps
  · rw [hreport, hprofile]
    exact hkeeps.concat e

/-- With a further call there is no further record, or one that a view is handed exactly if the call
reaches it. -/
theorem records_step {calls : List (Call V W)} {c : Call V W} {t s : ProfileState V W σ}
    (hrun : run (step handle) (start positionFilter timeoutMilliseconds views state) calls = some t)
    (hstep : step handle t c = some s) (w : W) :
    let profile := (start positionFilter timeoutMilliseconds views state).profile
    (recordsOf profile (calls ++ [c]) = recordsOf profile calls ∧
        s.views.handed w = t.views.handed w ∧ Reaches handle w t c) ∨
      ∃ e, recordsOf profile (calls ++ [c]) = recordsOf profile calls ++ [e] ∧
        (Reaches handle w t c ∧ s.views.handed w = t.views.handed w ++ [e] ∨
          ¬ Reaches handle w t c ∧ s.views.handed w = t.views.handed w) := by
  obtain ⟨hextends, hkeeps⟩ := keeps_of_run hrun
  simp only [recordsOf, hextends.accepted_concat]
  rcases step_cases hstep with
    ⟨hnone, hviews, -, -⟩ | ⟨now, order, e, hc, -, -, haccepts, hreport, -, hold, hnew⟩
  · refine Or.inl ⟨?_, by rw [hviews], ?_⟩
    · rw [hnone, Option.toList_none, List.append_nil]
    · intro now order e hc haccepts
      rw [acceptedReport, hc, Option.bind_some, if_pos haccepts] at hnone
      cases hnone
  · have hreaches : Reaches handle w t c ↔
        (t.profile.IsNewer e → w ∈ t.views.visited handle e order) := by
      simp [Reaches, hc, haccepts, Views.mem_visited_iff]
    rw [hreport, Option.toList_some, records_concat, hreaches]
    by_cases hnewer : t.profile.IsNewer e
    · rw [(hnew hnewer).1, if_pos (hkeeps.newer_iff_exceeds.mp hnewer)]
      refine Or.inr ⟨e, rfl, ?_⟩
      by_cases hw : w ∈ t.views.visited handle e order
      · exact Or.inl ⟨fun _ => hw, Views.handed_after_of_mem hw⟩
      · exact Or.inr ⟨fun h => hw (h hnewer), Views.handed_after_of_notMem hw⟩
    · rw [hold hnewer, if_neg (mt hkeeps.newer_iff_exceeds.mpr hnewer), List.append_nil]
      exact Or.inl ⟨rfl, rfl, fun h => absurd h hnewer⟩

/-- What a view has been handed is a part of the records among the accepted reports. -/
theorem handed_sublist_records {calls : List (Call V W)} {s : ProfileState V W σ}
    (hrun : run (step handle) (start positionFilter timeoutMilliseconds views state) calls =
      some s) (w : W) :
    (s.views.handed w).Sublist
      (recordsOf (start positionFilter timeoutMilliseconds views state).profile calls) := by
  induction calls using List.reverseRecOn generalizing s with
  | nil =>
    rw [← Option.some.inj hrun]
    exact List.nil_sublist _
  | append_singleton calls c ih =>
    obtain ⟨t, ht, hstep⟩ := run_concat.mp hrun
    have hsublist := ih ht
    rcases records_step ht hstep w with
      ⟨hrecords, hhanded, -⟩ | ⟨e, hrecords, ⟨-, hhanded⟩ | ⟨-, hhanded⟩⟩
    · rwa [hrecords, hhanded]
    · rw [hrecords, hhanded]
      exact hsublist.append (List.Sublist.refl [e])
    · rw [hrecords, hhanded]
      exact hsublist.trans (List.sublist_append_left _ _)

/-- A view is handed all records among the accepted reports exactly if every call reaches it. -/
theorem handed_eq_records_iff {calls : List (Call V W)} {s : ProfileState V W σ}
    (hrun : run (step handle) (start positionFilter timeoutMilliseconds views state) calls =
      some s) (w : W) :
    s.views.handed w =
        recordsOf (start positionFilter timeoutMilliseconds views state).profile calls ↔
      StepsMeet (step handle) (Reaches handle w)
        (start positionFilter timeoutMilliseconds views state) calls := by
  induction calls using List.reverseRecOn generalizing s with
  | nil =>
    rw [← Option.some.inj hrun]
    refine iff_of_true rfl fun pre c post hcalls => ?_
    simp at hcalls
  | append_singleton calls c ih =>
    obtain ⟨t, ht, hstep⟩ := run_concat.mp hrun
    have hlast : (∀ t', run (step handle) (start positionFilter timeoutMilliseconds views state)
        calls = some t' → Reaches handle w t' c) ↔ Reaches handle w t c := by
      simp [ht]
    rw [stepsMeet_concat, ← ih ht, hlast]
    rcases records_step ht hstep w with
      ⟨hrecords, hhanded, hreaches⟩ | ⟨e, hrecords, ⟨hreaches, hhanded⟩ | ⟨hmisses, hhanded⟩⟩
    · rw [hrecords, hhanded, and_iff_left hreaches]
    · rw [hrecords, hhanded, List.append_left_inj, and_iff_left hreaches]
    · -- A view that misses a record never makes up for it.
      have hle := (handed_sublist_records ht w).length_le
      rw [hrecords, hhanded]
      refine iff_of_false (fun heq => ?_) fun h => hmisses h.2
      have hlength := congrArg List.length heq
      rw [List.length_append, List.length_singleton] at hlength
      omega

/-- If no view ever throws, every call of a run reaches the views that are registered from the
start. -/
theorem stepsMeet_reaches (hreturns : ∀ w state e, (handle w state e).2 = none)
    {calls : List (Call V W)} {s : ProfileState V W σ}
    (hrun : run (step handle) (start positionFilter timeoutMilliseconds views state) calls =
      some s) {w : W} (hw : w ∈ views) :
    StepsMeet (step handle) (Reaches handle w)
      (start positionFilter timeoutMilliseconds views state) calls := by
  rintro before c after rfl t ht now order e hc - -
  obtain ⟨t', ht', hrest⟩ := run_append.mp hrun
  obtain rfl := Option.some.inj (ht.symm.trans ht')
  obtain ⟨u, hstep, -⟩ := run_cons.mp hrest
  rw [step, Option.ite_none_right_eq_some] at hstep
  obtain ⟨-, horder⟩ := hstep.1 _ hc
  have hmem : w ∈ order := List.mem_toFinset.mp (horder ▸ (keeps_of_run ht).1.views hw)
  obtain ⟨pre, post, rfl⟩ := List.append_of_mem hmem
  exact ⟨pre, post, rfl, fun u _ hthrows => hthrows (hreturns u _ e)⟩

/-- A profile keeps exactly the latest accepted report of every vessel, the first one where several
have the greatest timestamp.  A view that is registered from the start is handed exactly the
accepted reports that exceed all earlier accepted ones of their vessel, in arrival order, if and
only if every call reaches it. -/
theorem latest_reports (handle : Handler V W σ) (positionFilter : EnrichedPositionFilter V)
    (timeoutMilliseconds : Int64) (views : Finset W) (state : W → σ) (calls : List (Call V W))
    (s : ProfileState V W σ)
    (hrun : run (step handle) (start positionFilter timeoutMilliseconds views state) calls =
      some s) :
    let reports := accepted (start positionFilter timeoutMilliseconds views state).profile calls
    (∀ v, (∃ e, s.profile.positionMap v = some e) ↔ ∃ e ∈ reports, e.identity = v) ∧
      (∀ v e, s.profile.positionMap v = some e →
        IsLatest EnrichedPosition.identity EnrichedPosition.timestamp reports v e) ∧
      ∀ w ∈ views,
        s.views.handed w =
            records EnrichedPosition.identity EnrichedPosition.timestamp reports ↔
          StepsMeet (step handle) (Reaches handle w)
            (start positionFilter timeoutMilliseconds views state) calls := by
  obtain ⟨-, hkeeps⟩ := keeps_of_run hrun
  refine ⟨fun v => ⟨?_, ?_⟩, hkeeps.isLatest, fun w _ => handed_eq_records_iff hrun w⟩
  · rintro ⟨e, he⟩
    obtain ⟨hmem, hv⟩ := (hkeeps.isLatest v e he).mem
    exact ⟨e, hmem, hv⟩
  · rintro ⟨e, he, rfl⟩
    exact hkeeps.exists_entry e he

end Start

/-! ### Views that throw -/

omit [DecidableEq W] in
/-- A report that has been kept is not newer any more. -/
theorem not_isNewer_keep (profile : MemoryLatestPositionProfile V W) (e : Enriched V) :
    ¬ (profile.keep e).IsNewer e := by
  by_cases h : profile.IsNewer e
  · intro hnewer
    have hentry : (profile.keep e).positionMap e.identity = some e := by
      rw [MemoryLatestPositionProfile.positionMap_keep_of_isNewer h, Function.update_self]
    exact lt_irrefl e.timestamp (hnewer e hentry)
  · rwa [MemoryLatestPositionProfile.keep_of_not_isNewer h]

/-- A report that is not newer does not become newer again. -/
theorem not_isNewer_of_step {s t : ProfileState V W σ} {c : Call V W} {e : Enriched V}
    (h : ¬ s.profile.IsNewer e) (hstep : step handle s c = some t) : ¬ t.profile.IsNewer e := by
  obtain ⟨d, hd, hle⟩ : ∃ d, s.profile.positionMap e.identity = some d ∧
      e.timestamp ≤ d.timestamp := by
    simpa [Newer] using h
  obtain ⟨d', hd', hle'⟩ : ∃ d', t.profile.positionMap e.identity = some d' ∧
      d.timestamp ≤ d'.timestamp := by
    rcases step_cases hstep with
      ⟨-, -, hmap, -⟩ | ⟨_, _, f, -, -, -, -, -, hprofile, -, -⟩
    · exact ⟨d, by rw [hmap, hd], le_rfl⟩
    · rw [hprofile]
      exact exists_le_keepLatest hd f
  intro hnewer
  have hlt : d'.timestamp < e.timestamp := hnewer d' hd'
  exact not_lt.mpr (hle.trans hle') hlt

/-- A report that passes all tests is handed to the views up to the first one that throws, and to
no other; the call ends normally if none throws.  Submitted again, after whatever other calls, the
report is handed to no view, nothing changes and the call ends normally. -/
theorem failing_view_costs_report (handle : Handler V W σ) (s : ProfileState V W σ) (now : Int64)
    (order : List W) (e : Enriched V) (horder : order.Nodup) (haccepts : s.profile.Accepts now e)
    (hnewer : s.profile.IsNewer e) :
    (∀ w, (s.process handle now order e).1.views.handed w =
        if w ∈ s.views.visited handle e order then s.views.handed w ++ [e]
        else s.views.handed w) ∧
      ((s.process handle now order e).2 = none ↔ ∀ w ∈ order, ¬ s.views.Throws handle e w) ∧
      ∀ calls later, run (step handle) (s.process handle now order e).1 calls = some later →
        ∀ now' order', later.process handle now' order' e = (later, none) := by
  obtain ⟨hafter, hnone⟩ := process_of_isNewer handle haccepts hnewer horder
  refine ⟨fun w => by rw [hafter]; rfl, hnone, fun calls later hrun now' order' => ?_⟩
  have hlater : ¬ later.profile.IsNewer e := by
    refine run_invariant_of_step (I := fun s => ¬ s.profile.IsNewer e)
      (fun s c t h hstep => not_isNewer_of_step h hstep) ?_ hrun
    rw [hafter]
    exact not_isNewer_keep s.profile e
  exact process_of_not_isNewer hlater order'

/-! ### Two views, one of which throws -/

/-- Two views, of which `false` throws on every report. -/
def oneFails : Handler VesselId Bool Unit :=
  fun w _ _ => ((), if w then none else some .nullPointerException)

/-- A profile of everything with two views. -/
def twoViews : ProfileState VesselId Bool Unit := start .all 1000 {false, true} fun _ => ()

/-- An AIS report of the vessel `1` at the time `100`. -/
def aisReport : EnrichedPosition VesselId (Position .ais) :=
  ⟨⟨⟨⟨100⟩, 0, 0, 0⟩, (7 : Int32)⟩, ⟨1⟩⟩

/-- A view that throws nothing. -/
def quiet : Handler VesselId Bool Unit := fun _ _ _ => ((), none)

/-- A filter that lets no VMS report through. -/
def withoutVms : EnrichedPositionFilter VesselId :=
  { EnrichedPositionFilter.all with testVms := fun _ => false }

/-- An LRIT report of the vessel `1`. -/
def lritAt (time : Int64) : EnrichedPosition VesselId (Position .lrit) :=
  ⟨⟨⟨⟨time⟩, 0, 0, 0⟩, (7 : Int32)⟩, ⟨1⟩⟩

/-- A VMS report of the vessel `1` at the time `900`. -/
def vmsReport : EnrichedPosition VesselId (Position .vms) := ⟨⟨⟨⟨900⟩, 0, 0, 0⟩, "A"⟩, ⟨1⟩⟩

/-- At the clock reading `1050` a report of the time `50` is too old for the timeout of `1000`, and
VMS reports are filtered out; of the other three the second one is older than the first. -/
def fiveCalls : List (Call VesselId Bool) :=
  [.processAis 1050 [false, true] aisReport, .processLrit 1050 [true, false] (lritAt 50),
    .processVms 1050 [true, false] vmsReport, .processLrit 1050 [false, true] (lritAt 80),
    .processLrit 1060 [true, false] (lritAt 800)]

/-- The entry of the vessel is the latest of the three accepted reports, and a view is handed two of
them. -/
theorem latest_reports_fiveCalls :
    ∃ s, run (step quiet) (start withoutVms 1000 {false, true} fun _ => ()) fiveCalls = some s ∧
      (∃ e, s.profile.positionMap ⟨1⟩ = some e ∧
        IsLatest EnrichedPosition.identity EnrichedPosition.timestamp
          [.ofSource .ais aisReport, .ofSource .lrit (lritAt 80), .ofSource .lrit (lritAt 800)]
          ⟨1⟩ e) ∧
      s.views.handed true = [.ofSource .ais aisReport, .ofSource .lrit (lritAt 800)] := by
  obtain ⟨s, hrun⟩ : ∃ s, run (step quiet)
      (start withoutVms 1000 {false, true} fun _ => ()) fiveCalls = some s := ⟨_, rfl⟩
  obtain ⟨hentry, hlatest, hhanded⟩ :=
    latest_reports quiet withoutVms 1000 {false, true} (fun _ => ()) fiveCalls s hrun
  obtain ⟨e, he⟩ := (hentry ⟨1⟩).mpr ⟨.ofSource .ais aisReport, List.mem_cons_self, rfl⟩
  refine ⟨s, hrun, ⟨e, he, hlatest ⟨1⟩ e he⟩, ?_⟩
  exact (hhanded true (by decide)).mpr (stepsMeet_reaches (fun _ _ _ => rfl) hrun (by decide))

/-- The throwing view comes first, and the other one misses the latest report of the vessel. -/
theorem view_misses_latest_report :
    ∃ s, run (step oneFails) twoViews [.processAis 500 [false, true] aisReport] = some s ∧
      true ∈ twoViews.profile.views ∧
      s.views.handed true ≠ records EnrichedPosition.identity EnrichedPosition.timestamp
        (accepted twoViews.profile [.processAis 500 [false, true] aisReport]) := by
  refine ⟨_, rfl, by decide, fun h => ?_⟩
  have hlength := congrArg List.length h
  exact absurd hlength (by decide)

/-- The throwing view comes first and is the only one that is handed the report. -/
theorem failing_view_costs_report_twoViews :
    (twoViews.process oneFails 500 [false, true] (.ofSource .ais aisReport)).1.views.handed true =
      [] := by
  have hcosts := failing_view_costs_report oneFails twoViews 500 [false, true]
    (.ofSource .ais aisReport) (by decide) (by decide) (by decide)
  rw [hcosts.1 true, if_neg (by decide)]
  rfl

/-- The report reaches the view that throws and not the one after it, in neither of two calls. -/
theorem second_view_misses_report :
    let e : Enriched VesselId := .ofSource .ais aisReport
    let first := twoViews.process oneFails 500 [false, true] e
    let second := first.1.process oneFails 600 [false, true] e
    twoViews.profile.Accepts 500 e ∧ twoViews.profile.IsNewer e ∧ first.1.profile.Accepts 600 e ∧
      first.2 = some .nullPointerException ∧ ¬ twoViews.views.Throws oneFails e true ∧
      first.1.views.handed true = [] ∧ second.1.views.handed true = [] := by
  refine ⟨by decide, by decide, by decide, by decide, by decide, rfl, rfl⟩

end ProfileState

end CwatchBackend
