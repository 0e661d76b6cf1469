import CwatchBackend.Process.ProfileRuns

/-!
# Concurrent calls of a profile

`testNewer` is synchronized, the delivery to the views that follows it is not.  A call that has
passed its tests is a `Delivery`: a report, and the views that still have to be handed it.  A step
is the tests of a call or the delivery of one report to one view.

What a view has been handed, followed by what it is still owed, is increasing for every vessel and
ends with the entry of `positionMap` (`Synchronized`).  A delivery keeps this exactly if it does not
overtake an older report of the same vessel that is still owed to the view, and so the views are up
to date at the end exactly if no delivery of the run overtakes (`up_to_date_iff`).
-/

namespace CwatchBackend

open Foundation

/-- A call between its newness test and its return: its report and the views it still has to call,
in its iteration order. -/
structure Delivery (V W : Type) where
  report : Enriched V
  remaining : List W
  nodup : remaining.Nodup

/-- A profile whose views are called concurrently: what they have been handed, and the calls that
have passed the newness test, in the order in which they did. -/
structure ConcurrentProfile (V W : Type) where
  profile : MemoryLatestPositionProfile V W
  handed : W → List (Enriched V)
  deliveries : List (Delivery V W)

namespace ConcurrentProfile

variable {V W : Type} [DecidableEq V] [DecidableEq W]

/-- The steps of the calls: the tests of a call for the report `e` at the clock reading `now`, which
then iterates the views in the order `order`; and the delivery of the report of the `i`-th call that
passed its tests to the next one of its views. -/
inductive Action (V W : Type) where
  | test (now : Int64) (order : List W) (e : Enriched V)
  | deliver (i : ℕ)

/-- One step. -/
def step (s : ConcurrentProfile V W) : Action V W → Option (ConcurrentProfile V W)
  | .test now order e =>
    if h : order.Nodup ∧ order.toFinset = s.profile.views then
      if s.profile.testTimeout now e && s.profile.positionFilter.test e then
        match s.profile.testNewer e with
        | (true, profile) =>
          some { s with profile, deliveries := s.deliveries ++ [⟨e, order, h.1⟩] }
        | (false, profile) => some { s with profile }
      else some s
    else none
  | .deliver i =>
    match s.deliveries[i]? with
    | some ⟨e, w :: remaining, h⟩ =>
      some { s with
        handed := Function.update s.handed w (s.handed w ++ [e])
        deliveries := s.deliveries.set i ⟨e, remaining, (List.nodup_cons.mp h).2⟩ }
    | _ => none

/-- A profile with an empty `positionMap`, before any call. -/
def start (positionFilter : EnrichedPositionFilter V) (timeoutMilliseconds : Int64)
    (views : Finset W) : ConcurrentProfile V W where
  profile :=
    { (.new positionFilter timeoutMilliseconds : MemoryLatestPositionProfile V W) with views }
  handed := fun _ => []
  deliveries := []

/-- The reports that the calls still have to deliver to a view. -/
def owedBy (deliveries : List (Delivery V W)) (w : W) : List (Enriched V) :=
  (deliveries.filter fun d => w ∈ d.remaining).map Delivery.report

/-- The reports that a view is still owed, in the order of their newness tests. -/
def owed (s : ConcurrentProfile V W) (w : W) : List (Enriched V) := owedBy s.deliveries w

/-- All calls have returned.  A call with a view that throws before the last one never does. -/
def AllReturned (s : ConcurrentProfile V W) : Prop := ∀ d ∈ s.deliveries, d.remaining = []

/-- Every view has been handed, for every vessel, reports with strictly increasing timestamps. -/
def Ordered (s : ConcurrentProfile V W) : Prop :=
  ∀ w ∈ s.profile.views,
    Increasing EnrichedPosition.identity EnrichedPosition.timestamp (s.handed w)

/-- The last report of every vessel that a view has been handed is the entry of `positionMap`. -/
def UpToDate (s : ConcurrentProfile V W) : Prop :=
  ∀ w ∈ s.profile.views, ∀ v, lastOf EnrichedPosition.identity v (s.handed w) =
    s.profile.positionMap v

/-- The step delivers no report to a view that is still owed an older report of the same vessel. -/
def OvertakesNone (s : ConcurrentProfile V W) (a : Action V W) : Prop :=
  ∀ i e w remaining h, a = .deliver i → s.deliveries[i]? = some ⟨e, w :: remaining, h⟩ →
    ∀ e' ∈ s.owed w, e'.identity = e.identity → ¬ e'.timestamp < e.timestamp

/-! ### What a step does to a view -/

omit [DecidableEq V] in
/-- What several calls owe to a view. -/
theorem owedBy_append (l r : List (Delivery V W)) (w : W) :
    owedBy (l ++ r) w = owedBy l w ++ owedBy r w := by
  rw [owedBy, List.filter_append, List.map_append, owedBy, owedBy]

omit [DecidableEq V] in
/-- What the first of several calls and the others owe to a view. -/
theorem owedBy_cons (d : Delivery V W) (l : List (Delivery V W)) (w : W) :
    owedBy (d :: l) w = if w ∈ d.remaining then d.report :: owedBy l w else owedBy l w := by
  by_cases hw : w ∈ d.remaining <;> simp [owedBy, hw]

omit [DecidableEq V] in
/-- The delivery of a report removes it from what its view is owed, and changes nothing for the
other views. -/
theorem owedBy_set {deliveries : List (Delivery V W)} {i : ℕ} {e : Enriched V} {w : W}
    {remaining : List W} {h : (w :: remaining).Nodup}
    (hi : deliveries[i]? = some ⟨e, w :: remaining, h⟩) (h' : remaining.Nodup) :
    (∃ a b, owedBy deliveries w = a ++ e :: b ∧
        owedBy (deliveries.set i ⟨e, remaining, h'⟩) w = a ++ b) ∧
      ∀ u, u ≠ w → owedBy (deliveries.set i ⟨e, remaining, h'⟩) u = owedBy deliveries u := by
  obtain ⟨hlt, hget⟩ := List.getElem?_eq_some_iff.mp hi
  obtain ⟨pre, post, hdeliveries, -, hset⟩ :=
    @List.exists_of_set _ i ⟨e, remaining, h'⟩ deliveries hlt
  rw [hget] at hdeliveries
  rw [hset, hdeliveries]
  have hw := (List.nodup_cons.mp h).1
  refine ⟨⟨owedBy pre w, owedBy post w, ?_, ?_⟩, ?_⟩
  · rw [owedBy_append, owedBy_cons, if_pos List.mem_cons_self]
  · rw [owedBy_append, owedBy_cons, if_neg hw]
  · intro u hu
    simp only [owedBy_append, owedBy_cons, List.mem_cons, hu, false_or]

omit [DecidableEq V] in
/-- The tests of a call overtake no report. -/
theorem overtakesNone_test (s : ConcurrentProfile V W) (now : Int64) (order : List W)
    (e : Enriched V) : s.OvertakesNone (.test now order e) := by
  intro i e w remaining h ha
  cases ha

/-- What a step does: nothing, or the report of a call that passes its tests is owed to all views,
or one of the reports that a view is owed is handed to it. -/
theorem step_cases {s t : ConcurrentProfile V W} {a : Action V W} (h : s.step a = some t) :
    (t = s ∧ s.OvertakesNone a) ∨
      (∃ e, s.profile.IsNewer e ∧ t.profile = s.profile.keep e ∧ t.handed = s.handed ∧
        (∀ w, t.owed w = s.owed w ++ if w ∈ s.profile.views then [e] else []) ∧
        s.OvertakesNone a) ∨
      ∃ e w l r, t.profile = s.profile ∧ s.owed w = l ++ e :: r ∧ t.owed w = l ++ r ∧
        t.handed w = s.handed w ++ [e] ∧
        (∀ u, u ≠ w → t.owed u = s.owed u ∧ t.handed u = s.handed u) ∧
        (s.OvertakesNone a ↔
          ∀ e' ∈ s.owed w, e'.identity = e.identity → ¬ e'.timestamp < e.timestamp) := by
  cases a with
  | test now order e =>
    rw [step] at h
    split at h
    · next horder =>
      split at h
      · rw [MemoryLatestPositionProfile.testNewer_eq] at h
        by_cases hnewer : s.profile.IsNewer e
        · rw [decide_eq_true hnewer] at h
          rw [← Option.some.inj h]
          have howed : ∀ w, owedBy (s.deliveries ++ [⟨e, order, horder.1⟩]) w =
              s.owed w ++ if w ∈ s.profile.views then [e] else [] := by
            intro w
            have hmem : w ∈ order ↔ w ∈ s.profile.views := by
              rw [← horder.2, List.mem_toFinset]
            rw [owedBy_append, owedBy_cons]
            simp only [hmem]
            rfl
          exact Or.inr (Or.inl
            ⟨e, hnewer, rfl, rfl, howed, overtakesNone_test s now order e⟩)
        · rw [decide_eq_false hnewer,
            MemoryLatestPositionProfile.keep_of_not_isNewer hnewer] at h
          exact Or.inl ⟨(Option.some.inj h).symm, overtakesNone_test s now order e⟩
      · exact Or.inl ⟨(Option.some.inj h).symm, overtakesNone_test s now order e⟩
    · cases h
  | deliver i =>
    rw [step] at h
    split at h
    · next e w remaining hnodup hi =>
      rw [← Option.some.inj h]
      obtain ⟨⟨l, r, hs, ht⟩, hother⟩ := owedBy_set hi (List.nodup_cons.mp hnodup).2
      refine Or.inr (Or.inr ⟨e, w, l, r, rfl, hs, ht, Function.update_self .., fun u hu =>
        ⟨hother u hu, Function.update_of_ne hu ..⟩, ?_⟩)
      constructor
      · exact fun hnone => hnone i e w remaining hnodup rfl hi
      · intro hnone i' e' w' remaining' hnodup' hi' hget
        obtain rfl : i = i' := Action.deliver.inj hi'
        obtain ⟨rfl, rfl⟩ : e = e' ∧ w = w' := by
          obtain ⟨he, hremaining⟩ := Delivery.mk.inj (Option.some.inj (hi.symm.trans hget))
          exact ⟨he, (List.cons.inj hremaining).1⟩
        exact hnone
    · cases h

/-- The views stay registered. -/
theorem views_step {s t : ConcurrentProfile V W} {a : Action V W} (h : s.step a = some t) :
    t.profile.views = s.profile.views := by
  rcases step_cases h with ⟨rfl, -⟩ | ⟨e, -, hprofile, -⟩ | ⟨e, w, l, r, hprofile, -⟩
  · rfl
  · rw [hprofile]
    rfl
  · rw [hprofile]

/-- Only registered views are owed reports. -/
theorem mem_views_of_owed {s t : ConcurrentProfile V W} {a : Action V W}
    (hs : ∀ w, s.owed w ≠ [] → w ∈ s.profile.views) (h : s.step a = some t) :
    ∀ w, t.owed w ≠ [] → w ∈ t.profile.views := by
  intro w hw
  rw [views_step h]
  rcases step_cases h with ⟨rfl, -⟩ | ⟨e, -, -, -, howed, -⟩ |
    ⟨e, u, l, r, -, howed, -, -, hother, -⟩
  · exact hs w hw
  · by_contra hviews
    rw [howed, if_neg hviews, List.append_nil] at hw
    exact hviews (hs w hw)
  · apply hs w
    by_cases hu : w = u
    · simp [hu, howed]
    · rwa [← (hother w hu).1]

/-! ### Deliveries that overtake none -/

/-- What a view has been handed, followed by what it is still owed, is increasing for every vessel
and ends with the entry of `positionMap`. -/
structure Synchronized (s : ConcurrentProfile V W) (w : W) : Prop where
  increasing : Increasing EnrichedPosition.identity EnrichedPosition.timestamp
    (s.handed w ++ s.owed w)
  latest : ∀ v, lastOf EnrichedPosition.identity v (s.handed w ++ s.owed w) =
    s.profile.positionMap v

/-- A step that overtakes no report keeps the views synchronized. -/
theorem synchronized_step {s t : ConcurrentProfile V W} {a : Action V W}
    (hs : ∀ w ∈ s.profile.views, s.Synchronized w) (hnone : s.OvertakesNone a)
    (h : s.step a = some t) : ∀ w ∈ t.profile.views, t.Synchronized w := by
  rcases step_cases h with ⟨rfl, -⟩ | ⟨e, hnewer, hprofile, hhanded, howed, -⟩ |
    ⟨e, w, l, r, hprofile, howed, howed', hhanded, hother, hovertakes⟩
  · exact hs
  · intro w hw
    rw [views_step h] at hw
    obtain ⟨hincreasing, hlatest⟩ := hs w hw
    have happend : t.handed w ++ t.owed w = (s.handed w ++ s.owed w) ++ [e] := by
      rw [hhanded, howed w, if_pos hw, List.append_assoc]
    constructor
    · rw [happend]
      refine hincreasing.concat (hincreasing.exceeds fun c hc => hnewer c ?_)
      rwa [hlatest] at hc
    · intro v
      rw [happend, lastOf_concat, hprofile,
        MemoryLatestPositionProfile.positionMap_keep_of_isNewer hnewer, hlatest]
      by_cases hv : e.identity = v
      · rw [if_pos hv, ← hv, Function.update_self]
      · rw [if_neg hv, Function.update_of_ne (Ne.symm hv)]
  · intro u hu
    rw [hprofile] at hu
    obtain ⟨hincreasing, hlatest⟩ := hs u hu
    by_cases huw : u = w
    · subst huw
      rw [howed] at hincreasing hlatest
      -- The owed reports before `e` are of other vessels, for otherwise they would be older.
      have hl : ∀ c ∈ l, c.identity ≠ e.identity := by
        intro c hc hk
        have holder : c.timestamp < e.timestamp := by
          have hright := (List.pairwise_append.mp hincreasing).2.1
          exact (List.pairwise_append.mp hright).2.2 c hc e List.mem_cons_self hk
        exact hovertakes.mp hnone c (by simp [howed, hc]) hk holder
      constructor
      · rw [hhanded, howed']
        exact hincreasing.move hl
      · intro v
        rw [hhanded, howed', lastOf_move hl, hlatest, hprofile]
    · obtain ⟨ho, hh⟩ := hother u huw
      exact ⟨by rwa [hh, ho], by rwa [hh, ho, hprofile]⟩

/-- Before any call the views are synchronized. -/
theorem synchronized_start (positionFilter : EnrichedPositionFilter V)
    (timeoutMilliseconds : Int64) (views : Finset W) (w : W) :
    (start positionFilter timeoutMilliseconds views).Synchronized w :=
  ⟨List.Pairwise.nil, fun _ => rfl⟩

omit [DecidableEq V] in
/-- When all calls have returned, no view is owed a report. -/
theorem AllReturned.owed_eq_nil {s : ConcurrentProfile V W} (h : s.AllReturned) (w : W) :
    s.owed w = [] := by
  rw [owed, owedBy, List.map_eq_nil_iff, List.filter_eq_nil_iff]
  intro d hd
  simp [h d hd]

/-! ### Deliveries that overtake -/

/-- A report that has been overtaken by `e` at the view `w` is handed to it after `e`, if at all. -/
structure Overtaken (s : ConcurrentProfile V W) (w : W) (e e' : Enriched V) : Prop where
  handed : e ∈ s.handed w
  after : e' ∈ s.owed w ∨ [e, e'].Sublist (s.handed w)

/-- An overtaken report stays overtaken. -/
theorem overtaken_step {s t : ConcurrentProfile V W} {a : Action V W} {w : W} {e e' : Enriched V}
    (h : s.Overtaken w e e') (hstep : s.step a = some t) : t.Overtaken w e e' := by
  obtain ⟨hmem, hafter⟩ := h
  rcases step_cases hstep with ⟨rfl, -⟩ | ⟨f, -, -, hhanded, howed, -⟩ |
    ⟨f, u, l, r, -, howed, howed', hhanded, hother, -⟩
  · exact ⟨hmem, hafter⟩
  · rw [← hhanded] at hmem hafter
    refine ⟨hmem, hafter.imp_left fun ho => ?_⟩
    rw [howed]
    exact List.mem_append_left _ ho
  · by_cases hwu : w = u
    · subst hwu
      refine ⟨hhanded ▸ List.mem_append_left _ hmem, ?_⟩
      rw [hhanded]
      rcases hafter with ho | hsublist
      · rw [howed, List.mem_append, List.mem_cons] at ho
        by_cases hf : e' = f
        · rw [hf]
          exact Or.inr ((List.singleton_sublist.mpr hmem).append (List.Sublist.refl [f]))
        · apply Or.inl
          rw [howed', List.mem_append]
          tauto
      · exact Or.inr (hsublist.trans (List.sublist_append_left _ _))
    · obtain ⟨ho, hh⟩ := hother w hwu
      exact ⟨by rwa [hh], by rwa [hh, ho]⟩

/-- A step that overtakes a report leaves it overtaken. -/
theorem exists_overtaken {s t : ConcurrentProfile V W} {a : Action V W}
    (hstep : s.step a = some t) (hovertakes : ¬ s.OvertakesNone a) :
    ∃ w e e', s.owed w ≠ [] ∧ t.Overtaken w e e' ∧ e'.identity = e.identity ∧
      e'.timestamp < e.timestamp := by
  rcases step_cases hstep with ⟨-, hnone⟩ | ⟨f, -, -, -, -, hnone⟩ |
    ⟨e, w, l, r, -, howed, howed', hhanded, -, hiff⟩
  · exact absurd hnone hovertakes
  · exact absurd hnone hovertakes
  · rw [hiff] at hovertakes
    push Not at hovertakes
    obtain ⟨e', he', hk, holder⟩ := hovertakes
    refine ⟨w, e, e', by simp [howed], ⟨by simp [hhanded], Or.inl ?_⟩, hk, holder⟩
    have hne : e' ≠ e := fun h => lt_irrefl _ (h ▸ holder)
    rw [howed, List.mem_append, List.mem_cons] at he'
    rw [howed', List.mem_append]
    tauto

/-! ### Runs -/

/-- At every moment of the run every view has been handed reports with increasing timestamps, and
is up to date if all calls have returned. -/
def UpToDateThroughout (s₀ : ConcurrentProfile V W) (actions : List (Action V W)) : Prop :=
  ∀ pre post t, actions = pre ++ post → run step s₀ pre = some t →
    t.Ordered ∧ (t.AllReturned → t.UpToDate)

variable (positionFilter : EnrichedPositionFilter V) (timeoutMilliseconds : Int64)
  (views : Finset W)

/-- The views of a run whose deliveries overtake no report are synchronized. -/
theorem synchronized_of_run {actions : List (Action V W)} {s : ConcurrentProfile V W}
    (hnone : StepsMeet step OvertakesNone (start positionFilter timeoutMilliseconds views) actions)
    (hrun : run step (start positionFilter timeoutMilliseconds views) actions = some s) :
    ∀ w ∈ s.profile.views, s.Synchronized w :=
  run_invariant (P := OvertakesNone) (I := fun s => ∀ w ∈ s.profile.views, s.Synchronized w)
    (fun _ _ _ hs hnone h => synchronized_step hs hnone h)
    (fun w _ => synchronized_start positionFilter timeoutMilliseconds views w) hnone hrun

/-- If the run ends with all calls returned and its views ordered, no delivery has overtaken. -/
theorem overtakesNone_of_ordered {actions : List (Action V W)} {s : ConcurrentProfile V W}
    (hrun : run step (start positionFilter timeoutMilliseconds views) actions = some s)
    (hreturned : s.AllReturned) (hordered : s.Ordered) :
    StepsMeet step OvertakesNone (start positionFilter timeoutMilliseconds views) actions := by
  rintro pre a post rfl t ht
  by_contra hovertakes
  obtain ⟨t', ht', hpost⟩ := run_append.mp hrun
  obtain rfl : t = t' := Option.some.inj (ht.symm.trans ht')
  obtain ⟨u, hu, hus⟩ := run_cons.mp hpost
  obtain ⟨w, e, e', howed, hovertaken, hk, holder⟩ := exists_overtaken hu hovertakes
  have hviews : w ∈ t.profile.views :=
    run_invariant_of_step (I := fun s => ∀ w, s.owed w ≠ [] → w ∈ s.profile.views)
      (fun _ _ _ hs h => mem_views_of_owed hs h) (fun w hw => absurd rfl hw) ht w howed
  obtain ⟨hw, hlast⟩ : w ∈ s.profile.views ∧ s.Overtaken w e e' :=
    run_invariant_of_step (I := fun s => w ∈ s.profile.views ∧ s.Overtaken w e e')
      (fun _ _ _ hs h => ⟨views_step h ▸ hs.1, overtaken_step hs.2 h⟩)
      ⟨views_step hu ▸ hviews, hovertaken⟩ hus
  -- Nothing is owed any more, so the overtaken report has been handed after the newer one.
  rcases hlast.after with ho | hsublist
  · rw [hreturned.owed_eq_nil] at ho
    cases ho
  · have hpair := (hordered w hw).sublist hsublist
    have hlt := List.rel_of_pairwise_cons hpair (List.mem_singleton.mpr rfl) hk.symm
    exact lt_asymm hlt holder

/-- In every run whose deliveries overtake no older report that the view is still owed, all views
are ordered at every moment and up to date when all calls have returned; and a run that ends with
all calls returned is so only if no delivery overtakes. -/
theorem up_to_date_iff (actions : List (Action V W)) :
    (StepsMeet step OvertakesNone (start positionFilter timeoutMilliseconds views) actions →
        UpToDateThroughout (start positionFilter timeoutMilliseconds views) actions) ∧
      ∀ s, run step (start positionFilter timeoutMilliseconds views) actions = some s →
        s.AllReturned →
        UpToDateThroughout (start positionFilter timeoutMilliseconds views) actions →
        StepsMeet step OvertakesNone (start positionFilter timeoutMilliseconds views) actions := by
  constructor
  · rintro hnone pre post t rfl ht
    have hsync := synchronized_of_run positionFilter timeoutMilliseconds views hnone.of_append ht
    constructor
    · intro w hw
      exact (List.pairwise_append.mp (hsync w hw).increasing).1
    · intro hreturned w hw v
      have hlatest := (hsync w hw).latest v
      rwa [hreturned.owed_eq_nil, List.append_nil] at hlatest
  · intro s hrun hreturned hall
    obtain ⟨hordered, -⟩ := hall actions [] s (List.append_nil _).symm hrun
    exact overtakesNone_of_ordered positionFilter timeoutMilliseconds views hrun hreturned hordered

/-- An AIS report of the vessel `1` at a given time. -/
def reportAt (time : Int64) : Enriched VesselId :=
  ⟨⟨.ais, ⟨⟨⟨time⟩, 0, 0, 0⟩, (7 : Int32)⟩⟩, ⟨1⟩⟩

/-- Two calls for one vessel and one view: both pass their tests in the order of their reports, but
the newer report is delivered first. -/
def overtaking : List (Action VesselId Unit) :=
  [.test 500 [()] (reportAt 100), .test 500 [()] (reportAt 200), .deliver 1, .deliver 0]

/-- After the overtaking run the view ends on the older report. -/
theorem view_ends_on_outdated_report :
    ∃ s, run step (start .all 1000 {()}) overtaking = some s ∧ s.AllReturned ∧ ¬ s.Ordered ∧
      ¬ s.UpToDate := by
  refine ⟨_, rfl, ?_, ?_, ?_⟩
  · intro d hd
    rcases List.mem_cons.mp hd with rfl | hd
    · rfl
    · rw [List.mem_singleton.mp hd]
  · intro hordered
    exact absurd (hordered () (Finset.mem_singleton_self ())) (by decide)
  · intro hupToDate
    have hlast := congrArg (Option.map EnrichedPosition.timestamp)
      (hupToDate () (Finset.mem_singleton_self ()) ⟨1⟩)
    exact absurd hlast (by decide)

end ConcurrentProfile

end CwatchBackend
