import CwatchBackend.Foundation.Replay
import CwatchBackend.Store.MapdbIndexes
import CwatchBackend.Store.MemoryPositionStore

/-!
# Period queries of the two stores

`MemoryPositionStore` asks the period whether it contains a timestamp.  `MapdbPositionStore` slices
its indexes by the endpoints of the period, always including the lower one and always excluding the
upper one, whatever the bound kinds of the period say; without an upper endpoint `queryVessel`
stops before `Long.MAX_VALUE`.

`AreaSliced` and `VesselSliced` say which timestamps the slices let through
(`queryVessel_perm`, `queryArea_perm`).  They differ from containment exactly at the endpoints whose
bound lies *above* the value, an open lower or a closed upper one, and at `Long.MAX_VALUE`
(`VesselSlip`, `AreaSlip`), so the two stores answer alike unless a matching position is stamped
with such a time (`period_queries_agree_iff`).
-/

namespace CwatchBackend

open Foundation

/-- The timestamps between the endpoints of a period, the lower one included and the upper one
excluded. -/
def AreaSliced (period : Range Date) (t : Date) : Prop :=
  (∀ d ∈ period.lowerBound.endpoint?, d ≤ t) ∧ ∀ d ∈ period.upperBound.endpoint?, t < d

instance (period : Range Date) (t : Date) : Decidable (AreaSliced period t) :=
  inferInstanceAs (Decidable (_ ∧ _))

/-- The timestamps that the slice of `queryVessel` lets through. -/
def VesselSliced (period : Range Date) (t : Date) : Prop :=
  AreaSliced period t ∧ (period.upperBound.endpoint? = none → t < Date.maxValue)

instance (period : Range Date) (t : Date) : Decidable (VesselSliced period t) :=
  inferInstanceAs (Decidable (_ ∧ _))

/-- The area slice treats `t` differently from the period: `t` is the open lower or the closed
upper endpoint of a period that is not empty. -/
def AreaSlip (period : Range Date) (t : Date) : Prop :=
  ¬ period.IsEmpty ∧ (period.lowerBound = .aboveValue t ∨ period.upperBound = .aboveValue t)

instance (period : Range Date) (t : Date) : Decidable (AreaSlip period t) :=
  inferInstanceAs (Decidable (_ ∧ _))

/-- The vessel slice treats `t` differently from the period: as for areas, except that without an
upper bound `Long.MAX_VALUE` is cut off. -/
def VesselSlip (period : Range Date) (t : Date) : Prop :=
  if period.upperBound = .aboveAll ∧ t = Date.maxValue then period.lowerBound ≠ .aboveValue t
  else AreaSlip period t

instance (period : Range Date) (t : Date) : Decidable (VesselSlip period t) :=
  inferInstanceAs (Decidable (if period.upperBound = .aboveAll ∧ t = Date.maxValue then
    period.lowerBound ≠ .aboveValue t else AreaSlip period t))

/-- What the area slice lets through, by the bounds of the period. -/
theorem areaSliced_iff {period : Range Date} {t : Date} :
    AreaSliced period t ↔ (period.lowerBound ≤ .belowValue t ∨ period.lowerBound = .aboveValue t) ∧
      .belowValue t < period.upperBound ∧ period.upperBound ≠ .aboveValue t := by
  rw [AreaSliced, Cut.endpoint_le_iff period.lowerBound_ne,
    Cut.lt_endpoint_iff period.upperBound_ne]

/-- The area slice lets `t` through exactly when the period contains it, unless it slips. -/
theorem areaSliced_iff_mem {period : Range Date} {t : Date} :
    (AreaSliced period t ↔ t ∈ period) ↔ ¬ AreaSlip period t := by
  rw [areaSliced_iff, Range.mem_iff]
  by_cases hlo : period.lowerBound = .aboveValue t
  · -- The period does not contain its open lower endpoint.
    have hnotMem : ¬ period.lowerBound ≤ .belowValue t := by
      rw [hlo, Cut.aboveValue_le_belowValue]
      exact lt_irrefl t
    have hslip : AreaSlip period t ↔ ¬ period.IsEmpty := and_iff_left (Or.inl hlo)
    have hupper : .belowValue t < period.upperBound := by
      have hle : Cut.aboveValue t ≤ period.upperBound := hlo ▸ period.ordered
      exact lt_of_lt_of_le (Cut.lt_aboveValue_iff.mpr le_rfl) hle
    rw [hslip, Range.IsEmpty, hlo]
    simp [hlo ▸ hnotMem, hupper, eq_comm]
  · by_cases hhi : period.upperBound = .aboveValue t
    · -- The period contains its closed upper endpoint, and the slice does not.
      have hle : period.lowerBound ≤ .belowValue t := by
        have hordered : period.lowerBound ≤ .aboveValue t := hhi ▸ period.ordered
        exact Cut.lt_aboveValue_iff.mp (lt_of_le_of_ne hordered hlo)
      have hslip : AreaSlip period t := ⟨fun hempty => hlo (hempty.trans hhi), Or.inr hhi⟩
      simp [hle, hhi, hslip]
    · have hslip : ¬ AreaSlip period t := fun h => h.2.elim hlo hhi
      simp [hlo, hhi, hslip]

/-- The vessel slice lets `t` through exactly when the period contains it, unless it slips. -/
theorem vesselSliced_iff_mem {period : Range Date} {t : Date} :
    (VesselSliced period t ↔ t ∈ period) ↔ ¬ VesselSlip period t := by
  by_cases hmax : period.upperBound = .aboveAll ∧ t = Date.maxValue
  · -- Without an upper endpoint the slice stops before `Long.MAX_VALUE`.
    obtain ⟨hhi, rfl⟩ := hmax
    have hnotSliced : ¬ VesselSliced period Date.maxValue := fun h =>
      lt_irrefl _ (h.2 (Cut.endpoint_eq_none_iff.mpr (Or.inr hhi)))
    have hlower : period.lowerBound ≤ .belowValue Date.maxValue ∨
        period.lowerBound = .aboveValue Date.maxValue :=
      (Cut.endpoint_le_iff period.lowerBound_ne).mp fun d _ => Date.le_maxValue d
    have hnle : period.lowerBound = .aboveValue Date.maxValue →
        ¬ period.lowerBound ≤ .belowValue Date.maxValue := by
      intro hlo
      rw [hlo, Cut.aboveValue_le_belowValue]
      exact lt_irrefl _
    rw [iff_false_left hnotSliced, VesselSlip, if_pos ⟨hhi, rfl⟩, Range.mem_iff, hhi]
    simp only [Cut.belowValue_lt_aboveAll, and_true]
    tauto
  · have hsliced : VesselSliced period t ↔ AreaSliced period t := by
      refine and_iff_left fun hnone => Date.lt_maxValue_iff.mpr fun ht => hmax ⟨?_, ht⟩
      exact (Cut.endpoint_eq_none_iff.mp hnone).resolve_left period.upperBound_ne
    rw [hsliced, VesselSlip, if_neg hmax]
    exact areaSliced_iff_mem

namespace MapdbPositionStore

variable {I : Type} [LinearOrder I]

/-! ### Prefixes against index entries -/

/-- The array `{id}` does not exceed the entries of the identifiers from `id` on. -/
theorem idPrefix_le {id : I} {key : ℤ} {p : TypedPosition I} :
    ([.id id] : IndexArray I) ≤ idTimestampEntry key p ↔ id ≤ p.id := by
  rw [← not_lt, idTimestampEntry]
  simp [List.cons_lt_cons_iff]

/-- The array `{id, date}` does not exceed an entry of `id` stamped `date` or later. -/
theorem idDatePrefix_le {id : I} {d : Date} {key : ℤ} {p : TypedPosition I} :
    ([.id id, .long d.getTime.toInt] : IndexArray I) ≤ idTimestampEntry key p ↔
      id < p.id ∨ p.id = id ∧ d ≤ p.timestamp := by
  have hlt : idTimestampEntry key p < ([.id id, .long d.getTime.toInt] : IndexArray I) ↔
      p.id < id ∨ p.id = id ∧ p.timestamp < d := by
    simp [idTimestampEntry, List.cons_lt_cons_iff, Date.lt_def]
  rw [← not_lt, hlt]
  rcases lt_trichotomy id p.id with h | h | h
  · simp [h, h.ne', h.not_gt]
  · simp [h]
  · simp [h, h.ne, h.not_gt]

/-- The array `{date}` does not exceed the entries stamped `date` or later. -/
theorem datePrefix_le {d : Date} {key : ℤ} {p : TypedPosition I} :
    ([.long d.getTime.toInt] : IndexArray I) ≤ timestampEntry key p ↔ d ≤ p.timestamp := by
  rw [← not_lt, timestampEntry, Date.le_def]
  simp [List.cons_lt_cons_iff]

/-! ### What the slices let through -/

/-- `applyPeriod` lets through what lies between the keys of the endpoints, the lower one included
and the upper one excluded, and without an upper endpoint what `noUpperBound` lets through. -/
theorem elements_applyPeriod (source : NavigableSet (IndexArray I)) (period : Range Date)
    (keyFunction : ℤ → IndexArray I)
    {noUpperBound : NavigableSet (IndexArray I) → NavigableSet (IndexArray I)}
    {cut : IndexArray I → Bool}
    (hcut : ∀ s, (noUpperBound s).elements = s.elements.filter cut) :
    (applyPeriod source period keyFunction noUpperBound).elements = source.elements.filter fun x =>
      (∀ d ∈ period.lowerBound.endpoint?, keyFunction d.getTime.toInt ≤ x) ∧
        (∀ d ∈ period.upperBound.endpoint?, x < keyFunction d.getTime.toInt) ∧
        (period.upperBound.endpoint? = none → cut x = true) := by
  unfold applyPeriod
  cases period.lowerBound.endpoint? with
  | none =>
    cases period.upperBound.endpoint? with
    | none => simp [hcut]
    | some upper =>
      dsimp only
      rw [NavigableSet.elements_headSet]
      exact List.filter_congr fun x _ => by simp
  | some lower =>
    cases period.upperBound.endpoint? with
    | none =>
      dsimp only
      rw [hcut, NavigableSet.elements_tailSet, List.filter_filter]
      exact List.filter_congr fun x _ => by simp [Bool.and_comm]
    | some upper =>
      dsimp only
      rw [NavigableSet.elements_headSet, NavigableSet.elements_tailSet, List.filter_filter]
      apply List.filter_congr
      intro x _
      rw [Bool.eq_iff_iff]
      simp [and_comm]

/-- The part of `lookupIdTimestamp` that `queryVessel` walks. -/
theorem elements_vesselSlice (store : MapdbPositionStore I) (id : I) (period : Range Date) :
    (store.vesselSlice id period).elements = store.lookupIdTimestamp.elements.filter fun x =>
      [.id id] ≤ x ∧
        (∀ d ∈ period.lowerBound.endpoint?, [.id id, .long d.getTime.toInt] ≤ x) ∧
        (∀ d ∈ period.upperBound.endpoint?, x < [.id id, .long d.getTime.toInt]) ∧
        (period.upperBound.endpoint? = none → x ≤ [.id id, .long Date.maxValue.getTime.toInt]) := by
  have hcut : ∀ s : NavigableSet (IndexArray I),
      (s.headSet [.id id, .long Int64.maxValue.toInt] true).elements =
        s.elements.filter fun x => x ≤ [.id id, .long Date.maxValue.getTime.toInt] := fun _ => rfl
  rw [vesselSlice, elements_applyPeriod _ _ _ hcut, NavigableSet.elements_tailSet,
    List.filter_filter]
  apply List.filter_congr
  intro x _
  simp only [decide_eq_true_eq, Bool.and_comm, Bool.decide_and]

/-- The part of `lookupTimestamp` that `queryArea` walks. -/
theorem elements_areaSlice (store : MapdbPositionStore I) (period : Range Date) :
    (store.areaSlice period).elements = store.lookupTimestamp.elements.filter fun x =>
      (∀ d ∈ period.lowerBound.endpoint?, [.long d.getTime.toInt] ≤ x) ∧
        ∀ d ∈ period.upperBound.endpoint?, x < [.long d.getTime.toInt] := by
  have hcut : ∀ s : NavigableSet (IndexArray I),
      (id s).elements = s.elements.filter fun _ => true :=
    fun s => (List.filter_true s.elements).symm
  rw [areaSlice, elements_applyPeriod _ _ _ hcut]
  exact List.filter_congr fun x _ => by simp

/-- The vessel slice lets through the entries of the identifier stamped with a sliced time. -/
theorem vesselSlice_idTimestampEntry {id : I} {period : Range Date} {key : ℤ}
    {p : TypedPosition I} :
    ([.id id] ≤ idTimestampEntry key p ∧
        (∀ d ∈ period.lowerBound.endpoint?,
          [.id id, .long d.getTime.toInt] ≤ idTimestampEntry key p) ∧
        (∀ d ∈ period.upperBound.endpoint?,
          idTimestampEntry key p < [.id id, .long d.getTime.toInt]) ∧
        (period.upperBound.endpoint? = none →
          idTimestampEntry key p ≤ [.id id, .long Date.maxValue.getTime.toInt])) ↔
      p.id = id ∧ VesselSliced period p.timestamp := by
  have hne : idTimestampEntry key p ≠ [.id id, .long Date.maxValue.getTime.toInt] := by
    simp [idTimestampEntry]
  simp only [le_iff_lt_or_eq (a := idTimestampEntry key p), hne, or_false, ← not_le,
    idPrefix_le, idDatePrefix_le, VesselSliced, AreaSliced]
  rcases lt_trichotomy id p.id with h | h | h
  · cases period.upperBound.endpoint? <;> simp [h, h.ne']
  · subst h
    simp [and_assoc]
  · simp [h.not_ge, h.ne]

/-- The area slice lets through the entries stamped with a sliced time. -/
theorem areaSlice_timestampEntry {period : Range Date} {key : ℤ} {p : TypedPosition I} :
    ((∀ d ∈ period.lowerBound.endpoint?, [.long d.getTime.toInt] ≤ timestampEntry key p) ∧
        ∀ d ∈ period.upperBound.endpoint?, timestampEntry key p < [.long d.getTime.toInt]) ↔
      AreaSliced period p.timestamp := by
  simp only [← not_le, datePrefix_le, AreaSliced]

/-- With one index entry for every row, `queryVessel` returns the rows of the identifier stamped
with a sliced time, each once. -/
theorem queryVessel_perm {store : MapdbPositionStore I} (h : IndexesDescribeTable store) (id : I)
    (period : Range Date) :
    (store.queryVessel id period).Perm (((store.table.rows.entries.map Prod.snd).filter
      fun p => p.id = id ∧ VesselSliced period p.timestamp).map some) := by
  rw [queryVessel, elements_vesselSlice]
  refine h.walk_idTimestamp _ _ fun key p => ?_
  exact decide_eq_decide.mpr vesselSlice_idTimestampEntry

omit [LinearOrder I] in
/-- Filtering a stream without `null`s by a box. -/
theorem filterBox_map_some (box : Box) (ps : List (TypedPosition I)) :
    filterBox box (ps.map some) = .ok (ps.filter fun p => box.Contains p.toDefaultPosition) := by
  induction ps with
  | nil => rfl
  | cons p ps ih =>
    rw [List.map_cons, filterBox, ih, List.filter_cons]
    simp only [decide_eq_true_eq]
    split <;> rfl

/-- With one index entry for every row, `queryArea` returns the rows of the box stamped with a
sliced time, each once. -/
theorem queryArea_perm {store : MapdbPositionStore I} (h : IndexesDescribeTable store)
    (period : Range Date) (box : Box) :
    ∃ found, store.queryArea period box = .ok found ∧
      found.Perm ((store.table.rows.entries.map Prod.snd).filter
        fun p => AreaSliced period p.timestamp ∧ box.Contains p.toDefaultPosition) := by
  have hwalk : ((store.areaSlice period).elements.map (store.rowOf 1)).Perm
      (((store.table.rows.entries.map Prod.snd).filter
        fun p => AreaSliced period p.timestamp).map some) := by
    rw [elements_areaSlice]
    refine h.walk_timestamp _ _ fun key p => ?_
    exact decide_eq_decide.mpr areaSlice_timestampEntry
  obtain ⟨ps, hps, hperm⟩ := exists_map_of_perm hwalk
  refine ⟨_, by rw [queryArea, hps, filterBox_map_some], ?_⟩
  refine (hperm.filter _).trans (List.Perm.of_eq ?_)
  rw [List.filter_filter]
  exact List.filter_congr fun p _ => by simp [Bool.and_comm]

/-- A `MapdbPositionStore` with one entry for every row in each index and a `MemoryPositionStore`
with the same positions answer a vessel query alike if and only if the period does not slip at a
position of the vessel, and an area query alike if and only if it does not slip at a position in
the box. -/
theorem period_queries_agree_iff (store : MapdbPositionStore I) (memory : MemoryPositionStore I)
    (hrows : (store.table.rows.entries.map Prod.snd).Perm memory.items)
    (hindexes : IndexesDescribeTable store) (id : I) (period : Range Date) (box : Box) :
    ((store.queryVessel id period).Perm ((memory.queryVessel id period).map some) ↔
        ∀ p ∈ memory.items, p.id = id → ¬ VesselSlip period p.timestamp) ∧
      ((∃ found, store.queryArea period box = .ok found ∧
          found.Perm (memory.queryArea period box)) ↔
        ∀ p ∈ memory.items, box.Contains p.toDefaultPosition → ¬ AreaSlip period p.timestamp) := by
  constructor
  · have hperm := (queryVessel_perm hindexes id period).trans ((hrows.filter _).map some)
    rw [hperm.congr_left, List.map_perm_map_iff (Option.some_injective _),
      MemoryPositionStore.queryVessel, filter_perm_filter_iff]
    refine forall₂_congr fun p _ => ?_
    simp [← vesselSliced_iff_mem]
  · obtain ⟨found, hfound, hperm⟩ := queryArea_perm hindexes period box
    have hperm := hperm.trans (hrows.filter _)
    simp only [hfound, Except.ok.injEq, exists_eq_left']
    rw [hperm.congr_left, MemoryPositionStore.queryArea, filter_perm_filter_iff]
    refine forall₂_congr fun p _ => ?_
    simp [← areaSliced_iff_mem]

/-- A report of the vessel `1` at the time `100`. -/
def report : TypedPosition Int32 := ⟨⟨⟨100⟩, 0, 0, 0⟩, 1⟩

/-- The period that consists of the time `100` only. -/
def instant : Range Date := Range.closed ⟨100⟩ ⟨100⟩ le_rfl

/-- The whole map. -/
def everywhere : Box := ⟨⊥, ⊤, ⊥, ⊤⟩

/-- One saved report, asked for over the whole time line. -/
theorem period_queries_agree_saved :
    ((init.save report).queryVessel 1 Range.all).Perm
        (((MemoryPositionStore.empty.save report).queryVessel 1 Range.all).map some) ∧
      ∃ found, (init.save report).queryArea Range.all everywhere = .ok found ∧
        found.Perm ((MemoryPositionStore.empty.save report).queryArea Range.all everywhere) := by
  have hagree := period_queries_agree_iff (init.save report)
    (MemoryPositionStore.empty.save report) (List.Perm.refl _)
    (consistent_init.save rfl report).toIndexesDescribeTable 1 Range.all everywhere
  exact ⟨hagree.1.mpr (by decide), hagree.2.mpr (by decide)⟩

/-- One saved report, asked for at its own time: the store in memory finds it, the other one does
not. -/
theorem period_queries_disagree :
    IndexesDescribeTable (init.save report) ∧
      ((init.save report).table.rows.entries.map Prod.snd).Perm
        (MemoryPositionStore.empty.save report).items ∧
      ¬ ((init.save report).queryVessel 1 instant).Perm
          (((MemoryPositionStore.empty.save report).queryVessel 1 instant).map some) ∧
      ¬ ∃ found, (init.save report).queryArea instant everywhere = .ok found ∧
        found.Perm ((MemoryPositionStore.empty.save report).queryArea instant everywhere) := by
  refine ⟨(consistent_init.save rfl report).toIndexesDescribeTable, List.Perm.refl _, ?_, ?_⟩
  · decide
  · rintro ⟨found, hfound, hperm⟩
    have hnil : found = [] := (Except.ok.inj hfound).symm
    rw [hnil] at hperm
    exact absurd hperm.length_eq (by decide)

end MapdbPositionStore

end CwatchBackend
