import CwatchBackend.Store.PositionLog

/-!
# The two stores under the same calls

`MemoryPositionStore` and `MapdbPositionStore` implement one interface, and the configuration of the
application chooses between them.  Here both are initialised and get the same calls.

A pump leaves the store over MapDB without its listener until a `clear` finds a row, and what is
saved in between is in the table but in no index.  These positions (`lost`) are the whole
difference: every query of the store in memory finds what the store over MapDB finds, and those of
them that it asks for (`same_calls_differ_by_lost`), periods that slip apart.
-/

namespace CwatchBackend

open Foundation MapdbPositionStore
open scoped List

variable {I : Type}

/-- One call that returns normally; `flush()` does nothing. -/
def MemoryPositionStore.exec (store : MemoryPositionStore I) :
    Operation I → MemoryPositionStore I
  | .save position => store.save position
  | .pump positions => store.pump positions
  | .clear => store.clear
  | .flush => store

/-- The store in memory holds what the calls are about. -/
theorem MemoryPositionStore.items_exec (store : MemoryPositionStore I) (op : Operation I) :
    (store.exec op).items = hold store.items op := by
  have hsaves : ∀ (positions : List (TypedPosition I)) (store : MemoryPositionStore I),
      (positions.foldl MemoryPositionStore.save store).items = store.items ++ positions := by
    intro positions
    induction positions with
    | nil => exact fun store => (List.append_nil _).symm
    | cons p positions ih =>
      intro store
      rw [List.foldl_cons, ih, MemoryPositionStore.save, List.append_assoc]
      rfl
  cases op with
  | pump positions => exact (hsaves positions store.clear).trans (List.nil_append _)
  | _ => rfl

namespace PositionLog

/-- The log after a call that returns normally. -/
def exec (log : PositionLog I) (op : Operation I) : PositionLog I := log.attempt (.returns op)

/-- The positions that are listed, in the order of the log. -/
def listed (log : PositionLog I) : List (TypedPosition I) := log.entries.map LogEntry.position

/-- Every listed position has its row. -/
def AllLive (log : PositionLog I) : Prop := ∀ e ∈ log.entries, e.live = true

variable {log : PositionLog I}

/-- Where every listed position has its row, a query finds the listed positions that it picks, in
the order of their timestamps. -/
theorem AllLive.walk_eq (h : log.AllLive) (pick : TypedPosition I → Bool) :
    log.walk pick = (sortBy (fun p => p.timestamp) (log.listed.filter pick)).map some := by
  have hfound : ∀ e ∈ sortBy LogEntry.timestamp (log.entries.filter fun e => pick e.position),
      e.found = some e.position := by
    intro e he
    have hmem := (sortBy_perm LogEntry.timestamp _).mem_iff.mp he
    rw [LogEntry.found, if_pos (h e (List.mem_of_mem_filter hmem))]
  rw [walk, List.map_congr_left hfound, listed, List.filter_map, sortBy_map, List.map_map]
  rfl

/-- A log without a row lists nothing. -/
theorem AllLive.eq_nil_of_isEmpty (h : log.AllLive) (hempty : log.isEmpty = true) :
    log.entries = [] ∧ log.unlisted = [] := by
  rw [isEmpty, Bool.and_eq_true, List.all_eq_true, List.isEmpty_iff] at hempty
  refine ⟨List.eq_nil_iff_forall_not_mem.mpr fun e he => ?_, hempty.2⟩
  have hdead := hempty.1 e he
  rw [h e he] at hdead
  cases hdead

/-- After `clear` nothing is listed or kept. -/
theorem AllLive.clear_eq (h : log.AllLive) : log.clear.entries = [] ∧ log.clear.unlisted = [] := by
  unfold clear
  split
  · next hempty => exact h.eq_nil_of_isEmpty hempty
  · exact ⟨rfl, rfl⟩

end PositionLog

namespace MapdbPositionStore

/-- The log lists the positions held, except those saved without being listed. -/
structure Splits (held : List (TypedPosition I)) (log : PositionLog I) : Prop where
  live : log.AllLive
  held : held.Perm (log.listed ++ log.unlisted)

/-- Every call that returns normally keeps it so. -/
theorem Splits.exec {held : List (TypedPosition I)} {log : PositionLog I} (h : Splits held log)
    (op : Operation I) : Splits (hold held op) (log.exec op) := by
  obtain ⟨hentries, hunlisted⟩ := h.live.clear_eq
  cases op with
  | save p =>
    have hsave : log.exec (.save p) = log.save p := rfl
    rw [hsave, PositionLog.save]
    split
    · refine ⟨fun e he => ?_, ?_⟩
      · rcases List.mem_append.mp he with he | he
        · exact h.live e he
        · rw [List.mem_singleton.mp he]
      · calc held ++ [p]
          _ ~ (log.listed ++ log.unlisted) ++ [p] := h.held.append_right [p]
          _ = log.listed ++ (log.unlisted ++ [p]) := List.append_assoc ..
          _ ~ log.listed ++ ([p] ++ log.unlisted) := List.perm_append_comm.append_left _
          _ = (log.entries ++ [(⟨p, true⟩ : LogEntry I)]).map LogEntry.position ++
                log.unlisted := by
              simp [PositionLog.listed]
    · refine ⟨h.live, ?_⟩
      rw [hold, PositionLog.listed, ← List.append_assoc]
      exact h.held.append_right [p]
  | pump positions =>
    have hpumped : (log.exec (.pump positions)).entries =
        positions.reverse.map fun p => ⟨p, true⟩ := by
      refine Eq.trans ?_ (List.append_nil _)
      rw [← hentries]
      rfl
    have hnone : (log.exec (.pump positions)).unlisted = [] := hunlisted
    constructor
    · intro e he
      rw [hpumped] at he
      obtain ⟨p, -, rfl⟩ := List.mem_map.mp he
      rfl
    · rw [PositionLog.listed, hpumped, hnone, List.append_nil, List.map_map]
      exact (List.reverse_perm positions).symm.trans (List.Perm.of_eq (List.map_id _).symm)
  | clear =>
    have hcleared : (log.exec .clear).entries = [] := hentries
    have hnone : (log.exec .clear).unlisted = [] := hunlisted
    refine ⟨fun e he => ?_, ?_⟩
    · rw [hcleared] at he
      cases he
    · rw [PositionLog.listed, hcleared, hnone]
      exact List.Perm.refl _
  | flush => exact h

/-- Throughout a run the log lists the positions held by the store in memory, except those saved
without being listed. -/
theorem splits_of_run (ops : List (Operation I)) :
    Splits (ops.foldl MemoryPositionStore.exec .empty).items
      (ops.foldl PositionLog.exec .init) := by
  induction ops using List.reverseRecOn with
  | nil => exact ⟨fun e he => absurd he List.not_mem_nil, List.Perm.refl _⟩
  | append_singleton ops op ih =>
    rw [List.foldl_append, List.foldl_append, List.foldl_cons, List.foldl_cons, List.foldl_nil,
      List.foldl_nil, MemoryPositionStore.items_exec]
    exact ih.exec op

/-- The positions that the store over MapDB has lost in a run: those saved after a pump, as long as
no `clear` or further pump has found a row. -/
def lost (ops : List (Operation I)) : List (TypedPosition I) :=
  (ops.foldl PositionLog.exec .init).unlisted

variable [LinearOrder I]

/-- Every query of the store in memory finds what the store over MapDB finds, and the lost positions
that it asks for; of the periods only those that slip at no position are considered. -/
structure DiffersBy (lost : List (TypedPosition I)) (mapdb : MapdbPositionStore I)
    (memory : MemoryPositionStore I) : Prop where
  vessel : ∀ id period, (∀ p ∈ memory.items, p.id = id → ¬ VesselSlip period p.timestamp) →
    ((memory.queryVessel id period).map some).Perm (mapdb.queryVessel id period ++
      (lost.filter fun p => p.id = id ∧ p.timestamp ∈ period).map some)
  area : ∀ period box,
    (∀ p ∈ memory.items, box.Contains p.toDefaultPosition → ¬ AreaSlip period p.timestamp) →
    ∃ found, mapdb.queryArea period box = .ok found ∧
      (memory.queryArea period box).Perm (found ++
        lost.filter fun p => p.timestamp ∈ period ∧ box.Contains p.toDefaultPosition)
  latest : ∀ fromDate, ∃ found, mapdb.queryLatest fromDate = found.map some ∧
    LatestFirst found ∧ (memory.queryLatest fromDate).Perm (found ++
      lost.filter fun p => ¬ p.timestamp < fromDate)

omit [LinearOrder I] in
/-- What is found of the positions held, where the log finds the listed ones that it picks. -/
theorem Splits.filter_perm {held : List (TypedPosition I)} {log : PositionLog I}
    (h : Splits held log) {pick asked : TypedPosition I → Bool}
    (hpick : ∀ p ∈ held, asked p = pick p) :
    (held.filter asked).Perm
      (sortBy (fun p => p.timestamp) (log.listed.filter pick) ++ log.unlisted.filter asked) := by
  have hlisted : log.listed.filter asked = log.listed.filter pick :=
    List.filter_congr fun p hp => hpick p (h.held.mem_iff.mpr (List.mem_append_left _ hp))
  calc held.filter asked
    _ ~ (log.listed ++ log.unlisted).filter asked := h.held.filter _
    _ = log.listed.filter pick ++ log.unlisted.filter asked := by
        rw [List.filter_append, hlisted]
    _ ~ sortBy (fun p => p.timestamp) (log.listed.filter pick) ++ log.unlisted.filter asked :=
        (sortBy_perm _ _).symm.append_right _

/-- After any calls that return normally the two stores differ by the lost positions only. -/
theorem same_calls_differ_by_lost (ops : List (Operation I)) :
    DiffersBy (lost ops) (ops.foldl exec init) (ops.foldl MemoryPositionStore.exec .empty) := by
  have hsplits := splits_of_run ops
  obtain ⟨hvessel, harea, hlatest⟩ : AnswersAs (ops.foldl exec init)
      (ops.foldl PositionLog.exec .init) := by
    obtain ⟨keyed, h⟩ := exists_represents_ofAttempts (ops.map Attempt.returns)
    rw [List.foldl_map, List.foldl_map] at h
    exact h.answersAs
  constructor
  case vessel =>
    intro id period hslip
    rw [hvessel, PositionLog.queryVessel, hsplits.live.walk_eq, ← List.map_append]
    have hpick : ∀ p ∈ (ops.foldl MemoryPositionStore.exec .empty).items,
        decide (p.id = id ∧ p.timestamp ∈ period) =
          decide (p.id = id ∧ VesselSliced period p.timestamp) := fun p hp =>
      decide_eq_decide.mpr (and_congr_right fun hid =>
        (vesselSliced_iff_mem.mpr (hslip p hp hid)).symm)
    exact (hsplits.filter_perm hpick).map some
  case area =>
    intro period box hslip
    rw [harea, PositionLog.queryArea, hsplits.live.walk_eq, filterBox_map_some]
    refine ⟨_, rfl, ?_⟩
    have hpick : ∀ p ∈ (ops.foldl MemoryPositionStore.exec .empty).items,
        decide (p.timestamp ∈ period ∧ box.Contains p.toDefaultPosition) =
          decide (AreaSliced period p.timestamp ∧ box.Contains p.toDefaultPosition) := fun p hp =>
      decide_eq_decide.mpr (and_congr_left fun hbox =>
        (areaSliced_iff_mem.mpr (hslip p hp hbox)).symm)
    refine (hsplits.filter_perm hpick).trans (List.Perm.append_right _ ?_)
    refine (sortBy_perm _ _).trans (List.Perm.trans (List.Perm.of_eq ?_)
      ((sortBy_perm _ _).symm.filter _))
    rw [List.filter_filter]
    exact List.filter_congr fun p _ => by rw [Bool.decide_and, Bool.and_comm]
  case latest =>
    intro fromDate
    rw [hlatest, PositionLog.queryLatest, hsplits.live.walk_eq, ← List.map_reverse]
    refine ⟨_, rfl, ?_, ?_⟩
    · exact List.pairwise_reverse.mpr (sortBy_pairwise _ _)
    · refine (MemoryPositionStore.queryLatest_perm _ fromDate).trans
        ((hsplits.filter_perm fun p _ => decide_eq_decide.mpr not_lt).trans
          ((List.reverse_perm _).symm.append_right _))

/-- What is saved after a pump is lost, until a further pump. -/
example : lost [.pump [report], .save simultaneous, .save report, .flush] =
      [simultaneous, report] ∧
    lost [.pump [report], .save simultaneous, .pump [report]] = [] ∧
    lost [.pump [report], .clear, .save simultaneous] = [] := by decide

end MapdbPositionStore

end CwatchBackend
