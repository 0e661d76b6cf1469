import CwatchBackend.Foundation.Run
import CwatchBackend.Store.PeriodQueries

/-!
# Saving from many threads

A call of `save` takes four steps on the store: it increments the sequence, puts the row into the
table, and then the listener, which runs in the same thread, adds the entry of the row to each of
the two indexes.  Here any number of threads make any number of calls, and their steps come in any
order.

`Sound` ties the calls in progress to the store: the keys handed out are all different, so no row is
overwritten, and no index entry comes before its row.  `Recorded` adds that nothing is lost: what is
missing from the table or from an index is what a call in progress has still to add.  When all calls
have ended, the indexes describe the table and the table holds what has been saved
(`saved_positions_survive`).
-/

namespace CwatchBackend

open Foundation

namespace MapdbPositionStore

variable {I T : Type} [LinearOrder I] [DecidableEq T]

/-! ### The steps of `save` -/

/-- What a call of `save` has done so far: the row has its key, it is in the table, or it is in
`lookupIdTimestamp` too. -/
inductive Stage where
  | numbered
  | stored
  | idIndexed
  deriving DecidableEq

/-- A call of `save` in progress. -/
structure Saving (I : Type) where
  key : ℤ
  position : TypedPosition I
  stage : Stage

/-- `sequence.incrementAndGet()` at the beginning of `save(position)`. -/
def beginSave (store : MapdbPositionStore I) (position : TypedPosition I) :
    MapdbPositionStore I × Saving I :=
  ({ store with sequence := store.sequence + 1 }, ⟨store.sequence + 1, position, .numbered⟩)

/-- The next step of a call of `save`, and the call if it has not ended with it. -/
def Saving.advance (call : Saving I) (store : MapdbPositionStore I) :
    MapdbPositionStore I × Option (Saving I) :=
  match call.stage with
  | .numbered =>
    ({ store with
        table := { store.table with rows := store.table.rows.put call.key call.position } },
      if store.table.listening then some { call with stage := .stored } else none)
  | .stored =>
    ({ store with lookupIdTimestamp :=
        store.lookupIdTimestamp.add (idTimestampEntry call.key call.position) },
      some { call with stage := .idIndexed })
  | .idIndexed =>
    ({ store with lookupTimestamp :=
        store.lookupTimestamp.add (timestampEntry call.key call.position) }, none)

/-- The steps of one call, made one after the other, are those of `save`. -/
theorem save_eq_advance {store : MapdbPositionStore I} (h : store.table.listening = true)
    (p : TypedPosition I) :
    let (s₀, c₀) := store.beginSave p
    ∃ c₁ c₂, (c₀.advance s₀).2 = some c₁ ∧ (c₁.advance (c₀.advance s₀).1).2 = some c₂ ∧
      c₂.advance (c₁.advance (c₀.advance s₀).1).1 = (store.save p, none) := by
  simp only [beginSave, Saving.advance, h, if_true, save_of_listening h]
  exact ⟨_, _, rfl, rfl, rfl⟩

/-! ### What holds between the steps -/

/-- The calls in progress are going to write under keys of their own, and no index entry comes
before its row. -/
structure Sound (store : MapdbPositionStore I) (saving : T → Option (Saving I)) : Prop where
  row_le : ∀ e ∈ store.table.rows.entries, e.1 ≤ store.sequence
  key_le : ∀ t c, saving t = some c → c.key ≤ store.sequence
  distinct : ∀ t u c d, saving t = some c → saving u = some d → c.key = d.key → t = u
  fresh : ∀ t c, saving t = some c → c.stage = .numbered →
    ∀ e ∈ store.table.rows.entries, e.1 ≠ c.key
  row : ∀ t c, saving t = some c → c.stage ≠ .numbered →
    (c.key, c.position) ∈ store.table.rows.entries
  idTimestamp : ∀ x ∈ store.lookupIdTimestamp.elements,
    ∃ e ∈ store.table.rows.entries, x = idTimestampEntry e.1 e.2
  timestamp : ∀ x ∈ store.lookupTimestamp.elements,
    ∃ e ∈ store.table.rows.entries, x = timestampEntry e.1 e.2

variable {store : MapdbPositionStore I} {saving saving' : T → Option (Saving I)}

omit [DecidableEq T] in
/-- An initialised store without calls in progress. -/
theorem sound_init : Sound (init : MapdbPositionStore I) fun _ : T => none where
  row_le e he := absurd he List.not_mem_nil
  key_le t c h := by cases h
  distinct t u c d h := by cases h
  fresh t c h := by cases h
  row t c h := by cases h
  idTimestamp x hx := absurd hx List.not_mem_nil
  timestamp x hx := absurd hx List.not_mem_nil

omit [DecidableEq T] in
/-- Calls may end at any step. -/
theorem Sound.shrink (h : Sound store saving)
    (hsub : ∀ t c, saving' t = some c → saving t = some c) : Sound store saving' where
  row_le := h.row_le
  key_le t c hc := h.key_le t c (hsub t c hc)
  distinct t u c d hc hd := h.distinct t u c d (hsub t c hc) (hsub u d hd)
  fresh t c hc := h.fresh t c (hsub t c hc)
  row t c hc := h.row t c (hsub t c hc)
  idTimestamp := h.idTimestamp
  timestamp := h.timestamp

omit [LinearOrder I] in
/-- What holds of the calls after one of them has got on. -/
theorem forall_saving_update {P : T → Saving I → Prop} (t : T) {call : Option (Saving I)}
    (ht : ∀ c, call = some c → P t c) (h : ∀ u c, u ≠ t → saving u = some c → P u c) :
    ∀ u c, Function.update saving t call u = some c → P u c := by
  exact (Function.forall_update_iff saving fun u o => ∀ c, o = some c → P u c).mpr
    ⟨ht, fun u hu c => h u c hu⟩

/-- A call in progress with a key that no other call has. -/
theorem Sound.insert (h : Sound store saving) {t : T} {call : Saving I}
    (hle : call.key ≤ store.sequence)
    (hothers : ∀ u c, u ≠ t → saving u = some c → c.key ≠ call.key)
    (hfresh : call.stage = .numbered → ∀ e ∈ store.table.rows.entries, e.1 ≠ call.key)
    (hrow : call.stage ≠ .numbered → (call.key, call.position) ∈ store.table.rows.entries) :
    Sound store (Function.update saving t (some call)) where
  row_le := h.row_le
  key_le := forall_saving_update t (fun c hc => Option.some.inj hc ▸ hle)
    fun u c _ hc => h.key_le u c hc
  distinct := by
    intro u v c d hc hd hkey
    by_cases hu : u = t <;> by_cases hv : v = t
    · exact hu.trans hv.symm
    · rw [hu, Function.update_self] at hc
      rw [Function.update_of_ne hv] at hd
      obtain rfl := Option.some.inj hc
      exact absurd hkey.symm (hothers v d hv hd)
    · rw [Function.update_of_ne hu] at hc
      rw [hv, Function.update_self] at hd
      obtain rfl := Option.some.inj hd
      exact absurd hkey (hothers u c hu hc)
    · rw [Function.update_of_ne hu] at hc
      rw [Function.update_of_ne hv] at hd
      exact h.distinct u v c d hc hd hkey
  fresh := forall_saving_update t (fun c hc => Option.some.inj hc ▸ hfresh)
    fun u c _ hc => h.fresh u c hc
  row := forall_saving_update t (fun c hc => Option.some.inj hc ▸ hrow)
    fun u c _ hc => h.row u c hc
  idTimestamp := h.idTimestamp
  timestamp := h.timestamp

/-- A call that has ended. -/
theorem Sound.remove (h : Sound store saving) (t : T) :
    Sound store (Function.update saving t none) :=
  h.shrink (forall_saving_update t (fun c hc => by cases hc) fun u c _ hc => hc)

omit [DecidableEq T] in
/-- The keys of the calls in progress are bounded by a greater sequence number, too. -/
theorem Sound.increment (h : Sound store saving) :
    Sound { store with sequence := store.sequence + 1 } saving where
  row_le e he := (h.row_le e he).trans (Int.le_add_one le_rfl)
  key_le t c hc := (h.key_le t c hc).trans (Int.le_add_one le_rfl)
  distinct := h.distinct
  fresh := h.fresh
  row := h.row
  idTimestamp := h.idTimestamp
  timestamp := h.timestamp

/-- The rows after one has been put under a new key. -/
theorem mem_put_rows {key : ℤ} (hnew : ∀ e ∈ store.table.rows.entries, e.1 ≠ key)
    {p : TypedPosition I} {e : ℤ × TypedPosition I} :
    e ∈ (store.table.rows.put key p).entries ↔ e = (key, p) ∨ e ∈ store.table.rows.entries := by
  rw [(store.table.rows.entries_put_perm hnew p).mem_iff, List.mem_cons]

omit [DecidableEq T] in
/-- A new row under a key that no call in progress has. -/
theorem Sound.putRow (h : Sound store saving) {key : ℤ} (hle : key ≤ store.sequence)
    (hnew : ∀ e ∈ store.table.rows.entries, e.1 ≠ key)
    (hothers : ∀ u c, saving u = some c → c.key ≠ key) (p : TypedPosition I) :
    Sound { store with table := { store.table with rows := store.table.rows.put key p } }
      saving where
  row_le e he := by
    rcases (mem_put_rows hnew).mp he with rfl | he
    · exact hle
    · exact h.row_le e he
  key_le := h.key_le
  distinct := h.distinct
  fresh t c hc hstage e he := by
    rcases (mem_put_rows hnew).mp he with rfl | he
    · exact (hothers t c hc).symm
    · exact h.fresh t c hc hstage e he
  row t c hc hstage := (mem_put_rows hnew).mpr (Or.inr (h.row t c hc hstage))
  idTimestamp x hx := by
    obtain ⟨e, he, hx⟩ := h.idTimestamp x hx
    exact ⟨e, (mem_put_rows hnew).mpr (Or.inr he), hx⟩
  timestamp x hx := by
    obtain ⟨e, he, hx⟩ := h.timestamp x hx
    exact ⟨e, (mem_put_rows hnew).mpr (Or.inr he), hx⟩

omit [DecidableEq T] in
/-- The entry of a row in `lookupIdTimestamp`. -/
theorem Sound.addIdTimestamp (h : Sound store saving) {e : ℤ × TypedPosition I}
    (he : e ∈ store.table.rows.entries) :
    Sound { store with
      lookupIdTimestamp := store.lookupIdTimestamp.add (idTimestampEntry e.1 e.2) } saving :=
  { h with
    idTimestamp := fun x hx => (NavigableSet.mem_add.mp hx).elim (fun hx => ⟨e, he, hx⟩)
      (h.idTimestamp x) }

omit [DecidableEq T] in
/-- The entry of a row in `lookupTimestamp`. -/
theorem Sound.addTimestamp (h : Sound store saving) {e : ℤ × TypedPosition I}
    (he : e ∈ store.table.rows.entries) :
    Sound { store with
      lookupTimestamp := store.lookupTimestamp.add (timestampEntry e.1 e.2) } saving :=
  { h with
    timestamp := fun x hx => (NavigableSet.mem_add.mp hx).elim (fun hx => ⟨e, he, hx⟩)
      (h.timestamp x) }

/-- A new call gets a key of its own. -/
theorem Sound.beginSave (h : Sound store saving) (t : T) (p : TypedPosition I) :
    Sound (store.beginSave p).1 (Function.update saving t (some (store.beginSave p).2)) := by
  refine h.increment.insert le_rfl (fun u c _ hc => ?_) (fun _ e he => ?_) fun hstage => ?_
  · exact (Int.lt_add_one_iff.mpr (h.key_le u c hc)).ne
  · exact (Int.lt_add_one_iff.mpr (h.row_le e he)).ne
  · exact absurd rfl hstage

/-- The next step of a call writes under its own key. -/
theorem Sound.advance (h : Sound store saving) {t : T} {call : Saving I}
    (ht : saving t = some call) :
    Sound (call.advance store).1 (Function.update saving t (call.advance store).2) := by
  have hothers : ∀ u c, u ≠ t → saving u = some c → c.key ≠ call.key :=
    fun u c hu hc hkey => hu (h.distinct u t c call hc ht hkey)
  obtain ⟨key, position, stage⟩ := call
  have hle : key ≤ store.sequence := h.key_le t _ ht
  cases stage with
  | numbered =>
    have hfresh : ∀ e ∈ store.table.rows.entries, e.1 ≠ key := h.fresh t _ ht rfl
    have hput := (h.remove t).putRow hle hfresh
      (forall_saving_update t (fun c hc => by cases hc) hothers) position
    simp only [Saving.advance]
    split
    · have hrow : (key, position) ∈ (store.table.rows.put key position).entries :=
        (mem_put_rows hfresh).mpr (Or.inl rfl)
      have hstored : Sound _ (Function.update (Function.update saving t none) t
          (some ⟨key, position, .stored⟩)) :=
        hput.insert hle
          (fun u c hu hc => hothers u c hu (by rwa [Function.update_of_ne hu] at hc)) nofun
          fun _ => hrow
      rwa [Function.update_idem] at hstored
    · exact hput
  | stored =>
    have hrow : (key, position) ∈ store.table.rows.entries := h.row t _ ht nofun
    exact (h.addIdTimestamp hrow).insert hle hothers nofun fun _ => hrow
  | idIndexed => exact (h.addTimestamp (h.row t _ ht nofun)).remove t

/-! ### Runs of savers -/

/-- A store, the calls of `save` in progress in the threads, and the keys that have been handed out
so far with the positions saved under them. -/
structure ConcurrentSaves (I T : Type) [LinearOrder I] where
  store : MapdbPositionStore I
  saving : T → Option (Saving I)
  issued : List (ℤ × TypedPosition I)

/-- A thread calls `save`, or its call makes its next step. -/
inductive SaveAction (I T : Type) where
  | save (t : T) (position : TypedPosition I)
  | advance (t : T)

/-- The position of a call of `save`. -/
def SaveAction.position? : SaveAction I T → Option (TypedPosition I)
  | .save _ position => some position
  | .advance _ => none

/-- The positions of the calls of `save` in a run. -/
def savedPositions (actions : List (SaveAction I T)) : List (TypedPosition I) :=
  actions.filterMap SaveAction.position?

namespace ConcurrentSaves

/-- An initialised store, before any call. -/
def start : ConcurrentSaves I T := ⟨init, fun _ => none, []⟩

/-- The steps of the threads.  A thread makes one call at a time. -/
def step (s : ConcurrentSaves I T) : SaveAction I T → Option (ConcurrentSaves I T)
  | .save t position =>
    match s.saving t with
    | some _ => none
    | none =>
      let (store, call) := s.store.beginSave position
      some {
        store
        saving := Function.update s.saving t (some call)
        issued := s.issued ++ [(call.key, position)] }
  | .advance t =>
    match s.saving t with
    | none => none
    | some call =>
      let (store, call') := call.advance s.store
      some { s with store, saving := Function.update s.saving t call' }

/-- What a step is. -/
theorem step_cases {s s' : ConcurrentSaves I T} {action : SaveAction I T}
    (h : step s action = some s') :
    (∃ t p, action = .save t p ∧ s.saving t = none ∧ s' = {
        store := (s.store.beginSave p).1
        saving := Function.update s.saving t (some (s.store.beginSave p).2)
        issued := s.issued ++ [((s.store.beginSave p).2.key, p)] }) ∨
      ∃ t call, action = .advance t ∧ s.saving t = some call ∧ s' = { s with
        store := (call.advance s.store).1
        saving := Function.update s.saving t (call.advance s.store).2 } := by
  cases action with
  | save t p =>
    cases hsaving : s.saving t with
    | some call => simp only [step, hsaving, reduceCtorEq] at h
    | none =>
      simp only [step, hsaving] at h
      exact Or.inl ⟨t, p, rfl, hsaving, (Option.some.inj h).symm⟩
  | advance t =>
    cases hsaving : s.saving t with
    | none => simp only [step, hsaving, reduceCtorEq] at h
    | some call =>
      simp only [step, hsaving] at h
      exact Or.inr ⟨t, call, rfl, hsaving, (Option.some.inj h).symm⟩

end ConcurrentSaves

/-- A call in progress under the key `key` is at a stage with `P`. -/
def Pending (saving : T → Option (Saving I)) (P : Stage → Prop) (key : ℤ) : Prop :=
  ∃ t c, saving t = some c ∧ c.key = key ∧ P c.stage

omit [LinearOrder I] in
/-- What is pending stays pending while another thread makes a step. -/
theorem Pending.update {P : Stage → Prop} {key : ℤ} (h : Pending saving P key) {t : T}
    (call' : Option (Saving I)) :
    Pending (Function.update saving t call') P key ∨
      ∃ call, saving t = some call ∧ call.key = key ∧ P call.stage := by
  obtain ⟨u, c, hc, hkey, hstage⟩ := h
  by_cases hu : u = t
  · exact Or.inr ⟨c, hu ▸ hc, hkey, hstage⟩
  · exact Or.inl ⟨u, c, by rwa [Function.update_of_ne hu], hkey, hstage⟩

/-- Nothing gets lost: the rows are those that have been issued, and what is missing from the table
or from an index is pending. -/
structure Recorded (s : ConcurrentSaves I T) : Prop extends Sound s.store s.saving where
  listening : s.store.table.listening = true
  keys : (s.issued.map Prod.fst).Nodup
  issued_le : ∀ e ∈ s.issued, e.1 ≤ s.store.sequence
  row_issued : ∀ e ∈ s.store.table.rows.entries, e ∈ s.issued
  call_issued : ∀ t c, s.saving t = some c → (c.key, c.position) ∈ s.issued
  issued_row : ∀ e ∈ s.issued,
    e ∈ s.store.table.rows.entries ∨ Pending s.saving (· = .numbered) e.1
  row_idTimestamp : ∀ e ∈ s.store.table.rows.entries,
    idTimestampEntry e.1 e.2 ∈ s.store.lookupIdTimestamp.elements ∨
      Pending s.saving (· = .stored) e.1
  row_timestamp : ∀ e ∈ s.store.table.rows.entries,
    timestampEntry e.1 e.2 ∈ s.store.lookupTimestamp.elements ∨
      Pending s.saving (· ≠ .numbered) e.1

omit [DecidableEq T] in
/-- Nothing has been issued at the start. -/
theorem recorded_start : Recorded (ConcurrentSaves.start : ConcurrentSaves I T) where
  toSound := sound_init
  listening := rfl
  keys := List.nodup_nil
  issued_le e he := absurd he List.not_mem_nil
  row_issued e he := absurd he List.not_mem_nil
  call_issued t c h := by cases h
  issued_row e he := absurd he List.not_mem_nil
  row_idTimestamp e he := absurd he List.not_mem_nil
  row_timestamp e he := absurd he List.not_mem_nil

omit [DecidableEq T] in
/-- A key is issued for one position only. -/
theorem Recorded.eq_of_key {s : ConcurrentSaves I T} (h : Recorded s) {e f : ℤ × TypedPosition I}
    (he : e ∈ s.issued) (hf : f ∈ s.issued) (hkey : e.1 = f.1) : e = f :=
  List.inj_on_of_nodup_map h.keys he hf hkey

/-- A new call. -/
theorem Recorded.save {s : ConcurrentSaves I T} (h : Recorded s) {t : T}
    (ht : s.saving t = none) (p : TypedPosition I) :
    Recorded {
      store := (s.store.beginSave p).1
      saving := Function.update s.saving t (some (s.store.beginSave p).2)
      issued := s.issued ++ [((s.store.beginSave p).2.key, p)] } where
  toSound := h.toSound.beginSave t p
  listening := h.listening
  keys := by
    rw [List.map_append, List.nodup_append]
    refine ⟨h.keys, List.nodup_singleton _, ?_⟩
    simp only [List.mem_map, List.map_cons, List.map_nil, List.mem_singleton]
    rintro _ ⟨e, he, rfl⟩ _ rfl
    exact (Int.lt_add_one_iff.mpr (h.issued_le e he)).ne
  issued_le e he := by
    rcases List.mem_append.mp he with he | he
    · exact (h.issued_le e he).trans (Int.le_add_one le_rfl)
    · obtain rfl := List.mem_singleton.mp he
      exact le_rfl
  row_issued e he := List.mem_append_left _ (h.row_issued e he)
  call_issued := forall_saving_update t
    (fun c hc => by
      obtain rfl := Option.some.inj hc
      exact List.mem_append_right _ (List.mem_singleton.mpr rfl))
    fun u c _ hc => List.mem_append_left _ (h.call_issued u c hc)
  issued_row e he := by
    rcases List.mem_append.mp he with he | he
    · refine (h.issued_row e he).imp_right fun hpending => ?_
      exact (hpending.update _).resolve_right fun ⟨call, hcall, _⟩ => by simp [ht] at hcall
    · obtain rfl := List.mem_singleton.mp he
      exact Or.inr ⟨t, _, Function.update_self _ _ _, rfl, rfl⟩
  row_idTimestamp e he := (h.row_idTimestamp e he).imp_right fun hpending =>
    (hpending.update _).resolve_right fun ⟨call, hcall, _⟩ => by simp [ht] at hcall
  row_timestamp e he := (h.row_timestamp e he).imp_right fun hpending =>
    (hpending.update _).resolve_right fun ⟨call, hcall, _⟩ => by simp [ht] at hcall

/-- What is pending stays pending when a call makes a step, unless it is what that call has still to
add. -/
theorem Recorded.pending_update {s : ConcurrentSaves I T} (h : Recorded s) {t : T}
    {call : Saving I} (ht : s.saving t = some call) (call' : Option (Saving I))
    {P : Stage → Prop} {e : ℤ × TypedPosition I} (he : e ∈ s.issued)
    (hpending : Pending s.saving P e.1) :
    Pending (Function.update s.saving t call') P e.1 ∨
      P call.stage ∧ e = (call.key, call.position) := by
  refine (hpending.update call').imp_right ?_
  rintro ⟨c, hc, hkey, hstage⟩
  obtain rfl := Option.some.inj (ht.symm.trans hc)
  exact ⟨hstage, h.eq_of_key he (h.call_issued t call ht) hkey.symm⟩

/-- The calls in progress have been issued, whatever one of them is going to add. -/
theorem Recorded.call_issued_update {s : ConcurrentSaves I T} (h : Recorded s) {t : T}
    {call : Saving I} (ht : s.saving t = some call) (stage : Stage) :
    ∀ u c, Function.update s.saving t (some { call with stage }) u = some c →
      (c.key, c.position) ∈ s.issued :=
  forall_saving_update t (fun _ hc => Option.some.inj hc ▸ h.call_issued t call ht)
    fun u c _ hc => h.call_issued u c hc

/-- A call puts its row into the table. -/
theorem Recorded.putRow {s : ConcurrentSaves I T} (h : Recorded s) {t : T} {key : ℤ}
    {position : TypedPosition I} (ht : s.saving t = some ⟨key, position, .numbered⟩) :
    Recorded { s with
      store := ((Saving.mk key position .numbered).advance s.store).1
      saving := Function.update s.saving t
        ((Saving.mk key position .numbered).advance s.store).2 } := by
  have hsound := h.toSound.advance ht
  have hissued : (key, position) ∈ s.issued := h.call_issued t _ ht
  have hrows : ∀ e, e ∈ (s.store.table.rows.put key position).entries ↔
      e = (key, position) ∨ e ∈ s.store.table.rows.entries :=
    fun e => mem_put_rows (h.fresh t _ ht rfl)
  simp only [Saving.advance, h.listening, if_true] at hsound ⊢
  -- The index entries of the new row are still to come.
  have hself : ∀ {P : Stage → Prop}, P .stored →
      Pending (Function.update s.saving t (some ⟨key, position, .stored⟩)) P key :=
    fun hP => ⟨t, _, Function.update_self _ _ _, rfl, hP⟩
  refine ⟨hsound, rfl, h.keys, h.issued_le, ?_, h.call_issued_update ht .stored, ?_, ?_, ?_⟩
  · intro e he
    rcases (hrows e).mp he with rfl | he
    · exact hissued
    · exact h.row_issued e he
  · intro e he
    rcases h.issued_row e he with hrow | hrow
    · exact Or.inl ((hrows e).mpr (Or.inr hrow))
    · rcases h.pending_update ht _ he hrow with hrow | ⟨-, heq⟩
      · exact Or.inr hrow
      · exact Or.inl ((hrows e).mpr (Or.inl heq))
  · intro e he
    rcases (hrows e).mp he with rfl | he
    · exact Or.inr (hself rfl)
    · have hold := h.row_issued e he
      exact (h.row_idTimestamp e he).imp_right fun hentry =>
        (h.pending_update ht _ hold hentry).resolve_right nofun
  · intro e he
    rcases (hrows e).mp he with rfl | he
    · exact Or.inr (hself nofun)
    · have hold := h.row_issued e he
      exact (h.row_timestamp e he).imp_right fun hentry =>
        (h.pending_update ht _ hold hentry).resolve_right fun hcall => hcall.1 rfl

/-- A call adds its entry to `lookupIdTimestamp`. -/
theorem Recorded.addIdTimestamp {s : ConcurrentSaves I T} (h : Recorded s) {t : T} {key : ℤ}
    {position : TypedPosition I} (ht : s.saving t = some ⟨key, position, .stored⟩) :
    Recorded { s with
      store := ((Saving.mk key position .stored).advance s.store).1
      saving := Function.update s.saving t
        ((Saving.mk key position .stored).advance s.store).2 } := by
  have hsound := h.toSound.advance ht
  refine ⟨hsound, h.listening, h.keys, h.issued_le, h.row_issued,
    h.call_issued_update ht .idIndexed, ?_, ?_, ?_⟩
  · intro e he
    exact (h.issued_row e he).imp_right fun hrow =>
      (h.pending_update ht _ he hrow).resolve_right nofun
  · intro e he
    have hold := h.row_issued e he
    rcases h.row_idTimestamp e he with hentry | hentry
    · exact Or.inl (NavigableSet.mem_add.mpr (Or.inr hentry))
    · rcases h.pending_update ht _ hold hentry with hentry | ⟨-, rfl⟩
      · exact Or.inr hentry
      · exact Or.inl (NavigableSet.mem_add.mpr (Or.inl rfl))
  · intro e he
    have hold := h.row_issued e he
    refine (h.row_timestamp e he).imp_right fun hentry => ?_
    rcases h.pending_update ht _ hold hentry with hentry | ⟨-, rfl⟩
    · exact hentry
    · exact ⟨t, _, Function.update_self _ _ _, rfl, nofun⟩

/-- A call adds its entry to `lookupTimestamp` and ends. -/
theorem Recorded.addTimestamp {s : ConcurrentSaves I T} (h : Recorded s) {t : T} {key : ℤ}
    {position : TypedPosition I} (ht : s.saving t = some ⟨key, position, .idIndexed⟩) :
    Recorded { s with
      store := ((Saving.mk key position .idIndexed).advance s.store).1
      saving := Function.update s.saving t
        ((Saving.mk key position .idIndexed).advance s.store).2 } := by
  have hsound := h.toSound.advance ht
  refine ⟨hsound, h.listening, h.keys, h.issued_le, h.row_issued, ?_, ?_, ?_, ?_⟩
  · exact forall_saving_update t (fun _ hc => by cases hc) fun u c _ hc => h.call_issued u c hc
  · intro e he
    exact (h.issued_row e he).imp_right fun hrow =>
      (h.pending_update ht _ he hrow).resolve_right nofun
  · intro e he
    have hold := h.row_issued e he
    exact (h.row_idTimestamp e he).imp_right fun hentry =>
      (h.pending_update ht _ hold hentry).resolve_right nofun
  · intro e he
    have hold := h.row_issued e he
    rcases h.row_timestamp e he with hentry | hentry
    · exact Or.inl (NavigableSet.mem_add.mpr (Or.inr hentry))
    · rcases h.pending_update ht _ hold hentry with hentry | ⟨-, rfl⟩
      · exact Or.inr hentry
      · exact Or.inl (NavigableSet.mem_add.mpr (Or.inl rfl))

/-- The next step of a call adds what was pending under its key. -/
theorem Recorded.advance {s : ConcurrentSaves I T} (h : Recorded s) {t : T} {call : Saving I}
    (ht : s.saving t = some call) :
    Recorded { s with
      store := (call.advance s.store).1
      saving := Function.update s.saving t (call.advance s.store).2 } := by
  obtain ⟨key, position, stage⟩ := call
  cases stage with
  | numbered => exact h.putRow ht
  | stored => exact h.addIdTimestamp ht
  | idIndexed => exact h.addTimestamp ht

/-- Every step keeps the record. -/
theorem recorded_of_step {s s' : ConcurrentSaves I T} {action : SaveAction I T} (h : Recorded s)
    (hstep : s.step action = some s') : Recorded s' := by
  rcases ConcurrentSaves.step_cases hstep with ⟨t, p, -, ht, rfl⟩ | ⟨t, call, -, ht, rfl⟩
  · exact h.save ht p
  · exact h.advance ht

/-- The positions that have been issued are those of the calls. -/
theorem issued_of_run {actions : List (SaveAction I T)} {s : ConcurrentSaves I T}
    (hrun : run ConcurrentSaves.step ConcurrentSaves.start actions = some s) :
    s.issued.map Prod.snd = savedPositions actions := by
  induction actions using List.reverseRecOn generalizing s with
  | nil => exact Option.some.inj hrun ▸ rfl
  | append_singleton actions action ih =>
    obtain ⟨s', hrun', hstep⟩ := run_concat.mp hrun
    rw [savedPositions, List.filterMap_append]
    rcases ConcurrentSaves.step_cases hstep with ⟨t, p, rfl, -, rfl⟩ | ⟨t, call, rfl, -, rfl⟩
    · rw [List.map_append, ih hrun']
      rfl
    · rw [ih hrun']
      exact (List.append_nil _).symm

/-! ### After all calls -/

omit [LinearOrder I] [DecidableEq T] in
/-- Without calls in progress nothing is pending. -/
theorem not_pending (hidle : ∀ t, saving t = none) {P : Stage → Prop} {key : ℤ} :
    ¬ Pending saving P key := by
  rintro ⟨t, c, hc, -⟩
  rw [hidle t] at hc
  cases hc

omit [DecidableEq T] in
/-- When no call is in progress, the indexes describe the table. -/
theorem Recorded.indexesDescribeTable {s : ConcurrentSaves I T} (h : Recorded s)
    (hidle : ∀ t, s.saving t = none) : IndexesDescribeTable s.store where
  idTimestamp := NavigableSet.elements_perm_of_mem idTimestampEntry key_of_idTimestampEntry
    h.idTimestamp fun e he => (h.row_idTimestamp e he).resolve_right (not_pending hidle)
  timestamp := NavigableSet.elements_perm_of_mem timestampEntry key_of_timestampEntry
    h.timestamp fun e he => (h.row_timestamp e he).resolve_right (not_pending hidle)

omit [DecidableEq T] in
/-- When no call is in progress, the rows are those that have been issued. -/
theorem Recorded.rows_perm {s : ConcurrentSaves I T} (h : Recorded s)
    (hidle : ∀ t, s.saving t = none) : s.store.table.rows.entries.Perm s.issued :=
  (List.perm_ext_iff_of_nodup s.store.table.rows.nodup (List.Nodup.of_map _ h.keys)).mpr fun e =>
    ⟨h.row_issued e, fun he => (h.issued_row e he).resolve_right (not_pending hidle)⟩

/-- The area query over the whole time line lets every timestamp through. -/
theorem areaSliced_all (t : Date) : AreaSliced Range.all t := ⟨nofun, nofun⟩

/-- The vessel query over the whole time line lets every timestamp but the last one through. -/
theorem vesselSliced_all_iff {t : Date} : VesselSliced Range.all t ↔ t < Date.maxValue :=
  ⟨fun h => h.2 rfl, fun h => ⟨areaSliced_all t, fun _ => h⟩⟩

/-- Every position is somewhere. -/
theorem everywhere_contains (p : DefaultPosition) : everywhere.Contains p :=
  ⟨bot_le, le_top, bot_le, le_top⟩

/-- The positions of all vessels together are all positions. -/
theorem flatMap_vessel_perm {ids : List I} (hids : ids.Nodup) {ps : List (TypedPosition I)}
    (hall : ∀ p ∈ ps, p.id ∈ ids) :
    (ids.flatMap fun id => ps.filter fun p => p.id = id).Perm ps := by
  have hdisjoint : ids.Pairwise fun id id' => ∀ p : TypedPosition I,
      decide (p.id = id) = true → decide (p.id = id') = false := by
    refine hids.imp fun hne p hp => decide_eq_false fun hp' => hne ?_
    exact (of_decide_eq_true hp).symm.trans hp'
  have hpicked : (ps.filter fun p => ids.any fun id => decide (p.id = id)) = ps :=
    List.filter_eq_self.mpr fun p hp =>
      List.any_eq_true.mpr ⟨p.id, hall p hp, decide_eq_true rfl⟩
  have hparts := flatMap_filter_perm hdisjoint ps
  rwa [hpicked] at hparts

/-- Whatever the order of their steps, the calls get different keys and overwrite no row, and at
every moment an index entry refers to a row with its identifier and its timestamp.  When all calls
have ended, the query for the whole map returns what has been saved, each position once, and so do
the queries for all vessels together unless a position is stamped `Long.MAX_VALUE`. -/
theorem saved_positions_survive (actions : List (SaveAction I T)) (s : ConcurrentSaves I T)
    (hrun : run ConcurrentSaves.step ConcurrentSaves.start actions = some s) :
    s.issued.map Prod.snd = savedPositions actions ∧
      (s.issued.map Prod.fst).Nodup ∧
      (∀ e ∈ s.store.table.rows.entries, e ∈ s.issued) ∧
      (∀ e ∈ s.issued,
        e ∈ s.store.table.rows.entries ∨ Pending s.saving (· = .numbered) e.1) ∧
      (∀ x ∈ s.store.lookupIdTimestamp.elements, ∃ key p, x = idTimestampEntry key p ∧
        s.store.rowOf 2 x = some p) ∧
      (∀ x ∈ s.store.lookupTimestamp.elements, ∃ key p, x = timestampEntry key p ∧
        s.store.rowOf 1 x = some p) ∧
      ((∀ t, s.saving t = none) →
        (∃ found, s.store.queryArea Range.all everywhere = .ok found ∧
          found.Perm (savedPositions actions)) ∧
        ((∀ p ∈ savedPositions actions, p.timestamp < Date.maxValue) →
          (∀ id, (s.store.queryVessel id Range.all).Perm
            (((savedPositions actions).filter fun p => p.id = id).map some)) ∧
          ∀ ids : List I, ids.Nodup → (∀ p ∈ savedPositions actions, p.id ∈ ids) →
            (ids.flatMap fun id => s.store.queryVessel id Range.all).Perm
              ((savedPositions actions).map some))) := by
  have h := run_invariant_of_step (I := Recorded) (fun _ _ _ h hstep => recorded_of_step h hstep)
    recorded_start hrun
  have hissued := issued_of_run hrun
  refine ⟨hissued, h.keys, h.row_issued, h.issued_row, ?_, ?_, ?_⟩
  · intro x hx
    obtain ⟨e, he, rfl⟩ := h.idTimestamp x hx
    exact ⟨e.1, e.2, rfl, s.store.table.rows.get_of_mem he⟩
  · intro x hx
    obtain ⟨e, he, rfl⟩ := h.timestamp x hx
    exact ⟨e.1, e.2, rfl, s.store.table.rows.get_of_mem he⟩
  · intro hidle
    have hindexes := h.indexesDescribeTable hidle
    have hrows : (s.store.table.rows.entries.map Prod.snd).Perm (savedPositions actions) :=
      hissued ▸ (h.rows_perm hidle).map Prod.snd
    constructor
    · obtain ⟨found, hfound, hperm⟩ := queryArea_perm hindexes Range.all everywhere
      refine ⟨found, hfound, (hperm.trans (hrows.filter _)).trans (List.Perm.of_eq ?_)⟩
      exact List.filter_eq_self.mpr fun p _ =>
        decide_eq_true ⟨areaSliced_all p.timestamp, everywhere_contains p.toDefaultPosition⟩
    · intro hmax
      have hvessel : ∀ id, (s.store.queryVessel id Range.all).Perm
          (((savedPositions actions).filter fun p => p.id = id).map some) := by
        intro id
        refine (queryVessel_perm hindexes id Range.all).trans ?_
        refine ((hrows.filter _).trans (List.Perm.of_eq ?_)).map some
        refine List.filter_congr fun p hp => decide_eq_decide.mpr ?_
        exact and_iff_left (vesselSliced_all_iff.mpr (hmax p hp))
      refine ⟨hvessel, fun ids hids hall => ?_⟩
      have hflat : (ids.flatMap fun id => s.store.queryVessel id Range.all).Perm
          (ids.flatMap fun id => ((savedPositions actions).filter fun p => p.id = id).map some) :=
        List.Perm.flatMap_left ids fun id _ => hvessel id
      rw [← List.map_flatMap] at hflat
      exact hflat.trans ((flatMap_vessel_perm hids hall).map some)

/-- Two threads save equal positions, and their steps alternate. -/
def twoSavers : List (SaveAction Int32 Bool) :=
  [.save false report, .save true report, .advance true, .advance false, .advance false,
    .advance true, .advance true, .advance false]

/-- Both positions are found. -/
theorem saved_positions_survive_twoSavers :
    ∃ s, run ConcurrentSaves.step ConcurrentSaves.start twoSavers = some s ∧
      (∃ found, s.store.queryArea Range.all everywhere = .ok found ∧
        found.Perm [report, report]) ∧
      (s.store.queryVessel 1 Range.all).Perm [some report, some report] := by
  obtain ⟨s, hrun⟩ : ∃ s, run ConcurrentSaves.step ConcurrentSaves.start twoSavers = some s :=
    ⟨_, rfl⟩
  have hidle : ∀ t, s.saving t = none := by
    obtain rfl := Option.some.inj hrun
    decide
  obtain ⟨-, -, -, -, -, -, hended⟩ := saved_positions_survive twoSavers s hrun
  obtain ⟨harea, hvessel⟩ := hended hidle
  exact ⟨s, hrun, harea, (hvessel (by decide)).1 1⟩

end MapdbPositionStore

end CwatchBackend
