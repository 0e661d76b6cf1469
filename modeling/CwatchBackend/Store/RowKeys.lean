import CwatchBackend.Store.MapdbIndexes

/-!
# Row keys and the modification listener

One counter, `sequence`, numbers all rows.  `save` takes the number itself as the key and `pump` the
negated number; `clear` resets nothing, and a pump whose source throws has used up the numbers of
the positions drawn so far.  A `Journal` is a store together with the pairs of key and position that
its saves and its pumps have made and the calls of `lookupListener` that they have caused.

Over a whole run the keys of the saves ascend and the keys of the pumps descend, on different sides
of zero (`Journal.Ordered`), so that no key is ever given twice.  A `put` therefore replaces no row,
and as `clear` detaches the listener before it removes the rows, the listener learns of insertions
only (`row_keys_never_reused`).  The journal is tied to the store: the rows of the table are among
its pairs, and its calls of the listener are what the indexes owe all their entries to
(`Journal.ListenerMaintains`).
-/

namespace CwatchBackend

open Foundation

/-- A call `lookupListener.update(key, oldVal, newVal)`; a `null` is `none`. -/
structure ListenerCall (I : Type) where
  key : ℤ
  oldVal : Option (TypedPosition I)
  newVal : Option (TypedPosition I)
  deriving DecidableEq

/-- The call tells of a new row. -/
def ListenerCall.IsInsertion {I : Type} (call : ListenerCall I) : Prop :=
  call.oldVal = none ∧ call.newVal ≠ none

namespace Table

variable {I : Type}

/-- The listener calls of `put(key, position)`: the old value is that of the row replaced. -/
def putCalls (table : Table I) (key : ℤ) (position : TypedPosition I) : List (ListenerCall I) :=
  if table.listening then [⟨key, table.rows.get key, some position⟩] else []

/-- The listener calls of `clear()`: one removal for every row. -/
def clearCalls (table : Table I) : List (ListenerCall I) :=
  if table.listening then table.rows.entries.map fun e => ⟨e.1, some e.2, none⟩ else []

end Table

namespace MapdbPositionStore

variable {I : Type} [LinearOrder I]

/-! ### What the listener is told -/

/-- `lookupListener.update(key, oldVal, newVal)`, which reads the new value. -/
def listen (store : MapdbPositionStore I) (call : ListenerCall I) :
    Except Throwable (MapdbPositionStore I) :=
  match call.newVal with
  | some newVal => .ok (store.update call.key newVal)
  | none => .error .nullPointerException

/-- The listener calls of `save(position)`. -/
def saveCalls (store : MapdbPositionStore I) (position : TypedPosition I) :
    List (ListenerCall I) :=
  store.table.putCalls (store.sequence + 1) position

/-- The listener calls of `clear()`, which detaches the listener before it clears the table. -/
def clearCalls (store : MapdbPositionStore I) : List (ListenerCall I) :=
  if store.table.rows.isEmpty then [] else { store.table with listening := false }.clearCalls

/-- The listener call `lookupListener.update(kp.a, null, kp.b)` of a pumped pair. -/
def drawCall (kp : ℤ × TypedPosition I) : ListenerCall I := ⟨kp.1, none, some kp.2⟩

/-- The listener calls of a pump that draws the given positions. -/
def pumpCalls (store : MapdbPositionStore I) (positions : List (TypedPosition I)) :
    List (ListenerCall I) :=
  store.clearCalls ++ (pumpPairs store.clear.sequence positions).map drawCall

/-- The store does with its indexes what the listener does when `put` calls it. -/
theorem foldlM_listen_putCalls (store : MapdbPositionStore I) (key : ℤ) (p : TypedPosition I) :
    (store.table.putCalls key p).foldlM listen
        { store with table := { store.table with rows := store.table.rows.put key p } } =
      .ok (store.tablePut key p) := by
  unfold Table.putCalls tablePut
  cases store.table.listening <;> rfl

/-- What the listener does for the pairs of a pump. -/
theorem foldlM_listen_drawCall (pairs : List (ℤ × TypedPosition I))
    (store : MapdbPositionStore I) :
    (pairs.map drawCall).foldlM listen store =
      .ok { store with
        lookupIdTimestamp := pairs.foldl
          (fun s e => s.add (idTimestampEntry e.1 e.2)) store.lookupIdTimestamp
        lookupTimestamp := pairs.foldl
          (fun s e => s.add (timestampEntry e.1 e.2)) store.lookupTimestamp } := by
  induction pairs generalizing store with
  | nil => rfl
  | cons e pairs ih =>
    rw [List.map_cons, List.foldlM_cons]
    exact ih (store.update e.1 e.2)

/-- The store does with its indexes what the listener does when a pump calls it, whatever table the
pump leaves. -/
theorem foldlM_listen_pumpPairs (store : MapdbPositionStore I)
    (positions : List (TypedPosition I)) (table : Table I) :
    ((pumpPairs store.sequence positions).map drawCall).foldlM listen
        { store with table := table, sequence := store.sequence + positions.length } =
      .ok { positions.foldl draw store with table := table } := by
  rw [foldlM_listen_drawCall, foldl_draw]

/-- `clear` tells the listener nothing. -/
theorem clearCalls_eq_nil (store : MapdbPositionStore I) : store.clearCalls = [] := by
  unfold clearCalls
  split <;> rfl

/-- A pump tells the listener of the pairs that it hands on, and of nothing else. -/
theorem pumpCalls_eq (store : MapdbPositionStore I) (positions : List (TypedPosition I)) :
    store.pumpCalls positions = (pumpPairs store.clear.sequence positions).map drawCall := by
  rw [pumpCalls, clearCalls_eq_nil, List.nil_append]

/-! ### Journals -/

/-- The calls of a run: calls that return normally, and pumps whose source throws after the given
positions. -/
inductive Attempt (I : Type) where
  | returns (op : Operation I)
  | pumpThrows (positions : List (TypedPosition I))

/-- A store, the pairs that its saves have put into the table, for every pump the pairs that were
handed to `pumpSource`, and the calls of the listener. -/
structure Journal (I : Type) [LinearOrder I] where
  store : MapdbPositionStore I
  saved : List (ℤ × TypedPosition I)
  pumped : List (List (ℤ × TypedPosition I))
  calls : List (ListenerCall I)

namespace Journal

/-- The journal of an initialised store. -/
def init : Journal I := ⟨MapdbPositionStore.init, [], [], []⟩

/-- The journal after one more call. -/
def record (j : Journal I) : Attempt I → Journal I
  | .returns (.save position) =>
    { j with
      store := j.store.save position
      saved := j.saved ++ [(j.store.sequence + 1, position)]
      calls := j.calls ++ j.store.saveCalls position }
  | .returns (.pump positions) =>
    { j with
      store := j.store.pump positions
      pumped := j.pumped ++ [pumpPairs j.store.clear.sequence positions]
      calls := j.calls ++ j.store.pumpCalls positions }
  | .returns .clear =>
    { j with store := j.store.clear, calls := j.calls ++ j.store.clearCalls }
  | .returns .flush => { j with store := j.store.flush }
  | .pumpThrows positions =>
    { j with
      store := j.store.pumpThrows positions
      pumped := j.pumped ++ [pumpPairs j.store.clear.sequence positions]
      calls := j.calls ++ j.store.pumpCalls positions }

/-- The journal of a run of an initialised store. -/
def ofRun (attempts : List (Attempt I)) : Journal I := attempts.foldl record init

/-- The store whose indexes the listener goes on with in a call: a pump clears them first. -/
def heardBy (store : MapdbPositionStore I) : Attempt I → MapdbPositionStore I
  | .returns (.save _) => store
  | .returns (.pump _) => store.clear
  | .returns .clear => store.clear
  | .returns .flush => store
  | .pumpThrows _ => store.clear

/-- Nothing but the recorded calls of the listener changes the indexes in a further call. -/
def ListenerMaintains (j : Journal I) (attempt : Attempt I) : Prop :=
  ∃ calls, (j.record attempt).calls = j.calls ++ calls ∧
    calls.foldlM listen
        { (j.record attempt).store with
          lookupIdTimestamp := (heardBy j.store attempt).lookupIdTimestamp
          lookupTimestamp := (heardBy j.store attempt).lookupTimestamp } =
      .ok (j.record attempt).store

/-- The keys given to all positions. -/
def keys (j : Journal I) : List ℤ := (j.saved ++ j.pumped.flatten).map Prod.fst

/-- The counter has counted the pairs, the keys of the saves ascend above zero, those of the pumps
descend below it, the rows of the table are among the pairs, and the listener has learned of
insertions only. -/
structure Ordered (j : Journal I) : Prop where
  sequence : j.store.sequence = j.saved.length + j.pumped.flatten.length
  saved : j.saved.Pairwise fun e f => e.1 < f.1
  saved_mem : ∀ e ∈ j.saved, 0 < e.1 ∧ e.1 ≤ j.store.sequence
  pumped : j.pumped.flatten.Pairwise fun e f => f.1 < e.1
  pumped_mem : ∀ e ∈ j.pumped.flatten, -j.store.sequence ≤ e.1 ∧ e.1 < 0
  rows : ∀ e ∈ j.store.table.rows.entries, e ∈ j.saved ++ j.pumped.flatten
  calls : ∀ c ∈ j.calls, c.IsInsertion

/-- An initialised store has given no key. -/
theorem ordered_init : Ordered (init : Journal I) where
  sequence := rfl
  saved := List.Pairwise.nil
  saved_mem := by simp [init]
  pumped := List.Pairwise.nil
  pumped_mem := by simp [init]
  rows := by simp [init, MapdbPositionStore.init, NavigableMap.empty]
  calls := by simp [init]

variable {j : Journal I}

/-- No row has the key that the next `save` takes. -/
theorem Ordered.get_next (h : j.Ordered) :
    j.store.table.rows.get (j.store.sequence + 1) = none := by
  refine Option.eq_none_iff_forall_ne_some.mpr fun p hp => ?_
  have hpair := h.rows _ (NavigableMap.mem_of_get hp)
  rcases List.mem_append.mp hpair with hsaved | hpumped
  · have hbound := (h.saved_mem _ hsaved).2
    simp only at hbound
    omega
  · have hbound := h.pumped_mem _ hpumped
    have hnonneg := h.sequence
    simp only at hbound
    omega

/-- A `save` takes a key above all keys given before. -/
theorem Ordered.save (h : j.Ordered) (p : TypedPosition I) :
    (j.record (.returns (.save p))).Ordered where
  sequence := by
    have hcount := h.sequence
    simp only [record, sequence_save, List.length_append, List.length_singleton]
    push_cast
    omega
  saved := by
    refine List.pairwise_append.mpr ⟨h.saved, List.pairwise_singleton _ _, ?_⟩
    intro e he f hf
    have hbound := (h.saved_mem e he).2
    obtain rfl := List.mem_singleton.mp hf
    simp only
    omega
  saved_mem := by
    have hcount := h.sequence
    simp only [record, sequence_save]
    intro e he
    rcases List.mem_append.mp he with he | he
    · have hbound := h.saved_mem e he
      omega
    · obtain rfl := List.mem_singleton.mp he
      simp only
      omega
  pumped := h.pumped
  pumped_mem := by
    simp only [record, sequence_save]
    intro e he
    have hbound := h.pumped_mem e he
    omega
  rows := by
    simp only [record, rows_save]
    intro e he
    rcases NavigableMap.mem_put.mp he with rfl | ⟨he, -⟩
    · simp
    · have hpair := h.rows e he
      simp only [List.mem_append] at hpair ⊢
      tauto
  calls := by
    simp only [record, saveCalls, Table.putCalls, h.get_next]
    intro c hc
    rcases List.mem_append.mp hc with hc | hc
    · exact h.calls c hc
    · split at hc
      · obtain rfl := List.mem_singleton.mp hc
        exact ⟨rfl, by simp⟩
      · cases hc

/-- Drawing the positions of a pump takes keys below all keys given before, whatever becomes of
the table, as long as it holds no other rows than those drawn. -/
theorem Ordered.draw (h : j.Ordered) (positions : List (TypedPosition I))
    {store : MapdbPositionStore I}
    (hsequence : store.sequence = j.store.sequence + positions.length)
    (hrows : ∀ e ∈ store.table.rows.entries, e ∈ pumpPairs j.store.sequence positions) :
    Ordered
      { j with
        store := store
        pumped := j.pumped ++ [pumpPairs j.store.sequence positions]
        calls := j.calls ++ (pumpPairs j.store.sequence positions).map drawCall } where
  sequence := by
    have hcount := h.sequence
    have hlength := congrArg List.length (pumpPairs_map_snd j.store.sequence positions)
    rw [List.length_map] at hlength
    simp only [List.flatten_append, List.length_append, List.flatten_singleton, hlength, hsequence]
    push_cast
    omega
  saved := h.saved
  saved_mem := by
    simp only [hsequence]
    intro e he
    have hbound := h.saved_mem e he
    omega
  pumped := by
    simp only [List.flatten_append, List.flatten_singleton]
    refine List.pairwise_append.mpr ⟨h.pumped, pumpPairs_pairwise _ positions, ?_⟩
    intro e he f hf
    have hbound := (h.pumped_mem e he).1
    have hbelow := (key_of_mem_pumpPairs hf).2
    omega
  pumped_mem := by
    have hcount := h.sequence
    simp only [List.flatten_append, List.flatten_singleton, hsequence]
    intro e he
    rcases List.mem_append.mp he with he | he
    · have hbound := h.pumped_mem e he
      omega
    · have hbound := key_of_mem_pumpPairs he
      omega
  rows := by
    intro e he
    simp [hrows e he]
  calls := by
    intro c hc
    rcases List.mem_append.mp hc with hc | hc
    · exact h.calls c hc
    · obtain ⟨kp, -, rfl⟩ := List.mem_map.mp hc
      exact ⟨rfl, by simp [drawCall]⟩

/-- A pump that comes to its end replaces the table by one that holds the pairs drawn. -/
theorem Ordered.pump (h : j.Ordered) (positions : List (TypedPosition I)) :
    (j.record (.returns (.pump positions))).Ordered := by
  simp only [record, pumpCalls_eq, sequence_clear]
  refine h.draw positions ?_ ?_
  · rw [MapdbPositionStore.pump, foldl_draw, sequence_clear]
  · have hkeys : (pumpPairs j.store.sequence positions).Pairwise fun e f => e.1 ≠ f.1 :=
      (pumpPairs_pairwise j.store.sequence positions).imp fun hlt => hlt.ne'
    intro e he
    rw [MapdbPositionStore.pump, sequence_clear] at he
    exact (NavigableMap.entries_ofEntries_perm hkeys).mem_iff.mp he

/-- A pump whose source throws leaves the empty table of `clear`. -/
theorem Ordered.pumpThrows (h : j.Ordered) (positions : List (TypedPosition I)) :
    (j.record (.pumpThrows positions)).Ordered := by
  simp only [record, pumpCalls_eq, sequence_clear]
  refine h.draw positions ?_ ?_
  · rw [MapdbPositionStore.pumpThrows, foldl_draw, sequence_clear]
  · intro e he
    rw [MapdbPositionStore.pumpThrows, foldl_draw, rows_clear] at he
    cases he

/-- `clear` gives no key and tells the listener nothing. -/
theorem Ordered.clear (h : j.Ordered) : (j.record (.returns .clear)).Ordered where
  sequence := by
    simp only [record, sequence_clear]
    exact h.sequence
  saved := h.saved
  saved_mem := by
    simp only [record, sequence_clear]
    exact h.saved_mem
  pumped := h.pumped
  pumped_mem := by
    simp only [record, sequence_clear]
    exact h.pumped_mem
  rows := by simp [record, rows_clear]
  calls := by
    simp only [record, clearCalls_eq_nil, List.append_nil]
    exact h.calls

/-- Every call keeps the keys in order. -/
theorem Ordered.record (h : j.Ordered) (attempt : Attempt I) : (j.record attempt).Ordered := by
  cases attempt with
  | returns op =>
    cases op with
    | save position => exact h.save position
    | pump positions => exact h.pump positions
    | clear => exact h.clear
    | flush => exact h
  | pumpThrows positions => exact h.pumpThrows positions

/-- The keys are in order throughout a run. -/
theorem ordered_ofRun (attempts : List (Attempt I)) : (ofRun attempts).Ordered := by
  induction attempts using List.reverseRecOn with
  | nil => exact ordered_init
  | append_singleton attempts attempt ih =>
    rw [ofRun, List.foldl_append, List.foldl_cons, List.foldl_nil]
    exact ih.record attempt

/-- The indexes are the work of the listener. -/
theorem listenerMaintains (j : Journal I) (attempt : Attempt I) : j.ListenerMaintains attempt := by
  cases attempt with
  | returns op =>
    cases op with
    | save position =>
      refine ⟨_, rfl, ?_⟩
      simp only [record, table_save, sequence_save, heardBy]
      exact foldlM_listen_putCalls { j.store with sequence := j.store.sequence + 1 }
        (j.store.sequence + 1) position
    | pump positions =>
      refine ⟨_, rfl, ?_⟩
      have hpairs := foldlM_listen_pumpPairs j.store.clear positions (j.store.pump positions).table
      rw [pumpCalls_eq]
      simpa only [record, MapdbPositionStore.pump, foldl_draw, heardBy] using hpairs
    | clear =>
      refine ⟨[], ?_, rfl⟩
      rw [List.append_nil, record, clearCalls_eq_nil, List.append_nil]
    | flush => exact ⟨[], (List.append_nil j.calls).symm, rfl⟩
  | pumpThrows positions =>
    refine ⟨_, rfl, ?_⟩
    have hpairs := foldlM_listen_pumpPairs j.store.clear positions j.store.clear.table
    rw [pumpCalls_eq]
    simpa only [record, MapdbPositionStore.pumpThrows, foldl_draw, heardBy] using hpairs

/-- Keys in order are distinct. -/
theorem Ordered.keys_nodup (h : j.Ordered) : j.keys.Nodup := by
  have hpairs : (j.saved ++ j.pumped.flatten).Pairwise fun e f => e.1 ≠ f.1 := by
    refine List.pairwise_append.mpr
      ⟨h.saved.imp fun hlt => hlt.ne, h.pumped.imp fun hlt => hlt.ne', ?_⟩
    intro e he f hf
    have hpos := (h.saved_mem e he).1
    have hneg := (h.pumped_mem f hf).2
    omega
  exact List.pairwise_map.mpr hpairs

end Journal

/-- In every run of an initialised store, pumps that fail and clears included: the counter has
counted the rows, no key is given twice, the keys of saves are positive, the keys handed over by a
pump are negative and strictly decrease, every row of the table is one of the recorded pairs, and
the listener, to whom the indexes owe all they gain, is called for insertions only. -/
theorem row_keys_never_reused (attempts : List (Attempt I)) :
    let j := Journal.ofRun attempts
    j.store.sequence = j.keys.length ∧
      j.keys.Nodup ∧
      (∀ e ∈ j.saved, 0 < e.1) ∧
      (∀ pairs ∈ j.pumped, (∀ e ∈ pairs, e.1 < 0) ∧ pairs.Pairwise fun e f => f.1 < e.1) ∧
      (∀ e ∈ j.store.table.rows.entries, e ∈ j.saved ++ j.pumped.flatten) ∧
      (∀ attempt, j.ListenerMaintains attempt) ∧
      ∀ c ∈ j.calls, c.IsInsertion := by
  intro j
  have hordered : j.Ordered := Journal.ordered_ofRun attempts
  refine ⟨?_, hordered.keys_nodup, fun e he => (hordered.saved_mem e he).1, ?_, hordered.rows,
    j.listenerMaintains, hordered.calls⟩
  · rw [hordered.sequence, Journal.keys, List.length_map, List.length_append]
    push_cast
    rfl
  · intro pairs hpairs
    refine ⟨fun e he => ?_, ?_⟩
    · exact (hordered.pumped_mem e (List.mem_flatten_of_mem hpairs he)).2
    · exact hordered.pumped.sublist (List.sublist_flatten_of_mem hpairs)

end MapdbPositionStore

end CwatchBackend
