import CwatchBackend.Store.ConcurrentSaves

/-!
# The steps of saving, for both stores

`SaveSteps` is what the threads that call `save` see of a position store: the steps that a call
takes on it, in between which other threads take theirs, and the query that finds what has been
saved.  `MemoryPositionStore` takes one step, `MapdbPositionStore` the four of `Saving`.

`SaveSteps.Laws` says of a store that what a call has saved when it returns is held from then on,
whatever the other calls do and wherever they are cut off by an exception, and that the vessel query
finds what is held.  Both stores obey the laws (`memoryLaws`, `mapdbLaws`), the second one because
no index entry comes before its row and `save` does not return before the index entry is there.
-/

namespace CwatchBackend

open Foundation MapdbPositionStore

/-- A position store as the threads that save into it see it. -/
structure SaveSteps (I : Type) where
  Store : Type
  Call : Type
  init : Store
  beginSave : Store → TypedPosition I → Store × Call
  advance : Call → Store → Store × Option Call
  position : Call → TypedPosition I
  queryVessel : Store → I → Range Date → List (Option (TypedPosition I))

namespace SaveSteps

variable {I T : Type}

/-- What the threads that save may rely on.  `Inv` relates the store to the calls in progress, and
`Held` are the positions that the store holds for good. -/
structure Laws (S : SaveSteps I) (T : Type) [DecidableEq T] where
  Inv : S.Store → (T → Option S.Call) → Prop
  Held : S.Store → TypedPosition I → Prop
  inv_init : Inv S.init fun _ => none
  inv_beginSave : ∀ {store saving} (t : T) (p : TypedPosition I), Inv store saving →
    Inv (S.beginSave store p).1 (Function.update saving t (some (S.beginSave store p).2))
  inv_advance : ∀ {store saving} {t : T} {c : S.Call}, Inv store saving → saving t = some c →
    Inv (S.advance c store).1 (Function.update saving t (S.advance c store).2)
  inv_throw : ∀ {store saving} (t : T), Inv store saving →
    Inv store (Function.update saving t none)
  position_beginSave : ∀ store p, S.position (S.beginSave store p).2 = p
  position_advance : ∀ {c store c'}, (S.advance c store).2 = some c' →
    S.position c' = S.position c
  held_beginSave : ∀ {store p} (q : TypedPosition I), Held store p →
    Held (S.beginSave store q).1 p
  held_advance : ∀ {store saving} {t : T} {c : S.Call} {p}, Inv store saving →
    saving t = some c → Held store p → Held (S.advance c store).1 p
  held_of_return : ∀ {store saving} {t : T} {c : S.Call}, Inv store saving → saving t = some c →
    (S.advance c store).2 = none → Held (S.advance c store).1 (S.position c)
  found : ∀ {store saving p}, Inv store saving → Held store p → p.timestamp < Date.maxValue →
    some p ∈ S.queryVessel store p.id Range.all

/-- A store and the calls of `save` in progress in the threads. -/
structure Saves (S : SaveSteps I) (T : Type) where
  store : S.Store
  saving : T → Option S.Call

namespace Saves

variable {S : SaveSteps I} [DecidableEq T]

/-- A new store. -/
def start (S : SaveSteps I) (T : Type) : Saves S T := ⟨S.init, fun _ => none⟩

/-- A thread calls `save(position)`. -/
def beginSave (saves : Saves S T) (t : T) (position : TypedPosition I) : Saves S T where
  store := (S.beginSave saves.store position).1
  saving := Function.update saves.saving t (some (S.beginSave saves.store position).2)

/-- The next step of the call of a thread. -/
def advance (saves : Saves S T) (t : T) (call : S.Call) : Saves S T where
  store := (S.advance call saves.store).1
  saving := Function.update saves.saving t (S.advance call saves.store).2

/-- The call of a thread ends with an exception. -/
def throw (saves : Saves S T) (t : T) : Saves S T :=
  { saves with saving := Function.update saves.saving t none }

/-- The call that a thread has begun. -/
@[simp] theorem saving_beginSave (saves : Saves S T) (t : T) (position : TypedPosition I) :
    (saves.beginSave t position).saving t = some (S.beginSave saves.store position).2 :=
  Function.update_self _ _ _

/-- What the next step leaves of a call. -/
@[simp] theorem saving_advance (saves : Saves S T) (t : T) (call : S.Call) :
    (saves.advance t call).saving t = (S.advance call saves.store).2 :=
  Function.update_self _ _ _

end Saves

/-! ### The store in memory -/

/-- `MemoryPositionStore`: `items.add(position)` is a single step. -/
def memory (I : Type) [DecidableEq I] : SaveSteps I where
  Store := MemoryPositionStore I
  Call := TypedPosition I
  init := .empty
  beginSave store p := (store, p)
  advance p store := (store.save p, none)
  position p := p
  queryVessel store id period := (store.queryVessel id period).map some

/-- The store in memory holds its items. -/
def memoryLaws (I T : Type) [DecidableEq I] [DecidableEq T] : (memory I).Laws T where
  Inv _ _ := True
  Held store p := p ∈ store.items
  inv_init := trivial
  inv_beginSave _ _ _ := trivial
  inv_advance _ _ := trivial
  inv_throw _ _ := trivial
  position_beginSave _ _ := rfl
  position_advance h := by cases h
  held_beginSave _ h := h
  held_advance _ _ h := List.mem_append_left _ h
  held_of_return _ _ _ := List.mem_append_right _ List.mem_cons_self
  found _ h _ := List.mem_map_of_mem
    (List.mem_filter.mpr ⟨h, decide_eq_true ⟨rfl, Range.mem_all _⟩⟩)

/-! ### The store over MapDB -/

variable [LinearOrder I]

/-- `MapdbPositionStore`: the steps of `Saving`. -/
def mapdb (I : Type) [LinearOrder I] : SaveSteps I where
  Store := MapdbPositionStore I
  Call := Saving I
  init := MapdbPositionStore.init
  beginSave := MapdbPositionStore.beginSave
  advance := Saving.advance
  position := Saving.position
  queryVessel := MapdbPositionStore.queryVessel

/-- The calls in progress are sound, the listener is attached, and a call that has added its entry
to `lookupIdTimestamp` finds it there. -/
structure ListenedSaves (store : MapdbPositionStore I) (saving : T → Option (Saving I)) : Prop
    extends Sound store saving where
  listening : store.table.listening = true
  indexed : ∀ t c, saving t = some c → c.stage = .idIndexed →
    idTimestampEntry c.key c.position ∈ store.lookupIdTimestamp.elements

/-- The position has a row, and the row has its entry in `lookupIdTimestamp`. -/
def Indexed (store : MapdbPositionStore I) (p : TypedPosition I) : Prop :=
  ∃ key, (key, p) ∈ store.table.rows.entries ∧
    idTimestampEntry key p ∈ store.lookupIdTimestamp.elements

/-- The vessel query over the whole time line finds what is indexed, unless it is stamped
`Long.MAX_VALUE`. -/
theorem Indexed.mem_queryVessel {store : MapdbPositionStore I} {p : TypedPosition I}
    (h : Indexed store p) (hmax : p.timestamp < Date.maxValue) :
    some p ∈ store.queryVessel p.id Range.all := by
  obtain ⟨key, hrow, hentry⟩ := h
  have hslice : idTimestampEntry key p ∈ (store.vesselSlice p.id Range.all).elements := by
    rw [elements_vesselSlice, List.mem_filter, decide_eq_true_iff, vesselSlice_idTimestampEntry]
    exact ⟨hentry, rfl, vesselSliced_all_iff.mpr hmax⟩
  exact List.mem_map.mpr ⟨_, hslice, store.table.rows.get_of_mem hrow⟩

variable [DecidableEq T] {store : MapdbPositionStore I} {saving : T → Option (Saving I)}

/-- A new call. -/
theorem ListenedSaves.beginSave (h : ListenedSaves store saving) (t : T) (p : TypedPosition I) :
    ListenedSaves (store.beginSave p).1
      (Function.update saving t (some (store.beginSave p).2)) where
  toSound := h.toSound.beginSave t p
  listening := h.listening
  indexed := forall_saving_update t
    (fun c hc hstage => by
      obtain rfl := Option.some.inj hc
      cases hstage)
    fun u c _ hc => h.indexed u c hc

/-- The next step of a call. -/
theorem ListenedSaves.advance (h : ListenedSaves store saving) {t : T} {call : Saving I}
    (ht : saving t = some call) :
    ListenedSaves (call.advance store).1 (Function.update saving t (call.advance store).2) := by
  have hsound := h.toSound.advance ht
  obtain ⟨key, position, stage⟩ := call
  cases stage with
  | numbered =>
    refine ⟨hsound, h.listening, forall_saving_update t (fun c hc hstage => ?_) fun u c _ hc =>
      h.indexed u c hc⟩
    simp only [Saving.advance, h.listening, if_true] at hc
    obtain rfl := Option.some.inj hc
    cases hstage
  | stored =>
    refine ⟨hsound, h.listening,
      forall_saving_update t (fun c hc _ => ?_) fun u c _ hc hstage => ?_⟩
    · obtain rfl := Option.some.inj hc
      exact NavigableSet.mem_add.mpr (Or.inl rfl)
    · exact NavigableSet.mem_add.mpr (Or.inr (h.indexed u c hc hstage))
  | idIndexed =>
    exact ⟨hsound, h.listening, forall_saving_update t (fun c hc => by cases hc) fun u c _ hc =>
      h.indexed u c hc⟩

/-- A call cut off by an exception. -/
theorem ListenedSaves.throw (h : ListenedSaves store saving) (t : T) :
    ListenedSaves store (Function.update saving t none) :=
  ⟨h.toSound.remove t, h.listening,
    forall_saving_update t (fun c hc => by cases hc) fun u c _ hc => h.indexed u c hc⟩

omit [DecidableEq T] in
/-- The steps of a call overwrite no row and remove no entry. -/
theorem ListenedSaves.indexed_advance (h : ListenedSaves store saving) {t : T} {call : Saving I}
    (ht : saving t = some call) {p : TypedPosition I} (hp : Indexed store p) :
    Indexed (call.advance store).1 p := by
  obtain ⟨k, hrow, hentry⟩ := hp
  obtain ⟨key, position, stage⟩ := call
  cases stage with
  | numbered =>
    have hfresh := h.fresh t _ ht rfl
    exact ⟨k, (mem_put_rows hfresh).mpr (Or.inr hrow), hentry⟩
  | stored => exact ⟨k, hrow, NavigableSet.mem_add.mpr (Or.inr hentry)⟩
  | idIndexed => exact ⟨k, hrow, hentry⟩

omit [DecidableEq T] in
/-- When a call returns, its position is indexed. -/
theorem ListenedSaves.indexed_of_return (h : ListenedSaves store saving) {t : T} {call : Saving I}
    (ht : saving t = some call) (hreturn : (call.advance store).2 = none) :
    Indexed (call.advance store).1 call.position := by
  obtain ⟨key, position, stage⟩ := call
  cases stage with
  | numbered => simp [Saving.advance, h.listening] at hreturn
  | stored => cases hreturn
  | idIndexed =>
    have hstored : Stage.idIndexed ≠ .numbered := by decide
    exact ⟨key, h.row t _ ht hstored, h.indexed t _ ht rfl⟩

/-- A call keeps its position. -/
theorem position_advance {call call' : Saving I} (h : (call.advance store).2 = some call') :
    call'.position = call.position := by
  obtain ⟨key, position, stage⟩ := call
  cases stage with
  | numbered =>
    obtain ⟨-, h⟩ := Option.ite_none_right_eq_some.mp h
    exact Option.some.inj h ▸ rfl
  | stored => exact Option.some.inj h ▸ rfl
  | idIndexed => cases h

/-- The store over MapDB holds what is indexed. -/
def mapdbLaws (I T : Type) [LinearOrder I] [DecidableEq T] : (mapdb I).Laws T where
  Inv := ListenedSaves
  Held := Indexed
  inv_init := ⟨sound_init, rfl, fun t c h => by cases h⟩
  inv_beginSave t p h := h.beginSave t p
  inv_advance h ht := h.advance ht
  inv_throw t h := h.throw t
  position_beginSave _ _ := rfl
  position_advance h := position_advance h
  held_beginSave _ h := h
  held_advance h ht hp := h.indexed_advance ht hp
  held_of_return h ht hreturn := h.indexed_of_return ht hreturn
  found _ h hmax := h.mem_queryVessel hmax

/-- The two kinds of position stores. -/
inductive Kind where
  | memory
  | mapdb

/-- The steps of a store of the given kind. -/
def ofKind (I : Type) [LinearOrder I] : Kind → SaveSteps I
  | .memory => memory I
  | .mapdb => mapdb I

/-- Stores of either kind obey the laws. -/
def lawsOfKind (I T : Type) [LinearOrder I] [DecidableEq T] :
    ∀ kind : Kind, (ofKind I kind).Laws T
  | .memory => memoryLaws I T
  | .mapdb => mapdbLaws I T

end SaveSteps

end CwatchBackend
