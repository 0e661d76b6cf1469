import Mathlib.Data.List.Sort

/-!
# Sorted sets and maps

`NavigableSet α` and `NavigableMap κ β` are finite sets and maps kept in ascending order, with the
operations of `java.util.NavigableSet` and `java.util.NavigableMap` that a store needs: insertion,
the slices `tailSet` and `headSet`, lookup and the walks in ascending and in descending order.  Both
carry the strict ascent of their elements as a field, so no element and no key occurs twice.

What an insertion of a *new* element does to the walk is stated up to permutation
(`NavigableSet.elements_add_perm`, `NavigableMap.entries_put_perm`), which is the form in which a
map and an index of its rows that are filled in step are compared
(`NavigableSet.elements_add_perm_put`).
-/

namespace Foundation

/-- A finite set in strictly ascending order. -/
structure NavigableSet (α : Type*) [LinearOrder α] where
  elements : List α
  sorted : elements.Pairwise (· < ·)

namespace NavigableSet

variable {α : Type*} [LinearOrder α]

/-- The empty set. -/
def empty : NavigableSet α where
  elements := []
  sorted := List.Pairwise.nil

/-- No element occurs twice. -/
theorem nodup (s : NavigableSet α) : s.elements.Nodup :=
  s.sorted.imp fun h => h.ne

/-- Inserting a new element in its place keeps the strict ascent. -/
theorem sorted_orderedInsert (s : NavigableSet α) {x : α} (hx : x ∉ s.elements) :
    (s.elements.orderedInsert (· ≤ ·) x).Pairwise (· < ·) := by
  have hle : (s.elements.orderedInsert (· ≤ ·) x).Pairwise (· ≤ ·) :=
    (s.sorted.imp fun h => h.le).orderedInsert x _
  have hnodup : (s.elements.orderedInsert (· ≤ ·) x).Nodup :=
    (List.perm_orderedInsert _ x _).nodup_iff.mpr (List.nodup_cons.mpr ⟨hx, s.nodup⟩)
  exact (hle.and hnodup).imp fun h => lt_of_le_of_ne h.1 h.2

/-- `add(x)`. -/
def add (s : NavigableSet α) (x : α) : NavigableSet α :=
  if hx : x ∈ s.elements then s else
    { elements := s.elements.orderedInsert (· ≤ ·) x
      sorted := s.sorted_orderedInsert hx }

/-- A new element is inserted once. -/
theorem elements_add_perm (s : NavigableSet α) {x : α} (hx : x ∉ s.elements) :
    (s.add x).elements.Perm (x :: s.elements) := by
  rw [add, dif_neg hx]
  exact List.perm_orderedInsert _ x _

/-- The elements after an insertion. -/
theorem mem_add {s : NavigableSet α} {x y : α} :
    y ∈ (s.add x).elements ↔ y = x ∨ y ∈ s.elements := by
  by_cases hx : x ∈ s.elements
  · rw [add, dif_pos hx]
    exact (or_iff_right_of_imp fun hyx => hyx ▸ hx).symm
  · rw [(s.elements_add_perm hx).mem_iff, List.mem_cons]

/-- The elements after several insertions. -/
theorem mem_foldl_add {β : Type*} (f : β → α) (l : List β) (s : NavigableSet α) {x : α} :
    x ∈ (l.foldl (fun s b => s.add (f b)) s).elements ↔ (∃ b ∈ l, x = f b) ∨ x ∈ s.elements := by
  induction l generalizing s with
  | nil => simp
  | cons b l ih =>
    rw [List.foldl_cons, ih, mem_add, List.exists_mem_cons_iff, or_assoc, or_left_comm]

/-- The images of distinct things, none of them in the set, are all inserted once. -/
theorem elements_foldl_add_perm {β : Type*} (f : β → α) (l : List β) (s : NavigableSet α)
    (hl : l.Pairwise fun b c => f b ≠ f c) (hs : ∀ b ∈ l, f b ∉ s.elements) :
    (l.foldl (fun s b => s.add (f b)) s).elements.Perm (l.map f ++ s.elements) := by
  induction l generalizing s with
  | nil => exact List.Perm.refl _
  | cons b l ih =>
    obtain ⟨hb, hl⟩ := List.pairwise_cons.mp hl
    have hadd : (s.add (f b)).elements.Perm (f b :: s.elements) :=
      s.elements_add_perm (hs b List.mem_cons_self)
    have hnew : ∀ c ∈ l, f c ∉ (s.add (f b)).elements := by
      intro c hc hmem
      rcases List.mem_cons.mp (hadd.mem_iff.mp hmem) with heq | hmem
      · exact hb c hc heq.symm
      · exact hs c (List.mem_cons_of_mem b hc) hmem
    have hrest := ih (s.add (f b)) hl hnew
    have hfirst : (l.map f ++ (s.add (f b)).elements).Perm (l.map f ++ f b :: s.elements) :=
      hadd.append_left _
    exact hrest.trans (hfirst.trans List.perm_middle)

/-- `tailSet(x, inclusive)`: the elements from `x` on. -/
def tailSet (s : NavigableSet α) (x : α) (inclusive : Bool) : NavigableSet α where
  elements := s.elements.filter fun y => if inclusive then x ≤ y else x < y
  sorted := s.sorted.filter _

/-- `headSet(x, inclusive)`: the elements up to `x`. -/
def headSet (s : NavigableSet α) (x : α) (inclusive : Bool) : NavigableSet α where
  elements := s.elements.filter fun y => if inclusive then y ≤ x else y < x
  sorted := s.sorted.filter _

/-- The elements from `x` on, `x` included. -/
theorem elements_tailSet (s : NavigableSet α) (x : α) :
    (s.tailSet x true).elements = s.elements.filter fun y => x ≤ y := rfl

/-- `descendingSet()`, as the list of its elements: the walk in descending order. -/
def descendingSet (s : NavigableSet α) : List α := s.elements.reverse

/-- The walk in descending order descends strictly. -/
theorem descendingSet_pairwise (s : NavigableSet α) :
    s.descendingSet.Pairwise fun x y => y < x := List.pairwise_reverse.mpr s.sorted

/-- The elements up to `x`, `x` excluded. -/
theorem elements_headSet (s : NavigableSet α) (x : α) :
    (s.headSet x false).elements = s.elements.filter fun y => y < x := rfl

end NavigableSet

/-- A finite map in strictly ascending order of its keys. -/
structure NavigableMap (κ : Type*) [LinearOrder κ] (β : Type*) where
  entries : List (κ × β)
  sorted : entries.Pairwise fun e f => e.1 < f.1

namespace NavigableMap

variable {κ β : Type*} [LinearOrder κ]

/-- The empty map. -/
def empty : NavigableMap κ β where
  entries := []
  sorted := List.Pairwise.nil

/-- `isEmpty()`. -/
def isEmpty (m : NavigableMap κ β) : Bool := m.entries.isEmpty

/-- `get(k)`. -/
def get (m : NavigableMap κ β) (k : κ) : Option β :=
  (m.entries.find? fun e => e.1 = k).map Prod.snd

/-- The entries of all other keys. -/
def others (m : NavigableMap κ β) (k : κ) : List (κ × β) :=
  m.entries.filter fun e => e.1 ≠ k

/-- Placing an entry among those of the other keys keeps the strict ascent. -/
theorem sorted_orderedInsert (m : NavigableMap κ β) (k : κ) (b : β) :
    ((m.others k).orderedInsert (fun e f => e.1 ≤ f.1) (k, b)).Pairwise fun e f => e.1 < f.1 := by
  have : IsTrans (κ × β) fun e f => e.1 ≤ f.1 := ⟨fun _ _ _ h h' => h.trans h'⟩
  have : Std.Total fun e f : κ × β => e.1 ≤ f.1 := ⟨fun e f => le_total e.1 f.1⟩
  have hothers : (m.others k).Pairwise fun e f => e.1 < f.1 := m.sorted.filter _
  have hle : ((m.others k).orderedInsert (fun e f => e.1 ≤ f.1) (k, b)).Pairwise
      fun e f => e.1 ≤ f.1 := (hothers.imp fun h => h.le).orderedInsert _ _
  have hne : ((k, b) :: m.others k).Pairwise fun e f => e.1 ≠ f.1 := by
    refine List.pairwise_cons.mpr ⟨fun e he => ?_, hothers.imp fun h => h.ne⟩
    have hek : e.1 ≠ k := by simpa using (List.mem_filter.mp he).2
    exact hek.symm
  have hne' : ((m.others k).orderedInsert (fun e f => e.1 ≤ f.1) (k, b)).Pairwise
      fun e f => e.1 ≠ f.1 :=
    hne.perm (List.perm_orderedInsert _ _ _).symm fun h => h.symm
  exact (hle.and hne').imp fun h => lt_of_le_of_ne h.1 h.2

/-- `put(k, b)`: the entry of `k` is replaced or created. -/
def put (m : NavigableMap κ β) (k : κ) (b : β) : NavigableMap κ β where
  entries := (m.others k).orderedInsert (fun e f => e.1 ≤ f.1) (k, b)
  sorted := m.sorted_orderedInsert k b

/-- An entry under a new key is created beside the old ones. -/
theorem entries_put_perm (m : NavigableMap κ β) {k : κ} (hk : ∀ e ∈ m.entries, e.1 ≠ k) (b : β) :
    (m.put k b).entries.Perm ((k, b) :: m.entries) := by
  have hothers : m.others k = m.entries :=
    List.filter_eq_self.mpr fun e he => decide_eq_true (hk e he)
  exact hothers ▸ List.perm_orderedInsert _ (k, b) (m.others k)

/-- The value of a key is the one of its entry. -/
theorem get_of_mem (m : NavigableMap κ β) {k : κ} {b : β} (h : (k, b) ∈ m.entries) :
    m.get k = some b := by
  have hne : m.entries.Pairwise fun e f => e.1 = f.1 → e = f :=
    m.sorted.imp fun hlt heq => absurd heq hlt.ne
  have hne' : m.entries.Pairwise fun f e => e.1 = f.1 → e = f :=
    m.sorted.imp fun hlt heq => absurd heq.symm hlt.ne
  unfold get
  cases hfind : m.entries.find? fun e => decide (e.1 = k) with
  | none =>
    have hnone := List.find?_eq_none.mp hfind (k, b) h
    exact absurd (decide_eq_true rfl) hnone
  | some e =>
    have hek : e.1 = k := by simpa using List.find?_some hfind
    have heq : e = (k, b) :=
      hne.forall_of_forall_of_flip (fun _ _ _ => rfl) hne' (List.mem_of_find?_eq_some hfind) h hek
    rw [heq]
    rfl

/-- The value of a key comes from its entry. -/
theorem mem_of_get {m : NavigableMap κ β} {k : κ} {b : β} (h : m.get k = some b) :
    (k, b) ∈ m.entries := by
  obtain ⟨e, hfind, rfl⟩ := Option.map_eq_some_iff.mp h
  have hk : e.1 = k := by simpa using List.find?_some hfind
  exact hk ▸ List.mem_of_find?_eq_some hfind

/-- The entries after one has been replaced or created. -/
theorem mem_put {m : NavigableMap κ β} {k : κ} {b : β} {e : κ × β} :
    e ∈ (m.put k b).entries ↔ e = (k, b) ∨ e ∈ m.entries ∧ e.1 ≠ k := by
  have hperm : (m.put k b).entries.Perm ((k, b) :: m.others k) := List.perm_orderedInsert _ _ _
  rw [hperm.mem_iff, List.mem_cons, others, List.mem_filter, decide_eq_true_iff]

/-- The value of a key is the one of its entry. -/
theorem get_eq_some_iff {m : NavigableMap κ β} {k : κ} {b : β} :
    m.get k = some b ↔ (k, b) ∈ m.entries := ⟨mem_of_get, m.get_of_mem⟩

/-- The values after one of them has been replaced or created. -/
theorem get_put (m : NavigableMap κ β) (k : κ) (b : β) (l : κ) :
    (m.put k b).get l = if l = k then some b else m.get l := by
  by_cases hl : l = k
  · rw [if_pos hl, hl]
    exact get_of_mem _ (mem_put.mpr (Or.inl rfl))
  · rw [if_neg hl]
    refine Option.ext fun c => ?_
    rw [get_eq_some_iff, get_eq_some_iff, mem_put]
    simp [hl]

/-- A map with a new or replaced entry is not empty. -/
theorem isEmpty_put (m : NavigableMap κ β) (k : κ) (b : β) : (m.put k b).isEmpty = false := by
  have hmem : (k, b) ∈ (m.put k b).entries := mem_put.mpr (Or.inl rfl)
  exact List.isEmpty_eq_false_iff.mpr (List.ne_nil_of_mem hmem)

/-- No key has a value in a map without entries. -/
theorem get_of_isEmpty {m : NavigableMap κ β} (h : m.isEmpty = true) (k : κ) : m.get k = none := by
  have hnil : m.entries = [] := List.isEmpty_iff.mp h
  rw [get, hnil]
  rfl

/-- No key loses its value when an entry is replaced or created. -/
theorem exists_get_put {m : NavigableMap κ β} {l : κ} {c : β} (h : m.get l = some c) (k : κ)
    (b : β) : ∃ d, (m.put k b).get l = some d := by
  by_cases hl : l = k
  · exact ⟨b, get_of_mem _ (mem_put.mpr (Or.inl (by rw [hl])))⟩
  · exact ⟨c, get_of_mem _ (mem_put.mpr (Or.inr ⟨mem_of_get h, hl⟩))⟩

/-- No entry occurs twice. -/
theorem nodup (m : NavigableMap κ β) : m.entries.Nodup := by
  refine m.sorted.imp ?_
  rintro e _ hlt rfl
  exact lt_irrefl _ hlt

/-- The map holding the given pairs, the last one of each key. -/
def ofEntries (pairs : List (κ × β)) : NavigableMap κ β :=
  pairs.foldl (fun m e => m.put e.1 e.2) empty

/-- Pairs with distinct keys, none of them in the map, are all created. -/
theorem entries_foldl_put_perm (pairs : List (κ × β)) (m : NavigableMap κ β)
    (hpairs : pairs.Pairwise fun e f => e.1 ≠ f.1)
    (hm : ∀ e ∈ pairs, ∀ f ∈ m.entries, f.1 ≠ e.1) :
    (pairs.foldl (fun m e => m.put e.1 e.2) m).entries.Perm (pairs ++ m.entries) := by
  induction pairs generalizing m with
  | nil => exact List.Perm.refl _
  | cons e pairs ih =>
    obtain ⟨he, hpairs⟩ := List.pairwise_cons.mp hpairs
    have hput : (m.put e.1 e.2).entries.Perm (e :: m.entries) :=
      m.entries_put_perm (hm e List.mem_cons_self) e.2
    have hnew : ∀ f ∈ pairs, ∀ g ∈ (m.put e.1 e.2).entries, g.1 ≠ f.1 := by
      intro f hf g hg
      rcases List.mem_cons.mp (hput.mem_iff.mp hg) with rfl | hg
      · exact he f hf
      · exact hm f (List.mem_cons_of_mem e hf) g hg
    have hrest := ih (m.put e.1 e.2) hpairs hnew
    have hfirst : (pairs ++ (m.put e.1 e.2).entries).Perm (pairs ++ e :: m.entries) :=
      hput.append_left pairs
    exact hrest.trans (hfirst.trans List.perm_middle)

/-- A map made of pairs with distinct keys holds exactly these pairs. -/
theorem entries_ofEntries_perm {pairs : List (κ × β)}
    (hpairs : pairs.Pairwise fun e f => e.1 ≠ f.1) : (ofEntries pairs).entries.Perm pairs := by
  simpa [ofEntries, empty] using
    entries_foldl_put_perm pairs empty hpairs fun _ _ _ hf => absurd hf List.not_mem_nil

end NavigableMap

/-! ### Indexes

An index of a map is a set with one entry for every row, from which the key of the row can be read
off. -/

section Index

variable {α κ β : Type*} [LinearOrder α] [LinearOrder κ] (entry : κ → β → α)

/-- The index of a map and the map itself get a new row. -/
theorem NavigableSet.elements_add_perm_put (hkey : ∀ {k l b c}, entry k b = entry l c → k = l)
    {index : NavigableSet α} {rows : NavigableMap κ β}
    (hindex : index.elements.Perm (rows.entries.map fun e => entry e.1 e.2)) {k : κ}
    (hk : ∀ e ∈ rows.entries, e.1 ≠ k) (b : β) :
    (index.add (entry k b)).elements.Perm
      ((rows.put k b).entries.map fun e => entry e.1 e.2) := by
  have hnew : entry k b ∉ index.elements := by
    intro hmem
    obtain ⟨e, he, heq⟩ := List.mem_map.mp (hindex.mem_iff.mp hmem)
    exact hk e he (hkey heq)
  have hadd : (index.add (entry k b)).elements.Perm (entry k b :: index.elements) :=
    index.elements_add_perm hnew
  have hput : ((rows.put k b).entries.map fun e => entry e.1 e.2).Perm
      (entry k b :: rows.entries.map fun e => entry e.1 e.2) :=
    (rows.entries_put_perm hk b).map fun e => entry e.1 e.2
  exact hadd.trans ((hindex.cons _).trans hput.symm)

/-- An empty index is filled with the entries of the pairs of which a map is made. -/
theorem NavigableSet.elements_foldl_add_perm_ofEntries
    (hkey : ∀ {k l b c}, entry k b = entry l c → k = l) {index : NavigableSet α}
    (hindex : index.elements = []) {pairs : List (κ × β)}
    (hpairs : pairs.Pairwise fun e f => e.1 ≠ f.1) :
    (pairs.foldl (fun s e => s.add (entry e.1 e.2)) index).elements.Perm
      ((NavigableMap.ofEntries pairs).entries.map fun e => entry e.1 e.2) := by
  have hdistinct : pairs.Pairwise fun e f => entry e.1 e.2 ≠ entry f.1 f.2 :=
    hpairs.imp fun hne heq => hne (hkey heq)
  have hfill := elements_foldl_add_perm (fun e => entry e.1 e.2) pairs index hdistinct
    (by simp [hindex])
  rw [hindex, List.append_nil] at hfill
  exact hfill.trans ((NavigableMap.entries_ofEntries_perm hpairs).map _).symm

/-- A set is an index of a map if it holds the entries of the rows and nothing else. -/
theorem NavigableSet.elements_perm_of_mem (hkey : ∀ {k l b c}, entry k b = entry l c → k = l)
    {index : NavigableSet α} {rows : NavigableMap κ β}
    (hindex : ∀ x ∈ index.elements, ∃ e ∈ rows.entries, x = entry e.1 e.2)
    (hrows : ∀ e ∈ rows.entries, entry e.1 e.2 ∈ index.elements) :
    index.elements.Perm (rows.entries.map fun e => entry e.1 e.2) := by
  have hnodup : (rows.entries.map fun e => entry e.1 e.2).Nodup :=
    List.pairwise_map.mpr (rows.sorted.imp fun hlt heq => hlt.ne (hkey heq))
  refine (List.perm_ext_iff_of_nodup index.nodup hnodup).mpr fun x => ?_
  rw [List.mem_map]
  constructor
  · intro hx
    obtain ⟨e, he, hx⟩ := hindex x hx
    exact ⟨e, he, hx.symm⟩
  · rintro ⟨e, he, rfl⟩
    exact hrows e he

end Index

end Foundation
