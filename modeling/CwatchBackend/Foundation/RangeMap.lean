import CwatchBackend.Foundation.Range
import Mathlib.Data.List.Pairwise

/-!
# Maps from disjoint ranges

`TreeRangeMap T α` assigns values of `α` to disjoint, non-empty ranges of `T`, listed in ascending
order; it follows the documented behaviour of Guava's class of that name.  `clip lo hi` keeps the
parts of the entries that lie in the window between two cuts.  Both operations are clippings:
`put r a` keeps what lies below `r` and what lies above `r` and places `r ↦ a` between them, and
`subRangeMap r` keeps what lies inside `r`.

`get_put` says that `put` overwrites exactly the values of its range, and `mem_subRangeMap` that
`subRangeMap` yields the non-empty intersections.  `ForallCuts.put` transports a property of the
bounds of all entries through an assignment.
-/

namespace Foundation

/-- A map from disjoint non-empty ranges, in ascending order. -/
structure TreeRangeMap (T : Type*) [LinearOrder T] (α : Type*) where
  entries : List (Range T × α)
  nonempty : ∀ e ∈ entries, e.1.lowerBound < e.1.upperBound
  ascending : entries.Pairwise fun e f => e.1.upperBound ≤ f.1.lowerBound

namespace TreeRangeMap

variable {T α : Type*} [LinearOrder T]

/-- `TreeRangeMap.create()`: no range has a value. -/
def create : TreeRangeMap T α where
  entries := []
  nonempty := by simp
  ascending := List.Pairwise.nil

/-- `get(t)`: the value of the range that contains `t`. -/
def get (m : TreeRangeMap T α) (t : T) : Option α :=
  (m.entries.find? fun e => t ∈ e.1).map Prod.snd

@[simp] theorem get_create (t : T) : (create : TreeRangeMap T α).get t = none := rfl

/-- The part of an entry inside the window between two cuts. -/
def clipEntry (lo hi : Cut T) (e : Range T × α) : Option (Range T × α) :=
  (e.1.restrict lo hi).map fun r => (r, e.2)

/-- The clipped entries, as restrictions of the old ones. -/
theorem clipEntry_eq_some {lo hi : Cut T} {e f : Range T × α} :
    clipEntry lo hi e = some f ↔ e.1.restrict lo hi = some f.1 ∧ e.2 = f.2 := by
  unfold clipEntry
  constructor
  · intro h
    obtain ⟨r, hr, rfl⟩ := Option.map_eq_some_iff.mp h
    exact ⟨hr, rfl⟩
  · rintro ⟨hr, ha⟩
    rw [hr, ha]
    rfl

/-- Clipped parts of ascending entries ascend. -/
theorem clipEntry_ascending {lo hi : Cut T} {e f e' f' : Range T × α}
    (he : clipEntry lo hi e = some e') (hf : clipEntry lo hi f = some f')
    (h : e.1.upperBound ≤ f.1.lowerBound) : e'.1.upperBound ≤ f'.1.lowerBound := by
  obtain ⟨-, he', -⟩ := Range.restrict_eq_some (clipEntry_eq_some.mp he).1
  obtain ⟨hf', -, -⟩ := Range.restrict_eq_some (clipEntry_eq_some.mp hf).1
  calc e'.1.upperBound ≤ e.1.upperBound := he' ▸ min_le_left _ _
    _ ≤ f.1.lowerBound := h
    _ ≤ f'.1.lowerBound := hf' ▸ le_max_left _ _

/-- The entries inside the window between two cuts. -/
def clip (lo hi : Cut T) (m : TreeRangeMap T α) : TreeRangeMap T α where
  entries := m.entries.filterMap (clipEntry lo hi)
  nonempty := by
    intro e he
    obtain ⟨d, -, hd⟩ := List.mem_filterMap.mp he
    obtain ⟨-, -, hlt⟩ := Range.restrict_eq_some (clipEntry_eq_some.mp hd).1
    exact hlt
  ascending := by
    refine List.pairwise_filterMap.mpr (m.ascending.imp ?_)
    intro e f hef e' he' f' hf'
    exact clipEntry_ascending he' hf' hef

/-- An entry of a clipping is the restriction of an entry to the window. -/
theorem mem_clip {lo hi : Cut T} {m : TreeRangeMap T α} {f : Range T × α} :
    f ∈ (m.clip lo hi).entries ↔
      ∃ r, (r, f.2) ∈ m.entries ∧ r.restrict lo hi = some f.1 := by
  constructor
  · intro hf
    obtain ⟨e, he, hef⟩ := List.mem_filterMap.mp hf
    obtain ⟨hr, ha⟩ := clipEntry_eq_some.mp hef
    exact ⟨e.1, ha ▸ he, hr⟩
  · rintro ⟨r, hr, hf⟩
    have hclip : clipEntry lo hi (r, f.2) = some f := clipEntry_eq_some.mpr ⟨hf, rfl⟩
    exact List.mem_filterMap.mpr ⟨(r, f.2), hr, hclip⟩

/-- `put(r, a)`: `r ↦ a` replaces whatever the entries assign inside `r`; an empty range leaves
the map as it is. -/
def put (m : TreeRangeMap T α) (r : Range T) (a : α) : TreeRangeMap T α :=
  if h : r.IsEmpty then m else
    { entries := (m.clip .belowAll r.lowerBound).entries ++
        (r, a) :: (m.clip r.upperBound .aboveAll).entries
      nonempty := by
        intro e he
        rcases List.mem_append.mp he with he | he
        · exact (m.clip _ _).nonempty e he
        · rcases List.mem_cons.mp he with rfl | he
          · exact Range.lt_of_not_isEmpty h
          · exact (m.clip _ _).nonempty e he
      ascending := by
        have hbelow : ∀ e ∈ (m.clip .belowAll r.lowerBound).entries,
            e.1.upperBound ≤ r.lowerBound := by
          intro e he
          obtain ⟨s, -, hs⟩ := mem_clip.mp he
          exact (Range.restrict_eq_some hs).2.1 ▸ min_le_right _ _
        have habove : ∀ e ∈ (m.clip r.upperBound .aboveAll).entries,
            r.upperBound ≤ e.1.lowerBound := by
          intro e he
          obtain ⟨s, -, hs⟩ := mem_clip.mp he
          exact (Range.restrict_eq_some hs).1 ▸ le_max_right _ _
        refine List.pairwise_append.mpr ⟨(m.clip _ _).ascending,
          List.pairwise_cons.mpr ⟨habove, (m.clip _ _).ascending⟩, ?_⟩
        intro e he f hf
        rcases List.mem_cons.mp hf with rfl | hf
        · exact hbelow e he
        · exact (hbelow e he).trans (r.ordered.trans (habove f hf)) }

/-- An assignment to an empty range changes nothing. -/
theorem put_of_isEmpty (m : TreeRangeMap T α) {r : Range T} (h : r.IsEmpty) (a : α) :
    m.put r a = m := dif_pos h

/-- The entries after an assignment: what lay below, the new entry, what lay above. -/
theorem entries_put (m : TreeRangeMap T α) {r : Range T} (h : ¬ r.IsEmpty) (a : α) :
    (m.put r a).entries = (m.clip .belowAll r.lowerBound).entries ++
      (r, a) :: (m.clip r.upperBound .aboveAll).entries := by
  rw [put, dif_neg h]

/-- `subRangeMap(r)`: the non-empty intersections of the entries with `r`. -/
def subRangeMap (m : TreeRangeMap T α) (r : Range T) : TreeRangeMap T α :=
  m.clip r.lowerBound r.upperBound

/-! ### Reading the map -/

/-- At most one entry contains a given value. -/
theorem eq_of_mem_mem (m : TreeRangeMap T α) {e f : Range T × α} (he : e ∈ m.entries)
    (hf : f ∈ m.entries) {t : T} (hte : t ∈ e.1) (htf : t ∈ f.1) : e = f := by
  have hdisjoint : m.entries.Pairwise fun e f => t ∈ e.1 → t ∈ f.1 → e = f :=
    m.ascending.imp fun h h₁ h₂ => absurd h₂ (Range.disjoint_of_le h h₁)
  have hflip : m.entries.Pairwise fun f e => t ∈ e.1 → t ∈ f.1 → e = f :=
    m.ascending.imp fun h h₂ h₁ => absurd h₂ (Range.disjoint_of_le h h₁)
  exact hdisjoint.forall_of_forall_of_flip (fun _ _ _ _ => rfl) hflip he hf hte htf

/-- The value at `t` is the one of the entry that contains `t`. -/
theorem get_eq_some_iff {m : TreeRangeMap T α} {t : T} {a : α} :
    m.get t = some a ↔ ∃ r, (r, a) ∈ m.entries ∧ t ∈ r := by
  unfold get
  constructor
  · intro h
    obtain ⟨e, he, rfl⟩ := Option.map_eq_some_iff.mp h
    have hte : t ∈ e.1 := by simpa using List.find?_some he
    exact ⟨e.1, List.mem_of_find?_eq_some he, hte⟩
  · rintro ⟨r, hr, ht⟩
    cases hfind : m.entries.find? fun e => decide (t ∈ e.1) with
    | none =>
      have hnone : t ∉ r := by simpa using List.find?_eq_none.mp hfind (r, a) hr
      exact absurd ht hnone
    | some e =>
      have hte : t ∈ e.1 := by simpa using List.find?_some hfind
      have heq : e = (r, a) := m.eq_of_mem_mem (List.mem_of_find?_eq_some hfind) hr hte ht
      rw [heq]
      rfl

/-- The value at `t` in a clipping is the old value if `t` lies in the window. -/
theorem get_clip (m : TreeRangeMap T α) (lo hi : Cut T) (t : T) (a : α) :
    (m.clip lo hi).get t = some a ↔
      m.get t = some a ∧ lo ≤ .belowValue t ∧ .belowValue t < hi := by
  simp only [get_eq_some_iff]
  constructor
  · rintro ⟨s, hs, hts⟩
    obtain ⟨r, hr, hrs⟩ := mem_clip.mp hs
    obtain ⟨htr, hlo, hhi⟩ := (Range.mem_restrict hrs).mp hts
    exact ⟨⟨r, hr, htr⟩, hlo, hhi⟩
  · rintro ⟨⟨r, hr, htr⟩, hlo, hhi⟩
    obtain ⟨s, hrs⟩ := Range.exists_restrict htr hlo hhi
    have hmem : (s, a) ∈ (m.clip lo hi).entries := mem_clip.mpr ⟨r, hr, hrs⟩
    exact ⟨s, hmem, (Range.mem_restrict hrs).mpr ⟨htr, hlo, hhi⟩⟩

/-- `put` overwrites exactly the values of its range. -/
theorem get_put (m : TreeRangeMap T α) (r : Range T) (a : α) (t : T) :
    (m.put r a).get t = if t ∈ r then some a else m.get t := by
  by_cases hempty : r.IsEmpty
  · rw [put_of_isEmpty m hempty, if_neg (hempty.notMem t)]
  · apply Option.ext
    intro b
    have hsplit : (m.put r a).get t = some b ↔
        (m.clip .belowAll r.lowerBound).get t = some b ∨ (b = a ∧ t ∈ r) ∨
          (m.clip r.upperBound .aboveAll).get t = some b := by
      simp only [get_eq_some_iff, entries_put m hempty, List.mem_append, List.mem_cons,
        Prod.mk.injEq]
      grind
    rw [hsplit, get_clip, get_clip]
    by_cases ht : t ∈ r
    · obtain ⟨hlo, hhi⟩ := Range.mem_iff.mp ht
      simp [ht, not_lt.mpr hlo, not_le.mpr hhi, eq_comm]
    · have hout : Cut.belowValue t < r.lowerBound ∨ r.upperBound ≤ Cut.belowValue t := by
        by_contra h
        push Not at h
        exact ht (Range.mem_iff.mpr h)
      simp only [ht, and_false, false_or, if_false, Cut.belowAll_le, true_and,
        Cut.belowValue_lt_aboveAll, and_true]
      tauto

/-- The entries of `subRangeMap r` that contain `t` carry the value of `t`, for `t` in `r`. -/
theorem mem_subRangeMap {m : TreeRangeMap T α} {r : Range T} {t : T} {a : α} :
    (∃ s, (s, a) ∈ (m.subRangeMap r).entries ∧ t ∈ s) ↔ t ∈ r ∧ m.get t = some a := by
  rw [← get_eq_some_iff, subRangeMap, get_clip, Range.mem_iff, and_comm]

/-! ### Bounds of the entries -/

/-- A property of cuts holds of both bounds of every entry. -/
def ForallCuts (P : Cut T → Prop) (m : TreeRangeMap T α) : Prop :=
  ∀ e ∈ m.entries, P e.1.lowerBound ∧ P e.1.upperBound

/-- The empty map has no bounds. -/
theorem forallCuts_create (P : Cut T → Prop) : ForallCuts P (create : TreeRangeMap T α) := by
  simp [ForallCuts, create]

/-- Clipping introduces no other bounds than those of the window. -/
theorem ForallCuts.clip {P : Cut T → Prop} {m : TreeRangeMap T α} (hm : m.ForallCuts P)
    {lo hi : Cut T} (hlo : lo = .belowAll ∨ P lo) (hhi : hi = .aboveAll ∨ P hi) :
    (m.clip lo hi).ForallCuts P := by
  intro e he
  obtain ⟨r, hr, hre⟩ := mem_clip.mp he
  obtain ⟨hl, hu, -⟩ := Range.restrict_eq_some hre
  obtain ⟨hPl, hPu⟩ := hm _ hr
  rw [hl, hu]
  constructor
  · rcases hlo with rfl | hlo
    · rwa [max_eq_left (Cut.belowAll_le _)]
    · exact max_rec' P hPl hlo
  · rcases hhi with rfl | hhi
    · rwa [min_eq_left (Cut.le_aboveAll _)]
    · exact min_rec' P hPu hhi

/-- An assignment introduces no other bounds than those of its range. -/
theorem ForallCuts.put {P : Cut T → Prop} {m : TreeRangeMap T α} (hm : m.ForallCuts P)
    {r : Range T} (hlo : P r.lowerBound) (hhi : P r.upperBound) (a : α) :
    (m.put r a).ForallCuts P := by
  by_cases hempty : r.IsEmpty
  · rwa [put_of_isEmpty m hempty]
  · intro e he
    rw [entries_put m hempty] at he
    rcases List.mem_append.mp he with he | he
    · exact hm.clip (Or.inl rfl) (Or.inr hlo) e he
    · rcases List.mem_cons.mp he with rfl | he
      · exact ⟨hlo, hhi⟩
      · exact hm.clip (Or.inr hhi) (Or.inl rfl) e he

end TreeRangeMap

end Foundation
