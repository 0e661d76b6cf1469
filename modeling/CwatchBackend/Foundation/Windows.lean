import CwatchBackend.Foundation.Navigable
import CwatchBackend.Foundation.RangeMap
import Mathlib.Data.List.Perm.Basic

/-!
# Windows of a range

A range is divided by cuts into windows that follow each other without a gap (`Range.Divides`).  A
query of a range is *additive* if cutting the range in two cuts its answer in two, so that the
answers of the windows, one after the other, are the answer of the whole range
(`Additive.flatMap_windows`).

Slices of a sorted set are additive (`NavigableSet.filter_split`), and so is a walk along a map from
ranges that asks an additive query for every entry of `subRangeMap` (`additive_subRangeMap`): at
most one entry is itself cut in two, and those before it and behind it fall into one window each.
-/

namespace Foundation

variable {T α β : Type*} [LinearOrder T]

/-! ### Cutting a range in two -/

/-- A range is cut in two: the second part begins where the first one ends. -/
structure Range.Splits (r first rest : Range T) : Prop where
  lowerBound : first.lowerBound = r.lowerBound
  cut : rest.lowerBound = first.upperBound
  upperBound : rest.upperBound = r.upperBound

/-- Windows that follow each other without a gap and cover the range. -/
inductive Range.Divides : Range T → List (Range T) → Prop
  | whole (r : Range T) : Divides r [r]
  | cut {r first rest : Range T} {windows : List (Range T)} (hsplit : r.Splits first rest)
      (hrest : Divides rest windows) : Divides r (first :: windows)

/-- What a query answers for a range is what it answers for the two parts of the range, one after
the other. -/
def Additive (answer : Range T → List β) : Prop :=
  ∀ ⦃r first rest : Range T⦄, r.Splits first rest → answer r = answer first ++ answer rest

/-- The answers for the windows of a range are, one after the other, the answer for the range. -/
theorem Additive.flatMap_windows {answer : Range T → List β} (h : Additive answer) {r : Range T}
    {windows : List (Range T)} (hwindows : r.Divides windows) :
    windows.flatMap answer = answer r := by
  induction hwindows with
  | whole r => simp
  | cut hsplit _ ih => rw [List.flatMap_cons, ih, h hsplit]

/-- Several answers for every element of a list can be gathered element by element or answer by
answer. -/
theorem flatMap_flatMap_perm {γ : Type*} (l : List α) (l' : List β) (f : α → β → List γ) :
    (l.flatMap fun a => l'.flatMap (f a)).Perm (l'.flatMap fun b => l.flatMap fun a => f a b) := by
  induction l with
  | nil => simp
  | cons a l ih =>
    simp only [List.flatMap_cons]
    exact (ih.append_left _).trans (List.flatMap_append_perm l' _ _)

/-- Images of the elements of additive answers are additive. -/
theorem Additive.map {γ : Type*} {answer : Range T → List β} (h : Additive answer) (f : β → γ) :
    Additive fun r => (answer r).map f := by
  intro r first rest hsplit
  dsimp only
  rw [h hsplit, List.map_append]

/-- The parts of a range lie on either side of an endpoint. -/
theorem Range.Splits.exists_endpoint {r first rest : Range T} (h : r.Splits first rest) :
    ∃ t, first.upperBound.endpoint? = some t ∧ rest.lowerBound.endpoint? = some t := by
  rw [h.cut]
  cases hcut : first.upperBound with
  | belowAll => exact absurd hcut first.upperBound_ne
  | belowValue t => exact ⟨t, rfl, rfl⟩
  | aboveValue t => exact ⟨t, rfl, rfl⟩
  | aboveAll => exact absurd (h.cut.trans hcut) rest.lowerBound_ne

/-- The endpoints of two cuts are in the order of the cuts. -/
theorem Cut.endpoint_le_endpoint {c d : Cut T} (h : c ≤ d) {s t : T} (hs : c.endpoint? = some s)
    (ht : d.endpoint? = some t) : s ≤ t := by
  cases c <;> cases d <;> simp_all only [Cut.endpoint?, Option.some.injEq, reduceCtorEq]
  case belowValue.belowValue => exact Cut.belowValue_le_belowValue.mp h
  case belowValue.aboveValue => exact Cut.belowValue_le_aboveValue.mp h
  case aboveValue.belowValue => exact (Cut.aboveValue_le_belowValue.mp h).le
  case aboveValue.aboveValue => exact Cut.aboveValue_le_aboveValue.mp h

/-! ### Slices of a sorted set -/

/-- An ascending list is what lies below an element, followed by what does not. -/
theorem filter_lt_append_filter_le {l : List T} (h : l.Pairwise (· < ·)) (c : T) :
    (l.filter fun x => x < c) ++ l.filter (fun x => c ≤ x) = l := by
  induction l with
  | nil => rfl
  | cons a l ih =>
    obtain ⟨ha, hl⟩ := List.pairwise_cons.mp h
    rcases lt_or_ge a c with hac | hca
    · rw [List.filter_cons_of_pos (by simpa using hac),
        List.filter_cons_of_neg (by simpa using hac), List.cons_append, ih hl]
    · have hbelow : (a :: l).filter (fun x => x < c) = [] := by
        refine List.filter_eq_nil_iff.mpr fun x hx => ?_
        have hax : a ≤ x := by
          rcases List.mem_cons.mp hx with rfl | hx
          · exact le_rfl
          · exact (ha x hx).le
        simpa using hca.trans hax
      have habove : (a :: l).filter (fun x => c ≤ x) = a :: l := by
        refine List.filter_eq_self.mpr fun x hx => ?_
        rcases List.mem_cons.mp hx with rfl | hx
        · exact decide_eq_true hca
        · exact decide_eq_true (hca.trans (ha x hx).le)
      rw [hbelow, habove, List.nil_append]

/-- A slice of a sorted set is its part below an element, followed by its part from the element
on. -/
theorem NavigableSet.filter_split (s : NavigableSet T) {p q r : T → Bool} (c : T)
    (hbelow : ∀ x ∈ s.elements, q x = (p x && decide (x < c)))
    (habove : ∀ x ∈ s.elements, r x = (p x && decide (c ≤ x))) :
    s.elements.filter p = s.elements.filter q ++ s.elements.filter r := by
  have hsplit := filter_lt_append_filter_le (s.sorted.filter p) c
  rw [List.filter_filter, List.filter_filter] at hsplit
  rw [← hsplit]
  congr 1
  · exact List.filter_congr fun x hx => by rw [hbelow x hx, Bool.and_comm]
  · exact List.filter_congr fun x hx => by rw [habove x hx, Bool.and_comm]

/-! ### Walks along a map from ranges -/

/-- Cutting the window of a restriction: the range lies on one side of the cut, or is cut itself. -/
theorem Range.restrict_split (r : Range T) {lo c hi : Cut T} (hlo : lo ≤ c) (hhi : c ≤ hi) :
    (r.restrict lo c = r.restrict lo hi ∧ r.restrict c hi = none) ∨
      (r.restrict lo c = none ∧ r.restrict c hi = r.restrict lo hi) ∨
      ∃ s first rest, r.restrict lo hi = some s ∧ r.restrict lo c = some first ∧
        r.restrict c hi = some rest ∧ s.Splits first rest := by
  rcases le_or_gt (min r.upperBound hi) c with hupper | hupper
  · have hsame : min r.upperBound c = min r.upperBound hi := by
      rcases min_le_iff.mp hupper with h | h
      · rw [min_eq_left h, min_eq_left (h.trans hhi)]
      · rw [le_antisymm hhi h]
    refine Or.inl ⟨by simp only [restrict, hsame], dif_neg (not_lt.mpr ?_)⟩
    exact hupper.trans (le_max_right _ _)
  · rcases le_or_gt c (max r.lowerBound lo) with hlower | hlower
    · have hsame : max r.lowerBound c = max r.lowerBound lo := by
        rcases le_max_iff.mp hlower with h | h
        · rw [max_eq_left h, max_eq_left (hlo.trans h)]
        · rw [le_antisymm h hlo]
      refine Or.inr (Or.inl ⟨dif_neg (not_lt.mpr ?_), by simp only [restrict, hsame]⟩)
      exact (min_le_right _ _).trans hlower
    · have hfirst : min r.upperBound c = c := min_eq_right (hupper.le.trans (min_le_left _ _))
      have hrest : max r.lowerBound c = c := max_eq_right ((le_max_left _ _).trans hlower.le)
      refine Or.inr (Or.inr ⟨_, _, _, dif_pos (hlower.trans hupper),
        dif_pos (hfirst.symm ▸ hlower), dif_pos (hrest.symm ▸ hupper), rfl, ?_, rfl⟩)
      exact hrest.trans hfirst.symm

/-- What a query answers for the part of an entry inside a window. -/
def clipAnswer (answer : α → Range T → List β) (lo hi : Cut T) (e : Range T × α) : List β :=
  ((e.1.restrict lo hi).map (answer e.2)).getD []

/-- Walking the entries of a clipping. -/
theorem TreeRangeMap.flatMap_clip (answer : α → Range T → List β) (m : TreeRangeMap T α)
    (lo hi : Cut T) :
    ((m.clip lo hi).entries.flatMap fun e => answer e.2 e.1) =
      m.entries.flatMap (clipAnswer answer lo hi) := by
  have hclip : ∀ es : List (Range T × α),
      ((es.filterMap (clipEntry lo hi)).flatMap fun e => answer e.2 e.1) =
        es.flatMap (clipAnswer answer lo hi) := by
    intro es
    induction es with
    | nil => rfl
    | cons e es ih =>
      rw [List.flatMap_cons, ← ih, clipAnswer, List.filterMap_cons, clipEntry]
      cases e.1.restrict lo hi <;> rfl
  exact hclip m.entries

/-- The part of an entry inside a window is cut where the window is. -/
theorem clipAnswer_split {answer : α → Range T → List β} (h : ∀ a, Additive (answer a))
    {lo c hi : Cut T} (hlo : lo ≤ c) (hhi : c ≤ hi) (e : Range T × α) :
    clipAnswer answer lo hi e = clipAnswer answer lo c e ++ clipAnswer answer c hi e := by
  unfold clipAnswer
  rcases e.1.restrict_split hlo hhi with ⟨hsame, hnone⟩ | ⟨hnone, hsame⟩ |
    ⟨s, first, rest, hs, hfirst, hrest, hsplit⟩
  · rw [hsame, hnone]
    simp
  · rw [hsame, hnone]
    simp
  · rw [hs, hfirst, hrest]
    exact h e.2 hsplit

/-- What an entry answers behind a cut, the entries behind it do not answer before the cut. -/
theorem clipAnswer_eq_nil {answer : α → Range T → List β} {lo c hi : Cut T} {e f : Range T × α}
    (hef : e.1.upperBound ≤ f.1.lowerBound) :
    clipAnswer answer c hi e = [] ∨ clipAnswer answer lo c f = [] := by
  unfold clipAnswer
  rcases le_or_gt e.1.upperBound c with hupper | hupper
  · have hnone : e.1.restrict c hi = none := by
      refine dif_neg (not_lt.mpr ?_)
      exact (min_le_left _ _).trans (hupper.trans (le_max_right _ _))
    exact Or.inl (by rw [hnone]; rfl)
  · have hnone : f.1.restrict lo c = none := by
      refine dif_neg (not_lt.mpr ?_)
      exact (min_le_right _ _).trans (hupper.le.trans (hef.trans (le_max_left _ _)))
    exact Or.inr (by rw [hnone]; rfl)

/-- Answers that are cut in two, where nothing behind the cut comes before anything before it, make
an answer that is cut in two. -/
theorem flatMap_split {f g h : α → List β} {es : List α} (hsplit : ∀ e ∈ es, f e = g e ++ h e)
    (hafter : es.Pairwise fun e e' => h e = [] ∨ g e' = []) :
    es.flatMap f = es.flatMap g ++ es.flatMap h := by
  induction es with
  | nil => rfl
  | cons e es ih =>
    obtain ⟨hfirst, hrest⟩ := List.pairwise_cons.mp hafter
    rw [List.flatMap_cons, List.flatMap_cons, List.flatMap_cons, hsplit e List.mem_cons_self,
      ih (fun e' he' => hsplit e' (List.mem_cons_of_mem e he')) hrest]
    by_cases hnil : h e = []
    · simp [hnil]
    · have hg : es.flatMap g = [] :=
        List.flatMap_eq_nil_iff.mpr fun e' he' => (hfirst e' he').resolve_left hnil
      simp [hg]

/-- Asking an additive query for every entry of `subRangeMap`, one after the other, is additive. -/
theorem additive_subRangeMap {answer : α → Range T → List β} (h : ∀ a, Additive (answer a))
    (m : TreeRangeMap T α) :
    Additive fun r => (m.subRangeMap r).entries.flatMap fun e => answer e.2 e.1 := by
  intro r first rest hsplit
  have hlo : r.lowerBound ≤ first.upperBound := hsplit.lowerBound ▸ first.ordered
  have hhi : first.upperBound ≤ r.upperBound := by
    rw [← hsplit.cut, ← hsplit.upperBound]
    exact rest.ordered
  simp only [TreeRangeMap.subRangeMap, TreeRangeMap.flatMap_clip]
  rw [hsplit.lowerBound, hsplit.cut, hsplit.upperBound]
  exact flatMap_split (fun e _ => clipAnswer_split h hlo hhi e)
    (m.ascending.imp fun hef => clipAnswer_eq_nil hef)

end Foundation
