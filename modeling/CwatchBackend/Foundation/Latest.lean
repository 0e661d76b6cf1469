import CwatchBackend.Foundation.Replay
import Mathlib.Order.Lattice
import Mathlib.Logic.Function.Basic

/-!
# Keeping the latest value of every key

Stamped values arrive one after the other.  There is one cell for every key, and a value replaces
the content of its cell if its stamp is greater (`keepLatest`).  Then every cell holds the first of
the values with the greatest stamp among those of its key (`Keeps`, `IsLatest`), and the values that
enter a cell are the records of their key: those whose stamp exceeds all earlier ones
(`newer_iff_exceeds`, `records`).  Cells that are not empty at the start let in the values that
exceed their contents, too (`entering`).

The records of every key are increasing, and the last of them is the content of its cell.  Both
remain true when a value overtakes values of other keys (`Increasing.move`, `lastOf_move`).
-/

namespace Foundation

variable {β κ τ : Type*} [LinearOrder τ] (key : β → κ) (stamp : β → τ)

/-- The stamp of `b` exceeds those of all earlier values of its key. -/
def Exceeds (earlier : List β) (b : β) : Prop :=
  ∀ c ∈ earlier, key c = key b → stamp c < stamp b

/-- `b` is the first of the values with the greatest stamp among those of the key `k`. -/
def IsLatest (l : List β) (k : κ) (b : β) : Prop :=
  ∃ pre post, l = pre ++ b :: post ∧ key b = k ∧
    (∀ c ∈ pre, key c = k → stamp c < stamp b) ∧ ∀ c ∈ post, key c = k → stamp c ≤ stamp b

/-- The cell of `b` is empty or has a smaller stamp. -/
def Newer (cells : κ → Option β) (b : β) : Prop := ∀ c ∈ cells (key b), stamp c < stamp b

/-- There is an entry for the key of every value, and every entry is the latest of its key. -/
structure Keeps (cells : κ → Option β) (l : List β) : Prop where
  exists_entry : ∀ b ∈ l, ∃ c, cells (key b) = some c
  isLatest : ∀ k b, cells k = some b → IsLatest key stamp l k b

variable {key stamp} {cells : κ → Option β} {l : List β} {k : κ} {b d : β}

/-- No stamp of the key exceeds that of the latest. -/
theorem IsLatest.le (h : IsLatest key stamp l k b) (hd : d ∈ l) (hk : key d = k) :
    stamp d ≤ stamp b := by
  obtain ⟨pre, post, rfl, -, hpre, hpost⟩ := h
  rcases List.mem_append.mp hd with hd | hd
  · exact (hpre d hd hk).le
  · rcases List.mem_cons.mp hd with rfl | hd
    · exact le_rfl
    · exact hpost d hd hk

/-- The latest is one of the values of the key. -/
theorem IsLatest.mem (h : IsLatest key stamp l k b) : b ∈ l ∧ key b = k := by
  obtain ⟨pre, post, rfl, hk, -, -⟩ := h
  exact ⟨by simp, hk⟩

/-- There is only one latest of a key. -/
theorem IsLatest.eq (h : IsLatest key stamp l k b) (h' : IsLatest key stamp l k d) : b = d := by
  have hbd : stamp b = stamp d := (h'.le h.mem.1 h.mem.2).antisymm (h.le h'.mem.1 h'.mem.2)
  obtain ⟨pre, post, rfl, hb, hpre, -⟩ := h
  obtain ⟨pre', post', hl, hd, hpre', -⟩ := h'
  -- Neither of the two can stand before the other one.
  rcases List.append_eq_append_iff.mp hl with ⟨as, rfl, has⟩ | ⟨as, rfl, has⟩
  · rcases List.cons_eq_append_iff.mp has with ⟨rfl, hcons⟩ | ⟨as, rfl, -⟩
    · exact (List.cons.inj hcons).1.symm
    · exact absurd hbd (hpre' b (by simp) hb).ne
  · rcases List.cons_eq_append_iff.mp has with ⟨rfl, hcons⟩ | ⟨as, rfl, -⟩
    · exact (List.cons.inj hcons).1
    · exact absurd hbd.symm (hpre d (by simp) hd).ne

/-- The latest stays the latest if the further value does not exceed it. -/
theorem IsLatest.concat (h : IsLatest key stamp l k b) (hd : key d = k → stamp d ≤ stamp b) :
    IsLatest key stamp (l ++ [d]) k b := by
  obtain ⟨pre, post, rfl, hk, hpre, hpost⟩ := h
  refine ⟨pre, post ++ [d], by simp, hk, hpre, fun c hc => ?_⟩
  rcases List.mem_append.mp hc with hc | hc
  · exact hpost c hc
  · exact List.mem_singleton.mp hc ▸ hd

/-- A record is the latest of its key. -/
theorem isLatest_concat_self (h : Exceeds key stamp l b) :
    IsLatest key stamp (l ++ [b]) (key b) b :=
  ⟨l, [], rfl, rfl, h, by simp⟩

/-- Empty cells keep the latest of no values. -/
theorem keeps_nil : Keeps key stamp (fun _ => none) ([] : List β) :=
  ⟨by simp, by simp⟩

/-- The values that enter a cell are the records. -/
theorem Keeps.newer_iff_exceeds (h : Keeps key stamp cells l) :
    Newer key stamp cells b ↔ Exceeds key stamp l b := by
  constructor
  · intro hnewer c hc hk
    obtain ⟨d, hd⟩ := h.exists_entry c hc
    have hle : stamp c ≤ stamp d := (h.isLatest _ d hd).le hc rfl
    have hlt : stamp d < stamp b := hnewer d (hk ▸ hd)
    exact hle.trans_lt hlt
  · intro hexceeds c hc
    obtain ⟨hmem, hk⟩ := (h.isLatest _ c hc).mem
    exact hexceeds c hmem hk

/-! ### Increasing sequences -/

variable (key stamp)

/-- The stamps of every key are strictly increasing. -/
def Increasing (l : List β) : Prop := l.Pairwise fun b c => key b = key c → stamp b < stamp c

variable {key stamp}

/-- A value that exceeds the others continues an increasing sequence. -/
theorem Increasing.concat (h : Increasing key stamp l) (hb : Exceeds key stamp l b) :
    Increasing key stamp (l ++ [b]) := by
  refine List.pairwise_append.mpr ⟨h, List.pairwise_singleton _ _, fun c hc d hd => ?_⟩
  rw [List.mem_singleton.mp hd]
  exact hb c hc

/-- A value may overtake values of other keys. -/
theorem Increasing.move {l a r : List β} (h : Increasing key stamp (l ++ (a ++ b :: r)))
    (ha : ∀ c ∈ a, key c ≠ key b) : Increasing key stamp ((l ++ [b]) ++ (a ++ r)) := by
  obtain ⟨hl, hright, hlright⟩ := List.pairwise_append.mp h
  obtain ⟨ha', hbr, har⟩ := List.pairwise_append.mp hright
  obtain ⟨hb, hr⟩ := List.pairwise_cons.mp hbr
  rw [List.append_assoc, List.singleton_append]
  refine List.pairwise_append.mpr ⟨hl, List.pairwise_cons.mpr ⟨?_, ?_⟩, ?_⟩
  · intro c hc
    rcases List.mem_append.mp hc with hc | hc
    · exact fun hk => absurd hk.symm (ha c hc)
    · exact hb c hc
  · exact List.pairwise_append.mpr
      ⟨ha', hr, fun c hc d hd => har c hc d (List.mem_cons_of_mem b hd)⟩
  · intro c hc d hd
    apply hlright c hc d
    simp only [List.mem_append, List.mem_cons] at hd ⊢
    tauto

/-! ### Records -/

variable [DecidableEq κ] (key stamp)

instance (earlier : List β) (b : β) : Decidable (Exceeds key stamp earlier b) :=
  inferInstanceAs (Decidable (∀ c ∈ earlier, key c = key b → stamp c < stamp b))

instance (l : List β) : Decidable (Increasing key stamp l) :=
  inferInstanceAs (Decidable (l.Pairwise fun b c => key b = key c → stamp b < stamp c))

/-- The records among the values that arrive after `earlier`. -/
def recordsAfter : List β → List β → List β
  | _, [] => []
  | earlier, b :: l =>
    if Exceeds key stamp earlier b then b :: recordsAfter (earlier ++ [b]) l
    else recordsAfter (earlier ++ [b]) l

/-- The values whose stamp exceeds those of all earlier values of their key, in order. -/
def records (l : List β) : List β := recordsAfter key stamp [] l

variable {key stamp}

/-- A further value is a record if it exceeds the others. -/
theorem recordsAfter_concat (earlier l : List β) (b : β) :
    recordsAfter key stamp earlier (l ++ [b]) = recordsAfter key stamp earlier l ++
      if Exceeds key stamp (earlier ++ l) b then [b] else [] := by
  induction l generalizing earlier with
  | nil =>
    rw [List.nil_append, recordsAfter, recordsAfter, recordsAfter, List.append_nil, List.nil_append]
  | cons c l ih =>
    rw [List.cons_append, recordsAfter, recordsAfter, ih (earlier ++ [c]), List.append_assoc,
      List.singleton_append]
    split <;> simp

/-- A further value is a record if it exceeds the others. -/
theorem records_concat (l : List β) (b : β) :
    records key stamp (l ++ [b]) =
      records key stamp l ++ if Exceeds key stamp l b then [b] else [] :=
  recordsAfter_concat [] l b

/-- The records are a part of the values. -/
theorem records_sublist (l : List β) : (records key stamp l).Sublist l := by
  induction l using List.reverseRecOn with
  | nil => exact List.Sublist.refl _
  | append_singleton l b ih =>
    rw [records_concat]
    refine ih.append ?_
    split
    · exact List.Sublist.refl _
    · exact List.nil_sublist _

/-- The records of every key are increasing. -/
theorem increasing_records (l : List β) : Increasing key stamp (records key stamp l) := by
  induction l using List.reverseRecOn with
  | nil => exact List.Pairwise.nil
  | append_singleton l b ih =>
    rw [records_concat]
    split
    · next hexceeds =>
      exact ih.concat fun c hc => hexceeds c ((records_sublist l).subset hc)
    · rwa [List.append_nil]

/-! ### The last value of a key -/

variable (key)

/-- The last value of the key `k`. -/
def lastOf (k : κ) (l : List β) : Option β :=
  lastSome? (fun b => if key b = k then some b else none) l

variable {key}

/-- A further value is the last one of its key. -/
theorem lastOf_concat (k : κ) (l : List β) (b : β) :
    lastOf key k (l ++ [b]) = if key b = k then some b else lastOf key k l := by
  rw [lastOf, lastSome?_concat]
  split <;> rfl

/-- The last values stay the same when a value overtakes values of other keys. -/
theorem lastOf_move {l a r : List β} (ha : ∀ c ∈ a, key c ≠ key b) (k : κ) :
    lastOf key k ((l ++ [b]) ++ (a ++ r)) = lastOf key k (l ++ (a ++ b :: r)) := by
  have hsplit : ∀ l r : List β, lastOf key k (l ++ r) = (lastOf key k r).or (lastOf key k l) :=
    fun l r => lastSome?_append _ l r
  rw [List.append_cons a b r]
  simp only [hsplit, Option.or_assoc]
  congr 1
  by_cases hk : key b = k
  · have hnone : lastOf key k a = none :=
      lastSome?_eq_none_iff.mpr fun c hc => if_neg fun h => ha c hc (h.trans hk.symm)
    rw [hnone, Option.none_or, Option.none_or]
  · have hnone : lastOf key k [b] = none :=
      lastSome?_eq_none_iff.mpr fun c hc => if_neg (List.mem_singleton.mp hc ▸ hk)
    rw [hnone, Option.none_or, Option.none_or]

/-- In an increasing sequence a value exceeds the others if it exceeds the last one of its key. -/
theorem Increasing.exceeds (h : Increasing key stamp l)
    (hlast : ∀ c ∈ lastOf key (key b) l, stamp c < stamp b) : Exceeds key stamp l b := by
  intro c hc hk
  cases hd : lastOf key (key b) l with
  | none => simpa [hk] using lastSome?_eq_none_iff.mp hd c hc
  | some d =>
    obtain ⟨pre, d', post, rfl, hd', hpost⟩ := lastSome?_eq_some_iff.mp hd
    obtain ⟨hkd, rfl⟩ : key d' = key b ∧ d' = d := by simpa using hd'
    refine lt_of_le_of_lt ?_ (hlast d' hd)
    rcases List.mem_append.mp hc with hc | hc
    · have hbefore := (List.pairwise_append.mp h).2.2 c hc d' List.mem_cons_self
      exact (hbefore (hk.trans hkd.symm)).le
    · rcases List.mem_cons.mp hc with rfl | hc
      · exact le_rfl
      · simpa [hk] using hpost c hc

/-! ### The cells -/

variable (key stamp)

instance (cells : κ → Option β) (b : β) : Decidable (Newer key stamp cells b) :=
  inferInstanceAs (Decidable (∀ c ∈ cells (key b), stamp c < stamp b))

/-- A value replaces the content of its cell if it is newer. -/
def keepLatest (cells : κ → Option β) (b : β) : κ → Option β :=
  if Newer key stamp cells b then Function.update cells (key b) (some b) else cells

variable {key stamp}

/-- A further value is kept if it is newer. -/
theorem Keeps.concat (h : Keeps key stamp cells l) (b : β) :
    Keeps key stamp (keepLatest key stamp cells b) (l ++ [b]) := by
  by_cases hnewer : Newer key stamp cells b
  · rw [keepLatest, if_pos hnewer]
    constructor
    · intro c hc
      by_cases hk : key c = key b
      · exact ⟨b, by rw [hk, Function.update_self]⟩
      · rw [Function.update_of_ne hk]
        have hcl : c ∈ l := by
          rcases List.mem_append.mp hc with hc | hc
          · exact hc
          · have hcb : c = b := List.mem_singleton.mp hc
            exact absurd (congrArg key hcb) hk
        exact h.exists_entry c hcl
    · intro k c hc
      by_cases hk : k = key b
      · subst hk
        rw [Function.update_self] at hc
        have hexceeds : Exceeds key stamp l b := h.newer_iff_exceeds.mp hnewer
        exact Option.some.inj hc ▸ isLatest_concat_self hexceeds
      · rw [Function.update_of_ne hk] at hc
        exact (h.isLatest k c hc).concat fun hb => absurd hb.symm hk
  · rw [keepLatest, if_neg hnewer]
    obtain ⟨d, hd, hle⟩ : ∃ d, cells (key b) = some d ∧ stamp b ≤ stamp d := by
      simpa [Newer] using hnewer
    constructor
    · intro c hc
      rcases List.mem_append.mp hc with hc | hc
      · exact h.exists_entry c hc
      · exact ⟨d, List.mem_singleton.mp hc ▸ hd⟩
    · intro k c hc
      refine (h.isLatest k c hc).concat fun hk => ?_
      have hcd : c = d := Option.some.inj (hc.symm.trans (hk ▸ hd))
      exact hcd ▸ hle

/-- An entry is not replaced by a smaller stamp. -/
theorem exists_le_keepLatest (hc : cells k = some d) (b : β) :
    ∃ e, keepLatest key stamp cells b k = some e ∧ stamp d ≤ stamp e := by
  by_cases hnewer : Newer key stamp cells b
  · rw [keepLatest, if_pos hnewer]
    by_cases hk : k = key b
    · subst hk
      exact ⟨b, Function.update_self .., (hnewer d hc).le⟩
    · exact ⟨d, by rw [Function.update_of_ne hk, hc], le_rfl⟩
  · exact ⟨d, by rw [keepLatest, if_neg hnewer, hc], le_rfl⟩

/-! ### The values that enter a cell -/

/-- A value is newer after a further one if it was before and exceeds the further one too. -/
theorem newer_keepLatest_iff :
    Newer key stamp (keepLatest key stamp cells d) b ↔
      Newer key stamp cells b ∧ (key d = key b → stamp d < stamp b) := by
  by_cases hk : key d = key b
  · rw [forall_prop_of_true hk]
    by_cases hnewer : Newer key stamp cells d
    · rw [keepLatest, if_pos hnewer, Newer, hk, Function.update_self]
      refine ⟨fun h => ⟨fun c hc => ?_, h d rfl⟩, fun h c hc => Option.some.inj hc ▸ h.2⟩
      exact (hnewer c (hk ▸ hc)).trans (h d rfl)
    · rw [keepLatest, if_neg hnewer]
      refine ⟨fun h => ⟨h, ?_⟩, And.left⟩
      obtain ⟨c, hc, hle⟩ : ∃ c, cells (key d) = some c ∧ stamp d ≤ stamp c := by
        simpa [Newer] using hnewer
      exact hle.trans_lt (h c (hk ▸ hc))
  · have hcell : keepLatest key stamp cells d (key b) = cells (key b) := by
      unfold keepLatest
      split
      · exact Function.update_of_ne (Ne.symm hk) _ _
      · rfl
    rw [Newer, hcell]
    exact (and_iff_left fun h => absurd h hk).symm

variable (key stamp)

/-- The values that enter their cells when the values `l` arrive one after the other. -/
def entering (cells : κ → Option β) : List β → List β
  | [] => []
  | b :: l =>
    if Newer key stamp cells b then b :: entering (keepLatest key stamp cells b) l
    else entering (keepLatest key stamp cells b) l

variable {key stamp}

/-- A further value enters its cell if it is newer than the content at the start and exceeds what
has arrived since. -/
theorem entering_concat (cells : κ → Option β) (l : List β) (b : β) :
    entering key stamp cells (l ++ [b]) = entering key stamp cells l ++
      if Newer key stamp cells b ∧ Exceeds key stamp l b then [b] else [] := by
  induction l generalizing cells with
  | nil => simp [entering, Exceeds]
  | cons c l ih =>
    have hcond : Newer key stamp (keepLatest key stamp cells c) b ∧ Exceeds key stamp l b ↔
        Newer key stamp cells b ∧ Exceeds key stamp (c :: l) b := by
      rw [newer_keepLatest_iff, and_assoc, Exceeds, Exceeds, List.forall_mem_cons]
    rw [List.cons_append, entering, entering, ih, if_congr hcond rfl rfl]
    split <;> rfl

omit [DecidableEq κ] in
/-- What exceeds many values exceeds some of them. -/
theorem Exceeds.filter (h : Exceeds key stamp l b) (p : β → Bool) :
    Exceeds key stamp (l.filter p) b :=
  fun c hc => h c (List.mem_of_mem_filter hc)

section Removal

variable {keep pick : β → Bool}

/-- The picked values that enter their cells, with a further value. -/
theorem filter_entering_concat (cells : κ → Option β) (l : List β) (b : β) :
    (entering key stamp cells (l ++ [b])).filter pick = (entering key stamp cells l).filter pick ++
      if pick b = true ∧ Newer key stamp cells b ∧ Exceeds key stamp l b then [b] else [] := by
  rw [entering_concat, List.filter_append]
  by_cases henters : Newer key stamp cells b ∧ Exceeds key stamp l b
  · simp only [henters, and_true, if_true, List.filter_singleton]
    cases pick b <;> rfl
  · rw [if_neg henters, if_neg fun h => henters h.2, List.filter_nil]

/-- The same when some values have been removed, but no picked ones. -/
theorem filter_entering_filter_concat (hpick : ∀ b, pick b = true → keep b = true)
    (cells : κ → Option β) (l : List β) (b : β) :
    (entering key stamp cells ((l ++ [b]).filter keep)).filter pick =
      (entering key stamp cells (l.filter keep)).filter pick ++
        if pick b = true ∧ Newer key stamp cells b ∧ Exceeds key stamp (l.filter keep) b then [b]
        else [] := by
  rw [List.filter_append, List.filter_singleton]
  by_cases hkeep : keep b = true
  · rw [hkeep, cond_true, filter_entering_concat]
  · rw [if_neg fun h => hkeep (hpick b h.1)]
    simp [hkeep]

/-- Of the picked values no more enter their cells than when some other values are removed. -/
theorem filter_entering_sublist (hpick : ∀ b, pick b = true → keep b = true)
    (cells : κ → Option β) (l : List β) :
    ((entering key stamp cells l).filter pick).Sublist
      ((entering key stamp cells (l.filter keep)).filter pick) := by
  induction l using List.reverseRecOn with
  | nil => exact List.Sublist.refl _
  | append_singleton l b ih =>
    rw [filter_entering_concat, filter_entering_filter_concat hpick]
    refine ih.append ?_
    split
    · next h => rw [if_pos ⟨h.1, h.2.1, h.2.2.filter keep⟩]
    · exact List.nil_sublist _

/-- The removal makes no difference to the picked values exactly if every picked value that is newer
than the content of its cell at the start and exceeds the earlier values that are not removed
exceeds the removed ones, too. -/
theorem filter_entering_eq_iff (hpick : ∀ b, pick b = true → keep b = true)
    (cells : κ → Option β) (l : List β) :
    (entering key stamp cells l).filter pick =
        (entering key stamp cells (l.filter keep)).filter pick ↔
      ∀ pre b post, l = pre ++ b :: post → pick b = true → Newer key stamp cells b →
        Exceeds key stamp (pre.filter keep) b → Exceeds key stamp pre b := by
  induction l using List.reverseRecOn with
  | nil => simp [entering]
  | append_singleton l b ih =>
    rw [forall_split_concat, ← ih, filter_entering_concat, filter_entering_filter_concat hpick]
    by_cases henters : pick b = true ∧ Newer key stamp cells b ∧
        Exceeds key stamp (l.filter keep) b
    · obtain ⟨hb, hnewer, hkept⟩ := henters
      by_cases hexceeds : Exceeds key stamp l b
      · rw [if_pos ⟨hb, hnewer, hexceeds⟩, if_pos ⟨hb, hnewer, hkept⟩, List.append_left_inj]
        exact (and_iff_left fun _ _ _ => hexceeds).symm
      · -- The value that does not enter is missing for good.
        have hle : ((entering key stamp cells l).filter pick).length ≤
            ((entering key stamp cells (l.filter keep)).filter pick).length :=
          (filter_entering_sublist hpick cells l).length_le
        rw [if_neg fun h => hexceeds h.2.2, if_pos ⟨hb, hnewer, hkept⟩, List.append_nil]
        refine iff_of_false (fun heq => ?_) fun h => hexceeds (h.2 hb hnewer hkept)
        rw [heq, List.length_append, List.length_singleton] at hle
        omega
    · have hlost : ¬ (pick b = true ∧ Newer key stamp cells b ∧ Exceeds key stamp l b) :=
        fun h => henters ⟨h.1, h.2.1, h.2.2.filter keep⟩
      rw [if_neg henters, if_neg hlost, List.append_nil, List.append_nil]
      exact (and_iff_left fun hb hnewer hkept => absurd ⟨hb, hnewer, hkept⟩ henters).symm

end Removal

end Foundation
