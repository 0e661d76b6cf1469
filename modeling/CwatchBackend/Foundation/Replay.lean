import Mathlib.Data.List.Induction
import Mathlib.Data.List.Perm.Basic

/-!
# Replaying a history

A history is a list of events, oldest first.  `lastSome? f l` is what the last event of `l` that
says something (`f b ≠ none`) says.  A cell that each event either overwrites or leaves alone
holds, after a history, what the last overwriting event wrote (`read_foldl`).

`flatMap_filter_perm` gathers a collection by several selections of which no two pick the same
element: every element that some selection picks comes out once.
-/

namespace Foundation

variable {α β σ : Type*}

/-- What holds of every event and the part of the history before it, with a further event. -/
theorem forall_split_concat {P : List β → β → Prop} {l : List β} {a : β} :
    (∀ pre b post, l ++ [a] = pre ++ b :: post → P pre b) ↔
      (∀ pre b post, l = pre ++ b :: post → P pre b) ∧ P l a := by
  constructor
  · exact fun h => ⟨fun pre b post hl => h pre b (post ++ [a]) (by simp [hl]), h l a [] rfl⟩
  · rintro ⟨hinit, hlast⟩ pre b post hl
    rcases List.eq_nil_or_concat post with rfl | ⟨post, c, rfl⟩
    · obtain ⟨rfl, hab⟩ := List.append_inj' hl rfl
      exact (List.cons.inj hab).1 ▸ hlast
    · rw [List.concat_eq_append, ← List.cons_append, ← List.append_assoc] at hl
      exact hinit pre b post (List.append_inj' hl rfl).1

/-- What the last event that says something says. -/
def lastSome? (f : β → Option α) (l : List β) : Option α := l.reverse.findSome? f

@[simp] theorem lastSome?_nil (f : β → Option α) : lastSome? f [] = none := rfl

/-- A further event has the last word if it says something. -/
theorem lastSome?_concat (f : β → Option α) (l : List β) (b : β) :
    lastSome? f (l ++ [b]) = (f b).or (lastSome? f l) := by
  rw [lastSome?, List.reverse_concat, List.findSome?_cons]
  cases f b <;> rfl

/-- Nothing is said exactly when no event says anything. -/
theorem lastSome?_eq_none_iff {f : β → Option α} {l : List β} :
    lastSome? f l = none ↔ ∀ b ∈ l, f b = none := by
  simp [lastSome?]

/-- The last word is that of an event after which nothing is said. -/
theorem lastSome?_eq_some_iff {f : β → Option α} {l : List β} {a : α} :
    lastSome? f l = some a ↔
      ∃ pre b post, l = pre ++ b :: post ∧ f b = some a ∧ ∀ c ∈ post, f c = none := by
  induction l using List.reverseRecOn with
  | nil => simp
  | append_singleton l b ih =>
    rw [lastSome?_concat]
    constructor
    · intro h
      cases hb : f b with
      | some a' => exact ⟨l, b, [], rfl, by simpa [hb] using h, by simp⟩
      | none =>
        rw [hb, Option.none_or] at h
        obtain ⟨pre, c, post, rfl, hc, hpost⟩ := ih.mp h
        refine ⟨pre, c, post ++ [b], by simp, hc, fun d hd => ?_⟩
        rcases List.mem_append.mp hd with hd | hd
        · exact hpost d hd
        · exact List.mem_singleton.mp hd ▸ hb
    · rintro ⟨pre, c, post, hl, hc, hpost⟩
      rcases List.eq_nil_or_concat post with rfl | ⟨post, d, rfl⟩
      · obtain ⟨-, hbc⟩ := List.append_inj' hl rfl
        rw [List.cons.inj hbc |>.1, hc, Option.some_or]
      · rw [List.concat_eq_append, ← List.cons_append, ← List.append_assoc] at hl
        obtain ⟨rfl, hbd⟩ := List.append_inj' hl rfl
        have hd : f b = none := List.cons.inj hbd |>.1 ▸ hpost d (by simp)
        rw [hd, Option.none_or]
        exact ih.mpr ⟨pre, c, post, rfl, hc, fun e he => hpost e (by simp [he])⟩

/-- The later of two parts of a history has the last word if it says something. -/
theorem lastSome?_append (f : β → Option α) (l r : List β) :
    lastSome? f (l ++ r) = (lastSome? f r).or (lastSome? f l) := by
  simp [lastSome?, List.findSome?_append]

/-- What events made from other events say. -/
theorem lastSome?_map {γ : Type*} (f : β → Option α) (g : γ → β) (l : List γ) :
    lastSome? f (l.map g) = lastSome? (f ∘ g) l := by
  rw [lastSome?, lastSome?, ← List.map_reverse, List.findSome?_map]

/-- Where all events that say something say the same, this is the last word. -/
theorem lastSome?_eq_some_of_agree {f : β → Option α} {l : List β} {a : α}
    (hspoken : ∃ b ∈ l, f b = some a) (hagree : ∀ b ∈ l, ∀ a', f b = some a' → a' = a) :
    lastSome? f l = some a := by
  cases hlast : lastSome? f l with
  | none =>
    obtain ⟨b, hb, hba⟩ := hspoken
    rw [lastSome?_eq_none_iff.mp hlast b hb] at hba
    cases hba
  | some a' =>
    obtain ⟨pre, b, post, rfl, hb, -⟩ := lastSome?_eq_some_iff.mp hlast
    rw [hagree b (by simp) a' hb]

/-- If an event says something exactly under a condition, the last word is that of the last event
that meets the condition. -/
theorem lastSome?_ite (p : β → Prop) [DecidablePred p] (g : β → α) (l : List β) :
    lastSome? (fun b => if p b then some (g b) else none) l =
      (l.filter fun b => p b).getLast?.map g := by
  induction l using List.reverseRecOn with
  | nil => rfl
  | append_singleton l b ih =>
    rw [lastSome?_concat, ih, List.filter_append]
    by_cases hb : p b
    · simp [hb]
    · simp [hb]

/-- Where only one part of a history says something, that part has the last word. -/
theorem lastSome?_middle {f : β → Option α} {pre mid post : List β} (hpre : ∀ b ∈ pre, f b = none)
    (hpost : ∀ b ∈ post, f b = none) : lastSome? f (pre ++ (mid ++ post)) = lastSome? f mid := by
  rw [lastSome?_append, lastSome?_append, lastSome?_eq_none_iff.mpr hpre,
    lastSome?_eq_none_iff.mpr hpost, Option.none_or, Option.or_none]

/-- What an event says, and none of the later ones repeats, is the last word exactly when the later
ones say nothing at all. -/
theorem lastSome?_append_cons_eq_some_iff {f : β → Option α} {pre post : List β} {b : β} {a : α}
    (hb : f b = some a) (hpost : ∀ c ∈ post, f c ≠ some a) :
    lastSome? f (pre ++ b :: post) = some a ↔ ∀ c ∈ post, f c = none := by
  have hsplit : lastSome? f (pre ++ b :: post) = (lastSome? f post).or (some a) := by
    rw [List.append_cons, lastSome?_append, lastSome?_concat, hb, Option.some_or]
  rw [hsplit, ← lastSome?_eq_none_iff]
  cases hlast : lastSome? f post with
  | none => simp
  | some a' =>
    obtain ⟨_, c, _, rfl, hc, -⟩ := lastSome?_eq_some_iff.mp hlast
    have hne : a' ≠ a := fun h => hpost c (by simp) (h ▸ hc)
    simp [hne]

/-- Among the events of a kind there is a last one. -/
theorem exists_last_of_exists {p : β → Prop} [DecidablePred p] {l : List β} (h : ∃ b ∈ l, p b) :
    ∃ pre b post, l = pre ++ b :: post ∧ p b ∧ ∀ c ∈ post, ¬ p c := by
  cases hlast : lastSome? (fun b => if p b then some b else none) l with
  | none =>
    obtain ⟨b, hb, hp⟩ := h
    simpa [hp] using lastSome?_eq_none_iff.mp hlast b hb
  | some b =>
    obtain ⟨pre, c, post, hl, hc, hpost⟩ := lastSome?_eq_some_iff.mp hlast
    refine ⟨pre, c, post, hl, ?_, ?_⟩
    · by_contra hp
      simp [hp] at hc
    · intro d hd
      simpa using hpost d hd

/-- A cell that every event overwrites or leaves alone holds, after a history, what the last
overwriting event wrote. -/
theorem read_foldl (read : σ → Option α) {write : σ → β → σ} {f : β → Option α}
    (hwrite : ∀ s b, read (write s b) = (f b).or (read s)) (s : σ) (l : List β) :
    read (l.foldl write s) = (lastSome? f l).or (read s) := by
  induction l using List.reverseRecOn with
  | nil => simp
  | append_singleton l b ih =>
    rw [List.foldl_append, List.foldl_cons, List.foldl_nil, hwrite, ih, lastSome?_concat,
      Option.or_assoc]

/-- Selections of which no two pick the same element gather every picked element once. -/
theorem flatMap_filter_perm {es : List α} {pick : α → β → Bool}
    (hdisjoint : es.Pairwise fun e f => ∀ b, pick e b = true → pick f b = false) (l : List β) :
    (es.flatMap fun e => l.filter (pick e)).Perm (l.filter fun b => es.any fun e => pick e b) := by
  induction es with
  | nil => simp
  | cons e es ih =>
    obtain ⟨he, hes⟩ := List.pairwise_cons.mp hdisjoint
    have hfirst : (l.filter fun b => (e :: es).any fun e => pick e b).filter (pick e) =
        l.filter (pick e) := by
      rw [List.filter_filter]
      exact List.filter_congr fun b _ => by simp +contextual
    have hrest : (l.filter fun b => (e :: es).any fun e => pick e b).filter (fun b => !pick e b) =
        l.filter fun b => es.any fun e => pick e b := by
      rw [List.filter_filter]
      apply List.filter_congr
      intro b _
      cases hb : pick e b with
      | false => simp [hb]
      | true =>
        have hnone : es.any (fun f => pick f b) = false :=
          List.any_eq_false.mpr fun f hf => by simp [he f hf b hb]
        simp [hnone]
    rw [List.flatMap_cons]
    refine ((ih hes).append_left _).trans ?_
    rw [← hfirst, ← hrest]
    exact List.filter_append_perm _ _

/-- Two selections from one collection are the same up to order only if they pick the same
elements. -/
theorem filter_perm_filter_iff {p q : β → Bool} {l : List β} :
    (l.filter p).Perm (l.filter q) ↔ ∀ b ∈ l, (p b = true ↔ q b = true) := by
  constructor
  · intro h b hb
    have hmem : b ∈ l.filter p ↔ b ∈ l.filter q := h.mem_iff
    simpa [List.mem_filter, hb] using hmem
  · intro h
    exact List.Perm.of_eq (List.filter_congr fun b hb => Bool.eq_iff_iff.mpr (h b hb))

/-- A rearrangement of images is the list of images of a rearrangement. -/
theorem exists_map_of_perm {f : α → β} {l : List β} {as : List α} (h : l.Perm (as.map f)) :
    ∃ bs : List α, l = bs.map f ∧ bs.Perm as :=
  (congrFun₂ (List.eq_map_comp_perm f) l as).mpr h

end Foundation
