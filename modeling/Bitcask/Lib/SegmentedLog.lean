import Mathlib.Tactic
import Mathlib.Data.List.Basic

/-!
# Segmented last-writer-wins logs

An event on a key sets it to a value or removes it. A log is a list of events; the last event on
a key decides the key. A segmented log is a family of lists indexed by segment ids, read in
ascending order of the ids (`Final`).

The rules of this file say which changes of the segments leave the final value of a key alone:
appending at the highest segment (`Final.append_self`, `Final.append_ne`), publishing a segment
of copies (`Final.publish`), and dropping the lowest segment (`Final.drop`).
-/

namespace SegmentedLog

variable {κ ν : Type} [DecidableEq κ]

/-- The last event on `k` in a log. -/
def lastOf (k : κ) : List (κ × Option ν) → Option (Option ν)
  | [] => none
  | e :: es =>
    match lastOf k es with
    | some v => some v
    | none => if e.1 = k then some e.2 else none

/-- The value of `k` after a log. -/
def value (k : κ) (es : List (κ × Option ν)) : Option ν := (lastOf k es).join

@[simp] theorem lastOf_nil (k : κ) : lastOf k ([] : List (κ × Option ν)) = none := rfl

@[simp] theorem value_nil (k : κ) : value k ([] : List (κ × Option ν)) = none := rfl

theorem lastOf_append (k : κ) (as bs : List (κ × Option ν)) :
    lastOf k (as ++ bs) = (lastOf k bs).or (lastOf k as) := by
  induction as with
  | nil => simp
  | cons a as ih =>
    simp only [List.cons_append, lastOf, ih]
    cases lastOf k bs <;> simp

theorem lastOf_append_of_some {k : κ} {as bs : List (κ × Option ν)} {v : Option ν}
    (h : lastOf k bs = some v) : lastOf k (as ++ bs) = some v := by
  rw [lastOf_append, h]; rfl

theorem lastOf_append_of_none {k : κ} {as bs : List (κ × Option ν)} (h : lastOf k bs = none) :
    lastOf k (as ++ bs) = lastOf k as := by
  rw [lastOf_append, h]; rfl

@[simp] theorem lastOf_singleton_self (k : κ) (v : Option ν) : lastOf k [(k, v)] = some v := by
  simp [lastOf]

theorem lastOf_singleton_ne {k j : κ} (h : j ≠ k) (v : Option ν) : lastOf k [(j, v)] = none := by
  simp [lastOf, h]

/-- A log has an event on `k` exactly when it has a last one. -/
theorem lastOf_eq_none_iff {k : κ} {es : List (κ × Option ν)} :
    lastOf k es = none ↔ ∀ e ∈ es, e.1 ≠ k := by
  induction es with
  | nil => simp
  | cons e es ih =>
    simp only [lastOf, List.forall_mem_cons]
    cases h : lastOf k es with
    | some v =>
      have hne : ¬ ∀ e ∈ es, e.1 ≠ k := fun hall => by rw [ih.mpr hall] at h; cases h
      exact iff_of_false (by simp) (fun hall => hne hall.2)
    | none =>
      have hall := ih.mp h
      by_cases hk : e.1 = k
      · simp [hk]
      · simp only [hk, if_false, true_iff, ne_eq, not_false_eq_true, true_and]
        exact hall

theorem mem_of_lastOf {k : κ} {es : List (κ × Option ν)} {v : Option ν} (h : lastOf k es = some v) :
    (k, v) ∈ es := by
  induction es with
  | nil => cases h
  | cons e es ih =>
    simp only [lastOf] at h
    cases h' : lastOf k es with
    | some w =>
      rw [h'] at h
      exact List.mem_cons_of_mem _ (ih (h' ▸ h))
    | none =>
      rw [h'] at h
      by_cases hk : e.1 = k
      · simp only [hk, if_true, Option.some.injEq] at h
        rw [← hk, ← h]
        exact List.mem_cons_self
      · simp [hk] at h

theorem value_append_self (es : List (κ × Option ν)) (k : κ) (v : Option ν) :
    value k (es ++ [(k, v)]) = v := by
  rw [value, lastOf_append_of_some (lastOf_singleton_self k v)]; rfl

theorem value_append_ne {k j : κ} (h : j ≠ k) (es : List (κ × Option ν)) (v : Option ν) :
    value k (es ++ [(j, v)]) = value k es := by
  rw [value, lastOf_append_of_none (lastOf_singleton_ne h v)]; rfl

theorem value_append_of_none {k : κ} {as bs : List (κ × Option ν)} (h : lastOf k bs = none) :
    value k (as ++ bs) = value k as := by
  rw [value, lastOf_append_of_none h]; rfl

/-! ## Segments -/

/-- The segments read in ascending order of their ids leave `k` at `v`: the highest segment with
an event on `k` decides it. -/
def Final (D : ℕ → List (κ × Option ν)) (k : κ) (v : Option ν) : Prop :=
  (∃ i, lastOf k (D i) = some v ∧ ∀ j, i < j → lastOf k (D j) = none) ∨
    (v = none ∧ ∀ i, lastOf k (D i) = none)

theorem Final.unique {D : ℕ → List (κ × Option ν)} {k : κ} {v w : Option ν}
    (hv : Final D k v) (hw : Final D k w) : v = w := by
  rcases hv with ⟨i, hi, hi'⟩ | ⟨rfl, hnone⟩
  · rcases hw with ⟨j, hj, hj'⟩ | ⟨rfl, hnone⟩
    · rcases Nat.lt_trichotomy i j with h | rfl | h
      · rw [hi' j h] at hj; cases hj
      · rw [hi] at hj; exact Option.some.inj hj
      · rw [hj' i h] at hi; cases hi
    · rw [hnone i] at hi; cases hi
  · rcases hw with ⟨j, hj, -⟩ | ⟨rfl, -⟩
    · rw [hnone j] at hj; cases hj
    · rfl

/-- Segments that agree on `k` leave it at the same value. -/
theorem Final.congr {D D' : ℕ → List (κ × Option ν)} {k : κ} {v : Option ν} (h : Final D k v)
    (heq : ∀ i, lastOf k (D' i) = lastOf k (D i)) : Final D' k v := by
  rcases h with ⟨i, hi, hi'⟩ | ⟨rfl, hnone⟩
  · exact Or.inl ⟨i, by rw [heq, hi], fun j hj => by rw [heq, hi' j hj]⟩
  · exact Or.inr ⟨rfl, fun i => by rw [heq, hnone i]⟩

/-- An event appended to the highest segment decides its key. -/
theorem Final.append_self {D : ℕ → List (κ × Option ν)} {a : ℕ} (hmax : ∀ j, a < j → D j = [])
    (k : κ) (v : Option ν) : Final (Function.update D a (D a ++ [(k, v)])) k v := by
  refine Or.inl ⟨a, ?_, ?_⟩
  · rw [Function.update_self]
    exact lastOf_append_of_some (lastOf_singleton_self k v)
  · intro j hj
    rw [Function.update_of_ne (Nat.ne_of_gt hj), hmax j hj]; rfl

/-- An event appended to a segment leaves every other key alone. -/
theorem Final.append_ne {D : ℕ → List (κ × Option ν)} {k j : κ} {v w : Option ν}
    (h : Final D k v) (hne : j ≠ k) (a : ℕ) :
    Final (Function.update D a (D a ++ [(j, w)])) k v := by
  refine h.congr fun i => ?_
  by_cases hi : i = a
  · subst hi
    rw [Function.update_self, lastOf_append_of_none (lastOf_singleton_ne hne w)]
  · rw [Function.update_of_ne hi]

/-- A new segment may be published when, for each of its keys, its last event is the current
value or a higher segment has an event on the key. -/
theorem Final.publish {D : ℕ → List (κ × Option ν)} {o : ℕ} (ho : D o = []) {R : List (κ × Option ν)}
    {k : κ} {v : Option ν} (h : Final D k v)
    (hR : ∀ w, lastOf k R = some w → w = v ∨ ∃ j, o < j ∧ lastOf k (D j) ≠ none) :
    Final (Function.update D o R) k v := by
  by_cases hk : lastOf k R = none
  · refine h.congr fun i => ?_
    by_cases hi : i = o
    · subst hi; rw [Function.update_self, hk, ho]; rfl
    · rw [Function.update_of_ne hi]
  obtain ⟨w, hw⟩ := Option.ne_none_iff_exists'.mp hk
  -- a segment above `o` that has the key keeps deciding it
  have habove : (∃ j, o < j ∧ lastOf k (D j) ≠ none) → Final (Function.update D o R) k v := by
    rintro ⟨j, hj, hjk⟩
    rcases h with ⟨i, hi, hi'⟩ | ⟨-, hnone⟩
    · have hoi : o < i := by
        rcases Nat.lt_or_ge i j with hlt | hge
        · exact absurd (hi' j hlt) hjk
        · omega
      refine Or.inl ⟨i, by rw [Function.update_of_ne (by omega), hi], fun l hl => ?_⟩
      rw [Function.update_of_ne (by omega), hi' l hl]
    · exact absurd (hnone j) hjk
  rcases hR w hw with rfl | hab
  · by_cases hab : ∃ j, o < j ∧ lastOf k (D j) ≠ none
    · exact habove hab
    · refine Or.inl ⟨o, by rw [Function.update_self, hw], fun j hj => ?_⟩
      rw [Function.update_of_ne (Nat.ne_of_gt hj)]
      by_contra hne
      exact hab ⟨j, hj, hne⟩
  · exact habove hab

/-- The lowest segment may be dropped when every key that has a value has an event in another
segment. -/
theorem Final.drop {D : ℕ → List (κ × Option ν)} {f : ℕ} (hlow : ∀ i, i < f → D i = []) {k : κ}
    {v : Option ν} (h : Final D k v) (hv : v ≠ none → ∃ j, j ≠ f ∧ lastOf k (D j) ≠ none) :
    Final (Function.update D f []) k v := by
  have hupd : ∀ i, i ≠ f → lastOf k (Function.update D f [] i) = lastOf k (D i) := fun i hi => by
    rw [Function.update_of_ne hi]
  rcases h with ⟨i, hi, hi'⟩ | ⟨rfl, hnone⟩
  · by_cases hif : i = f
    · subst hif
      have hv' : v = none := by
        by_contra hne
        obtain ⟨j, hj, hjk⟩ := hv hne
        rcases Nat.lt_or_gt_of_ne hj with hlt | hgt
        · rw [hlow j hlt] at hjk; exact hjk rfl
        · exact hjk (hi' j hgt)
      refine Or.inr ⟨hv', fun j => ?_⟩
      rcases Nat.lt_trichotomy j i with hlt | rfl | hgt
      · rw [hupd j (by omega), hlow j hlt]; rfl
      · rw [Function.update_self]; rfl
      · rw [hupd j (by omega), hi' j hgt]
    · refine Or.inl ⟨i, by rw [hupd i hif, hi], fun j hj => ?_⟩
      by_cases hjf : j = f
      · subst hjf; rw [Function.update_self]; rfl
      · rw [hupd j hjf, hi' j hj]
  · refine Or.inr ⟨rfl, fun i => ?_⟩
    by_cases hif : i = f
    · subst hif; rw [Function.update_self]; rfl
    · rw [hupd i hif, hnone i]

/-- Reading the segments one after another in ascending order of ids computes `Final`. -/
theorem final_of_sorted {D : ℕ → List (κ × Option ν)} {ids : List ℕ}
    (hs : ids.Pairwise (· < ·)) (hcover : ∀ i, D i ≠ [] → i ∈ ids) (k : κ) :
    Final D k (value k (ids.flatMap D)) := by
  have key : ∀ ids : List ℕ, ids.Pairwise (· < ·) →
      (∃ i ∈ ids, lastOf k (ids.flatMap D) = lastOf k (D i) ∧ lastOf k (D i) ≠ none ∧
        ∀ j ∈ ids, i < j → lastOf k (D j) = none) ∨
      (lastOf k (ids.flatMap D) = none ∧ ∀ i ∈ ids, lastOf k (D i) = none) := by
    intro ids
    induction ids with
    | nil => intro _; exact Or.inr ⟨rfl, by simp⟩
    | cons a as ih =>
      intro hs
      obtain ⟨ha, has⟩ := List.pairwise_cons.mp hs
      rw [List.flatMap_cons, lastOf_append]
      rcases ih has with ⟨i, hi, heq, hne, hmax⟩ | ⟨heq, hnone⟩
      · refine Or.inl ⟨i, List.mem_cons_of_mem _ hi, ?_, hne, ?_⟩
        · rw [heq]
          obtain ⟨w, hw⟩ := Option.ne_none_iff_exists'.mp hne
          rw [hw]; rfl
        · intro j hj hij
          rcases List.mem_cons.mp hj with rfl | hj
          · have := ha i hi; omega
          · exact hmax j hj hij
      · rw [heq]
        by_cases hk : lastOf k (D a) = none
        · refine Or.inr ⟨by rw [hk]; rfl, ?_⟩
          intro i hi
          rcases List.mem_cons.mp hi with rfl | hi
          · exact hk
          · exact hnone i hi
        · refine Or.inl ⟨a, List.mem_cons_self, rfl, hk, ?_⟩
          intro j hj haj
          rcases List.mem_cons.mp hj with rfl | hj
          · omega
          · exact hnone j hj
  have houtside : ∀ i, i ∉ ids → lastOf k (D i) = none := fun i hi => by
    have : D i = [] := by
      by_contra hne
      exact hi (hcover i hne)
    rw [this]; rfl
  rcases key ids hs with ⟨i, hi, heq, hne, hmax⟩ | ⟨heq, hnone⟩
  · refine Or.inl ⟨i, ?_, fun j hj => ?_⟩
    · obtain ⟨w, hw⟩ := Option.ne_none_iff_exists'.mp hne
      rw [value, heq, hw]; rfl
    · by_cases hj' : j ∈ ids
      · exact hmax j hj' hj
      · exact houtside j hj'
  · refine Or.inr ⟨by rw [value, heq]; rfl, fun i => ?_⟩
    by_cases hi : i ∈ ids
    · exact hnone i hi
    · exact houtside i hi

end SegmentedLog
