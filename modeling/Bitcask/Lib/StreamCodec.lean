import Mathlib.Tactic

/-!
# Readers of item streams

A `Reader` takes one item off the front of a stream, finds the end of the stream, or fails. Every
item takes something off, so the loop that reads item after item ends (`run`).

1. `Reads w a`: the word `w`, whatever follows it, is read as `a`. A stream of such words is read
   word by word (`run_flatten`, `readAll_flatten`).
2. `Torn w e`: every proper nonempty part of the front of `w` fails with `e`. A stream that is cut
   inside such a word yields the items before it and then `e` (`readAll_cut`).
3. `Framed`: what the reader takes off a stream is a word. Then every stream is words and a rest
   that holds no further word (`Framed.split`).
-/

namespace StreamCodec

/-- A reader of items of type `α` in streams of `β`. -/
structure Reader (ε β α : Type) where
  read : List β → Except ε (Option (α × List β))
  progress : ∀ {s s' : List β} {a : α}, read s = .ok (some (a, s')) → s'.length < s.length

namespace Reader

variable {ε β α γ σ : Type} (r : Reader ε β α)

/-- `while let Some(a) = read(stream)? { body(a)? }`: the state at the end, and how it ended. -/
def run (body : σ → α → σ × Except ε Unit) (x : σ) (s : List β) : σ × Except ε Unit :=
  match _h : r.read s with
  | .error e => (x, .error e)
  | .ok none => (x, .ok ())
  | .ok (some (a, s')) =>
    match body x a with
    | (x', .error e) => (x', .error e)
    | (x', .ok ()) => run body x' s'
termination_by s.length
decreasing_by exact r.progress _h

/-- The items of a stream up to its end or to the first failure. -/
def readAll (s : List β) : List α × Except ε Unit :=
  r.run (fun items a => (items ++ [a], .ok ())) [] s

/-- A reader whose items are decoded once they are read. -/
def decode (f : α → Except ε γ) : Reader ε β γ where
  read s :=
    match r.read s with
    | .error e => .error e
    | .ok none => .ok none
    | .ok (some (a, s')) => (f a).map fun c => some (c, s')
  progress := by
    intro s s' c h
    split at h
    · cases h
    · cases h
    · rename_i a s₁ hr
      cases hf : f a with
      | error e => rw [hf] at h; cases h
      | ok c' =>
        rw [hf] at h
        cases h
        exact r.progress hr

/-! ## One round of the loop -/

section Rounds

variable {r} {body : σ → α → σ × Except ε Unit} {x x' : σ} {s s' : List β} {a : α} {e : ε}

theorem run_error (h : r.read s = .error e) : r.run body x s = (x, .error e) := by
  unfold run
  split <;> rename_i hr <;> rw [h] at hr <;> cases hr
  rfl

theorem run_done (h : r.read s = .ok none) : r.run body x s = (x, .ok ()) := by
  unfold run
  split <;> rename_i hr <;> rw [h] at hr <;> cases hr

theorem run_item (h : r.read s = .ok (some (a, s'))) (hb : body x a = (x', .ok ())) :
    r.run body x s = r.run body x' s' := by
  conv_lhs => unfold run
  split <;> rename_i hr <;> rw [h] at hr <;> cases hr
  rw [hb]

theorem run_stop (h : r.read s = .ok (some (a, s'))) (hb : body x a = (x', .error e)) :
    r.run body x s = (x', .error e) := by
  unfold run
  split <;> rename_i hr <;> rw [h] at hr <;> cases hr
  rw [hb]

end Rounds

/-! ## Streams of words -/

/-- The word `w` is read as `a`, whatever follows it. -/
def Reads (w : List β) (a : α) : Prop := ∀ rest, r.read (w ++ rest) = .ok (some (a, rest))

/-- A stream that ends inside the word `w` fails with `e`. -/
def Torn (w : List β) (e : ε) : Prop :=
  ∀ n, 0 < n → n < w.length → r.read (w.take n) = .error e

/-- The rounds of a loop whose body succeeds on all items. -/
inductive Rounds (body : σ → α → σ × Except ε Unit) : σ → List α → σ → Prop
  | nil (x : σ) : Rounds body x [] x
  | cons {x x' x'' : σ} {a : α} {items : List α} (h : body x a = (x', .ok ()))
      (hs : Rounds body x' items x'') : Rounds body x (a :: items) x''

section Streams

variable {r} {body : σ → α → σ × Except ε Unit} {x x' : σ} {ws : List (List β)} {items : List α}

/-- Words are read one after the other. -/
theorem run_flatten (h : List.Forall₂ r.Reads ws items) (hs : Rounds body x items x')
    (rest : List β) : r.run body x (ws.flatten ++ rest) = r.run body x' rest := by
  induction h generalizing x with
  | nil =>
    cases hs
    rfl
  | cons hw _ ih =>
    cases hs with
    | cons hb hs => rw [List.flatten_cons, List.append_assoc, run_item (hw _) hb, ih hs]

theorem rounds_append (items read : List α) :
    Rounds (fun (items : List α) (a : α) => (items ++ [a], (.ok () : Except ε Unit))) read items
      (read ++ items) := by
  induction items generalizing read with
  | nil => rw [List.append_nil]; exact .nil read
  | cons a items ih =>
    refine .cons rfl ?_
    have := ih (read ++ [a])
    rwa [List.append_assoc, List.singleton_append] at this

theorem readAll_flatten (h : List.Forall₂ r.Reads ws items) (rest : List β) :
    r.readAll (ws.flatten ++ rest) =
      r.run (fun items a => (items ++ [a], .ok ())) items rest := by
  rw [readAll, run_flatten h (rounds_append items [])]
  rfl

/-- A stream of words is read back to its end. -/
theorem readAll_words (h : List.Forall₂ r.Reads ws items) (hend : r.read [] = .ok none) :
    r.readAll ws.flatten = (items, .ok ()) := by
  have := readAll_flatten h []
  rw [List.append_nil] at this
  rw [this, run_done hend]

/-- A stream cut strictly inside its `i`-th word yields the items before, and then the failure. -/
theorem readAll_cut {e : ε} (h : List.Forall₂ r.Reads ws items) {i n : ℕ} (hi : i < ws.length)
    (htorn : r.Torn ws[i] e) (hpos : 0 < n) (hn : n < ws[i].length) :
    r.readAll (ws.flatten.take ((ws.take i).flatten.length + n)) = (items.take i, .error e) := by
  have hsplit : ws = ws.take i ++ ws[i] :: ws.drop (i + 1) := by
    rw [← List.drop_eq_getElem_cons hi, List.take_append_drop]
  have hcut : ws.flatten.take ((ws.take i).flatten.length + n) =
      (ws.take i).flatten ++ ws[i].take n := by
    conv_lhs => rw [congrArg List.flatten hsplit]
    rw [List.flatten_append, List.flatten_cons, List.take_length_add_append,
      List.take_append_of_le_length hn.le]
  rw [hcut, readAll_flatten (List.forall₂_take i h), run_error (htorn n hpos hn)]

end Streams

/-! ## Any stream -/

/-- What is taken off a stream is a word. -/
def Framed : Prop :=
  ∀ {s s' : List β} {a : α}, r.read s = .ok (some (a, s')) → ∃ w, s = w ++ s' ∧ r.Reads w a

/-- The reader takes nothing off the stream. -/
def Stuck (s : List β) : Prop := ∀ a s', r.read s ≠ .ok (some (a, s'))

section Any

variable {r} {s : List β}

theorem Stuck.cases (h : r.Stuck s) : r.read s = .ok none ∨ ∃ e, r.read s = .error e := by
  cases hr : r.read s with
  | error e => exact Or.inr ⟨e, rfl⟩
  | ok o =>
    cases o with
    | none => exact Or.inl rfl
    | some p => exact absurd hr (h p.1 p.2)

theorem Stuck.no_word (h : r.Stuck s) {w rest : List β} {a : α} (hw : r.Reads w a) :
    s ≠ w ++ rest := by
  rintro rfl
  exact h a rest (hw rest)

/-- The loop stops there, in order if that is the end of the stream. -/
theorem Stuck.run_eq (h : r.Stuck s) (hend : r.read s = .ok none ↔ s = [])
    (body : σ → α → σ × Except ε Unit) (x : σ) :
    ∃ res, r.run body x s = (x, res) ∧ (res = .ok () ↔ s = []) := by
  rcases h.cases with hr | ⟨e, hr⟩
  · exact ⟨.ok (), run_done hr, by simp [hend.mp hr]⟩
  · refine ⟨.error e, run_error hr, ?_⟩
    rw [← hend, hr]
    simp

/-- A stream is words and a rest that does not start with one. -/
theorem Framed.split (hf : r.Framed) (s : List β) : ∃ (ws : List (List β)) (items : List α)
    (rest : List β), s = ws.flatten ++ rest ∧ List.Forall₂ r.Reads ws items ∧ r.Stuck rest := by
  induction hn : s.length using Nat.strong_induction_on generalizing s with
  | _ n ih =>
  subst hn
  by_cases hs : r.Stuck s
  · exact ⟨[], [], s, rfl, .nil, hs⟩
  · simp only [Stuck, not_forall, not_not] at hs
    obtain ⟨a, s', hr⟩ := hs
    obtain ⟨w, rfl, hw⟩ := hf hr
    obtain ⟨ws, items, rest, rfl, hws, hrest⟩ := ih _ (r.progress hr) s' rfl
    exact ⟨w :: ws, a :: items, rest, by rw [List.flatten_cons, List.append_assoc], .cons hw hws, hrest⟩

end Any

/-! ## Decoded items -/

section Decode

variable {r} {f : α → Except ε γ} {w : List β} {a : α} {c : γ} {e : ε}

theorem Reads.decode (h : r.Reads w a) (hf : f a = .ok c) : (r.decode f).Reads w c := by
  intro rest
  simp only [Reader.decode, h rest, hf]
  rfl

theorem Torn.decode (h : r.Torn w e) : (r.decode f).Torn w e := by
  intro n hpos hn
  simp only [Reader.decode, h n hpos hn]

theorem decode_nil (h : r.read [] = .ok none) : (r.decode f).read [] = .ok none := by
  simp only [Reader.decode, h]

end Decode

end Reader

end StreamCodec
