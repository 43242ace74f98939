import Mathlib.Tactic
import Mathlib.Data.List.Basic

/-!
# Linearizable histories

A history is a sequence of invocations and responses, each with the identity of its call. It is
linearizable if some sequential order of calls explains it: the order has every call that was
answered, with its answer, possibly calls that are still pending, and it puts a call that was
answered before another one was invoked before that one.

A linearization is built along a run: a call is invoked (`Linearization.inv`), takes effect at one
moment (`Linearization.commit`), and is answered (`Linearization.ret`).

Calls that reach an object through a layer, which forwards them and brings the answers back, last
longer than the calls on the object itself. They are linearizable as well (`Linearization.outer`).
-/

namespace Linearizable

/-- An invocation or a response. -/
inductive Event (ι ω α : Type)
  | inv (call : ι) (op : ω)
  | ret (call : ι) (answer : α)
  deriving DecidableEq, Repr

/-- A call in a sequential order. -/
@[ext]
structure Entry (ι ω α : Type) where
  call : ι
  op : ω
  answer : α
  deriving DecidableEq, Repr

variable {ι ω α σ : Type}

/-- The answers are those of a sequential run from the state `m`. -/
def Legal (apply : σ → ω → σ × α) : σ → List (Entry ι ω α) → Prop
  | _, [] => True
  | m, e :: es => (apply m e.op).2 = e.answer ∧ Legal apply (apply m e.op).1 es

instance decidableLegal [DecidableEq α] (apply : σ → ω → σ × α) :
    ∀ (m : σ) (es : List (Entry ι ω α)), Decidable (Legal apply m es)
  | _, [] => .isTrue trivial
  | m, e :: es =>
    have := decidableLegal apply (apply m e.op).1 es
    inferInstanceAs (Decidable ((apply m e.op).2 = e.answer ∧ Legal apply (apply m e.op).1 es))

/-- The state after the calls. -/
def after (apply : σ → ω → σ × α) (m : σ) (es : List (Entry ι ω α)) : σ :=
  es.foldl (fun m e => (apply m e.op).1) m

/-- The call `c` stands before the call `c'`. -/
def Before (c c' : ι) (es : List (Entry ι ω α)) : Prop :=
  ∃ as bs, es = as ++ bs ∧ (∃ e ∈ as, e.call = c) ∧ ∃ e ∈ bs, e.call = c'

/-- The sequential order `es` explains the history. -/
structure Linearization (apply : σ → ω → σ × α) (m₀ : σ) (h : List (Event ι ω α))
    (es : List (Entry ι ω α)) : Prop where
  nodup : (es.map Entry.call).Nodup
  legal : Legal apply m₀ es
  invoked : ∀ e ∈ es, .inv e.call e.op ∈ h
  answered : ∀ c a, .ret c a ∈ h → ∃ o, ⟨c, o, a⟩ ∈ es
  /-- A call answered before another one was invoked stands before it. -/
  order : ∀ {h₁ h₂ c a c' o}, h = h₁ ++ .ret c a :: h₂ → .inv c' o ∈ h₂ →
    (∃ e ∈ es, e.call = c') → Before c c' es

/-- Some sequential order explains the history. -/
def IsLinearizable (apply : σ → ω → σ × α) (m₀ : σ) (h : List (Event ι ω α)) : Prop :=
  ∃ es, Linearization apply m₀ h es

section Rules

variable {apply : σ → ω → σ × α} {m m₀ : σ} {h : List (Event ι ω α)} {es : List (Entry ι ω α)}

theorem after_append (es : List (Entry ι ω α)) (e : Entry ι ω α) :
    after apply m (es ++ [e]) = (apply (after apply m es) e.op).1 := by
  unfold after
  rw [List.foldl_append]
  rfl

theorem legal_append {m : σ} {es fs : List (Entry ι ω α)} :
    Legal apply m (es ++ fs) ↔ Legal apply m es ∧ Legal apply (after apply m es) fs := by
  induction es generalizing m with
  | nil => exact ⟨fun h => ⟨trivial, h⟩, fun h => h.2⟩
  | cons e es ih =>
    show _ ∧ Legal apply _ (es ++ fs) ↔ (_ ∧ Legal apply _ es) ∧ Legal apply _ fs
    rw [ih, and_assoc]
    rfl

theorem Legal.append (hl : Legal apply m es) (c : ι) (o : ω) :
    Legal apply m (es ++ [⟨c, o, (apply (after apply m es) o).2⟩]) :=
  legal_append.mpr ⟨hl, rfl, trivial⟩

theorem Before.append {c c' : ι} (hb : Before c c' es) (fs : List (Entry ι ω α)) :
    Before c c' (es ++ fs) := by
  obtain ⟨as, bs, rfl, hc, e, he, hc'⟩ := hb
  exact ⟨as, bs ++ fs, by rw [List.append_assoc], hc, e, List.mem_append_left _ he, hc'⟩

/-- A history with one more event, split at an earlier one. -/
theorem concat_eq_split {β : Type} {xs as bs : List β} {x y : β} (h : xs ++ [x] = as ++ y :: bs)
    (hne : bs ≠ []) : ∃ bs', bs = bs' ++ [x] ∧ xs = as ++ y :: bs' := by
  obtain ⟨bs', z, rfl⟩ := (List.eq_nil_or_concat bs).resolve_left hne
  have heq : xs ++ [x] = (as ++ y :: bs') ++ [z] := by
    rw [h, List.concat_eq_append, List.append_assoc]
    rfl
  obtain ⟨h₁, h₂⟩ := List.append_inj' heq rfl
  obtain rfl := (List.cons.inj h₂).1
  exact ⟨bs', List.concat_eq_append, h₁⟩

namespace Linearization

theorem nil : Linearization apply m₀ ([] : List (Event ι ω α)) [] where
  nodup := List.nodup_nil
  legal := trivial
  invoked := by simp
  answered := by simp
  order h := by simp at h

/-- A call stands in the order once. -/
theorem unique (hl : Linearization apply m₀ h es) {e e' : Entry ι ω α} (he : e ∈ es) (he' : e' ∈ es)
    (hc : e.call = e'.call) : e = e' :=
  List.inj_on_of_nodup_map hl.nodup he he' hc

/-- A history in which every call is answered fixes the calls of the order. -/
theorem perm (hl : Linearization apply m₀ h es) {fs : List (Entry ι ω α)}
    (hfs : (fs.map Entry.call).Nodup)
    (hinv : ∀ c o, .inv c o ∈ h → ∃ f ∈ fs, f.call = c ∧ f.op = o)
    (hret : ∀ f ∈ fs, .ret f.call f.answer ∈ h) : es.Perm fs := by
  have hmem : ∀ e ∈ es, e ∈ fs := by
    intro e he
    obtain ⟨f, hf, hc, ho⟩ := hinv _ _ (hl.invoked e he)
    obtain ⟨o, hes⟩ := hl.answered _ _ (hret f hf)
    have ha : e.answer = f.answer := by rw [hl.unique he hes hc.symm]
    rw [← Entry.ext hc ho ha.symm]
    exact hf
  refine (List.perm_ext_iff_of_nodup (.of_map _ hl.nodup) (.of_map _ hfs)).mpr
    fun f => ⟨hmem f, fun hf => ?_⟩
  obtain ⟨o, hes⟩ := hl.answered _ _ (hret f hf)
  rw [List.inj_on_of_nodup_map hfs hf (hmem _ hes) rfl]
  exact hes

/-- A call is invoked. -/
theorem inv (hl : Linearization apply m₀ h es) {c : ι} (o : ω) (hnew : ∀ e ∈ es, e.call ≠ c) :
    Linearization apply m₀ (h ++ [.inv c o]) es where
  nodup := hl.nodup
  legal := hl.legal
  invoked e he := List.mem_append_left _ (hl.invoked e he)
  answered c' a ha := by
    rcases List.mem_append.mp ha with ha | ha
    · exact hl.answered c' a ha
    · cases List.mem_singleton.mp ha
  order {h₁ h₂ c₁ a c' o'} heq hmem hes := by
    obtain ⟨h₃, rfl, heq'⟩ := concat_eq_split heq (List.ne_nil_of_mem hmem)
    rcases List.mem_append.mp hmem with hmem | hmem
    · exact hl.order heq' hmem hes
    · obtain ⟨e, he, rfl⟩ := hes
      cases List.mem_singleton.mp hmem
      exact absurd rfl (hnew e he)

/-- A pending call takes effect. -/
theorem commit (hl : Linearization apply m₀ h es) {c : ι} {o : ω} (hinv : .inv c o ∈ h)
    (hnew : ∀ e ∈ es, e.call ≠ c) :
    Linearization apply m₀ h (es ++ [⟨c, o, (apply (after apply m₀ es) o).2⟩]) where
  nodup := by
    rw [List.map_append, List.nodup_append]
    refine ⟨hl.nodup, List.nodup_singleton _, ?_⟩
    intro x hx y hy
    obtain ⟨e, he, rfl⟩ := List.mem_map.mp hx
    rw [List.mem_singleton.mp hy]
    exact hnew e he
  legal := hl.legal.append c o
  invoked e he := by
    rcases List.mem_append.mp he with he | he
    · exact hl.invoked e he
    · rw [List.mem_singleton.mp he]
      exact hinv
  answered c' a ha := by
    obtain ⟨o', ho⟩ := hl.answered c' a ha
    exact ⟨o', List.mem_append_left _ ho⟩
  order {h₁ h₂ c₁ a c' o'} heq hmem hes := by
    obtain ⟨e, he, rfl⟩ := hes
    rcases List.mem_append.mp he with he | he
    · exact (hl.order heq hmem ⟨e, he, rfl⟩).append _
    · -- a call that was answered has taken effect before
      obtain ⟨o₁, ho₁⟩ := hl.answered c₁ a (by rw [heq]; simp)
      exact ⟨es, _, rfl, ⟨_, ho₁, rfl⟩, e, he, rfl⟩

/-- A call that has taken effect is answered. -/
theorem ret (hl : Linearization apply m₀ h es) {e : Entry ι ω α} (he : e ∈ es) :
    Linearization apply m₀ (h ++ [.ret e.call e.answer]) es where
  nodup := hl.nodup
  legal := hl.legal
  invoked e he := List.mem_append_left _ (hl.invoked e he)
  answered c a ha := by
    rcases List.mem_append.mp ha with ha | ha
    · exact hl.answered c a ha
    · obtain ⟨rfl, rfl⟩ := Event.ret.inj (List.mem_singleton.mp ha)
      exact ⟨e.op, he⟩
  order {h₁ h₂ c₁ a c' o'} heq hmem hes := by
    obtain ⟨h₃, rfl, heq'⟩ := concat_eq_split heq (List.ne_nil_of_mem hmem)
    rcases List.mem_append.mp hmem with hmem | hmem
    · exact hl.order heq' hmem hes
    · cases List.mem_singleton.mp hmem

end Linearization

end Rules

/-! ## Calls through a layer -/

section Layers

variable {ω' α' : Type}

/-- What is seen at the two ends of a layer: by its clients, and by the object behind it. -/
inductive Layered (ι ω α ω' α' : Type)
  | outer (e : Event ι ω' α')
  | inner (e : Event ι ω α)

def outers (evs : List (Layered ι ω α ω' α')) : List (Event ι ω' α') :=
  evs.filterMap fun
    | .outer e => some e
    | .inner _ => none

def inners (evs : List (Layered ι ω α ω' α')) : List (Event ι ω α) :=
  evs.filterMap fun
    | .outer _ => none
    | .inner e => some e

/-- A layer forwards calls that were made, and answers with what the object has answered. It may
lose calls and answers on the way. -/
inductive Forwards (f : ω' → ω) (g : α → α') : List (Layered ι ω α ω' α') → Prop
  | nil : Forwards f g []
  | call {evs : List (Layered ι ω α ω' α')} {c : ι} (o : ω') (h : Forwards f g evs)
      (hnew : ∀ o', .outer (.inv c o') ∉ evs) : Forwards f g (evs ++ [.outer (.inv c o)])
  | forward {evs : List (Layered ι ω α ω' α')} {c : ι} {o : ω'} (h : Forwards f g evs)
      (hc : .outer (.inv c o) ∈ evs) : Forwards f g (evs ++ [.inner (.inv c (f o))])
  | reply {evs : List (Layered ι ω α ω' α')} (c : ι) (a : α) (h : Forwards f g evs) :
      Forwards f g (evs ++ [.inner (.ret c a)])
  | answer {evs : List (Layered ι ω α ω' α')} {c : ι} {a : α} (h : Forwards f g evs)
      (hc : .inner (.ret c a) ∈ evs) : Forwards f g (evs ++ [.outer (.ret c (g a))])

/-- A call on the object, as the client sees it. -/
def Entry.outer (f : ω' ≃ ω) (g : α → α') (e : Entry ι ω α) : Entry ι ω' α' :=
  ⟨e.call, f.symm e.op, g e.answer⟩

variable {evs : List (Layered ι ω α ω' α')} {f : ω' → ω} {g : α → α'} {c c' : ι}

theorem mem_outers {e : Event ι ω' α'} : e ∈ outers evs ↔ .outer e ∈ evs := by
  refine ⟨fun h => ?_, fun h => List.mem_filterMap.mpr ⟨_, h, rfl⟩⟩
  obtain ⟨x, hx, he⟩ := List.mem_filterMap.mp h
  cases x with
  | outer e' => cases he; exact hx
  | inner e' => cases he

theorem mem_inners {e : Event ι ω α} : e ∈ inners evs ↔ .inner e ∈ evs := by
  refine ⟨fun h => ?_, fun h => List.mem_filterMap.mpr ⟨_, h, rfl⟩⟩
  obtain ⟨x, hx, he⟩ := List.mem_filterMap.mp h
  cases x with
  | outer e' => cases he
  | inner e' => cases he; exact hx

theorem outers_outer (e : Event ι ω' α') : outers (evs ++ [.outer e]) = outers evs ++ [e] :=
  List.filterMap_append

theorem outers_inner (e : Event ι ω α) : outers (evs ++ [.inner e]) = outers evs :=
  List.filterMap_append.trans (List.append_nil _)

theorem inners_outer (e : Event ι ω' α') : inners (evs ++ [.outer e]) = inners evs :=
  List.filterMap_append.trans (List.append_nil _)

theorem inners_inner (e : Event ι ω α) : inners (evs ++ [.inner e]) = inners evs ++ [e] :=
  List.filterMap_append

namespace Forwards

/-- Answers of the object. -/
theorem replies (h : Forwards f g evs) {xs : List (Layered ι ω α ω' α')}
    (hxs : ∀ x ∈ xs, ∃ c a, x = .inner (.ret c a)) : Forwards f g (evs ++ xs) := by
  induction xs generalizing evs with
  | nil => rwa [List.append_nil]
  | cons x xs ih =>
    obtain ⟨c, a, rfl⟩ := hxs x List.mem_cons_self
    rw [← List.singleton_append, ← List.append_assoc]
    exact ih (h.reply c a) fun y hy => hxs y (List.mem_cons_of_mem _ hy)

/-- A call on the object was made by a client. -/
theorem invoked (h : Forwards f g evs) {o : ω} (hc : .inner (.inv c o) ∈ evs) :
    ∃ o', o = f o' ∧ .outer (.inv c o') ∈ evs := by
  induction h with
  | nil => cases hc
  | @forward evs c₀ o₀ _ hc₀ ih =>
    rcases List.mem_append.mp hc with hc | hc
    · obtain ⟨o', ho, hm⟩ := ih hc
      exact ⟨o', ho, List.mem_append_left _ hm⟩
    · cases List.mem_singleton.mp hc
      exact ⟨o₀, rfl, List.mem_append_left _ hc₀⟩
  | call _ _ _ ih | reply _ _ _ ih | answer _ _ ih =>
    rcases List.mem_append.mp hc with hc | hc
    · obtain ⟨o', ho, hm⟩ := ih hc
      exact ⟨o', ho, List.mem_append_left _ hm⟩
    · cases List.mem_singleton.mp hc

/-- An answer a client gets is one of the object. -/
theorem answered (h : Forwards f g evs) {a : α'} (hc : .outer (.ret c a) ∈ evs) :
    ∃ a', a = g a' ∧ .inner (.ret c a') ∈ evs := by
  induction h with
  | nil => cases hc
  | @answer evs c₀ a₀ _ hc₀ ih =>
    rcases List.mem_append.mp hc with hc | hc
    · obtain ⟨a', ha, hm⟩ := ih hc
      exact ⟨a', ha, List.mem_append_left _ hm⟩
    · cases List.mem_singleton.mp hc
      exact ⟨a₀, rfl, List.mem_append_left _ hc₀⟩
  | call _ _ _ ih | reply _ _ _ ih | forward _ _ ih =>
    rcases List.mem_append.mp hc with hc | hc
    · obtain ⟨a', ha, hm⟩ := ih hc
      exact ⟨a', ha, List.mem_append_left _ hm⟩
    · cases List.mem_singleton.mp hc

/-- What is in order for the clients is in order for the object. -/
theorem order (h : Forwards f g evs) {h₁ h₂ : List (Event ι ω' α')} {a : α'} {o : ω'} {o₁ : ω}
    (hsplit : outers evs = h₁ ++ .ret c a :: h₂) (hinv : .inv c' o ∈ h₂)
    (hin : .inv c' o₁ ∈ inners evs) :
    ∃ g₁ g₂ a', inners evs = g₁ ++ .ret c a' :: g₂ ∧ ∃ o', .inv c' o' ∈ g₂ := by
  induction h generalizing h₂ with
  | nil => cases hin
  | @call evs c₀ o₀ h hnew ih =>
    rw [outers_outer] at hsplit
    rw [inners_outer] at hin ⊢
    obtain ⟨h₃, rfl, hsplit'⟩ := concat_eq_split hsplit (List.ne_nil_of_mem hinv)
    rcases List.mem_append.mp hinv with hinv | hinv
    · exact ih hsplit' hinv hin
    · -- the object does not know of the call yet
      cases List.mem_singleton.mp hinv
      obtain ⟨o', -, hm⟩ := h.invoked (mem_inners.mp hin)
      exact absurd hm (hnew o')
  | @forward evs c₀ o₀ h hc₀ ih =>
    rw [outers_inner] at hsplit
    rw [inners_inner] at hin ⊢
    rcases List.mem_append.mp hin with hin | hin
    · obtain ⟨g₁, g₂, a', hg, o', ho⟩ := ih hsplit hinv hin
      exact ⟨g₁, g₂ ++ [_], a', by rw [hg, List.append_assoc]; rfl, o', List.mem_append_left _ ho⟩
    · cases List.mem_singleton.mp hin
      have hret : Layered.outer (.ret c a) ∈ evs := mem_outers.mp (by rw [hsplit]; simp)
      obtain ⟨a', -, hm⟩ := h.answered hret
      obtain ⟨g₁, g₂, hg⟩ := List.append_of_mem (mem_inners.mpr hm)
      exact ⟨g₁, g₂ ++ [_], a', by rw [hg, List.append_assoc]; rfl, _,
        List.mem_append_right _ (List.mem_singleton_self _)⟩
  | reply c₀ a₀ _ ih =>
    rw [outers_inner] at hsplit
    rw [inners_inner] at hin ⊢
    rcases List.mem_append.mp hin with hin | hin
    · obtain ⟨g₁, g₂, a', hg, o', ho⟩ := ih hsplit hinv hin
      exact ⟨g₁, g₂ ++ [_], a', by rw [hg, List.append_assoc]; rfl, o', List.mem_append_left _ ho⟩
    · cases List.mem_singleton.mp hin
  | answer _ _ ih =>
    rw [outers_outer] at hsplit
    rw [inners_outer] at hin ⊢
    obtain ⟨h₃, rfl, hsplit'⟩ := concat_eq_split hsplit (List.ne_nil_of_mem hinv)
    rcases List.mem_append.mp hinv with hinv | hinv
    · exact ih hsplit' hinv hin
    · cases List.mem_singleton.mp hinv

end Forwards

section Outer

variable {apply : σ → ω → σ × α} {apply' : σ → ω' → σ × α'} {m₀ : σ} {es : List (Entry ι ω α)}
  {f : ω' ≃ ω}

theorem Legal.outer (happly : ∀ m o, apply' m o = ((apply m (f o)).1, g (apply m (f o)).2)) {m : σ}
    (h : Legal apply m es) : Legal apply' m (es.map (Entry.outer f g)) := by
  induction es generalizing m with
  | nil => trivial
  | cons e es ih =>
    have hop : f (e.outer f g).op = e.op := f.apply_symm_apply e.op
    show (apply' m _).2 = g e.answer ∧ Legal apply' (apply' m _).1 _
    rw [happly, hop, h.1]
    exact ⟨rfl, ih h.2⟩

/-- The calls of the clients of a layer are linearizable if those on the object behind it are. -/
theorem Linearization.outer (happly : ∀ m o, apply' m o = ((apply m (f o)).1, g (apply m (f o)).2))
    (h : Forwards f g evs) (hl : Linearization apply m₀ (inners evs) es) :
    Linearization apply' m₀ (outers evs) (es.map (Entry.outer f g)) where
  nodup := by
    rw [List.map_map]
    exact hl.nodup
  legal := hl.legal.outer happly
  invoked := by
    intro e he
    obtain ⟨e, hes, rfl⟩ := List.mem_map.mp he
    obtain ⟨o, ho, hm⟩ := h.invoked (mem_inners.mp (hl.invoked e hes))
    have hop : (e.outer f g).op = o := (congrArg f.symm ho).trans (f.symm_apply_apply o)
    rw [hop]
    exact mem_outers.mpr hm
  answered := by
    intro c a ha
    obtain ⟨a', rfl, hm⟩ := h.answered (mem_outers.mp ha)
    obtain ⟨o, ho⟩ := hl.answered c a' (mem_inners.mpr hm)
    exact ⟨f.symm o, List.mem_map.mpr ⟨_, ho, rfl⟩⟩
  order := by
    rintro h₁ h₂ c a c' o hsplit hinv ⟨e, he, rfl⟩
    obtain ⟨e, hes, rfl⟩ := List.mem_map.mp he
    obtain ⟨g₁, g₂, a', hg, o', ho⟩ := h.order hsplit hinv (hl.invoked e hes)
    obtain ⟨as, bs, rfl, ⟨e₁, h₁, hc₁⟩, e₂, h₂, hc₂⟩ := hl.order hg ho ⟨e, hes, rfl⟩
    exact ⟨as.map (.outer f g), bs.map (.outer f g), List.map_append,
      ⟨_, List.mem_map_of_mem h₁, hc₁⟩, _, List.mem_map_of_mem h₂, hc₂⟩

end Outer

end Layers

end Linearizable
