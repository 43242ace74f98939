import Mathlib.Tactic

/-!
# Programs that may crash between two calls

A program over a state makes calls that change the state. A run is the states it had before each
of its calls, its result and the state it leaves. A process that dies inside the program leaves
one of the states before a call, so these are the crash states of the program.

`Triple P m Q E C` is the Hoare triple with a crash condition: from a state with `P`, every crash
state has `C`, and the program returns with `Q` or fails with `E`.

`Coupled R V m k s t` compares two programs, over the same or over different states: run from `s`
and `t`, they fail with the same error or return values that `V` relates, and leave states that `R`
relates.
-/

namespace CrashHoare

/-- One run: the states before its calls, its result and the state it leaves. -/
structure Run (σ ε α : Type) where
  before : List σ
  result : Except ε α
  after : σ

/-- A program. -/
def Prog (σ ε α : Type) := σ → Run σ ε α

variable {σ ε α β : Type}

namespace Prog

/-- Return a value. -/
def pure (a : α) : Prog σ ε α := fun s => ⟨[], .ok a, s⟩

/-- Fail. -/
def throw (e : ε) : Prog σ ε α := fun s => ⟨[], .error e, s⟩

/-- Look at the state. -/
def get : Prog σ ε σ := fun s => ⟨[], .ok s, s⟩

/-- Change the state by one call. -/
def call (f : σ → σ) : Prog σ ε Unit := fun s => ⟨[s], .ok (), f s⟩

/-- One program after another. -/
def bind (m : Prog σ ε α) (k : α → Prog σ ε β) : Prog σ ε β := fun s =>
  match (m s).result with
  | .error e => ⟨(m s).before, .error e, (m s).after⟩
  | .ok a =>
    ⟨(m s).before ++ (k a (m s).after).before, (k a (m s).after).result, (k a (m s).after).after⟩

instance : Monad (Prog σ ε) where
  pure := pure
  bind := bind

theorem bind_assoc {γ : Type} (m : Prog σ ε α) (k : α → Prog σ ε β) (j : β → Prog σ ε γ) :
    m >>= k >>= j = m >>= fun a => k a >>= j := by
  funext s
  show bind (bind m k) j s = bind m (fun a => bind (k a) j) s
  unfold bind
  cases (m s).result with
  | error e => rfl
  | ok a =>
    simp only
    cases (k a (m s).after).result with
    | error e => rfl
    | ok b => simp only [List.append_assoc]

/-- A crash inside the program may leave `s'`. -/
def Crashes (m : Prog σ ε α) (s s' : σ) : Prop := s' ∈ (m s).before

end Prog

/-- The Hoare triple with a crash condition. -/
def Triple (P : σ → Prop) (m : Prog σ ε α) (Q : α → σ → Prop) (E : ε → σ → Prop) (C : σ → Prop) :
    Prop :=
  ∀ s, P s → (∀ x ∈ (m s).before, C x) ∧
    match (m s).result with
    | .ok a => Q a (m s).after
    | .error e => E e (m s).after

section Rules

variable {P P' : σ → Prop} {Q Q' : α → σ → Prop} {R : β → σ → Prop} {E E' : ε → σ → Prop}
  {C C' : σ → Prop} {m : Prog σ ε α} {k : α → Prog σ ε β}

theorem Triple.pure {a : α} (h : ∀ s, P s → Q a s) :
    Triple P (Pure.pure a : Prog σ ε α) Q E C :=
  fun s hs => ⟨fun _ hx => (List.not_mem_nil hx).elim, h s hs⟩

theorem Triple.throw {e : ε} (h : ∀ s, P s → E e s) :
    Triple P (Prog.throw e : Prog σ ε α) Q E C :=
  fun s hs => ⟨fun _ hx => (List.not_mem_nil hx).elim, h s hs⟩

/-- A call crashes in the state before it. -/
theorem Triple.call {f : σ → σ} {Q : Unit → σ → Prop} (hC : ∀ s, P s → C s)
    (h : ∀ s, P s → Q () (f s)) : Triple P (Prog.call f : Prog σ ε Unit) Q E C := by
  intro s hs
  refine ⟨fun x hx => ?_, h s hs⟩
  obtain rfl := List.mem_singleton.mp hx
  exact hC x hs

theorem Triple.bind (hm : Triple P m Q E C) (hk : ∀ a, Triple (Q a) (k a) R E C) :
    Triple P (m >>= k) R E C := by
  intro s hs
  obtain ⟨hb, hr⟩ := hm s hs
  show (∀ x ∈ (Prog.bind m k s).before, C x) ∧
    match (Prog.bind m k s).result with
    | .ok a => R a (Prog.bind m k s).after
    | .error e => E e (Prog.bind m k s).after
  unfold Prog.bind
  cases hres : (m s).result with
  | error e =>
    rw [hres] at hr
    exact ⟨hb, hr⟩
  | ok a =>
    rw [hres] at hr
    obtain ⟨hb', hr'⟩ := hk a (m s).after hr
    refine ⟨fun x hx => ?_, hr'⟩
    rcases List.mem_append.mp hx with hx | hx
    · exact hb x hx
    · exact hb' x hx

/-- The state may be looked at first: its value is the state the rest starts in. -/
theorem Triple.get_bind {k : σ → Prog σ ε β} (h : ∀ s, P s → Triple (· = s) (k s) R E C) :
    Triple P (Prog.get >>= k) R E C :=
  fun s hs => h s hs s rfl

/-- A triple may be proved for each state on its own. -/
theorem Triple.of_eq (h : ∀ s, P s → Triple (· = s) m Q E C) : Triple P m Q E C :=
  fun s hs => h s hs s rfl

theorem Triple.conseq (h : Triple P' m Q' E' C') (hP : ∀ s, P s → P' s)
    (hQ : ∀ a s, Q' a s → Q a s) (hE : ∀ e s, E' e s → E e s) (hC : ∀ s, C' s → C s) :
    Triple P m Q E C := by
  intro s hs
  obtain ⟨hb, hr⟩ := h s (hP s hs)
  refine ⟨fun x hx => hC x (hb x hx), ?_⟩
  cases hres : (m s).result with
  | ok a => rw [hres] at hr; exact hQ a _ hr
  | error e => rw [hres] at hr; exact hE e _ hr

theorem Triple.and (h : Triple P m Q E C) (h' : Triple P' m Q' E' C') :
    Triple (fun s => P s ∧ P' s) m (fun a s => Q a s ∧ Q' a s) (fun e s => E e s ∧ E' e s)
      (fun s => C s ∧ C' s) := by
  rintro s ⟨hs, hs'⟩
  obtain ⟨hb, hr⟩ := h s hs
  obtain ⟨hb', hr'⟩ := h' s hs'
  refine ⟨fun x hx => ⟨hb x hx, hb' x hx⟩, ?_⟩
  cases hres : (m s).result with
  | ok a => rw [hres] at hr hr'; exact ⟨hr, hr'⟩
  | error e => rw [hres] at hr hr'; exact ⟨hr, hr'⟩

/-- A triple that excludes errors gives the returned value. -/
theorem Triple.returns (h : Triple P m Q (fun _ _ => False) C) {s : σ} (hs : P s) :
    ∃ a, (m s).result = .ok a ∧ Q a (m s).after := by
  obtain ⟨-, hr⟩ := h s hs
  cases hres : (m s).result with
  | ok a => rw [hres] at hr; exact ⟨a, rfl, hr⟩
  | error e => rw [hres] at hr; exact hr.elim

theorem Triple.crashes (h : Triple P m Q E C) {s s' : σ} (hs : P s) (hc : m.Crashes s s') : C s' :=
  (h s hs).1 s' hc

/-- The value of a run that returned. -/
theorem Triple.ok (h : Triple P m Q E C) {s : σ} (hs : P s) {a : α} (ha : (m s).result = .ok a) :
    Q a (m s).after := by
  have hr := (h s hs).2
  rwa [ha] at hr

/-- A loop over a list keeps an invariant that may depend on the part of the list already walked. -/
theorem Triple.foldlM {γ : Type} {step : α → γ → Prog σ ε α} (I : List γ → α → σ → Prop)
    {l : List γ} (hstep : ∀ pre x post a, l = pre ++ x :: post →
      Triple (I pre a) (step a x) (I (pre ++ [x])) E C) (a : α) :
    Triple (I [] a) (l.foldlM step a) (I l) E C := by
  have key : ∀ (post pre : List γ) (a : α), l = pre ++ post →
      Triple (I pre a) (post.foldlM step a) (I l) E C := by
    intro post
    induction post with
    | nil =>
      intro pre a hl
      rw [List.append_nil] at hl
      subst hl
      exact Triple.pure fun s hs => hs
    | cons x post ih =>
      intro pre a hl
      rw [List.foldlM_cons]
      refine Triple.bind (hstep pre x post a hl) fun a' => ?_
      exact ih (pre ++ [x]) a' (by rw [hl]; simp)
  exact key l [] a rfl

end Rules

/-! ## Invariants -/

section Preserves

variable {I : σ → Prop} {m : Prog σ ε α} {k : α → Prog σ ε β}

/-- The invariant holds before every call, and when the program returns or fails. -/
def Preserves (I : σ → Prop) (m : Prog σ ε α) : Prop := Triple I m (fun _ => I) (fun _ => I) I

theorem Preserves.pure (a : α) : Preserves I (Pure.pure a : Prog σ ε α) := Triple.pure fun _ h => h

theorem Preserves.throw (e : ε) : Preserves I (Prog.throw e : Prog σ ε α) := Triple.throw fun _ h => h

theorem Preserves.call {f : σ → σ} (h : ∀ s, I s → I (f s)) : Preserves I (Prog.call f : Prog σ ε Unit) :=
  Triple.call (fun _ h => h) h

theorem Preserves.get_bind {k : σ → Prog σ ε β} (h : ∀ s, Preserves I (k s)) : Preserves I (Prog.get >>= k) :=
  Triple.get_bind fun s hs => (h s).conseq (fun _ he => he ▸ hs) (fun _ _ h => h) (fun _ _ h => h)
    fun _ h => h

theorem Preserves.bind (hm : Preserves I m) (hk : ∀ a, Preserves I (k a)) : Preserves I (m >>= k) :=
  Triple.bind hm hk

theorem Preserves.foldlM {γ : Type} {step : α → γ → Prog σ ε α} (h : ∀ a x, Preserves I (step a x))
    (l : List γ) (a : α) : Preserves I (l.foldlM step a) :=
  Triple.foldlM (fun _ _ => I) (fun _ x _ a _ => h a x) a

end Preserves

/-! ## The first call -/

section Starts

variable {m : Prog σ ε α} {k : α → Prog σ ε β} {s : σ}

/-- Run from `s`, the program makes its first call in `s`, or leaves `s` alone. -/
def StartsAt (m : Prog σ ε α) (s : σ) : Prop :=
  (m s).before.head? = some s ∨ (m s).before = [] ∧ (m s).after = s

theorem StartsAt.pure (a : α) : StartsAt (Pure.pure a : Prog σ ε α) s := Or.inr ⟨rfl, rfl⟩

theorem StartsAt.call (f : σ → σ) : StartsAt (Prog.call f : Prog σ ε Unit) s := Or.inl rfl

theorem StartsAt.get_bind {k : σ → Prog σ ε β} (h : StartsAt (k s) s) :
    StartsAt (Prog.get >>= k) s := h

theorem StartsAt.bind (hm : StartsAt m s) (hk : ∀ a, StartsAt (k a) s) : StartsAt (m >>= k) s := by
  show (Prog.bind m k s).before.head? = some s ∨
    (Prog.bind m k s).before = [] ∧ (Prog.bind m k s).after = s
  unfold Prog.bind
  rcases hm with hb | ⟨hb, ha⟩
  · left
    cases (m s).result <;> simp [hb]
  · cases (m s).result with
    | error e => exact Or.inr ⟨hb, ha⟩
    | ok a =>
      rw [hb, ha]
      exact hk a

theorem StartsAt.foldlM {γ : Type} {step : α → γ → Prog σ ε α} (h : ∀ a x, StartsAt (step a x) s)
    (l : List γ) (a : α) : StartsAt (l.foldlM step a) s := by
  induction l generalizing a with
  | nil => exact .pure a
  | cons x l ih =>
    rw [List.foldlM_cons]
    exact (h a x).bind ih

end Starts

/-! ## Two programs side by side -/

section Coupling

variable {τ γ δ : Type}

/-- The same error, or values that `V` relates. -/
def Agree (V : α → β → Prop) : Except ε α → Except ε β → Prop
  | .ok a, .ok b => V a b
  | .error e, .error e' => e = e'
  | .ok _, .error _ => False
  | .error _, .ok _ => False

/-- The two runs end in related states with results that agree. -/
def Coupled (R : σ → τ → Prop) (V : α → β → Prop) (m : Prog σ ε α) (k : Prog τ ε β) (s : σ)
    (t : τ) : Prop :=
  R (m s).after (k t).after ∧ Agree V (m s).result (k t).result

variable {R : σ → τ → Prop} {V : α → β → Prop} {W : γ → δ → Prop} {m : Prog σ ε α} {k : Prog τ ε β}
  {s : σ} {t : τ}

theorem Coupled.pure {a : α} {b : β} (hR : R s t) (hV : V a b) :
    Coupled R V (Pure.pure a : Prog σ ε α) (Pure.pure b) s t := ⟨hR, hV⟩

theorem Coupled.throw (e : ε) (hR : R s t) :
    Coupled R V (Prog.throw e : Prog σ ε α) (Prog.throw e) s t := ⟨hR, rfl⟩

theorem Coupled.call {f : σ → σ} {g : τ → τ} (hR : R (f s) (g t)) :
    Coupled R (fun _ _ => True) (Prog.call f : Prog σ ε Unit) (Prog.call g) s t := ⟨hR, trivial⟩

/-- A call that only the first program makes. -/
theorem Coupled.call_left {f : σ → σ} {m : Unit → Prog σ ε α}
    (h : Coupled R V (m ()) k (f s) t) : Coupled R V (Prog.call f >>= m) k s t := h

theorem Coupled.get_left {f : σ → Prog σ ε α} (h : Coupled R V (f s) k s t) :
    Coupled R V (Prog.get >>= f) k s t := h

theorem Coupled.get_bind {f : σ → Prog σ ε γ} {g : τ → Prog τ ε δ}
    (h : Coupled R W (f s) (g t) s t) : Coupled R W (Prog.get >>= f) (Prog.get >>= g) s t := h

/-- One after the other; the first two may end in states that a stronger relation holds of. -/
theorem Coupled.bind {R' : σ → τ → Prop} {f : α → Prog σ ε γ} {g : β → Prog τ ε δ}
    (hm : Coupled R' V m k s t) (hR' : ∀ s t, R' s t → R s t)
    (hk : ∀ a b s' t', V a b → R' s' t' → Coupled R W (f a) (g b) s' t') :
    Coupled R W (m >>= f) (k >>= g) s t := by
  obtain ⟨hR, hV⟩ := hm
  show R (Prog.bind m f s).after (Prog.bind k g t).after ∧
    Agree W (Prog.bind m f s).result (Prog.bind k g t).result
  unfold Prog.bind
  cases hres : (m s).result with
  | error e =>
    cases hres' : (k t).result with
    | error e' => rw [hres, hres'] at hV; exact ⟨hR' _ _ hR, hV⟩
    | ok b => rw [hres, hres'] at hV; exact hV.elim
  | ok a =>
    cases hres' : (k t).result with
    | error e' => rw [hres, hres'] at hV; exact hV.elim
    | ok b => rw [hres, hres'] at hV; exact hk a b _ _ hV hR

/-- A program next to itself. -/
theorem Coupled.of_triple {Q : σ → Prop} {C : σ → Prop}
    (h : Triple (· = s) m (fun _ => Q) (fun _ => Q) C) :
    Coupled (fun x y => x = y ∧ Q x) Eq m m s s := by
  have hQ := (h s rfl).2
  cases hres : (m s).result with
  | ok a => rw [hres] at hQ; exact ⟨⟨rfl, hQ⟩, by rw [hres]; rfl⟩
  | error e => rw [hres] at hQ; exact ⟨⟨rfl, hQ⟩, by rw [hres]; rfl⟩

/-- If the second program returns, so does the first. -/
theorem Coupled.ok_left (h : Coupled R V m k s t) {b : β} (hb : (k t).result = .ok b) :
    ∃ a, (m s).result = .ok a ∧ V a b := by
  have hres := h.2
  rw [hb] at hres
  cases hm : (m s).result with
  | error e => rw [hm] at hres; exact hres.elim
  | ok a => rw [hm] at hres; exact ⟨a, rfl, hres⟩

/-- The second program goes on to a value computed from its result and its state. -/
theorem Coupled.finish {V' : α → δ → Prop} {g : β → τ → δ} (h : Coupled R V m k s t)
    (hV : ∀ a b t', V a b → V' a (g b t')) :
    Coupled R V' m (k >>= fun b => Prog.get >>= fun t' => Pure.pure (g b t')) s t := by
  obtain ⟨hR, hres⟩ := h
  show R (m s).after (Prog.bind k _ t).after ∧ Agree V' (m s).result (Prog.bind k _ t).result
  unfold Prog.bind
  cases hm : (m s).result with
  | error e =>
    cases hk : (k t).result with
    | error e' => rw [hm, hk] at hres; exact ⟨hR, hres⟩
    | ok b => rw [hm, hk] at hres; exact hres.elim
  | ok a =>
    cases hk : (k t).result with
    | error e' => rw [hm, hk] at hres; exact hres.elim
    | ok b =>
      rw [hm, hk] at hres
      exact ⟨hR, hV a b _ hres⟩

/-- Two loops, the second over a part of what the first goes over, by induction on the list: the steps
that both make are related, and a step that only the first makes changes nothing the second sees. -/
theorem Coupled.foldlM {p : γ → Option δ} {step : α → γ → Prog σ ε α}
    {step' : β → δ → Prog τ ε β}
    (hkeep : ∀ x y a b s t, p x = some y → V a b → R s t → Coupled R V (step a x) (step' b y) s t)
    (hdrop : ∀ x a b s t, p x = none → V a b → R s t →
      Coupled R V (step a x) (Pure.pure b : Prog τ ε β) s t)
    (l : List γ) {a : α} {b : β} (hV : V a b) (hR : R s t) :
    Coupled R V (l.foldlM step a) ((l.filterMap p).foldlM step' b) s t := by
  induction l generalizing a b s t with
  | nil => exact Coupled.pure hR hV
  | cons x l ih =>
    rw [List.foldlM_cons]
    cases hx : p x with
    | some y =>
      rw [List.filterMap_cons_some hx, List.foldlM_cons]
      exact Coupled.bind (hkeep x y a b s t hx hV hR) (fun _ _ h => h)
        fun a' b' s' t' hV' hR' => ih hV' hR'
    | none =>
      rw [List.filterMap_cons_none hx]
      -- the second loop as one that makes an empty step first
      show Coupled R V _ (Pure.pure b >>= fun b => (l.filterMap p).foldlM step' b) s t
      exact Coupled.bind (hdrop x a b s t hx hV hR) (fun _ _ h => h)
        fun a' b' s' t' hV' hR' => ih hV' hR'

end Coupling

end CrashHoare
