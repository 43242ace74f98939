import Mathlib.Tactic

/-!
# Buffered streams

A socket whose bytes arrive in chunks, a reader that takes them through a buffer and a writer that
holds bytes back until it is flushed. A read for which not enough has arrived waits: `none`.

1. `readUntil_some`, `readExact_some`: what is read does not depend on the chunks or on the buffer.
2. `Lined P w r`: the reader `r` has read `w`, and where `P` holds inside a chunk it also holds at
   the end of that chunk. A buffer that is not empty when `P w` holds is then followed by another
   place where `P` holds, and these bytes have arrived.
-/

namespace BufferedIo

variable {β : Type}

/-! ## The socket -/

/-- A read of the socket: up to `n` of the bytes of the chunk in front. -/
def socketRead (n : ℕ) : List (List β) → Option (List β × List (List β))
  | [] => none
  | [] :: chunks => socketRead n chunks
  | (b :: chunk) :: chunks => some ((b :: chunk).take n, (b :: chunk).drop n :: chunks)

theorem socketRead_none {n : ℕ} {chunks : List (List β)} (h : socketRead n chunks = none) :
    chunks.flatten = [] := by
  fun_induction socketRead n chunks with
  | case1 => rfl
  | case2 chunks ih => exact ih h
  | case3 => cases h

theorem socketRead_some {n : ℕ} {chunks later : List (List β)} {bytes : List β} (hn : 0 < n)
    (h : socketRead n chunks = some (bytes, later)) :
    bytes ≠ [] ∧ chunks.flatten = bytes ++ later.flatten := by
  fun_induction socketRead n chunks with
  | case1 => cases h
  | case2 chunks ih => exact ih h
  | case3 b chunk chunks =>
    cases h
    constructor
    · rw [Ne, List.take_eq_nil_iff, not_or]
      exact ⟨Nat.pos_iff_ne_zero.mp hn, List.cons_ne_nil _ _⟩
    · rw [List.flatten_cons, List.flatten_cons, ← List.append_assoc, List.take_append_drop]

theorem socketRead_length {n : ℕ} {chunks later : List (List β)} {bytes : List β}
    (h : socketRead n chunks = some (bytes, later)) : bytes.length ≤ n := by
  fun_induction socketRead n chunks with
  | case1 => cases h
  | case2 chunks ih => exact ih h
  | case3 b chunk chunks =>
    cases h
    rw [List.length_take]
    exact Nat.min_le_left _ _

/-! ## The reader -/

/-- A buffered reader over a socket: its buffer, the bytes that arrive and are not read yet, and
whether the other side has closed the stream behind them. -/
structure BufReader (β : Type) where
  capacity : ℕ
  capacity_pos : 0 < capacity
  buffer : List β
  arriving : List (List β)
  closed : Bool

namespace BufReader

variable (r : BufReader β)

/-- All that is not read yet. -/
def rest : List β := r.buffer ++ r.arriving.flatten

/-- The buffer, filled if it is empty. -/
def fillBuf : Option (BufReader β) :=
  if r.buffer ≠ [] then some r
  else
    match socketRead r.capacity r.arriving with
    | some (bytes, later) => some { r with buffer := bytes, arriving := later }
    | none => if r.closed then some r else none

/-- Up to `n` bytes. A large read with an empty buffer goes to the socket directly. -/
def read (n : ℕ) : Option (List β × BufReader β) :=
  if r.buffer = [] ∧ r.capacity ≤ n then
    match socketRead n r.arriving with
    | some (bytes, later) => some (bytes, { r with arriving := later })
    | none => if r.closed then some ([], r) else none
  else r.fillBuf.map fun r => (r.buffer.take n, { r with buffer := r.buffer.drop n })

variable {r} {r' : BufReader β}

theorem fillBuf_rest (h : r.fillBuf = some r') : r'.rest = r.rest := by
  unfold fillBuf at h
  split at h
  · cases h
    rfl
  · rename_i hb
    rw [not_not] at hb
    split at h
    · rename_i bytes later hs
      cases h
      unfold rest
      rw [hb, (socketRead_some r.capacity_pos hs).2, List.nil_append]
    · split at h <;> cases h
      rfl

theorem fillBuf_empty (h : r.fillBuf = some r') (he : r'.buffer = []) : r'.rest = [] := by
  unfold fillBuf at h
  split at h
  · rename_i hb
    cases h
    exact absurd he hb
  · rename_i hb
    rw [not_not] at hb
    split at h
    · rename_i bytes later hs
      cases h
      exact absurd he (socketRead_some r.capacity_pos hs).1
    · rename_i hs
      split at h <;> cases h
      rw [rest, hb, socketRead_none hs, List.nil_append]

theorem fillBuf_none (h : r.fillBuf = none) : r.rest = [] ∧ r.closed = false := by
  unfold fillBuf at h
  split at h
  · cases h
  · rename_i hb
    rw [not_not] at hb
    split at h
    · cases h
    · rename_i hs
      split at h
      · cases h
      · rename_i hc
        rw [rest, hb, socketRead_none hs, List.nil_append]
        exact ⟨rfl, Bool.eq_false_iff.mpr hc⟩

end BufReader

/-! ## Places inside the chunks -/

/-- Where `P` holds inside a chunk it also holds at the end of the chunk; `w` comes before. -/
def EndWith (P : List β → Prop) (w : List β) : List (List β) → Prop
  | [] => True
  | c :: chunks =>
    (∀ c₁ c₂, c = c₁ ++ c₂ → c₁ ≠ [] → P (w ++ c₁) → P (w ++ c)) ∧ EndWith P (w ++ c) chunks

theorem EndWith.socketRead {P : List β → Prop} {w bytes : List β} {n : ℕ}
    {chunks later : List (List β)} (h : EndWith P w chunks)
    (hs : socketRead n chunks = some (bytes, later)) : EndWith P (w ++ bytes) later ∧
      ∀ b₁ b₂, bytes = b₁ ++ b₂ → b₁ ≠ [] → P (w ++ b₁) →
        ∃ x, x <+: later.flatten ∧ P (w ++ bytes ++ x) := by
  fun_induction BufferedIo.socketRead n chunks generalizing w with
  | case1 => cases hs
  | case2 chunks ih =>
    have hlater := h.2
    rw [List.append_nil] at hlater
    exact ih hlater hs
  | case3 b chunk chunks =>
    cases hs
    generalize b :: chunk = c at h
    have hc : c.take n ++ c.drop n = c := List.take_append_drop n c
    refine ⟨⟨?_, ?_⟩, ?_⟩
    · intro c₁ c₂ hsplit hne hP
      rw [List.append_assoc] at hP ⊢
      rw [hc]
      refine h.1 (c.take n ++ c₁) c₂ ?_ ?_ hP
      · rw [List.append_assoc, ← hsplit, hc]
      · exact fun hnil => hne (List.append_eq_nil_iff.mp hnil).2
    · rw [List.append_assoc, hc]
      exact h.2
    · intro b₁ b₂ hsplit hne hP
      refine ⟨c.drop n, List.prefix_append _ _, ?_⟩
      rw [List.append_assoc, hc]
      refine h.1 b₁ (b₂ ++ c.drop n) ?_ hne hP
      rw [← List.append_assoc, ← hsplit, hc]

/-- The reader has read `w`, and its buffer may just have been filled. -/
structure Filled (P : List β → Prop) (w : List β) (r : BufReader β) : Prop where
  later : EndWith P (w ++ r.buffer) r.arriving
  inside : ∀ b₁ b₂, r.buffer = b₁ ++ b₂ → b₁ ≠ [] → P (w ++ b₁) →
    ∃ x, x <+: r.arriving.flatten ∧ P (w ++ r.buffer ++ x)

/-- The reader has read `w`, and its buffer is what is left of the read that gave the end of `w`. -/
structure Lined (P : List β → Prop) (w : List β) (r : BufReader β) : Prop extends Filled P w r where
  here : r.buffer ≠ [] → P w → ∃ x, x <+: r.arriving.flatten ∧ P (w ++ r.buffer ++ x)

/-- A reader with an empty buffer. -/
theorem Lined.of_empty {P : List β → Prop} {w : List β} {r : BufReader β} (hb : r.buffer = [])
    (h : EndWith P w r.arriving) : Lined P w r where
  later := by rwa [hb, List.append_nil]
  inside := by
    intro b₁ b₂ hsplit hne
    rw [hb] at hsplit
    exact absurd (List.append_eq_nil_iff.mp hsplit.symm).1 hne
  here := fun hne => absurd hb hne

theorem Filled.fillBuf {P : List β → Prop} {w : List β} {r r' : BufReader β} (h : Filled P w r)
    (hf : r.fillBuf = some r') : Filled P w r' := by
  unfold BufReader.fillBuf at hf
  split at hf
  · cases hf
    exact h
  · rename_i hb
    rw [not_not] at hb
    have hlater := h.later
    rw [hb, List.append_nil] at hlater
    split at hf
    · rename_i bytes later hs
      cases hf
      exact ⟨(hlater.socketRead hs).1, (hlater.socketRead hs).2⟩
    · split at hf <;> cases hf
      exact h

/-- Some of the buffer is read. -/
theorem Filled.consume {P : List β → Prop} {w a b : List β} {r : BufReader β} (h : Filled P w r)
    (hb : r.buffer = a ++ b) (ha : a ≠ []) : Lined P (w ++ a) { r with buffer := b } where
  later := by
    have hlater := h.later
    rwa [hb, ← List.append_assoc] at hlater
  inside := by
    intro b₁ b₂ hsplit _ hP
    have := h.inside (a ++ b₁) b₂ (by rw [hb, List.append_assoc, ← hsplit])
      (fun hnil => ha (List.append_eq_nil_iff.mp hnil).1) (by rwa [← List.append_assoc])
    rwa [hb, ← List.append_assoc w] at this
  here := by
    intro _ hP
    have := h.inside a b hb ha hP
    rwa [hb, ← List.append_assoc w] at this

/-! ## Reads -/

/-- `r'` is `r` after the bytes `w` are read. -/
structure After (r : BufReader β) (w : List β) (r' : BufReader β) : Prop where
  rest : r.rest = w ++ r'.rest
  closed : r'.closed = r.closed
  filled : ∀ {P v}, Filled P v r → Filled P (v ++ w) r'
  lined : ∀ {P v}, Filled P v r → w ≠ [] ∨ Lined P v r → Lined P (v ++ w) r'

theorem After.refl (r : BufReader β) : After r [] r where
  rest := rfl
  closed := rfl
  filled := by
    intro P v h
    rwa [List.append_nil]
  lined := by
    intro P v _ h
    rw [List.append_nil]
    exact h.resolve_left fun hne => hne rfl

theorem After.trans {r r₁ r₂ : BufReader β} {w w' : List β} (h : After r w r₁)
    (h' : After r₁ w' r₂) : After r (w ++ w') r₂ where
  rest := by rw [h.rest, h'.rest, List.append_assoc]
  closed := h'.closed.trans h.closed
  filled := by
    intro P v hf
    rw [← List.append_assoc]
    exact h'.filled (h.filled hf)
  lined := by
    intro P v hf hw
    rw [← List.append_assoc]
    apply h'.lined (h.filled hf)
    by_cases hw' : w' = []
    · subst hw'
      rw [List.append_nil] at hw
      exact Or.inr (h.lined hf hw)
    · exact Or.inl hw'

namespace BufReader

variable {r r' : BufReader β}

/-- The buffer is filled, and its front is read. -/
theorem after_fillBuf {a b : List β} (h : r.fillBuf = some r') (hb : r'.buffer = a ++ b)
    (ha : a ≠ []) : After r a { r' with buffer := b } where
  rest := by
    rw [← fillBuf_rest h]
    unfold rest
    rw [hb, List.append_assoc]
  closed := by
    unfold fillBuf at h
    grind
  filled := fun hf => ((hf.fillBuf h).consume hb ha).toFilled
  lined := fun hf _ => (hf.fillBuf h).consume hb ha

theorem fillBuf_end (h : r.fillBuf = some r') (he : r'.buffer = []) : r' = r := by
  unfold fillBuf at h
  split at h
  · cases h
    rfl
  · split at h
    · rename_i hs
      cases h
      exact absurd he (socketRead_some r.capacity_pos hs).1
    · split at h <;> cases h
      rfl

/-- A read of at least one byte gives one, or the stream is at its end. -/
theorem read_some {n : ℕ} {bytes : List β} (hn : 0 < n) (h : r.read n = some (bytes, r')) :
    After r bytes r' ∧ bytes.length ≤ n ∧ (bytes = [] → r.rest = []) := by
  unfold read at h
  split at h
  · rename_i hb
    split at h
    · rename_i later hs
      cases h
      obtain ⟨hne, hflat⟩ := socketRead_some hn hs
      have hlined : ∀ {P v}, Filled P v r → Lined P (v ++ bytes) { r with arriving := later } := by
        intro P v hf
        have hlater := hf.later
        rw [hb.1, List.append_nil] at hlater
        exact .of_empty hb.1 (hlater.socketRead hs).1
      refine ⟨⟨?_, rfl, fun hf => (hlined hf).toFilled, fun hf _ => hlined hf⟩, ?_, fun he => absurd he hne⟩
      · unfold rest
        rw [hb.1, hflat]
        rfl
      · exact socketRead_length hs
    · rename_i hs
      split at h <;> cases h
      refine ⟨.refl r, Nat.zero_le _, fun _ => ?_⟩
      rw [rest, hb.1, socketRead_none hs, List.nil_append]
  · obtain ⟨r₁, hfill, he⟩ := Option.map_eq_some_iff.mp h
    cases he
    have hlen : (r₁.buffer.take n).length ≤ n := by
      rw [List.length_take]
      exact Nat.min_le_left _ _
    by_cases hb : r₁.buffer = []
    · have hr := fillBuf_end hfill hb
      subst hr
      have hsame : { r₁ with buffer := r₁.buffer.drop n } = r₁ := by rw [hb, List.drop_nil, ← hb]
      rw [hsame, hb, List.take_nil]
      exact ⟨.refl r₁, Nat.zero_le _, fun _ => fillBuf_empty hfill hb⟩
    · have hne : r₁.buffer.take n ≠ [] := by
        rw [Ne, List.take_eq_nil_iff, not_or]
        exact ⟨Nat.pos_iff_ne_zero.mp hn, hb⟩
      exact ⟨after_fillBuf hfill (List.take_append_drop n _).symm hne, hlen, fun he => absurd he hne⟩

theorem read_none {n : ℕ} (h : r.read n = none) : r.rest = [] ∧ r.closed = false := by
  unfold read at h
  split at h
  · rename_i hb
    split at h
    · cases h
    · rename_i hs
      split at h
      · cases h
      · rename_i hc
        rw [rest, hb.1, socketRead_none hs, List.nil_append]
        exact ⟨rfl, Bool.eq_false_iff.mpr hc⟩
  · exact fillBuf_none (Option.map_eq_none_iff.mp h)

/-- Exactly `n` bytes, or fewer if the stream ends. -/
def readExact (n : ℕ) (r : BufReader β) : Option (List β × BufReader β) :=
  if _hn : n = 0 then some ([], r)
  else
    match _h : r.read n with
    | none => none
    | some ([], r') => some ([], r')
    | some (b :: bytes, r') =>
      (readExact (n - (b :: bytes).length) r').map fun x => (b :: bytes ++ x.1, x.2)
termination_by n
decreasing_by
  rw [List.length_cons]
  omega

theorem readExact_some {n : ℕ} {data : List β} (h : r.readExact n = some (data, r')) :
    After r data r' ∧ data = r.rest.take n := by
  fun_induction readExact n r generalizing data with
  | case1 =>
    cases h
    exact ⟨.refl _, List.take_zero.symm⟩
  | case2 => cases h
  | case3 n r hn r₁ hr =>
    cases h
    obtain ⟨hafter, -, hend⟩ := read_some (Nat.pos_of_ne_zero hn) hr
    rw [hend rfl, List.take_nil]
    exact ⟨hafter, rfl⟩
  | case4 n r hn b bytes r₁ hr ih =>
    obtain ⟨x, hx, he⟩ := Option.map_eq_some_iff.mp h
    cases he
    obtain ⟨hafter, hlen, -⟩ := read_some (Nat.pos_of_ne_zero hn) hr
    obtain ⟨hmore, hdata⟩ := ih hx
    refine ⟨hafter.trans hmore, ?_⟩
    rw [hafter.rest, List.take_append, List.take_of_length_le hlen, ← hdata]

theorem readExact_none {n : ℕ} (h : r.readExact n = none) :
    r.rest.length < n ∧ r.closed = false := by
  fun_induction readExact n r with
  | case1 => cases h
  | case2 n r hn hr =>
    obtain ⟨hrest, hc⟩ := read_none hr
    rw [hrest]
    exact ⟨Nat.pos_of_ne_zero hn, hc⟩
  | case3 => cases h
  | case4 n r hn b bytes r₁ hr ih =>
    obtain ⟨hafter, hlen, -⟩ := read_some (Nat.pos_of_ne_zero hn) hr
    obtain ⟨hshort, hc⟩ := ih (Option.map_eq_none_iff.mp h)
    rw [hafter.rest, List.length_append]
    exact ⟨by omega, hafter.closed ▸ hc⟩

section Until

variable [DecidableEq β]

/-- The bytes up to and including the first `stop`, or all if the stream ends before. -/
def readUntil (stop : β) (r : BufReader β) : Option (List β × BufReader β) :=
  match _h : r.fillBuf with
  | none => none
  | some r' =>
    if _hb : r'.buffer = [] then some ([], r')
    else if stop ∈ r'.buffer then
      let used := r'.buffer.idxOf stop + 1
      some (r'.buffer.take used, { r' with buffer := r'.buffer.drop used })
    else (readUntil stop { r' with buffer := [] }).map fun x => (r'.buffer ++ x.1, x.2)
termination_by r.rest.length
decreasing_by
  have hpos := List.length_pos_iff.mpr _hb
  rw [← fillBuf_rest _h]
  simp only [rest, List.length_append, List.length_nil]
  omega

theorem readUntil_some {stop : β} {line : List β} (h : r.readUntil stop = some (line, r')) :
    After r line r' ∧ line = r.rest.take (r.rest.idxOf stop + 1) ∧ (stop ∉ line → r'.rest = []) := by
  fun_induction readUntil stop r generalizing line with
  | case1 => cases h
  | case2 r r₁ hf hb =>
    cases h
    have hr := fillBuf_end hf hb
    subst hr
    rw [fillBuf_empty hf hb, List.take_nil]
    exact ⟨.refl _, rfl, fun _ => rfl⟩
  | case3 r r₁ hf hb hmem =>
    cases h
    set used := r₁.buffer.idxOf stop + 1 with hused
    have hlt : r₁.buffer.idxOf stop < r₁.buffer.length := List.idxOf_lt_length_iff.mpr hmem
    have hsplit : r₁.buffer = r₁.buffer.take used ++ r₁.buffer.drop used :=
      (List.take_append_drop used _).symm
    have hin : stop ∈ r₁.buffer.take used := by
      rw [List.mem_take_iff_getElem]
      exact ⟨_, by omega, List.getElem_idxOf hlt⟩
    refine ⟨after_fillBuf hf hsplit (List.ne_nil_of_mem hin), ?_, fun hno => absurd hin hno⟩
    rw [← fillBuf_rest hf, rest, List.idxOf_append_of_mem hmem, List.take_append_of_le_length]
    exact hlt
  | case4 r r₁ hf hb hmem ih =>
    obtain ⟨x, hx, he⟩ := Option.map_eq_some_iff.mp h
    cases he
    obtain ⟨hmore, hline, hend⟩ := ih hx
    have hafter := after_fillBuf hf (List.append_nil r₁.buffer).symm hb
    refine ⟨hafter.trans hmore, ?_, fun hno => hend fun hin => hno (List.mem_append_right _ hin)⟩
    rw [hafter.rest, List.idxOf_append_of_notMem hmem, Nat.add_assoc, List.take_length_add_append,
      ← hline]

theorem readUntil_none {stop : β} (h : r.readUntil stop = none) :
    stop ∉ r.rest ∧ r.closed = false := by
  fun_induction readUntil stop r with
  | case1 r hf =>
    obtain ⟨hrest, hc⟩ := fillBuf_none hf
    rw [hrest]
    exact ⟨List.not_mem_nil, hc⟩
  | case2 => cases h
  | case3 => cases h
  | case4 r r₁ hf hb hmem ih =>
    obtain ⟨hno, hc⟩ := ih (Option.map_eq_none_iff.mp h)
    have hafter := after_fillBuf hf (List.append_nil r₁.buffer).symm hb
    rw [hafter.rest, List.mem_append, not_or]
    exact ⟨⟨hmem, hno⟩, hafter.closed ▸ hc⟩

end Until

end BufReader

/-! ## The writer -/

/-- A buffered writer: the bytes it holds, and those it has passed on. -/
structure BufWriter (β : Type) where
  capacity : ℕ
  buffer : List β
  sent : List β

namespace BufWriter

def flush (w : BufWriter β) : BufWriter β := { w with buffer := [], sent := w.sent ++ w.buffer }

/-- Bytes that do not fit push out the buffer, and bytes as large as the buffer do not go through it. -/
def writeAll (w : BufWriter β) (bytes : List β) : BufWriter β :=
  if bytes.length < w.capacity - w.buffer.length then { w with buffer := w.buffer ++ bytes }
  else
    let w := if bytes.length > w.capacity - w.buffer.length then w.flush else w
    if bytes.length ≥ w.capacity then { w with sent := w.sent ++ bytes }
    else { w with buffer := w.buffer ++ bytes }

/-- All that was written. -/
def written (w : BufWriter β) : List β := w.sent ++ w.buffer

@[simp] theorem flush_written (w : BufWriter β) : w.flush.written = w.written :=
  List.append_nil _

@[simp] theorem writeAll_written (w : BufWriter β) (bytes : List β) :
    (w.writeAll bytes).written = w.written ++ bytes := by
  unfold writeAll
  split
  · exact (List.append_assoc _ _ _).symm
  · rename_i hfit
    dsimp only
    split
    · split
      · simp only [written, flush, List.append_assoc, List.append_nil]
      · simp only [written, flush, List.append_assoc, List.nil_append]
    · split
      · -- the bytes fill an empty buffer
        have hone : w.buffer = [] ∨ bytes = [] := by
          rw [← List.length_eq_zero_iff, ← List.length_eq_zero_iff]
          omega
        rcases hone with hb | hb <;> simp only [written, hb, List.append_nil]
      · exact (List.append_assoc _ _ _).symm

end BufWriter

end BufferedIo
