import Bitcask.Storage.IndexValue

/-!
# Framing

`RecordReader` cuts a byte stream into records by the length field of each header, before any
checksum is looked at. The same reader frames data files and hint files.

1. `IsFrame b`: `b` is exactly one header and the body its length field claims. Encoded commands
   and hint records are frames.
2. `Torn b`: `b` is shorter than a header, or than the header plus its claimed body.
3. `frame_cases`: any byte string is empty, torn, or starts with a frame; `nextRecord` tells the
   three apart (`nextRecord_nil`, `nextRecord_torn`, `nextRecord_frame`).
4. `forRecords` is the `loop` around `next_record`; `forRecords_done` runs it over a sequence of
   frames.
-/

namespace Bitcask

open LittleEndian

inductive RecordRead
  | record (position : ℕ) (bytes : Bytes)
  | cleanEof
  | tornTail (position : ℕ)
  deriving DecidableEq, Repr

/-- The unread bytes of the stream, the position of the next record and the claimed file length.
The buffer it reuses is left out: no call reads what an earlier one left there
(`BufRecordReader.nextRecord_forget`). -/
structure RecordReader where
  reader : Bytes
  position : ℕ
  fileLen : ℕ
  deriving DecidableEq, Repr

namespace RecordReader

def new (reader : Bytes) (fileLen : ℕ) : RecordReader := ⟨reader, 0, fileLen⟩

/-- `next_record`; `none` is the panic of the unsigned subtraction `file_len - start - 8`. A
`read_exact` that meets the end of the stream has consumed what was left of it. -/
def nextRecord (r : RecordReader) : Option (RecordRead × RecordReader) :=
  if r.reader.length < headerLen then
    if r.position = r.fileLen then some (.cleanEof, { r with reader := [] })
    else some (.tornTail r.position, { r with reader := [] })
  else if r.fileLen < r.position + headerLen then none
  else
    let bodyLen := Command.bodyLen (r.reader.take headerLen)
    let rest := r.reader.drop headerLen
    if bodyLen > r.fileLen - r.position - headerLen then
      some (.tornTail r.position, { r with reader := rest })
    else if rest.length < bodyLen then some (.tornTail r.position, { r with reader := [] })
    else
      some (.record r.position (r.reader.take (headerLen + bodyLen)),
        { r with reader := rest.drop bodyLen, position := r.position + headerLen + bodyLen })

end RecordReader

/-! ## Frames -/

/-- One header and the body it claims. -/
def IsFrame (b : Bytes) : Prop :=
  headerLen ≤ b.length ∧ b.length = headerLen + Command.bodyLen (b.take headerLen)

/-- A nonempty rest that is no whole record. -/
def Torn (b : Bytes) : Prop :=
  b ≠ [] ∧ (b.length < headerLen ∨ b.length < headerLen + Command.bodyLen (b.take headerLen))

instance : DecidablePred IsFrame := fun _ =>
  inferInstanceAs (Decidable (_ ∧ _))

instance : DecidablePred Torn := fun _ =>
  inferInstanceAs (Decidable (_ ∧ _))

theorem IsFrame.serialize (crc : Bytes → UInt32) {c : Command} (h : c.Fits) :
    IsFrame (c.serialize crc) := by
  have hb := Command.bodyLen_serialize crc h []
  rw [List.append_nil] at hb
  refine ⟨?_, ?_⟩
  · rw [Command.length_serialize]; omega
  · rw [Command.length_serialize, hb]

theorem IsFrame.hint (crc : Bytes → UInt32) {iv : IndexValue} {key : Bytes}
    (h : IndexValue.encodedBodyLen key < 2 ^ 32) : IsFrame (iv.serialize crc key) := by
  have hb := IndexValue.bodyLen_serialize crc iv h []
  rw [List.append_nil] at hb
  refine ⟨?_, ?_⟩
  · rw [IndexValue.length_serialize]; omega
  · rw [IndexValue.length_serialize, hb]

theorem IsFrame.ne_nil {b : Bytes} (h : IsFrame b) : b ≠ [] := by
  rintro rfl
  have := h.1
  simp [headerLen] at this

theorem IsFrame.take_header {b : Bytes} (h : IsFrame b) (rest : Bytes) :
    (b ++ rest).take headerLen = b.take headerLen := List.take_append_of_le_length h.1

/-- A byte string is empty, torn or starts with a frame. -/
theorem frame_cases (b : Bytes) :
    b = [] ∨ Torn b ∨ ∃ f rest, b = f ++ rest ∧ IsFrame f := by
  by_cases hnil : b = []
  · exact Or.inl hnil
  by_cases hshort : b.length < headerLen
  · exact Or.inr (Or.inl ⟨hnil, Or.inl hshort⟩)
  by_cases hbody : b.length < headerLen + Command.bodyLen (b.take headerLen)
  · exact Or.inr (Or.inl ⟨hnil, Or.inr hbody⟩)
  · refine Or.inr (Or.inr ⟨b.take (headerLen + Command.bodyLen (b.take headerLen)),
      b.drop (headerLen + Command.bodyLen (b.take headerLen)), (List.take_append_drop _ _).symm, ?_⟩)
    have hmin : min headerLen (headerLen + Command.bodyLen (b.take headerLen)) = headerLen := by omega
    unfold IsFrame
    rw [List.length_take, List.take_take, hmin]
    omega

/-- What starts with a frame is neither empty nor torn. -/
theorem IsFrame.not_torn {f : Bytes} (h : IsFrame f) (rest : Bytes) :
    ¬ (f ++ rest = [] ∨ Torn (f ++ rest)) := by
  rintro (hnil | ⟨-, hshort⟩)
  · exact h.ne_nil (List.append_eq_nil_iff.mp hnil).1
  · have hlen := h.2
    have h8 := h.1
    rw [h.take_header, List.length_append] at hshort
    omega

/-- The first frame is determined by its header. -/
theorem IsFrame.eq_of_append {f g r s : Bytes} (hf : IsFrame f) (hg : IsFrame g)
    (h : f ++ r = g ++ s) : f = g ∧ r = s := by
  have hhead : f.take headerLen = g.take headerLen := by
    rw [← hf.take_header r, h, hg.take_header]
  exact List.append_inj h (by rw [hf.2, hg.2, hhead])

/-- A strict prefix of a frame is empty or torn. -/
theorem IsFrame.take_torn {b : Bytes} (h : IsFrame b) {n : ℕ} (h0 : 0 < n) (hn : n < b.length) :
    Torn (b.take n) := by
  have hlen : (b.take n).length = n := by rw [List.length_take]; omega
  refine ⟨fun he => by rw [he] at hlen; simp at hlen; omega, ?_⟩
  by_cases hn8 : n < headerLen
  · exact Or.inl (by rw [hlen]; exact hn8)
  · right
    rw [hlen, List.take_take, Nat.min_eq_left (by omega), ← h.2]
    exact hn

namespace RecordReader

theorem nextRecord_nil (p : ℕ) : nextRecord ⟨[], p, p⟩ = some (.cleanEof, ⟨[], p, p⟩) := by
  simp [nextRecord, headerLen]

/-- A frame that ends inside the claimed length is read, whatever follows it. -/
theorem nextRecord_frame_le {b : Bytes} (hb : IsFrame b) (rest : Bytes) {p fileLen : ℕ}
    (hle : p + b.length ≤ fileLen) :
    nextRecord ⟨b ++ rest, p, fileLen⟩ = some (.record p b, ⟨rest, p + b.length, fileLen⟩) := by
  obtain ⟨h8, hlen⟩ := hb
  unfold nextRecord
  have htake : (b ++ rest).take headerLen = b.take headerLen := List.take_append_of_le_length h8
  have hall : (b ++ rest).length = b.length + rest.length := List.length_append
  simp only [htake, hall]
  rw [if_neg (by omega), if_neg (by omega), if_neg (by omega),
    if_neg (by rw [List.length_drop, hall]; omega)]
  simp only [List.drop_drop, ← hlen, List.take_left, List.drop_left, Nat.add_assoc]

theorem nextRecord_frame {b : Bytes} (hb : IsFrame b) (rest : Bytes) (p : ℕ) :
    nextRecord ⟨b ++ rest, p, p + (b ++ rest).length⟩ =
      some (.record p b, ⟨rest, p + b.length, p + (b ++ rest).length⟩) :=
  nextRecord_frame_le hb rest (by rw [List.length_append]; omega)

theorem nextRecord_torn {b : Bytes} (hb : Torn b) (p : ℕ) :
    ∃ rest, nextRecord ⟨b, p, p + b.length⟩ = some (.tornTail p, ⟨rest, p, p + b.length⟩) := by
  obtain ⟨hne, hb⟩ := hb
  have hpos : 0 < b.length := List.length_pos_iff.mpr hne
  unfold nextRecord
  by_cases h8 : b.length < headerLen
  · exact ⟨[], by simp only [h8, if_true]; rw [if_neg (by omega)]⟩
  · refine ⟨b.drop headerLen, ?_⟩
    have hbody := hb.resolve_left h8
    simp only [h8, if_false]
    rw [if_neg (by omega), if_pos (by omega)]

end RecordReader

/-! ## The loop around `next_record` -/

/-- How a loop over the records of a stream ends: at the end of the stream, with the position of
a torn tail if there is one; at a record the body refused, with the state reached; or in a panic. -/
inductive Loop (ε σ : Type)
  | done (s : σ) (torn : Option ℕ)
  | stop (s : σ) (e : ε)
  | panic

/-- `loop { match reader.next_record()? { Record => body, CleanEof => break, TornTail => … } }`. -/
def forRecords {ε σ : Type} (body : σ → ℕ → Bytes → Except ε σ) :
    ℕ → RecordReader → σ → Loop ε σ
  | 0, _, _ => .panic
  | fuel + 1, r, s =>
    match r.nextRecord with
    | none => .panic
    | some (.cleanEof, _) => .done s none
    | some (.tornTail p, _) => .done s (some p)
    | some (.record p b, r') =>
      match body s p b with
      | .error e => .stop s e
      | .ok s' => forRecords body fuel r' s'

/-- The loop over the whole of a byte string; every record has at least one byte, so the fuel
cannot run out. -/
def forRecordsOf {ε σ : Type} (body : σ → ℕ → Bytes → Except ε σ) (b : Bytes) (s : σ) :
    Loop ε σ :=
  forRecords body (b.length + 1) (RecordReader.new b b.length) s

section Loop

variable {ε σ : Type} (body : σ → ℕ → Bytes → Except ε σ)

/-- The body run over a list of records, each at its position. -/
def foldRecords : ℕ → List Bytes → σ → Except ε σ
  | _, [], s => .ok s
  | p, b :: bs, s => body s p b >>= foldRecords (p + b.length) bs

/-- The position of the torn tail a rest leaves. -/
def tornAt (p : ℕ) (rest : Bytes) : Option ℕ := if rest = [] then none else some p

variable {body}

theorem forRecords_done {bs : List Bytes} (hbs : ∀ b ∈ bs, IsFrame b) {rest : Bytes}
    (hrest : rest = [] ∨ Torn rest) {p : ℕ} {s s' : σ} (h : foldRecords body p bs s = .ok s')
    (fuel : ℕ) (hfuel : bs.length < fuel) :
    forRecords body fuel ⟨bs.flatten ++ rest, p, p + (bs.flatten ++ rest).length⟩ s =
      .done s' (tornAt (p + bs.flatten.length) rest) := by
  induction bs generalizing p s fuel with
  | nil =>
    cases fuel with
    | zero => omega
    | succ fuel =>
      simp only [foldRecords, Except.ok.injEq] at h
      subst h
      simp only [List.flatten_nil, List.nil_append, List.length_nil, Nat.add_zero]
      rcases hrest with rfl | ht
      · simp [forRecords, RecordReader.nextRecord_nil, tornAt]
      · obtain ⟨r', hr'⟩ := RecordReader.nextRecord_torn ht p
        simp [forRecords, hr', tornAt, ht.1]
  | cons b bs ih =>
    cases fuel with
    | zero => omega
    | succ fuel =>
      obtain ⟨s1, h1, h2⟩ := bind_eq_ok.mp h
      have hb := hbs b List.mem_cons_self
      have hshape : (b :: bs).flatten ++ rest = b ++ (bs.flatten ++ rest) := by
        rw [List.flatten_cons, List.append_assoc]
      rw [hshape]
      unfold forRecords
      rw [RecordReader.nextRecord_frame hb]
      simp only [h1]
      have hrun := ih (fun x hx => hbs x (List.mem_cons_of_mem _ hx)) h2 fuel
        (by simp only [List.length_cons] at hfuel; omega)
      rw [List.length_append, ← Nat.add_assoc, hrun, List.flatten_cons, List.length_append,
        Nat.add_assoc]

/-- A sequence of frames has at least as many bytes as records. -/
theorem length_le_flatten {bs : List Bytes} (hbs : ∀ b ∈ bs, IsFrame b) :
    bs.length ≤ bs.flatten.length := by
  induction bs with
  | nil => simp
  | cons b bs ih =>
    have hb := hbs b List.mem_cons_self
    have h8 := hb.1
    have := ih (fun x hx => hbs x (List.mem_cons_of_mem _ hx))
    unfold headerLen at h8
    simp only [List.length_cons, List.flatten_cons, List.length_append]
    omega

/-- The loop over a file made of whole records and at most a torn tail. -/
theorem forRecordsOf_done {bs : List Bytes} (hbs : ∀ b ∈ bs, IsFrame b) {rest : Bytes}
    (hrest : rest = [] ∨ Torn rest) {s s' : σ} (h : foldRecords body 0 bs s = .ok s') :
    forRecordsOf body (bs.flatten ++ rest) s = .done s' (tornAt bs.flatten.length rest) := by
  have hl := length_le_flatten hbs
  have hrun := forRecords_done hbs hrest h ((bs.flatten ++ rest).length + 1)
    (by rw [List.length_append]; omega)
  rwa [Nat.zero_add, Nat.zero_add] at hrun

/-- The loop stops at a record the body refuses, with the state the records before it left. -/
theorem forRecords_stop {bs : List Bytes} (hbs : ∀ b ∈ bs, IsFrame b) {f : Bytes}
    (hf : IsFrame f) (rest : Bytes) {p : ℕ} {s s' : σ} {e : ε} (h : foldRecords body p bs s = .ok s')
    (he : body s' (p + bs.flatten.length) f = .error e) (fuel : ℕ) (hfuel : bs.length < fuel) :
    forRecords body fuel
      ⟨bs.flatten ++ (f ++ rest), p, p + (bs.flatten ++ (f ++ rest)).length⟩ s = .stop s' e := by
  induction bs generalizing p s fuel with
  | nil =>
    cases fuel with
    | zero => omega
    | succ fuel =>
      simp only [foldRecords, Except.ok.injEq] at h
      subst h
      rw [List.flatten_nil, List.length_nil, Nat.add_zero] at he
      rw [List.flatten_nil, List.nil_append, forRecords, RecordReader.nextRecord_frame hf]
      simp only [he]
  | cons b bs ih =>
    cases fuel with
    | zero => omega
    | succ fuel =>
      obtain ⟨s1, h1, h2⟩ := bind_eq_ok.mp h
      have hb := hbs b List.mem_cons_self
      have hshape : (b :: bs).flatten ++ (f ++ rest) = b ++ (bs.flatten ++ (f ++ rest)) := by
        rw [List.flatten_cons, List.append_assoc]
      rw [List.flatten_cons, List.length_append, ← Nat.add_assoc] at he
      rw [hshape]
      unfold forRecords
      rw [RecordReader.nextRecord_frame hb]
      simp only [h1]
      have hrun := ih (fun x hx => hbs x (List.mem_cons_of_mem _ hx)) h2 he
        fuel (by simp only [List.length_cons] at hfuel; omega)
      rw [List.length_append, ← Nat.add_assoc, hrun]

theorem forRecordsOf_stop {bs : List Bytes} (hbs : ∀ b ∈ bs, IsFrame b) {f : Bytes}
    (hf : IsFrame f) (rest : Bytes) {s s' : σ} {e : ε} (h : foldRecords body 0 bs s = .ok s')
    (he : body s' bs.flatten.length f = .error e) :
    forRecordsOf body (bs.flatten ++ (f ++ rest)) s = .stop s' e := by
  have hl := length_le_flatten hbs
  have hrun := forRecords_stop hbs hf rest h (by rwa [Nat.zero_add])
    ((bs.flatten ++ (f ++ rest)).length + 1) (by rw [List.length_append]; omega)
  rwa [Nat.zero_add] at hrun

/-- Conversely, a loop that reached the end went over the frames of the file. -/
theorem forRecords_inv {fuel p : ℕ} {b : Bytes} {s s' : σ} {torn : Option ℕ}
    (h : forRecords body fuel ⟨b, p, p + b.length⟩ s = .done s' torn) :
    ∃ bs rest, b = bs.flatten ++ rest ∧ (∀ x ∈ bs, IsFrame x) ∧ (rest = [] ∨ Torn rest) ∧
      foldRecords body p bs s = .ok s' ∧ torn = tornAt (p + bs.flatten.length) rest := by
  induction fuel generalizing b p s with
  | zero => simp [forRecords] at h
  | succ fuel ih =>
    rcases frame_cases b with rfl | ht | ⟨f, rest, rfl, hf⟩
    · simp only [forRecords, List.length_nil, Nat.add_zero, RecordReader.nextRecord_nil,
        Loop.done.injEq] at h
      obtain ⟨rfl, rfl⟩ := h
      exact ⟨[], [], rfl, by simp, Or.inl rfl, rfl, by simp [tornAt]⟩
    · obtain ⟨r', hr'⟩ := RecordReader.nextRecord_torn ht p
      simp only [forRecords, hr', Loop.done.injEq] at h
      obtain ⟨rfl, rfl⟩ := h
      exact ⟨[], b, rfl, by simp, Or.inr ht, rfl, by simp [tornAt, ht.1]⟩
    · unfold forRecords at h
      rw [RecordReader.nextRecord_frame hf] at h
      simp only at h
      cases hbody : body s p f with
      | error e => rw [hbody] at h; cases h
      | ok s1 =>
        rw [hbody] at h
        simp only [List.length_append, ← Nat.add_assoc] at h
        obtain ⟨bs, tail, rfl, hbs, htail, hfold, htorn⟩ := ih h
        refine ⟨f :: bs, tail, by simp, ?_, htail, ?_, ?_⟩
        · intro x hx
          rcases List.mem_cons.mp hx with rfl | hx
          · exact hf
          · exact hbs x hx
        · exact bind_eq_ok.mpr ⟨s1, hbody, hfold⟩
        · rw [htorn, List.flatten_cons, List.length_append, Nat.add_assoc]

theorem forRecordsOf_inv {b : Bytes} {s s' : σ} {torn : Option ℕ}
    (h : forRecordsOf body b s = .done s' torn) :
    ∃ bs rest, b = bs.flatten ++ rest ∧ (∀ x ∈ bs, IsFrame x) ∧ (rest = [] ∨ Torn rest) ∧
      foldRecords body 0 bs s = .ok s' ∧ torn = tornAt bs.flatten.length rest := by
  have h' := forRecords_inv (p := 0) (by rw [Nat.zero_add]; exact h)
  simpa only [Nat.zero_add] using h'

/-- A loop that stopped went over the frames before the one its body refused. -/
theorem forRecords_stop_inv {fuel p : ℕ} {b : Bytes} {s s' : σ} {e : ε}
    (h : forRecords body fuel ⟨b, p, p + b.length⟩ s = .stop s' e) :
    ∃ bs f rest, b = bs.flatten ++ (f ++ rest) ∧ (∀ x ∈ bs, IsFrame x) ∧ IsFrame f ∧
      foldRecords body p bs s = .ok s' ∧ body s' (p + bs.flatten.length) f = .error e := by
  induction fuel generalizing b p s with
  | zero => simp [forRecords] at h
  | succ fuel ih =>
    rcases frame_cases b with rfl | ht | ⟨f, rest, rfl, hf⟩
    · simp [forRecords, RecordReader.nextRecord_nil] at h
    · obtain ⟨r', hr'⟩ := RecordReader.nextRecord_torn ht p
      simp [forRecords, hr'] at h
    · unfold forRecords at h
      rw [RecordReader.nextRecord_frame hf] at h
      simp only at h
      cases hbody : body s p f with
      | error e' =>
        rw [hbody] at h
        obtain ⟨rfl, rfl⟩ := Loop.stop.inj h
        exact ⟨[], f, rest, rfl, by simp, hf, rfl, by simpa using hbody⟩
      | ok s1 =>
        rw [hbody] at h
        simp only [List.length_append, ← Nat.add_assoc] at h
        obtain ⟨bs, g, tail, rfl, hbs, hg, hfold, hbad⟩ := ih h
        refine ⟨f :: bs, g, tail, by simp, ?_, hg, bind_eq_ok.mpr ⟨s1, hbody, hfold⟩, ?_⟩
        · intro x hx
          rcases List.mem_cons.mp hx with rfl | hx
          · exact hf
          · exact hbs x hx
        · rw [List.flatten_cons, List.length_append, ← Nat.add_assoc]
          exact hbad

theorem forRecordsOf_stop_inv {b : Bytes} {s s' : σ} {e : ε}
    (h : forRecordsOf body b s = .stop s' e) :
    ∃ bs f rest, b = bs.flatten ++ (f ++ rest) ∧ (∀ x ∈ bs, IsFrame x) ∧ IsFrame f ∧
      foldRecords body 0 bs s = .ok s' ∧ body s' bs.flatten.length f = .error e := by
  have h' := forRecords_stop_inv (p := 0) (by rw [Nat.zero_add]; exact h)
  simpa only [Nat.zero_add] using h'

/-- The reader knows how long its stream is, so its subtraction does not panic, and every record
takes bytes off the stream. -/
theorem forRecords_ne_panic {fuel p : ℕ} {b : Bytes} (s : σ) (hfuel : b.length < fuel) :
    forRecords body fuel ⟨b, p, p + b.length⟩ s ≠ .panic := by
  induction fuel generalizing b p s with
  | zero => omega
  | succ fuel ih =>
    rcases frame_cases b with rfl | ht | ⟨f, rest, rfl, hf⟩
    · simp [forRecords, RecordReader.nextRecord_nil]
    · obtain ⟨r', hr'⟩ := RecordReader.nextRecord_torn ht p
      simp [forRecords, hr']
    · unfold forRecords
      rw [RecordReader.nextRecord_frame hf]
      cases hbody : body s p f with
      | error e => simp [hbody]
      | ok s1 =>
        have hpos := List.length_pos_iff.mpr hf.ne_nil
        rw [List.length_append] at hfuel
        have hrest : rest.length < fuel := by omega
        simp only [hbody, List.length_append, ← Nat.add_assoc]
        exact ih s1 hrest

theorem forRecordsOf_ne_panic (b : Bytes) (s : σ) : forRecordsOf body b s ≠ .panic := by
  have h : forRecords body (b.length + 1) ⟨b, 0, 0 + b.length⟩ s ≠ .panic :=
    forRecords_ne_panic s (Nat.lt_succ_self _)
  rwa [Nat.zero_add] at h

/-- What a loop does, seen through a function of its state. -/
def Loop.map {τ : Type} (f : σ → τ) : Loop ε σ → Loop ε τ
  | .done s torn => .done (f s) torn
  | .stop s e => .stop (f s) e
  | .panic => .panic

/-- Two bodies that do the same up to `f` make two loops that do. -/
theorem forRecordsOf_map {τ : Type} {body' : τ → ℕ → Bytes → Except ε τ} (f : σ → τ)
    (hf : ∀ s p b, body' (f s) p b = (body s p b).map f) (b : Bytes) (s : σ) :
    forRecordsOf body' b (f s) = (forRecordsOf body b s).map f := by
  have hloop : ∀ fuel r s, forRecords body' fuel r (f s) = (forRecords body fuel r s).map f := by
    intro fuel
    induction fuel with
    | zero => exact fun _ _ => rfl
    | succ fuel ih =>
      intro r s
      unfold forRecords
      split
      · rfl
      · rfl
      · rfl
      · rename_i p b r' _
        rw [hf]
        cases body s p b with
        | error e => rfl
        | ok s' => exact ih r' s'
  exact hloop ..

end Loop

end Bitcask
