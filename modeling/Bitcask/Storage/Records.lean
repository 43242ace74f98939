import Bitcask.Lib.SegmentedLog
import Bitcask.Storage.Store

/-!
# Files of whole records

A data file is the concatenation of the encodings of its records, except for a record whose write
has not finished. `At cs off c`: the record `c` of the file `cs` starts at byte `off`. An offset
determines the record (`At.unique`), and reading at it gives the record (`At.slice_eq`).

`events` is what a list of records says about keys, in the terms of `SegmentedLog`. `hintsOf` is
the contents of a hint file that lists the `Set` records of a file.
-/

namespace Bitcask

open LittleEndian SegmentedLog

variable (crc : Bytes → UInt32)

/-- The bytes of a file of whole records. -/
def encodeAll (cs : List Command) : Bytes := cs.flatMap (Command.serialize crc)

@[simp] theorem encodeAll_nil : encodeAll crc [] = [] := rfl

@[simp] theorem encodeAll_cons (c : Command) (cs : List Command) :
    encodeAll crc (c :: cs) = c.serialize crc ++ encodeAll crc cs := rfl

@[simp] theorem encodeAll_append (as bs : List Command) :
    encodeAll crc (as ++ bs) = encodeAll crc as ++ encodeAll crc bs := List.flatMap_append

theorem encodeAll_eq_flatten (cs : List Command) :
    encodeAll crc cs = (cs.map (Command.serialize crc)).flatten := by
  induction cs with
  | nil => rfl
  | cons c cs ih => simp [ih]

/-- The record `c` of the file `cs` starts at byte `off`. -/
def At (cs : List Command) (off : ℕ) (c : Command) : Prop :=
  ∃ pre post, cs = pre ++ c :: post ∧ off = (encodeAll crc pre).length

section At

variable {crc} {cs : List Command} {off : ℕ} {c d : Command}

theorem At.append (h : At crc cs off c) (ds : List Command) : At crc (cs ++ ds) off c := by
  obtain ⟨pre, post, rfl, rfl⟩ := h
  exact ⟨pre, post ++ ds, by simp, rfl⟩

theorem At.last (cs : List Command) (c : Command) :
    At crc (cs ++ [c]) (encodeAll crc cs).length c := ⟨cs, [], rfl, rfl⟩

theorem At.mem (h : At crc cs off c) : c ∈ cs := by
  obtain ⟨pre, post, rfl, -⟩ := h
  simp

theorem At.not_nil : ¬ At crc [] off c := by
  intro h
  exact List.not_mem_nil h.mem

/-- An offset determines the record that starts there. -/
theorem At.unique (hc : At crc cs off c) (hd : At crc cs off d) : c = d := by
  obtain ⟨pre, post, hcs, hoff⟩ := hc
  obtain ⟨pre', post', hcs', hoff'⟩ := hd
  subst hcs
  induction pre generalizing pre' off with
  | nil =>
    cases pre' with
    | nil => exact (List.cons.inj hcs').1
    | cons x xs =>
      have := Command.serialize_pos crc x
      simp only [encodeAll_nil, List.length_nil, encodeAll_cons, List.length_append] at hoff hoff'
      omega
  | cons y ys ih =>
    cases pre' with
    | nil =>
      have := Command.serialize_pos crc y
      simp only [encodeAll_nil, List.length_nil, encodeAll_cons, List.length_append] at hoff hoff'
      omega
    | cons x xs =>
      obtain ⟨rfl, htail⟩ := List.cons.inj hcs'
      simp only [encodeAll_cons, List.length_append] at hoff hoff'
      exact ih rfl xs (by omega) htail

/-- A record lies inside its file. -/
theorem At.le (h : At crc cs off c) :
    off + (c.serialize crc).length ≤ (encodeAll crc cs).length := by
  obtain ⟨pre, post, rfl, rfl⟩ := h
  simp only [encodeAll_append, encodeAll_cons, List.length_append]
  omega

theorem At.slice_eq (h : At crc cs off c) (rest : Bytes) :
    slice (encodeAll crc cs ++ rest) off (off + (c.serialize crc).length) = c.serialize crc := by
  obtain ⟨pre, post, rfl, rfl⟩ := h
  rw [encodeAll_append, encodeAll_cons, List.append_assoc, List.append_assoc]
  exact slice_middle _ _ _

/-- The records of a longer file are those of the shorter one and those after it. -/
theorem At.append_iff {ds : List Command} :
    At crc (cs ++ ds) off c ↔
      At crc cs off c ∨ ∃ o, off = (encodeAll crc cs).length + o ∧ At crc ds o c := by
  constructor
  · rintro ⟨pre, post, heq, rfl⟩
    rcases List.append_eq_append_iff.mp heq with ⟨as, hpre, hds⟩ | ⟨as, hcs, hpost⟩
    · refine Or.inr ⟨(encodeAll crc as).length, ?_, as, post, hds, rfl⟩
      rw [hpre, encodeAll_append, List.length_append]
    · cases as with
      | nil =>
        refine Or.inr ⟨0, ?_, [], post, ?_, rfl⟩
        · rw [hcs]; simp
        · simpa using hpost.symm
      | cons a as =>
        obtain ⟨rfl, -⟩ := List.cons.inj hpost
        exact Or.inl ⟨pre, as, hcs, rfl⟩
  · rintro (h | ⟨o, rfl, pre, post, rfl, rfl⟩)
    · exact h.append ds
    · exact ⟨cs ++ pre, post, by simp, by simp⟩

/-- A record starts before, at or behind a given record. -/
theorem At.cases_split {pre post : List Command} (h : At crc (pre ++ c :: post) off d) :
    off < (encodeAll crc pre).length ∨ off = (encodeAll crc pre).length ∨
      (encodeAll crc pre).length + (c.serialize crc).length ≤ off := by
  rcases At.append_iff.mp h with hpre | ⟨o, rfl, hrest⟩
  · have := hpre.le
    have := Command.serialize_pos crc d
    omega
  · rcases At.append_iff.mp (show At crc ([c] ++ post) o d from hrest) with hc | ⟨o', rfl, -⟩
    · have hle := hc.le
      have hmem := List.mem_singleton.mp hc.mem
      subst hmem
      simp only [encodeAll_cons, encodeAll_nil, List.append_nil] at hle
      omega
    · simp only [encodeAll_cons, encodeAll_nil, List.append_nil]
      omega

end At

/-! ## Framing a file of records -/

section Framing

variable {cs : List Command}

theorem isFrame_of_mem (hfits : ∀ c ∈ cs, c.Fits) :
    ∀ b ∈ cs.map (Command.serialize crc), IsFrame b := by
  intro b hb
  obtain ⟨c, hc, rfl⟩ := List.mem_map.mp hb
  exact IsFrame.serialize crc (hfits c hc)

/-- A reader inside a file of records: the records it has not read, and where they start. -/
def readerAt (pos : ℕ) (rest : List Command) : RecordReader :=
  ⟨encodeAll crc rest, pos, pos + (encodeAll crc rest).length⟩

theorem new_eq_readerAt (cs : List Command) :
    RecordReader.new (encodeAll crc cs) (encodeAll crc cs).length = readerAt crc 0 cs := by
  simp [RecordReader.new, readerAt]

variable {crc}

theorem nextRecord_readerAt_nil (pos : ℕ) :
    (readerAt crc pos []).nextRecord = some (.cleanEof, readerAt crc pos []) := by
  simp [readerAt, RecordReader.nextRecord_nil]

theorem nextRecord_readerAt_cons {c : Command} (hc : c.Fits) (pos : ℕ) (rest : List Command) :
    (readerAt crc pos (c :: rest)).nextRecord =
      some (.record pos (c.serialize crc),
        readerAt crc (pos + (c.serialize crc).length) rest) := by
  unfold readerAt
  rw [encodeAll_cons, RecordReader.nextRecord_frame (IsFrame.serialize crc hc),
    List.length_append, Nat.add_assoc]

end Framing

/-! ## What records say about keys -/

/-- A record sets its key to its value or removes it. -/
def event (c : Command) : Bytes × Option Bytes := (c.getKey, c.getValue)

def events (cs : List Command) : List (Bytes × Option Bytes) := cs.map event

@[simp] theorem events_nil : events [] = [] := rfl

@[simp] theorem events_append (as bs : List Command) : events (as ++ bs) = events as ++ events bs :=
  List.map_append

@[simp] theorem events_singleton (c : Command) : events [c] = [event c] := rfl

/-- The value of a key after a list of commands. -/
def valueOf (k : Bytes) (cs : List Command) : Option Bytes := value k (events cs)

theorem lastOf_ne_none_of_mem {k : Bytes} {cs : List Command} {c : Command} (hc : c ∈ cs)
    (hk : c.getKey = k) : lastOf k (events cs) ≠ none := by
  intro h
  exact lastOf_eq_none_iff.mp h (event c) (List.mem_map_of_mem hc) hk

/-! ## Hint files -/

/-- The hint record of a record that starts at `off`; a remove has none. -/
def hintOf (off : ℕ) : Command → Bytes
  | c@(.set ts key _) => (⟨0, ts, off, (c.serialize crc).length⟩ : IndexValue).serialize crc key
  | .rm _ _ => []

/-- The contents of the hint file of records that start at `off`. -/
def hintsOf : ℕ → List Command → Bytes
  | _, [] => []
  | off, c :: cs => hintOf crc off c ++ hintsOf (off + (c.serialize crc).length) cs

theorem hintsOf_append (off : ℕ) (as bs : List Command) :
    hintsOf crc off (as ++ bs) =
      hintsOf crc off as ++ hintsOf crc (off + (encodeAll crc as).length) bs := by
  induction as generalizing off with
  | nil => simp [hintsOf]
  | cons a as ih => simp [hintsOf, ih, Nat.add_assoc]

/-- A record that is no tombstone. -/
def Command.IsSet : Command → Prop
  | .set _ _ _ => True
  | .rm _ _ => False

end Bitcask
