import Bitcask.Storage.Get
import Bitcask.Storage.RefineMerge
import Bitcask.Storage.Session

/-!
# What `get` returns

In a state related to the abstract machine, every `get` finds its entry, its handle and its record:
it returns the value of the key after the published commands.
-/

namespace Bitcask

open LittleEndian FileSystem SegmentedLog

variable {crc : Bytes → UInt32} {cfg : Config} {recs : Inode → List Command}
  {log pub : List Command} {s : Sys} {a : CompactingLog.State Bytes Bytes}

/-- The record of a set ends with the value. -/
theorem serialize_set_drop (ts : UInt64) (key v : Bytes) :
    ((Command.set ts key v).serialize crc).drop
      (((Command.set ts key v).serialize crc).length - v.length) = v := by
  obtain ⟨front, hf⟩ : ∃ front, (Command.set ts key v).serialize crc = front ++ v :=
    ⟨_, by simp only [Command.serialize, Command.checked, Command.writeBody, ← List.append_assoc]; rfl⟩
  rw [hf, List.length_append, Nat.add_sub_cancel, List.drop_left]

/-- What `get` answers about a value: it has to be UTF-8. -/
def answer : Option Bytes → Except KvsError (Option String)
  | none => .ok none
  | some v =>
    match String.fromUTF8? ⟨v.toArray⟩ with
    | none => .error .utf8
    | some text => .ok (some text)

/-- Reading the record of a set. -/
theorem readValue_at {cs : List Command} {t : Bytes} {e : IndexValue} {k v : Bytes}
    (hat : At crc cs e.offset (.set e.ts k v)) (hfits : ∀ c ∈ cs, c.Fits)
    (hlen : e.len = ((Command.set e.ts k v).serialize crc).length) :
    readValue crc (encodeAll crc cs ++ t) e = answer (some v) := by
  have hle := hat.le
  have hd := Command.deserialize_serialize crc (hfits _ hat.mem) []
  rw [List.append_nil] at hd
  unfold readValue
  rw [if_neg (by rw [List.length_append, hlen]; omega), hlen, hat.slice_eq]
  simp only [hd, bind, Except.bind, Command.getValue]
  rw [serialize_set_drop]
  rfl

theorem answer_text (text : String) : answer (some (asBytes text)) = .ok (some text) := by
  simp only [answer, fromUTF8_asBytes]

/-- A value in the log was given as a string. -/
theorem text_of_value (h : ∀ c ∈ log, c.Text) {k v : Bytes} (hv : valueOf k log = some v) :
    ∃ text, v = asBytes text := by
  have hlast : lastOf k (events log) = some (some v) := Option.join_eq_some_iff.mp hv
  obtain ⟨c, hc, he⟩ := List.mem_map.mp (mem_of_lastOf hlast)
  obtain ⟨call, ts, rfl⟩ := h c hc
  cases call with
  | set key value => exact ⟨value, (Option.some.inj (Prod.mk.inj he).2).symm⟩
  | remove key => cases (Prod.mk.inj he).2

/-- The entry of a key leads to the value of the key after the published commands. -/
theorem Link.looked (h : Link crc cfg recs log pub s a) {key : String} {e : IndexValue}
    (he : s.index.get (asBytes key) = some e) :
    ∃ i v, Held s e.fileId i ∧ e.offset + e.len ≤ (s.fs.bytes i).length ∧
      readValue crc (s.fs.bytes i) e = .ok (some v) ∧
      (some v).map asBytes = valueOf (asBytes key) pub := by
  -- the entry found through the directory and the one found through the readers map agree
  obtain ⟨i, v, hv, hi, hat, hlen⟩ := h.represents.entry he
  obtain ⟨j, -, hh, -, -⟩ := h.rep.entry_held he
  obtain rfl : i = j := Option.some.inj ((h.rep.core.dir_rd hi).symm.trans hh.handles)
  obtain ⟨text, rfl⟩ := text_of_value (fun c hc => h.text c (by rw [h.fresh]; simp [hc])) hv
  obtain ⟨rest, hb, -⟩ := h.rep.core.rd_bytes hh.handles
  have hle := hat.le
  refine ⟨i, text, hh, ?_, ?_, hv.symm⟩
  · rw [hb, List.length_append, hlen]
    omega
  · rw [hb, readValue_at hat (h.rep.core.fits i) hlen, answer_text]

/-- `get` returns the value of the key after the published commands. -/
theorem Link.get (h : Link crc cfg recs log pub s a) (key : String) :
    ∃ v, s.get crc key = some (.ok v) ∧ v.map asBytes = valueOf (asBytes key) pub := by
  unfold Sys.get
  cases he : s.index.get (asBytes key) with
  | none => exact ⟨none, rfl, (h.represents.get_eq_none_iff.mp he).symm⟩
  | some e =>
    obtain ⟨i, v, hh, -, hread, hv⟩ := h.looked he
    refine ⟨some v, ?_, hv⟩
    simp only [hh.reader, hread]

end Bitcask
