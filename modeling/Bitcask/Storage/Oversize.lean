import Bitcask.Storage.ActiveFile
import Bitcask.Storage.Arithmetic
import Bitcask.Storage.Clients

/-!
# Records of any size

`append` does not look at the length of a record, and `serialize` casts lengths to `u32`. So the runs
here are those of `stepAny`.

1. `trueLengths_iff`: the length fields of a record are right exactly if the body is below 4 GiB.
2. `acknowledged_set_reads_back`: in runs whose appends all fit, a `set` that has the lock returns `Ok`,
   and it can be read back from the store and from the directory.
3. `oversized_set_acknowledged`: a `set` whose body is 4 GiB long returns `Ok`, `get` of its key fails
   from then on, and the directory can no longer be opened.
-/

namespace Bitcask

open LittleEndian FileSystem CrashHoare

/-! ## Length fields -/

/-- The length fields of the record of a set say how long it is. -/
structure TrueLengths (record key value : Bytes) : Prop where
  bodyLen : Command.bodyLen record = record.length - headerLen
  keyLen : ofLe (slice record 17 21) = key.length
  valueLen : ofLe (slice record (21 + key.length) (25 + key.length)) = value.length

section Lengths

variable {crc : Bytes → UInt32} {ts : UInt64} {key value : Bytes}

/-- The fields of the record of a set. -/
theorem serialize_set_eq : (Command.set ts key value).serialize crc =
    toLe 4 (crc (Command.set ts key value).checked).toNat ++
      (toLe 4 (Command.set ts key value).encodedBodyLen ++
        ((toLe 8 ts.toNat ++ [CommandType.code .set]) ++
          (toLe 4 key.length ++ (key ++ (toLe 4 value.length ++ value))))) := by
  simp only [Command.serialize, Command.checked, Command.writeBody, List.append_assoc]

theorem bodyLen_serialize_any (crc : Bytes → UInt32) (c : Command) (rest : Bytes) :
    Command.bodyLen (c.serialize crc ++ rest) = c.encodedBodyLen % 2 ^ 32 := by
  have hs : slice (c.serialize crc ++ rest) crcLen headerLen = toLe 4 c.encodedBodyLen := by
    unfold Command.serialize Command.checked
    rw [List.append_assoc, List.append_assoc]
    have hm := slice_middle (toLe 4 (crc (toLe 4 c.encodedBodyLen ++ c.writeBody)).toNat)
      (toLe 4 c.encodedBodyLen) (c.writeBody ++ rest)
    rwa [length_toLe, length_toLe] at hm
  unfold Command.bodyLen
  rw [hs, ofLe_toLe]
  norm_num

theorem slice_serialize_key :
    slice ((Command.set ts key value).serialize crc) 17 21 = toLe 4 key.length := by
  rw [serialize_set_eq, ← List.append_assoc, ← List.append_assoc]
  have hm := slice_middle (toLe 4 (crc (Command.set ts key value).checked).toNat ++
    toLe 4 (Command.set ts key value).encodedBodyLen ++
      (toLe 8 ts.toNat ++ [CommandType.code .set])) (toLe 4 key.length)
    (key ++ (toLe 4 value.length ++ value))
  simp only [List.length_append, length_toLe, List.length_singleton] at hm
  exact hm

theorem slice_serialize_value :
    slice ((Command.set ts key value).serialize crc) (21 + key.length) (25 + key.length) =
      toLe 4 value.length := by
  rw [serialize_set_eq, ← List.append_assoc, ← List.append_assoc, ← List.append_assoc,
    ← List.append_assoc]
  have hm := slice_middle (toLe 4 (crc (Command.set ts key value).checked).toNat ++
    toLe 4 (Command.set ts key value).encodedBodyLen ++
      (toLe 8 ts.toNat ++ [CommandType.code .set]) ++ toLe 4 key.length ++ key)
    (toLe 4 value.length) value
  simp only [List.length_append, length_toLe, List.length_singleton] at hm
  rw [show 25 + key.length = 21 + key.length + 4 by omega]
  exact hm

/-- The casts to `u32` lose nothing if the body is below 4 GiB, and only then. -/
theorem trueLengths_iff : TrueLengths ((Command.set ts key value).serialize crc) key value ↔
    (Command.set ts key value).Fits := by
  have hbody := bodyLen_serialize_any crc (.set ts key value) []
  rw [List.append_nil] at hbody
  constructor
  · intro h
    have hlen := h.bodyLen
    rw [hbody, Command.length_serialize, Nat.add_sub_cancel_left] at hlen
    unfold Command.Fits
    rw [← hlen]
    exact Nat.mod_lt _ (by norm_num)
  · intro h
    have hfields : key.length < 2 ^ 32 ∧ value.length < 2 ^ 32 := h.fields
    refine ⟨?_, ?_, ?_⟩
    · rw [hbody, Command.length_serialize, Nat.add_sub_cancel_left]
      exact Nat.mod_eq_of_lt h
    · rw [slice_serialize_key]
      exact ofLe_toLe_of_lt hfields.1
    · rw [slice_serialize_value]
      exact ofLe_toLe_of_lt hfields.2

theorem encodedBodyLen_pos (c : Command) : 13 ≤ c.encodedBodyLen := by
  cases c <;> simp only [Command.encodedBodyLen] <;> omega

/-- A record whose `body_len` field is below the length of any body does not decode. -/
theorem deserialize_wrapped {c d : Command} {rest : Bytes} {n : ℕ}
    (hlow : c.encodedBodyLen % 2 ^ 32 < 13) :
    Command.deserialize crc (c.serialize crc ++ rest) ≠ .ok (d, n) := by
  intro hd
  obtain ⟨hfits, rfl, hle, htake⟩ := (Command.deserialize_eq_ok crc).mp hd
  have hsplit : c.serialize crc ++ rest =
      d.serialize crc ++ (c.serialize crc ++ rest).drop (d.serialize crc).length := by
    conv_lhs => rw [← List.take_append_drop (d.serialize crc).length (c.serialize crc ++ rest), htake]
  have hc := bodyLen_serialize_any crc c rest
  rw [hsplit, bodyLen_serialize_any, Nat.mod_eq_of_lt hfits] at hc
  have hpos := encodedBodyLen_pos d
  omega

end Lengths

/-! ## Runs whose records fit -/

/-- No filesystem call fails, `handle_policy` does not read a clock behind the last flush, and an append
that begins has a record with a body below 4 GiB. -/
def Sized (cfg : Config) (s : Sys) (a : Act) : Prop := a.Nominal ∧ ClockOk cfg s a ∧ a.Fits

instance (cfg : Config) (s : Sys) : DecidablePred (Sized cfg s) :=
  fun _ => inferInstanceAs (Decidable (_ ∧ _ ∧ _))

section Sized

variable {crc : Bytes → UInt32} {cfg : Config} {fs₀ : Fs FileName} {s s' : Sys} {a : Act}
  {recs : Inode → List Command} {ops₀ : List Command} {c : Command}

theorem Sized.step_eq (h : Sized cfg s a) : stepAny crc cfg s a = step crc cfg s a :=
  (step_of_fits h.2.2).symm

/-- A session whose steps are sized is one of `step`. -/
theorem Unchecked.reach (h₀ : Reach crc (fun _ a => a.Nominal) (.closed fs₀) ops₀)
    (h : Unchecked crc cfg (Sized cfg) fs₀ s) :
    ∃ ops, Reach crc (fun _ a => a.Nominal) (.running cfg s) ops := by
  induction h with
  | opened hlist hopen => exact ⟨ops₀, .opened cfg h₀ hlist hopen⟩
  | step _ hp hs ih =>
    obtain ⟨ops, ih⟩ := ih
    rw [hp.step_eq] at hs
    exact ⟨_, .act ih hp.1 hs⟩

/-- An append that has the lock ends with `Ok`. -/
theorem Rep.append_ends (h : Rep crc cfg recs s) (hs : Step crc cfg s a s') (hp : Sized cfg s a)
    (hfl : s.lock.inFlight = [c]) (hend : s'.lock.inFlight = []) :
    s'.lock = .free ∧ s.outcome a = .ok () ∧ s.lock.written crc = [c] := by
  have hlr := h.lock
  cases hs with
  | writer hw =>
    cases hw with
    | begin | write | publish | policySkip | policySync | full => cases hend
    | policyPanic c now hl hpol hn =>
      have hclock : s.writer.lastTsFlushed ≤ now := hp.2.1 (by rw [hl]; rfl) hpol
      exact absurd hn (Nat.not_lt_of_le hclock)
    | notFull c now hl ho =>
      rw [hl] at hfl ⊢
      refine ⟨rfl, ?_, hfl⟩
      unfold Sys.outcome
      rw [hl]
    | rotateSync next now caller hl | rotateCreate next now caller hl
      | rotateClock next now caller hl =>
      rw [hl] at hfl
      cases caller with
      | append c => cases hend
      | compaction => cases hfl
    | rotateReader next now caller i hl hi =>
      rw [hl] at hfl
      cases caller with
      | append c =>
        refine ⟨rfl, ?_, by rw [hl]; exact hfl⟩
        unfold Sys.outcome
        simp only [hl, hi]
      | compaction => cases hfl
    | rotateMissing next now caller hl hi =>
      rw [hl] at hlr
      have hdir := h.core.cur_dir
      rw [← hlr.2.2, hi] at hdir
      cases hdir
    | failWrite | failPolicy | failRotate => exact hp.1.elim
  | merge hm =>
    rcases hm.lock_eq with hl | ⟨hl, -⟩
    · rw [hl, hfl] at hend; cases hend
    · rw [hl] at hfl; cases hfl
  | startNot last res hm hl hres hn => rcases hl with hl | hl <;> rw [hl] at hfl <;> cases hfl
  | startPanic last hm hl | start last hm hl => rw [hl] at hfl; cases hfl
  | spill out n m ho => exact absurd (hfl.symm.trans hend) (by simp)
  | mergeErr | outputErr => exact hp.1.elim

/-- The last command of the history is a set of the key. -/
theorem Sys.Agrees.get_last {ops : List Command} {ts : UInt64} {key value : String}
    (h : s.Agrees crc (ops ++ [.set ts (asBytes key) (asBytes value)])) :
    s.get crc key = some (.ok (some value)) := by
  obtain ⟨v, hget, hv⟩ := h key
  rw [plainMap_append] at hv
  have hv : v.map asBytes = (some value).map asBytes := by
    rw [hv]
    exact Function.update_self ..
  rw [hget, Option.map_injective asBytes_injective hv]

/-- The entry of a key that can be read leads to a record of the key and the value. -/
theorem World.Inv.entry {ops : List Command} (h : World.Inv crc ops (.running cfg s))
    {key value : String} (hget : s.get crc key = some (.ok (some value))) :
    ∃ e i, s.index.get (asBytes key) = some e ∧ s.fs.lookup (.data e.fileId) = some i ∧
      slice (s.fs.bytes i) e.offset (e.offset + e.len) =
        (Command.set e.ts (asBytes key) (asBytes value)).serialize crc ∧
      (Command.set e.ts (asBytes key) (asBytes value)).Fits := by
  obtain ⟨-, recs, pub, a, hl, -⟩ := h
  obtain ⟨v', hget', hv'⟩ := hl.get key
  obtain rfl : v' = some value := by
    rw [hget] at hget'
    exact (Except.ok.inj (Option.some.inj hget')).symm
  cases he : s.index.get (asBytes key) with
  | none =>
    unfold Sys.get at hget
    rw [he] at hget
    cases hget
  | some e =>
    obtain ⟨i, v, hv, hi, hat, hlen⟩ := hl.represents.entry he
    obtain rfl : asBytes value = v := Option.some.inj (hv'.trans hv)
    obtain ⟨t, hb, -⟩ := hl.rep.core.rd_bytes (hl.rep.core.dir_rd hi)
    refine ⟨e, i, rfl, hi, ?_, hl.rep.core.fits i _ hat.mem⟩
    rw [hb, hlen]
    exact hat.slice_eq t

/-- A `set` that is acknowledged can be read back. In a session in which no call fails, the clock does
not go back and every append has a body below 4 GiB, let a step end a `set`. It returns `Ok`; the
record has the real lengths in its fields, the index leads to such a record, `get` returns the value,
and the directory can be opened and gives the value again. -/
theorem acknowledged_set_reads_back {ts : UInt64} {key value : String}
    (h₀ : Reach crc (fun _ a => a.Nominal) (.closed fs₀) ops₀)
    (h : Unchecked crc cfg (Sized cfg) fs₀ s) (hp : Sized cfg s a)
    (hs : stepAny crc cfg s a = some s')
    (hset : s.lock.inFlight = [(Call.set key value).command ts]) (hend : s'.lock.inFlight = []) :
    s'.lock = .free ∧ s.outcome a = .ok () ∧
      TrueLengths (((Call.set key value).command ts).serialize crc) (asBytes key) (asBytes value) ∧
      (∃ e i, s'.index.get (asBytes key) = some e ∧ s'.fs.lookup (.data e.fileId) = some i ∧
        slice (s'.fs.bytes i) e.offset (e.offset + e.len) =
          (Command.set e.ts (asBytes key) (asBytes value)).serialize crc) ∧
      s'.get crc key = some (.ok (some value)) ∧
      ∀ listing now, (s'.fs.create .lock).Lists listing →
        ∃ s'', (openStore crc listing now s'.fs).result = .ok s'' ∧
          s''.get crc key = some (.ok (some value)) := by
  obtain ⟨ops, hreach⟩ := h.reach h₀
  rw [hp.step_eq] at hs
  have hinv : World.Inv crc ops (.running cfg s) := reach_inv (hreach.benign fun hn => hn.tidy).1
  obtain ⟨-, recs, pub, abs, hlink, -⟩ := hinv
  obtain ⟨hfree, hok, hwritten⟩ := hlink.rep.append_ends (step_cases hs) hp hset hend
  -- the set is the last append of the history
  have hfinished : finished crc s s' = [(Call.set key value).command ts] := by
    rw [finished, if_pos hend]
    exact hwritten
  have hreach' := Reach.act hreach hp.1 hs
  rw [hfinished] at hreach'
  have hinv' : World.Inv crc _ (.running cfg s') := reach_inv (hreach'.benign fun hn => hn.tidy).1
  have hget : s'.get crc key = some (.ok (some value)) := (hinv'.agrees hend).get_last
  obtain ⟨e, i, he, hi, hrecord, hfits⟩ := hinv'.entry hget
  refine ⟨hfree, hok, ?_, ⟨e, i, he, hi, hrecord⟩, hget, fun listing now hlist => ?_⟩
  · exact trueLengths_iff.mpr hfits
  · obtain ⟨s'', t, hopen, ht, hagrees⟩ := crash_recovery hreach' hlist now
    have hnil : t = [] := ht.elim id fun he => he.trans hend
    rw [hnil, List.append_nil] at hagrees
    exact ⟨s'', hopen, hagrees.get_last⟩

theorem Unchecked.of_steps {acts : List Act} (h : Unchecked crc cfg (Sized cfg) fs₀ s)
    (hs : steps crc cfg (Sized cfg) acts s = some s') : Unchecked crc cfg (Sized cfg) fs₀ s' := by
  induction acts generalizing s with
  | nil =>
    obtain rfl := Option.some.inj hs
    exact h
  | cons a acts ih =>
    obtain ⟨s₁, hp, hs₁, hs⟩ := steps_cons hs
    exact ih (.step h hp (stepAny_of_step hs₁)) hs

end Sized

/-- A set after three sets and a merge. -/
theorem acknowledged_set_reads_back_after_merge : ∃ s s',
    steps crc32 smallFiles (Sized smallFiles)
      (threeSets ++ mergeActs 34 ++ Call.acts crc32 (.set "c" "4") 6) (emptyStore crc32) = some s ∧
    stepAny crc32 smallFiles s (.writer 0) = some s' ∧ s.merge.result = some (.ok ()) ∧
    s.outcome (.writer 0) = .ok () ∧ s'.get crc32 "c" = some (.ok (some "4")) := by
  have hrun : (steps crc32 smallFiles (Sized smallFiles)
      (threeSets ++ mergeActs 34 ++ Call.acts crc32 (.set "c" "4") 6) (emptyStore crc32)).any
      fun s => (stepAny crc32 smallFiles s (.writer 0)).any fun s' =>
        decide (s.merge.result = some (.ok ()) ∧
          s.lock.inFlight = [(Call.set "c" "4").command 0] ∧ s'.lock.inFlight = []) := by
    decide +kernel
  obtain ⟨s, hs, hstep⟩ := (Option.any_eq_true ..).mp hrun
  obtain ⟨s', hs', hd⟩ := (Option.any_eq_true ..).mp hstep
  obtain ⟨hm, hset, hend⟩ := of_decide_eq_true hd
  have hopened : Unchecked crc32 smallFiles (Sized smallFiles) Fs.empty (emptyStore crc32) :=
    .opened lists_empty (emptyStore_opened crc32)
  have hclock : ClockOk smallFiles s (.writer 0) := by
    intro _ hpol
    cases hpol
  have hp : Sized smallFiles s (.writer 0) := ⟨trivial, hclock, trivial⟩
  obtain ⟨-, hok, -, -, hget, -⟩ :=
    acknowledged_set_reads_back .empty (hopened.of_steps hs) hp hs' hset hend
  exact ⟨s, s', hs, hs', hm, hok, hget⟩

/-! ## A set that is too long -/

/-- The store after an append that nothing interrupts, before `rotate_if_full`. -/
def afterAppend (crc : Bytes → UInt32) (s : Sys) (c : Command) : Sys :=
  { Sys.publish crc { s with fs := s.fs.append s.writer.file (c.serialize crc) } c with
    lock := .rotateIfFull c }

/-- No filesystem call fails, and the clock does not go back. -/
def AnySize (cfg : Config) (s : Sys) (a : Act) : Prop := a.Nominal ∧ ClockOk cfg s a

section Oversize

variable {crc : Bytes → UInt32} {cfg : Config} {fs₀ : Fs FileName} {s : Sys} {call : Call}
  {ts : UInt64} {c : Command}

theorem Unchecked.append (h : Unchecked crc cfg (AnySize cfg) fs₀ s)
    (hpol : cfg.durabilityPolicy = .osDecides) (hl : s.lock = .free) (hc : call.command ts = c)
    (hlen : (s.fs.bytes s.writer.file).length + (c.serialize crc).length < maxFileLen) :
    Unchecked crc cfg (AnySize cfg) fs₀ (afterAppend crc s c) := by
  have hclock : ∀ {s : Sys} {now : ℕ}, AnySize cfg s (.writer now) := by
    intro s now
    refine ⟨trivial, fun _ hp => ?_⟩
    rw [hpol] at hp
    cases hp
  have hbegin : stepAny crc cfg s (.begin call ts) = some { s with lock := .writing c 0 } := by
    show (if s.lock = .free then some { s with lock := .writing (call.command ts) 0 } else none) = _
    rw [if_pos hl, hc]
  have hwrite : stepAny crc cfg { s with lock := .writing c 0 } (.write (c.serialize crc).length) =
      some { s with
        fs := s.fs.append s.writer.file (c.serialize crc)
        lock := .writing c (c.serialize crc).length } := by
    show Sys.writeAll crc { s with lock := .writing c 0 } c 0 (c.serialize crc).length = _
    unfold Sys.writeAll
    rw [if_pos ⟨(Nat.zero_add _).le, hlen⟩, List.drop_zero, List.take_length, Nat.zero_add]
  have hpublish : stepAny crc cfg
      { s with
        fs := s.fs.append s.writer.file (c.serialize crc)
        lock := .writing c (c.serialize crc).length } (.writer 0) =
      some (Sys.publish crc { s with fs := s.fs.append s.writer.file (c.serialize crc) } c) := by
    show (if (c.serialize crc).length = (c.serialize crc).length then some _ else none) = _
    rw [if_pos rfl]
    rfl
  have hpolicy : stepAny crc cfg
      (Sys.publish crc { s with fs := s.fs.append s.writer.file (c.serialize crc) } c) (.writer 0) =
      some (afterAppend crc s c) := by
    show some (Sys.handlePolicy cfg _ 0 c) = _
    unfold Sys.handlePolicy
    rw [hpol]
    rfl
  have hb : AnySize cfg s (.begin call ts) := ⟨trivial, trivial⟩
  have hw : AnySize cfg { s with lock := .writing c 0 } (.write (c.serialize crc).length) :=
    ⟨trivial, trivial⟩
  exact (((h.step hb hbegin).step hw hwrite).step hclock hpublish).step hclock hpolicy

/-- The file is not full. -/
theorem afterAppend_returns
    (hsize : s.writer.offset + (c.serialize crc).length < cfg.fileSizeThreshold) :
    stepAny crc cfg (afterAppend crc s c) (.writer 0) =
      some { afterAppend crc s c with lock := .free } := by
  show some (Sys.rotateIfFull cfg (afterAppend crc s c) c) = _
  unfold Sys.rotateIfFull
  rw [if_pos (show (afterAppend crc s c).writer.offset < _ from hsize)]

/-- A file that starts with a record whose `body_len` field has wrapped to zero is not readable. -/
theorem not_readable_wrapped (hzero : c.encodedBodyLen % 2 ^ 32 = 0) :
    ¬ Readable crc (c.serialize crc) := by
  rintro ⟨cs, t, hb, ht, hfits⟩
  cases cs with
  | nil =>
    -- the header alone is a frame
    have hframe : IsFrame ((c.serialize crc).take headerLen) := by
      have hlen : ((c.serialize crc).take headerLen).length = headerLen := by
        rw [List.length_take, Command.length_serialize]
        exact Nat.min_eq_left (Nat.le_add_right ..)
      have hbody := bodyLen_serialize_any crc c []
      rw [List.append_nil, hzero] at hbody
      have htake : Command.bodyLen ((c.serialize crc).take headerLen) = Command.bodyLen (c.serialize crc) := by
        unfold Command.bodyLen slice
        rw [List.take_take, Nat.min_self]
      refine ⟨hlen.ge, ?_⟩
      rw [List.take_take, Nat.min_self, hlen, htake, hbody, Nat.add_zero]
    have hsplit : t = (c.serialize crc).take headerLen ++ (c.serialize crc).drop headerLen := by
      rw [List.take_append_drop, hb]
      rfl
    rw [hsplit] at ht
    exact hframe.not_torn _ ht
  | cons d ds =>
    have hd := Command.deserialize_serialize crc (hfits d List.mem_cons_self) (encodeAll crc ds ++ t)
    rw [encodeAll_cons, List.append_assoc] at hb
    rw [← hb, ← List.append_nil (c.serialize crc)] at hd
    exact deserialize_wrapped (by omega) hd

/-- `get` after an append whose record does not decode. -/
theorem get_wrapped {ts : UInt64} {key value : String}
    (hc : c = .set ts (asBytes key) (asBytes value)) (hzero : c.encodedBodyLen % 2 ^ 32 = 0)
    (hreader : s.readers[s.writer.currentFileId]? = some s.writer.file)
    (hoff : s.writer.offset = 0) (hempty : s.fs.bytes s.writer.file = []) :
    ∃ e, Sys.get crc { afterAppend crc s c with lock := .free } key = some (.error e) := by
  have hbytes : (s.fs.append s.writer.file (c.serialize crc)).bytes s.writer.file =
      c.serialize crc := by
    rw [Fs.bytes_append_self, hempty, List.nil_append]
  have hentry : (afterAppend crc s c).index.get (asBytes key) =
      some ⟨s.writer.currentFileId, ts, 0, (c.serialize crc).length⟩ := by
    subst hc
    rw [← hoff]
    exact Index.get_insert_self ..
  unfold Sys.get
  simp only [hentry]
  rw [show (afterAppend crc s c).readers[s.writer.currentFileId]? = some s.writer.file from hreader]
  simp only
  rw [show (afterAppend crc s c).fs.bytes s.writer.file = c.serialize crc from hbytes]
  unfold readValue
  simp only [Nat.zero_add, lt_irrefl, if_false, slice_full]
  cases hd : Command.deserialize crc (c.serialize crc) with
  | error e => exact ⟨e, rfl⟩
  | ok x =>
    rw [← List.append_nil (c.serialize crc)] at hd
    exact absurd hd (deserialize_wrapped (by omega))

end Oversize

/-- Files that do not get full. -/
def bigFiles : Config := ⟨.osDecides, 2 ^ 40, 2 ^ 40, 1000⟩

/-- A set of "a" to 2³² - 18 bytes, in an empty store: the body is 2³² bytes long and the `body_len`
field is zero. The set returns `Ok`, `get` of "a" fails, and so does every `open` of the directory. -/
theorem oversized_set_acknowledged : ∃ value s s',
    Unchecked crc32 bigFiles (AnySize bigFiles) Fs.empty s ∧
    AnySize bigFiles s (.writer 0) ∧ stepAny crc32 bigFiles s (.writer 0) = some s' ∧
    s.lock.inFlight = [(Call.set "a" value).command 0] ∧ s'.lock = .free ∧
    s.outcome (.writer 0) = .ok () ∧
    ¬ TrueLengths (((Call.set "a" value).command 0).serialize crc32) (asBytes "a") (asBytes value) ∧
    (∃ e, s'.get crc32 "a" = some (.error e)) ∧
    ∀ listing now, (s'.fs.create .lock).Lists listing →
      ∃ e, (openStore crc32 listing now s'.fs).result = .error (.error e) := by
  obtain ⟨value, hvalue⟩ : ∃ v, (asBytes v).length = 2 ^ 32 - 18 :=
    ⟨_, length_asBytes_replicate (2 ^ 32 - 18)⟩
  set c : Command := (Call.set "a" value).command 0 with hc
  have hkey : (asBytes "a").length = 1 := by decide
  have hbody : c.encodedBodyLen = 2 ^ 32 := by
    show 8 + 1 + 4 + (asBytes "a").length + 4 + (asBytes value).length = 2 ^ 32
    omega
  have hzero : c.encodedBodyLen % 2 ^ 32 = 0 := by rw [hbody]; rfl
  have hlen : (c.serialize crc32).length = 8 + 2 ^ 32 := by
    rw [Command.length_serialize, hbody]
    rfl
  obtain ⟨-, ho⟩ := (openStore_any crc32 0 lists_empty).ok rfl (emptyStore_opened crc32)
  have hempty : (emptyStore crc32).fs.bytes (emptyStore crc32).writer.file = [] := rfl
  have hoff : (emptyStore crc32).writer.offset = 0 := rfl
  have hopened : Unchecked crc32 bigFiles (AnySize bigFiles) Fs.empty (emptyStore crc32) :=
    .opened lists_empty (emptyStore_opened crc32)
  have hmax : ((emptyStore crc32).fs.bytes (emptyStore crc32).writer.file).length +
      (c.serialize crc32).length < maxFileLen := by
    rw [hempty, hlen]
    decide
  have hsize : (emptyStore crc32).writer.offset + (c.serialize crc32).length <
      bigFiles.fileSizeThreshold := by
    rw [hoff, hlen]
    decide
  refine ⟨value, afterAppend crc32 (emptyStore crc32) c, _, hopened.append rfl ho.free hc.symm hmax,
    ⟨trivial, fun _ hpol => by cases hpol⟩, afterAppend_returns hsize, rfl, rfl, rfl, ?_, ?_, ?_⟩
  · intro htrue
    have hfits : c.encodedBodyLen < 2 ^ 32 := trueLengths_iff.mp htrue
    omega
  · exact get_wrapped rfl hzero ((ho.readers _ _).mpr ho.current) hoff hempty
  · intro listing now hlist
    have hcurrent : ((emptyStore crc32).fs.append (emptyStore crc32).writer.file
        (c.serialize crc32)).lookup (.data (emptyStore crc32).writer.currentFileId) =
        some (emptyStore crc32).writer.file := ho.current
    have hread : ¬ Readable crc32 (((emptyStore crc32).fs.append (emptyStore crc32).writer.file
        (c.serialize crc32)).bytes (emptyStore crc32).writer.file) := by
      rw [Fs.bytes_append_self, hempty, List.nil_append]
      exact not_readable_wrapped hzero
    have hmaxId : ∀ id, ((emptyStore crc32).fs.append (emptyStore crc32).writer.file
        (c.serialize crc32)).lookup (.data id) ≠ none → id ≤ (emptyStore crc32).writer.currentFileId := by
      intro id hid
      obtain ⟨i, hi⟩ := Option.ne_none_iff_exists'.mp hid
      exact ho.le_current hi
    obtain ⟨e, hopen, -⟩ := openStore_unreadable now hlist hcurrent hmaxId hread
    exact ⟨e, hopen⟩

end Bitcask
