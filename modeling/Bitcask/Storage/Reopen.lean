import Bitcask.Storage.World

/-!
# Writing onto a reopened directory

`open` replays a sealed file from its hint, and the active file from its records. A hint says what
the file held when the merge wrote it, so it must not outlive an append to the file.

1. `Appends`: runs of `set` and `remove` calls on an opened store. `SealsUnhinted` says that
   `rotate_to` seals no file that has a hint.
2. `Appending`: read in the order of their ids, the sealed files from their hints, the files give
   every key its value after the run. Each step keeps it (`Appending.step`).
3. `appends_survive_reopen`: if no hinted file is sealed, the next `open` recovers the map of the
   first one with the operations applied, also from an active file that has a hint. Once such a file
   is rotated away, `open` takes the hint for the file (`stale_hint_forgets_append`).
-/

namespace Bitcask

open LittleEndian FileSystem SegmentedLog

/-! ## Runs of calls -/

/-- A step of a `set` or a `remove`. -/
def Act.OfCall : Act → Prop
  | .begin _ _ | .write _ | .writer _ => True
  | _ => False

instance : DecidablePred Act.OfCall
  | .begin _ _ | .write _ | .writer _ => .isTrue trivial
  | .writerErr _ | .mergeErr _ _ _ | .start | .merge | .spill _ _ => .isFalse id

/-- The states that steps of `set` and `remove` calls of the kind `P` lead to from `s₀`, with the
commands whose appends are over. -/
inductive Appends (crc : Bytes → UInt32) (cfg : Config) (P : Sys → Act → Prop) (s₀ : Sys) :
    Sys → List Command → Prop
  | nil : Appends crc cfg P s₀ s₀ []
  | step {s s' : Sys} {ops : List Command} {a : Act} (h : Appends crc cfg P s₀ s ops)
      (ha : a.OfCall) (hp : P s a) (hs : step crc cfg s a = some s') :
      Appends crc cfg P s₀ s' (ops ++ finished crc s s')

/-- `rotate_to` is about to create the next file. -/
def Lock.isSealing : Lock → Bool
  | .rotateTo .create _ _ => true
  | _ => false

/-- If the step seals the active file, the file has no hint. A rotation comes after an append, so a
hint of the file would not list all its records. -/
def SealsUnhinted (s : Sys) : Act → Prop
  | .writer _ => s.lock.isSealing = true → s.fs.lookup (.hint s.writer.currentFileId) = none
  | _ => True

instance : ∀ s a, Decidable (SealsUnhinted s a)
  | s, .writer _ => inferInstanceAs (Decidable
      (s.lock.isSealing = true → s.fs.lookup (.hint s.writer.currentFileId) = none))
  | _, .begin _ _ | _, .write _ | _, .writerErr _ | _, .mergeErr _ _ _ | _, .start | _, .merge
  | _, .spill _ _ => .isTrue trivial

/-- The value of a key: that of the record the index points to. -/
def Sys.stored (crc : Bytes → UInt32) (s : Sys) (key : Bytes) : Option Bytes := do
  let e ← s.index.get key
  let i ← s.readers[e.fileId]?
  let r ← (Command.deserialize crc (slice (s.fs.bytes i) e.offset (e.offset + e.len))).toOption
  r.1.getValue

/-- A map after a list of commands. -/
def mapAfter (m : Bytes → Option Bytes) (ops : List Command) : Bytes → Option Bytes :=
  ops.foldl (fun m c => Function.update m c.getKey c.getValue) m

section Maps

variable {crc : Bytes → UInt32} {cfg : Config} {s s' s₀ : Sys} {fs₀ : Fs FileName}
  {ops : List Command}

theorem Appends.of_steps {P : Sys → Act → Prop} [∀ s a, Decidable (P s a)] {acts : List Act}
    (h : Appends crc cfg P s₀ s ops)
    (hs : steps crc cfg (fun s a => a.OfCall ∧ P s a) acts s = some s') :
    Appends crc cfg P s₀ s' (ops ++ finishedBy crc cfg acts s) := by
  induction acts generalizing s ops with
  | nil =>
    obtain rfl := Option.some.inj hs
    rw [finishedBy, List.append_nil]
    exact h
  | cons a acts ih =>
    obtain ⟨s₁, ha, hs₁, hs⟩ := steps_cons hs
    rw [finishedBy, hs₁, ← List.append_assoc]
    exact ih (.step h ha.1 ha.2 hs₁) hs

theorem mapAfter_append (m : Bytes → Option Bytes) (ops : List Command) (c : Command) :
    mapAfter m (ops ++ [c]) = Function.update (mapAfter m ops) c.getKey c.getValue := by
  unfold mapAfter
  rw [List.foldl_append]
  rfl

/-- The value after a log and some commands. -/
theorem mapAfter_value (evs : List (Bytes × Option Bytes)) (ops : List Command) (k : Bytes) :
    mapAfter (value · evs) ops k = value k (evs ++ events ops) := by
  induction ops using List.reverseRecOn with
  | nil =>
    show value k evs = value k (evs ++ [])
    rw [List.append_nil]
  | append_singleton ops c ih =>
    rw [mapAfter_append, events_append, ← List.append_assoc]
    by_cases hk : c.getKey = k
    · subst hk
      rw [Function.update_self]
      exact (value_append_self ..).symm
    · rw [Function.update_of_ne (Ne.symm hk), ih]
      exact (value_append_ne hk ..).symm

/-- In an opened store, the value of a key is its value after the replayed events. -/
theorem Opened.stored (h : Opened crc fs₀ s) {evs : List (Bytes × Option Bytes)}
    (hrep : Represents crc (recordsIn crc s.fs) (s.readers[·]?) evs s.index) (k : Bytes) :
    s.stored crc k = value k evs := by
  unfold Sys.stored
  cases hv : value k evs with
  | none => rw [hrep.of_none hv]; rfl
  | some v =>
    obtain ⟨e, i, he, hi, hat, hlen⟩ := hrep.of_some hv
    obtain ⟨hb, hfits⟩ := (h.sealed ((h.readers _ _).mp hi)).eq
    have hslice : slice (s.fs.bytes i) e.offset (e.offset + e.len) =
        (Command.set e.ts k v).serialize crc := by
      have := hat.slice_eq []
      rw [List.append_nil] at this
      rw [hb, hlen]
      exact this
    have hd := Command.deserialize_serialize crc (hfits _ hat.mem) []
    rw [List.append_nil] at hd
    simp only [he, hi, hslice, hd, Option.bind_eq_bind, Option.bind_some]
    rfl

end Maps

/-! ## What the files say -/

/-- What the file with the id says when it is replayed while `cur` is the active file: a sealed file
is read from its hint if it has one. -/
def said (recs : Inode → List Command) (fs : Fs FileName) (cur id : ℕ) : List (Bytes × Option Bytes) :=
  replayed (id ≠ cur ∧ (fs.lookup (.hint id)).isSome) (segsOf recs fs id)

/-- The hints of the sealed files list their records, and the files give every key its value after
the events `evs`. -/
structure Appending (crc : Bytes → UInt32) (cfg : Config) (recs : Inode → List Command)
    (evs : List (Bytes × Option Bytes)) (s : Sys) : Prop where
  rep : Rep crc cfg recs s
  tight : Tight s
  marker : s.fs.read .lock = some (asBytes engine)
  hints : ∀ {id j i}, s.fs.lookup (.hint id) = some j → s.fs.lookup (.data id) = some i →
    id ≠ s.writer.currentFileId → s.fs.bytes j = hintsOf crc 0 (recs i)
  final : ∀ k, Final (said recs s.fs s.writer.currentFileId) k (value k evs)

section Appending

variable {crc : Bytes → UInt32} {cfg : Config} {recs recs' : Inode → List Command}
  {evs : List (Bytes × Option Bytes)} {s s' : Sys} {a : Act} {fs fs' fs₀ : Fs FileName} {id cur : ℕ}

theorem said_none (recs : Inode → List Command) (h : fs.lookup (.data id) = none) :
    said recs fs cur id = [] := by
  unfold said
  rw [segsOf_none _ h]
  exact replayed_sets (by simp) _

theorem said_of_no_hint (recs : Inode → List Command) (h : fs.lookup (.hint id) = none) :
    said recs fs cur id = events (segsOf recs fs id) := by
  unfold said
  rw [decide_eq_false (by rw [h]; simp)]
  exact replayed_false _

/-- The active file is read from its records. -/
theorem said_cur (recs : Inode → List Command) (fs : Fs FileName) (cur : ℕ) :
    said recs fs cur cur = events (segsOf recs fs cur) := by
  unfold said
  rw [decide_eq_false (by simp)]
  exact replayed_false _

theorem said_congr (hh : fs'.lookup (.hint id) = fs.lookup (.hint id))
    (hseg : segsOf recs' fs' id = segsOf recs fs id) :
    said recs' fs' cur id = said recs fs cur id := by
  unfold said
  rw [hh, hseg]

/-- No file has an id above the active one's. -/
theorem Appending.said_above (h : Appending crc cfg recs evs s) {j : ℕ}
    (hj : s.writer.currentFileId < j) : said recs s.fs s.writer.currentFileId j = [] := by
  apply said_none
  by_contra hne
  obtain ⟨i, hi⟩ := Option.ne_none_iff_exists'.mp hne
  exact absurd (h.rep.core.rd_le (h.rep.core.dir_rd hi)) (Nat.not_le_of_lt hj)

/-- A step that keeps the names, the active file and the bytes of the hints. -/
theorem Appending.frame (h : Appending crc cfg recs evs s) (hrep : Rep crc cfg recs s')
    (ht : Tight s') (hm : s'.fs.read .lock = s.fs.read .lock)
    (hl : ∀ n, s'.fs.lookup n = s.fs.lookup n)
    (hb : ∀ {id j}, s.fs.lookup (.hint id) = some j → s'.fs.bytes j = s.fs.bytes j)
    (hcur : s'.writer.currentFileId = s.writer.currentFileId) :
    Appending crc cfg recs evs s' where
  rep := hrep
  tight := ht
  marker := hm.trans h.marker
  hints {id j i} hj hi hid := by
    rw [hl] at hj hi
    rw [hcur] at hid
    rw [hb hj]
    exact h.hints hj hi hid
  final k := by
    rw [hcur]
    refine (h.final k).congr fun id => ?_
    rw [said_congr (hl _) (segsOf_congr (hl _) fun _ => rfl)]

/-- A record at the end of the active file decides its key. -/
theorem final_record {D D' : ℕ → List (Bytes × Option Bytes)} {cur : ℕ} (c : Command)
    (hmax : ∀ j, cur < j → D j = []) (hcur : D' cur = D cur ++ [event c])
    (hne : ∀ id, id ≠ cur → D' id = D id) (h : ∀ k, Final D k (value k evs)) (k : Bytes) :
    Final D' k (value k (evs ++ [event c])) := by
  have hD : D' = Function.update D cur (D cur ++ [event c]) := by
    funext id
    by_cases hid : id = cur
    · rw [hid, Function.update_self, hcur]
    · rw [Function.update_of_ne hid, hne id hid]
  rw [hD]
  by_cases hk : c.getKey = k
  · have hv : value k (evs ++ [event c]) = c.getValue := by
      rw [← hk]
      exact value_append_self ..
    rw [hv, ← hk]
    exact Final.append_self hmax c.getKey c.getValue
  · have hv : value k (evs ++ [event c]) = value k evs := value_append_ne hk ..
    rw [hv]
    exact (h k).append_ne hk cur

/-- More bytes of a record; the last of them make it a record of the active file. -/
theorem Appending.write (h : Appending crc cfg recs evs s) {c : Command} {done n : ℕ}
    (hl : s.lock = .writing c done) (hn : done + n ≤ (c.serialize crc).length)
    (hmax : (s.fs.bytes s.writer.file).length + n < maxFileLen)
    (hs' : s' = { s with
      fs := s.fs.append s.writer.file (((c.serialize crc).drop done).take n)
      lock := .writing c (done + n) })
    (ht : Tight s') (hm : s'.fs.read .lock = s.fs.read .lock) :
    ∃ recs', Appending crc cfg recs' (evs ++ events (logged crc s (.write n))) s' := by
  have hrep := h.rep.write hl hn hmax
  have hlogged : logged crc s (.write n) =
      if done < (c.serialize crc).length ∧ done + n = (c.serialize crc).length then [c] else [] := by
    rw [logged, hl]
  rw [← hlogged, ← hs'] at hrep
  have hlook : ∀ n, s'.fs.lookup n = s.fs.lookup n := fun n => by rw [hs']; rfl
  have hcur : s'.writer.currentFileId = s.writer.currentFileId := by rw [hs']
  have hhint : ∀ {id j}, s.fs.lookup (.hint id) = some j → s'.fs.bytes j = s.fs.bytes j := by
    intro id j hj
    rw [hs']
    refine Fs.bytes_append_ne ?_ _
    rintro rfl
    cases s.fs.dir_inj _ _ _ hj h.rep.core.cur_dir
  by_cases hc : done < (c.serialize crc).length ∧ done + n = (c.serialize crc).length
  · rw [if_pos hc] at hlogged
    rw [hlogged] at hrep ⊢
    have hrecs : ∀ {id i}, s.fs.lookup (.data id) = some i → id ≠ s.writer.currentFileId →
        Function.update recs s.writer.file (recs s.writer.file ++ [c]) i = recs i := by
      intro id i hi hid
      exact Function.update_of_ne (h.rep.core.ne_file (h.rep.core.dir_rd hi) hid) ..
    refine ⟨_, hrep, ht, hm.trans h.marker, fun {id j i} hj hi hid => ?_, ?_⟩
    · rw [hlook] at hj hi
      rw [hcur] at hid
      rw [hhint hj, hrecs hi hid]
      exact h.hints hj hi hid
    · rw [hcur]
      refine final_record c (fun j hj => h.said_above hj) ?_ (fun id hid => ?_) h.final
      · rw [said_cur, said_cur, segsOf_some _ h.rep.core.cur_dir,
          segsOf_some _ ((hlook _).trans h.rep.core.cur_dir), Function.update_self, events_append]
        rfl
      · exact said_congr (hlook _) (segsOf_congr (hlook _) fun hi => hrecs hi hid)
  · rw [if_neg hc] at hlogged
    rw [hlogged, List.append_nil, Function.update_eq_self] at hrep
    rw [hlogged, events_nil, List.append_nil]
    exact ⟨recs, h.frame hrep ht hm hlook hhint hcur⟩

/-- A new active file, which is empty. The one that is sealed has no hint, so it says what it said. -/
theorem Appending.rotateCreate (h : Appending crc cfg recs evs s) {next : ℕ} {caller : Caller}
    (hl : s.lock = .rotateTo .create next caller)
    (hsealed : s.fs.lookup (.hint s.writer.currentFileId) = none) (now : ℕ)
    (ht : Tight (s.rotateTo now .create next caller))
    (hm : (s.rotateTo now .create next caller).fs.read .lock = s.fs.read .lock) :
    ∃ recs', Appending crc cfg recs' evs (s.rotateTo now .create next caller) := by
  have hlt : s.writer.currentFileId < next := by
    have hlr := h.rep.lock
    rw [hl] at hlr
    exact hlr.2
  have hnew := h.rep.lookup_next hlt
  set s' := s.rotateTo now .create next caller with hs'
  have hfs : s'.fs = s.fs.create (.data next) := rfl
  have hdata : ∀ {id i}, id ≠ next → s'.fs.lookup (.data id) = some i →
      s.fs.lookup (.data id) = some i := by
    intro id i hid hi
    rwa [hfs, Fs.lookup_create_ne (by simpa using hid)] at hi
  have hhint : ∀ id, s'.fs.lookup (.hint id) = s.fs.lookup (.hint id) := fun id =>
    Fs.lookup_create_ne (by simp)
  have hrecs : ∀ {n i}, s.fs.lookup n = some i → Function.update recs s.fs.next [] i = recs i :=
    fun hi => Function.update_of_ne (Nat.ne_of_lt (s.fs.dir_lt _ _ hi)) ..
  refine ⟨_, h.rep.rotateCreate hl now, ht, hm.trans h.marker, fun {id j i} hj hi hid => ?_,
    fun k => ?_⟩
  · replace hid : id ≠ next := hid
    rw [hhint] at hj
    have hi := hdata hid hi
    have hne : id ≠ s.writer.currentFileId := by
      rintro rfl
      rw [hsealed] at hj
      cases hj
    rw [hfs, Fs.bytes_create_of_lt (s.fs.dir_lt _ _ hj), hrecs hi]
    exact h.hints hj hi hne
  · show Final (said _ s'.fs next) k (value k evs)
    refine (h.final k).congr fun id => congrArg (lastOf k) ?_
    by_cases hid : id = next
    · subst hid
      have hi : s'.fs.lookup (.data id) = some s.fs.next := by
        rw [hfs, Fs.lookup_create_self, Fs.handle_of_none hnew]
      rw [said_none _ hnew, said_cur, segsOf_some _ hi, Function.update_self, events_nil]
    have hsegs : segsOf (Function.update recs s.fs.next []) s'.fs id = segsOf recs s.fs id :=
      segsOf_congr (Fs.lookup_create_ne (by simpa using hid)) fun hi => hrecs hi
    by_cases hcur : id = s.writer.currentFileId
    · subst hcur
      rw [said_of_no_hint _ ((hhint _).trans hsealed), said_of_no_hint _ hsealed, hsegs]
    · unfold said
      simp only [ne_eq, hid, hcur, not_false_eq_true, true_and, hhint, hsegs]

/-- What one step of a call preserves. -/
theorem Appending.step (h : Appending crc cfg recs evs s) (ha : a.OfCall) (hp : SealsUnhinted s a)
    (hfits : a.Fits) (hs : Step crc cfg s a s') :
    ∃ recs', Appending crc cfg recs' (evs ++ events (logged crc s a)) s' := by
  have htidy : Tidy s a := by
    cases a with
    | writerErr | mergeErr => exact ha.elim
    | _ => trivial
  have ht := tight_step h.rep h.tight htidy hs
  have hm := h.rep.marker_step hs
  cases hs with
  | writer hw =>
    cases h.rep.writerMove hw with
    | begin call ts hl =>
      have hrep := h.rep.begin hl (h.tight (Or.inl hl)).symm hfits
      refine ⟨recs, ?_⟩
      show Appending crc cfg recs (evs ++ []) _
      rw [List.append_nil]
      exact h.frame hrep ht hm (fun _ => rfl) (fun _ => rfl) rfl
    | write c done n hl hn hmax => exact h.write hl hn hmax rfl ht hm
    | publish c now hl =>
      refine ⟨recs, ?_⟩
      show Appending crc cfg recs (evs ++ []) _
      rw [List.append_nil]
      exact h.frame (h.rep.publish hl) ht hm (fun _ => rfl) (fun _ => rfl) rfl
    | rotateCreate next now caller hl =>
      have hsealed : s.fs.lookup (.hint s.writer.currentFileId) = none := hp (by rw [hl]; rfl)
      obtain ⟨recs', h'⟩ := h.rotateCreate hl hsealed now ht hm
      refine ⟨recs', ?_⟩
      show Appending crc cfg recs' (evs ++ []) _
      rw [List.append_nil]
      exact h'
    | rotateReader next now caller i hl hi =>
      refine ⟨recs, ?_⟩
      show Appending crc cfg recs (evs ++ []) _
      rw [List.append_nil]
      have hfs : ((s.readersUpdate next i).endRotate caller).fs = s.fs ∧
          ((s.readersUpdate next i).endRotate caller).writer.currentFileId =
            s.writer.currentFileId := by
        cases caller with
        | append c => exact ⟨rfl, rfl⟩
        | compaction =>
          unfold Sys.endRotate
          split <;> exact ⟨rfl, rfl⟩
      exact h.frame (h.rep.rotateReader hl hi) ht hm (fun n => by rw [hfs.1])
        (fun _ => by rw [hfs.1]) hfs.2
    | failRotate st next caller e hl => exact ha.elim
    | quiet _ _ hnw hrep hl hb hidx hcur hmg hw hw' =>
      have hlogged : logged crc s a = [] := by
        cases a with
        | write n => exact absurd rfl (hnw n)
        | _ => rfl
      rw [hlogged, events_nil, List.append_nil]
      exact ⟨recs, h.frame hrep ht hm hl (fun _ => by rw [hb]) hcur⟩
  | merge | startNot | startPanic | start | spill | mergeErr | outputErr => exact ha.elim

end Appending

/-! ## From one `open` to the next -/

section Reopen

variable {crc : Bytes → UInt32} {cfg : Config} {recs : Inode → List Command}
  {evs : List (Bytes × Option Bytes)} {s s₁ : Sys} {fs fs₀ : Fs FileName} {ops : List Command}

/-- In an opened store `get` answers with the value of the key. -/
theorem Opened.get_eq (h : Opened crc fs₀ s) (key : String) :
    s.get crc key = some (answer (s.stored crc (asBytes key))) := by
  obtain ⟨evs, hrep, -⟩ := h.final
  rw [h.stored hrep]
  unfold Sys.get
  cases hv : value (asBytes key) evs with
  | none => rw [hrep.of_none hv]; rfl
  | some v =>
    obtain ⟨e, i, he, hi, hat, hlen⟩ := hrep.of_some hv
    obtain ⟨hb, hfits⟩ := (h.sealed ((h.readers _ _).mp hi)).eq
    have hb' : s.fs.bytes i = encodeAll crc (recordsIn crc s.fs i) ++ [] := by
      rw [List.append_nil]
      exact hb
    simp only [he, hi, hb', readValue_at hat hfits hlen]

/-- A store opened on a directory with faithful hints. -/
theorem Opened.appending (ho : Opened crc fs₀ s) (hf : Faithful crc fs₀)
    (hm : MarkerOk (fs₀.read .lock)) (cfg : Config) :
    ∃ recs evs, Appending crc cfg recs evs s ∧ ∀ k, s.stored crc k = value k evs := by
  obtain ⟨recs, hrecs, hrep⟩ := ho.rep cfg
  obtain ⟨evs, hrepr, hfinal⟩ := ho.final
  refine ⟨recs, evs, ⟨hrep, ho.tight, ho.marker hm, fun {id j i} hj hi _ => ?_, fun k => ?_⟩,
    ho.stored hrepr⟩
  · obtain ⟨hj₀, hbj, -⟩ := ho.hint hj
    obtain ⟨i₀, hi₀⟩ := Option.ne_none_iff_exists'.mp (ho.orphan id (by rw [hj]; simp))
    obtain rfl := Option.some.inj (hi.symm.trans (ho.old hi₀).1)
    have hseg := ho.segs hrecs id
    rw [segsOf_some _ hi, segsOf_some _ hi₀] at hseg
    obtain ⟨cs, hb, hh, hfits⟩ := hf hj₀ hi₀
    rw [hbj, hh, hseg, recordsIn, hb, recordsOf_sealed hfits]
  · refine (hfinal k).congr fun id => congrArg (lastOf k) ?_
    have hsegs : segsOf recs s.fs id = segsOf (recordsIn crc s.fs) s.fs id := segsOf_congr rfl hrecs
    unfold replayedIn said
    rw [← hsegs]
    by_cases hid : id = s.writer.currentFileId
    · rw [decide_eq_false (by simp [hid]), decide_eq_false (by simp [hid])]
    · cases hi : s.fs.lookup (.data id) with
      | none => rw [segsOf_none _ hi, replayed_sets (by simp), replayed_sets (by simp)]
      | some i =>
        simp only [segsOf_some _ hi, hrecs hi, ne_eq, hid, not_false_eq_true, true_and,
          Bool.decide_eq_true]
        exact ho.kept hi hid

/-- What a run of calls preserves. -/
theorem Appends.appending (h : Appends crc cfg SealsUnhinted s₁ s ops) (hl : s₁.lock = .free)
    (h₁ : Appending crc cfg recs evs s₁) :
    ∃ recs', Appending crc cfg recs' (evs ++ events (ops ++ s.lock.written crc)) s := by
  induction h with
  | nil =>
    refine ⟨recs, ?_⟩
    rw [hl]
    show Appending crc cfg recs (evs ++ []) s₁
    rw [List.append_nil]
    exact h₁
  | step _ ha hp hs ih =>
    obtain ⟨recs', h'⟩ := ih
    have hfits := step_fits hs
    have hs := step_cases hs
    obtain ⟨recs'', h''⟩ := h'.step ha hp hfits hs
    rw [List.append_assoc, ← events_append, List.append_assoc, ← finished_written hs,
      ← List.append_assoc] at h''
    exact ⟨recs'', h''⟩

/-- `open` succeeds on the directory that a run of calls leaves. -/
theorem Appending.openable (h : Appending crc cfg recs evs s) :
    Openable crc s.fs ∧ SealedFaithful crc s.fs ∧ Bounded s.fs := by
  have hle : ∀ {id i}, s.fs.lookup (.data id) = some i → id ≤ s.writer.currentFileId :=
    fun hi => h.rep.core.rd_le (h.rep.core.dir_rd hi)
  have hne : ∀ {id}, (∃ id', id < id' ∧ s.fs.lookup (.data id') ≠ none) →
      id ≠ s.writer.currentFileId := by
    rintro id ⟨id', hlt, hd⟩
    obtain ⟨i', hi'⟩ := Option.ne_none_iff_exists'.mp hd
    exact Nat.ne_of_lt (hlt.trans_le (hle hi'))
  refine ⟨⟨Or.inr (Or.inr h.marker), fun {id i} hi => ?_⟩, fun {id} hbelow j i hj hi => ?_,
    fun hi => h.rep.core.rd_len (h.rep.core.dir_rd hi)⟩
  · obtain ⟨-, hr, hs⟩ := h.rep.recordsIn_eq hi
    exact ⟨hr, fun hbelow => hs (hne hbelow)⟩
  · obtain ⟨hrecs, -, hs⟩ := h.rep.recordsIn_eq hi
    exact ⟨recs i, by rw [← hrecs]; exact (hs (hne hbelow)).eq.1, h.hints hj hi (hne hbelow),
      h.rep.core.fits i⟩

/-- A store opened on the directory that a run of calls leaves has the values of the run. -/
theorem Appending.reopened {s₂ : Sys} (h : Appending crc cfg recs evs s)
    (ho : Opened crc s.fs s₂) (k : Bytes) : s₂.stored crc k = value k evs := by
  obtain ⟨evs', hrep, hfinal⟩ := ho.final
  rw [ho.stored hrep]
  refine (hfinal k).unique ((h.final k).congr fun id => congrArg (lastOf k) ?_)
  have hcur : s₂.writer.currentFileId = s.writer.currentFileId := by
    apply le_antisymm
    · rcases ho.fresh ho.current with hi | ⟨-, hnone, -⟩
      · exact h.rep.core.rd_le (h.rep.core.dir_rd hi)
      · have := h.rep.core.cur_dir
        rw [hnone] at this; cases this
    · exact ho.le_current (ho.old h.rep.core.cur_dir).1
  have hsegs : segsOf (recordsIn crc s₂.fs) s₂.fs id = segsOf recs s.fs id :=
    (ho.segs (fun _ => rfl) id).trans (segsOf_congr rfl fun hi => (h.rep.recordsIn_eq hi).1)
  unfold replayedIn said
  rw [hsegs, hcur]

/-- Closing the store leaves the names and the bytes of the files. -/
theorem Sys.close_eq (hc : s.close = some fs) : (fs = s.fs ∨ fs = s.fs.sync s.writer.file) ∧
    s.lock.inFlight = [] := by
  unfold Sys.close at hc
  split at hc
  case h_5 => cases hc
  all_goals
    rename_i hlock
    obtain rfl := Option.some.inj hc
    rw [hlock]
    first | exact ⟨Or.inl rfl, rfl⟩ | exact ⟨Or.inr rfl, rfl⟩

/-- Appends onto a reopened directory survive: after `open`, any `set` and `remove` calls with any
number of rotations, none of which seals a file that has a hint, and a close, the next `open` recovers
the map of the first one with the operations applied in order. -/
theorem appends_survive_reopen (now' : ℕ) {listing listing' : List FileName}
    {now : ℕ} (hf : Faithful crc fs₀) (hb : Bounded fs₀) (hm : MarkerOk (fs₀.read .lock))
    (hlist : (fs₀.create .lock).Lists listing)
    (hopen : (openStore crc listing now fs₀).result = .ok s₁)
    (hrun : Appends crc cfg SealsUnhinted s₁ s ops) (hclose : s.close = some fs)
    (hlist' : (fs.create .lock).Lists listing') :
    ∃ s₂, (openStore crc listing' now' fs).result = .ok s₂ ∧
      s₂.stored crc = mapAfter (s₁.stored crc) ops ∧
      ∀ key, s₂.get crc key = some (answer (s₂.stored crc (asBytes key))) := by
  obtain ⟨-, ho⟩ := (openStore_spec hlist (Faithful.sealed hf) hb).ok rfl hopen
  obtain ⟨recs₁, evs₁, h₁, hstored⟩ := ho.appending hf hm cfg
  obtain ⟨recs, h⟩ := hrun.appending ho.free h₁
  obtain ⟨hfs, hlock⟩ := Sys.close_eq hclose
  rw [Lock.written_of_inFlight hlock, List.append_nil] at h
  -- the closed directory has the names and the bytes of the running store
  obtain ⟨s', hs', h'⟩ : ∃ s', s'.fs = fs ∧ Appending crc cfg recs (evs₁ ++ events ops) s' := by
    rcases hfs with rfl | rfl
    · exact ⟨s, rfl, h⟩
    · refine ⟨{ s with fs := s.fs.sync s.writer.file }, rfl, ?_⟩
      have hrep : Rep crc cfg recs { s with fs := s.fs.sync s.writer.file } :=
        h.rep.private (fun _ => rfl) rfl rfl rfl rfl rfl rfl rfl rfl rfl h.rep.lock
      exact h.frame hrep h.tight rfl (fun _ => rfl) (fun _ => rfl) rfl
  subst hs'
  obtain ⟨hopenable, hfaithful, hbounded⟩ := h'.openable
  obtain ⟨s₂, hs₂, ho₂⟩ := hopenable.opens hfaithful hbounded hlist'
  refine ⟨s₂, hs₂, ?_, ho₂.get_eq⟩
  funext k
  rw [h'.reopened ho₂, funext hstored, mapAfter_value]

end Reopen

section Listed

variable {crc : Bytes → UInt32} {fs : Fs FileName} {l : List FileName}

/-- A directory with one hint. -/
theorem faithful_of_lists (cs : List Command) (hl : fs.Lists l) (id : ℕ) (i j : Inode)
    (honly : ∀ id', FileName.hint id' ∈ l → id' = id) (hj : fs.lookup (.hint id) = some j)
    (hi : fs.lookup (.data id) = some i) (hd : fs.bytes i = encodeAll crc cs)
    (hh : fs.bytes j = hintsOf crc 0 cs) (hfits : ∀ c ∈ cs, c.Fits) : Faithful crc fs := by
  intro id' j' i' hj' hi'
  obtain rfl := honly id' ((hl.2 _).mpr (by rw [hj']; rfl))
  obtain rfl := Option.some.inj (hj.symm.trans hj')
  obtain rfl := Option.some.inj (hi.symm.trans hi')
  exact ⟨cs, hd, hh, hfits⟩

theorem bounded_of_lists (hl : fs.Lists l)
    (h : ∀ n ∈ l, ∀ i ∈ fs.lookup n, (fs.bytes i).length < maxFileLen) : Bounded fs := by
  intro id i hi
  exact h (.data id) ((hl.2 _).mpr (by rw [hi]; rfl)) i hi

end Listed

/-- The record a merge has copied. -/
def copied : List Command := [.set 0 (asBytes "a") (asBytes "1")]

/-- The output of a merge: a data file and its hint. -/
def mergeOutput : Fs FileName :=
  (Fs.empty.put (.data 1) (encodeAll crc32 copied)).put (.hint 1) (hintsOf crc32 0 copied)

theorem lists_mergeOutput : mergeOutput.Lists [.data 1, .hint 1] ∧
    (mergeOutput.create .lock).Lists [.lock, .data 1, .hint 1] :=
  ⟨Fs.lists_of_keys (by decide) (by decide +kernel), Fs.lists_of_keys (by decide) (by decide +kernel)⟩

theorem faithful_mergeOutput : Faithful crc32 mergeOutput :=
  faithful_of_lists copied lists_mergeOutput.1 1 0 1 (by simp) (by decide +kernel)
    (by decide +kernel) (by decide +kernel) (by decide +kernel) (by decide)

theorem bounded_mergeOutput : Bounded mergeOutput :=
  bounded_of_lists lists_mergeOutput.1 (by decide +kernel)

/-- The directory is opened, calls are made, and the store is closed. -/
def writeOnto (cfg : Config) (P : Sys → Act → Prop) [∀ s a, Decidable (P s a)]
    (listing : List FileName) (acts : List Act) (fs : Fs FileName) :
    Option (Sys × Sys × Fs FileName) := do
  let s₁ ← reopen crc32 listing fs
  let s ← steps crc32 cfg (fun s a => a.OfCall ∧ P s a) acts s₁
  let closed ← s.close
  some (s₁, s, closed)

theorem writeOnto_eq {cfg : Config} {P : Sys → Act → Prop} [∀ s a, Decidable (P s a)]
    {listing : List FileName} {acts : List Act} {fs : Fs FileName} {s₁ s : Sys}
    {closed : Fs FileName} (h : writeOnto cfg P listing acts fs = some (s₁, s, closed)) :
    (openStore crc32 listing 0 fs).result = .ok s₁ ∧
      Appends crc32 cfg P s₁ s (finishedBy crc32 cfg acts s₁) ∧ s.close = some closed := by
  unfold writeOnto at h
  obtain ⟨s₁', hopen, h⟩ := Option.bind_eq_some_iff.mp h
  obtain ⟨s', hs, h⟩ := Option.bind_eq_some_iff.mp h
  obtain ⟨closed', hc, h⟩ := Option.bind_eq_some_iff.mp h
  obtain ⟨rfl, rfl, rfl⟩ : s₁' = s₁ ∧ s' = s ∧ closed' = closed := by
    simpa using Option.some.inj h
  refine ⟨?_, Appends.of_steps .nil hs, hc⟩
  unfold reopen at hopen
  cases hr : (openStore crc32 listing 0 fs).result with
  | error e => rw [hr] at hopen; cases hopen
  | ok s₂ =>
    rw [hr] at hopen
    rw [Option.some.inj hopen]

/-- A set and a remove. -/
def setAndRemove : List Act :=
  Call.acts crc32 (.set "b" "2") 3 ++ Call.acts crc32 (.remove "a") 3

/-- The active file has a hint and stays the active one: the appends to it are there after the next
`open`. -/
theorem appends_survive_reopen_hinted : ∃ s₁ s fs s₂,
    writeOnto Config.new SealsUnhinted [.lock, .data 1, .hint 1] setAndRemove mergeOutput =
      some (s₁, s, fs) ∧
    s₁.fs.lookup (.hint s₁.writer.currentFileId) = some 1 ∧
    (openStore crc32 [.lock, .data 1, .hint 1] 0 fs).result = .ok s₂ ∧
    s₂.stored crc32 = mapAfter (s₁.stored crc32)
      [.set 0 (asBytes "b") (asBytes "2"), .rm 0 (asBytes "a")] := by
  have hrun : (writeOnto Config.new SealsUnhinted [.lock, .data 1, .hint 1] setAndRemove
      mergeOutput).any fun r =>
        finishedBy crc32 Config.new setAndRemove r.1 =
          [.set 0 (asBytes "b") (asBytes "2"), .rm 0 (asBytes "a")] ∧
        r.1.fs.lookup (.hint r.1.writer.currentFileId) = some 1 ∧
        [FileName.lock, .data 1, .hint 1].toFinset = (r.2.2.create .lock).dir.keys := by
    decide +kernel
  obtain ⟨⟨s₁, s, fs⟩, hs, hc⟩ := (Option.any_eq_true ..).mp hrun
  obtain ⟨hops, hhint, hkeys⟩ := of_decide_eq_true hc
  obtain ⟨hopen, happ, hclose⟩ := writeOnto_eq hs
  obtain ⟨s₂, hs₂, hmap, -⟩ := appends_survive_reopen 0 faithful_mergeOutput
    bounded_mergeOutput (Or.inl (by decide +kernel)) lists_mergeOutput.2 hopen happ
    hclose (Fs.lists_of_keys (by decide) hkeys)
  rw [hops] at hmap
  exact ⟨s₁, s, fs, s₂, hs, hhint, hs₂, hmap⟩

/-- The active file has a hint: the append that fills it is gone after the next `open`. -/
theorem stale_hint_forgets_append : Faithful crc32 mergeOutput ∧ Bounded mergeOutput ∧
    (mergeOutput.create .lock).Lists [.lock, .data 1, .hint 1] ∧ ∃ s₁ s fs s₂,
      (openStore crc32 [.lock, .data 1, .hint 1] 0 mergeOutput).result = .ok s₁ ∧
      Appends crc32 smallFiles (fun _ _ => True) s₁ s [.set 0 (asBytes "a") (asBytes "2")] ∧
      s.close = some fs ∧
      (fs.create .lock).Lists [.lock, .data 1, .hint 1, .data 2] ∧
      reopen crc32 [.lock, .data 1, .hint 1, .data 2] fs = some s₂ ∧
      s.get crc32 "a" = some (.ok (some "2")) ∧ s₂.get crc32 "a" = some (.ok (some "1")) ∧
      s₂.stored crc32 ≠ mapAfter (s₁.stored crc32) [.set 0 (asBytes "a") (asBytes "2")] := by
  have hrun : (writeOnto smallFiles (fun _ _ => True) [.lock, .data 1, .hint 1]
      (Call.acts crc32 (.set "a" "2") 7) mergeOutput).any fun r =>
        finishedBy crc32 smallFiles (Call.acts crc32 (.set "a" "2") 7) r.1 =
          [.set 0 (asBytes "a") (asBytes "2")] ∧
        [FileName.lock, .data 1, .hint 1, .data 2].toFinset = (r.2.2.create .lock).dir.keys ∧
        r.2.1.get crc32 "a" = some (.ok (some "2")) ∧
        (reopen crc32 [.lock, .data 1, .hint 1, .data 2] r.2.2).any fun s₂ =>
          s₂.get crc32 "a" = some (.ok (some "1")) ∧
          s₂.stored crc32 (asBytes "a") = some (asBytes "1") := by decide +kernel
  obtain ⟨⟨s₁, s, fs⟩, hs, hc⟩ := (Option.any_eq_true ..).mp hrun
  obtain ⟨hops, hkeys, hget, hc⟩ := of_decide_eq_true hc
  obtain ⟨s₂, hs₂, hc⟩ := (Option.any_eq_true ..).mp hc
  obtain ⟨hget₂, hstored⟩ := of_decide_eq_true hc
  obtain ⟨hopen, happ, hclose⟩ := writeOnto_eq hs
  rw [hops] at happ
  refine ⟨faithful_mergeOutput, bounded_mergeOutput, lists_mergeOutput.2, s₁, s, fs, s₂, hopen,
    happ, hclose, Fs.lists_of_keys (by decide) hkeys, hs₂, hget, hget₂, fun he => ?_⟩
  have hlost : some (asBytes "1") = some (asBytes "2") :=
    hstored.symm.trans (congrFun he (asBytes "a"))
  exact absurd hlost (by decide)

end Bitcask
