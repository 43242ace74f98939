import Bitcask.Storage.RepresentWriter

/-!
# The compaction thread keeps the representation invariant

One lemma for each group of transitions of the compaction thread, and `rep_mergeStep` for all of
them. Sources are sealed files of whole records, so the loop over a source meets no torn tail and
no record that does not decode. The ids of the outputs stay below the file the merge rotated to,
because every output but the last holds a threshold's worth of the bytes of the sources.
-/

namespace Bitcask

open LittleEndian FileSystem

variable {crc : Bytes → UInt32} {cfg : Config} {recs recs' : Inode → List Command} {s s' : Sys}
  {r : MergeRun} {out : MergeOutput}

theorem LockRep.congr {fs fs' : Fs FileName} {w : WriterState} {l : Lock}
    (h : LockRep crc recs fs w l) (hb : fs'.bytes w.file = fs.bytes w.file)
    (hr : recs' w.file = recs w.file) : LockRep crc recs' fs' w l := by
  cases l with
  | rotateTo st next caller => cases st <;> simpa only [LockRep, Whole, hb, hr] using h
  | _ => simpa only [LockRep, Whole, hb, hr] using h

theorem Rep.not_rotates (h : Rep crc cfg recs s) (hm : ∀ r, s.merge ≠ .rotating r) :
    s.lock.rotates = none := by
  by_contra hne
  obtain ⟨r, hr⟩ := h.rotates hne
  exact hm r hr

/-- A step of the merge on files of its own. -/
theorem Rep.mergeFs (h : Rep crc cfg recs s) (hnr : ∀ r, s.merge ≠ .rotating r)
    {fs' : Fs FileName} {m : Merge}
    (hcore : Core crc recs' fs' s.handles s.index s.writer.currentFileId s.writer.file)
    (hb : fs'.bytes s.writer.file = s.fs.bytes s.writer.file)
    (hr : recs' s.writer.file = recs s.writer.file) (hren : m.renamed = s.merge.renamed)
    (hnames : NamesLe fs' s.writer.currentFileId)
    (hm : MergeRep crc cfg recs' fs' s.handles s.index s.writer.currentFileId s.lock m) :
    Rep crc cfg recs' { s with fs := fs', merge := m } := by
  have hh : Sys.handles { s with fs := fs', merge := m } = s.handles :=
    funext (handles_congr rfl rfl rfl rfl hren)
  refine ⟨by rw [hh]; exact hcore, h.lock.congr hb hr, by rw [hh]; exact hm, hnames, fun hrot => ?_⟩
  exact absurd (h.not_rotates hnr) hrot

/-- A step of the merge that touches no file. -/
theorem Rep.mergeOnly (h : Rep crc cfg recs s) (hnr : ∀ r, s.merge ≠ .rotating r) {m : Merge}
    (hren : m.renamed = s.merge.renamed)
    (hm : MergeRep crc cfg recs s.fs s.handles s.index s.writer.currentFileId s.lock m) :
    Rep crc cfg recs { s with merge := m } :=
  h.mergeFs hnr h.core rfl rfl hren h.names hm

/-! ## The start -/

theorem mem_snapshot {f : ℕ × Inode} (hf : f ∈ s.snapshot) :
    s.readers[f.1]? = some f.2 ∧ f.1 ≠ s.writer.currentFileId := by
  obtain ⟨hmem, hne⟩ := List.mem_filter.mp hf
  exact ⟨Std.TreeMap.mem_toList_iff_getElem?_eq_some.mp hmem, by simpa using hne⟩

/-- The snapshot is taken and the rotation begins. -/
theorem Rep.start (h : Rep crc cfg recs s) {last : Option (Except KvsError Unit)}
    (hm : s.merge = .idle last) (hl : s.lock = .free)
    (hend : (s.fs.bytes s.writer.file).length = s.writer.offset)
    (hz : cfg.fileSizeThreshold ≠ 0) :
    Rep crc cfg recs
      { s with
        lock := .rotateTo .sync
          (s.writer.currentFileId + (s.totalBytes / cfg.fileSizeThreshold + 2) + 1) .compaction
        merge := .rotating ⟨s.writer.currentFileId, s.writer.staleBytesCount, s.snapshot, [],
          s.writer.currentFileId, []⟩ } := by
  set bar := s.writer.currentFileId + (s.totalBytes / cfg.fileSizeThreshold + 2) + 1 with hbar
  have hlr := h.lock
  rw [hl] at hlr
  obtain ⟨t, ht, -, hoff⟩ := hlr
  have hnil : t = [] := by
    rw [ht, List.length_append, hoff] at hend
    exact List.eq_nil_of_length_eq_zero (by omega)
  subst hnil
  rw [List.append_nil] at ht
  have hhandles : ∀ id, s.handles id = s.readers[id]? :=
    handles_eq (by rw [hl]; rfl) (by rw [hm]; rfl)
  have hh : ∀ {s' : Sys}, s'.readers = s.readers → s'.lock.opening = false →
      s'.merge.renamed = none → s'.handles = s.handles := by
    intro s' hrd hop hren
    funext id
    rw [handles_eq hop hren, hhandles, hrd]
  have hsrc : ∀ f ∈ s.snapshot, s.handles f.1 = some f.2 ∧ f.1 < s.writer.currentFileId := by
    intro f hf
    obtain ⟨hf, hne⟩ := mem_snapshot hf
    have hf' : s.handles f.1 = some f.2 := (hhandles _).trans hf
    exact ⟨hf', Nat.lt_of_le_of_ne (h.core.rd_le hf') hne⟩
  have htotal : todoLen crc recs s.snapshot = s.totalBytes := by
    unfold todoLen Sys.totalBytes
    congr 1
    refine List.map_congr_left fun f hf => ?_
    obtain ⟨hf, hlt⟩ := hsrc f hf
    rw [h.core.sealed_bytes hf (Nat.ne_of_lt hlt)]
  have hlt : s.writer.currentFileId < bar := Nat.lt_succ_of_le (Nat.le_add_right _ _)
  refine ⟨?_, ⟨⟨ht, hoff⟩, hlt⟩, ?_, h.names, fun _ => ⟨_, rfl⟩⟩
  · rw [hh (by rfl) (by rfl) (by rfl)]
    exact h.core
  · rw [hh (by rfl) (by rfl) (by rfl)]
    refine ⟨rfl, rfl, rfl, bar, rfl, rfl, ?_⟩
    refine ⟨Nat.pos_of_ne_zero hz, Nat.le_refl _, Nat.le_refl _, hlt, hsrc,
      by simp, fun hi => Or.inl (h.core.rd_le hi), h.names, Or.inr ⟨0, rfl, s.totalBytes, ?_, ?_⟩⟩
    · simp only [htotal]; omega
    · simp only; omega

/-! ## The loop over the snapshot -/

/-- The merge takes the next file of its snapshot. -/
theorem RunRep.tail {fs : Fs FileName} {rd : ℕ → Option Inode} {cur bar used : ℕ} {isOpen : Bool}
    {f : ℕ × Inode} {rest : List (ℕ × Inode)} (h : RunRep crc cfg recs fs rd cur bar r isOpen used)
    (ht : r.todo = f :: rest) :
    RunRep crc cfg recs fs rd cur bar { r with todo := rest } isOpen used where
  threshold_pos := h.threshold_pos
  bar_le := h.bar_le
  first_le := h.first_le
  next_lt := h.next_lt
  todo g hg := h.todo g (by rw [ht]; exact List.mem_cons_of_mem _ hg)
  removed := h.removed
  ids := h.ids
  names := h.names
  budget := Or.inr (h.budget.resolve_left (by rw [ht]; simp))

/-- Fewer bytes are left. -/
theorem RunRep.mono {fs : Fs FileName} {rd : ℕ → Option Inode} {cur bar used used' : ℕ}
    {isOpen : Bool} (h : RunRep crc cfg recs fs rd cur bar r isOpen used) (hle : used' ≤ used) :
    RunRep crc cfg recs fs rd cur bar r isOpen used' :=
  { h with budget := h.budget.imp_right fun ⟨full, hn, hb⟩ => ⟨full, hn, hb.mono hle⟩ }

/-- A source that is walked to its end is noted for removal. -/
theorem RunRep.push {fs : Fs FileName} {rd : ℕ → Option Inode} {cur bar used fileId : ℕ}
    {isOpen : Bool} (h : RunRep crc cfg recs fs rd cur bar r isOpen used)
    (hlt : fileId < r.firstCompactedFileId) :
    RunRep crc cfg recs fs rd cur bar { r with idsToRemove := r.idsToRemove ++ [fileId] } isOpen
      used :=
  { h with
    removed := fun id hid => by
      rcases List.mem_append.mp hid with hid | hid
      · exact h.removed id hid
      · rw [List.mem_singleton.mp hid]; exact hlt }

theorem Rep.lastOutput (h : Rep crc cfg recs s) (hm : s.merge = .nextFile r (some out))
    (ht : r.todo = []) : Rep crc cfg recs { s with merge := .finish .syncData r out } := by
  have hmr := h.merge
  rw [hm] at hmr
  obtain ⟨ho, hn, bar, hr⟩ := hmr
  exact h.mergeOnly (by rw [hm]; simp) (by rw [hm]; rfl) ⟨ho, hn, Or.inl ht, bar, hr⟩

theorem Rep.scanned (h : Rep crc cfg recs s) (hm : s.merge = .nextFile r none) :
    Rep crc cfg recs { s with merge := .removeData r.idsToRemove r.initStaleBytes } := by
  have hmr := h.merge
  rw [hm] at hmr
  obtain ⟨-, bar, hr⟩ := hmr
  exact h.mergeOnly (by rw [hm]; simp) (by rw [hm]; rfl) fun id hid => hr.lt_cur (hr.removed id hid)

theorem Rep.source (h : Rep crc cfg recs s) {fileId : ℕ} {i : Inode} {rest : List (ℕ × Inode)}
    (hm : s.merge = .nextFile r (some out)) (ht : r.todo = (fileId, i) :: rest) :
    Rep crc cfg recs
      { s with
        merge := .records { r with todo := rest } out fileId
          (RecordReader.new (s.fs.bytes i) (s.fs.bytes i).length) } := by
  have hmr := h.merge
  rw [hm] at hmr
  obtain ⟨ho, hn, bar, hr⟩ := hmr
  obtain ⟨hi, hlt⟩ := hr.todo (fileId, i) (by rw [ht]; exact List.mem_cons_self)
  have hb := h.core.sealed_bytes hi (Nat.ne_of_lt (hr.lt_cur hlt))
  refine h.mergeOnly (by rw [hm]; simp) (by rw [hm]; rfl)
    ⟨⟨ho.id_eq, ho.hint_name, ho.data_bytes, ho.hint_bytes, ho.written, ho.sets, ho.pending⟩, hn, i,
      [], recs i, hi, hlt, rfl, ?_, bar, ?_⟩
  · rw [hb, new_eq_readerAt]; rfl
  · refine (hr.tail ht).mono ?_
    rw [ht]
    simp only [todoLen, List.map_cons, List.sum_cons]
    omega

/-- `MergeOutput::open` creates the data file under its temporary name. -/
theorem Rep.openData (h : Rep crc cfg recs s) {f : ℕ × Inode} {rest : List (ℕ × Inode)}
    (hm : s.merge = .nextFile r none) (ht : r.todo = f :: rest) :
    Rep crc cfg (Function.update recs s.fs.next [])
      { s with
        fs := s.fs.create (.compact (r.nextCompactionFileId + 1))
        merge := .openHint { r with nextCompactionFileId := r.nextCompactionFileId + 1 }
          (r.nextCompactionFileId + 1) (s.fs.handle (.compact (r.nextCompactionFileId + 1))) } := by
  have hmr := h.merge
  rw [hm] at hmr
  obtain ⟨hp, bar, hr⟩ := hmr
  have hfree : s.fs.lookup (.compact (r.nextCompactionFileId + 1)) = none := by
    by_contra hne
    have := hr.names _ (Or.inl hne)
    omega
  have hfreeHint : s.fs.lookup (.hint (r.nextCompactionFileId + 1)) = none := by
    by_contra hne
    have := hr.names _ (Or.inr hne)
    omega
  have hhandle : s.fs.handle (.compact (r.nextCompactionFileId + 1)) = s.fs.next :=
    Fs.handle_of_none hfree
  have hno : ∀ id, s.handles id ≠ some s.fs.next := fun id hid =>
    absurd (h.core.rd_lt hid) (Nat.lt_irrefl _)
  have hrecs : ∀ {i}, i < s.fs.next → Function.update recs s.fs.next [] i = recs i := fun hi =>
    Function.update_of_ne (Nat.ne_of_lt hi) ..
  have hnames : NamesLe (s.fs.create (.compact (r.nextCompactionFileId + 1)))
      (r.nextCompactionFileId + 1) := by
    intro id hid
    by_cases hne : id = r.nextCompactionFileId + 1
    · omega
    · rw [Fs.lookup_create_ne (by simpa using hne), Fs.lookup_create_ne (by simp)] at hid
      exact (hr.names id hid).trans (Nat.le_succ _)
  obtain ⟨full, hnext, hbudget⟩ := hr.budget.resolve_left (by rw [ht]; simp)
  have hlt := hbudget.lt hr.threshold_pos
  have htodo : todoLen crc (Function.update recs s.fs.next []) r.todo = todoLen crc recs r.todo :=
    todoLen_congr fun f hf => hrecs (h.core.rd_lt (hr.todo f hf).1)
  refine h.mergeFs (by rw [hm]; simp) ((h.core.create_other (by simp)).recs_other hno (by simp))
    (Fs.bytes_create_of_lt h.core.file_lt) (hrecs h.core.file_lt) (by rw [hm]; rfl)
    (hnames.mono ?_) ?_
  · have := hr.bar_le
    simp only [Bool.toNat_false] at hnext
    omega
  · rw [hhandle]
    refine ⟨hp, rfl, Fs.lookup_create_self_of_none hfree, Fs.bytes_create_next hfree,
      Function.update_self .., ?_, bar, ?_⟩
    · rw [Fs.lookup_create_ne (by simp)]; exact hfreeHint
    · simp only [htodo]
      refine ⟨hr.threshold_pos, hr.bar_le, ?_, ?_, hr.todo, hr.removed, ?_, hnames,
        Or.inr ⟨full, ?_, hbudget⟩⟩
      · have := hr.first_le
        simp only [Bool.toNat_true, Bool.toNat_false] at this ⊢
        omega
      · simp only [Bool.toNat_false] at hnext
        show r.nextCompactionFileId + 1 < bar
        omega
      · intro id i hi
        rcases hr.ids hi with hle | hge
        · simp only [Bool.toNat_true, Bool.toNat_false] at hle ⊢
          exact Or.inl (by omega)
        · exact Or.inr hge
      · simp only [Bool.toNat_true, Bool.toNat_false] at hnext ⊢
        omega

/-- `MergeOutput::open` creates the hint file. -/
theorem Rep.openHint (h : Rep crc cfg recs s) {id : ℕ} {data : Inode}
    (hm : s.merge = .openHint r id data) : Rep crc cfg recs (s.openHint r id data) := by
  have hmr := h.merge
  rw [hm] at hmr
  obtain ⟨hp, rfl, hn, hb, hrecs, hfree, bar, hr⟩ := hmr
  have hhandle : s.fs.handle (.hint r.nextCompactionFileId) = s.fs.next :=
    Fs.handle_of_none hfree
  have hnames : NamesLe (s.fs.create (.hint r.nextCompactionFileId)) r.nextCompactionFileId := by
    intro id hid
    by_cases hne : id = r.nextCompactionFileId
    · omega
    · rw [Fs.lookup_create_ne (by simp), Fs.lookup_create_ne (by simpa using hne)] at hid
      exact hr.names id hid
  have hdata : (s.fs.create (.hint r.nextCompactionFileId)).lookup
      (.compact r.nextCompactionFileId) = some data := by
    rw [Fs.lookup_create_ne (by simp)]; exact hn
  refine h.mergeFs (by rw [hm]; simp) (h.core.create_other (by simp))
    (Fs.bytes_create_of_lt h.core.file_lt) rfl (by rw [hm]; rfl) (hnames.mono ?_)
    ⟨⟨rfl, ?_, ?_, ?_, ?_, ?_, ?_⟩, hdata, bar, ?_⟩
  · exact hr.next_lt_cur.le
  · rw [hhandle]; exact Fs.lookup_create_self_of_none hfree
  · simp only [hrecs, encodeAll_nil, List.append_nil]
    rw [Fs.bytes_create_of_lt (s.fs.dir_lt _ _ hn)]; exact hb
  · simp only [hrecs, hhandle, hintsOf, List.append_nil]
    exact Fs.bytes_create_next hfree
  · simp [hrecs]
  · simp [hrecs]
  · rw [hp]; simp
  · refine ⟨hr.threshold_pos, hr.bar_le, hr.first_le, hr.next_lt, hr.todo, hr.removed, hr.ids,
      hnames, ?_⟩
    simp only [Nat.zero_add]
    exact hr.budget

/-! ## The loop over the records of a source -/

theorem OutRep.run {fs : Fs FileName} {rd : ℕ → Option Inode} {r' : MergeRun}
    (h : OutRep crc recs fs rd r out) (hn : r'.nextCompactionFileId = r.nextCompactionFileId)
    (hp : r'.pendingRecords = r.pendingRecords) : OutRep crc recs fs rd r' out where
  id_eq := h.id_eq.trans hn.symm
  hint_name := h.hint_name
  data_bytes := h.data_bytes
  hint_bytes := h.hint_bytes
  written := h.written
  sets := h.sets
  pending := by rw [hp]; exact h.pending

/-- What the compaction thread finds next in a source: its end, or a whole record. -/
theorem next_cases {pos : ℕ} {rest : List Command} {x : RecordRead} {rd' : RecordReader}
    (hfits : ∀ c ∈ rest, c.Fits) (hx : (readerAt crc pos rest).nextRecord = some (x, rd')) :
    (rest = [] ∧ x = .cleanEof) ∨ ∃ c rest', rest = c :: rest' ∧
      x = .record pos (c.serialize crc) ∧
      rd' = readerAt crc (pos + (c.serialize crc).length) rest' := by
  cases rest with
  | nil =>
    rw [nextRecord_readerAt_nil, Option.some.injEq, Prod.mk.injEq] at hx
    exact Or.inl ⟨rfl, hx.1.symm⟩
  | cons c rest =>
    rw [nextRecord_readerAt_cons (hfits c List.mem_cons_self), Option.some.injEq,
      Prod.mk.injEq] at hx
    exact Or.inr ⟨c, rest, rfl, hx.1.symm, hx.2.symm⟩

/-- The end of a source. -/
theorem Rep.eof (h : Rep crc cfg recs s) {fileId : ℕ} {rd rd' : RecordReader}
    (hm : s.merge = .records r out fileId rd) (hx : rd.nextRecord = some (.cleanEof, rd')) :
    Rep crc cfg recs
        { s with
          merge := .nextFile { r with idsToRemove := r.idsToRemove ++ [fileId] } (some out) } ∧
      (cfg.fileSizeThreshold ≤ out.written → Rep crc cfg recs
        { s with
          merge := .finish .syncData { r with idsToRemove := r.idsToRemove ++ [fileId] } out }) := by
  have hmr := h.merge
  rw [hm] at hmr
  obtain ⟨ho, hn, i, done, rest, hi, hlt, hsplit, hreader, bar, hr⟩ := hmr
  have hfits : ∀ c ∈ rest, c.Fits := fun c hc =>
    h.core.fits i c (by rw [hsplit]; exact List.mem_append_right _ hc)
  rw [hreader] at hx
  rcases next_cases hfits hx with ⟨rfl, -⟩ | ⟨c, rest', -, hx', -⟩
  · have hr' := hr.push hlt
    rw [encodeAll_nil, List.length_nil, Nat.add_zero] at hr'
    refine ⟨h.mergeOnly (by rw [hm]; simp) (by rw [hm]; rfl) ⟨ho.run rfl rfl, hn, bar, hr'⟩,
      fun hfull => h.mergeOnly (by rw [hm]; simp) (by rw [hm]; rfl)
        ⟨ho.run rfl rfl, hn, Or.inr hfull, bar, hr'⟩⟩
  · cases hx'

/-- A source holds no torn tail and no record that does not decode. -/
theorem Rep.record_ok (h : Rep crc cfg recs s) {fileId : ℕ} {rd : RecordReader}
    (hm : s.merge = .records r out fileId rd) :
    rd.nextRecord ≠ none ∧ (∀ p rd', rd.nextRecord ≠ some (.tornTail p, rd')) ∧
      ∀ p b rd', rd.nextRecord = some (.record p b, rd') →
        ∃ c, b = c.serialize crc ∧ Command.deserialize crc b = .ok (c, b.length) := by
  have hmr := h.merge
  rw [hm] at hmr
  obtain ⟨-, -, i, done, rest, -, -, hsplit, rfl, -⟩ := hmr
  have hfits : ∀ c ∈ rest, c.Fits := fun c hc =>
    h.core.fits i c (by rw [hsplit]; exact List.mem_append_right _ hc)
  refine ⟨?_, ?_, ?_⟩
  · cases rest with
    | nil => rw [nextRecord_readerAt_nil]; simp
    | cons c rest => rw [nextRecord_readerAt_cons (hfits c List.mem_cons_self)]; simp
  · intro p rd' hx
    rcases next_cases hfits hx with ⟨-, hx'⟩ | ⟨c, rest', -, hx', -⟩ <;> cases hx'
  · intro p b rd' hx
    rcases next_cases hfits hx with ⟨-, hx'⟩ | ⟨c, rest', rfl, hx', -⟩
    · cases hx'
    · obtain ⟨-, rfl⟩ := RecordRead.record.inj hx'
      have hd := Command.deserialize_serialize crc (hfits c List.mem_cons_self) []
      rw [List.append_nil] at hd
      exact ⟨c, rfl, hd⟩

theorem Rep.record_decodes (h : Rep crc cfg recs s) {fileId p : ℕ} {b : Bytes}
    {rd rd' : RecordReader} (hm : s.merge = .records r out fileId rd)
    (hr : rd.nextRecord = some (.record p b, rd')) (e : KvsError) :
    Command.deserialize crc b ≠ .error e := by
  obtain ⟨c, -, hc⟩ := (h.record_ok hm).2.2 p b rd' hr
  rw [hc]
  exact nofun

/-- The output is there when it gets its name. -/
theorem Rep.rename_found (h : Rep crc cfg recs s) (hm : s.merge = .finish .rename r out) :
    s.fs.lookup (.compact out.id) ≠ none := by
  have hmr := h.merge
  rw [hm] at hmr
  rw [hmr.2.1.1]
  exact Option.some_ne_none _

/-- The output is there when its handle is opened. -/
theorem Rep.reader_found (h : Rep crc cfg recs s) (hm : s.merge = .finish .reader r out) :
    s.fs.lookup (.data out.id) ≠ none := by
  have hmr := h.merge
  rw [hm] at hmr
  rw [hmr.2.1.1]
  exact Option.some_ne_none _

/-- A record that is not copied. -/
theorem Rep.skip (h : Rep crc cfg recs s) {fileId p : ℕ} {b : Bytes} {rd rd' : RecordReader}
    (hm : s.merge = .records r out fileId rd) (hx : rd.nextRecord = some (.record p b, rd')) :
    Rep crc cfg recs { s with merge := .records r out fileId rd' } := by
  have hmr := h.merge
  rw [hm] at hmr
  obtain ⟨ho, hn, i, done, rest, hi, hlt, hsplit, hreader, bar, hr⟩ := hmr
  have hfits : ∀ c ∈ rest, c.Fits := fun c hc =>
    h.core.fits i c (by rw [hsplit]; exact List.mem_append_right _ hc)
  rw [hreader] at hx
  rcases next_cases hfits hx with ⟨-, hx'⟩ | ⟨c, rest', rfl, -, rfl⟩
  · cases hx'
  · refine h.mergeOnly (by rw [hm]; simp) (by rw [hm]; rfl)
      ⟨ho, hn, i, done ++ [c], rest', hi, hlt, by rw [hsplit]; simp, by simp, bar, hr.mono ?_⟩
    simp only [encodeAll_cons, List.length_append]
    omega

/-- A live record is copied into the output. -/
theorem Rep.copy (h : Rep crc cfg recs s) {fileId p n : ℕ} {b key v : Bytes}
    {rd rd' : RecordReader} {ts : UInt64} (hm : s.merge = .records r out fileId rd)
    (hx : rd.nextRecord = some (.record p b, rd'))
    (hd : Command.deserialize crc b = .ok (.set ts key v, n)) :
    Rep crc cfg (Function.update recs out.data (recs out.data ++ [.set ts key v]))
      { s with
        merge := .records
          { r with pendingRecords := r.pendingRecords ++
              [⟨key, ⟨fileId, ts, p, b.length⟩, (out.append crc b key ts).2⟩] }
          (out.append crc b key ts).1 fileId rd' } := by
  have hmr := h.merge
  rw [hm] at hmr
  obtain ⟨ho, hn, i, done, rest, hi, hlt, hsplit, hreader, bar, hr⟩ := hmr
  have hfits : ∀ c ∈ rest, c.Fits := fun c hc =>
    h.core.fits i c (by rw [hsplit]; exact List.mem_append_right _ hc)
  rw [hreader] at hx
  rcases next_cases hfits hx with ⟨-, hx'⟩ | ⟨c, rest', rfl, hx', rfl⟩
  · cases hx'
  obtain ⟨rfl, rfl⟩ := RecordRead.record.inj hx'
  have hc : c.Fits := hfits c List.mem_cons_self
  have hd' := Command.deserialize_serialize crc hc []
  rw [List.append_nil, hd, Except.ok.injEq, Prod.mk.injEq] at hd'
  obtain rfl : Command.set ts key v = c := hd'.1
  have hno := h.core.no_handle hn (by simp)
  have hne : ∀ {id j}, s.handles id = some j → j ≠ out.data := fun hj he => hno _ (he ▸ hj)
  have hrecs : ∀ {id j}, s.handles id = some j →
      Function.update recs out.data (recs out.data ++ [.set ts key v]) j = recs j := fun hj =>
    Function.update_of_ne (hne hj) ..
  have hself : Function.update recs out.data (recs out.data ++ [.set ts key v]) out.data =
      recs out.data ++ [.set ts key v] := Function.update_self ..
  have htodo : todoLen crc (Function.update recs out.data (recs out.data ++ [.set ts key v])) r.todo =
      todoLen crc recs r.todo := todoLen_congr fun f hf => hrecs (hr.todo f hf).1
  refine h.mergeFs (by rw [hm]; simp) (h.core.recs_other hno ?_) rfl (hrecs h.core.rd_cur)
    (by rw [hm]; rfl) h.names
    ⟨⟨ho.id_eq, ho.hint_name, ?_, ?_, ?_, ?_, ?_⟩, hn, i, done ++ [.set ts key v], rest', hi, hlt, ?_,
      by simp, bar, ?_⟩
  · intro d hdm
    rcases List.mem_append.mp hdm with hdm | hdm
    · exact h.core.fits _ d hdm
    · rw [List.mem_singleton.mp hdm]; exact hc
  · simp only [MergeOutput.append, hself, encodeAll_append, encodeAll_cons, encodeAll_nil,
      List.append_nil, ← ho.data_bytes, List.append_assoc]
  · simp only [MergeOutput.append, hself, hintsOf_append, hintsOf, hintOf, List.append_nil,
      ← ho.hint_bytes, List.append_assoc, Nat.zero_add, ← ho.written]
    rfl
  · simp only [MergeOutput.append, hself, encodeAll_append, encodeAll_cons, encodeAll_nil,
      List.append_nil, List.length_append, ho.written]
  · intro d hdm
    simp only [MergeOutput.append, hself] at hdm
    rcases List.mem_append.mp hdm with hdm | hdm
    · exact ho.sets d hdm
    · rw [List.mem_singleton.mp hdm]; trivial
  · intro q hq
    rcases List.mem_append.mp hq with hq | hq
    · exact (ho.pending q hq).frame (by rw [hself]; exact List.prefix_append ..) (fun hj => hj)
        (fun hj => by rw [hrecs hj])
    · rw [List.mem_singleton.mp hq]
      refine ⟨rfl, v, i, ?_, rfl, hi, ?_⟩
      · simp only [MergeOutput.append, hself, ho.written]
        exact At.last _ _
      · rw [hrecs hi, hsplit]
        exact ⟨done, rest', rfl, rfl⟩
  · rw [hrecs hi, hsplit]; simp
  · simp only [htodo, MergeOutput.append]
    have hr' : RunRep crc cfg (Function.update recs out.data (recs out.data ++ [.set ts key v])) s.fs
        s.handles s.writer.currentFileId bar r true _ :=
      hr.frame (Nat.le_refl _) (fun _ _ => rfl) (fun hj => hj) (fun hj => Or.inl hj)
    refine ⟨hr'.threshold_pos, hr'.bar_le, hr'.first_le, hr'.next_lt, hr'.todo, hr'.removed, hr'.ids,
      hr'.names, ?_⟩
    have hb := hr'.budget
    rw [encodeAll_cons, List.length_append, ← Nat.add_assoc] at hb
    exact hb

/-! ## `finish_output` -/

/-- The files of an output whose data file has its temporary name. -/
theorem Rep.output_files (h : Rep crc cfg recs s) (ho : OutRep crc recs s.fs s.handles r out)
    (hn : s.fs.lookup (.compact out.id) = some out.data) :
    (∀ id, s.handles id ≠ some out.data) ∧ (∀ id, s.handles id ≠ some out.hint) ∧
      out.hint ≠ out.data ∧ s.writer.file ≠ out.data ∧ s.writer.file ≠ out.hint := by
  have hd := h.core.no_handle hn (by simp)
  have hh := h.core.no_handle ho.hint_name (by simp)
  refine ⟨hd, hh, fun he => ?_, fun he => hd _ (he ▸ h.core.rd_cur), fun he => hh _ (he ▸ h.core.rd_cur)⟩
  have hn' : s.fs.lookup (.compact out.id) = some out.hint := by rw [hn, he]
  cases s.fs.dir_inj _ _ _ ho.hint_name hn'

/-- The data file of the output is flushed and synced. -/
theorem Rep.syncData (h : Rep crc cfg recs s) (hm : s.merge = .finish .syncData r out)
    (hlen : (s.fs.bytes out.data).length + out.dataBuf.length < maxFileLen) :
    Rep crc cfg recs
      { s with
        fs := (s.fs.append out.data out.dataBuf).sync out.data
        merge := .finish .syncHint r { out with dataBuf := [] } } := by
  have hmr := h.merge
  rw [hm] at hmr
  obtain ⟨ho, hn, hfull, bar, hr⟩ := hmr
  obtain ⟨hd, -, hne, hfd, -⟩ := h.output_files ho hn
  refine h.mergeFs (by rw [hm]; simp) ((h.core.append_other hd _).sync _)
    (Fs.bytes_append_ne hfd _) rfl (by rw [hm]; rfl) h.names
    ⟨⟨ho.id_eq, ho.hint_name, ?_, ?_, ho.written, ho.sets, ho.pending⟩, ⟨hn, rfl, ?_⟩, hfull, bar,
      hr.frame (Nat.le_refl _) (fun _ _ => rfl) (fun hj => hj) (fun hj => Or.inl hj)⟩
  · simp only [Fs.bytes_sync, Fs.bytes_append_self, List.append_nil]
    exact ho.data_bytes
  · simp only [Fs.bytes_sync, Fs.bytes_append_ne hne]
    exact ho.hint_bytes
  · simp only [Fs.bytes_sync, Fs.bytes_append_self, List.length_append]
    exact hlen

/-- The hint file of the output is flushed and synced. -/
theorem Rep.syncHint (h : Rep crc cfg recs s) (hm : s.merge = .finish .syncHint r out) :
    Rep crc cfg recs
      { s with
        fs := (s.fs.append out.hint out.hintBuf).sync out.hint
        merge := .finish .rename r { out with hintBuf := [] } } := by
  have hmr := h.merge
  rw [hm] at hmr
  obtain ⟨ho, ⟨hn, hbuf, hlen⟩, hfull, bar, hr⟩ := hmr
  obtain ⟨-, hh, hne, -, hfh⟩ := h.output_files ho hn
  refine h.mergeFs (by rw [hm]; simp) ((h.core.append_other hh _).sync _)
    (Fs.bytes_append_ne hfh _) rfl (by rw [hm]; rfl) h.names
    ⟨⟨ho.id_eq, ho.hint_name, ?_, ?_, ho.written, ho.sets, ho.pending⟩,
      ⟨hn, ⟨hbuf, rfl⟩, ?_⟩, hfull, bar,
      hr.frame (Nat.le_refl _) (fun _ _ => rfl) (fun hj => hj) (fun hj => Or.inl hj)⟩
  · simp only [Fs.bytes_sync, Fs.bytes_append_ne hne.symm]
    exact ho.data_bytes
  · simp only [Fs.bytes_sync, Fs.bytes_append_self, List.append_nil]
    exact ho.hint_bytes
  · simp only [Fs.bytes_sync, Fs.bytes_append_ne hne.symm]
    exact hlen

/-- The id of an output that has no data name yet is free. -/
theorem RunRep.output_free {fs : Fs FileName} {rd : ℕ → Option Inode} {cur bar used id : ℕ}
    (h : RunRep crc cfg recs fs rd cur bar r true used) (hid : id = r.nextCompactionFileId) :
    rd id = none := by
  by_contra hne
  obtain ⟨i, hi⟩ := Option.ne_none_iff_exists'.mp hne
  have := h.next_lt
  rcases h.ids hi with hle | hge
  · simp only [Bool.toNat_true] at hle
    omega
  · omega

/-- The output gets its data name. -/
theorem Rep.rename (h : Rep crc cfg recs s) (hm : s.merge = .finish .rename r out) :
    Rep crc cfg recs
      { s with
        fs := s.fs.rename (.compact out.id) (.data out.id)
        merge := .finish .reader r out } := by
  have hmr := h.merge
  rw [hm] at hmr
  obtain ⟨ho, ⟨hn, hbuf, hlen⟩, hfull, bar, hr⟩ := hmr
  have hfree := hr.output_free ho.id_eq
  have hlt : out.id < s.writer.currentFileId := hr.output_lt ho
  have hdata : s.fs.bytes out.data = encodeAll crc (recs out.data) := by
    rw [← ho.data_bytes, hbuf.1, List.append_nil]
  have hh : ∀ id, Sys.handles { s with
      fs := s.fs.rename (.compact out.id) (.data out.id)
      merge := .finish .reader r out } id =
      Function.update s.handles out.id (some out.data) id := by
    intro id
    unfold Sys.handles
    by_cases hid : id = out.id
    · subst hid
      rw [Function.update_self, if_neg (fun hc => Nat.ne_of_lt hlt hc.2)]
      exact if_pos rfl
    · rw [Function.update_of_ne hid, hm]
      by_cases hc : s.lock.opening = true ∧ id = s.writer.currentFileId
      · rw [if_pos hc, if_pos hc]
      · rw [if_neg hc, if_neg hc]
        exact if_neg hid
  have hl : ∀ n, (∀ id, n ≠ .data id) →
      (s.fs.rename (.compact out.id) (.data out.id)).lookup n ≠ none → s.fs.lookup n ≠ none := by
    intro n hnd hlk
    by_cases hc : n = .compact out.id
    · rw [hc, Fs.lookup_rename_old hn (by simp)] at hlk; exact absurd rfl hlk
    · rwa [Fs.lookup_rename_ne hc (hnd _)] at hlk
  refine ⟨?_, ?_, ?_, h.names.congr_some hl, fun hrot => absurd (h.not_rotates (by rw [hm]; simp)) hrot⟩
  · rw [funext hh]
    exact h.core.rename hn hfree hlt hdata hlen
  · exact h.lock.congr (by simp only [Fs.bytes_rename]) rfl
  · rw [funext hh]
    have hrd : ∀ {id i}, s.handles id = some i →
        Function.update s.handles out.id (some out.data) id = some i := by
      intro id i hi
      rw [Function.update_of_ne]
      · exact hi
      · rintro rfl; rw [hfree] at hi; cases hi
    refine ⟨⟨ho.id_eq, ?_, ?_, ?_, ho.written, ho.sets, ?_⟩, ⟨Fs.lookup_rename_new hn, hbuf, ?_⟩, hfull,
      bar, ?_⟩
    · exact (Fs.lookup_rename_ne (by simp) (by simp)).trans ho.hint_name
    · simp only [Fs.bytes_rename]; exact ho.data_bytes
    · simp only [Fs.bytes_rename]; exact ho.hint_bytes
    · exact fun p hp => (ho.pending p hp).frame (List.prefix_refl _) hrd fun _ => List.prefix_refl _
    · intro k e hk heq
      obtain ⟨i, v, hi, -⟩ := h.core.entry hk
      rw [heq, hfree] at hi; cases hi
    · refine ⟨hr.threshold_pos, hr.bar_le, ?_, hr.next_lt, fun f hf => ⟨hrd (hr.todo f hf).1,
        (hr.todo f hf).2⟩, hr.removed, ?_, hr.names.congr_some hl, ?_⟩
      · have := hr.first_le
        simp only [FinishStep.unnamed, Bool.toNat_true, Bool.toNat_false] at this ⊢
        omega
      · intro id i hi
        rcases handle_cases hi with ⟨rfl, -⟩ | ⟨-, hi⟩
        · exact Or.inl (by rw [ho.id_eq]; simp [FinishStep.unnamed])
        · refine (hr.ids hi).imp_left fun hle => ?_
          simp only [FinishStep.unnamed, Bool.toNat_true, Bool.toNat_false] at hle ⊢
          omega
      · rcases hfull with hnil | hfull
        · exact Or.inl hnil
        · refine hr.budget.imp_right fun ⟨full, hnext, hb⟩ => ⟨full + 1, ?_, ?_⟩
          · simp only [FinishStep.unnamed, Bool.toNat_true, Bool.toNat_false] at hnext ⊢
            omega
          · simp only [FinishStep.unnamed, if_true] at hb
            simpa [FinishStep.unnamed] using hb.full hfull

/-- The readers map gets the handle of the output. -/
theorem Rep.reader (h : Rep crc cfg recs s) {i : Inode} (hm : s.merge = .finish .reader r out)
    (hi : s.fs.lookup (.data out.id) = some i) :
    Rep crc cfg recs { s.readersUpdate out.id i with merge := .finish .updates r out } := by
  have hmr := h.merge
  rw [hm] at hmr
  obtain ⟨ho, ⟨hn, hbuf, -⟩, hfull, bar, hr⟩ := hmr
  obtain rfl : out.data = i := Option.some.inj (hn.symm.trans hi)
  have hh : Sys.handles { s.readersUpdate out.id out.data with merge := .finish .updates r out } =
      s.handles := by
    funext id
    unfold Sys.handles
    rw [hm]
    by_cases hc : s.lock.opening = true ∧ id = s.writer.currentFileId
    · rw [if_pos hc]; exact if_pos hc
    · rw [if_neg hc]
      refine (if_neg hc).trans ?_
      by_cases hid : id = out.id
      · subst hid
        exact readers_insert_self.trans (if_pos rfl).symm
      · exact (readers_insert_ne hid).trans (if_neg hid).symm
  have hrd : s.handles out.id = some out.data := h.core.dir_rd hn
  refine ⟨by rw [hh]; exact h.core, h.lock, ?_, h.names,
    fun hrot => absurd (h.not_rotates (by rw [hm]; simp)) hrot⟩
  rw [hh]
  exact ⟨ho, ⟨hn, hbuf, hrd⟩, hfull, bar, hr⟩

/-- One pending update is applied. -/
theorem Rep.update (h : Rep crc cfg recs s) {p : PendingUpdate} {ps : List PendingUpdate}
    (hm : s.merge = .finish .updates r out) (hp : r.pendingRecords = p :: ps) :
    Rep crc cfg recs
      { s with
        index := Sys.applyPending s.index p
        merge := .finish .updates { r with pendingRecords := ps } out } := by
  have hmr := h.merge
  rw [hm] at hmr
  obtain ⟨ho, ⟨hn, hbuf, hrd⟩, hfull, bar, hr⟩ := hmr
  have hcore : Core crc recs s.fs s.handles (Sys.applyPending s.index p) s.writer.currentFileId
      s.writer.file := by
    obtain ⟨hid, v, i, hnew, hlen, -⟩ := ho.pending p (by rw [hp]; exact List.mem_cons_self)
    unfold Sys.applyPending
    split
    · split
      · exact h.core.insert (by rw [hid]; exact hrd) hnew hlen
      · exact h.core
    · exact h.core
  have hh : Sys.handles { s with
      index := Sys.applyPending s.index p
      merge := .finish .updates { r with pendingRecords := ps } out } = s.handles :=
    funext (handles_congr rfl rfl rfl rfl (by rw [hm]; rfl))
  refine ⟨by rw [hh]; exact hcore, h.lock, ?_, h.names,
    fun hrot => absurd (h.not_rotates (by rw [hm]; simp)) hrot⟩
  rw [hh]
  refine ⟨⟨ho.id_eq, ho.hint_name, ho.data_bytes, ho.hint_bytes, ho.written, ho.sets,
    fun q hq => ho.pending q (by rw [hp]; exact List.mem_cons_of_mem _ hq)⟩, ⟨hn, hbuf, hrd⟩, hfull,
    bar, ?_⟩
  exact ⟨hr.threshold_pos, hr.bar_le, hr.first_le, hr.next_lt, hr.todo, hr.removed, hr.ids, hr.names,
    hr.budget⟩

theorem Rep.updated (h : Rep crc cfg recs s) (hm : s.merge = .finish .updates r out)
    (hp : r.pendingRecords = []) : Rep crc cfg recs { s with merge := .nextFile r none } := by
  have hmr := h.merge
  rw [hm] at hmr
  obtain ⟨-, -, -, bar, hr⟩ := hmr
  refine h.mergeOnly (by rw [hm]; simp) (by rw [hm]; rfl) ⟨hp, bar, ?_⟩
  simpa [FinishStep.unnamed] using hr

/-! ## The removal of the sources, and the end -/

theorem Rep.removeSource (h : Rep crc cfg recs s) {id stale : ℕ} {ids : List ℕ}
    (hm : s.merge = .removeData (id :: ids) stale) :
    Rep crc cfg recs
      { s with fs := s.fs.unlink (.data id), merge := .removeHint id ids stale } := by
  have hmr := h.merge
  rw [hm] at hmr
  have hlt := hmr id List.mem_cons_self
  refine h.mergeFs (by rw [hm]; simp) (h.core.unlink (by simp; omega)) rfl rfl (by rw [hm]; rfl) ?_
    fun id' hid => hmr id' (List.mem_cons_of_mem _ hid)
  exact h.names.congr fun n hn => Fs.lookup_unlink_ne s.fs (hn id)

theorem Rep.removeHint (h : Rep crc cfg recs s) {id stale : ℕ} {ids : List ℕ}
    (hm : s.merge = .removeHint id ids stale) :
    Rep crc cfg recs
      { s with fs := s.fs.unlink (.hint id), merge := .removeData ids stale } := by
  have hmr := h.merge
  rw [hm] at hmr
  refine h.mergeFs (by rw [hm]; simp) (h.core.unlink (by simp)) rfl rfl (by rw [hm]; rfl) ?_ hmr
  refine h.names.congr_some fun n _ hlk => ?_
  by_cases hn : n = .hint id
  · rw [hn, Fs.lookup_unlink_self] at hlk; exact absurd rfl hlk
  · rwa [Fs.lookup_unlink_ne s.fs hn] at hlk

/-- A merge that returns. -/
theorem Rep.toIdle (h : Rep crc cfg recs s) (hnr : ∀ r, s.merge ≠ .rotating r)
    (hren : s.merge.renamed = none) (res : Option (Except KvsError Unit)) :
    Rep crc cfg recs { s with merge := .idle res } := h.mergeOnly hnr hren.symm trivial

/-- The last step of a merge changes the stale counter only. -/
theorem Rep.subtract (h : Rep crc cfg recs s) {stale : ℕ} (hm : s.merge = .subtract stale)
    (hl : s.lock = .free) (n : ℕ) (res : Option (Except KvsError Unit)) :
    Rep crc cfg recs
      { s with writer := { s.writer with staleBytesCount := n }, merge := .idle res } := by
  have hlr := h.lock
  rw [hl] at hlr
  have h1 : Rep crc cfg recs { s with writer := { s.writer with staleBytesCount := n } } :=
    h.private (fun _ => rfl) rfl rfl rfl rfl rfl rfl rfl rfl rfl (by simp only [hl]; exact hlr)
  exact h1.toIdle (by simp [hm]) (by simp [hm, Merge.renamed]) res

/-- A panic of the compaction thread with the lock held. -/
theorem Rep.poison (h : Rep crc cfg recs s) (hl : s.lock = .free)
    (hnr : ∀ r, s.merge ≠ .rotating r) (hren : s.merge.renamed = none) :
    Rep crc cfg recs { s with lock := .poisoned, merge := .dead } := by
  have hlr := h.lock
  rw [hl] at hlr
  have h1 : Rep crc cfg recs { s with lock := .poisoned } :=
    h.private (fun _ => rfl) rfl rfl rfl rfl rfl rfl rfl (by rw [hl]; rfl) (by rw [hl]; rfl) hlr
  exact h1.mergeOnly hnr hren.symm trivial

/-! ## The buffers of the output -/

/-- The compaction thread holds an output that is not yet a data file, or one whose buffers are
empty. -/
theorem Rep.held_cases (h : Rep crc cfg recs s) (ho : Sys.heldOutput s.merge = some out) :
    (∃ r, OutRep crc recs s.fs s.handles r out ∧ s.fs.lookup (.compact out.id) = some out.data ∧
        s.merge.renamed = none) ∨
      ((out.dataBuf = [] ∧ out.hintBuf = []) ∧ ∃ st r, s.merge = .finish st r out ∧
        st.unnamed = false) := by
  have hmr := h.merge
  cases hm : s.merge with
  | idle | rotating | openHint | removeData | removeHint | subtract | dead => rw [hm] at ho; cases ho
  | nextFile r output =>
    rw [hm] at ho hmr
    obtain rfl : output = some out := ho
    exact Or.inl ⟨r, hmr.1, hmr.2.1, rfl⟩
  | records r o fileId rd =>
    rw [hm] at ho hmr
    obtain rfl := Option.some.inj ho
    exact Or.inl ⟨r, hmr.1, hmr.2.1, rfl⟩
  | finish st r o =>
    rw [hm] at ho hmr
    obtain rfl := Option.some.inj ho
    cases st with
    | syncData => exact Or.inl ⟨r, hmr.1, hmr.2.1, rfl⟩
    | syncHint | rename => exact Or.inl ⟨r, hmr.1, hmr.2.1.1, rfl⟩
    | reader | updates => exact Or.inr ⟨hmr.2.1.2.1, _, r, rfl, rfl⟩

/-- The file of the output the compaction thread holds has a name. -/
theorem Rep.held_name (h : Rep crc cfg recs s) {out : MergeOutput}
    (ho : Sys.heldOutput s.merge = some out) : ∃ n, s.fs.lookup n = some out.data := by
  have hmr := h.merge
  rcases h.held_cases ho with ⟨r, -, hn, -⟩ | ⟨-, st, r, hm, hst⟩
  · exact ⟨_, hn⟩
  · rw [hm] at hmr
    cases st with
    | syncData | syncHint | rename => cases hst
    | reader | updates => exact ⟨_, hmr.2.1.1⟩

/-- The compaction thread does not write to the active file. -/
theorem Rep.file_not_held (h : Rep crc cfg recs s) {out : MergeOutput}
    (ho : Sys.heldOutput s.merge = some out) :
    s.writer.file ≠ out.data ∧ s.writer.file ≠ out.hint := by
  have hmr := h.merge
  rcases h.held_cases ho with ⟨r, hout, hn, -⟩ | ⟨-, st, r, hm, hst⟩
  · exact (h.output_files hout hn).2.2.2
  · rw [hm] at hmr
    obtain ⟨hout, hfin, -, bar, hrun⟩ := hmr
    have hdata : s.fs.lookup (.data out.id) = some out.data := by
      cases st with
      | syncData | syncHint | rename => cases hst
      | reader | updates => exact hfin.1
    constructor
    · intro he
      have hid := FileName.data.inj (s.fs.dir_inj _ _ _ hdata (he ▸ h.core.cur_dir))
      exact absurd hid (hrun.output_lt hout).ne
    · intro he
      cases s.fs.dir_inj _ _ _ hout.hint_name (he ▸ h.core.cur_dir)

/-- Part of the buffers reaches the files. -/
theorem OutRep.spill {fs : Fs FileName} {rd : ℕ → Option Inode}
    (h : OutRep crc recs fs rd r out) (hne : out.hint ≠ out.data) (n m : ℕ) :
    OutRep crc recs
      ((fs.append out.data (out.dataBuf.take n)).append out.hint (out.hintBuf.take m)) rd r
      { out with dataBuf := out.dataBuf.drop n, hintBuf := out.hintBuf.drop m } where
  id_eq := h.id_eq
  hint_name := h.hint_name
  data_bytes := by
    simp only [Fs.bytes_append_ne hne.symm, Fs.bytes_append_self, List.append_assoc,
      List.take_append_drop]
    exact h.data_bytes
  hint_bytes := by
    simp only [Fs.bytes_append_self, Fs.bytes_append_ne hne, List.append_assoc,
      List.take_append_drop]
    exact h.hint_bytes
  written := h.written
  sets := h.sets
  pending := h.pending

theorem Rep.spill (h : Rep crc cfg recs s) (ho : Sys.heldOutput s.merge = some out) (n m : ℕ) :
    Rep crc cfg recs
      { s.writeOutput out (out.dataBuf.take n) (out.hintBuf.take m) with
        merge := Sys.withOutput
          { out with dataBuf := out.dataBuf.drop n, hintBuf := out.hintBuf.drop m } s.merge } := by
  rcases h.held_cases ho with ⟨r, hout, hn, hren⟩ | ⟨⟨hd, hh⟩, st, r, hm, -⟩
  · obtain ⟨hd, hh, hne, hfd, hfh⟩ := h.output_files hout hn
    have hcore := (h.core.append_other hd (out.dataBuf.take n)).append_other hh (out.hintBuf.take m)
    have hfile : ((s.fs.append out.data (out.dataBuf.take n)).append out.hint
        (out.hintBuf.take m)).bytes s.writer.file = s.fs.bytes s.writer.file := by
      rw [Fs.bytes_append_ne hfh, Fs.bytes_append_ne hfd]
    have hrun : ∀ {r bar o used}, RunRep crc cfg recs s.fs s.handles s.writer.currentFileId bar r o used →
        RunRep crc cfg recs ((s.fs.append out.data (out.dataBuf.take n)).append out.hint
          (out.hintBuf.take m)) s.handles s.writer.currentFileId bar r o used := fun hr =>
      hr.frame (Nat.le_refl _) (fun _ _ => rfl) (fun hj => hj) (fun hj => Or.inl hj)
    have hdata : ∀ {k : ℕ}, out.dataBuf = [] → (s.fs.bytes out.data).length < k →
        (((s.fs.append out.data (out.dataBuf.take n)).append out.hint
          (out.hintBuf.take m)).bytes out.data).length < k := by
      intro k hnil hlt
      rw [Fs.bytes_append_ne hne.symm, hnil, List.take_nil, Fs.append_nil]
      exact hlt
    have hmr := h.merge
    cases hm : s.merge with
    | idle | rotating | openHint | removeData | removeHint | subtract | dead =>
      rw [hm] at ho; cases ho
    | nextFile r output =>
      rw [hm] at ho hmr
      obtain rfl : output = some out := ho
      obtain ⟨hout, -, bar, hr⟩ := hmr
      exact h.mergeFs (by rw [hm]; simp) hcore hfile rfl hren.symm h.names
        ⟨hout.spill hne n m, hn, bar, hrun hr⟩
    | records r o fileId rd =>
      rw [hm] at ho hmr
      obtain rfl := Option.some.inj ho
      obtain ⟨hout, -, i, done, rest, hi, hlt, hsplit, hreader, bar, hr⟩ := hmr
      exact h.mergeFs (by rw [hm]; simp) hcore hfile rfl hren.symm h.names
        ⟨hout.spill hne n m, hn, i, done, rest, hi, hlt, hsplit, hreader, bar, hrun hr⟩
    | finish st r o =>
      rw [hm] at ho hmr
      obtain rfl := Option.some.inj ho
      obtain ⟨hout, hf, hfull, bar, hr⟩ := hmr
      refine h.mergeFs (by rw [hm]; simp) hcore hfile rfl ?_ h.names
        ⟨hout.spill hne n m, ?_, hfull, bar, hrun hr⟩
      · rw [hm] at hren ⊢
        cases st with
        | reader => cases hren
        | _ => rfl
      · cases st with
        | syncData => exact hn
        | syncHint => exact ⟨hn, by simp [hf.2.1], hdata hf.2.1 hf.2.2⟩
        | rename => exact ⟨hn, ⟨by simp [hf.2.1.1], by simp [hf.2.1.2]⟩, hdata hf.2.1.1 hf.2.2⟩
        | reader => rw [hm] at hren; cases hren
        | updates => cases s.fs.dir_inj _ _ _ hn hf.1
  · -- the buffers are empty: nothing is written
    have hsame : ({ s.writeOutput out (out.dataBuf.take n) (out.hintBuf.take m) with
        merge := Sys.withOutput
          { out with dataBuf := out.dataBuf.drop n, hintBuf := out.hintBuf.drop m } s.merge } : Sys) =
        s := by
      have hout : ({ out with dataBuf := out.dataBuf.drop n, hintBuf := out.hintBuf.drop m } :
          MergeOutput) = out := by
        rw [hd, hh, List.drop_nil, List.drop_nil]
        cases out
        simp_all
      rw [hout, hm]
      simp only [Sys.writeOutput, Sys.withOutput, hd, hh, List.take_nil, Fs.append_nil]
      rw [← hm]
    rw [hsame]
    exact h

/-- A filesystem call of the merge fails while it holds an output that is not yet a data file. -/
theorem Rep.outputErr (h : Rep crc cfg recs s) (ho : Sys.heldOutput s.merge = some out)
    (hc : Sys.callsFs s.merge = true) (hren : s.merge.renamed = none) (data hint : Bytes)
    (e : KvsError) : Rep crc cfg recs ((s.writeOutput out data hint).failMerge e) := by
  have hnr : ∀ r, s.merge ≠ .rotating r := by
    intro r hm
    rw [hm] at hc; cases hc
  rcases h.held_cases ho with ⟨r, hout, hn, -⟩ | ⟨-, st, r, hm, hst⟩
  · obtain ⟨hd, hh, -, hfd, hfh⟩ := h.output_files hout hn
    refine h.mergeFs hnr ((h.core.append_other hd data).append_other hh hint) ?_ rfl hren.symm
      h.names trivial
    exact (Fs.bytes_append_ne hfh _).trans (Fs.bytes_append_ne hfd _)
  · rw [hm] at hc hren
    cases st with
    | syncData | syncHint | rename => cases hst
    | reader => cases hren
    | updates => cases hc

/-! ## Every step -/

/-- A step the invariant allows, besides those of the lock holder: a merge starts only when the
active file ends at the writer's offset, and does not fail to open its renamed output for
reading. -/
def StepOk (s : Sys) (a : Act) : Prop :=
  WriterOk s a ∧
    match a with
    | .start => (s.fs.bytes s.writer.file).length = s.writer.offset
    | .mergeErr _ _ _ => s.merge.renamed = none
    | _ => True

theorem rep_mergeStep (h : Rep crc cfg recs s) (hs : MergeStep crc cfg s s') :
    ∃ recs', Rep crc cfg recs' s' := by
  cases hs with
  | lastOutput r out hm ht => exact ⟨_, h.lastOutput hm ht⟩
  | scanned r hm ht => exact ⟨_, h.scanned hm⟩
  | source r out fileId i rest hm ht => exact ⟨_, h.source hm ht⟩
  | openData r f rest hm ht => exact ⟨_, h.openData hm ht⟩
  | openHint r id data hm => exact ⟨_, h.openHint hm⟩
  | framePanic r out fileId rd hm hr => exact absurd hr (h.record_ok hm).1
  | torn r out fileId p rd rd' hm hr => exact absurd hr ((h.record_ok hm).2.1 p rd')
  | eof r out fileId rd rd' hm hr hw => exact ⟨_, (h.eof hm hr).1⟩
  | eofFull r out fileId rd rd' hm hr hw => exact ⟨_, (h.eof hm hr).2 hw⟩
  | undecodable r out fileId p b rd rd' e hm hr hd => exact absurd hd (h.record_decodes hm hr e)
  | skip r out fileId p n b rd rd' c hm hr hd hs => exact ⟨_, h.skip hm hr⟩
  | copy r out fileId p n b rd rd' ts key v hm hr hd hs => exact ⟨_, h.copy hm hr hd⟩
  | syncData r out hm hn => exact ⟨_, h.syncData hm hn⟩
  | syncHint r out hm => exact ⟨_, h.syncHint hm⟩
  | rename r out i hm hi => exact ⟨_, h.rename hm⟩
  | renameMissing r out hm hi => exact absurd hi (h.rename_found hm)
  | reader r out i hm hi => exact ⟨_, h.reader hm hi⟩
  | readerMissing r out hm hi => exact absurd hi (h.reader_found hm)
  | update r out p ps hm hp => exact ⟨_, h.update hm hp⟩
  | updated r out hm hp => exact ⟨_, h.updated hm hp⟩
  | remove id ids stale i hm hi => exact ⟨_, h.removeSource hm⟩
  | removeMissing id ids stale hm hi =>
    exact ⟨_, h.toIdle (by rw [hm]; simp) (by rw [hm]; rfl) _⟩
  | removed stale hm => exact ⟨_, h.mergeOnly (by rw [hm]; simp) (by rw [hm]; rfl) trivial⟩
  | removeHint id ids stale hm => exact ⟨_, h.removeHint hm⟩
  | subtract stale hm hl hs => exact ⟨_, h.subtract hm hl _ _⟩
  | subtractPoisoned stale hm hl => exact ⟨_, h.toIdle (by rw [hm]; simp) (by rw [hm]; rfl) _⟩
  | subtractPanic stale hm hl hs => exact ⟨_, h.poison hl (by rw [hm]; simp) (by rw [hm]; rfl)⟩

/-- Every allowed step keeps the representation invariant. -/
theorem rep_step {a : Act} (h : Rep crc cfg recs s) (hok : StepOk s a) (hs : Step crc cfg s a s') :
    ∃ recs', Rep crc cfg recs' s' := by
  cases hs with
  | writer hw => exact rep_writerStep h hok.1 hw
  | merge hm => exact rep_mergeStep h hm
  | startNot last res hm hl hres hn => exact ⟨_, h.toIdle (by rw [hm]; simp) (by rw [hm]; rfl) _⟩
  | startPanic last hm hl hs hn hz => exact ⟨_, h.poison hl (by rw [hm]; simp) (by rw [hm]; rfl)⟩
  | start last hm hl hs hn hz => exact ⟨_, h.start hm hl hok.2 hz⟩
  | spill out n m ho => exact ⟨_, h.spill ho n m⟩
  | mergeErr e data hint hc ho =>
    refine ⟨_, h.toIdle (fun r hm => ?_) hok.2 _⟩
    rw [hm] at hc; cases hc
  | outputErr out e data hint hc ho => exact ⟨_, h.outputErr ho hc hok.2 data hint _⟩

end Bitcask
