import Bitcask.Storage.Merging

/-!
# The steps of a merge

Every step of the writers and of the compaction thread keeps `MergeInv`: one lemma for each point of
`run_compaction`, and `MergeInv.mergeStep` for all of them.
-/

namespace Bitcask

open LittleEndian FileSystem

/-! ## Steps of a merge -/

section Steps

variable {crc : Bytes → UInt32} {cfg : Config} {recs : Inode → List Command} {s₀ s s' : Sys}
  {a : Act} {bar n top : ℕ} {walked : List (Placed × Bool)} {r : MergeRun} {out : MergeOutput}

theorem liveBytes_append (xs ys : List (Placed × Bool)) :
    liveBytes (xs ++ ys) = liveBytes xs ++ liveBytes ys := List.flatMap_append

/-- A step that names no output and removes nothing. -/
theorem MergeInv.next (h : MergeInv crc s₀ bar n walked top s) {m₀ m : Merge} {k : ℕ}
    {seen : List (Placed × Bool)}
    (hm : s.merge = m₀) (hm' : s'.merge = m) (hrun : m₀.Running)
    (hphase : m.Of s₀.writer.currentFileId s₀.writer.staleBytesCount top)
    (hlock : s'.lock ≠ .poisoned) (hstale : s.writer.staleBytesCount ≤ s'.writer.staleBytesCount)
    (hcur : s.writer.currentFileId ≤ s'.writer.currentFileId) (hsources : m.sources = m₀.sources)
    (hhint : m.hintLeft = m₀.hintLeft)
    (hnames : ∀ id < s₀.writer.currentFileId,
      s'.fs.lookup (.data id) = s.fs.lookup (.data id) ∧
        s'.fs.lookup (.hint id) = s.fs.lookup (.hint id))
    (hout : ∀ id, s₀.writer.currentFileId < id → id ≤ top →
      s'.fs.read (.data id) = s.fs.read (.data id))
    (hbar : s'.Reserves bar)
    (hunused : ∀ id < bar, s'.fs.lookup (.data id) = s.fs.lookup (.data id))
    (hwalk : seen.map Prod.fst ++ m.remaining crc s'.fs = m₀.remaining crc s.fs)
    (hopen : m.openBytes s'.fs = m₀.openBytes s.fs ++ liveBytes seen)
    (hcost : k + s'.lock.rotationLeft + m.cost (m.remaining crc s'.fs).length ≤
      s.lock.rotationLeft + m₀.cost (m₀.remaining crc s.fs).length) :
    MergeInv crc s₀ bar (n + k) (walked ++ seen) top s' := by
  subst hm hm'
  exact {
    phase := hphase
    lock := hlock
    stale _ := (h.stale hrun).trans hstale
    below := h.below
    first_le := h.first_le.trans hcur
    first_top := h.first_top
    top_lt ht := (h.top_lt ht).trans_le hcur
    reserves := hbar
    top_bar := h.top_bar
    unused id htop hbar := (hunused id hbar).trans (h.unused id htop hbar)
    suffix := by rw [hsources]; exact h.suffix
    left id hid := by
      rw [hsources] at hid
      rw [(hnames id (h.below id (h.suffix.subset hid))).1]
      exact h.left id hid
    gone id hid hns := by
      rw [hsources] at hns
      obtain ⟨hd, hh⟩ := hnames id (h.below id hid)
      rw [hd, hh, hhint]
      exact h.gone id hid hns
    walk := by rw [List.map_append, List.append_assoc, hwalk, h.walk]
    outputs := by
      rw [outputBytes_congr hout, hopen, ← List.append_assoc, h.outputs, liveBytes_append]
    count := by
      have := h.count
      omega }

/-- The lock holder. -/
theorem MergeInv.writer (hr : Rep crc cfg recs s) (h : MergeInv crc s₀ bar n walked top s)
    (hrun : s.merge.Running) (ha : Calm cfg s a) (hs : WriterStep crc cfg s a s') :
    MergeInv crc s₀ bar (n + (s.ownStep a).toNat) walked top s' := by
  obtain ⟨hstale, hcur, hnames⟩ := hr.writer_mono hs
  have hstep : Step crc cfg s a s' := .writer hs
  have hlow : ∀ {n}, (∀ id, n = .data id → id ≤ s.writer.currentFileId) →
      s'.fs.lookup n = s.fs.lookup n := by
    intro n hn
    rcases hnames n with he | ⟨next, rfl, hlt⟩
    · exact he
    · exact absurd (hn next rfl) (Nat.not_le_of_lt hlt)
  have hfirst := h.first_le
  have hout : ∀ id, s₀.writer.currentFileId < id → id ≤ top →
      s'.fs.read (.data id) = s.fs.read (.data id) := by
    intro id hid htop
    have := h.top_lt (hid.trans_le htop)
    refine hr.read_step ha.1 hstep (by omega) (hlow ?_)
    rintro _ ⟨⟩
    omega
  have hlow' : ∀ id < s₀.writer.currentFileId,
      s'.fs.lookup (.data id) = s.fs.lookup (.data id) ∧
        s'.fs.lookup (.hint id) = s.fs.lookup (.hint id) := by
    intro id hid
    refine ⟨hlow ?_, hlow (by simp)⟩
    rintro _ ⟨⟩
    omega
  have hremaining := hr.remaining_step ha.1 hstep h.phase h.first_le
  have hopen := hr.openBytes_writer hs
  have hleft := hs.rotationLeft ha.1
  have hlock := hs.not_poisoned ha
  have hbar := hr.reserves_writer ha.1 hs h.reserves
  have hunused : ∀ id < bar, s'.fs.lookup (.data id) = s.fs.lookup (.data id) :=
    fun id hid => hr.reserved_writer hs h.reserves hid
  rw [← List.append_nil walked]
  rcases hr.merge_writer ha.1 hs with hm | ⟨r, hm, hm'⟩
  · refine h.next rfl hm hrun h.phase hlock hstale hcur rfl rfl hlow' hout hbar hunused hremaining ?_ ?_
    · rw [hopen]; exact (List.append_nil _).symm
    · rw [hremaining]; omega
  · have hphase := h.phase
    rw [hm] at hremaining hphase hrun
    refine h.next hm hm' hrun hphase hlock hstale hcur rfl rfl hlow' hout hbar hunused hremaining rfl
      ?_
    have hlen : ((Merge.nextFile r none).remaining crc s'.fs).length =
        ((Merge.rotating r).remaining crc s.fs).length := congrArg List.length hremaining
    rw [hlen]
    exact Nat.add_le_add_right hleft _

/-- A step of the compaction thread that changes no data name. -/
theorem MergeInv.quiet (hr : Rep crc cfg recs s) (h : MergeInv crc s₀ bar n walked top s)
    {m₀ m : Merge} {seen : List (Placed × Bool)}
    (hs : Step crc cfg s a s') (hn : a.Nominal) (hm : s.merge = m₀) (hm' : s'.merge = m)
    (hw : s'.writer = s.writer) (hl : s'.lock = s.lock) (hrun : m₀.Running)
    (hphase : m.Of s₀.writer.currentFileId s₀.writer.staleBytesCount top)
    (hsources : m.sources = m₀.sources) (hhint : m.hintLeft = m₀.hintLeft)
    (hdata : ∀ id, s'.fs.lookup (.data id) = s.fs.lookup (.data id))
    (hhints : ∀ id < s₀.writer.currentFileId, s'.fs.lookup (.hint id) = s.fs.lookup (.hint id))
    (hwalk : seen.map Prod.fst ++ m.remaining crc s'.fs = m₀.remaining crc s'.fs)
    (hopen : m.openBytes s'.fs = m₀.openBytes s.fs ++ liveBytes seen)
    (hcost : (s.ownStep a).toNat + m.cost (m.remaining crc s'.fs).length ≤
      m₀.cost (m₀.remaining crc s'.fs).length) :
    MergeInv crc s₀ bar (n + (s.ownStep a).toNat) (walked ++ seen) top s' := by
  have hremaining := hr.remaining_step hn hs h.phase h.first_le
  rw [hm] at hremaining
  refine h.next hm hm' hrun hphase (by rw [hl]; exact h.lock) (by rw [hw]) (by rw [hw])
    hsources hhint (fun id hid => ⟨hdata id, hhints id hid⟩) ?_ ?_
    (fun id _ => hdata id) (hwalk.trans hremaining) hopen ?_
  · intro id hid htop
    have := h.top_lt (hid.trans_le htop)
    exact hr.read_step hn hs (by omega) (hdata id)
  · unfold Sys.Reserves
    rw [hw, hl, hdata]
    exact h.reserves
  · rw [hl, ← hremaining]
    omega

/-- The head of the loop over the snapshot. -/
theorem MergeInv.nextFile (hr : Rep crc cfg recs s) (h : MergeInv crc s₀ bar n walked top s)
    {output : Option MergeOutput} (hm : s.merge = .nextFile r output) :
    MergeInv crc s₀ bar (n + 1) (walked ++ []) top (s.nextFile r output) := by
  have hphase := h.phase
  rw [hm] at hphase
  have hs : Step crc cfg s .merge (s.nextFile r output) := .merge (nextFile_cases hm)
  unfold Sys.nextFile at hs ⊢
  split at hs
  · rename_i out ht
    refine h.quiet hr hs trivial hm rfl rfl rfl trivial hphase rfl rfl (fun _ => rfl)
      (fun _ _ => rfl) rfl (List.append_nil _).symm ?_
    simp [Merge.cost, Sys.ownStep, ht, Merge.remaining, FinishStep.cost]
    omega
  · rename_i ht
    refine h.quiet hr hs trivial hm rfl rfl rfl trivial hphase.2.1 ?_ rfl (fun _ => rfl)
      (fun _ _ => rfl) ?_ rfl ?_
    · simp [Merge.sources, ht]
    · simp [Merge.remaining, ht, sourceRecords]
    · simp [Merge.cost, MergeRun.cost, Sys.ownStep, ht]
      omega
  · rename_i fileId i rest out ht
    refine h.quiet hr hs trivial hm rfl rfl rfl trivial hphase ?_ rfl (fun _ => rfl)
      (fun _ _ => rfl) ?_ (List.append_nil _).symm ?_
    · simp [Merge.sources, ht]
    · simp [Merge.remaining, ht, sourceRecords, recordsIn, RecordReader.new]
    · simp [Merge.cost, MergeRun.cost, Sys.ownStep, ht, Merge.remaining, sourceRecords, recordsIn,
        RecordReader.new]
      omega
  · rename_i f rest ht
    refine h.quiet hr hs trivial hm rfl rfl rfl trivial ⟨⟨hphase.1, hphase.2.1, ?_⟩, ?_⟩ rfl
      rfl (fun _ => Fs.lookup_create_ne (by simp)) (fun _ _ => Fs.lookup_create_ne (by simp)) rfl
      ?_ ?_
    · exact congrArg (· + 1) hphase.2.2
    · simp [ht]
    · obtain ⟨recs', hr'⟩ := rep_mergeStep hr (.openData r f rest hm ht)
      exact hr'.merge.2.2.2.1
    · simp [Merge.cost, MergeRun.cost, Sys.ownStep, Merge.remaining]
      omega

theorem MergeInv.openHint (hr : Rep crc cfg recs s) (h : MergeInv crc s₀ bar n walked top s)
    {id : ℕ} {data : Inode}
    (hm : s.merge = .openHint r id data) :
    MergeInv crc s₀ bar (n + 1) (walked ++ []) top (s.openHint r id data) := by
  have hphase := h.phase
  have hmr := hr.merge
  rw [hm] at hphase hmr
  obtain ⟨hof, htodo⟩ := hphase
  have hid := hmr.2.1
  have hdata := s.fs.dir_lt _ _ hmr.2.2.1
  refine h.quiet hr (.merge (.openHint r id data hm)) trivial hm rfl rfl rfl trivial hof rfl
    rfl (fun _ => Fs.lookup_create_ne (by simp)) (fun id' hlt => Fs.lookup_create_ne ?_) rfl ?_ ?_
  · have := hof.2.2
    have := h.first_top
    intro he
    have := FileName.hint.inj he
    omega
  · simp [Merge.openBytes, Sys.openHint, Fs.bytes_create_of_lt hdata, liveBytes]
  · simp [Merge.cost, Sys.openHint, Sys.ownStep, Merge.remaining, htodo]
    omega

/-- What is left of a source is what its reader has not read. -/
theorem Rep.unread (h : Rep crc cfg recs s) {fileId : ℕ} {rd : RecordReader}
    (hm : s.merge = .records r out fileId rd) : ∃ pos rest, (∀ c ∈ rest, c.Fits) ∧
      rd = readerAt crc pos rest ∧ recordsOf crc rd.reader = rest := by
  have hmr := h.merge
  rw [hm] at hmr
  obtain ⟨-, -, i, done, rest, -, -, hsplit, rfl, -⟩ := hmr
  have hfits : ∀ c ∈ rest, c.Fits := fun c hc =>
    h.core.fits i c (by rw [hsplit]; exact List.mem_append_right _ hc)
  exact ⟨_, rest, hfits, rfl, recordsOf_sealed hfits⟩

theorem Rep.unread_eof (h : Rep crc cfg recs s) {fileId : ℕ} {rd rd' : RecordReader}
    (hm : s.merge = .records r out fileId rd) (hx : rd.nextRecord = some (.cleanEof, rd')) :
    recordsOf crc rd.reader = [] := by
  obtain ⟨pos, rest, hfits, hrd, hrest⟩ := h.unread hm
  rw [hrd] at hx
  rcases next_cases hfits hx with ⟨rfl, -⟩ | ⟨c, rest', -, hx', -⟩
  · exact hrest
  · cases hx'

theorem Rep.unread_record (h : Rep crc cfg recs s) {fileId p : ℕ} {b : Bytes}
    {rd rd' : RecordReader} (hm : s.merge = .records r out fileId rd)
    (hx : rd.nextRecord = some (.record p b, rd')) :
    placed crc fileId rd.position (recordsOf crc rd.reader) =
      ⟨fileId, p, b⟩ :: placed crc fileId rd'.position (recordsOf crc rd'.reader) := by
  obtain ⟨pos, rest, hfits, hrd, hrest⟩ := h.unread hm
  rw [hrd] at hx
  rcases next_cases hfits hx with ⟨-, hx'⟩ | ⟨c, rest', rfl, hx', rfl⟩
  · cases hx'
  · obtain ⟨rfl, rfl⟩ := RecordRead.record.inj hx'
    have hrest' : recordsOf crc (encodeAll crc rest') = rest' :=
      recordsOf_sealed fun c hc => hfits c (List.mem_cons_of_mem _ hc)
    rw [hrest, hrd]
    simp only [readerAt, placed, hrest']

theorem MergeInv.eof (hr : Rep crc cfg recs s) (h : MergeInv crc s₀ bar n walked top s)
    {fileId : ℕ}
    {rd rd' : RecordReader} (hm : s.merge = .records r out fileId rd)
    (hx : rd.nextRecord = some (.cleanEof, rd')) {m : Merge}
    (hs : Step crc cfg s .merge { s with merge := m })
    (hcases : m = .nextFile { r with idsToRemove := r.idsToRemove ++ [fileId] } (some out) ∨
      m = .finish .syncData { r with idsToRemove := r.idsToRemove ++ [fileId] } out) :
    MergeInv crc s₀ bar (n + 1) (walked ++ examined crc s .merge) top { s with merge := m } := by
  have hphase := h.phase
  rw [hm] at hphase
  have hseen : examined crc s .merge = [] := by simp only [examined, hm, hx]
  rw [hseen]
  have hnil := hr.unread_eof hm hx
  have hlen : (sourceRecords crc s.fs r.todo).length =
      ((Merge.records r out fileId rd).remaining crc s.fs).length := by
    simp [Merge.remaining, hnil, placed]
  refine h.quiet hr hs trivial hm rfl rfl rfl trivial ?_ ?_ ?_ (fun _ => rfl) (fun _ _ => rfl)
    ?_ ?_ ?_
  · rcases hcases with rfl | rfl <;> exact hphase
  · rcases hcases with rfl | rfl <;> simp [Merge.sources]
  · rcases hcases with rfl | rfl <;> rfl
  · rcases hcases with rfl | rfl <;> simp [Merge.remaining, hnil, placed]
  · rcases hcases with rfl | rfl <;> exact (List.append_nil _).symm
  · rw [← hlen]
    rcases hcases with rfl | rfl
    · simp only [Merge.cost, MergeRun.cost, Sys.ownStep, Merge.remaining, List.length_append,
        List.length_singleton, Bool.toNat_true]
      split <;> omega
    · simp only [Merge.cost, MergeRun.cost, Sys.ownStep, Merge.remaining, List.length_append,
        List.length_singleton, Bool.toNat_true, FinishStep.cost]
      omega

/-- A record of a source. -/
theorem MergeInv.record (hr : Rep crc cfg recs s) (h : MergeInv crc s₀ bar n walked top s)
    {fileId p : ℕ}
    {b : Bytes} {rd rd' : RecordReader} (hm : s.merge = .records r out fileId rd)
    (hx : rd.nextRecord = some (.record p b, rd')) {r' : MergeRun} {out' : MergeOutput}
    (hs : Step crc cfg s .merge { s with merge := .records r' out' fileId rd' })
    (hof : ∀ first stale isOpen, r.Of first stale top isOpen → r'.Of first stale top isOpen)
    (htodo : r'.todo = r.todo) (hids : r'.idsToRemove = r.idsToRemove)
    (hpending : r'.pendingRecords.length ≤ r.pendingRecords.length + 1)
    (hdata : out'.data = out.data)
    (hbuf : out'.dataBuf = out.dataBuf ++ if s.isLive crc ⟨fileId, p, b⟩ then b else []) :
    MergeInv crc s₀ bar (n + 1) (walked ++ examined crc s .merge) top
      { s with merge := .records r' out' fileId rd' } := by
  have hphase := h.phase
  rw [hm] at hphase
  have hseen : examined crc s .merge =
      [(⟨fileId, p, b⟩, s.isLive crc ⟨fileId, p, b⟩)] := by
    simp only [examined, hm, hx]
  have hremaining := hr.unread_record hm hx
  rw [hseen]
  refine h.quiet hr hs trivial hm rfl rfl rfl trivial (hof _ _ _ hphase) ?_ rfl
    (fun _ => rfl) (fun _ _ => rfl) ?_ ?_ ?_
  · simp only [Merge.sources, htodo, hids]
  · simp only [Merge.remaining, hremaining, htodo, List.map_cons, List.map_nil, List.cons_append,
      List.nil_append]
  · simp only [Merge.openBytes, hdata, hbuf, liveBytes, List.flatMap_cons, List.flatMap_nil,
      List.append_nil, List.append_assoc]
  · simp only [Merge.cost, MergeRun.cost, Sys.ownStep, Merge.remaining, hremaining, htodo, hids,
      List.cons_append, List.length_cons, Bool.toNat_true]
    omega

theorem MergeInv.skip (hr : Rep crc cfg recs s) (h : MergeInv crc s₀ bar n walked top s)
    {fileId p m : ℕ} {b : Bytes} {rd rd' : RecordReader} {c : Command}
    (hm : s.merge = .records r out fileId rd) (hx : rd.nextRecord = some (.record p b, rd'))
    (hd : Command.deserialize crc b = .ok (c, m))
    (hc : c.IsSet → s.sitsInIndex c.getKey fileId p = false) :
    MergeInv crc s₀ bar (n + 1) (walked ++ examined crc s .merge) top
      { s with merge := .records r out fileId rd' } := by
  have hdead : s.isLive crc ⟨fileId, p, b⟩ = false := by
    rw [Sys.isLive, hd]
    cases c with
    | set ts key v => exact hc trivial
    | rm ts key => rfl
  have hs : Step crc cfg s .merge { s with merge := .records r out fileId rd' } :=
    .merge (.skip r out fileId p m b rd rd' c hm hx hd hc)
  refine h.record hr hm hx hs (fun _ _ _ hof => hof) rfl rfl (Nat.le_succ _) rfl ?_
  rw [hdead]
  exact (List.append_nil _).symm

theorem MergeInv.copy (hr : Rep crc cfg recs s) (h : MergeInv crc s₀ bar n walked top s)
    {fileId p m : ℕ} {b key v : Bytes} {rd rd' : RecordReader} {ts : UInt64}
    (hm : s.merge = .records r out fileId rd) (hx : rd.nextRecord = some (.record p b, rd'))
    (hd : Command.deserialize crc b = .ok (.set ts key v, m))
    (hc : s.sitsInIndex key fileId p = true) :
    MergeInv crc s₀ bar (n + 1) (walked ++ examined crc s .merge) top
      { s with
        merge := .records
          { r with pendingRecords := r.pendingRecords ++
              [⟨key, ⟨fileId, ts, p, b.length⟩, (out.append crc b key ts).2⟩] }
          (out.append crc b key ts).1 fileId rd' } := by
  have hlive : s.isLive crc ⟨fileId, p, b⟩ = true := by
    rw [Sys.isLive, hd]
    exact hc
  refine h.record hr hm hx (.merge (.copy r out fileId p m b rd rd' ts key v hm hx hd hc))
    (fun _ _ _ hof => hof) rfl rfl ?_ rfl ?_
  · rw [List.length_append, List.length_singleton]
  · rw [hlive]
    rfl

/-- A step of `finish_output` that gives no file a name and takes no pending update. -/
theorem MergeInv.finishing (hr : Rep crc cfg recs s) (h : MergeInv crc s₀ bar n walked top s)
    {st st' : FinishStep} {out' : MergeOutput} (hs : Step crc cfg s .merge s')
    (hm : s.merge = .finish st r out) (hm' : s'.merge = .finish st' r out')
    (hw : s'.writer = s.writer) (hl : s'.lock = s.lock) (hlookup : s'.fs.lookup = s.fs.lookup)
    (hst : st'.unnamed = st.unnamed) (hcost : st'.cost < st.cost)
    (hopen : st.unnamed = true →
      s'.fs.bytes out'.data ++ out'.dataBuf = s.fs.bytes out.data ++ out.dataBuf) :
    MergeInv crc s₀ bar (n + 1) (walked ++ []) top s' := by
  have hphase := h.phase
  rw [hm] at hphase
  have hphase' : (Merge.finish st' r out').Of s₀.writer.currentFileId s₀.writer.staleBytesCount top := by
    rw [Merge.Of, hst]
    exact hphase
  refine h.quiet hr hs trivial hm hm' hw hl trivial hphase' rfl rfl (fun _ => by rw [hlookup])
    (fun _ _ => by rw [hlookup]) rfl ?_ ?_
  · simp only [Merge.openBytes, hst, liveBytes, List.flatMap_nil, List.append_nil]
    split
    · rename_i hun
      exact hopen hun
    · rfl
  · simp only [Merge.cost, Merge.remaining, Sys.ownStep, Bool.toNat_true]
    omega

/-- `finish_output` applies the first pending update. -/
theorem MergeInv.update (hr : Rep crc cfg recs s) (h : MergeInv crc s₀ bar n walked top s)
    {p : PendingUpdate} {ps : List PendingUpdate} (hm : s.merge = .finish .updates r out)
    (hp : r.pendingRecords = p :: ps) :
    MergeInv crc s₀ bar (n + 1) (walked ++ []) top
      { s with
        index := Sys.applyPending s.index p
        merge := .finish .updates { r with pendingRecords := ps } out } := by
  have hphase := h.phase
  rw [hm] at hphase
  refine h.quiet hr (.merge (.update r out p ps hm hp)) trivial hm rfl rfl rfl trivial hphase rfl rfl
    (fun _ => rfl) (fun _ _ => rfl) rfl rfl ?_
  simp only [Merge.cost, MergeRun.cost, hp, Merge.remaining, Sys.ownStep, Bool.toNat_true,
    List.length_cons]
  omega

/-- `finish_output` returns. -/
theorem MergeInv.updated (hr : Rep crc cfg recs s) (h : MergeInv crc s₀ bar n walked top s)
    (hm : s.merge = .finish .updates r out) (hp : r.pendingRecords = []) :
    MergeInv crc s₀ bar (n + 1) (walked ++ []) top { s with merge := .nextFile r none } := by
  have hphase := h.phase
  rw [hm] at hphase
  refine h.quiet hr (.merge (.updated r out hm hp)) trivial hm rfl rfl rfl trivial hphase rfl rfl
    (fun _ => rfl) (fun _ _ => rfl) rfl rfl ?_
  simp only [Merge.cost, FinishStep.cost, Merge.remaining, Sys.ownStep, Bool.toNat_true]
  omega

/-- An output gets its data name. -/
theorem MergeInv.rename (hr : Rep crc cfg recs s) (h : MergeInv crc s₀ bar n walked top s)
    (hm : s.merge = .finish .rename r out) :
    MergeInv crc s₀ bar (n + 1) (walked ++ []) (top + 1)
      { s with
        fs := s.fs.rename (.compact out.id) (.data out.id)
        merge := .finish .reader r out } := by
  have hmr := hr.merge
  have hphase := h.phase
  have hcount := h.count
  have hwalk := h.walk
  have houtputs := h.outputs
  have hsuffix := h.suffix
  have hleft := h.left
  have hgone := h.gone
  have hfirst := h.first_top
  rw [hm] at hmr hphase hcount hwalk houtputs hsuffix hleft hgone
  obtain ⟨hout, ⟨hn, ⟨hbuf, -⟩, -⟩, -, bar', hrun⟩ := hmr
  have hid : out.id = top + 1 := hout.id_eq.trans hphase.2.2
  have hlt := hrun.next_lt
  have hle := hrun.bar_le
  have heq := hout.id_eq
  have hbar := hr.output_lt hm rfl hphase.2.2 h.reserves h.top_bar
  have hdata : ∀ id, id ≠ out.id →
      (s.fs.rename (.compact out.id) (.data out.id)).lookup (.data id) = s.fs.lookup (.data id) :=
    fun id hne => Fs.lookup_rename_ne (by simp) (by simpa using hne)
  have hhint : ∀ id,
      (s.fs.rename (.compact out.id) (.data out.id)).lookup (.hint id) = s.fs.lookup (.hint id) :=
    fun id => Fs.lookup_rename_ne (by simp) (by simp)
  have hremaining : (Merge.finish .reader r out).remaining crc
      (s.fs.rename (.compact out.id) (.data out.id)) =
      (Merge.finish .rename r out).remaining crc s.fs :=
    sourceRecords_congr fun f _ => by rw [Fs.bytes_rename]
  rw [List.append_nil]
  exact {
    phase := ⟨hphase.1, hphase.2.1, hphase.2.2⟩
    lock := h.lock
    stale _ := h.stale (by rw [hm]; trivial)
    below := h.below
    first_le := h.first_le
    first_top := by omega
    top_lt _ := by
      show top + 1 < s.writer.currentFileId
      omega
    reserves := h.reserves.imp_right fun ⟨hle, hname⟩ => ⟨hle, by rwa [hdata bar (by omega)]⟩
    top_bar := hbar
    unused id htop hlt := by
      rw [hdata id (by omega)]
      exact h.unused id (by omega) hlt
    suffix := hsuffix
    left id hid' := by
      have := h.below id (hsuffix.subset hid')
      rw [hdata id (by omega)]
      exact hleft id hid'
    gone id hid' hns := by
      have := h.below id hid'
      rw [hdata id (by omega), hhint]
      exact hgone id hid' hns
    walk := by
      rw [hremaining]
      exact hwalk
    outputs := by
      have hread : (s.fs.rename (.compact out.id) (.data out.id)).read (.data (top + 1)) =
          some (s.fs.bytes out.data) := by
        rw [Fs.read, hid, Fs.lookup_rename_new (hid ▸ hn), Fs.bytes_rename]
        rfl
      have hold : outputBytes (s.fs.rename (.compact out.id) (.data out.id))
          s₀.writer.currentFileId top = outputBytes s.fs s₀.writer.currentFileId top :=
        outputBytes_congr fun id _ hle => by
          rw [Fs.read, Fs.read, hdata id (by omega), Fs.bytes_rename]
      rw [outputBytes_succ hfirst, hread, ← houtputs, hold]
      simp [Merge.openBytes, FinishStep.unnamed, hbuf]
    count := by
      rw [hremaining]
      simp only [Merge.cost, FinishStep.cost] at hcount ⊢
      omega }

/-- The data file of a source is removed, then its hint. -/
theorem MergeInv.remove (h : MergeInv crc s₀ bar n walked top s)
    (hnodup : (s₀.snapshot.map Prod.fst).Nodup) {id stale : ℕ} {ids : List ℕ}
    (hm : s.merge = .removeData (id :: ids) stale) :
    MergeInv crc s₀ bar (n + 1) (walked ++ []) top
      { s with fs := s.fs.unlink (.data id), merge := .removeHint id ids stale } := by
  have hphase := h.phase
  have hcount := h.count
  have hwalk := h.walk
  have houtputs := h.outputs
  have hsuffix := h.suffix
  have hleft := h.left
  have hgone := h.gone
  rw [hm] at hphase hcount hwalk houtputs hsuffix hleft hgone
  have hid := h.below id (hsuffix.subset List.mem_cons_self)
  have htop := h.first_top
  have hbar := h.top_bar
  have hids : id ∉ ids := (List.nodup_cons.mp (hnodup.sublist hsuffix.sublist)).1
  have hdata : ∀ {id'}, id' ≠ id →
      (s.fs.unlink (.data id)).lookup (.data id') = s.fs.lookup (.data id') :=
    fun hne => Fs.lookup_unlink_ne _ (by simpa using hne)
  rw [List.append_nil]
  exact {
    phase := hphase
    lock := h.lock
    stale _ := h.stale (by rw [hm]; trivial)
    below := h.below
    first_le := h.first_le
    first_top := h.first_top
    top_lt := h.top_lt
    reserves := h.reserves.imp_right fun ⟨hle, hname⟩ => ⟨hle, by rwa [hdata (by omega)]⟩
    top_bar := h.top_bar
    unused id' htop hbar := by
      rw [hdata (by omega)]
      exact h.unused id' htop hbar
    suffix := (List.suffix_cons id ids).trans hsuffix
    left id' hid' := by
      rw [hdata (fun he => hids (he ▸ hid'))]
      exact hleft id' (List.mem_cons_of_mem _ hid')
    gone id' hid' hns := by
      by_cases he : id' = id
      · rw [he]
        exact ⟨Fs.lookup_unlink_self _ _, Or.inl rfl⟩
      · obtain ⟨hd, hh⟩ := hgone id' hid' fun hin => (List.mem_cons.mp hin).elim he hns
        rw [hdata he, Fs.lookup_unlink_ne _ (by simp)]
        exact ⟨hd, Or.inr (hh.resolve_left (by simp [Merge.hintLeft]))⟩
    walk := hwalk
    outputs := by
      rw [← houtputs]
      refine congrArg (· ++ _) (outputBytes_congr fun id' hlt _ => ?_)
      rw [Fs.read, Fs.read, hdata (by omega), Fs.bytes_unlink]
    count := by
      simp only [Merge.cost, List.length_cons] at hcount ⊢
      omega }

theorem MergeInv.removeHint (h : MergeInv crc s₀ bar n walked top s) {id stale : ℕ} {ids : List ℕ}
    (hm : s.merge = .removeHint id ids stale) :
    MergeInv crc s₀ bar (n + 1) (walked ++ []) top
      { s with fs := s.fs.unlink (.hint id), merge := .removeData ids stale } := by
  have hphase := h.phase
  have hcount := h.count
  have hwalk := h.walk
  have houtputs := h.outputs
  have hsuffix := h.suffix
  have hleft := h.left
  have hgone := h.gone
  rw [hm] at hphase hcount hwalk houtputs hsuffix hleft hgone
  have hdata : ∀ id', (s.fs.unlink (.hint id)).lookup (.data id') = s.fs.lookup (.data id') :=
    fun id' => Fs.lookup_unlink_ne _ (by simp)
  rw [List.append_nil]
  exact {
    phase := hphase
    lock := h.lock
    stale _ := h.stale (by rw [hm]; trivial)
    below := h.below
    first_le := h.first_le
    first_top := h.first_top
    top_lt := h.top_lt
    reserves := h.reserves.imp_right fun ⟨hle, hname⟩ => ⟨hle, by rwa [hdata]⟩
    top_bar := h.top_bar
    unused id' htop hbar := (hdata id').trans (h.unused id' htop hbar)
    suffix := hsuffix
    left id' hid' := by
      rw [hdata]
      exact hleft id' hid'
    gone id' hid' hns := by
      obtain ⟨hd, hh⟩ := hgone id' hid' hns
      refine ⟨by rw [hdata]; exact hd, Or.inr ?_⟩
      by_cases he : id' = id
      · rw [he]
        exact Fs.lookup_unlink_self _ _
      · rw [Fs.lookup_unlink_ne _ (by simpa using he)]
        exact hh.resolve_left fun heq => he (Option.some.inj heq).symm
    walk := hwalk
    outputs := by
      rw [← houtputs]
      refine congrArg (· ++ _) (outputBytes_congr fun id' _ _ => ?_)
      rw [Fs.read, Fs.read, hdata, Fs.bytes_unlink]
    count := by
      simp only [Merge.cost] at hcount ⊢
      omega }

/-- All sources are removed. -/
theorem MergeInv.removed (hr : Rep crc cfg recs s) (h : MergeInv crc s₀ bar n walked top s) {stale : ℕ}
    (hm : s.merge = .removeData [] stale) :
    MergeInv crc s₀ bar (n + 1) (walked ++ []) top { s with merge := .subtract stale } := by
  have hphase := h.phase
  rw [hm] at hphase
  refine h.quiet hr (.merge (.removed stale hm)) trivial hm rfl rfl rfl trivial hphase rfl rfl
    (fun _ => rfl) (fun _ _ => rfl) rfl rfl ?_
  simp only [Merge.cost, Sys.ownStep, Bool.toNat_true, List.length_nil]
  omega

/-- The merge can take off what it has read at its start. -/
theorem MergeInv.covers (h : MergeInv crc s₀ bar n walked top s) {stale : ℕ}
    (hm : s.merge = .subtract stale) : stale ≤ s.writer.staleBytesCount := by
  have hphase := h.phase
  rw [hm] at hphase
  obtain rfl : stale = s₀.writer.staleBytesCount := hphase
  exact h.stale (by rw [hm]; trivial)

theorem MergeInv.subtract (h : MergeInv crc s₀ bar n walked top s) {stale : ℕ}
    (hm : s.merge = .subtract stale) :
    MergeInv crc s₀ bar (n + 1) (walked ++ []) top
      { s with
        writer := { s.writer with staleBytesCount := s.writer.staleBytesCount - stale }
        merge := .idle (some (.ok ())) } := by
  obtain ⟨-, hlock, -, hbelow, hfirst, htop, hlt, hres, hbar, hunused, hsuffix, hleft, hgone, hwalk,
    houtputs, hcount⟩ := h
  rw [hm] at hsuffix hleft hgone hwalk houtputs hcount
  rw [List.append_nil]
  exact ⟨rfl, hlock, False.elim, hbelow, hfirst, htop, hlt, hres, hbar, hunused, hsuffix, hleft, hgone, hwalk,
    houtputs, (Nat.le_of_eq (by simp only [Merge.cost]; omega)).trans hcount⟩

theorem examined_nil (h : ∀ r out fileId rd, s.merge ≠ .records r out fileId rd) :
    examined crc s .merge = [] := by
  unfold examined
  dsimp only
  split
  · rename_i r out fileId rd hm
    exact absurd hm (h r out fileId rd)
  · rfl

/-- The compaction thread. -/
theorem MergeInv.mergeStep (hr : Rep crc cfg recs s) (h : MergeInv crc s₀ bar n walked top s)
    (hnodup : (s₀.snapshot.map Prod.fst).Nodup) (hs : MergeStep crc cfg s s') :
    ∃ top', MergeInv crc s₀ bar (n + 1) (walked ++ examined crc s .merge) top' s' := by
  have hstep : Step crc cfg s .merge s' := .merge hs
  -- only a step that reads a source looks at a record
  have hnil : (∀ r out fileId rd, s.merge ≠ .records r out fileId rd) →
      (∃ top', MergeInv crc s₀ bar (n + 1) (walked ++ []) top' s') →
      ∃ top', MergeInv crc s₀ bar (n + 1) (walked ++ examined crc s .merge) top' s' := by
    intro hne hex
    rwa [examined_nil hne]
  cases hs with
  | lastOutput r out hm ht | scanned r hm ht | source r out fileId i rest hm ht
  | openData r f rest hm ht =>
    exact hnil (by simp [hm]) ⟨top, by simpa only [Sys.nextFile, ht] using h.nextFile hr hm⟩
  | openHint r id data hm => exact hnil (by simp [hm]) ⟨top, h.openHint hr hm⟩
  | framePanic r out fileId rd hm hx => exact absurd hx (hr.record_ok hm).1
  | torn r out fileId p rd rd' hm hx => exact absurd hx ((hr.record_ok hm).2.1 p rd')
  | undecodable r out fileId p b rd rd' e hm hx hd => exact absurd hd (hr.record_decodes hm hx e)
  | eof r out fileId rd rd' hm hx hw => exact ⟨top, h.eof hr hm hx hstep (Or.inl rfl)⟩
  | eofFull r out fileId rd rd' hm hx hw => exact ⟨top, h.eof hr hm hx hstep (Or.inr rfl)⟩
  | skip r out fileId p m b rd rd' c hm hx hd hc => exact ⟨top, h.skip hr hm hx hd hc⟩
  | copy r out fileId p m b rd rd' ts key v hm hx hd hc => exact ⟨top, h.copy hr hm hx hd hc⟩
  | syncData r out hm hn =>
    refine hnil (by simp [hm]) ⟨top, h.finishing hr hstep hm rfl rfl rfl rfl rfl (by decide) fun _ => ?_⟩
    simp
  | syncHint r out hm =>
    refine hnil (by simp [hm]) ⟨top, h.finishing hr hstep hm rfl rfl rfl rfl rfl (by decide) fun _ => ?_⟩
    have hmr := hr.merge
    rw [hm] at hmr
    have hne := (hr.output_files hmr.1 hmr.2.1.1).2.2.1
    simp [Fs.bytes_append_ne hne.symm]
  | reader r out i hm hi =>
    refine hnil (by simp [hm]) ⟨top, h.finishing hr hstep hm rfl rfl rfl rfl rfl (by decide) fun hun => ?_⟩
    cases hun
  | rename r out i hm hi => exact hnil (by simp [hm]) ⟨top + 1, h.rename hr hm⟩
  | renameMissing r out hm hi => exact absurd hi (hr.rename_found hm)
  | readerMissing r out hm hi => exact absurd hi (hr.reader_found hm)
  | update r out p ps hm hp => exact hnil (by simp [hm]) ⟨top, h.update hr hm hp⟩
  | updated r out hm hp => exact hnil (by simp [hm]) ⟨top, h.updated hr hm hp⟩
  | remove id ids stale i hm hi => exact hnil (by simp [hm]) ⟨top, h.remove hnodup hm⟩
  | removeMissing id ids stale hm hi =>
    exact absurd hi (h.left id (by rw [hm]; exact List.mem_cons_self))
  | removed stale hm => exact hnil (by simp [hm]) ⟨top, h.removed hr hm⟩
  | removeHint id ids stale hm => exact hnil (by simp [hm]) ⟨top, h.removeHint hm⟩
  | subtract stale hm hl hle => exact hnil (by simp [hm]) ⟨top, h.subtract hm⟩
  | subtractPoisoned stale hm hl => exact absurd hl h.lock
  | subtractPanic stale hm hl hlt => exact absurd hlt (Nat.not_lt_of_le (h.covers hm))

/-- The buffers of the output reach its files. -/
theorem MergeInv.spill (hr : Rep crc cfg recs s) (h : MergeInv crc s₀ bar n walked top s)
    {k l : ℕ}
    (hs : Step crc cfg s (.spill k l) s') : MergeInv crc s₀ bar (n + 0) (walked ++ []) top s' := by
  have hphase := h.phase
  cases hs with
  | writer hw => cases hw
  | spill out k l ho =>
    have hne : out.hint ≠ out.data ∨ out.dataBuf = [] ∧ out.hintBuf = [] := by
      rcases hr.held_cases ho with ⟨r, hout, hc, -⟩ | ⟨hbuf, -⟩
      · exact Or.inl (hr.output_files hout hc).2.2.1
      · exact Or.inr hbuf
    -- the bytes of the data file and of its buffer stay the same together
    have hbytes : ((s.fs.append out.data (out.dataBuf.take k)).append out.hint
        (out.hintBuf.take l)).bytes out.data ++ out.dataBuf.drop k =
        s.fs.bytes out.data ++ out.dataBuf := by
      rcases hne with hne | ⟨hd, hh⟩
      · rw [Fs.bytes_append_ne hne.symm, Fs.bytes_append_self, List.append_assoc,
          List.take_append_drop]
      · simp [hd, hh]
    have hstep : Step crc cfg s (.spill k l) _ := .spill out k l ho
    cases hm : s.merge with
    | idle | rotating | openHint | removeData | removeHint | subtract | dead =>
      rw [hm] at ho; cases ho
    | nextFile r output =>
      rw [hm] at ho hphase
      obtain rfl : output = some out := ho
      rw [hm] at hstep
      refine h.quiet hr hstep trivial hm rfl rfl rfl trivial hphase rfl rfl (fun _ => rfl)
        (fun _ _ => rfl) rfl (hbytes.trans (List.append_nil _).symm) (Nat.le_of_eq (Nat.zero_add _))
    | records r o fileId rd =>
      rw [hm] at ho hphase
      obtain rfl := Option.some.inj ho
      rw [hm] at hstep
      refine h.quiet hr hstep trivial hm rfl rfl rfl trivial hphase rfl rfl (fun _ => rfl)
        (fun _ _ => rfl) rfl (hbytes.trans (List.append_nil _).symm) (Nat.le_of_eq (Nat.zero_add _))
    | finish st r o =>
      rw [hm] at ho hphase
      obtain rfl := Option.some.inj ho
      rw [hm] at hstep
      refine h.quiet hr hstep trivial hm rfl rfl rfl trivial hphase rfl rfl (fun _ => rfl)
        (fun _ _ => rfl) rfl ?_ (Nat.le_of_eq (Nat.zero_add _))
      rw [liveBytes, List.flatMap_nil, List.append_nil]
      show (if st.unnamed then _ else _) = if st.unnamed then _ else _
      rw [← hbytes]
      rfl

end Steps

end Bitcask
