import Bitcask.Storage.Refine

/-!
# The compaction thread refines the merge of the compacting log

Every step of the compaction thread is a step of the abstract merge, or none. `link_step` puts it
together with the steps of the lock holder.
-/

namespace Bitcask

open LittleEndian FileSystem SegmentedLog

variable {crc : Bytes → UInt32} {cfg : Config} {recs recs' : Inode → List Command}
  {log pub : List Command} {s s' : Sys} {a : CompactingLog.State Bytes Bytes} {r : MergeRun}
  {out : MergeOutput}

/-- A step of the compaction thread that changes nothing but its own state. -/
theorem Link.mergeOnly (h : Link crc cfg recs log pub s a) {m : Merge}
    (hrep : Rep crc cfg recs { s with merge := m }) (hnr : ∀ r, m ≠ .rotating r)
    (ph : CompactingLog.Phase Bytes Bytes) (hinv : CompactingLog.Inv { a with phase := ph })
    (hphase : ph = m.phase recs) :
    Link crc cfg recs log pub { s with merge := m } { a with phase := ph } :=
  h.quiet hrep (fun _ => rfl) (fun _ => rfl) h.hints rfl rfl rfl h.lock_text ph hinv hphase
    (fun r hr => absurd hr (hnr r))

/-- The abstract merge does not notice. -/
theorem Link.mergeSame (h : Link crc cfg recs log pub s a) {m : Merge}
    (hrep : Rep crc cfg recs { s with merge := m }) (hnr : ∀ r, m ≠ .rotating r)
    (hphase : s.merge.phase recs = m.phase recs) :
    Link crc cfg recs log pub { s with merge := m } a :=
  h.mergeOnly hrep hnr a.phase h.inv (h.phase.trans hphase)

theorem Link.start (h : Link crc cfg recs log pub s a) {last : Option (Except KvsError Unit)}
    (hm : s.merge = .idle last) (hl : s.lock = .free)
    (hend : (s.fs.bytes s.writer.file).length = s.writer.offset)
    (hz : cfg.fileSizeThreshold ≠ 0) :
    Link crc cfg recs log pub
      { s with
        lock := .rotateTo .sync
          (s.writer.currentFileId + (s.totalBytes / cfg.fileSizeThreshold + 2) + 1) .compaction
        merge := .rotating ⟨s.writer.currentFileId, s.writer.staleBytesCount, s.snapshot, [],
          s.writer.currentFileId, []⟩ } a := by
  refine h.quiet (h.rep.start hm hl hend hz) (fun _ => rfl) (fun _ => rfl) h.hints rfl rfl
    (by rw [hl]; rfl) (by simp) a.phase h.inv (by rw [h.phase, hm]; rfl) ?_
  intro r hr
  obtain rfl := Merge.rotating.inj hr
  refine ⟨?_, fun id hid hne => ?_⟩
  · show (s.snapshot.map Prod.fst).Pairwise (· < ·)
    refine List.pairwise_map.mpr (List.Pairwise.filter _ ?_)
    exact s.readers.ordered_keys_toList.imp fun hlt => Nat.compare_eq_lt.mp hlt
  · obtain ⟨i, hi⟩ := Option.ne_none_iff_exists'.mp hne
    have hrd := h.rep.core.dir_rd hi
    rw [handles_eq (by rw [hl]; rfl) (by rw [hm]; rfl)] at hrd
    refine List.mem_map.mpr ⟨(id, i), List.mem_filter.mpr ⟨?_, ?_⟩, rfl⟩
    · exact Std.TreeMap.mem_toList_iff_getElem?_eq_some.mpr hrd
    · have hid : id < s.writer.currentFileId := hid
      simpa using Nat.ne_of_lt hid

theorem Link.scanned (h : Link crc cfg recs log pub s a) (hm : s.merge = .nextFile r none)
    (ht : r.todo = []) :
    CompactingLog.Step a { a with phase := .drop r.idsToRemove } := by
  have hmr := h.rep.merge
  rw [hm] at hmr
  have hph : a.phase = r.walk [] := by rw [h.phase, hm]; rfl
  have htodo : r.todoIds = [] := by rw [MergeRun.todoIds, ht]; rfl
  have hstep : CompactingLog.Step a { a with phase := .drop (r.idsToRemove ++ r.todoIds) } := by
    refine .finish _ hph (by show r.pendingRecords.map _ = []; rw [hmr.1]; rfl) ?_
    intro k p _ _ hp
    have hp : p.seg ∈ r.todoIds := hp
    rw [htodo] at hp; cases hp
  rwa [htodo, List.append_nil] at hstep

theorem phase_source {fileId : ℕ} {i : Inode} {rest : List (ℕ × Inode)} {b : Bytes} {n : ℕ}
    (ht : r.todo = (fileId, i) :: rest) :
    (Merge.nextFile r (some out)).phase recs =
      (Merge.records { r with todo := rest } out fileId (RecordReader.new b n)).phase recs := by
  have hids : r.todoIds = fileId :: MergeRun.todoIds { r with todo := rest } := by
    rw [MergeRun.todoIds, ht]; rfl
  have hset : {p : CompactingLog.Pos | p.seg ∈ r.todoIds} =
      {p | p.seg ∈ MergeRun.todoIds { r with todo := rest } ∨
        p.seg = fileId ∧ (RecordReader.new b n).position ≤ p.off} := by
    ext p
    rw [hids]
    simp [RecordReader.new, or_comm]
  rw [Merge.phase, MergeRun.walk, hset, hids]
  rfl

/-! ## The records of a source -/

/-- The record the compaction thread reads next. -/
theorem Rep.record_at (h : Rep crc cfg recs s) {fileId p : ℕ} {b : Bytes} {rd rd' : RecordReader}
    (hm : s.merge = .records r out fileId rd) (hx : rd.nextRecord = some (.record p b, rd')) :
    ∃ i c, s.handles fileId = some i ∧ b = c.serialize crc ∧
      Command.deserialize crc b = .ok (c, b.length) ∧ At crc (recs i) p c ∧ rd.position = p ∧
      rd'.position = p + b.length ∧
      ∀ off d, At crc (recs i) off d → p ≤ off → off = p ∨ p + b.length ≤ off := by
  have hmr := h.merge
  rw [hm] at hmr
  obtain ⟨-, -, i, done, rest, hi, -, hsplit, rfl, -⟩ := hmr
  have hfits : ∀ c ∈ rest, c.Fits := fun c hc =>
    h.core.fits i c (by rw [hsplit]; exact List.mem_append_right _ hc)
  rcases next_cases hfits hx with ⟨-, hx'⟩ | ⟨c, rest', rfl, hx', rfl⟩
  · cases hx'
  obtain ⟨rfl, rfl⟩ := RecordRead.record.inj hx'
  have hd := Command.deserialize_serialize crc (hfits c List.mem_cons_self) []
  rw [List.append_nil] at hd
  refine ⟨i, c, hi, rfl, hd, ⟨done, rest', hsplit, rfl⟩, rfl, rfl, fun off d hat hle => ?_⟩
  rw [hsplit] at hat
  rcases hat.cases_split with hlt | heq | hge
  · omega
  · exact Or.inl heq
  · exact Or.inr hge

/-- At the end of a source every record has been read. -/
theorem Rep.eof_at (h : Rep crc cfg recs s) {fileId : ℕ} {rd rd' : RecordReader}
    (hm : s.merge = .records r out fileId rd) (hx : rd.nextRecord = some (.cleanEof, rd')) :
    ∃ i, s.handles fileId = some i ∧ ∀ off d, At crc (recs i) off d → off < rd.position := by
  have hmr := h.merge
  rw [hm] at hmr
  obtain ⟨-, -, i, done, rest, hi, -, hsplit, rfl, -⟩ := hmr
  have hfits : ∀ c ∈ rest, c.Fits := fun c hc =>
    h.core.fits i c (by rw [hsplit]; exact List.mem_append_right _ hc)
  rcases next_cases hfits hx with ⟨rfl, -⟩ | ⟨c, rest', rfl, hx', -⟩
  · refine ⟨i, hi, fun off d hat => ?_⟩
    have hle := hat.le
    have hpos := Command.serialize_pos crc d
    rw [hsplit, List.append_nil] at hle
    show off < (encodeAll crc done).length
    omega
  · cases hx'

/-- An entry that points to a position of the source stands for the record there. -/
theorem Link.entry_at (h : Link crc cfg recs log pub s a) {k : Bytes} {p : CompactingLog.Pos}
    {i : Inode} (hk : a.loc k = some p) (hi : s.handles p.seg = some i) :
    ∃ e v, s.index.get k = some e ∧ e.pos = p ∧ valueOf k pub = some v ∧
      At crc (recs i) p.off (.set e.ts k v) := by
  rw [h.loc, Option.map_eq_some_iff] at hk
  obtain ⟨e, he, rfl⟩ := hk
  obtain ⟨i', v, hi', hv, hat, -⟩ := h.entry_dir he
  obtain rfl := Option.some.inj ((h.rep.core.dir_rd hi').symm.trans hi)
  exact ⟨e, v, he, rfl, hv, hat⟩

theorem Link.eof (h : Link crc cfg recs log pub s a) {fileId : ℕ} {rd rd' : RecordReader}
    (hm : s.merge = .records r out fileId rd) (hx : rd.nextRecord = some (.cleanEof, rd')) :
    CompactingLog.Step a
      { a with
        phase := MergeRun.walk { r with idsToRemove := r.idsToRemove ++ [fileId] }
          (copiesOf (recs out.data)) } := by
  obtain ⟨i, hi, hend⟩ := h.rep.eof_at hm hx
  have hph : a.phase = _ := h.phase.trans (by rw [hm])
  have hstep := CompactingLog.Step.pass _ {p : CompactingLog.Pos | p.seg ∈ r.todoIds} hph
    (fun k p hk _ hp => ?_)
  · have hsources : r.idsToRemove ++ fileId :: r.todoIds = r.idsToRemove ++ [fileId] ++ r.todoIds := by
      simp
    simp only [MergeRun.scan, hsources] at hstep
    exact hstep
  · rcases hp with hp | ⟨hseg, hoff⟩
    · exact Or.inl hp
    · -- all records of the source have been read
      obtain ⟨e, v, -, -, -, hat⟩ := h.entry_at hk (by rw [hseg]; exact hi)
      have := hend _ _ hat
      omega

/-- A record passed: an entry that still points to it has been copied. -/
theorem Link.passRecord (h : Link crc cfg recs log pub s a) {fileId p : ℕ} {b : Bytes}
    {rd rd' : RecordReader} (hm : s.merge = .records r out fileId rd)
    (hx : rd.nextRecord = some (.record p b, rd')) (m : CompactingLog.Scan Bytes Bytes)
    (a' : CompactingLog.State Bytes Bytes) (hph : a'.phase = .scan m) (hloc : a'.loc = a.loc)
    (htodo : m.todo = {q | q.seg ∈ r.todoIds ∨ q.seg = fileId ∧ rd.position ≤ q.off})
    (hhere : ∀ k e, s.index.get k = some e → e.pos = ⟨fileId, p⟩ →
      ∃ q, (k, e.pos, q) ∈ m.moves) :
    CompactingLog.Step a'
      { a' with
        phase := .scan { m with
          todo := {q | q.seg ∈ r.todoIds ∨ q.seg = fileId ∧ rd'.position ≤ q.off} } } := by
  obtain ⟨i, c, hi, -, -, hc, hpos, hpos', hgap⟩ := h.rep.record_at hm hx
  refine .pass m _ hph fun k q hk _ hq => ?_
  rw [htodo] at hq
  rw [hloc] at hk
  rcases hq with hq | ⟨hseg, hoff⟩
  · exact Or.inl (Or.inl hq)
  · obtain ⟨e, v, he, heq, -, hat⟩ := h.entry_at hk (by rw [hseg]; exact hi)
    rcases hgap _ _ hat (hpos ▸ hoff) with hp | hge
    · right
      have hq : e.pos = ⟨fileId, p⟩ := by
        rw [heq, ← hseg, ← hp]
      rw [← heq]
      exact hhere k e he hq
    · exact Or.inl (Or.inr ⟨hseg, by rw [hpos']; exact hge⟩)

theorem sitsInIndex_of_entry {key : Bytes} {e : IndexValue} {fileId p : ℕ}
    (he : s.index.get key = some e) (hp : e.pos = ⟨fileId, p⟩) :
    s.sitsInIndex key fileId p = true := by
  obtain ⟨h1, h2⟩ := CompactingLog.Pos.mk.inj hp
  unfold Sys.sitsInIndex
  rw [he]
  simp [h1, h2]

theorem Link.skip (h : Link crc cfg recs log pub s a) {fileId p n : ℕ} {b : Bytes}
    {rd rd' : RecordReader} {c : Command} (hm : s.merge = .records r out fileId rd)
    (hx : rd.nextRecord = some (.record p b, rd')) (hd : Command.deserialize crc b = .ok (c, n))
    (hs : c.IsSet → s.sitsInIndex c.getKey fileId p = false) :
    ∃ a', Link crc cfg recs log pub { s with merge := .records r out fileId rd' } a' ∧
      Relation.ReflTransGen CompactingLog.Step a a' ∧ a'.durable = a.durable := by
  have hph : a.phase = _ := h.phase.trans (by rw [hm])
  obtain ⟨i, c', hi, -, hd', hc, -⟩ := h.rep.record_at hm hx
  rw [hd, Except.ok.injEq, Prod.mk.injEq] at hd'
  obtain rfl : c = c' := hd'.1
  have hstep := h.passRecord hm hx _ a hph rfl rfl fun k e he hp => by
    -- the entry would be that of a live record
    obtain ⟨e', v, he', -, -, hat⟩ := h.entry_at (k := k) (p := e.pos)
      (by rw [h.loc, he]; rfl) (by rw [hp]; exact hi)
    rw [hp] at hat
    obtain rfl := hat.unique hc
    have := hs trivial
    rw [show (Command.set e'.ts k v).getKey = k from rfl, sitsInIndex_of_entry he hp] at this
    cases this
  exact ⟨_, h.mergeOnly (h.rep.skip hm hx) (by simp) _ (hstep.inv h.inv) rfl, .single hstep, rfl⟩

theorem copiesOf_append (cs ds : List Command) : copiesOf (cs ++ ds) = copiesOf cs ++ copiesOf ds :=
  List.filterMap_append

/-- The records of a file without a data name may change. -/
theorem recs_update_of_data {j : Inode}
    (hj : ∀ id, s.fs.lookup (.data id) ≠ some j) {cs : List Command} {id : ℕ} {i : Inode}
    (hi : s.fs.lookup (.data id) = some i) : Function.update recs j cs i = recs i := by
  refine Function.update_of_ne ?_ ..
  rintro rfl
  exact hj id hi

/-- A live record is copied. -/
theorem Link.copy (h : Link crc cfg recs log pub s a) {fileId p n : ℕ} {b key v : Bytes}
    {rd rd' : RecordReader} {ts : UInt64} (hm : s.merge = .records r out fileId rd)
    (hx : rd.nextRecord = some (.record p b, rd'))
    (hd : Command.deserialize crc b = .ok (.set ts key v, n))
    (hs : s.sitsInIndex key fileId p = true) :
    ∃ a', Link crc cfg (Function.update recs out.data (recs out.data ++ [.set ts key v])) log pub
        { s with
          merge := .records
            { r with pendingRecords := r.pendingRecords ++
                [⟨key, ⟨fileId, ts, p, b.length⟩, (out.append crc b key ts).2⟩] }
            (out.append crc b key ts).1 fileId rd' } a' ∧
      Relation.ReflTransGen CompactingLog.Step a a' ∧ a'.durable = a.durable := by
  have hph : a.phase = _ := h.phase.trans (by rw [hm])
  have hmr := h.rep.merge
  rw [hm] at hmr
  obtain ⟨ho, hn, -⟩ := hmr
  obtain ⟨i, c, hi, -, hd', hc, -⟩ := h.rep.record_at hm hx
  rw [hd, Except.ok.injEq, Prod.mk.injEq] at hd'
  obtain rfl : Command.set ts key v = c := hd'.1
  -- the entry of the key points to the record
  obtain ⟨e, he, hpos⟩ : ∃ e, s.index.get key = some e ∧ e.pos = ⟨fileId, p⟩ := by
    unfold Sys.sitsInIndex at hs
    cases he : s.index.get key with
    | none => rw [he] at hs; cases hs
    | some e =>
      rw [he] at hs
      obtain ⟨h1, h2⟩ := of_decide_eq_true hs
      exact ⟨e, rfl, by rw [IndexValue.pos, h1, h2]⟩
  have hloc : a.loc key = some ⟨fileId, p⟩ := by rw [h.loc, he, ← hpos]; rfl
  obtain ⟨e', v', he', -, hv, hat⟩ := h.entry_at hloc hi
  obtain ⟨-, -, rfl⟩ := Command.set.inj (hat.unique hc)
  set new : IndexValue := (out.append crc b key ts).2 with hnew
  set m : CompactingLog.Scan Bytes Bytes := r.scan (r.idsToRemove ++ fileId :: r.todoIds)
    {q | q.seg ∈ r.todoIds ∨ q.seg = fileId ∧ rd.position ≤ q.off} (copiesOf (recs out.data))
  have hcopy := CompactingLog.Step.copy m key ⟨fileId, p⟩ new.pos v' hph hloc
    (List.mem_append_right _ List.mem_cons_self) (by rw [h.pub_eq]; exact hv) ho.id_eq
  have hpass := h.passRecord hm hx { m with
      copies := m.copies ++ [(key, v')], moves := m.moves ++ [(key, ⟨fileId, p⟩, new.pos)] }
    { a with phase := .scan { m with
      copies := m.copies ++ [(key, v')], moves := m.moves ++ [(key, ⟨fileId, p⟩, new.pos)] } }
    rfl rfl rfl fun k e₁ he₁ hp => by
      -- only the copied entry points here
      obtain ⟨e₂, v₂, -, -, -, hat₂⟩ := h.entry_at (k := k) (p := e₁.pos)
        (by rw [h.loc, he₁]; rfl) (by rw [hp]; exact hi)
      rw [hp] at hat₂
      obtain ⟨-, rfl, -⟩ := Command.set.inj (hat₂.unique hc)
      rw [hp]
      exact ⟨new.pos, List.mem_append_right _ (List.mem_singleton.mpr rfl)⟩
  have hno : ∀ id, s.fs.lookup (.data id) ≠ some out.data := by
    intro id hid
    cases s.fs.dir_inj _ _ _ hid hn
  refine ⟨_, ?_, (Relation.ReflTransGen.single hcopy).tail hpass, rfl⟩
  refine h.quiet (h.rep.copy hm hx hd) (fun hi => recs_update_of_data hno hi) (fun _ => rfl) ?_ rfl rfl rfl
    h.lock_text _ (hpass.inv (hcopy.inv h.inv)) ?_ (by simp)
  · exact h.hints.congr le_rfl (fun hj _ => ⟨hj, rfl⟩) (fun hi _ => ⟨hi, recs_update_of_data hno hi⟩)
  · have hcopies : copiesOf (Function.update recs out.data (recs out.data ++ [.set ts key v'])
        (out.append crc b key ts).1.data) = copiesOf (recs out.data) ++ [(key, v')] := by
      show copiesOf (Function.update recs out.data _ out.data) = _
      rw [Function.update_self, copiesOf_append]
      rfl
    simp only [Merge.phase, MergeRun.scan, hcopies, List.map_append]
    rfl

/-! ## The output -/

/-- The next output is created; its id is free. -/
theorem Link.openData (h : Link crc cfg recs log pub s a) {f : ℕ × Inode}
    {rest : List (ℕ × Inode)} (hm : s.merge = .nextFile r none) (ht : r.todo = f :: rest) :
    ∃ a', Link crc cfg (Function.update recs s.fs.next []) log pub
        { s with
          fs := s.fs.create (.compact (r.nextCompactionFileId + 1))
          merge := .openHint { r with nextCompactionFileId := r.nextCompactionFileId + 1 }
            (r.nextCompactionFileId + 1) (s.fs.handle (.compact (r.nextCompactionFileId + 1))) } a' ∧
      Relation.ReflTransGen CompactingLog.Step a a' ∧ a'.durable = a.durable := by
  have hph : a.phase = _ := h.phase.trans (by rw [hm])
  have hrep := h.rep.openData hm ht
  set o := r.nextCompactionFileId + 1 with ho
  have hother : ∀ {n}, n ≠ .compact o → (s.fs.create (.compact o)).lookup n = s.fs.lookup n :=
    fun hn => Fs.lookup_create_ne hn
  have hrecs : ∀ {id i}, s.fs.lookup (.data id) = some i →
      Function.update recs s.fs.next [] i = recs i := fun hi =>
    Function.update_of_ne (Nat.ne_of_lt (s.fs.dir_lt _ _ hi)) ..
  -- the invariant of the next state knows that there is room for the output
  obtain ⟨hlt, hfree⟩ : o < s.writer.currentFileId ∧ s.fs.lookup (.data o) = none := by
    obtain ⟨-, -, -, -, -, -, bar, hrun⟩ := hrep.merge
    have hnext : o < bar := hrun.next_lt
    have hbar : bar ≤ s.writer.currentFileId := hrun.bar_le
    refine ⟨by omega, ?_⟩
    by_contra hne
    obtain ⟨i, hi⟩ := Option.ne_none_iff_exists'.mp hne
    have hi' := hrep.core.dir_rd ((hother (by simp)).trans hi)
    have := hrun.output_free rfl
    rw [hi'] at this; cases this
  have hstep := CompactingLog.Step.output _ o hph (Nat.le_succ _) (by rw [h.cur]; exact hlt)
    (fun j hj hle => by
      have hj : r.nextCompactionFileId < j := hj
      obtain rfl : j = o := by omega
      rw [h.seg_eq (Nat.ne_of_lt hlt), segsOf_none _ hfree]
      rfl)
  refine ⟨_, ?_, .single hstep, rfl⟩
  refine h.quiet hrep hrecs (fun id => hother (by simp)) ?_ rfl rfl rfl h.lock_text
    _ (hstep.inv h.inv) rfl (by simp)
  refine h.hints.congr le_rfl (fun {id j} hj _ => ?_) (fun {id i} hi _ => ?_)
  · have hj' : s.fs.lookup (.hint id) = some j := (hother (by simp)).symm.trans hj
    exact ⟨hj', Fs.bytes_create_of_lt (s.fs.dir_lt _ _ hj')⟩
  · have hi' : s.fs.lookup (.data id) = some i := (hother (by simp)).symm.trans hi
    exact ⟨hi', hrecs hi'⟩

/-- The id of the output is no id of a data file. -/
theorem Rep.output_no_data (h : Rep crc cfg recs s) {bar used : ℕ} {id : ℕ}
    (hrun : RunRep crc cfg recs s.fs s.handles s.writer.currentFileId bar r true used)
    (hid : id = r.nextCompactionFileId) : s.fs.lookup (.data id) = none := by
  by_contra hne
  obtain ⟨i, hi⟩ := Option.ne_none_iff_exists'.mp hne
  have hfree := hrun.output_free hid
  rw [h.core.dir_rd hi] at hfree; cases hfree

theorem Link.openHint (h : Link crc cfg recs log pub s a) {id : ℕ} {data : Inode}
    (hm : s.merge = .openHint r id data) : Link crc cfg recs log pub (s.openHint r id data) a := by
  have hmr := h.rep.merge
  rw [hm] at hmr
  obtain ⟨-, hid, -, -, hnil, -, bar, hrun⟩ := hmr
  have hother : ∀ {n}, n ≠ .hint id → (s.fs.create (.hint id)).lookup n = s.fs.lookup n :=
    fun hn => Fs.lookup_create_ne hn
  have hfree := h.rep.output_no_data hrun hid
  refine h.quiet (h.rep.openHint hm) (fun _ => rfl) (fun _ => hother (by simp)) ?_ rfl rfl rfl
    h.lock_text a.phase h.inv ?_ (by simp [Sys.openHint])
  · refine h.hints.congr le_rfl (fun {id' j} hj hd => ?_) (fun hi _ => ⟨(hother (by simp)).symm.trans hi, rfl⟩)
    have hd' : s.fs.lookup (.data id') ≠ none := fun he => hd ((hother (by simp)).trans he)
    have hne : id' ≠ id := by
      rintro rfl
      exact hd' hfree
    have hj' : s.fs.lookup (.hint id') = some j := (hother (by simpa using hne)).symm.trans hj
    exact ⟨hj', Fs.bytes_create_of_lt (s.fs.dir_lt _ _ hj')⟩
  · rw [h.phase, hm]
    show r.walk [] = r.walk (copiesOf (recs data))
    rw [hnil]
    rfl

/-- Bytes that go to the files of an output without a data name concern no hint. -/
theorem Link.hints_output (h : Link crc cfg recs log pub s a)
    (hhint : s.fs.lookup (.hint out.id) = some out.hint)
    (hn : s.fs.lookup (.compact out.id) = some out.data)
    (hfree : s.fs.lookup (.data out.id) = none) {fs' : Fs FileName}
    (hl : ∀ n, fs'.lookup n = s.fs.lookup n)
    (hb : ∀ j, j ≠ out.data → j ≠ out.hint → fs'.bytes j = s.fs.bytes j) :
    HintsOk crc recs fs' s.writer.currentFileId := by
  refine h.hints.congr le_rfl (fun {id j} hj hd => ?_) (fun hi _ => ⟨(hl _).symm.trans hi, rfl⟩)
  rw [hl] at hj hd
  refine ⟨hj, hb j ?_ ?_⟩
  · rintro rfl
    cases s.fs.dir_inj _ _ _ hj hn
  · rintro rfl
    rw [FileName.hint.inj (s.fs.dir_inj _ _ _ hj hhint)] at hd
    exact hd hfree

theorem Link.syncData (h : Link crc cfg recs log pub s a) (hm : s.merge = .finish .syncData r out)
    (hlen : (s.fs.bytes out.data).length + out.dataBuf.length < maxFileLen) :
    Link crc cfg recs log pub
      { s with
        fs := (s.fs.append out.data out.dataBuf).sync out.data
        merge := .finish .syncHint r { out with dataBuf := [] } } a := by
  have hmr := h.rep.merge
  rw [hm] at hmr
  obtain ⟨ho, hn, -, bar, hrun⟩ := hmr
  refine h.quiet (h.rep.syncData hm hlen) (fun _ => rfl) (fun _ => rfl) ?_ rfl rfl rfl h.lock_text
    a.phase h.inv (by rw [h.phase, hm]; rfl) (by simp)
  exact h.hints_output ho.hint_name hn (h.rep.output_no_data hrun ho.id_eq) (fun _ => rfl)
    (fun j hj _ => Fs.bytes_append_ne hj _)

theorem Link.syncHint (h : Link crc cfg recs log pub s a) (hm : s.merge = .finish .syncHint r out) :
    Link crc cfg recs log pub
      { s with
        fs := (s.fs.append out.hint out.hintBuf).sync out.hint
        merge := .finish .rename r { out with hintBuf := [] } } a := by
  have hmr := h.rep.merge
  rw [hm] at hmr
  obtain ⟨ho, ⟨hn, -⟩, -, bar, hrun⟩ := hmr
  refine h.quiet (h.rep.syncHint hm) (fun _ => rfl) (fun _ => rfl) ?_ rfl rfl rfl h.lock_text
    a.phase h.inv (by rw [h.phase, hm]; rfl) (by simp)
  exact h.hints_output ho.hint_name hn (h.rep.output_no_data hrun ho.id_eq) (fun _ => rfl)
    (fun j _ hj => Fs.bytes_append_ne hj _)

theorem events_sets {cs : List Command} (h : ∀ c ∈ cs, c.IsSet) :
    (copiesOf cs).map (fun c => (c.1, some c.2)) = events cs := by
  induction cs with
  | nil => rfl
  | cons c cs ih =>
    have hc := h c List.mem_cons_self
    cases c with
    | rm ts key => exact hc.elim
    | set ts key v =>
      rw [show copiesOf (.set ts key v :: cs) = (key, v) :: copiesOf cs from rfl, List.map_cons,
        ih fun d hd => h d (List.mem_cons_of_mem _ hd)]
      rfl

/-- The output becomes a data file. -/
theorem Link.rename (h : Link crc cfg recs log pub s a) (hm : s.merge = .finish .rename r out) :
    ∃ a', Link crc cfg recs log pub
        { s with
          fs := s.fs.rename (.compact out.id) (.data out.id)
          merge := .finish .reader r out } a' ∧
      Relation.ReflTransGen CompactingLog.Step a a' ∧ a'.durable = a.durable := by
  have hph : a.phase = _ := h.phase.trans (by rw [hm])
  have hmr := h.rep.merge
  rw [hm] at hmr
  obtain ⟨ho, ⟨hn, ⟨-, hbuf⟩, -⟩, -, bar, hrun⟩ := hmr
  have hfree := h.rep.output_no_data hrun ho.id_eq
  have hlt : out.id < s.writer.currentFileId := hrun.output_lt ho
  have hnew : (s.fs.rename (.compact out.id) (.data out.id)).lookup (.data out.id) = some out.data :=
    Fs.lookup_rename_new hn
  have hother : ∀ {n}, n ≠ .compact out.id → n ≠ .data out.id →
      (s.fs.rename (.compact out.id) (.data out.id)).lookup n = s.fs.lookup n := fun h1 h2 =>
    Fs.lookup_rename_ne h1 h2
  have hdata : ∀ {id}, id ≠ out.id →
      (s.fs.rename (.compact out.id) (.data out.id)).lookup (.data id) = s.fs.lookup (.data id) :=
    fun hid => hother (by simp) (by simpa using hid)
  have hold : ∀ {id i}, s.fs.lookup (.data id) = some i → id ≠ out.id := by
    rintro id i hi rfl
    rw [hfree] at hi; cases hi
  have hstep := CompactingLog.Step.name _ hph (by
    show a.segs r.nextCompactionFileId = []
    rw [← ho.id_eq, h.seg_eq (Nat.ne_of_lt hlt), segsOf_none _ hfree]
    rfl)
  refine ⟨_, ⟨h.rep.rename hm, hstep.inv h.inv, ?_, ?_, h.text, h.lock_text, h.fresh, fun id => ?_,
    h.cur, h.log_eq, h.pub_eq, h.loc, ?_, by simp⟩, .single hstep, rfl⟩
  · exact h.represents.frame fun _ hi => ⟨(hdata (hold hi)).trans hi, List.prefix_rfl⟩
  · intro id j i hj hi
    have hj' : s.fs.lookup (.hint id) = some j := (hother (by simp) (by simp)).symm.trans hj
    by_cases hid : id = out.id
    · subst hid
      obtain rfl := Option.some.inj (hnew.symm.trans hi)
      obtain rfl := Option.some.inj (ho.hint_name.symm.trans hj')
      refine ⟨hlt, ?_, ho.sets⟩
      have hbytes := ho.hint_bytes
      rw [hbuf, List.append_nil] at hbytes
      rw [Fs.bytes_rename]
      exact hbytes
    · rw [Fs.bytes_rename]
      exact h.hints id j i hj' ((hdata hid).symm.trans hi)
  · have hcur : a.cur ≠ r.nextCompactionFileId := by rw [h.cur, ← ho.id_eq]; exact Nat.ne_of_gt hlt
    by_cases hid : id = out.id
    · subst hid
      refine Eq.trans ?_ (congrArg events (segsOf_some recs hnew)).symm
      refine (CompactingLog.withTail_ne (by rw [h.cur]; exact Nat.ne_of_lt hlt)).trans ?_
      rw [ho.id_eq]
      refine (Function.update_self ..).trans ?_
      exact events_sets ho.sets
    · refine Eq.trans ?_ (congrArg events (segsOf_congr (hdata hid) fun _ => rfl)).symm
      rw [← h.segs]
      have hne : id ≠ r.nextCompactionFileId := by rw [← ho.id_eq]; exact hid
      by_cases hc : id = a.cur
      · rw [hc]
        refine CompactingLog.withTail_self.trans (Eq.trans ?_ CompactingLog.withTail_self.symm)
        exact congrArg (· ++ _) (Function.update_of_ne hcur ..)
      · refine (CompactingLog.withTail_ne hc).trans (Eq.trans ?_ (CompactingLog.withTail_ne hc).symm)
        exact Function.update_of_ne hne ..
  · rfl

/-- An entry that is still where it was copied from moves to the copy. -/
theorem Link.update (h : Link crc cfg recs log pub s a) {p : PendingUpdate}
    {ps : List PendingUpdate} (hm : s.merge = .finish .updates r out)
    (hp : r.pendingRecords = p :: ps) :
    ∃ a', Link crc cfg recs log pub
        { s with
          index := Sys.applyPending s.index p
          merge := .finish .updates { r with pendingRecords := ps } out } a' ∧
      Relation.ReflTransGen CompactingLog.Step a a' ∧ a'.durable = a.durable := by
  have hph : a.phase = _ := h.phase.trans (by rw [hm])
  have hmr := h.rep.merge
  rw [hm] at hmr
  obtain ⟨ho, ⟨hn, -⟩, -, bar, hrun⟩ := hmr
  obtain ⟨hid, v, i, hnew, hlen, hi, hprev⟩ := ho.pending p (by rw [hp]; exact List.mem_cons_self)
  have hlt : out.id < s.writer.currentFileId := hrun.output_lt ho
  have hdir : s.fs.lookup (.data p.new.fileId) = some out.data := by rw [hid]; exact hn
  have hq : lastOf p.key (a.segs p.new.pos.seg) ≠ none := by
    show lastOf p.key (a.segs p.new.fileId) ≠ none
    rw [hid, h.seg_eq (Nat.ne_of_lt hlt), segsOf_some _ hn]
    exact lastOf_ne_none_of_mem hnew.mem rfl
  have hmove := fun loc hloc => CompactingLog.Step.move _ p.key p.previousValue.pos p.new.pos
    (ps.map PendingUpdate.move) loc hph
    (by show r.pendingRecords.map PendingUpdate.move = _; rw [hp]; rfl) hq hloc
  have hrep := h.rep.update hm hp
  by_cases hstill : ∃ e, s.index.get p.key = some e ∧ e.pos = p.previousValue.pos
  · obtain ⟨e, he, hpos⟩ := hstill
    obtain ⟨h1, h2⟩ := CompactingLog.Pos.mk.inj hpos
    have happ : Sys.applyPending s.index p = s.index.insert p.key p.new := by
      simp only [Sys.applyPending, he, h1, h2, and_self, if_true]
    have hstep := hmove _ (Or.inl ⟨by rw [h.loc, he, Option.map_some, hpos], rfl⟩)
    refine ⟨_, ⟨hrep, hstep.inv h.inv, ?_, h.hints, h.text, h.lock_text, h.fresh, h.segs, h.cur,
      h.log_eq, h.pub_eq, fun k => ?_, rfl, by simp⟩, .single hstep, rfl⟩
    · obtain ⟨e', v', he', -, hv, hat⟩ := h.entry_at (k := p.key) (p := p.previousValue.pos)
        (by rw [h.loc, he, Option.map_some, hpos]) hi
      obtain ⟨-, -, rfl⟩ := Command.set.inj (hat.unique hprev)
      rw [happ]
      exact h.represents.replace hv hdir hnew hlen
    · rw [happ]
      exact loc_insert h.loc p.key p.new k
  · have happ : Sys.applyPending s.index p = s.index := by
      unfold Sys.applyPending
      cases he : s.index.get p.key with
      | none => rfl
      | some e =>
        refine if_neg fun hc => hstill ⟨e, he, ?_⟩
        rw [IndexValue.pos, IndexValue.pos, hc.1, hc.2]
    have hstep := hmove a.loc (Or.inr ⟨fun hk => ?_, rfl⟩)
    · refine ⟨_, ⟨hrep, hstep.inv h.inv, ?_, h.hints, h.text, h.lock_text, h.fresh, h.segs, h.cur,
        h.log_eq, h.pub_eq, fun k => ?_, rfl, by simp⟩, .single hstep, rfl⟩
      · rw [happ]; exact h.represents
      · rw [happ]; exact h.loc k
    · rw [h.loc, Option.map_eq_some_iff] at hk
      exact hstill hk

/-! ## The removal of the sources -/

/-- A source is unlinked. -/
theorem Link.removeSource (h : Link crc cfg recs log pub s a) {id stale : ℕ} {ids : List ℕ}
    (hm : s.merge = .removeData (id :: ids) stale)
    (hsurvives : ∀ k, value k a.durable ≠ none → ∃ j, j ≠ id ∧ lastOf k (a.segs j) ≠ none) :
    ∃ a', Link crc cfg recs log pub
        { s with fs := s.fs.unlink (.data id), merge := .removeHint id ids stale } a' ∧
      Relation.ReflTransGen CompactingLog.Step a a' ∧ a'.durable = a.durable := by
  have hph : a.phase = _ := h.phase.trans (by rw [hm])
  have hstep := CompactingLog.Step.drop id ids hph hsurvives
  have hmr := h.rep.merge
  rw [hm] at hmr
  have hlt : id < s.writer.currentFileId := hmr id List.mem_cons_self
  have hunused : ∀ {k e}, s.index.get k = some e → e.fileId ≠ id := by
    rintro k e he rfl
    have hinv := h.inv.phase
    rw [hph] at hinv
    obtain ⟨first, hd⟩ := hinv
    exact hd.unused k e.pos (by rw [h.loc, he]; rfl) List.mem_cons_self
  have hother : ∀ {n}, n ≠ .data id → (s.fs.unlink (.data id)).lookup n = s.fs.lookup n := fun hn =>
    Fs.lookup_unlink_ne s.fs hn
  have hdata : ∀ {id' i}, (s.fs.unlink (.data id)).lookup (.data id') = some i →
      s.fs.lookup (.data id') = some i := by
    intro id' i hi
    by_cases hid : id' = id
    · rw [hid, Fs.lookup_unlink_self] at hi; cases hi
    · exact (hother (by simpa using hid)).symm.trans hi
  have hcur : a.cur ≠ id := by rw [h.cur]; exact Nat.ne_of_gt hlt
  refine ⟨_, ⟨h.rep.removeSource hm, hstep.inv h.inv, ?_, ?_, h.text, h.lock_text, h.fresh,
    fun id' => ?_, h.cur, h.log_eq, h.pub_eq, h.loc, rfl, by simp⟩, .single hstep, rfl⟩
  · exact h.represents.frame fun he hi =>
      ⟨(hother (by simpa using hunused he)).trans hi, List.prefix_rfl⟩
  · exact h.hints.congr le_rfl (fun hj _ => ⟨(hother (by simp)).symm.trans hj, rfl⟩)
      (fun hi _ => ⟨hdata hi, rfl⟩)
  · by_cases hid : id' = id
    · subst hid
      refine Eq.trans ?_ (congrArg events (segsOf_none recs (Fs.lookup_unlink_self s.fs _))).symm
      refine (CompactingLog.withTail_ne (Ne.symm hcur)).trans ?_
      exact Function.update_self ..
    · refine Eq.trans ?_
        (congrArg events (segsOf_congr (hother (by simpa using hid)) fun _ => rfl)).symm
      rw [← h.segs]
      by_cases hc : id' = a.cur
      · rw [hc]
        refine CompactingLog.withTail_self.trans (Eq.trans ?_ CompactingLog.withTail_self.symm)
        exact congrArg (· ++ _) (Function.update_of_ne hcur ..)
      · refine (CompactingLog.withTail_ne hc).trans (Eq.trans ?_ (CompactingLog.withTail_ne hc).symm)
        exact Function.update_of_ne hid ..

theorem Link.removeHint (h : Link crc cfg recs log pub s a) {id stale : ℕ} {ids : List ℕ}
    (hm : s.merge = .removeHint id ids stale) :
    Link crc cfg recs log pub
      { s with fs := s.fs.unlink (.hint id), merge := .removeData ids stale } a := by
  refine h.quiet (h.rep.removeHint hm) (fun _ => rfl)
    (fun _ => Fs.lookup_unlink_ne s.fs (by simp)) ?_ rfl rfl rfl h.lock_text a.phase h.inv
    (by rw [h.phase, hm]; rfl) (by simp)
  refine h.hints.congr le_rfl (fun {id' j} hj _ => ⟨?_, rfl⟩)
    (fun hi _ => ⟨(Fs.lookup_unlink_ne s.fs (by simp)).symm.trans hi, rfl⟩)
  by_cases hid : id' = id
  · rw [hid, Fs.lookup_unlink_self] at hj; cases hj
  · exact (Fs.lookup_unlink_ne s.fs (by simpa using hid)).symm.trans hj

/-! ## The buffers of the output -/

/-- The hint of the output does not count while the output has no data name, and afterwards its
buffers are empty. -/
theorem Link.hints_held (h : Link crc cfg recs log pub s a)
    (ho : Sys.heldOutput s.merge = some out) {data hint : Bytes}
    (hnamed : ∀ st r, s.merge = .finish st r out → st.unnamed = false → data = [] ∧ hint = []) :
    HintsOk crc recs (s.writeOutput out data hint).fs s.writer.currentFileId := by
  have hmr := h.rep.merge
  rcases h.rep.held_cases ho with ⟨r, hout, hn, -⟩ | ⟨-, st, r, hm, hst⟩
  · refine h.hints_output hout.hint_name hn ?_ (fun _ => rfl) fun j hj hj' =>
      (Fs.bytes_append_ne hj' _).trans (Fs.bytes_append_ne hj _)
    by_contra hne
    obtain ⟨i, hi⟩ := Option.ne_none_iff_exists'.mp hne
    -- the output would have its data name already
    cases hm : s.merge with
    | nextFile r' output =>
      rw [hm] at hmr ho
      obtain rfl : output = some out := ho
      obtain ⟨hout', -, bar, hrun⟩ := hmr
      rw [h.rep.output_no_data hrun hout'.id_eq] at hi; cases hi
    | records r' o fileId rd =>
      rw [hm] at hmr ho
      obtain rfl := Option.some.inj ho
      obtain ⟨hout', -, i', done, rest, -, -, -, -, bar, hrun⟩ := hmr
      rw [h.rep.output_no_data hrun hout'.id_eq] at hi; cases hi
    | finish st r' o =>
      rw [hm] at hmr ho
      obtain rfl := Option.some.inj ho
      obtain ⟨hout', hfin, -, bar, hrun⟩ := hmr
      cases hst : st.unnamed with
      | true =>
        rw [hst] at hrun
        rw [h.rep.output_no_data hrun hout'.id_eq] at hi; cases hi
      | false =>
        have hd : s.fs.lookup (.data o.id) = some o.data := by
          cases st with
          | syncData | syncHint | rename => cases hst
          | reader | updates => exact hfin.1
        cases s.fs.dir_inj _ _ _ hd hn
    | _ => rw [hm] at ho; cases ho
  · obtain ⟨rfl, rfl⟩ := hnamed st r hm hst
    rw [Sys.writeOutput, Fs.append_nil, Fs.append_nil]
    exact h.hints

theorem phase_withOutput (recs : Inode → List Command) {m : Merge} (out' : MergeOutput)
    (ho : Sys.heldOutput m = some out) (hd : out'.data = out.data) :
    m.phase recs = (Sys.withOutput out' m).phase recs ∧
      ∀ r, Sys.withOutput out' m ≠ .rotating r := by
  cases m with
  | nextFile r output =>
    obtain rfl : output = some out := ho
    simp [Sys.withOutput, Merge.phase, hd]
  | records r o fileId rd =>
    obtain rfl := Option.some.inj ho
    simp [Sys.withOutput, Merge.phase, hd]
  | finish st r o =>
    obtain rfl := Option.some.inj ho
    simp [Sys.withOutput, Merge.phase, hd]
  | _ => cases ho

theorem Link.spill (h : Link crc cfg recs log pub s a) (ho : Sys.heldOutput s.merge = some out)
    (n m : ℕ) :
    Link crc cfg recs log pub
      { s.writeOutput out (out.dataBuf.take n) (out.hintBuf.take m) with
        merge := Sys.withOutput
          { out with dataBuf := out.dataBuf.drop n, hintBuf := out.hintBuf.drop m } s.merge } a := by
  obtain ⟨hphase, hnr⟩ := phase_withOutput recs
    { out with dataBuf := out.dataBuf.drop n, hintBuf := out.hintBuf.drop m } ho rfl
  refine h.quiet (h.rep.spill ho n m) (fun _ => rfl) (fun _ => rfl) ?_ rfl rfl rfl h.lock_text
    a.phase h.inv (h.phase.trans hphase) (fun r hr => absurd hr (hnr r))
  refine h.hints_held ho fun st r hm hst => ?_
  have hmr := h.rep.merge
  rw [hm] at hmr
  cases st with
  | syncData | syncHint | rename => cases hst
  | reader | updates =>
    obtain ⟨-, ⟨-, ⟨hd, hh⟩, -⟩, -⟩ := hmr
    rw [hd, hh]
    simp

/-- A merge that returns. -/
theorem Link.toIdle (h : Link crc cfg recs log pub s a) (hnr : ∀ r, s.merge ≠ .rotating r)
    (hren : s.merge.renamed = none) (res : Option (Except KvsError Unit)) :
    ∃ a', Link crc cfg recs log pub { s with merge := .idle res } a' ∧
      Relation.ReflTransGen CompactingLog.Step a a' ∧ a'.durable = a.durable :=
  ⟨_, h.mergeOnly (h.rep.toIdle hnr hren res) (by simp) _ (CompactingLog.Step.abort.inv h.inv) rfl,
    .single .abort, rfl⟩

theorem Link.outputErr (h : Link crc cfg recs log pub s a)
    (ho : Sys.heldOutput s.merge = some out) (hc : Sys.callsFs s.merge = true)
    (hren : s.merge.renamed = none) (data hint : Bytes) (e : KvsError) :
    ∃ a', Link crc cfg recs log pub ((s.writeOutput out data hint).failMerge e) a' ∧
      Relation.ReflTransGen CompactingLog.Step a a' ∧ a'.durable = a.durable := by
  refine ⟨_, h.quiet (h.rep.outputErr ho hc hren data hint e) (fun _ => rfl) (fun _ => rfl) ?_ rfl
    rfl rfl h.lock_text _ (CompactingLog.Step.abort.inv h.inv) rfl
    (by simp [Sys.failMerge]), .single .abort, rfl⟩
  refine h.hints_held ho fun st r hm hst => ?_
  rw [hm] at hc hren
  cases st with
  | syncData | syncHint | rename => cases hst
  | reader => cases hren
  | updates => cases hc

/-! ## All steps -/

/-- `s'` is related to a state the abstract machine reaches from `a`; nothing becomes durable, and
the records of the files of `s` stay. -/
def Simulates (crc : Bytes → UInt32) (cfg : Config) (recs : Inode → List Command)
    (log : List Command) (s s' : Sys) (a : CompactingLog.State Bytes Bytes) : Prop :=
  ∃ recs' pub' a', Link crc cfg recs' log pub' s' a' ∧
    Relation.ReflTransGen CompactingLog.Step a a' ∧ a'.durable = a.durable ∧
    ∀ {id i}, s.fs.lookup (.data id) = some i → recs i <+: recs' i

theorem Link.simulates (h : Link crc cfg recs log pub s' a) : Simulates crc cfg recs log s s' a :=
  ⟨recs, pub, a, h, .refl, rfl, fun _ => List.prefix_rfl⟩

theorem simulates_of_exists
    (h : ∃ a', Link crc cfg recs log pub s' a' ∧
      Relation.ReflTransGen CompactingLog.Step a a' ∧ a'.durable = a.durable) :
    Simulates crc cfg recs log s s' a := by
  obtain ⟨a', hl, hs, hd⟩ := h
  exact ⟨recs, pub, a', hl, hs, hd, fun _ => List.prefix_rfl⟩

theorem logged_of_ne {act : Act} (ha : ∀ n, act ≠ .write n) : log ++ logged crc s act = log := by
  cases act with
  | write n => exact absurd rfl (ha n)
  | _ => exact List.append_nil log

theorem link_writerStep (h : Link crc cfg recs log pub s a) {act : Act} (hok : WriterOk s act)
    (hvol : ∀ next caller, s.lock = .rotateTo .create next caller → a.volatile = [])
    (hs : WriterStep crc cfg s act s') :
    Simulates crc cfg recs (log ++ logged crc s act) s s' a := by
  cases h.rep.writerMove hs with
  | begin call ts hl =>
    rw [logged_of_ne (by simp)]
    exact (h.begin hl hok.1 hok.2).simulates
  | write c done n hl hn hm =>
    obtain ⟨recs', a', hlink, hstep, hd, hpre⟩ := h.write hl hn hm
    exact ⟨recs', pub, a', hlink, hstep, hd, fun _ => hpre _⟩
  | publish c now hl =>
    rw [logged_of_ne (by simp)]
    exact simulates_of_exists (h.publish hl)
  | rotateCreate next now caller hl =>
    rw [logged_of_ne (by simp)]
    obtain ⟨recs', a', hlink, hstep, hd, hrecs⟩ := h.rotateCreate hl (hvol next caller hl) now
    exact ⟨recs', pub, a', hlink, hstep, hd, fun hi =>
      (hrecs _ (s.fs.dir_lt _ _ hi)) ▸ List.prefix_rfl⟩
  | rotateReader next now caller i hl hi =>
    rw [logged_of_ne (by simp)]
    exact simulates_of_exists (h.rotateReader hl hi)
  | failRotate st next caller e hl =>
    rw [logged_of_ne (by simp)]
    exact simulates_of_exists (h.failRotate hl (hok.early hl) e)
  | quiet _ _ ha hrep hl hb hidx hcur hm hw hw' =>
    rw [logged_of_ne ha]
    have hfresh : s'.lock.fresh crc = s.lock.fresh crc :=
      (Lock.fresh_eq_nil fun c hc => hw' c _ hc).trans (Lock.fresh_eq_nil hw).symm
    exact (h.private hrep hl hb hidx hcur hm hfresh fun c done hc => absurd hc (hw' c done)).simulates

theorem prefix_update (j : Inode) (cs : List Command) (i : Inode) :
    recs i <+: Function.update recs j (recs j ++ cs) i := by
  rcases eq_or_ne i j with rfl | hne
  · rw [Function.update_self]
    exact List.prefix_append ..
  · rw [Function.update_of_ne hne]

/-- A panic of the compaction thread with the lock held. -/
theorem Link.poison (h : Link crc cfg recs log pub s a) (hl : s.lock = .free)
    (hnr : ∀ r, s.merge ≠ .rotating r) (hren : s.merge.renamed = none) :
    ∃ a', Link crc cfg recs log pub { s with lock := .poisoned, merge := .dead } a' ∧
      Relation.ReflTransGen CompactingLog.Step a a' ∧ a'.durable = a.durable :=
  ⟨_, h.quiet (h.rep.poison hl hnr hren) (fun _ => rfl) (fun _ => rfl) h.hints rfl rfl
    (by rw [hl]; rfl) (by simp) _ (CompactingLog.Step.abort.inv h.inv) rfl (by simp),
    .single .abort, rfl⟩

theorem link_mergeStep (h : Link crc cfg recs log pub s a) (hs : MergeStep crc cfg s s')
    (hsurvives : ∀ id ids stale, s.merge = .removeData (id :: ids) stale →
      ∀ k, value k a.durable ≠ none → ∃ j, j ≠ id ∧ lastOf k (a.segs j) ≠ none) :
    Simulates crc cfg recs log s s' a := by
  cases hs with
  | lastOutput r out hm ht =>
    exact (h.mergeSame (h.rep.lastOutput hm ht) (by simp) (by rw [hm]; rfl)).simulates
  | scanned r hm ht =>
    have hstep := h.scanned hm ht
    exact simulates_of_exists
      ⟨_, h.mergeOnly (h.rep.scanned hm) (by simp) _ (hstep.inv h.inv) rfl, .single hstep, rfl⟩
  | source r out fileId i rest hm ht =>
    exact (h.mergeSame (h.rep.source hm ht) (by simp) (by rw [hm]; exact phase_source ht)).simulates
  | openData r f rest hm ht =>
    obtain ⟨a', hlink, hstep, hd⟩ := h.openData hm ht
    refine ⟨_, pub, a', hlink, hstep, hd, fun {id i} hi => ?_⟩
    rw [Function.update_of_ne (Nat.ne_of_lt (s.fs.dir_lt _ _ hi))]
  | openHint r id data hm => exact (h.openHint hm).simulates
  | framePanic r out fileId rd hm hr => exact absurd hr (h.rep.record_ok hm).1
  | torn r out fileId p rd rd' hm hr => exact absurd hr ((h.rep.record_ok hm).2.1 p rd')
  | eof r out fileId rd rd' hm hr hw =>
    have hstep := h.eof hm hr
    exact simulates_of_exists
      ⟨_, h.mergeOnly (h.rep.eof hm hr).1 (by simp) _ (hstep.inv h.inv) rfl, .single hstep, rfl⟩
  | eofFull r out fileId rd rd' hm hr hw =>
    have hstep := h.eof hm hr
    exact simulates_of_exists
      ⟨_, h.mergeOnly ((h.rep.eof hm hr).2 hw) (by simp) _ (hstep.inv h.inv) rfl, .single hstep, rfl⟩
  | undecodable r out fileId p b rd rd' e hm hr hd => exact absurd hd (h.rep.record_decodes hm hr e)
  | skip r out fileId p n b rd rd' c hm hr hd hs => exact simulates_of_exists (h.skip hm hr hd hs)
  | copy r out fileId p n b rd rd' ts key v hm hr hd hs =>
    obtain ⟨a', hlink, hstep, hdur⟩ := h.copy hm hr hd hs
    exact ⟨_, pub, a', hlink, hstep, hdur, fun _ => prefix_update ..⟩
  | syncData r out hm hn => exact (h.syncData hm hn).simulates
  | syncHint r out hm => exact (h.syncHint hm).simulates
  | rename r out i hm hi => exact simulates_of_exists (h.rename hm)
  | renameMissing r out hm hi => exact absurd hi (h.rep.rename_found hm)
  | reader r out i hm hi =>
    exact (h.quiet (h.rep.reader hm hi) (fun _ => rfl) (fun _ => rfl) h.hints rfl rfl rfl h.lock_text
      a.phase h.inv (h.phase.trans (by rw [hm]; rfl)) (by simp)).simulates
  | readerMissing r out hm hi => exact absurd hi (h.rep.reader_found hm)
  | update r out p ps hm hp => exact simulates_of_exists (h.update hm hp)
  | updated r out hm hp =>
    exact (h.mergeSame (h.rep.updated hm hp) (by simp) (by rw [hm]; rfl)).simulates
  | remove id ids stale i hm hi =>
    exact simulates_of_exists (h.removeSource hm (hsurvives id ids stale hm))
  | removeMissing id ids stale hm hi =>
    exact simulates_of_exists (h.toIdle (by rw [hm]; simp) (by rw [hm]; rfl) _)
  | removed stale hm =>
    have hrep : Rep crc cfg recs { s with merge := .subtract stale } :=
      h.rep.mergeOnly (by rw [hm]; simp) (by rw [hm]; rfl) trivial
    exact simulates_of_exists
      ⟨_, h.mergeOnly hrep (by simp) _ (CompactingLog.Step.abort.inv h.inv) rfl, .single .abort, rfl⟩
  | removeHint id ids stale hm => exact (h.removeHint hm).simulates
  | subtract stale hm hl hs =>
    have hrep := h.rep.subtract hm hl (s.writer.staleBytesCount - stale) (some (.ok ()))
    exact (h.quiet hrep (fun _ => rfl) (fun _ => rfl) h.hints rfl rfl rfl h.lock_text a.phase h.inv
      (h.phase.trans (by rw [hm]; rfl)) (by simp)).simulates
  | subtractPoisoned stale hm hl =>
    exact simulates_of_exists (h.toIdle (by rw [hm]; simp) (by rw [hm]; rfl) _)
  | subtractPanic stale hm hl hs =>
    exact simulates_of_exists (h.poison hl (by rw [hm]; simp) (by rw [hm]; rfl))

/-- Every allowed step is simulated by the abstract machine. A rotation creates the next file only
when nothing is volatile, and a source is removed only when the durable log survives it. -/
theorem link_step (h : Link crc cfg recs log pub s a) {act : Act} (hok : StepOk s act)
    (hs : Step crc cfg s act s')
    (hvol : ∀ next caller, s.lock = .rotateTo .create next caller → a.volatile = [])
    (hsurvives : act = .merge → ∀ id ids stale, s.merge = .removeData (id :: ids) stale →
      ∀ k, value k a.durable ≠ none → ∃ j, j ≠ id ∧ lastOf k (a.segs j) ≠ none) :
    Simulates crc cfg recs (log ++ logged crc s act) s s' a := by
  cases hs with
  | writer hw => exact link_writerStep h hok.1 hvol hw
  | merge hm =>
    rw [logged_of_ne (by simp)]
    exact link_mergeStep h hm (hsurvives rfl)
  | startNot last res hm hl hres hn =>
    rw [logged_of_ne (by simp)]
    exact simulates_of_exists (h.toIdle (by rw [hm]; simp) (by rw [hm]; rfl) _)
  | startPanic last hm hl hs hn hz =>
    rw [logged_of_ne (by simp)]
    exact simulates_of_exists (h.poison hl (by rw [hm]; simp) (by rw [hm]; rfl))
  | start last hm hl hs hn hz =>
    rw [logged_of_ne (by simp)]
    exact (h.start hm hl hok.2 hz).simulates
  | spill out n m ho =>
    rw [logged_of_ne (by simp)]
    exact (h.spill ho n m).simulates
  | mergeErr e data hint hc ho =>
    rw [logged_of_ne (by simp)]
    refine simulates_of_exists (h.toIdle (fun r hm => ?_) hok.2 _)
    rw [hm] at hc; cases hc
  | outputErr out e data hint hc ho =>
    rw [logged_of_ne (by simp)]
    exact simulates_of_exists (h.outputErr ho hc hok.2 data hint _)

end Bitcask
