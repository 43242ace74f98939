import Bitcask.Storage.Crc32
import Bitcask.Storage.Opened
import Bitcask.Storage.RepresentMerge

/-!
# Sessions without errors

A session opens a directory and takes steps. In a session in which no filesystem call fails, the
representation invariant holds throughout, and between two appends the writer's offset is the end
of the active file (`Tight`), so every call may begin. `session_index_invariant` says what that
means for the index, the readers map and the files.
-/

namespace Bitcask

open LittleEndian FileSystem

variable {crc : Bytes → UInt32} {cfg : Config} {recs : Inode → List Command} {s s' : Sys} {a : Act}

/-! ## What a step writes to -/

/-- The files a step may append to. -/
def touched (s : Sys) (a : Act) : Set Inode :=
  {i | ((∃ n, a = .write n) ∧ i = s.writer.file) ∨
    ∃ out, Sys.heldOutput s.merge = some out ∧ (i = out.data ∨ i = out.hint)}

theorem WriterStep.grows {T : Set Inode} (hT : ∀ n, a = .write n → s.writer.file ∈ T)
    (hs : WriterStep crc cfg s a s') : s.fs.Grows T s'.fs := by
  cases hs with
  | write c done n hl hn hm => exact .append (hT n rfl) _
  | rotateCreate next now caller hl => exact .create _
  | rotateReader next now caller i hl hi =>
    cases caller with
    | append c => exact .of_eq rfl rfl
    | compaction =>
      unfold Sys.endRotate
      split <;> exact .of_eq rfl rfl
  | rotateMissing next now caller hl hi | failRotate st next caller e hl =>
    cases caller <;> exact .of_eq rfl rfl
  | _ => exact .of_eq rfl rfl

/-- The two files of the output the compaction thread holds. -/
theorem grows_output {out : MergeOutput} (ho : Sys.heldOutput s.merge = some out)
    (data hint : Bytes) : s.fs.Grows (touched s a) (s.writeOutput out data hint).fs :=
  .trans (.append (Or.inr ⟨out, ho, Or.inl rfl⟩) _) (.append (Or.inr ⟨out, ho, Or.inr rfl⟩) _)

theorem MergeStep.grows (hs : MergeStep crc cfg s s') : s.fs.Grows (touched s a) s'.fs := by
  cases hs with
  | openData r f rest hm ht => exact .create _
  | openHint r id data hm => exact .create _
  | torn r out fileId p rd rd' hm hr => exact grows_output (by rw [hm]; rfl) _ _
  | undecodable r out fileId p b rd rd' e hm hr hd => exact grows_output (by rw [hm]; rfl) _ _
  | renameMissing r out hm hi | readerMissing r out hm hi =>
    exact grows_output (by rw [hm]; rfl) _ _
  | syncData r out hm hn =>
    exact .trans (.append (Or.inr ⟨out, by rw [hm]; rfl, Or.inl rfl⟩) _) (.of_eq rfl rfl)
  | syncHint r out hm =>
    exact .trans (.append (Or.inr ⟨out, by rw [hm]; rfl, Or.inr rfl⟩) _) (.of_eq rfl rfl)
  | rename r out i hm hi => exact .of_eq Fs.next_rename Fs.bytes_rename
  | _ => exact .of_eq rfl rfl

/-- A step changes no byte that is already written, and appends only to the active file and the
files of the output. -/
theorem Step.grows (hs : Step crc cfg s a s') : s.fs.Grows (touched s a) s'.fs := by
  cases hs with
  | writer h => exact h.grows fun n ha => Or.inl ⟨⟨n, ha⟩, rfl⟩
  | merge h => exact h.grows
  | spill out n m ho => exact grows_output ho _ _
  | outputErr out e data hint hc ho => exact grows_output ho _ _
  | _ => exact .of_eq rfl rfl

/-- Only a write of the lock holder changes the active file. -/
theorem Rep.file_bytes (h : Rep crc cfg recs s) (hs : Step crc cfg s a s')
    (ha : ∀ n, a ≠ .write n) : s'.fs.bytes s.writer.file = s.fs.bytes s.writer.file := by
  refine (hs.grows.2 _ h.core.file_lt).2 ?_
  rintro (⟨⟨n, hn⟩, -⟩ | ⟨out, ho, hi⟩)
  · exact ha n hn
  · obtain ⟨hd, hh⟩ := h.file_not_held ho
    exact hi.elim hd hh

/-! ## The end of the active file -/

/-- No filesystem call fails. A `NotFound` of an unlink is no failure of this kind: it is what the
call returns when the path does not exist. -/
def Act.Nominal : Act → Prop
  | .writerErr _ | .mergeErr _ _ _ => False
  | _ => True

instance : DecidablePred Act.Nominal
  | .writerErr _ | .mergeErr _ _ _ => .isFalse id
  | .begin _ _ | .write _ | .writer _ | .start | .merge | .spill _ _ => .isTrue trivial

/-- No call fails in a way that leaves the store untidy: part of a record in the active file, a new
active file without a handle, or a renamed output without a handle. -/
def Tidy (s : Sys) : Act → Prop
  | .writerErr _ => s.lock.opening = false ∧ ∀ c done, s.lock ≠ .writing c done
  | .mergeErr _ _ _ => s.merge.renamed = none
  | _ => True

theorem Act.Nominal.tidy (h : a.Nominal) : Tidy s a := by
  cases a with
  | writerErr | mergeErr => exact h.elim
  | _ => trivial

/-- While no append is midway, the writer's offset is the end of the active file. -/
def Tight (s : Sys) : Prop :=
  s.lock = .free ∨ s.lock = .poisoned → s.writer.offset = (s.fs.bytes s.writer.file).length

theorem Whole.length {fs : Fs FileName} {w : WriterState} (h : Whole crc recs fs w) :
    w.offset = (fs.bytes w.file).length := by rw [h.1, h.2]

theorem tight_writerStep (h : Rep crc cfg recs s) (ht : Tidy s a)
    (hs : WriterStep crc cfg s a s') : Tight s' := by
  have hlr := h.lock
  cases hs with
  | begin call ts hl => rintro (hl' | hl') <;> cases hl'
  | write c done n hl hd hm => rintro (hl' | hl') <;> cases hl'
  | publish c now hl => rintro (hl' | hl') <;> cases hl'
  | policySkip c now hl hp => rintro (hl' | hl') <;> cases hl'
  | policySync c now last hl hp => rintro (hl' | hl') <;> cases hl'
  | full c now hl ho => rintro (hl' | hl') <;> cases hl'
  | rotateSync next now caller hl => rintro (hl' | hl') <;> cases hl'
  | rotateCreate next now caller hl => rintro (hl' | hl') <;> cases hl'
  | rotateClock next now caller hl => rintro (hl' | hl') <;> cases hl'
  | policyPanic c now hl | notFull c now hl | failPolicy c e hl =>
    rw [hl] at hlr
    exact fun _ => Whole.length hlr
  | rotateReader next now caller i hl hi =>
    rw [hl] at hlr
    intro _
    cases caller with
    | append c => exact hlr.1.length
    | compaction =>
      unfold Sys.endRotate
      split <;> exact hlr.1.length
  | rotateMissing next now caller hl hi =>
    rw [hl] at hlr
    intro _
    cases caller <;> exact hlr.1.length
  | failRotate st next caller e hl =>
    rw [hl] at hlr
    intro _
    cases st <;> cases caller <;> exact hlr.1.length
  | failWrite c done e hl hn => exact absurd hl (ht.2 c done)

/-- The compaction thread leaves the lock and the writer's offset alone, or panics with the lock
held. -/
theorem MergeStep.writer_eq (hs : MergeStep crc cfg s s') :
    s'.writer.file = s.writer.file ∧ s'.writer.offset = s.writer.offset ∧
      (s'.lock = s.lock ∨ s.lock = .free) := by
  cases hs <;> first | exact ⟨rfl, rfl, Or.inl rfl⟩ | exact ⟨rfl, rfl, Or.inr (by assumption)⟩

/-- A tidy step keeps the store tight. -/
theorem tight_step (h : Rep crc cfg recs s) (ht : Tight s) (htidy : Tidy s a)
    (hs : Step crc cfg s a s') : Tight s' := by
  have hfile := h.file_bytes hs
  have hlen : (∀ n, a ≠ .write n) → (s.lock = .free ∨ s.lock = .poisoned) →
      s.writer.offset = (s'.fs.bytes s.writer.file).length := fun ha hl => by
    rw [hfile ha]; exact ht hl
  cases hs with
  | writer hw => exact tight_writerStep h htidy hw
  | merge hm =>
    obtain ⟨hf, ho, hl⟩ := hm.writer_eq
    intro hl'
    rw [hf, ho]
    exact hlen (by simp) (hl.elim (fun he => he ▸ hl') Or.inl)
  | startNot last res hm hl hres hn' => exact ht
  | startPanic last hm hl hs hn' hz => exact fun _ => ht (Or.inl hl)
  | start last hm hl hs hn' hz => rintro (hl' | hl') <;> cases hl'
  | spill out n m ho => exact hlen (by simp)
  | mergeErr e data hint hc ho => exact hlen (by simp)
  | outputErr out e data hint hc ho => exact hlen (by simp)

/-- In a tight state every tidy step is one the representation invariant allows. -/
theorem Tight.stepOk (ht : Tight s) (htidy : Tidy s a) (hfits : a.Fits) (hs : Step crc cfg s a s') :
    StepOk s a := by
  cases hs with
  | writer hw =>
    cases hw with
    | begin call ts hl => exact ⟨⟨(ht (Or.inl hl)).symm, hfits⟩, trivial⟩
    | failWrite | failPolicy | failRotate => exact ⟨htidy.1, trivial⟩
    | _ => exact ⟨trivial, trivial⟩
  | startNot last res hm hl hres hn' => exact ⟨trivial, (ht hl).symm⟩
  | startPanic last hm hl hs hn' hz => exact ⟨trivial, (ht (Or.inl hl)).symm⟩
  | start last hm hl hs hn' hz => exact ⟨trivial, (ht (Or.inl hl)).symm⟩
  | mergeErr | outputErr => exact ⟨trivial, htidy⟩
  | merge | spill => exact ⟨trivial, trivial⟩

/-! ## Sessions -/

/-- The states of a session on the directory `fs₀` whose steps all are of the kind `P`. -/
inductive Session (crc : Bytes → UInt32) (cfg : Config) (P : Sys → Act → Prop)
    (fs₀ : Fs FileName) : Sys → Prop
  | opened {listing : List FileName} {now : ℕ} {s : Sys}
      (hlist : (fs₀.create .lock).Lists listing)
      (hopen : (openStore crc listing now fs₀).result = .ok s) : Session crc cfg P fs₀ s
  | step {s s' : Sys} {a : Act} (h : Session crc cfg P fs₀ s) (hp : P s a)
      (hs : step crc cfg s a = some s') : Session crc cfg P fs₀ s'

/-- A session whose appends may have records of any length. -/
inductive Unchecked (crc : Bytes → UInt32) (cfg : Config) (P : Sys → Act → Prop)
    (fs₀ : Fs FileName) : Sys → Prop
  | opened {listing : List FileName} {now : ℕ} {s : Sys}
      (hlist : (fs₀.create .lock).Lists listing)
      (hopen : (openStore crc listing now fs₀).result = .ok s) : Unchecked crc cfg P fs₀ s
  | step {s s' : Sys} {a : Act} (h : Unchecked crc cfg P fs₀ s) (hp : P s a)
      (hs : stepAny crc cfg s a = some s') : Unchecked crc cfg P fs₀ s'

/-- The steps `acts`, all of the kind `P`. -/
def steps (crc : Bytes → UInt32) (cfg : Config) (P : Sys → Act → Prop) [∀ s a, Decidable (P s a)] :
    List Act → Sys → Option Sys
  | [], s => some s
  | a :: acts, s => if P s a then (step crc cfg s a).bind (steps crc cfg P acts) else none

/-- The steps of a call that nothing interrupts: `write_all` writes the record at once, and `n` steps
of the lock holder follow. -/
def Call.acts (crc : Bytes → UInt32) (call : Call) (n : ℕ) : List Act :=
  .begin call 0 :: .write ((call.command 0).serialize crc).length :: List.replicate n (.writer 0)

/-- A merge that nothing interrupts: `rotate_to`, and `n` steps of the compaction thread. -/
def mergeActs (n : ℕ) : List Act :=
  .start :: (List.replicate 4 (.writer 0) ++ List.replicate n .merge)

/-- Every append fills its file, and every stale byte makes a merge due. -/
def smallFiles : Config := ⟨.osDecides, 1, 1, 1000⟩

/-- Three sets, each of which fills a file. -/
def threeSets : List Act :=
  Call.acts crc32 (.set "a" "1") 7 ++ Call.acts crc32 (.set "b" "2") 7 ++
    Call.acts crc32 (.set "a" "3") 7

/-- Three sets, `n` steps of a merge, and a remove of which nine bytes are written. -/
def interrupted (n : ℕ) : List Act :=
  Call.acts crc32 (.set "a" "1") 7 ++ Call.acts crc32 (.set "b" "2") 7 ++
    Call.acts crc32 (.set "a" "3") 7 ++ mergeActs n ++ [.begin (.remove "a") 0, .write 9]

/-- The store `open` makes in the empty directory. -/
def emptyStore (crc : Bytes → UInt32) : Sys :=
  match (openStore crc [.lock] 0 Fs.empty).result with
  | .ok s => s
  | .error _ => ⟨Fs.empty, Index.empty, ∅, ⟨0, 0, 0, 0, 0, 0⟩, .poisoned, .dead⟩

/-- What the last `run_compaction` returned, if none is running. -/
def Merge.result : Merge → Option (Except KvsError Unit)
  | .idle last => last
  | _ => none

/-- The store `open` returns on a directory. -/
def reopen (crc : Bytes → UInt32) (listing : List FileName) (fs : Fs FileName) : Option Sys :=
  (openStore crc listing 0 fs).result.toOption

section Session

variable {fs₀ : Fs FileName}

theorem steps_cons {P : Sys → Act → Prop} [∀ s a, Decidable (P s a)] {acts : List Act}
    (h : steps crc cfg P (a :: acts) s = some s') :
    ∃ s₁, P s a ∧ step crc cfg s a = some s₁ ∧ steps crc cfg P acts s₁ = some s' := by
  rw [steps] at h
  split at h
  · obtain ⟨s₁, hs₁, h⟩ := Option.bind_eq_some_iff.mp h
    exact ⟨s₁, by assumption, hs₁, h⟩
  · cases h

theorem Session.of_steps {P : Sys → Act → Prop} [∀ s a, Decidable (P s a)] {acts : List Act}
    (h : Session crc cfg P fs₀ s) (hs : steps crc cfg P acts s = some s') :
    Session crc cfg P fs₀ s' := by
  induction acts generalizing s with
  | nil =>
    obtain rfl := Option.some.inj hs
    exact h
  | cons a acts ih =>
    obtain ⟨s₁, hp, hs₁, hs⟩ := steps_cons hs
    exact ih (.step h hp hs₁) hs

theorem Session.unchecked {P : Sys → Act → Prop} (h : Session crc cfg P fs₀ s) :
    Unchecked crc cfg P fs₀ s := by
  induction h with
  | opened hlist hopen => exact .opened hlist hopen
  | step _ hp hs ih => exact .step ih hp (stepAny_of_step hs)

theorem lists_empty : (Fs.empty.create FileName.lock).Lists [.lock] := by
  refine ⟨by simp, fun n => ?_⟩
  by_cases hn : n = .lock
  · subst hn
    simp [Fs.lookup_create_self]
  · rw [Fs.lookup_create_ne hn]
    simp [hn, Fs.empty, Fs.lookup]

theorem faithful_empty : Faithful crc Fs.empty := fun h => by cases h

theorem bounded_empty : Bounded Fs.empty := fun h => by cases h

theorem openable_empty : Openable crc Fs.empty := ⟨Or.inl rfl, fun h => by cases h⟩

theorem emptyStore_opened (crc : Bytes → UInt32) :
    (openStore crc [.lock] 0 Fs.empty).result = .ok (emptyStore crc) := by
  have ho : Openable crc Fs.empty := openable_empty
  obtain ⟨s, hs, -⟩ := ho.opens (Faithful.sealed faithful_empty) bounded_empty lists_empty
  rw [emptyStore, hs]

theorem Opened.tight (h : Opened crc fs₀ s) : Tight s := fun _ => h.offset

/-- The representation invariant along a session without errors. -/
theorem Session.rep (hf : Faithful crc fs₀) (hb : Bounded fs₀)
    (h : Session crc cfg (fun _ a => a.Nominal) fs₀ s) : (∃ recs, Rep crc cfg recs s) ∧ Tight s := by
  induction h with
  | opened hlist hopen =>
    obtain ⟨-, ho⟩ := (openStore_spec hlist (Faithful.sealed hf) hb).ok rfl hopen
    obtain ⟨recs, -, hr⟩ := ho.rep cfg
    exact ⟨⟨recs, hr⟩, ho.tight⟩
  | step _ hp hs ih =>
    obtain ⟨⟨recs, hr⟩, ht⟩ := ih
    have hfits := step_fits hs
    have hs := step_cases hs
    exact ⟨rep_step hr (ht.stepOk hp.tidy hfits hs) hs, tight_step hr ht hp.tidy hs⟩

/-- A data name keeps its file until it is unlinked. -/
theorem Rep.data_name (h : Rep crc cfg recs s) (hs : Step crc cfg s a s') {id : ℕ} {i : Inode}
    (hi : s.fs.lookup (.data id) = some i) :
    s'.fs.lookup (.data id) = some i ∨ s'.fs.lookup (.data id) = none := by
  have hcreate : ∀ n, (s.fs.create n).lookup (.data id) = some i := by
    intro n
    by_cases hn : n = .data id
    · rw [hn, Fs.create_of_some hi, hi]
    · rw [Fs.lookup_create_ne (Ne.symm hn), hi]
  have hunlink : ∀ n, (s.fs.unlink n).lookup (.data id) = some i ∨
      (s.fs.unlink n).lookup (.data id) = none := by
    intro n
    by_cases hn : FileName.data id = n
    · rw [← hn, Fs.lookup_unlink_self]; exact Or.inr rfl
    · rw [Fs.lookup_unlink_ne _ hn]; exact Or.inl hi
  cases hs with
  | writer hw =>
    left
    cases hw with
    | rotateCreate next now caller hl => exact hcreate _
    | rotateReader next now caller j hl hj =>
      cases caller with
      | append c => exact hi
      | compaction =>
        unfold Sys.endRotate
        split <;> exact hi
    | rotateMissing next now caller hl hj | failRotate st next caller e hl => cases caller <;> exact hi
    | _ => exact hi
  | merge hm =>
    cases hm with
    | openData r f rest hm ht => exact Or.inl (hcreate _)
    | openHint r id data hm => exact Or.inl (hcreate _)
    | remove id ids stale j hm hj => exact hunlink _
    | removeHint id ids stale hm => exact hunlink _
    | rename r out j hm hj =>
      -- the id of the output was free
      have hmr := h.merge
      rw [hm] at hmr
      obtain ⟨hout, -, -, bar, hrun⟩ := hmr
      have hfree : s.handles out.id = none := hrun.output_free hout.id_eq
      have hne : id ≠ out.id := by
        rintro rfl
        rw [h.core.dir_rd hi] at hfree; cases hfree
      exact Or.inl ((Fs.lookup_rename_ne (by simp) (by simpa using hne)).trans hi)
    | _ => exact Or.inl hi
  | _ => exact Or.inl hi

/-- The readers map has the file under the id, which is not the id of the handle that is about to be
put into it. -/
structure Held (s : Sys) (id : ℕ) (i : Inode) : Prop where
  reader : s.readers[id]? = some i
  opening : s.lock.opening = true → id ≠ s.writer.currentFileId
  renamed : ∀ out, s.merge.renamed = some out → id ≠ out.id

theorem handles_of_ne {id : ℕ} (hop : s.lock.opening = true → id ≠ s.writer.currentFileId)
    (hren : ∀ out, s.merge.renamed = some out → id ≠ out.id) : s.handles id = s.readers[id]? := by
  unfold Sys.handles
  rw [if_neg fun hc => hop hc.1 hc.2]
  split
  · rename_i out hout
    rw [if_neg (hren out hout)]
  · rfl

theorem Held.handles {id : ℕ} {i : Inode} (h : Held s id i) : s.handles id = some i :=
  (handles_of_ne h.opening h.renamed).trans h.reader

/-- The entry of the index points into a file of the readers map, also in the moment in which one
handle is missing there. -/
theorem Rep.entry_held (h : Rep crc cfg recs s) {k : Bytes} {e : IndexValue}
    (he : s.index.get k = some e) : ∃ i v, Held s e.fileId i ∧
      At crc (recs i) e.offset (.set e.ts k v) ∧
      e.len = ((Command.set e.ts k v).serialize crc).length := by
  obtain ⟨i, v, hi, hat, hlen⟩ := h.core.entry he
  have hmr := h.merge
  have hlr := h.lock
  have hop : s.lock.opening = true → e.fileId ≠ s.writer.currentFileId := by
    intro hop hid
    -- the new active file is empty
    obtain rfl : i = s.writer.file := by
      rw [hid] at hi
      exact Option.some.inj (hi.symm.trans h.core.rd_cur)
    have hnil : recs s.writer.file = [] := by
      cases hl : s.lock with
      | rotateTo st next caller =>
        rw [hl] at hlr hop
        cases st with
        | sync | create => cases hop
        | clock | reader => exact hlr.2.1
      | _ => rw [hl] at hop; cases hop
    rw [hnil] at hat
    exact At.not_nil hat
  have hren : ∀ out, s.merge.renamed = some out → e.fileId ≠ out.id := by
    -- no entry points to the renamed output yet
    intro out hren
    cases hm : s.merge with
    | finish st r o =>
      rw [hm] at hren hmr
      cases st with
      | reader =>
        obtain rfl := Option.some.inj hren
        exact hmr.2.1.2.2 k e he
      | _ => cases hren
    | _ => rw [hm] at hren; cases hren
  exact ⟨i, v, ⟨(handles_of_ne hop hren).symm.trans hi, hop, hren⟩, hat, hlen⟩

end Session

/-! ## The index representation invariant -/

/-- Neither an append nor `rotate_to` nor `finish_output` is midway. -/
def Sys.Quiet (s : Sys) : Prop :=
  (s.lock = .free ∨ s.lock = .poisoned) ∧ ∀ st r out, s.merge ≠ .finish st r out

/-- What holds of the index, the readers map and the files in one state. -/
structure IndexInvariant (crc : Bytes → UInt32) (s : Sys) : Prop where
  bucket : ∀ b key, (s.index b).lookup key ≠ none → b = Index.getBucket key
  entry : ∀ key e, s.index.get key = some e → ∃ i v, s.readers[e.fileId]? = some i ∧
    e.offset + e.len ≤ (s.fs.bytes i).length ∧
    Command.deserialize crc (slice (s.fs.bytes i) e.offset (e.offset + e.len)) =
      .ok (.set e.ts key v, e.len)
  offset : s.Quiet → s.writer.offset = (s.fs.bytes s.writer.file).length
  active : s.Quiet → s.fs.lookup (.data s.writer.currentFileId) = some s.writer.file
  readers : s.Quiet → ∀ id i, s.fs.lookup (.data id) = some i → s.readers[id]? = some i
  current : s.Quiet → ∀ id i, s.fs.lookup (.data id) = some i → id ≤ s.writer.currentFileId

theorem Rep.indexInvariant (h : Rep crc cfg recs s) (ht : Tight s) : IndexInvariant crc s where
  bucket := h.core.placed
  entry key e he := by
    obtain ⟨i, v, hh, hat, hlen⟩ := h.entry_held he
    obtain ⟨t, hb, -⟩ := h.core.rd_bytes hh.handles
    have hfits : (Command.set e.ts key v).Fits := h.core.fits i _ hat.mem
    have hle := hat.le
    refine ⟨i, v, hh.reader, ?_, ?_⟩
    · rw [hb, List.length_append, hlen]
      omega
    · rw [hb, hlen, hat.slice_eq]
      have hd := Command.deserialize_serialize crc hfits []
      rwa [List.append_nil] at hd
  offset hq := ht hq.1
  active _ := h.core.cur_dir
  readers hq id i hi := by
    rw [← handles_eq _ _ id]
    · exact h.core.dir_rd hi
    · rcases hq.1 with hl | hl <;> rw [hl] <;> rfl
    · cases hm : s.merge with
      | finish st r out => exact absurd hm (hq.2 st r out)
      | _ => rfl
  current _ id i hi := h.core.rd_le (h.core.dir_rd hi)

/-- In every state of a session on a directory with faithful hints in which no filesystem call
fails, the index, the readers map and the files agree, and no later step changes a byte that is
already written: a data name keeps its file until it is unlinked, and files only grow. -/
theorem session_index_invariant {fs₀ : Fs FileName} (hf : Faithful crc fs₀) (hb : Bounded fs₀)
    (h : Session crc cfg (fun _ a => a.Nominal) fs₀ s) :
    IndexInvariant crc s ∧
      ∀ a s', a.Nominal → step crc cfg s a = some s' →
        (∀ i < s.fs.next, s.fs.bytes i <+: s'.fs.bytes i) ∧
        ∀ id i, s.fs.lookup (.data id) = some i →
          s'.fs.lookup (.data id) = some i ∨ s'.fs.lookup (.data id) = none := by
  obtain ⟨⟨recs, hr⟩, ht⟩ := h.rep hf hb
  refine ⟨hr.indexInvariant ht, fun a s' _ hs => ?_⟩
  have hs := step_cases hs
  exact ⟨fun i hi => (hs.grows.2 i hi).1, fun id i hi => hr.data_name hs hi⟩

/-- A state in which a merge applies its index updates and an append is midway. -/
theorem session_index_invariant_in_merge : ∃ s,
    steps crc32 smallFiles (fun _ a => a.Nominal) (interrupted 12) (emptyStore crc32) = some s ∧
      IndexInvariant crc32 s := by
  have hsome : (steps crc32 smallFiles (fun _ a => a.Nominal) (interrupted 12)
      (emptyStore crc32)).isSome := by decide +kernel
  obtain ⟨s, hs⟩ := Option.isSome_iff_exists.mp hsome
  have hsession : Session crc32 smallFiles (fun _ a => a.Nominal) Fs.empty (emptyStore crc32) :=
    .opened lists_empty (emptyStore_opened crc32)
  exact ⟨s, hs, (session_index_invariant faithful_empty bounded_empty (hsession.of_steps hs)).1⟩

end Bitcask
