import ExtremeS3.Errors
import ExtremeS3.Lib.Machine
import ExtremeS3.Uploader.Upload

/-!
# The temporary files of an upload

A `compress_task` creates a temporary file for its block, and puts the name of it into the
`scattered_files` of the `file_compressor` when it has filled it (`on_complete`). Tasks and pumps hold
the `scattered_files`, whose destructor unlinks the names that were put there. `ScatterStep` is what the
tasks of an upload do next, in any order, each of which may throw. The `part_upload_task`s hold no files
and are left out.

As long as a `compress_task` that has created its file does not throw, every file that was created has
an owner that will unlink it, or is gone (`Tracked`).
-/

namespace ExtremeS3

/-- Where a `compress_task` stands: before its temporary file is created, in `do_compress` with that
file, past it with the name and the size that it returned, between the two steps of `on_complete`, or
past its run. What it throws is not retried. -/
inductive CompressTask where
  | waiting
  | compressing (tmp : Str)
  | compressed (tmp : Str) (size : Nat)
  | recorded
  | ended (fail : Bool)

/-- An upload with its tasks. `compressor` is there when a `file_compressor` is scheduled, and `result`
has its fields, with the blocks that it cuts the file into; `plain` is what a plain upload shares
instead. `destroyed` says that the destructor of the `scattered_files` has run. -/
structure Scattering where
  fs : Files
  uploader : Attempts
  compressor : Option Attempts
  blocks : List Block
  result : Option FileCompressor
  plain : Option ScatteredFiles
  tasks : List CompressTask
  pumps : List Attempts
  destroyed : Bool

/-- What happens in a step; `created` has the name of the temporary file. -/
inductive ScatterLabel where
  | uploader (r : Option Thrown)
  | compressor (r : Option Thrown)
  | scheduled
  | created (num : Nat) (tmp : Str)
  | notCreated (num : Nat) (e : Thrown)
  | compressed (num : Nat)
  | notCompressed (num : Nat) (e : Thrown)
  | recorded (num : Nat)
  | tested (num : Nat) (r : Option Thrown)
  | pumped (num : Nat) (r : Option Thrown)
  | destroyed

/-- `~scattered_files`. -/
def ScatteredFiles.destroy (files : ScatteredFiles) (wasCompressed : Bool) (fs : Files) : Files :=
  if wasCompressed then files.files.foldl (fun fs f => if f = [] then fs else fs.unlink f) fs else fs

/-- The destructor of what the tasks of the upload share. -/
def Scattering.destroy (s : Scattering) : Files :=
  match s.result, s.plain with
  | some c, _ => ScatteredFiles.destroy ⟨c.files, c.sizes⟩ true s.fs
  | none, some files => files.destroy false s.fs
  | none, none => s.fs

/-- The executor is done with all tasks of the upload. -/
structure Scattering.Ended (s : Scattering) : Prop where
  uploader : ∃ fail, s.uploader = .ended fail
  compressor : ∀ f, s.compressor ≠ some (.next f)
  scheduled : s.tasks.length = s.blocks.length
  tasks : ∀ t ∈ s.tasks, ∃ fail, t = .ended fail
  pumps : ∀ p ∈ s.pumps, ∃ fail, p = .ended fail

namespace UploadJob

variable (J : UploadJob)

/-- What the tasks of an upload do next. -/
inductive ScatterStep : Scattering → ScatterLabel → Scattering → Prop
  | unchanged {s : Scattering} {f : Nat} {data : FileData} {mod : FileDesc} :
    s.uploader = .next f → s.fs J.path = some (.file data) → unchanged data mod = true →
    ScatterStep s (.uploader none) { s with uploader := afterAttempt f none }
  | threw {s : Scattering} {f : Nat} (e : Thrown) :
    s.uploader = .next f →
    ScatterStep s (.uploader (some e)) { s with uploader := afterAttempt f (some e) }
  | compresses {s : Scattering} {f : Nat} {data : FileData} {mod : FileDesc} :
    s.uploader = .next f → s.fs J.path = some (.file data) → unchanged data mod = false →
    J.compresses data = true →
    ScatterStep s (.uploader none)
      { s with uploader := afterAttempt f none, compressor := some (.next 0) }
  | plain {s : Scattering} {f numParts : Nat} {data : FileData} {mod : FileDesc}
    {pumps : List (Nat × Nat)} :
    s.uploader = .next f → s.fs J.path = some (.file data) → unchanged data mod = false →
    J.compresses data = false →
    (startUpload J.lim J.segmentSize ⟨[J.path], [data.data.length]⟩).Evals (.ok (numParts, pumps)) →
    ScatterStep s (.uploader none)
      { s with
        uploader := afterAttempt f none, plain := some ⟨[J.path], [data.data.length]⟩,
        pumps := pumps.map fun _ => .next 0 }
  | planned {s : Scattering} {f : Nat} {data : Bytes} {blocks : List Block} :
    s.compressor = some (.next f) → s.fs.contents J.path = some data →
    (fileCompressor (J.lim.getCapability .cpuBound) data.length).Evals (.ok blocks) →
    ScatterStep s (.compressor none)
      { s with
        compressor := some (afterAttempt f none), blocks := blocks,
        result := some (.start blocks.length) }
  | notPlanned {s : Scattering} {f : Nat} (e : Thrown) :
    s.compressor = some (.next f) → e.retried = false →
    ScatterStep s (.compressor (some e)) { s with compressor := some (afterAttempt f (some e)) }
  | scheduled {s : Scattering} :
    s.tasks.length < s.blocks.length →
    ScatterStep s .scheduled { s with tasks := s.tasks ++ [.waiting] }
  | created {s : Scattering} {num : Nat} {random : Str} {fs : Files} (sys : Sys) :
    s.tasks[num]? = some .waiting → (s.fs.contents J.path).isSome →
    (s.fs.create sys (J.scratchName random) 0o600).Evals (.ok fs) →
    ScatterStep s (.created num (J.scratchName random))
      { s with fs := fs, tasks := s.tasks.set num (.compressing (J.scratchName random)) }
  | notCreated {s : Scattering} {num : Nat} (e : Thrown) :
    s.tasks[num]? = some .waiting → e.retried = false →
    ScatterStep s (.notCreated num e) { s with tasks := s.tasks.set num (.ended true) }
  -- where the temporary file is there, `do_compress` goes on as it does when it has created it
  | compressed {s : Scattering} {num size : Nat} {tmp : Str} {block : Block} {fs : Files}
    (sys : Sys) :
    s.tasks[num]? = some (.compressing tmp) → s.blocks[num]? = some block →
    (doCompress J.zlib sys s.fs J.path tmp block.offset block.size).Evals (.ok (fs, size)) →
    ScatterStep s (.compressed num)
      { s with fs := fs, tasks := s.tasks.set num (.compressed tmp size) }
  -- whatever was written before a call failed
  | notCompressed {s : Scattering} {num : Nat} {tmp : Str} {fs : Files} (e : Thrown)
    (f : FileData → FileData) :
    s.tasks[num]? = some (.compressing tmp) → e.retried = false →
    (s.fs.update tmp f).Evals (.ok fs) →
    ScatterStep s (.notCompressed num e) { s with fs := fs, tasks := s.tasks.set num (.ended true) }
  | recorded {s : Scattering} {num size : Nat} {tmp : Str} {block : Block} {c c' : FileCompressor} :
    s.tasks[num]? = some (.compressed tmp size) → s.blocks[num]? = some block →
    s.result = some c → c.step (.record block.blockNum tmp size) = some c' →
    ScatterStep s (.recorded num) { s with result := some c', tasks := s.tasks.set num .recorded }
  -- the callback was not called
  | tested {s : Scattering} {num : Nat} {block : Block} {c c' : FileCompressor} :
    s.tasks[num]? = some .recorded → s.blocks[num]? = some block →
    s.result = some c → c.step (.test block.blockNum) = some c' → c'.finishes = c.finishes →
    ScatterStep s (.tested num none)
      { s with result := some c', tasks := s.tasks.set num (.ended false) }
  | finished {s : Scattering} {num numParts : Nat} {block : Block} {c c' : FileCompressor}
    {pumps : List (Nat × Nat)} :
    s.tasks[num]? = some .recorded → s.blocks[num]? = some block →
    s.result = some c → c.step (.test block.blockNum) = some c' → c'.finishes ≠ c.finishes →
    (startUpload J.lim J.segmentSize ⟨c'.files, c'.sizes⟩).Evals (.ok (numParts, pumps)) →
    ScatterStep s (.tested num none)
      { s with
        result := some c', tasks := s.tasks.set num (.ended false),
        pumps := s.pumps ++ pumps.map fun _ => .next 0 }
  | notFinished {s : Scattering} {num : Nat} {block : Block} {c c' : FileCompressor} (e : Thrown) :
    s.tasks[num]? = some .recorded → s.blocks[num]? = some block →
    s.result = some c → c.step (.test block.blockNum) = some c' → c'.finishes ≠ c.finishes →
    e.retried = false →
    ScatterStep s (.tested num (some e))
      { s with result := some c', tasks := s.tasks.set num (.ended true) }
  | pumped {s : Scattering} {num f : Nat} (r : Option Thrown) :
    s.pumps[num]? = some (.next f) →
    ScatterStep s (.pumped num r) { s with pumps := s.pumps.set num (afterAttempt f r) }
  | destroyed {s : Scattering} :
    s.Ended → s.destroyed = false →
    ScatterStep s .destroyed { s with fs := s.destroy, destroyed := true }

/-- An upload before its first attempt. -/
def startScattering (fs : Files) : Scattering where
  fs := fs
  uploader := .next 0
  compressor := none
  blocks := []
  result := none
  plain := none
  tasks := []
  pumps := []
  destroyed := false

/-- The runs of an upload. -/
def scatterMachine : Machine Scattering ScatterLabel where
  init s := ∃ fs, s = startScattering fs
  step := J.ScatterStep

end UploadJob

/-- The temporary file that a step of an upload creates. -/
def ScatterLabel.creates : ScatterLabel → Option Str
  | .created _ tmp => some tmp
  | .uploader _ | .compressor _ | .scheduled | .notCreated .. | .compressed _ | .notCompressed .. |
    .recorded _ | .tested .. | .pumped .. | .destroyed => none

/-- The step is that of a `compress_task` that throws after its temporary file was created. -/
def ScatterLabel.Abandons : ScatterLabel → Prop
  | .notCompressed .. => True
  | .created .. | .uploader _ | .compressor _ | .scheduled | .notCreated .. | .compressed _ |
    .recorded _ | .tested .. | .pumped .. | .destroyed => False

/-- The temporary files that were created. -/
def scratchFiles (ls : List ScatterLabel) : List Str := ls.filterMap ScatterLabel.creates

/-- All tasks of the upload have ended and are destroyed. -/
structure Scattering.Over (s : Scattering) : Prop extends s.Ended where
  destroyed : s.destroyed = true

namespace UploadJob

/-- The steps of an upload in which no `compress_task` throws after its temporary file was created. -/
def tidyMachine (J : UploadJob) : Machine Scattering ScatterLabel :=
  J.scatterMachine.restrict fun _ a _ => ¬ a.Abandons

end UploadJob

/-! ## Owners -/

/-- The temporary file that only the task knows of. -/
def CompressTask.holds : CompressTask → Option Str
  | .compressing tmp | .compressed tmp _ => some tmp
  | .waiting | .recorded | .ended _ => none

/-- The name is in the `scattered_files`, to stay. -/
def FileCompressor.Lists (c : FileCompressor) (r : Str) : Prop :=
  ∃ k : Nat, c.tasks[k]? ≠ some .compressing ∧ c.files[k]? = some r

/-- Something has the name of the temporary file, and will unlink it or hand it on. -/
inductive Scattering.Owned (s : Scattering) (r : Str) : Prop
  | task (t : CompressTask) : t ∈ s.tasks → t.holds = some r → Owned s r
  | scattered (c : FileCompressor) : s.result = some c → s.destroyed = false → c.Lists r → Owned s r

/-- The temporary file has an owner or is gone. -/
structure Scattering.Tracked (s : Scattering) (r : Str) : Prop where
  ne_nil : r ≠ []
  not_dir : s.fs r ≠ some .dir
  owned : s.Owned r ∨ s.fs r = none

/-- How an upload stands after any steps. -/
structure Scattering.Sound (s : Scattering) : Prop where
  uploader : ∀ f, s.uploader = .next f → s.compressor = none
  compressor : (s.compressor = none ∨ ∃ f, s.compressor = some (.next f)) → s.result = none
  length : ∀ c, s.result = some c → c.files.length = c.tasks.length
  gone : s.destroyed = true → s.Ended

/-- A scratch file that is listed stays listed. -/
theorem FileCompressor.Lists.step {c c' : FileCompressor} {r : Str} (h : c.Lists r)
    {a : CompleteLabel} (hs : c.step a = some c') : c'.Lists r := by
  obtain ⟨k, hk, hr⟩ := h
  refine ⟨k, ?_⟩
  obtain ⟨num, name, size, -, ht, rfl⟩ | ⟨num, -, ht, rfl⟩ := FileCompressor.step_cases hs
  · have hne : num ≠ k := by
      rintro rfl
      exact hk ht
    exact ⟨by rwa [getElem?_set_of_getElem? ht, if_neg hne], by rwa [List.getElem?_set_ne hne]⟩
  · refine ⟨?_, hr⟩
    rw [getElem?_set_of_getElem? ht]
    split
    · exact fun h => by cases h
    · exact hk

/-- A scratch file that is recorded is listed. -/
theorem FileCompressor.lists_of_record {c c' : FileCompressor} {num size : Nat} {r : Str}
    (hlength : c.files.length = c.tasks.length) (hs : c.step (.record num r size) = some c') :
    c'.Lists r := by
  obtain ⟨num, name, size, he, ht, rfl⟩ | ⟨num, he, -⟩ := FileCompressor.step_cases hs
  · cases he
    refine ⟨num, ?_, ?_⟩
    · rw [getElem?_set_of_getElem? ht, if_pos rfl]
      exact fun h => by cases h
    · rw [List.getElem?_set_self]
      rw [hlength]
      exact (List.getElem?_eq_some_iff.1 ht).1
  · cases he

/-- There is one place for each block, after every step. -/
theorem FileCompressor.length_step {c c' : FileCompressor} (h : c.files.length = c.tasks.length)
    {a : CompleteLabel} (hs : c.step a = some c') : c'.files.length = c'.tasks.length := by
  obtain ⟨num, name, size, -, -, rfl⟩ | ⟨num, -, -, rfl⟩ := FileCompressor.step_cases hs
  · rwa [List.length_set, List.length_set]
  · rwa [List.length_set]

/-! ### The destructor -/

section

variable {names : List Str} {fs : Files} {r : Str}

/-- Removing files makes none. -/
theorem foldl_unlink_of_none (names : List Str) (h : fs r = none) :
    names.foldl (fun fs f => if f = [] then fs else fs.unlink f) fs r = none := by
  induction names generalizing fs with
  | nil => exact h
  | cons name names ih =>
    refine ih ?_
    dsimp only
    split
    · exact h
    · exact Files.unlink_eq_none h name

/-- Removing files removes each of them. -/
theorem foldl_unlink_of_mem (hmem : r ∈ names) (hne : r ≠ []) (h : fs r ≠ some .dir) :
    names.foldl (fun fs f => if f = [] then fs else fs.unlink f) fs r = none := by
  induction names generalizing fs with
  | nil => cases hmem
  | cons name names ih =>
    by_cases hr : r = name
    · subst hr
      refine foldl_unlink_of_none names ?_
      dsimp only
      rw [if_neg hne]
      exact Files.unlink_self h
    · refine ih ((List.mem_cons.1 hmem).resolve_left hr) ?_
      dsimp only
      split
      · exact h
      · rwa [Files.unlink_of_ne _ hr]

end

namespace Scattering

variable {s u : Scattering} {r : Str}

/-- The end of an upload makes no file. -/
theorem destroy_of_none (h : s.fs r = none) : s.destroy r = none := by
  rcases hc : s.result with _ | c
  · rcases hp : s.plain with _ | files
    · rw [destroy, hc, hp]
      exact h
    · rw [destroy, hc, hp]
      exact h
  · rw [destroy, hc]
    exact foldl_unlink_of_none c.files h

/-- The end of an upload removes every scratch file that is listed. -/
theorem destroy_of_lists {c : FileCompressor} (hc : s.result = some c) (hr : c.Lists r)
    (hne : r ≠ []) (h : s.fs r ≠ some .dir) : s.destroy r = none := by
  obtain ⟨k, -, hk⟩ := hr
  rw [destroy, hc]
  exact foldl_unlink_of_mem (List.mem_of_getElem? hk) hne h

/-- When all tasks have ended, only the `scattered_files` may own a temporary file. -/
theorem Ended.lists (h : s.Ended) (ho : s.Owned r) :
    ∃ c, s.result = some c ∧ s.destroyed = false ∧ c.Lists r := by
  cases ho with
  | task t ht hr =>
    obtain ⟨fail, rfl⟩ := h.tasks t ht
    cases hr
  | scattered c hc hd hr => exact ⟨c, hc, hd, hr⟩

/-- A step in which one task goes on. -/
theorem Owned.set (h : s.Owned r) {num : Nat} {t t' : CompressTask} (ht : s.tasks[num]? = some t)
    (htasks : u.tasks = s.tasks.set num t') (hholds : t.holds = some r → u.Owned r)
    (hscattered : ∀ c, s.result = some c → s.destroyed = false → c.Lists r → u.Owned r) :
    u.Owned r := by
  cases h with
  | task t₀ ht₀ hr =>
    by_cases he : t₀ = t
    · exact hholds (he ▸ hr)
    · refine .task t₀ ?_ hr
      rw [htasks]
      exact mem_set_of_mem_ne ht ht₀ he
  | scattered c hc hd hr => exact hscattered c hc hd hr

/-- A step that changes no file. -/
theorem Tracked.keep (h : s.Tracked r) (hfs : u.fs = s.fs) (howned : s.Owned r → u.Owned r) :
    u.Tracked r where
  ne_nil := h.ne_nil
  not_dir := hfs ▸ h.not_dir
  owned := h.owned.imp howned fun hnone => by rw [hfs, hnone]

/-- A step that changes a temporary file that has an owner. -/
theorem Tracked.write (h : s.Tracked r) {tmp : Str} {f : FileData}
    (hfs : u.fs = s.fs.set tmp (some (.file f))) (htmp : u.Owned tmp)
    (howned : s.Owned r → u.Owned r) : u.Tracked r := by
  by_cases hr : r = tmp
  · subst hr
    refine ⟨h.ne_nil, ?_, .inl htmp⟩
    rw [hfs]
    exact Files.set_file_ne_dir _ _ _
  · have hsame : u.fs r = s.fs r := by rw [hfs, Files.set_of_ne hr]
    exact ⟨h.ne_nil, hsame ▸ h.not_dir, h.owned.imp howned hsame.trans⟩

/-- A scratch file that is tracked when all blocks are over is so after the end of the upload. -/
theorem Tracked.destroy (h : s.Tracked r) (hended : s.Ended) :
    Tracked { s with fs := s.destroy, destroyed := true } r := by
  have hnone : s.destroy r = none := by
    rcases h.owned with ho | hnone
    · obtain ⟨c, hc, -, hr⟩ := hended.lists ho
      exact destroy_of_lists hc hr h.ne_nil h.not_dir
    · exact destroy_of_none hnone
  exact ⟨h.ne_nil, Files.ne_dir_of_none hnone, .inr hnone⟩

end Scattering

/-! ## Runs -/

namespace UploadJob

variable {J : UploadJob} {s u : Scattering} {a : ScatterLabel} {r : Str}

/-- When all tasks have ended, only the destructor is left to run. -/
theorem ScatterStep.eq_destroyed (hs : J.ScatterStep s a u) (h : s.Ended) : a = .destroyed := by
  have htask : ∀ {num : Nat} {t : CompressTask}, s.tasks[num]? = some t → ∃ fail, t = .ended fail :=
    fun ht => h.tasks _ (List.mem_of_getElem? ht)
  cases hs with
  | unchanged hd | threw _ hd | compresses hd | plain hd =>
    obtain ⟨fail, he⟩ := h.uploader
    cases hd.symm.trans he
  | planned hd | notPlanned _ hd => exact absurd hd (h.compressor _)
  | scheduled hlt => exact absurd h.scheduled (Nat.ne_of_lt hlt)
  | created _ ht | notCreated _ ht | compressed _ ht | notCompressed _ _ ht | recorded ht | tested ht
  | finished ht | notFinished _ ht =>
    obtain ⟨fail, he⟩ := htask ht
    cases he
  | pumped _ hp =>
    obtain ⟨fail, he⟩ := h.pumps _ (List.mem_of_getElem? hp)
    cases he
  | destroyed => rfl

/-- What a step of a task has to keep. -/
theorem sound_of_task (h : s.Sound) (hgone : u.destroyed = true → u.Ended)
    (huploader : u.uploader = s.uploader) (hcompressor : u.compressor = s.compressor)
    (hresult : u.result = s.result ∨ ∃ c c' a, s.result = some c ∧ c.step a = some c' ∧
      u.result = some c') : u.Sound where
  uploader f hf := hcompressor.trans (h.uploader f (huploader ▸ hf))
  compressor hc := by
    have hnone := h.compressor (hcompressor ▸ hc)
    rcases hresult with hr | ⟨c, c', a, hr, -⟩
    · exact hr.trans hnone
    · cases hnone.symm.trans hr
  length c hc := by
    rcases hresult with hr | ⟨c₀, c', a, hr, hstep, hr'⟩
    · exact h.length c (hr ▸ hc)
    · cases hr'.symm.trans hc
      exact FileCompressor.length_step (h.length c₀ hr) hstep
  gone := hgone

/-- Every step leaves the upload sound. -/
theorem ScatterStep.sound (hs : J.ScatterStep s a u) (h : s.Sound) : u.Sound := by
  have hgone : a ≠ .destroyed → s.destroyed = true → u.Ended := fun hne hd =>
    absurd (hs.eq_destroyed (h.gone hd)) hne
  cases hs with
  | @unchanged f _ _ hd =>
    exact ⟨(fun g hg => by cases hg), h.compressor, h.length, hgone ScatterLabel.noConfusion⟩
  | threw e hd =>
    exact ⟨fun g _ => h.uploader _ hd, h.compressor, h.length, hgone ScatterLabel.noConfusion⟩
  | compresses hd =>
    have hnone := h.compressor (.inl (h.uploader _ hd))
    exact ⟨(fun g hg => by cases hg), fun _ => hnone, h.length, hgone ScatterLabel.noConfusion⟩
  | plain hd =>
    exact ⟨(fun g hg => by cases hg), h.compressor, h.length, hgone ScatterLabel.noConfusion⟩
  | planned hd =>
    refine ⟨fun g hg => ?_, fun hc => ?_, fun c hc => ?_, hgone ScatterLabel.noConfusion⟩
    · cases hd.symm.trans (h.uploader g hg)
    · rcases hc with hc | ⟨g, hc⟩
      · cases hc
      · cases hc
    · cases hc
      simp only [FileCompressor.start, List.length_replicate]
  | notPlanned e hd he =>
    refine ⟨fun g hg => ?_, fun hc => ?_, h.length, hgone ScatterLabel.noConfusion⟩
    · cases hd.symm.trans (h.uploader g hg)
    · dsimp only at hc
      rw [afterAttempt_of_not_retried he] at hc
      rcases hc with hc | ⟨g, hc⟩
      · cases hc
      · cases hc
  | scheduled | created | notCreated | compressed | notCompressed | pumped =>
    exact sound_of_task h (hgone ScatterLabel.noConfusion) rfl rfl (.inl rfl)
  | recorded _ _ hc hstep | tested _ _ hc hstep | finished _ _ hc hstep
  | notFinished _ _ _ hc hstep =>
    exact sound_of_task h (hgone ScatterLabel.noConfusion) rfl rfl (.inr ⟨_, _, _, hc, hstep, rfl⟩)
  | destroyed hended =>
    exact ⟨h.uploader, h.compressor, h.length, fun _ =>
      ⟨hended.uploader, hended.compressor, hended.scheduled, hended.tasks, hended.pumps⟩⟩

/-- The upload is sound before its first step. -/
theorem sound_start (fs : Files) : (startScattering fs).Sound where
  uploader _ _ := rfl
  compressor _ := rfl
  length c hc := by cases hc
  gone hd := by cases hd

/-- The name of a scratch file is not empty. -/
theorem scratchName_ne_nil (random : Str) : J.scratchName random ≠ [] := by
  rw [scratchName, appendPath]
  split
  · exact List.append_ne_nil_of_left_ne_nil (by decide) _
  · next hne => exact joinPath_ne_nil hne

/-- The temporary file that is created has an owner. -/
theorem ScatterStep.created_tracked (hs : J.ScatterStep s a u) (hr : a.creates = some r) :
    u.Tracked r := by
  cases hs with
  | @created num random fs sys ht hpath hcreate =>
    cases hr
    obtain ⟨n, hn⟩ := hcreate.exists_eq
    obtain ⟨-, -, f, rfl⟩ := Files.create_eq_ok hn
    exact ⟨scratchName_ne_nil random, Files.set_file_ne_dir _ _ _,
      .inl (.task _ (List.mem_set (List.getElem?_eq_some_iff.1 ht).1 _) rfl)⟩
  | _ => cases hr

/-- A scratch file that is tracked before a step that does not abandon it is tracked after it. -/
theorem ScatterStep.tracked (hs : J.ScatterStep s a u) (hsound : s.Sound) (ha : ¬ a.Abandons)
    (h : s.Tracked r) : u.Tracked r := by
  have hsame : ∀ {u : Scattering}, u.tasks = s.tasks → u.result = s.result →
      u.destroyed = s.destroyed → s.Owned r → u.Owned r := by
    intro u htasks hresult hdestroyed ho
    cases ho with
    | task t ht hr => exact .task t (htasks ▸ ht) hr
    | scattered c hc hd hr => exact .scattered c (hresult ▸ hc) (hdestroyed ▸ hd) hr
  have halive : s.destroyed = true → a = .destroyed := fun hd => hs.eq_destroyed (hsound.gone hd)
  cases hs with
  | unchanged | threw | compresses | plain | notPlanned | pumped =>
    exact h.keep rfl (hsame rfl rfl rfl)
  | planned hd =>
    refine h.keep rfl fun ho => ?_
    cases ho with
    | task t ht hr => exact .task t ht hr
    | scattered c hc => cases (hsound.compressor (.inr ⟨_, hd⟩)).symm.trans hc
  | scheduled =>
    refine h.keep rfl fun ho => ?_
    cases ho with
    | task t ht hr => exact .task t (List.mem_append_left _ ht) hr
    | scattered c hc hd hr => exact .scattered c hc hd hr
  | @created num random fs sys ht hpath hcreate =>
    obtain ⟨n, hn⟩ := hcreate.exists_eq
    obtain ⟨-, -, f, rfl⟩ := Files.create_eq_ok hn
    refine h.write rfl (.task _ (List.mem_set (List.getElem?_eq_some_iff.1 ht).1 _) rfl) fun ho =>
      ho.set ht rfl (fun hr => by cases hr) fun c hc hd hr => .scattered c hc hd hr
  | notCreated e ht =>
    exact h.keep rfl fun ho =>
      ho.set ht rfl (fun hr => by cases hr) fun c hc hd hr => .scattered c hc hd hr
  | @compressed num size tmp block fs sys ht hblock hcompress =>
    obtain ⟨n, hn⟩ := hcompress.exists_eq
    obtain ⟨f, rfl⟩ := doCompress_sets hn
    have hmem : CompressTask.compressed tmp size ∈ s.tasks.set num (.compressed tmp size) :=
      List.mem_set (List.getElem?_eq_some_iff.1 ht).1 _
    refine h.write rfl (.task _ hmem rfl) fun ho =>
      ho.set ht rfl (fun hr => ?_) fun c hc hd hr => .scattered c hc hd hr
    cases hr
    exact .task _ hmem rfl
  | notCompressed => exact absurd trivial ha
  | @recorded num size tmp block c c' ht hblock hc hstep =>
    refine h.keep rfl fun ho => ho.set ht rfl (fun hr => ?_) fun c₀ hc₀ hd hr => ?_
    · cases hr
      have hd : s.destroyed = false := Bool.eq_false_iff.2 fun hd => by
        cases halive hd
      exact .scattered c' rfl hd (FileCompressor.lists_of_record (hsound.length c hc) hstep)
    · cases hc.symm.trans hc₀
      exact .scattered c' rfl hd (hr.step hstep)
  | tested ht _ hc hstep | finished ht _ hc hstep | notFinished _ ht _ hc hstep =>
    refine h.keep rfl fun ho => ho.set ht rfl (fun hr => by cases hr) fun c₀ hc₀ hd hr => ?_
    cases hc.symm.trans hc₀
    exact .scattered _ rfl hd (hr.step hstep)
  | destroyed hended => exact h.destroy hended

/-- In a run in which no `compress_task` throws after its temporary file was created, every temporary
file has an owner or is gone. -/
theorem tracked_of_run {fs₀ : Files} {ls : List ScatterLabel}
    (h : J.tidyMachine.Run (startScattering fs₀) ls s) : ∀ r ∈ scratchFiles ls, s.Tracked r := by
  refine h.forall_created (sound_start fs₀) fun t a u ht ⟨ha, hs⟩ => ?_
  exact ⟨hs.sound ht, fun r hr => hs.created_tracked hr, fun r hr => hs.tracked ht ha hr⟩

/-- They are gone when all tasks have ended and are destroyed. -/
theorem scratchFiles_gone {fs₀ : Files} {ls : List ScatterLabel}
    (h : J.tidyMachine.Run (startScattering fs₀) ls s) (hover : s.Over) :
    ∀ r ∈ scratchFiles ls, s.fs r = none := by
  intro r hr
  rcases (tracked_of_run h r hr).owned with ho | hnone
  · obtain ⟨c, -, hd, -⟩ := hover.lists ho
    cases hd.symm.trans hover.destroyed
  · exact hnone

end UploadJob

end ExtremeS3
