import ExtremeS3.Commands.Existence
import ExtremeS3.Downloader.Execution

/-!
# The command `cat`

For one path after the other, `do_cat` runs the tasks of a `file_downloader` to a scratch file and
copies the file to the standard output in blocks. `CatEnv.machine` has every order of the tasks.

`CatState.Inv` is kept by every step (`CatState.Inv.step`), and every step makes `CatState.weight`
less; so every run ends, with the contents of the objects in order up to the first path that cannot
be printed, and with the files as they were (`cat_exact`).
-/

namespace ExtremeS3

/-! ## The code -/

/-- What the command depends on: what a download does, the service, what `find_region` answers,
whether a file with permission bits is opened with `O_RDWR`, and how many of the bytes of a `write` to
the standard output are taken, after so many before. -/
structure CatEnv where
  segmentSize : Nat
  sys : Sys
  zlib : Zlib
  scratchDir : Str
  service : Service
  findRegion : Str → Except Thrown Str
  opens : Nat → Bool
  writeOut : Nat → Nat → Nat

/-- Where the command stands: before the path that is next, running the tasks of a download, or
ended, with what it returns or throws. `out` is what was written to the standard output, `failed` the
number of tasks that failed. -/
inductive CatState where
  | next (fs : Files) (out : Bytes) (left : List Str)
  | running (job : DownloadJob) (d : Downloading) (ts : List DownloadTask) (failed : Nat)
      (out : Bytes) (left : List Str)
  | returned (fs : Files) (out : Bytes) (result : Except Thrown Int)

/-- The iteration of a path begins, with the random part of its scratch file's name; a task runs, with
what it is answered; or what follows the tasks, or the loop, is done. -/
inductive CatLabel where
  | start (random : Str)
  | task (i : Nat) (o : DownloadAnswer)
  | finish

namespace CatEnv

variable (env : CatEnv)

/-- The name of a scratch file. -/
def scratchName (random : Str) : Str :=
  appendPath env.scratchDir ("scratchy-cat-".toList ++ random ++ "-dl".toList)

/-- `parse_path`, with the zone that `find_region` finds. -/
def locate (url : Str) : Except Thrown S3Path :=
  match parsePath url with
  | .error e => .error e.thrown
  | .ok remote =>
    match env.findRegion remote.bucket with
    | .error e => .error e
    | .ok region => .ok { remote with zone := region }

/-- The `file_downloader` of a path. -/
def job (tmp : Str) (remote : S3Path) : DownloadJob where
  segmentSize := env.segmentSize
  sys := env.sys
  zlib := env.zlib
  scratchDir := env.scratchDir
  path := tmp
  remote := remote
  deleteDir := false

/-- The state that a download begins in; there is no `download_content` yet. -/
def before (fs : Files) : Downloading := ⟨fs, env.service, ⟨0, 0, 0, 0, 0, [], [], false, false⟩⟩

/-- One block of the loop that copies the scratch file, from an offset; the flag says whether the
file was copied. -/
def printBlock (fs : Files) (tmp : Str) (s : Nat × Bytes) :
    Prog TransferError ((Nat × Bytes) ⊕ (Bytes × Bool)) := do
  let buf ← env.sys.read fs tmp s.1 16384
  if buf = [] then pure (.inr (s.2, true))
  else
    let written := buf.take (env.writeOut s.2.length buf.length)
    if written.length ≠ buf.length then pure (.inr (s.2 ++ written, false))
    else pure (.inl (s.1 + buf.length, s.2 ++ buf))

/-- The loop that copies the scratch file. -/
def printFile (fs : Files) (tmp : Str) (out : Bytes) : Prog TransferError (Bytes × Bool) :=
  .loop (env.printBlock fs tmp) (0, out)

/-- What follows when no task is left. `ON_BLOCK_EXIT` removes the scratch file. -/
def afterRun (tmp : Str) (fs : Files) (failed : Nat) (out : Bytes) (left : List Str)
    (s' : CatState) : Prop :=
  let fs' := fs.unlink tmp
  if failed ≠ 0 then s' = .returned fs' out (.ok 6)
  else
    match fs tmp with
    | some (.file f) =>
      if env.opens f.mode then
        ∃ out' all, (env.printFile fs tmp out).Evals (.ok (out', all)) ∧
          s' = if all then .next fs' out' left else .returned fs' out' (.ok 5)
      else s' = .returned fs' out (.error (.es3 .errFatal))
    | some .dir | none => s' = .returned fs' out (.error (.es3 .errFatal))

/-- What the environment may do: `unique_path` gives a name that is not taken, and a task is run and
answered. -/
def Offers : CatState → CatLabel → Prop
  | .next _ _ [], .finish => True
  | .next fs _ (_ :: _), .start random => fs (env.scratchName random) = none
  | .running job d ts _ _ _, .task i o => ∃ t, ts[i]? = some t ∧ job.tasks.answers d t o
  | .running _ _ [] _ _ _, .finish => True
  | _, _ => False

/-- One step. A `file_downloader` that does not find its object has not changed anything; what another
task that fails has done to the files is not said. -/
def step : CatState → CatLabel → CatState → Prop
  | .next fs out [], .finish, s' => s' = .returned fs out (.ok 0)
  | .next fs out (url :: left), .start random, s' =>
    let tmp := env.scratchName random
    fs tmp = none ∧
      match env.locate url with
      | .error e => s' = .returned (fs.unlink tmp) out (.error e)
      | .ok remote => s' = .running (env.job tmp remote) (env.before fs) [.fileDownloader] 0 out left
  | .running job d ts failed out left, .task i o, s' =>
    ∃ t, ts[i]? = some t ∧ job.tasks.answers d t o ∧
      ((∃ d' new, (job.tasks.run d t o).Evals (.ok (d', new)) ∧
          s' = .running job d' (ts.eraseIdx i ++ new) failed out left) ∨
        ∃ e fs', (job.tasks.run d t o).Evals (.error e) ∧ (e = .notFound → fs' = d.fs) ∧
          s' = .running job { d with fs := fs' } (ts.eraseIdx i) (failed + 1) out left)
  | .running job d [] failed out left, .finish, s' => env.afterRun job.path d.fs failed out left s'
  | _, _, _ => False

/-- `do_cat`, with its checks of the parameters. -/
def doCat (fs : Files) (params : List Str) (help : Bool) : CatState :=
  if help then .returned fs [] (.ok 0)
  else if params = [] then .returned fs [] (.ok 2)
  else .next fs [] params

/-- The runs of the command. -/
def machine (fs : Files) (params : List Str) (help : Bool) : Machine CatState CatLabel where
  init s := s = doCat fs params help
  step := env.step

/-! ## What is printed -/

/-- The path is of an object that was uploaded from the file and can be downloaded. -/
def Holds (url : Str) (f : FileData) : Prop :=
  ∃ remote object, env.locate url = .ok remote ∧ env.service.objects remote = some object ∧
    object.From env.zlib f ∧ ∀ tmp, (env.job tmp remote).Ok object f

/-- The path is of no object. -/
def Missing (url : Str) : Prop :=
  ∃ remote, env.locate url = .ok remote ∧ env.service.objects remote = none

/-- The paths are of objects whose files can be printed. -/
def Prints : List Str → List FileData → Prop :=
  List.Forall₂ fun url f => env.Holds url f ∧ env.opens f.mode

/-- The output when the files of the paths before those that are left are printed, in order. -/
def Reaches (params left : List Str) (out : Bytes) : Prop :=
  ∃ done files, params = done ++ left ∧ env.Prints done files ∧ out = files.flatMap FileData.data

/-- The output and the result of the command: it prints the files one after the other, and ends at
the first path that is none, or is of no object, or whose file cannot be opened or written. -/
inductive Outcome (params : List Str) : Bytes → Except Thrown Int → Prop
  | empty : params = [] → Outcome params [] (.ok 2)
  | all {out} : params ≠ [] → env.Reaches params [] out → Outcome params out (.ok 0)
  | rejected {url left out e} : env.Reaches params (url :: left) out →
      env.locate url = .error e → Outcome params out (.error e)
  | missing {url left out} : env.Reaches params (url :: left) out → env.Missing url →
      Outcome params out (.ok 6)
  | notOpened {url left out f} : env.Reaches params (url :: left) out → env.Holds url f →
      env.opens f.mode = false → Outcome params out (.error (.es3 .errFatal))
  | notWritten {url left out f part} : env.Reaches params (url :: left) out → env.Holds url f →
      part <+: f.data → part ≠ f.data → (∃ n size, env.writeOut n size < size) →
        Outcome params (out ++ part) (.ok 5)

section
variable {env} {fs : Files} {tmp : Str} {data out : Bytes}

/-- What a block is of. -/
def Printed (data out : Bytes) (s : Nat × Bytes) : Prop :=
  s.1 ≤ data.length ∧ s.2 = out ++ data.take s.1

/-- How the loop ends. -/
def Copied (data out : Bytes) (r : Bytes × Bool) : Prop :=
  r = (out ++ data, true) ∨ ∃ part, r = (out ++ part, false) ∧ part <+: data ∧ part ≠ data ∧
    ∃ n size, env.writeOut n size < size

/-- One block is written, or it is the last one, or only a part of it is written. -/
theorem evals_printBlock (hreads : env.sys.Reads) (h : fs.contents tmp = some data)
    {s : Nat × Bytes} (hs : Printed data out s) :
    (∃ s', (env.printBlock fs tmp s).Evals (.ok (.inl s')) ∧ Printed data out s' ∧
      data.length - s'.1 < data.length - s.1) ∨
    ∃ r, (env.printBlock fs tmp s).Evals (.ok (.inr r)) ∧ env.Copied data out r := by
  obtain ⟨offset, printed⟩ := s
  obtain ⟨hoffset, hprinted⟩ := hs
  dsimp only at hoffset hprinted
  subst hprinted
  obtain ⟨n, hn, -, hread⟩ := Sys.evals_read hreads h offset (show 0 < 16384 by decide)
  generalize hbuf : (data.drop offset).take n = buf at hread
  have hlength : buf.length = min n (data.length - offset) := by
    rw [← hbuf, List.length_take, List.length_drop]
  have htake : ∀ k ≤ buf.length, data.take offset ++ buf.take k = data.take (offset + k) := by
    intro k hk
    rw [← hbuf, List.take_take, min_eq_left (by omega), List.take_add]
  by_cases hend : buf = []
  · -- at the end of the file
    rw [hend, List.length_nil] at hlength
    refine .inr ⟨_, hread.bind (Prog.evals_if_pos hend (Prog.evals_pure _)), .inl ?_⟩
    rw [List.take_of_length_le (by omega)]
  · have hpos : 0 < buf.length := List.length_pos_iff.2 hend
    generalize hwritten : buf.take (env.writeOut (out ++ data.take offset).length buf.length) = written
    by_cases hshort : written.length ≠ buf.length
    · refine .inr ⟨(out ++ data.take offset ++ written, false), ?_, .inr ⟨data.take offset ++ written,
        by rw [List.append_assoc], ?_⟩⟩
      · refine hread.bind (Prog.evals_if_neg hend ?_)
        rw [hwritten]
        exact Prog.evals_if_pos hshort (Prog.evals_pure _)
      rw [← hwritten, List.length_take] at hshort
      have hlt : env.writeOut (out ++ data.take offset).length buf.length < buf.length := by omega
      rw [← hwritten, htake _ hlt.le]
      refine ⟨List.take_prefix _ _, fun heq => ?_, _, _, hlt⟩
      have := congrArg List.length heq
      rw [List.length_take] at this
      omega
    · refine .inl ⟨(offset + buf.length, out ++ data.take offset ++ buf), ?_, ⟨?_, ?_⟩, ?_⟩
      · refine hread.bind (Prog.evals_if_neg hend ?_)
        rw [hwritten]
        exact Prog.evals_if_neg hshort (Prog.evals_pure _)
      · dsimp only
        omega
      · rw [List.append_assoc, ← htake _ (le_refl _), List.take_length]
      · dsimp only
        omega

/-- The loop writes the file, or a part of it if a write is short. -/
theorem evals_printFile (hreads : env.sys.Reads) (h : fs.contents tmp = some data) (out : Bytes) :
    ∃ r, (env.printFile fs tmp out).Evals (.ok r) ∧ env.Copied data out r :=
  Prog.exists_evals_loop (fun s => data.length - s.1)
    (fun _ hs => evals_printBlock hreads h hs) (I := Printed data out) ⟨Nat.zero_le _, by simp⟩

/-- What follows the tasks is done. -/
theorem exists_afterRun (hreads : env.sys.Reads) (tmp : Str) (fs : Files) (failed : Nat)
    (out : Bytes) (left : List Str) : ∃ s', env.afterRun tmp fs failed out left s' := by
  unfold afterRun
  dsimp only
  split
  · exact ⟨_, rfl⟩
  · split
    · next f hfile =>
      split
      · have hdata : fs.contents tmp = some f.data := by
          unfold Files.contents
          rw [hfile]
        obtain ⟨r, hr, -⟩ := evals_printFile hreads hdata out
        exact ⟨_, r.1, r.2, hr, rfl⟩
      · exact ⟨_, rfl⟩
    · exact ⟨_, rfl⟩
    · exact ⟨_, rfl⟩

end

end CatEnv

/-! ## Runs -/

/-- A bound on the number of steps that the paths which are left may take. -/
def catWeight (left : List Str) : Nat :=
  left.length * (DownloadTask.weight .fileDownloader + 2) + 1

/-- A bound on the number of steps that are left. -/
def CatState.weight : CatState → Nat
  | .next _ _ left => catWeight left
  | .running _ _ ts _ _ left => downloadWeight ts + 1 + catWeight left
  | .returned .. => 0

/-- Where a run stands: between two paths, in the download of an object or of none, or at the end. -/
inductive CatState.Inv (env : CatEnv) (fs : Files) (params : List Str) : CatState → Prop
  | next {out left} : params ≠ [] → env.Reaches params left out →
      Inv env fs params (.next fs out left)
  | running {url left out f object tmp remote d ts} : env.Reaches params (url :: left) out →
      env.Holds url f → fs tmp = none → (env.job tmp remote).Ok object f →
      object.From env.zlib f → d.Phase (env.job tmp remote) object f fs ts →
        Inv env fs params (.running (env.job tmp remote) d ts 0 out left)
  | missing {url left out tmp remote ts failed} : env.Reaches params (url :: left) out →
      env.Missing url → fs tmp = none → env.service.objects remote = none →
      (ts = [.fileDownloader] ∧ failed = 0 ∨ ts = [] ∧ failed = 1) →
        Inv env fs params (.running (env.job tmp remote) (env.before fs) ts failed out left)
  | returned {out result} : env.Outcome params out result →
      Inv env fs params (.returned fs out result)

section
variable {env : CatEnv} {fs : Files} {params : List Str}

/-- The weight of tasks adds up. -/
theorem downloadWeight_append (ts us : List DownloadTask) :
    downloadWeight (ts ++ us) = downloadWeight ts + downloadWeight us := by
  unfold downloadWeight
  rw [List.map_append, List.sum_append]

/-- A task of a download that runs, wherever it stands among the others. -/
theorem Downloading.Phase.step_at {J : DownloadJob} {object : Object} {f : FileData} {fs₀ : Files}
    (hJ : J.Ok object f) (hfrom : object.From J.zlib f) {d : Downloading} {ts : List DownloadTask}
    {i : Nat} {t : DownloadTask} {o : DownloadAnswer} (h : d.Phase J object f fs₀ ts)
    (ht : ts[i]? = some t) (ho : J.tasks.answers d t o) :
    ∃ d' new, (J.tasks.run d t o).Evals (.ok (d', new)) ∧
      d'.Phase J object f fs₀ (ts.eraseIdx i ++ new) ∧
      downloadWeight (ts.eraseIdx i ++ new) < downloadWeight ts := by
  obtain ⟨hi, rfl⟩ := List.getElem?_eq_some_iff.1 ht
  have hsplit : ts = ts.take i ++ ts[i] :: ts.drop (i + 1) := by
    rw [List.getElem_cons_drop, List.take_append_drop]
  rw [hsplit] at h
  obtain ⟨d', new, hrun, hphase, hlt⟩ := h.step hJ hfrom ho
  have hweight := congrArg downloadWeight hsplit
  rw [List.eraseIdx_eq_take_drop_succ]
  refine ⟨d', new, hrun, hphase, ?_⟩
  simp only [downloadWeight_append, downloadWeight_cons] at hweight ⊢
  omega

/-- Making a file where none was, and removing it, changes nothing. -/
theorem unlink_set_of_none {path : Str} {f : FileData} (h : fs path = none) :
    (fs.set path (some (.file f))).unlink path = fs := by
  unfold Files.unlink
  rw [if_neg (Files.set_file_ne_dir _ _ _), Files.set_set, Files.set_eq_self h]

/-- Every path is of an object that can be downloaded or of none, or is rejected. -/
def CatEnv.Knows (env : CatEnv) (params : List Str) : Prop :=
  ∀ url ∈ params, (∃ f, env.Holds url f) ∨ env.Missing url ∨ ∃ e, env.locate url = .error e

@[simp] theorem weight_next (fs : Files) (out : Bytes) (left : List Str) :
    (CatState.next fs out left).weight = catWeight left := rfl

@[simp] theorem weight_running (J : DownloadJob) (d : Downloading) (ts : List DownloadTask)
    (failed : Nat) (out : Bytes) (left : List Str) :
    (CatState.running J d ts failed out left).weight = downloadWeight ts + 1 + catWeight left := rfl

@[simp] theorem weight_returned (fs : Files) (out : Bytes) (result : Except Thrown Int) :
    (CatState.returned fs out result).weight = 0 := rfl

/-- A step is always left to begin the next path. -/
theorem catWeight_pos (left : List Str) : 0 < catWeight left := Nat.succ_pos _

/-- A path that is left weighs as much as its download and two steps. -/
theorem catWeight_cons (url : Str) (left : List Str) :
    catWeight (url :: left) = downloadWeight [.fileDownloader] + 2 + catWeight left := by
  unfold catWeight
  rw [downloadWeight_cons, downloadWeight_nil, List.length_cons, Nat.add_one_mul]
  omega

section
variable {url tmp : Str} {left : List Str} {out : Bytes} {s' : CatState}

/-- The iteration of a path begins. -/
theorem inv_start (hknows : env.Knows params) (hreach : env.Reaches params (url :: left) out)
    {random : Str} (h : env.step (.next fs out (url :: left)) (.start random) s') :
    s'.Inv env fs params ∧ s'.weight < catWeight (url :: left) := by
  obtain ⟨hfree, h⟩ := h
  have hmem : url ∈ params := by
    obtain ⟨done, files, rfl, -⟩ := hreach
    simp
  rw [catWeight_cons]
  rcases hknows url hmem with ⟨f, hholds⟩ | hmissing | ⟨e, he⟩
  · obtain ⟨remote, object, hlocate, hobject, hfrom, hok⟩ := id hholds
    rw [hlocate] at h
    obtain rfl : s' = _ := h
    refine ⟨.running hreach hholds hfree (hok _) hfrom (.start rfl hfree hobject), ?_⟩
    rw [weight_running]
    omega
  · obtain ⟨remote, hlocate, hnone⟩ := id hmissing
    rw [hlocate] at h
    obtain rfl : s' = _ := h
    refine ⟨.missing hreach hmissing hfree hnone (.inl ⟨rfl, rfl⟩), ?_⟩
    rw [weight_running]
    omega
  · rw [he, Files.unlink_of_none hfree] at h
    obtain rfl : s' = _ := h
    refine ⟨.returned (.rejected hreach he), ?_⟩
    rw [weight_returned]
    omega

/-- What answers the `file_downloader` of no object says that it is not found. -/
theorem evals_notFound {remote : S3Path} (hnone : env.service.objects remote = none)
    {o : DownloadAnswer}
    (ho : (env.job tmp remote).tasks.answers (env.before fs) .fileDownloader o) :
    ((env.job tmp remote).tasks.run (env.before fs) .fileDownloader o).Evals (.error .notFound) := by
  have hhead : env.service.AnswersHead remote o.code o.lines := ho.1
  unfold Service.AnswersHead at hhead
  rw [hnone] at hhead
  exact DownloadJob.runFileDownloader_notFound hhead.1

/-- The task of the download of no object fails. -/
theorem inv_task_missing (hreach : env.Reaches params (url :: left) out) (hmissing : env.Missing url)
    (hfree : fs tmp = none) {remote : S3Path} (hnone : env.service.objects remote = none) {i : Nat}
    {o : DownloadAnswer}
    (h : env.step (.running (env.job tmp remote) (env.before fs) [.fileDownloader] 0 out left)
      (.task i o) s') :
    s'.Inv env fs params ∧ s'.weight < downloadWeight [.fileDownloader] + 1 + catWeight left := by
  obtain ⟨t, ht, ho, h⟩ := h
  obtain ⟨hi, rfl⟩ := List.getElem?_eq_some_iff.1 ht
  obtain rfl : i = 0 := Nat.lt_one_iff.1 hi
  have hnot := evals_notFound hnone ho
  rcases h with ⟨d', new, hrun, -⟩ | ⟨e, fs', hrun, hfs, rfl⟩
  · cases hnot.unique hrun
  · cases hnot.unique hrun
    obtain rfl : fs' = fs := hfs rfl
    refine ⟨.missing hreach hmissing hfree hnone (.inr ⟨rfl, rfl⟩), ?_⟩
    rw [weight_running]
    exact Nat.add_lt_add_right (by decide) _

section
variable {f : FileData} {object : Object} {remote : S3Path} {d : Downloading}
  {ts : List DownloadTask}

/-- A task of the download of an object runs. -/
theorem inv_task (hreach : env.Reaches params (url :: left) out) (hholds : env.Holds url f)
    (hfree : fs tmp = none) (hok : (env.job tmp remote).Ok object f)
    (hfrom : object.From env.zlib f) (hphase : d.Phase (env.job tmp remote) object f fs ts) {i : Nat}
    {o : DownloadAnswer}
    (h : env.step (.running (env.job tmp remote) d ts 0 out left) (.task i o) s') :
    s'.Inv env fs params ∧ s'.weight < downloadWeight ts + 1 + catWeight left := by
  obtain ⟨t, ht, ho, h⟩ := h
  obtain ⟨d', new, hrun, hphase', hlt⟩ := hphase.step_at hok hfrom ht ho
  rcases h with ⟨d'', new', hrun', rfl⟩ | ⟨e, fs', hrun', -⟩
  · cases hrun.unique hrun'
    refine ⟨.running hreach hholds hfree hok hfrom hphase', ?_⟩
    rw [weight_running]
    omega
  · cases hrun.unique hrun'

/-- The download of an object is done, and its file is printed. -/
theorem inv_finish (hreads : env.sys.Reads) (hreach : env.Reaches params (url :: left) out)
    (hholds : env.Holds url f) (hfree : fs tmp = none)
    (hphase : d.Phase (env.job tmp remote) object f fs [])
    (h : env.step (.running (env.job tmp remote) d [] 0 out left) .finish s') :
    s'.Inv env fs params ∧ s'.weight < downloadWeight [] + 1 + catWeight left := by
  have hfs : d.fs = fs.set tmp (some (.file f)) := by
    generalize hts : ([] : List DownloadTask) = ts at hphase
    cases hphase with
    | finished hfs => exact hfs
    | start | decompressor => cases hts
    | segments compressed done data hseg hne => exact absurd hts.symm hne
  have h : env.afterRun tmp d.fs 0 out left s' := h
  unfold CatEnv.afterRun at h
  rw [hfs, unlink_set_of_none hfree, Files.set_self] at h
  simp only [ne_eq, not_true_eq_false, if_false] at h
  split at h
  · next hopens =>
    obtain ⟨out', all, hprint, rfl⟩ := h
    obtain ⟨r, hr, hcopied⟩ :=
      CatEnv.evals_printFile hreads (Files.contents_set_self fs tmp f) out
    cases hprint.unique hr
    rcases hcopied with heq | ⟨part, heq, hpart, hpart', hshort⟩
    · obtain ⟨rfl, rfl⟩ := Prod.mk.inj heq
      obtain ⟨done, files, rfl, hdone, rfl⟩ := hreach
      rw [if_pos rfl, weight_next]
      refine ⟨.next (by simp) ⟨done ++ [url], files ++ [f], by simp, ?_, by simp⟩, by omega⟩
      exact List.rel_append hdone (.cons ⟨hholds, hopens⟩ .nil)
    · obtain ⟨rfl, rfl⟩ := Prod.mk.inj heq
      exact ⟨.returned (.notWritten hreach hholds hpart hpart' hshort), Nat.succ_pos _⟩
  · next hopens =>
    subst h
    rw [Bool.not_eq_true] at hopens
    exact ⟨.returned (.notOpened hreach hholds hopens), Nat.succ_pos _⟩

end

end

/-- Every step keeps the invariant, and makes the bound less. -/
theorem CatState.Inv.step (hreads : env.sys.Reads) (hknows : env.Knows params) {s s' : CatState}
    {l : CatLabel} (hs : s.Inv env fs params) (h : env.step s l s') :
    s'.Inv env fs params ∧ s'.weight < s.weight := by
  cases hs with
  | @next out left hne hreach =>
    cases left with
    | nil =>
      cases l with
      | start | task => exact h.elim
      | finish =>
        obtain rfl : s' = _ := h
        exact ⟨.returned (.all hne hreach), catWeight_pos _⟩
    | cons url left =>
      cases l with
      | start random => exact inv_start hknows hreach h
      | task | finish => exact h.elim
  | @running url left out f object tmp remote d ts hreach hholds hfree hok hfrom hphase =>
    cases l with
    | start => cases ts <;> exact h.elim
    | task i o => exact inv_task hreach hholds hfree hok hfrom hphase h
    | finish =>
      cases ts with
      | nil => exact inv_finish hreads hreach hholds hfree hphase h
      | cons t ts => exact h.elim
  | @missing url left out tmp remote ts failed hreach hmissing hfree hnone hts =>
    rcases hts with ⟨rfl, rfl⟩ | ⟨rfl, rfl⟩
    · cases l with
      | start | finish => exact h.elim
      | task i o => exact inv_task_missing hreach hmissing hfree hnone h
    · cases l with
      | start => exact h.elim
      | task i o =>
        obtain ⟨t, ht, -⟩ := h
        cases ht
      | finish =>
        have h : env.afterRun tmp fs 1 out left s' := h
        unfold CatEnv.afterRun at h
        rw [if_pos (by decide), Files.unlink_of_none hfree] at h
        subst h
        exact ⟨.returned (.missing hreach hmissing), Nat.succ_pos _⟩
  | returned => exact h.elim

/-- The command is never stuck. -/
theorem CatState.Inv.exists_step (hreads : env.sys.Reads) {s : CatState} {l : CatLabel}
    (hs : s.Inv env fs params) (h : env.Offers s l) : ∃ s', env.step s l s' := by
  cases hs with
  | @next out left hne hreach =>
    cases left with
    | nil =>
      cases l with
      | start | task => exact h.elim
      | finish => exact ⟨_, rfl⟩
    | cons url left =>
      cases l with
      | start random =>
        cases hlocate : env.locate url with
        | error e => exact ⟨_, h, by rw [hlocate]⟩
        | ok remote => exact ⟨_, h, by rw [hlocate]⟩
      | task | finish => exact h.elim
  | @running url left out f object tmp remote d ts hreach hholds hfree hok hfrom hphase =>
    cases l with
    | start => cases ts <;> exact h.elim
    | task i o =>
      obtain ⟨t, ht, ho⟩ := h
      obtain ⟨d', new, hrun, -⟩ := hphase.step_at hok hfrom ht ho
      exact ⟨_, t, ht, ho, .inl ⟨d', new, hrun, rfl⟩⟩
    | finish =>
      cases ts with
      | nil => exact CatEnv.exists_afterRun hreads tmp d.fs 0 out left
      | cons t ts => exact h.elim
  | @missing url left out tmp remote ts failed hreach hmissing hfree hnone hts =>
    cases l with
    | start => cases ts <;> exact h.elim
    | task i o =>
      obtain ⟨t, ht, ho⟩ := h
      rcases hts with ⟨rfl, rfl⟩ | ⟨rfl, rfl⟩
      · obtain ⟨hi, rfl⟩ := List.getElem?_eq_some_iff.1 ht
        obtain rfl : i = 0 := Nat.lt_one_iff.1 hi
        exact ⟨_, _, ht, ho, .inr ⟨_, fs, evals_notFound hnone ho, fun _ => rfl, rfl⟩⟩
      · cases ht
    | finish =>
      rcases hts with ⟨rfl, rfl⟩ | ⟨rfl, rfl⟩
      · exact h.elim
      · exact CatEnv.exists_afterRun hreads tmp fs 1 out left
  | returned => exact h.elim

/-- The runs of a command that has paths keep the invariant, within the bound. -/
theorem inv_of_run (hreads : env.sys.Reads) (hknows : env.Knows params) {ls : List CatLabel}
    {s : CatState} (h : (env.machine fs params false).Run (CatEnv.doCat fs params false) ls s) :
    s.Inv env fs params ∧ ls.length + s.weight ≤ catWeight params := by
  refine h.invariant (I := fun ls s => s.Inv env fs params ∧ ls.length + s.weight ≤ catWeight params)
    ?_ fun ls t l u ht hstep => ?_
  · unfold CatEnv.doCat
    rw [if_neg (by decide)]
    split
    · next hnil =>
      refine ⟨.returned (.empty hnil), ?_⟩
      rw [weight_returned]
      exact Nat.zero_le _
    · next hne =>
      refine ⟨.next hne ⟨[], [], rfl, .nil, rfl⟩, ?_⟩
      rw [weight_next, List.length_nil, Nat.zero_add]
  · obtain ⟨hu, hlt⟩ := ht.1.step hreads hknows hstep
    have := ht.2
    rw [List.length_append, List.length_singleton]
    exact ⟨hu, by omega⟩

end

/-- In whatever order its tasks run, `cat` is never stuck and takes a bounded number of steps, and
when it ends it has printed the files of its paths in order, up to the first that is none, or is of no
object, or whose file cannot be opened or written; and it leaves the files as they were. -/
theorem cat_exact {env : CatEnv} {fs : Files} {params : List Str} (hreads : env.sys.Reads)
    (hknows : env.Knows params) {ls : List CatLabel} {s : CatState}
    (h : (env.machine fs params false).Run (CatEnv.doCat fs params false) ls s) :
    (∀ l, env.Offers s l → ∃ s', env.step s l s') ∧
      ls.length ≤ params.length * (3 * maxSegments + 3) + 1 ∧
      ∀ fs' out result, s = .returned fs' out result → fs' = fs ∧ env.Outcome params out result := by
  obtain ⟨hinv, hweight⟩ := inv_of_run hreads hknows h
  refine ⟨fun l hl => hinv.exists_step hreads hl, ?_, ?_⟩
  · exact (Nat.le_add_right _ _).trans hweight
  · rintro fs' out result rfl
    cases hinv with
    | returned hout => exact ⟨rfl, hout⟩

/-! ## Runs that print -/

namespace CatEnv

variable {env : CatEnv} {fs : Files} {params left : List Str} {url : Str} {out : Bytes}

/-- A random part makes a scratch file's name of its own. -/
theorem scratchName_injective (env : CatEnv) (_ : Unit) : Function.Injective env.scratchName := by
  intro r r' h
  have hname : "cratchy-cat-".toList ++ r ++ "-dl".toList =
      "cratchy-cat-".toList ++ r' ++ "-dl".toList :=
    appendPath_cons_injective env.scratchDir 's' h
  exact List.append_cancel_left (List.append_cancel_right hname)

/-- The command runs the tasks of a download as the download permits. -/
theorem run_tasks {J : DownloadJob} {start c : Downloading × List DownloadTask}
    {ls : List (Nat × DownloadAnswer)} (h : (J.tasks.machine start).Run start ls c) (failed : Nat) :
    (env.machine fs params false).Run (.running J start.1 start.2 failed out left)
      (ls.map fun l => .task l.1 l.2) (.running J c.1 c.2 failed out left) := by
  induction h with
  | nil => exact .nil
  | snoc _ hs ih =>
    obtain ⟨t, d, new, ht, ho, hrun, rfl⟩ := hs
    rw [List.map_append]
    exact .snoc ih ⟨t, ht, ho, .inl ⟨d, new, hrun, rfl⟩⟩

/-- Where names are left, the download of a path that is not rejected begins. -/
theorem exists_start (hfinite : {q | fs q ≠ none}.Finite) {remote : S3Path}
    (hlocate : env.locate url = .ok remote) (params : List Str) (out : Bytes) (left : List Str) :
    ∃ random tmp, fs tmp = none ∧
      (env.machine fs params false).step (.next fs out (url :: left)) (.start random)
        (.running (env.job tmp remote) (env.before fs) [.fileDownloader] 0 out left) := by
  obtain ⟨random, hrandom⟩ := exists_free hfinite (scratchName_injective env)
  have hfree : fs (env.scratchName random) = none := not_not.1 (hrandom ())
  refine ⟨random, env.scratchName random, hfree, ?_⟩
  show _ ∧ _
  rw [hlocate]
  exact ⟨hfree, rfl⟩

/-- Where names are left and the service answers, a path of an object can be printed. -/
theorem exists_run_prints (hreads : env.sys.Reads)
    (hwrites : ∀ n size, env.writeOut n size = size)
    (hhead : ∀ remote, ∃ code lines, env.service.AnswersHead remote code lines)
    (hfinite : {q | fs q ≠ none}.Finite) {f : FileData} (hholds : env.Holds url f)
    (hopens : env.opens f.mode) (params : List Str) (out : Bytes) (left : List Str) :
    ∃ ls, (env.machine fs params false).Run (.next fs out (url :: left)) ls
      (.next fs (out ++ f.data) left) := by
  obtain ⟨remote, object, hlocate, hobject, hfrom, hok⟩ := hholds
  obtain ⟨random, tmp, hfree, hstart⟩ := exists_start hfinite hlocate params out left
  -- the download restores the file at the scratch name
  have hdownload : (env.job tmp remote).tasks.Completes (env.before fs, [.fileDownloader]) fun d =>
      d.fs = fs.set tmp (some (.file f)) :=
    download_completes (hok tmp) hfrom hfree hobject
  obtain ⟨ls, d, hrun, hfs⟩ := hdownload.exists_run fun s ts hs t ht =>
    exists_download_answer (hok tmp) hfrom hfree hobject (hhead remote) hfinite hs ht
  have hcontents : (fs.set tmp (some (.file f))).contents tmp = some f.data :=
    Files.contents_set_self ..
  have hfinish : (env.machine fs params false).step
      (.running (env.job tmp remote) d [] 0 out left) .finish
      (.next fs (out ++ f.data) left) := by
    obtain ⟨r, hprint, hcopied⟩ := evals_printFile hreads hcontents out
    obtain rfl : r = (out ++ f.data, true) := by
      rcases hcopied with h | ⟨-, -, -, -, n, size, hlt⟩
      · exact h
      · rw [hwrites] at hlt
        exact absurd hlt (Nat.lt_irrefl _)
    show env.afterRun tmp d.fs 0 out left _
    unfold afterRun
    rw [if_neg (by simp), hfs, Files.set_self, unlink_set_of_none hfree]
    dsimp only
    rw [if_pos hopens]
    exact ⟨_, _, hprint, rfl⟩
  exact ⟨_, .cons hstart ((run_tasks hrun 0).append (.single hfinish))⟩

/-- And a path of no object ends the command. -/
theorem exists_run_missing (hfinite : {q | fs q ≠ none}.Finite) (hmissing : env.Missing url)
    (params : List Str) (out : Bytes) (left : List Str) :
    ∃ ls, (env.machine fs params false).Run (.next fs out (url :: left)) ls
      (.returned fs out (.ok 6)) := by
  obtain ⟨remote, hlocate, hnone⟩ := hmissing
  obtain ⟨random, tmp, hfree, hstart⟩ := exists_start hfinite hlocate params out left
  obtain ⟨temporary, htemporary⟩ := exists_free (hfinite.insert tmp)
    (temporaryName_injective env.scratchDir tmp)
  have hanswers : (env.job tmp remote).tasks.answers (env.before fs) .fileDownloader
      ⟨404, [], temporary⟩ := by
    refine ⟨?_, fun compressed => ?_⟩
    · show env.service.AnswersHead remote 404 []
      unfold Service.AnswersHead
      rw [hnone]
      exact ⟨rfl, by simp⟩
    · obtain ⟨hne, hunused⟩ := not_or.1 (htemporary compressed)
      exact ⟨not_not.1 hunused, hne⟩
  have htask : (env.machine fs params false).step
      (.running (env.job tmp remote) (env.before fs) [.fileDownloader] 0 out left)
      (.task 0 ⟨404, [], temporary⟩)
      (.running (env.job tmp remote) (env.before fs) [] 1 out left) :=
    ⟨_, rfl, hanswers, .inr ⟨.notFound, fs, DownloadJob.runFileDownloader_notFound rfl,
      fun _ => rfl, rfl⟩⟩
  have hfinish : (env.machine fs params false).step
      (.running (env.job tmp remote) (env.before fs) [] 1 out left) .finish
      (.returned fs out (.ok 6)) := by
    show env.afterRun tmp fs 1 out left _
    unfold afterRun
    rw [if_pos (by decide), Files.unlink_of_none hfree]
  exact ⟨_, .cons hstart (.cons htask (.single hfinish))⟩

end CatEnv

/-- A service with one object, in `b`. -/
def someCat : CatEnv where
  segmentSize := 2
  sys := .full
  zlib := marking
  scratchDir := "/tmp".toList
  service := ⟨fun remote =>
    if remote = ⟨"s3".toList, "b".toList, "/f".toList⟩ then some someObject else none, fun _ => none⟩
  findRegion _ := .ok "s3".toList
  opens _ := true
  writeOut _ size := size

/-- The path `s3://b/f` is of the object, which can be downloaded. -/
theorem holds_someCat : someCat.Holds "s3://b/f".toList ⟨[10, 20, 30], 7, 0o644⟩ :=
  ⟨⟨"s3".toList, "b".toList, "/f".toList⟩, someObject, rfl, rfl, ⟨false, _, rfl, rfl⟩, fun _ =>
    ⟨Sys.full_reads, Sys.full_writesAll, Nat.two_pos, show 3 ≤ 9999 * 2 by decide, by decide,
      by decide, by decide⟩⟩

/-- The path `s3://b/g` is of no object. -/
theorem missing_someCat : someCat.Missing "s3://b/g".toList :=
  ⟨⟨"s3".toList, "b".toList, "/g".toList⟩, rfl, rfl⟩

/-- `cat_exact` for a path of an object, before one of none: the object is printed. -/
theorem cat_exact_two :
    let fs : Files := fun _ => none
    let params := ["s3://b/f".toList, "s3://b/g".toList]
    ∃ ls, (someCat.machine fs params false).Run (CatEnv.doCat fs params false) ls
      (.returned fs [10, 20, 30] (.ok 6)) ∧ someCat.Outcome params [10, 20, 30] (.ok 6) := by
  intro fs params
  have hfinite : {q | fs q ≠ none}.Finite := by simp [fs]
  have hhead : ∀ remote, ∃ code lines, someCat.service.AnswersHead remote code lines := by
    intro remote
    by_cases hremote : remote = ⟨"s3".toList, "b".toList, "/f".toList⟩
    · subst hremote
      exact ⟨200, smallAnswer, answersHead_smallAnswer⟩
    · refine ⟨404, [], ?_⟩
      unfold Service.AnswersHead
      rw [show someCat.service.objects remote = none from if_neg hremote]
      exact ⟨rfl, by simp⟩
  have hknows : someCat.Knows params := by
    intro url hurl
    rcases List.mem_cons.1 hurl with rfl | hurl
    · exact .inl ⟨_, holds_someCat⟩
    · rw [List.mem_singleton.1 hurl]
      exact .inr (.inl missing_someCat)
  obtain ⟨ls, hprints⟩ := CatEnv.exists_run_prints Sys.full_reads (fun _ _ => rfl) hhead hfinite
    holds_someCat rfl params [] ["s3://b/g".toList]
  obtain ⟨ls', hends⟩ := CatEnv.exists_run_missing hfinite missing_someCat params [10, 20, 30] []
  have hrun := hprints.append hends
  exact ⟨_, hrun, ((cat_exact Sys.full_reads hknows hrun).2.2 _ _ _ rfl).2⟩

end ExtremeS3
