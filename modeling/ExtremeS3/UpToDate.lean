import ExtremeS3.RoundTrip

/-!
# When nothing is left to transfer

`file_uploader` and `file_downloader` compare the time and the size of the file with those in the
headers of the object, and return when they agree. What an upload has sent is read back
(`findMtimeAndSize_stored`), so after an upload the file and what a download restores of it are
`UpToDate`: neither is uploaded or downloaded again, unless its time is the one that a missing
header is read as (`transfers_settle`).
-/

namespace ExtremeS3

/-- Neither an upload of the file to the object nor a download of the object to the file transfers
anything. -/
structure UpToDate (service : Service) (remote : S3Path) (g : FileData) : Prop where
  upload : ∀ (J : UploadJob) (s : Uploading) (o : UploadAnswer), s.fs J.path = some (.file g) →
    service.AnswersHead remote o.code o.lines → (J.runFileUploader s o).Evals (.ok (s, []))
  download : ∀ (J : DownloadJob) (s : Downloading) (o : DownloadAnswer), J.deleteDir = false →
    s.fs J.path = some (.file g) → service.AnswersHead remote o.code o.lines →
      (J.runFileDownloader s o).Evals (.ok (s, []))

section
variable {U : UploadJob} {f g : FileData} {stored : Bytes} {service : Service} {code : Nat}
  {lines : List Str}

/-- What is read of an object that was uploaded from a file. -/
theorem findMtimeAndSize_stored (hstored : U.StoredAs f stored) (hsize : f.data.length < 2 ^ 63)
    (hlength : stored.length < 2 ^ 63)
    (hobject : service.objects U.remote = some ⟨U.headers f, stored⟩)
    (hhead : service.AnswersHead U.remote code lines) :
    findMtimeAndSize code lines =
      ⟨f.mtime, f.data.length, stored.length, UploadJob.permissions f, U.compresses f, true⟩ := by
  unfold Service.AnswersHead at hhead
  rw [hobject] at hhead
  obtain ⟨hcode, hgives⟩ := hhead
  have hmode : UploadJob.permissions f < 2 ^ 32 := Nat.lt_of_le_of_lt Nat.and_le_right (by decide)
  have hempty : f.data.length = 0 → stored.length = 0 := by
    intro h
    have hplain : ¬ U.compresses f := by
      intro hc
      have := UploadJob.minimalBlock_le hc
      rw [h] at this
      exact absurd this (by decide)
    rw [UploadJob.StoredAs, if_neg hplain] at hstored
    rw [hstored, h]
  rw [findMtimeAndSize_of_gives hgives hcode hsize hmode hlength]
  split
  · next h => rw [hempty h, h]
  · rfl

/-- A file is taken for the one that was uploaded just if it has its time and its size, and the time
is not the one of a missing header. -/
theorem unchanged_stored (hstored : U.StoredAs f stored) (hsize : f.data.length < 2 ^ 63)
    (hlength : stored.length < 2 ^ 63)
    (hobject : service.objects U.remote = some ⟨U.headers f, stored⟩)
    (hhead : service.AnswersHead U.remote code lines) (g : FileData) :
    UploadJob.unchanged g (findMtimeAndSize code lines) ↔
      f.mtime ≠ 0 ∧ g.mtime = f.mtime ∧ g.data.length = f.data.length := by
  rw [findMtimeAndSize_stored hstored hsize hlength hobject hhead]
  unfold UploadJob.unchanged
  simp only [Bool.and_eq_true, decide_eq_true_eq]
  constructor
  · rintro ⟨⟨hmtime, htime⟩, hlen⟩
    exact ⟨hmtime, htime.symm, hlen.symm⟩
  · rintro ⟨hmtime, htime, hlen⟩
    exact ⟨⟨hmtime, htime.symm⟩, hlen.symm⟩

/-- Such a file is up to date. -/
theorem upToDate_stored (hstored : U.StoredAs f stored) (hsize : f.data.length < 2 ^ 63)
    (hlength : stored.length < 2 ^ 63)
    (hobject : service.objects U.remote = some ⟨U.headers f, stored⟩) (hmtime : f.mtime ≠ 0)
    (htime : g.mtime = f.mtime) (hlen : g.data.length = f.data.length) :
    UpToDate service U.remote g := by
  constructor
  case upload =>
    intro J s o hfile hhead
    have hunchanged :=
      (unchanged_stored hstored hsize hlength hobject hhead g).2 ⟨hmtime, htime, hlen⟩
    unfold UploadJob.runFileUploader
    rw [hfile]
    dsimp only
    rw [if_pos hunchanged]
    exact Prog.evals_pure _
  case download =>
    intro J s o hkeep hfile hhead
    have hcode : o.code ≠ 404 := by
      have := hhead
      unfold Service.AnswersHead at this
      rw [hobject] at this
      exact this.1
    have hclear : J.clear s.fs = s.fs := by
      unfold DownloadJob.clear
      rw [hkeep]
      rfl
    have hunchanged : J.Unchanged (J.clear s.fs) (findMtimeAndSize o.code o.lines) := by
      rw [findMtimeAndSize_stored hstored hsize hlength hobject hhead, hclear]
      unfold DownloadJob.Unchanged Files.sizeAndTime
      rw [hfile]
      exact ⟨hmtime, htime.symm, hlen.symm⟩
    have := DownloadJob.runFileDownloader_unchanged hcode hunchanged
    rwa [hclear] at this

end

/-- After an upload the object is taken for the file just if the file has the time and the size of
the one that was uploaded, and neither this file nor what a download leaves is transferred again. -/
theorem transfers_settle {U : UploadJob} {D : DownloadJob} {f : FileData} (hU : U.Ok f)
    (hremote : D.remote = U.remote) (hzlib : D.zlib = U.zlib)
    (hreads : D.sys.Reads) (hwrites : D.sys.WritesAll) (hsegment : 0 < D.segmentSize)
    (hsize : f.data.length < 2 ^ 63)
    (hfits : ∀ stored, U.StoredAs f stored →
      stored.length ≤ maxSegments * D.segmentSize ∧ stored.length < 2 ^ 63)
    {s : Uploading} (hfile : s.fs U.path = some (.file f))
    (hchanged : ∀ code lines, s.service.AnswersHead U.remote code lines →
      UploadJob.unchanged f (findMtimeAndSize code lines) = false) :
    U.tasks.Completes (s, [.fileUploader]) fun s' =>
      (∀ code lines, s'.service.AnswersHead U.remote code lines → ∀ g,
        (UploadJob.unchanged g (findMtimeAndSize code lines) ↔
          f.mtime ≠ 0 ∧ g.mtime = f.mtime ∧ g.data.length = f.data.length)) ∧
      (f.mtime ≠ 0 → UpToDate s'.service U.remote f) ∧
      ∀ t : Downloading, t.service = s'.service → t.fs D.path = none →
        D.tasks.Completes (t, [.fileDownloader]) fun t' =>
          ∃ g, t'.fs D.path = some (.file g) ∧ (f.mtime ≠ 0 → UpToDate s'.service U.remote g) := by
  refine (upload_completes hU hfile hchanged).imp fun s' ⟨stored, hstored, hobject⟩ => ⟨?_, ?_, ?_⟩
  · intro code lines hhead g
    exact unchanged_stored hstored hsize (hfits stored hstored).2 hobject hhead g
  · intro hmtime
    exact upToDate_stored hstored hsize (hfits stored hstored).2 hobject hmtime rfl rfl
  · intro t ht hpath
    have hmode : f.mode &&& 0o777 < 2 ^ 32 := Nat.lt_of_le_of_lt Nat.and_le_right (by decide)
    have hD : D.Ok ⟨U.headers f, stored⟩ f.permitted :=
      ⟨hreads, hwrites, hsegment, (hfits stored hstored).1, hsize, (hfits stored hstored).2, hmode⟩
    have hfrom : Object.From D.zlib ⟨U.headers f, stored⟩ f.permitted := hzlib ▸ hU.from hstored
    refine (download_completes hD hfrom hpath (by rw [ht, hremote]; exact hobject)).imp
      fun t' ht' => ⟨f.permitted, ?_, fun hmtime => ?_⟩
    · rw [ht', Files.set_self]
    · exact upToDate_stored hstored hsize (hfits stored hstored).2 hobject hmtime rfl rfl

/-- `transfers_settle` for a small file. -/
theorem transfers_settle_small :
    someUpload.tasks.Completes (beforeUpload, [.fileUploader]) fun s' =>
      UpToDate s'.service someUpload.remote someFile :=
  (transfers_settle (U := someUpload) (D := someDownload) (f := someFile)
    ⟨marking_lawful, Sys.full_reads, Sys.full_writesAll, by decide, by decide,
      fun stored h => by rw [storedAs_someFile h]; decide⟩
    rfl rfl Sys.full_reads Sys.full_writesAll (by decide) (by decide)
    (fun stored h => by rw [storedAs_someFile h]; decide) rfl
    fun _ _ h => unchanged_of_no_object someFile rfl h).imp fun _ h => h.2.1 (by decide)

end ExtremeS3
