import ExtremeS3.Agenda.Accounting
import ExtremeS3.Downloader.DownloadCompletes
import ExtremeS3.Uploader.UploadCompletes

/-!
# From the uploader to the downloader

A download restores the file that an upload was of, with the bytes, the modification time and the
permissions, for any two segment sizes (`upload_download_restores`). Of what an upload accepts, a
download with the same segment size rejects what takes exactly one segment more than its own limit
(`download_accepts_iff`).
-/

namespace ExtremeS3

/-! ## What is restored -/

/-- An object that is not there does not look unchanged. -/
theorem unchanged_of_no_object {service : Service} {remote : S3Path} (f : FileData)
    (h : service.objects remote = none) {code : Nat} {lines : List Str}
    (hhead : service.AnswersHead remote code lines) :
    UploadJob.unchanged f (findMtimeAndSize code lines) = false := by
  rw [Service.AnswersHead, h] at hhead
  have hmtime : (lines.foldl findMtime ⟨0, 0, 0, 0o664, false, false⟩).mtime = 0 :=
    foldl_eq_of_keep FileDesc.mtime (fun line hline => .inl fun info => by
      rw [findMtime, hhead.2 line hline]
      rfl) rfl
  have : (findMtimeAndSize code lines).mtime = 0 := by
    rw [findMtimeAndSize]
    split <;> exact hmtime
  rw [UploadJob.unchanged, this]
  rfl

/-- The file as a download restores it. -/
def FileData.permitted (f : FileData) : FileData := { f with mode := f.mode &&& 0o777 }

/-- An object that was uploaded from a file is one that the file is restored from. -/
theorem UploadJob.Ok.from {U : UploadJob} {f : FileData} (hU : U.Ok f) {stored : Bytes}
    (h : U.StoredAs f stored) : Object.From U.zlib ⟨U.headers f, stored⟩ f.permitted := by
  refine ⟨U.compresses f, U.findMime (extension (filename U.path)), rfl, ?_⟩
  split
  · next hc => exact h.inflating hU hc
  · next hc =>
    rw [UploadJob.StoredAs, if_neg hc] at h
    exact h

/-- An upload of a file completes, and the download of what it stored to a path where no file is
completes as well and leaves the file there, in whatever order the tasks run. -/
theorem upload_download_restores {U : UploadJob} {D : DownloadJob} {f : FileData} (hU : U.Ok f)
    (hremote : D.remote = U.remote) (hzlib : D.zlib = U.zlib)
    (hreads : D.sys.Reads) (hwrites : D.sys.WritesAll) (hsegment : 0 < D.segmentSize)
    (hsize : f.data.length < 2 ^ 63)
    (hfits : ∀ stored, U.StoredAs f stored →
      stored.length ≤ maxSegments * D.segmentSize ∧ stored.length < 2 ^ 63)
    {s : Uploading} (hfile : s.fs U.path = some (.file f))
    (hchanged : ∀ code lines, s.service.AnswersHead U.remote code lines →
      UploadJob.unchanged f (findMtimeAndSize code lines) = false) :
    U.tasks.Completes (s, [.fileUploader]) fun s' => ∀ t : Downloading, t.service = s'.service →
      t.fs D.path = none → D.tasks.Completes (t, [.fileDownloader]) fun t' =>
        t'.fs D.path = some (.file ⟨f.data, f.mtime, f.mode &&& 0o777⟩) := by
  refine (upload_completes hU hfile hchanged).imp fun s' ⟨stored, hstored, hobject⟩ t ht hpath => ?_
  have hmode : f.mode &&& 0o777 < 2 ^ 32 :=
    Nat.lt_of_le_of_lt Nat.and_le_right (by decide)
  have hD : D.Ok ⟨U.headers f, stored⟩ f.permitted :=
    ⟨hreads, hwrites, hsegment, (hfits stored hstored).1, hsize, (hfits stored hstored).2, hmode⟩
  have hfrom : Object.From D.zlib ⟨U.headers f, stored⟩ f.permitted := hzlib ▸ hU.from hstored
  refine (download_completes hD hfrom hpath (by rw [ht, hremote]; exact hobject)).imp
    fun t' ht' => ?_
  rw [ht', Files.set_self]
  rfl

/-! ### A file that is not compressed -/

/-- An upload with segments of two bytes. -/
def someUpload : UploadJob where
  lim := smallLimits
  segmentSize := 2
  sys := .full
  zlib := marking
  etag _ := ""
  findMime _ := "text/plain".toList
  scratchDir := "/tmp".toList
  doCompression := true
  path := "/l/f".toList
  remote := ⟨"s3".toList, "b".toList, "/f".toList⟩

/-- The file before the upload, and nothing on the service. -/
def beforeUpload : Uploading where
  fs := Files.set (fun _ => none) someUpload.path (some (.file someFile))
  service := ⟨fun _ => none, fun _ => none⟩
  uploadId := ""
  content := ⟨0, 0, []⟩
  compressor := .start 0

/-- The stored bytes are those of the file, if it is not compressed. -/
theorem storedAs_someFile {stored : Bytes} (h : someUpload.StoredAs someFile stored) :
    stored = someFile.data := by
  rwa [UploadJob.StoredAs, if_neg (by decide)] at h

/-- `upload_download_restores` for a small file, with segments of different sizes. -/
theorem upload_download_restores_small :
    someUpload.tasks.Completes (beforeUpload, [.fileUploader]) fun s' => ∀ t : Downloading,
      t.service = s'.service → t.fs someDownload.path = none →
        someDownload.tasks.Completes (t, [.fileDownloader]) fun t' =>
          t'.fs someDownload.path = some (.file ⟨[10, 20, 30], 7, 0o644⟩) :=
  upload_download_restores (f := someFile)
    ⟨marking_lawful, Sys.full_reads, Sys.full_writesAll, by decide, by decide,
      fun stored h => by rw [storedAs_someFile h]; decide⟩
    rfl rfl Sys.full_reads Sys.full_writesAll (by decide) (by decide)
    (fun stored h => by rw [storedAs_someFile h]; decide) rfl
    fun _ _ h => unchanged_of_no_object someFile rfl h

/-! ## What is accepted -/

/-- What an upload accepts, a download with the same segment size accepts, except what takes just as
many segments as an upload may have. -/
theorem download_accepts_iff (lim : AgendaLimits) {segmentSize : Nat} (h : 0 < segmentSize)
    (files : ScatteredFiles) :
    (¬ (startUpload lim segmentSize files).Evals (.error .tooBig) →
      ¬ (segmentNumber segmentSize files.sizes.sum).Evals (.error .tooManySegments)) ↔
    ¬ (maxSegments * segmentSize < files.sizes.sum ∧
      files.sizes.sum ≤ maxPartNum * segmentSize) := by
  rw [startUpload_tooBig_iff lim h, segmentNumber_tooManySegments_iff h]
  omega

/-- `download_accepts_iff` for one byte. -/
theorem download_accepts_iff_one : ¬ (segmentNumber 1 1).Evals (.error .tooManySegments) :=
  (download_accepts_iff someUpload.lim (by decide) ⟨["/f".toList], [1]⟩).2 (by decide) (by
    rw [startUpload_tooBig_iff _ (by decide)]
    decide)

/-- An upload of 10000 segments is accepted, and a download of what it stores is not. -/
theorem download_rejects_upload :
    ¬ (startUpload someUpload.lim 6291456 ⟨["/f".toList], [62914560000]⟩).Evals
        (.error .tooBig) ∧
      (segmentNumber 6291456 62914560000).Evals (.error .tooManySegments) := by
  rw [startUpload_tooBig_iff _ (by decide), segmentNumber_tooManySegments_iff (by decide)]
  decide

end ExtremeS3
