import ExtremeS3.Downloader.ScratchFiles
import ExtremeS3.Uploader.ScratchFiles

/-!
# No temporary file is left

A file that a `compress_task` creates has no owner but the task until its name is in the
`scattered_files`, so that it is left there if the task throws before (`scratch_file_left`). In a run
without that, whatever else fails, no temporary file of an upload or a download is there when all tasks
have ended and are destroyed (`no_scratch_file_left`).
-/

namespace ExtremeS3

/-! ## A file of two blocks -/

/-- Two segments are few enough. -/
theorem two_segments_lt : 2 < 2 ^ 64 := by decide

/-- An upload with two processors. -/
def twoBlocks : UploadJob where
  lim := ⟨1, 2, 1, 2, Nat.one_pos, Nat.two_pos, Nat.one_pos, two_segments_lt⟩
  segmentSize := 1024
  sys := .full
  zlib := marking
  etag := fun _ => "etag"
  findMime := fun _ => []
  scratchDir := "/tmp".toList
  doCompression := true
  path := "/f".toList
  remote := ⟨"s3".toList, "b".toList, "/f".toList⟩

/-- A file that is compressed. -/
def largeFile : FileData := ⟨List.replicate 10000002 0, 0, 0o644⟩

/-- The file alone. -/
def largeFiles : Files := fun q => if q = twoBlocks.path then some (.file largeFile) else none

/-- The temporary file of the first block. -/
def firstBlock : Str := twoBlocks.scratchName []

/-- The file with what is written of the first block. -/
def firstFiles (data : Bytes) : Files := largeFiles.set firstBlock (some (.file ⟨data, 0, 0o600⟩))

/-- The upload with the tasks of the blocks. -/
def blocksRun (fs : Files) (c : FileCompressor) (tasks : List CompressTask) (destroyed : Bool) :
    Scattering :=
  ⟨fs, .ended false, some (.ended false), [⟨0, 0, 5000001⟩, ⟨1, 5000001, 5000001⟩], some c, none,
    tasks, [], destroyed⟩

/-- The large file has 10000002 bytes. -/
theorem largeFile_length : largeFile.data.length = 10000002 := List.length_replicate

/-- The large file is compressed. -/
theorem compresses_largeFile : twoBlocks.compresses largeFile = true := by
  have hmagic : ∀ i < 4, largeFile.data[i]?.getD 0 = 0 := by
    intro i hi
    rw [largeFile, List.getElem?_replicate, if_pos (by omega)]
    rfl
  simp only [UploadJob.compresses, shouldCompress, largeFile_length, hmagic 0 (by decide)]
  decide

/-- The large file is compressed in two blocks. -/
theorem blocks_largeFile : (fileCompressor (twoBlocks.lim.getCapability .cpuBound) 10000002).Evals
    (.ok [⟨0, 0, 5000001⟩, ⟨1, 5000001, 5000001⟩]) :=
  (Prog.evals_ensure (by decide) _).bind ((Prog.evals_ensure (by decide) _).bind
    (Prog.evals_pure _))

/-- The large file is at its path. -/
theorem file_largeFile : largeFiles twoBlocks.path = some (.file largeFile) := if_pos rfl

/-- The large file has its bytes. -/
theorem contents_largeFile : largeFiles.contents twoBlocks.path = some largeFile.data := by
  rw [Files.contents, file_largeFile]

/-- The large file can be read. -/
theorem isSome_largeFile : (largeFiles.contents twoBlocks.path).isSome := by
  rw [contents_largeFile]
  rfl

/-- The scratch file of the first block is created. -/
theorem create_firstBlock : (largeFiles.create .full firstBlock 0o600).Evals (.ok (firstFiles [])) :=
  Files.evals_create rfl .full _

/-- The run to where the temporary file of the first block is created. -/
theorem run_firstBlock : twoBlocks.tidyMachine.Run (UploadJob.startScattering largeFiles)
    [.uploader none, .compressor none, .scheduled, .scheduled, .created 0 firstBlock]
    (blocksRun (firstFiles []) (.start 2) [.compressing firstBlock, .waiting] false) := by
  have hblocks : (fileCompressor (twoBlocks.lim.getCapability .cpuBound)
      largeFile.data.length).Evals (.ok [⟨0, 0, 5000001⟩, ⟨1, 5000001, 5000001⟩]) := by
    rw [largeFile_length]
    exact blocks_largeFile
  exact .cons ⟨id, @UploadJob.ScatterStep.compresses twoBlocks (UploadJob.startScattering largeFiles)
      0 largeFile ⟨0, 0, 0, 0, false, false⟩ rfl file_largeFile rfl compresses_largeFile⟩ <|
    .cons ⟨id, .planned rfl contents_largeFile hblocks⟩ <|
    .cons ⟨id, .scheduled (by decide)⟩ <|
    .cons ⟨id, .scheduled (by decide)⟩ <|
    .single ⟨id, @UploadJob.ScatterStep.created twoBlocks _ 0 [] _ .full rfl isSome_largeFile
      create_firstBlock⟩

/-- A run is over once both of its blocks are. -/
theorem ended_blocksRun (fs : Files) (c : FileCompressor) {t t' : CompressTask} (destroyed : Bool)
    (ht : ∃ fail, t = .ended fail) (ht' : ∃ fail, t' = .ended fail) :
    (blocksRun fs c [t, t'] destroyed).Ended where
  uploader := ⟨false, rfl⟩
  compressor f hf := by cases hf
  scheduled := rfl
  tasks t₀ ht₀ := by
    rcases List.mem_cons.1 ht₀ with rfl | ht₀
    · exact ht
    · rw [List.mem_singleton.1 ht₀]
      exact ht'
  pumps p hp := by cases hp

/-- The end of a run whose second block cannot be opened. -/
theorem run_end (fs : Files) (c : FileCompressor) (fail : Bool) :
    twoBlocks.tidyMachine.Run (blocksRun fs c [.ended fail, .waiting] false)
      [.notCreated 1 .other, .destroyed]
      (blocksRun (ScatteredFiles.destroy ⟨c.files, c.sizes⟩ true fs) c [.ended fail, .ended true]
        true) :=
  .cons ⟨id, .notCreated .other rfl rfl⟩ <|
  .single ⟨id, .destroyed (ended_blocksRun _ _ _ ⟨fail, rfl⟩ ⟨true, rfl⟩) rfl⟩

/-- A run in which the first block is compressed. -/
theorem exists_run_recorded : ∃ ls s, twoBlocks.tidyMachine.Run
    (UploadJob.startScattering largeFiles) ls s ∧ s.Over ∧ scratchFiles ls = [firstBlock] := by
  have htmp : largeFiles firstBlock = none := rfl
  have hsize : 0 + 5000001 ≤ largeFile.data.length := by
    rw [largeFile_length]
    decide
  obtain ⟨m, -, hm⟩ := doCompress_spec marking_lawful Sys.full_reads Sys.full_writesAll
    contents_largeFile htmp hsize
  rw [← doCompress_create isSome_largeFile create_firstBlock] at hm
  have hcompressed : twoBlocks.ScatterStep _ (.compressed 0) (blocksRun (firstFiles m) (.start 2)
      [.compressed firstBlock m.length, .waiting] false) :=
    @UploadJob.ScatterStep.compressed twoBlocks (blocksRun _ (.start 2)
      [.compressing firstBlock, .waiting] false) 0 m.length firstBlock ⟨0, 0, 5000001⟩ _ .full rfl
      rfl hm
  have hrecorded : twoBlocks.ScatterStep _ (.recorded 0) (blocksRun (firstFiles m)
      ⟨1, [firstBlock, []], [m.length, 0], [.recorded, .compressing], []⟩ [.recorded, .waiting]
      false) :=
    @UploadJob.ScatterStep.recorded twoBlocks (blocksRun (firstFiles m) (.start 2)
      [.compressed firstBlock m.length, .waiting] false) 0 m.length firstBlock ⟨0, 0, 5000001⟩ _ _
      rfl rfl rfl rfl
  have htested : twoBlocks.ScatterStep _ (.tested 0 none) (blocksRun (firstFiles m)
      ⟨1, [firstBlock, []], [m.length, 0], [.returned, .compressing], []⟩ [.ended false, .waiting]
      false) :=
    @UploadJob.ScatterStep.tested twoBlocks (blocksRun (firstFiles m)
      ⟨1, [firstBlock, []], [m.length, 0], [.recorded, .compressing], []⟩ [.recorded, .waiting]
      false) 0 ⟨0, 0, 5000001⟩ _ _ rfl rfl rfl rfl rfl
  have hrun := run_firstBlock.append <| .cons ⟨id, hcompressed⟩ <| .cons ⟨id, hrecorded⟩ <|
    .cons ⟨id, htested⟩ <| run_end (firstFiles m) _ false
  exact ⟨_, _, hrun, ⟨ended_blocksRun _ _ true ⟨false, rfl⟩ ⟨true, rfl⟩, rfl⟩, rfl⟩

/-- A run in which the first block is abandoned: its temporary file is not in the
`scattered_files`. -/
theorem exists_run_abandoned : ∃ ls s, twoBlocks.scatterMachine.Run
    (UploadJob.startScattering largeFiles) ls s ∧ s.Over ∧ firstBlock ∈ scratchFiles ls ∧
      s.fs firstBlock ≠ none := by
  have habandoned : twoBlocks.ScatterStep
      (blocksRun (firstFiles []) (.start 2) [.compressing firstBlock, .waiting] false)
      (.notCompressed 0 .other)
      (blocksRun (firstFiles []) (.start 2) [.ended true, .waiting] false) := by
    have hupdate := Files.evals_update (Files.set_self largeFiles firstBlock
      (some (.file ⟨[], 0, 0o600⟩))) id
    rw [Files.set_set] at hupdate
    exact @UploadJob.ScatterStep.notCompressed twoBlocks (blocksRun (firstFiles []) (.start 2)
      [.compressing firstBlock, .waiting] false) 0 firstBlock _ .other id rfl rfl hupdate
  have hrun := run_firstBlock.of_restrict.append <| .cons habandoned <|
    (run_end (firstFiles []) (.start 2) true).of_restrict
  refine ⟨_, _, hrun, ⟨ended_blocksRun _ _ true ⟨true, rfl⟩ ⟨true, rfl⟩, rfl⟩, ?_, ?_⟩
  · exact List.mem_singleton.2 rfl
  · show firstFiles [] firstBlock ≠ none
    rw [firstFiles, Files.set_self]
    exact fun h => by cases h

/-- A run that downloads one byte. -/
theorem exists_run_oneByte : ∃ ls s,
    (DownloadJob.oneByte.scratchMachine DownloadJob.oneByteService).Run
      (DownloadJob.startAssembly DownloadJob.noFiles) ls s ∧ s.Over ∧
        scratchNames ls = [DownloadJob.oneByteFile] := by
  have hrun : (DownloadJob.oneByte.scratchMachine DownloadJob.oneByteService).Run
      (DownloadJob.startAssembly DownloadJob.noFiles)
      [.created DownloadJob.oneByteFile, .task .scheduled, .task (.downloaded 0 none),
        .task (.opened 0), .task (.wrote 0 0 [7]),
        .task (.replaced 0 (some [7]) (some (.file ⟨[7], 5, 0o644⟩))), .task .destroyed] _ :=
    .cons (.created (DownloadJob.oneByte_created false) rfl) <|
    .cons (.task (.scheduled rfl Nat.zero_lt_one) id) <|
    .cons (.task (.segment rfl rfl (DownloadJob.oneByte_downloaded false)) id) <|
    .cons (.task (.segment rfl rfl (.opened rfl rfl)) id) <|
    .cons (.task (.segment rfl rfl (DownloadJob.oneByte_wrote false)) id) <|
    .cons (.task (.segment rfl rfl (DownloadJob.oneByte_replaced false)) id) <|
    .single (.task (.destroyed rfl rfl
      (fun t ht => by rw [List.mem_singleton.1 ht]; trivial) rfl) id)
  exact ⟨_, _, hrun, ⟨DownloadJob.ended_of_segment _ rfl _ _, fun _ => rfl, (fun d hd => by cases hd)⟩,
    rfl⟩

/-! ## No temporary file is left -/

/-- If no `compress_task` throws after its temporary file was created, no temporary file of an upload is
left when all tasks have ended and are destroyed; and none of a download is. -/
theorem no_scratch_file_left (J : UploadJob) (D : DownloadJob) (service : Service) (fs₀ : Files) :
    (∀ (ls : List ScatterLabel) (s : Scattering),
      J.tidyMachine.Run (UploadJob.startScattering fs₀) ls s → s.Over →
        ∀ r ∈ scratchFiles ls, s.fs r = none) ∧
    ∀ (ls : List ScratchLabel) (s : Assembly),
      (D.scratchMachine service).Run (DownloadJob.startAssembly fs₀) ls s → s.Over →
        ∀ r ∈ scratchNames ls, s.fs r = none :=
  ⟨fun _ _ h hover => UploadJob.scratchFiles_gone h hover,
    fun _ _ h hover => DownloadJob.scratchNames_gone h hover⟩

/-- `no_scratch_file_left` for the runs above. -/
theorem no_scratch_file_left_runs :
    (∃ ls s, twoBlocks.tidyMachine.Run (UploadJob.startScattering largeFiles) ls s ∧
      scratchFiles ls = [firstBlock] ∧ s.fs firstBlock = none) ∧
    ∃ ls s, (DownloadJob.oneByte.scratchMachine DownloadJob.oneByteService).Run
      (DownloadJob.startAssembly DownloadJob.noFiles) ls s ∧
        scratchNames ls = [DownloadJob.oneByteFile] ∧ s.fs DownloadJob.oneByteFile = none := by
  obtain ⟨ls, s, h, hover, hls⟩ := exists_run_recorded
  obtain ⟨ks, t, h', hover', hks⟩ := exists_run_oneByte
  have hupload := (no_scratch_file_left twoBlocks DownloadJob.oneByte DownloadJob.oneByteService
    largeFiles).1
  have hdownload := (no_scratch_file_left twoBlocks DownloadJob.oneByte DownloadJob.oneByteService
    DownloadJob.noFiles).2
  refine ⟨⟨ls, s, h, hls, hupload ls s h hover firstBlock ?_⟩,
    ks, t, h', hks, hdownload ks t h' hover' DownloadJob.oneByteFile ?_⟩
  · rw [hls]
    exact List.mem_singleton.2 rfl
  · rw [hks]
    exact List.mem_singleton.2 rfl

/-- The temporary file of a block is left where its task throws. -/
theorem scratch_file_left : ¬
    ∀ (J : UploadJob) (D : DownloadJob) (service : Service) (fs₀ : Files),
      (∀ (ls : List ScatterLabel) (s : Scattering),
        J.scatterMachine.Run (UploadJob.startScattering fs₀) ls s → s.Over →
          ∀ r ∈ scratchFiles ls, s.fs r = none) ∧
      ∀ (ls : List ScratchLabel) (s : Assembly),
        (D.scratchMachine service).Run (DownloadJob.startAssembly fs₀) ls s → s.Over →
          ∀ r ∈ scratchNames ls, s.fs r = none := by
  intro h
  obtain ⟨ls, s, hrun, hover, hmem, hleft⟩ := exists_run_abandoned
  have hgone := (h twoBlocks DownloadJob.oneByte DownloadJob.oneByteService largeFiles).1
  exact hleft (hgone ls s hrun hover firstBlock hmem)

end ExtremeS3
