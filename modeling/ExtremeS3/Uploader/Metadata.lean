import ExtremeS3.Uploader.Upload

/-!
# What an upload says of a file, and what is read of it

`file_uploader` sends the time, the size and the mode of a file in `x-amz-meta` headers, with whether
it was compressed. Returned with the length of what is stored, in lines of any order and with other
lines among them, they are read back as they were sent (`metadata_round_trip`); so another
`file_uploader` finds the file unchanged, and uploads nothing.
-/

namespace ExtremeS3

/-- The `x-amz-meta` headers of an upload, and the length of what is stored. -/
def metaHeaders (doCompress : Bool) (mime : Str) (mtime : Int64) (fileSz mode : Int) (length : Nat) :
    HeaderMap :=
  ("Content-Length".toList, intToString length) ::
    (uploadHeaders doCompress mime mtime fileSz mode).filter
      fun h => "x-amz-meta-".toList.isPrefixOf (h.1.map Char.toLower)

/-- The headers of an answer, in their order. -/
theorem metaHeaders_eq (doCompress : Bool) (mime : Str) (mtime : Int64) (fileSz mode : Int) (length : Nat) :
    metaHeaders doCompress mime mtime fileSz mode length =
      [("Content-Length".toList, intToString length),
        ("x-amz-meta-compressed".toList,
          if doCompress then "true".toList else "false".toList),
        ("x-amz-meta-file-mode".toList, intToString mode),
        ("x-amz-meta-last-modified".toList, intToString mtime.toInt),
        ("x-amz-meta-size".toList, intToString fileSz)] := by
  unfold metaHeaders
  rw [uploadHeaders_eq]
  cases doCompress <;> rfl

/-- The names of the headers of an answer, in lower case. -/
theorem metaHeaders_names (doCompress : Bool) (mime : Str) (mtime : Int64) (fileSz mode : Int)
    (length : Nat) : (metaHeaders doCompress mime mtime fileSz mode length).map
      (fun e => e.1.map Char.toLower) =
      ["content-length".toList, "x-amz-meta-compressed".toList, "x-amz-meta-file-mode".toList,
        "x-amz-meta-last-modified".toList, "x-amz-meta-size".toList] := by
  rw [metaHeaders_eq]
  rfl

/-- The headers that are read are among those of an answer. -/
theorem readHeaders_subset : readHeaders ⊆
    ["content-length".toList, "x-amz-meta-compressed".toList, "x-amz-meta-file-mode".toList,
      "x-amz-meta-last-modified".toList, "x-amz-meta-size".toList] := by
  decide

/-- Lines that give these headers give all headers of the upload that are read. -/
theorem AnswerLines.givesStored {doCompress : Bool} {mime : Str} {mtime : Int64} {fileSz mode : Int}
    {length : Nat} {lines : List Str}
    (h : AnswerLines (metaHeaders doCompress mime mtime fileSz mode length) lines) :
    GivesHeaders (storedHeaders doCompress mime mtime fileSz mode length) lines := by
  have hread : ∀ name ∈ readHeaders, ∃ e ∈ metaHeaders doCompress mime mtime fileSz mode length,
      e.1.map Char.toLower = name := by
    intro name hname
    refine List.mem_map.1 ?_
    rw [metaHeaders_names]
    exact readHeaders_subset hname
  have hvalues : ∀ e ∈ metaHeaders doCompress mime mtime fileSz mode length,
      ∀ c ∈ e.2, isTrimmed c = false := by
    rw [metaHeaders_eq]
    intro e he c hc
    simp only [List.mem_cons, List.not_mem_nil, or_false] at he
    rcases he with rfl | rfl | rfl | rfl | rfl
    case inr.inl => exact isTrimmed_flag doCompress c hc
    all_goals exact isTrimmed_intToString (by simpa only using hc)
  refine (h.gives hread hvalues).of_subset ?_ ?_
  · exact List.cons_subset_cons _ (List.filter_subset_self _)
  · intro e he hname
    rcases List.mem_cons.1 he with rfl | he
    · exact List.mem_cons_self
    · refine List.mem_cons_of_mem _ (List.mem_filter.2 ⟨he, ?_⟩)
      -- what else an upload sends is not read
      rw [uploadHeaders_eq] at he
      have hother : "content-encoding".toList ∉ readHeaders ∧ "content-type".toList ∉ readHeaders := by
        decide
      rcases List.mem_append.1 he with he | he
      · cases doCompress
        · cases he
        · rw [List.mem_singleton.1 he] at hname
          exact absurd hname hother.1
      · simp only [List.mem_cons, List.not_mem_nil, or_false] at he
        rcases he with rfl | rfl | rfl | rfl | rfl
        case inl => exact absurd hname hother.2
        all_goals rfl

/-- The lines that return what an upload sent of a file give its time, its sizes, its mode and
whether it is compressed; and then an upload of the file ends without a request. -/
theorem metadata_round_trip {f : FileData} {doCompress : Bool} {mime : Str} {length : Nat}
    {lines : List Str} (hdecision : doCompress → compressionThreshold < f.data.length)
    (hsize : f.data.length < 2 ^ 63) (hlength : length < 2 ^ 63)
    (hplain : doCompress = false → length = f.data.length)
    (hlines : AnswerLines (metaHeaders doCompress mime f.mtime f.data.length
      (UploadJob.permissions f) length) lines) :
    lines.foldl findMtime ⟨0, 0, 0, 0o664, false, false⟩ =
        ⟨f.mtime, f.data.length, length, UploadJob.permissions f, doCompress, false⟩ ∧
      (f.mtime ≠ 0 → ∀ (J : UploadJob) (s : Uploading) (o : UploadAnswer),
        s.fs J.path = some (.file f) → o.lines = lines →
          (J.runFileUploader s o).Evals (.ok (s, []))) := by
  have hmode : UploadJob.permissions f < 2 ^ 32 := Nat.lt_of_le_of_lt Nat.and_le_right (by decide)
  have hread := foldl_findMtime_of_gives hlines.givesStored hsize hmode hlength
  refine ⟨hread, fun hmtime J s o hfile ho => ?_⟩
  have hraw : (findMtimeAndSize o.code lines).rawSize = f.data.length := by
    rw [findMtimeAndSize, hread]
    by_cases h0 : f.data.length = 0
    · -- the size of an empty file is the one of what is stored
      have hempty : doCompress = false := by
        cases doCompress
        · rfl
        · exact absurd (hdecision rfl) (by rw [h0]; decide)
      simp [h0, hplain hempty]
    · simp [h0]
  have htime : (findMtimeAndSize o.code lines).mtime = f.mtime := by
    rw [findMtimeAndSize, hread]
    split <;> rfl
  have hsame : UploadJob.unchanged f (findMtimeAndSize o.code o.lines) := by
    rw [ho, UploadJob.unchanged, hraw, htime]
    simp [hmtime]
  unfold UploadJob.runFileUploader
  simp only [hfile]
  exact Prog.evals_if_pos hsame (Prog.evals_pure _)

/-! ## A small file -/

/-- What a service answers about a small file. -/
def smallAnswer : List Str :=
  ["HTTP/1.1 200 OK\r\n".toList, "X-Amz-Meta-Size: 3\r\n".toList,
    "x-amz-META-file-mode:420 \r\n".toList, "Content-Type: text/plain\r\n".toList,
    "Content-Length: 3\r\n".toList, "X-AMZ-META-COMPRESSED: false\r\n".toList,
    "x-amz-meta-last-modified:\t7\r\n".toList]

/-- The name of a header is what comes before the first colon. -/
theorem NamesHeader.takeWhile {key line : Str} (h : NamesHeader key line) :
    trim ((line.takeWhile (· ≠ ':')).map Char.toLower) = key.map Char.toLower := by
  obtain ⟨name, rest, rfl, hcolon, hname⟩ := h
  have hall : ∀ c ∈ name, decide (c ≠ ':') = true := by
    intro c hc
    exact decide_eq_true fun he => hcolon (he ▸ hc)
  rw [List.takeWhile_append_of_pos hall, List.takeWhile_cons_of_neg (by simp), List.append_nil,
    hname]

/-- The small answer has the lines of its headers. -/
theorem smallAnswer_lines : AnswerLines (metaHeaders false "text/plain".toList someFile.mtime
    someFile.data.length (UploadJob.permissions someFile) 3) smallAnswer := by
  have hgives : ∀ key value name a b : Str, ':' ∉ name →
      trim (name.map Char.toLower) = key.map Char.toLower → a.all isTrimmed → b.all isTrimmed →
      GivesHeader key value (name ++ ':' :: (a ++ value ++ b)) := by
    intro key value name a b hcolon hname ha hb
    exact ⟨_, _, _, rfl, hcolon, hname, List.all_eq_true.1 ha, List.all_eq_true.1 hb⟩
  rw [metaHeaders_eq]
  refine ⟨["Content-Length: 3\r\n".toList, "X-AMZ-META-COMPRESSED: false\r\n".toList,
    "x-amz-META-file-mode:420 \r\n".toList, "x-amz-meta-last-modified:\t7\r\n".toList,
    "X-Amz-Meta-Size: 3\r\n".toList],
    ["HTTP/1.1 200 OK\r\n".toList, "Content-Type: text/plain\r\n".toList], by decide, ?_, ?_⟩
  · refine .cons ?_ (.cons ?_ (.cons ?_ (.cons ?_ (.cons ?_ .nil))))
    · exact hgives _ _ "Content-Length".toList [' '] ['\r', '\n']
        (by decide) (by decide) (by decide) (by decide)
    · exact hgives _ _ "X-AMZ-META-COMPRESSED".toList [' '] ['\r', '\n']
        (by decide) (by decide) (by decide) (by decide)
    · exact hgives _ _ "x-amz-META-file-mode".toList [] [' ', '\r', '\n']
        (by decide) (by decide) (by decide) (by decide)
    · exact hgives _ _ "x-amz-meta-last-modified".toList ['\t'] ['\r', '\n']
        (by decide) (by decide) (by decide) (by decide)
    · exact hgives _ _ "X-Amz-Meta-Size".toList [' '] ['\r', '\n']
        (by decide) (by decide) (by decide) (by decide)
  · intro line hline e he hnames
    have hother : ∀ l ∈ ["HTTP/1.1 200 OK\r\n".toList, "Content-Type: text/plain\r\n".toList],
        ∀ key ∈ readHeaders, trim ((l.takeWhile (· ≠ ':')).map Char.toLower) ≠ key := by
      decide
    refine hother line hline (e.1.map Char.toLower) ?_ hnames.takeWhile
    simp only [List.mem_cons, List.not_mem_nil, or_false] at he
    rcases he with rfl | rfl | rfl | rfl | rfl <;> decide

/-- `metadata_round_trip` for a small file. -/
theorem metadata_round_trip_small :
    smallAnswer.foldl findMtime ⟨0, 0, 0, 0o664, false, false⟩ =
        ⟨7, 3, 3, 0o644, false, false⟩ ∧
      (someFile.mtime ≠ 0 → ∀ (J : UploadJob) (s : Uploading) (o : UploadAnswer),
        s.fs J.path = some (.file someFile) → o.lines = smallAnswer →
          (J.runFileUploader s o).Evals (.ok (s, []))) :=
  metadata_round_trip (fun h => absurd h (by decide)) (by decide) (by decide) (fun _ => rfl)
    smallAnswer_lines

end ExtremeS3
