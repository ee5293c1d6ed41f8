import ExtremeS3.Compressor.Calls
import ExtremeS3.Downloader.Content

/-!
# Writes that take a part of the bytes

A `write` may take fewer bytes than it is asked for. `do_write` goes on where the last one stopped, so
that a segment gets into its place by any of them (`doWrite_eq_ok`). `do_compress` and
`file_decompressor` do not look at the count, and the bytes that were not taken are lost.
`partial_writes_iff` says of all three when their file holds what it should.
-/

namespace ExtremeS3

variable {sys : Sys}

/-! ## The segments of a download -/

/-- Whatever parts the `write`s take, `do_write` writes the whole segment. -/
theorem doWrite_eq_ok {fs fs' : Files} {path : Str} {startOffset n : Nat} {data : Bytes}
    (h : doWrite sys fs path startOffset data n = some (.ok fs')) :
    ∃ f mtime, fs path = some (.file f) ∧ fs' path = some (.file
      ⟨if data = [] then f.data else overwrite f.data startOffset data, mtime, f.mode⟩) := by
  obtain ⟨_, hsome, h⟩ := Prog.bind_eq_ok h
  obtain ⟨f, hf⟩ : ∃ f, fs path = some (.file f) := by
    have := Prog.ensure_eq_ok hsome
    rcases hp : fs path with _ | f | _
    · rw [Files.contents, hp] at this
      cases this
    · exact ⟨f, rfl⟩
    · rw [Files.contents, hp] at this
      cases this
  have hloop : ∃ mtime, fs' path = some (.file ⟨if data.drop 0 = [] then f.data else
      overwrite f.data (startOffset + 0) (data.drop 0), mtime, f.mode⟩) := by
    refine Prog.loop_induction (P := fun (s : Files × Nat) fs' => ∀ f, s.1 path = some (.file f) →
      ∃ mtime, fs' path = some (.file ⟨if data.drop s.2 = [] then f.data else
        overwrite f.data (startOffset + s.2) (data.drop s.2), mtime, f.mode⟩))
      (fun s a ha f hf => ?_) (fun s t a ht ih f hf => ?_) h f hf
    · unfold writeChunk at ha
      dsimp only at ha
      split at ha
      · obtain ⟨_, -, ha⟩ := Prog.bind_eq_ok ha
        cases ha
      · next hlt =>
        cases ha
        refine ⟨f.mtime, ?_⟩
        rw [if_pos (List.drop_of_length_le (by omega)), hf]
    · obtain ⟨hlt, hge, hle, d, mtime, hd, hfs⟩ := writeChunk_eq_ok ht
      cases hf.symm.trans hd
      obtain ⟨mtime', hend⟩ := ih _ (by rw [hfs]; exact Files.set_self ..)
      refine ⟨mtime', hend.trans ?_⟩
      set part := (data.drop s.2).take (t.2 - s.2) with hpart
      have hlen : part.length = t.2 - s.2 := by
        rw [hpart, List.length_take, List.length_drop]
        omega
      have hsplit : data.drop s.2 = part ++ data.drop t.2 := by
        rw [hpart, show data.drop t.2 = (data.drop s.2).drop (t.2 - s.2) by
          rw [List.drop_drop, Nat.add_sub_cancel' hge], List.take_append_drop]
      have hne : data.drop s.2 ≠ [] := fun h => by
        have := congrArg List.length h
        rw [List.length_drop, List.length_nil] at this
        omega
      rw [if_neg hne]
      split
      · next hnil => rw [hsplit, hnil, List.append_nil]
      · rw [hsplit, ← overwrite_overwrite, hlen, Nat.add_assoc, Nat.add_sub_cancel' hge]
  obtain ⟨mtime, hm⟩ := hloop
  rw [List.drop_zero, Nat.add_zero] at hm
  exact ⟨f, mtime, hf, hm⟩

/-! ## All three -/

/-- What `do_compress` and `file_decompressor` leave when they return is what `deflate` and `inflate`
put out, and the size that is reported is the length of the file, just if each `write` took all that
it was given. What `do_write` leaves is the segment in its place, whatever the `write`s took. -/
theorem partial_writes_iff (z : Zlib) (sys : Sys) (fs fs' : Files) (n : Nat) :
    (∀ path tmp offset size reported, fs tmp = none →
      doCompress z sys fs path tmp offset size n = some (.ok (fs', reported)) →
      ∃ data outs, fs.contents path = some data ∧ z.Deflated sys path data offset size outs ∧
        ((fs'.contents tmp = some outs.flatten ∧
          ∃ bytes, fs'.contents tmp = some bytes ∧ reported = bytes.length) ↔
            sys.TakesAll tmp 0 outs)) ∧
    (∀ source result tmp mtime mode, fs tmp = none → result ≠ tmp →
      fileDecompressor z sys fs source result tmp mtime mode n = some (.ok fs') →
      ∃ data outs, fs.contents source = some data ∧ z.Inflated sys source data outs ∧
        (fs'.contents result = some outs.flatten ↔ sys.TakesAll tmp 0 outs)) ∧
    (∀ path startOffset data, doWrite sys fs path startOffset data n = some (.ok fs') →
      ∃ bytes, fs.contents path = some bytes ∧ fs'.contents path = some
        (if data = [] then bytes else overwrite bytes startOffset data)) := by
  refine ⟨fun path tmp offset size reported htmp h => ?_,
    fun source result tmp mtime mode htmp hne h => ?_, fun path startOffset data h => ?_⟩
  · obtain ⟨data, outs, hdata, houts, htaken, hreported⟩ := doCompress_eq_ok htmp h
    refine ⟨data, outs, hdata, houts, ?_⟩
    rw [htaken, Option.some_inj, ← Sys.appendAll_iff]
    refine ⟨fun h => h.1, fun h => ⟨h, _, rfl, ?_⟩⟩
    rw [h, hreported]
  · obtain ⟨data, outs, hdata, houts, hresult⟩ := fileDecompressor_writes htmp hne h
    refine ⟨data, outs, hdata, houts, ?_⟩
    rw [Files.contents, hresult, Option.some_inj, ← Sys.appendAll_iff]
  · obtain ⟨f, mtime, hf, hf'⟩ := doWrite_eq_ok h
    exact ⟨f.data, by rw [Files.contents, hf], by rw [Files.contents, hf']⟩

/-- `partial_writes_iff` for a block of one byte, which makes a member of three bytes. -/
theorem partial_writes_iff_byte : ∃ fs' : Files, fs'.contents "/t".toList = some [1, 5, 0] ∧
    ∃ outs, fs'.contents "/t".toList = some outs.flatten ∧
      Sys.full.TakesAll "/t".toList 0 outs := by
  obtain ⟨fs', hrun, hfs'⟩ : ∃ fs', doCompress marking .full (onlyFile "/f".toList [5]) "/f".toList
      "/t".toList 0 1 3 = some (.ok (fs', 3)) ∧ fs'.contents "/t".toList = some [1, 5, 0] :=
    ⟨_, rfl, rfl⟩
  obtain ⟨data, outs, -, -, hiff⟩ := (partial_writes_iff marking .full _ fs' 3).1 _ _ 0 1 3 rfl hrun
  have htakes := Sys.takesAll_of_writesAll Sys.full_writesAll "/t".toList 0 outs
  exact ⟨fs', hfs', outs, (hiff.2 htakes).1, htakes⟩

/-- A system that writes one byte at a time. -/
def oneByteWrites : Sys := ⟨fun _ _ size => size, fun _ _ size => min 1 size, 0⟩

/-- It leaves one byte of the member and has three reported. -/
theorem partial_writes_lose : ¬ ∀ (z : Zlib) (sys : Sys) (fs fs' : Files) (path tmp : Str)
    (offset size reported n : Nat),
    (∀ path offset size, 0 < size →
      0 < sys.writeCount path offset size ∧ sys.writeCount path offset size ≤ size) →
    fs tmp = none → doCompress z sys fs path tmp offset size n = some (.ok (fs', reported)) →
    ∃ bytes, fs'.contents tmp = some bytes ∧ reported = bytes.length := by
  intro h
  obtain ⟨fs', hrun, hfs'⟩ : ∃ fs', doCompress marking oneByteWrites (onlyFile "/f".toList [5])
      "/f".toList "/t".toList 0 1 3 = some (.ok (fs', 3)) ∧ fs'.contents "/t".toList = some [1] :=
    ⟨_, rfl, rfl⟩
  obtain ⟨bytes, hbytes, hlen⟩ := h marking oneByteWrites _ fs' _ _ 0 1 3 3
    (fun _ _ size hsize => ⟨Nat.lt_min.2 ⟨Nat.one_pos, hsize⟩, Nat.min_le_right ..⟩) rfl hrun
  rw [hfs'] at hbytes
  cases hbytes
  cases hlen

end ExtremeS3
