import ExtremeS3.Sync.Deletions
import ExtremeS3.Sync.Listing

/-!
# Which downloads delete only what the bucket does not have

`create_schedule` plans a download from the listings that were made, whether their tasks failed or
not. So a local entry is deleted where the failure of a listing lost the name of an object:
`download_deletes_missing_iff` says for which failures none is. The tree that is planned from is
that of the merged listings, directory by directory (`dirAt_mergeRemotes`), and the condition
(`ListingSuffices`) is about the names that the listings delivered.
-/

namespace ExtremeS3

/-- No object asked for is at or below the local path. -/
def Missing (remotes : List Remote) (root file : Str) : Prop :=
  ∀ p, (∀ n ∈ p, NameOk n) → file = joinAll root p → ∀ r ∈ remotes, ¬ r.Has p

/-- An object or a directory of its name takes the place of the local path. -/
def Replaced (tree : S3Dir) (root file : Str) : Prop :=
  ∃ p n d, (∀ m ∈ p ++ [n], NameOk m) ∧ tree.dirAt p = some d ∧ n ∈ d.names ∧
    file = joinAll root (p ++ [n])

/-- The action deletes only local paths that are missing in the bucket or replaced. -/
def Action.DeletesMissing (remotes : List Remote) (tree : S3Dir) (root : Str) : Action → Prop
  | .schedule (.localFileDeleter file) => Missing remotes root file ∨ Replaced tree root file
  | .schedule (.fileUploader ..) | .schedule (.remoteFileDeleter _)
  | .schedule (.fileDownloader ..) | .mkdir _ => True

/-- In every local directory that some listing reached, the names of the entries at or below which
there is an object were delivered. -/
def ListingSuffices (remotes : List Remote) (locals : LocalDir) : Prop :=
  ∀ p l n, locals.dirAt p = some l → n ∈ l.names → (∃ r ∈ remotes, r.Reaches p) →
    (∃ r ∈ remotes, r.Has (p ++ [n])) → ∃ r ∈ remotes, r.Delivers p n

section

variable {remotes : List Remote} {locals : LocalDir} {tree : S3Dir} {root : Str}

/-- The directories and the names of the tree that a download is planned from. -/
theorem dirAt_mergeRemotes
    (htree : mergeRemotes none (remotes.map Remote.listing) = .ok (some tree)) {p : List Str}
    (hp : ∀ n ∈ p, NameOk n) :
    ((tree.dirAt p).isSome ↔ ∃ r ∈ remotes, r.Reaches p) ∧
      ∀ d, tree.dirAt p = some d → ∀ n, NameOk n → (n ∈ d.names ↔ ∃ r ∈ remotes, r.Delivers p n) := by
  have hlists : ∀ d ∈ remotes.map Remote.listing, d.Everywhere Dir.Sorted := fun d hd => by
    obtain ⟨r, -, rfl⟩ := List.mem_map.1 hd
    exact r.sorted_listing
  obtain ⟨-, hat⟩ := mergeRemotes_ok (by simp) hlists htree
  simp only [Option.mem_def, Option.some.injEq, exists_eq_left', reduceCtorEq, false_and,
    exists_false, false_or, List.mem_map, exists_exists_and_eq_and] at hat
  refine ⟨?_, fun d hd n hn => ?_⟩
  · rw [(hat p).2]
    exact exists_congr fun r => and_congr_right fun _ => (r.listing_dirAt hp).1
  · have hfile : (tree.fileAt (p ++ [n])).isSome ↔ (findKey n d.files).isSome := by
      rw [Dir.fileAt_concat, hd]
      exact Iff.rfl
    have hdir : (tree.dirAt (p ++ [n])).isSome ↔ (findKey n d.subdirs).isSome := by
      rw [Dir.dirAt_concat, hd]
      exact Iff.rfl
    rw [Dir.mem_names, ← hfile, ← hdir, (hat _).1, (hat _).2, ← exists_or]
    refine exists_congr fun r => ?_
    rw [← and_or_left]
    exact and_congr_right fun _ => (r.listing_dirAt hp).2 n hn

end

/-- A download deletes only what the bucket does not have, or what it replaces, if it is without
`delete_missing` or the listings delivered the names that matter. Only then does a download that
runs to its end; and they did if no listing failed. -/
theorem download_deletes_missing_iff {sync : Sync} {locals : LocalDir} {remotes : List Remote}
    {tree : S3Dir} {root : Str} (hl : locals.IsLocal root)
    (htree : mergeRemotes none (remotes.map Remote.listing) = .ok (some tree)) :
    ((sync.deleteMissing → ListingSuffices remotes locals) →
      ∀ a ∈ (processDownloads sync (some locals) root tree).actions,
        a.DeletesMissing remotes tree root) ∧
    ((processDownloads sync (some locals) root tree).failed = false →
      (∀ a ∈ (processDownloads sync (some locals) root tree).actions,
        a.DeletesMissing remotes tree root) →
      sync.deleteMissing → ListingSuffices remotes locals) ∧
    ((∀ r ∈ remotes, ∀ pre, r.faults.part pre = none) → ListingSuffices remotes locals) := by
  have hr : tree.Everywhere Dir.Sorted := (mergeRemotes_ok (by simp) (fun d hd => by
    obtain ⟨r, -, rfl⟩ := List.mem_map.1 hd
    exact r.sorted_listing) htree).1 tree rfl
  have hnames : ∀ {p l n}, locals.dirAt p = some l → n ∈ l.names → ∀ m ∈ p ++ [n], NameOk m :=
    fun hlp hn => hl.nameOk hlp (Dir.mem_names.1 hn)
  refine ⟨fun h a ha => ?_, fun hf h hd p l n hlp hn hreach hhas => ?_,
    fun hno p l n _ _ _ ⟨r, hrm, hhas⟩ => ⟨r, hrm, r.delivers_of_has (hno r hrm) hhas⟩⟩
  · match a with
    | .schedule (.localFileDeleter file) =>
      obtain ⟨hd, p, n, l, r, hlp, hrp, hn, hnr, rfl⟩ := local_deletes_of_mem hl hr ha
      have hok := hnames hlp hn
      have hokp : ∀ m ∈ p, NameOk m := fun m hm => hok m (List.mem_append_left _ hm)
      obtain ⟨hdir, hdeliver⟩ := dirAt_mergeRemotes htree hokp
      refine .inl fun q hokq he r' hr' hhas => hnr ?_
      rw [← joinAll_injective hok hokq he] at hhas
      refine (hdeliver r hrp n (hok n (List.mem_append_right _ List.mem_cons_self))).2 ?_
      exact h hd p l n hlp hn (hdir.1 (by rw [hrp]; rfl)) ⟨r', hr', hhas⟩
    | .schedule (.fileUploader ..) | .schedule (.remoteFileDeleter _)
    | .schedule (.fileDownloader ..) | .mkdir _ => trivial
  · have hok := hnames hlp hn
    have hokp : ∀ m ∈ p, NameOk m := fun m hm => hok m (List.mem_append_left _ hm)
    obtain ⟨hdir, hdeliver⟩ := dirAt_mergeRemotes htree hokp
    obtain ⟨r, hrp⟩ := Option.isSome_iff_exists.1 (hdir.2 hreach)
    by_contra hno
    have hnr : n ∉ r.names := fun hnr =>
      hno ((hdeliver r hrp n (hok n (List.mem_append_right _ List.mem_cons_self))).1 hnr)
    have hmem := (local_deletes_iff hl hr hf).2 ⟨hd, p, n, l, r, hlp, hrp, hn, hnr, rfl⟩
    rcases h _ hmem with hmiss | ⟨q, k, d, hokq, hdq, hk, he⟩
    · obtain ⟨r, hrm, hhas⟩ := hhas
      exact hmiss (p ++ [n]) hok rfl r hrm hhas
    · -- the target has one relative path
      obtain ⟨rfl, hkn⟩ := List.append_inj' (joinAll_injective hok hokq he) rfl
      cases hkn
      rw [hrp] at hdq
      cases hdq
      exact hnr hk

/-- A bucket with the one object `d/s`; the tasks that fail do so before they deliver anything. -/
def remoteFailing (fails : Str → Bool) : Remote where
  path := ⟨[], "b".toList, "/".toList⟩
  bucket := .ofKeys ["d/s".toList]
  faults :=
    { part := fun pre => if fails pre then some [] else none
      subset := fun {pre items} h => by
        split at h
        · cases h; exact List.nil_subset _
        · cases h }
  absolute := rfl

/-- The local tree with the file of that object. -/
def localsWithFile : LocalDir :=
  checkEntries "/".toList (emptyDir "/l".toList) "/l".toList
    [("d".toList, .directory [("s".toList, .regular)])]

/-- The tree with one file is that of a directory with the file. -/
theorem isLocal_localsWithFile : localsWithFile.IsLocal "/l".toList := by
  refine isLocal_checkEntries rfl (Entry.ok_directory (by simp) ?_ ?_)
  · simp only [List.map_cons, List.map_nil, List.mem_singleton, forall_eq]
    exact ⟨by decide, by decide⟩
  · simp only [List.mem_singleton, forall_eq]
    refine Entry.ok_directory (by simp) ?_ ?_
    · simp only [List.map_cons, List.map_nil, List.mem_singleton, forall_eq]
      exact ⟨by decide, by decide⟩
    · simp only [List.mem_singleton, forall_eq]
      exact Entry.ok_regular

/-- Where the task that lists `d/` fails, a download deletes the file of an object. -/
theorem download_deletes_held :
    ∃ tree, mergeRemotes none ([remoteFailing (· == "d/".toList)].map Remote.listing) =
        .ok (some tree) ∧
      ¬ ∀ a ∈ (processDownloads mirroring (some localsWithFile) "/l".toList tree).actions,
        a.DeletesMissing [remoteFailing (· == "d/".toList)] tree "/l".toList := by
  refine ⟨_, rfl, fun h => ?_⟩
  have hok : ∀ n ∈ ["d".toList, "s".toList], NameOk n := by
    intro n hn
    rcases List.mem_cons.1 hn with rfl | hn
    · exact ⟨by decide, by decide⟩
    · rw [List.mem_singleton.1 hn]
      exact ⟨by decide, by decide⟩
  rcases h (.schedule (.localFileDeleter "/l/d/s".toList)) (by decide) with hmiss | hrepl
  · exact hmiss _ hok rfl _ (List.mem_singleton_self _)
      ⟨"d/s".toList, List.mem_singleton_self _, List.nil_prefix, "d/s".toList, rfl, by decide⟩
  · obtain ⟨p, n, d, hokp, hd, hn, he⟩ := hrepl
    have he' : joinAll "/l".toList (["d".toList] ++ ["s".toList]) =
        joinAll "/l".toList (p ++ [n]) := he
    obtain ⟨rfl, hn'⟩ := List.append_inj' (joinAll_injective hok hokp he') rfl
    cases hn'
    cases hd
    cases hn

/-- `download_deletes_missing_iff` where no task fails. -/
theorem download_deletes_missing_iff_one :
    ((mirroring.deleteMissing → ListingSuffices [remoteFailing fun _ => false] localsWithFile) →
      ∀ a ∈ (processDownloads mirroring (some localsWithFile) "/l".toList
        (remoteFailing fun _ => false).listing).actions,
        a.DeletesMissing [remoteFailing fun _ => false] (remoteFailing fun _ => false).listing
          "/l".toList) ∧
    ((processDownloads mirroring (some localsWithFile) "/l".toList
        (remoteFailing fun _ => false).listing).failed = false →
      (∀ a ∈ (processDownloads mirroring (some localsWithFile) "/l".toList
        (remoteFailing fun _ => false).listing).actions,
        a.DeletesMissing [remoteFailing fun _ => false] (remoteFailing fun _ => false).listing
          "/l".toList) →
      mirroring.deleteMissing → ListingSuffices [remoteFailing fun _ => false] localsWithFile) ∧
    ((∀ r ∈ [remoteFailing fun _ => false], ∀ pre, r.faults.part pre = none) →
      ListingSuffices [remoteFailing fun _ => false] localsWithFile) :=
  download_deletes_missing_iff isLocal_localsWithFile rfl

end ExtremeS3
