import ExtremeS3.Sync.Filter

/-!
# Which objects an upload deletes, and which local entries a download

A path leaves the local tree at the deepest local directory on it. What an upload does with the
object at the path is decided there, so its deletions are known from the path alone:
`deletes_iff`. A download deletes the local names that are not remote names, in the directories that
are there on both sides: `local_deletes_iff`.
-/

namespace ExtremeS3

/-- The path is that of an unsyncable local entry, or below it. -/
def Dir.BelowUnsyncable (l : LocalDir) (p : List Str) : Prop :=
  ∃ q f, q <+: p ∧ l.fileAt q = some f ∧ f.unsyncable = true

/-- What an upload with `delete_missing` deletes: an object with no local file at its path, every
local file above it being one that is uploaded, and no remote file in the place of a local
directory above it. If its directory is not a local one, then the filter must accept it too. -/
structure Sync.Deletes (sync : Sync) (locals : LocalDir) (remotes : S3Dir) (p : List Str)
    (g : S3File) : Prop where
  deleteMissing : sync.deleteMissing
  fileAt : locals.fileAt p = none
  above : ∀ q f, q <+: p → locals.fileAt q = some f →
    f.unsyncable = false ∧ sync.checkIncluded f.absoluteName
  dirs : ∀ q, q ≠ [] → q <+: p → q ≠ p → (locals.dirAt q).isSome → remotes.fileAt q = none
  included : (locals.dirAt p.dropLast).isSome ∨ sync.checkIncluded g.absoluteName.path

/-- A remote directory that is there is sorted as it is. -/
theorem remoteSorted_some {r : S3Dir} (h : r.Everywhere Dir.Sorted) : RemoteSorted (some r) :=
  fun d hd => by cases hd; exact h

section

variable {sync : Sync} {locals : LocalDir} {remotes : S3Dir} {dest : S3Path}

/-- What decides about an object where its path leaves the local tree, at `n` in the local directory
at `p`: no remote file above, and what the local directory has at `n`. -/
theorem Sync.Deletes.of_leaves (hlu : locals.Everywhere Dir.Unshadowed) {p q : List Str} {n : Str}
    {l : LocalDir} {g : S3File} (hd : sync.deleteMissing) (hlp : locals.dirAt p = some l)
    (hq : q = [] ∨ findKey n l.subdirs = none) (hrp : ∀ q, q <+: p → remotes.fileAt q = none)
    (hfile : ∀ f, findKey n l.files = some f →
      q ≠ [] ∧ f.unsyncable = false ∧ sync.checkIncluded f.absoluteName)
    (hinc : q = [] ∨ sync.checkIncluded g.absoluteName.path) :
    sync.Deletes locals remotes (p ++ n :: q) g where
  deleteMissing := hd
  fileAt := Option.eq_none_iff_forall_not_mem.2 fun f hf => by
    obtain ⟨he, hf⟩ := hlu.fileAt_prefix hlp hq (List.prefix_refl _) hf
    exact (hfile f hf).1 (List.cons.inj (List.append_cancel_left he)).2
  above q' f hle hf := by
    obtain ⟨-, hf⟩ := hlu.fileAt_prefix hlp hq hle hf
    exact (hfile f hf).2
  dirs q' _ hle hne hdir := by
    rcases List.prefix_or_prefix_of_prefix hle (p.prefix_append (n :: q)) with hle' | ⟨s, rfl⟩
    · exact hrp q' hle'
    · rw [List.prefix_append_right_inj] at hle
      cases s with
      | nil => exact hrp _ (by simp)
      | cons m s =>
        obtain ⟨rfl, hs⟩ := List.cons_prefix_cons.1 hle
        have hqn : q ≠ [] := fun h => hne (by rw [h, List.prefix_nil] at hs; rw [h, hs])
        rw [Dir.dirAt_append, hlp, Option.bind_some, Dir.dirAt_cons, hq.resolve_left hqn] at hdir
        cases hdir
  included := by
    rcases hinc with rfl | h
    · rw [List.dropLast_concat, hlp]
      exact .inl rfl
    · exact .inr h

/-- Only such objects are deleted. -/
theorem deletes_of_mem (hl : locals.Everywhere Dir.Sorted)
    (hlu : locals.Everywhere Dir.Unshadowed) (hr : remotes.Everywhere Dir.Sorted) {k : S3Path}
    (h : .remoteFileDeleter k ∈ (processUpload sync (some remotes) dest locals).actions) :
    ∃ p g, remotes.fileAt p = some g ∧ g.absoluteName = k ∧ sync.Deletes locals remotes p g := by
  obtain ⟨p, l, r, hv, h⟩ := uploadsAt_of_mem hl (remoteSorted_some hr) h
  obtain ⟨hlp, hrp⟩ := uploadVisit_dirAt hv
  -- the files and subdirectories of the compared remote directory, as those of the remote tree
  have hvisit : ∀ d, r = some d → sync.deleteMissing →
      remotes.dirAt p = some d ∧ ∀ q, q <+: p → remotes.fileAt q = none := by
    rintro d rfl hd
    exact ((uploadVisit_some_iff hd).1 hv).2
  cases h with
  | @shadowedDir n f dir q g hd hf hu hc hdir hg hi =>
    obtain ⟨d, rfl, hdir'⟩ := Option.bind_eq_some_iff.1 hdir
    obtain ⟨hrp, habove⟩ := hvisit d rfl hd
    refine ⟨p ++ n :: q, g, ?_, rfl, .of_leaves hlu hd hlp (.inr (hlu p l hlp n f hf)) habove ?_
      (.inr hi)⟩
    · rw [Dir.fileAt_append (List.cons_ne_nil _ _), hrp, Option.bind_some,
        Dir.fileAt_cons (Dir.ne_nil_of_fileAt hg), hdir']
      exact hg
    · rintro f' hf'
      rw [hf] at hf'
      cases hf'
      exact ⟨Dir.ne_nil_of_fileAt hg, hu, hc⟩
  | @shadowingFile n dir g hd hs hg =>
    obtain ⟨d, rfl, hg⟩ := Option.bind_eq_some_iff.1 hg
    obtain ⟨hrp, habove⟩ := hvisit d rfl hd
    refine ⟨p ++ [n], g, ?_, rfl, .of_leaves hlu hd hlp (.inl rfl) habove (fun f hf => ?_) (.inl rfl)⟩
    · rw [Dir.fileAt_concat, hrp]
      exact hg
    · rw [hlu p l hlp n f hf] at hs
      cases hs
  | @unseenFile n g hd hn hg =>
    obtain ⟨d, rfl, hg⟩ := Option.bind_eq_some_iff.1 hg
    obtain ⟨hrp, habove⟩ := hvisit d rfl hd
    refine ⟨p ++ [n], g, ?_, rfl, .of_leaves hlu hd hlp (.inl rfl) habove (fun f hf => ?_) (.inl rfl)⟩
    · rw [Dir.fileAt_concat, hrp]
      exact hg
    · exact absurd (Dir.mem_names.2 (.inl (by rw [hf]; rfl))) hn
  | @unseenDir n dir q g hd hn hdir hg hi =>
    obtain ⟨d, rfl, hdir'⟩ := Option.bind_eq_some_iff.1 hdir
    obtain ⟨hrp, habove⟩ := hvisit d rfl hd
    have hsub : findKey n l.subdirs = none := Option.eq_none_iff_forall_not_mem.2 fun d hd =>
      hn (Dir.mem_names.2 (.inr (by rw [show findKey n l.subdirs = some d from hd]; rfl)))
    refine ⟨p ++ n :: q, g, ?_, rfl, .of_leaves hlu hd hlp (.inr hsub) habove (fun f hf => ?_)
      (.inr hi)⟩
    · rw [Dir.fileAt_append (List.cons_ne_nil _ _), hrp, Option.bind_some,
        Dir.fileAt_cons (Dir.ne_nil_of_fileAt hg), hdir']
      exact hg
    · exact absurd (Dir.mem_names.2 (.inl (by rw [hf]; rfl))) hn

/-- A plan that does not fail deletes all such objects. -/
theorem mem_of_deletes (hl : locals.Everywhere Dir.Sorted) (hr : remotes.Everywhere Dir.Sorted)
    (hf : (processUpload sync (some remotes) dest locals).failed = false) {pp : List Str}
    {g : S3File} (hg : remotes.fileAt pp = some g) (h : sync.Deletes locals remotes pp g) :
    .remoteFileDeleter g.absoluteName ∈ (processUpload sync (some remotes) dest locals).actions := by
  obtain ⟨hd, hnone, habove, hdirs, hinc⟩ := h
  obtain ⟨p, n, q, l, rfl, hlp, hq⟩ := locals.exists_deepest (Dir.ne_nil_of_fileAt hg)
  have hg' := hg
  rw [Dir.fileAt_append (List.cons_ne_nil _ _)] at hg hnone
  obtain ⟨r, hrp, hg⟩ := Option.bind_eq_some_iff.1 hg
  rw [hlp, Option.bind_some] at hnone
  have hvisit : uploadVisit sync (some remotes) locals p = some (l, some r) := by
    refine (uploadVisit_some_iff hd).2 ⟨hlp, hrp, fun q' hle => ?_⟩
    by_cases hq' : q' = []
    · rw [hq']
      rfl
    · refine hdirs q' hq' (hle.trans (List.prefix_append _ _)) (fun he => ?_)
        (Dir.dirAt_of_prefix hle (by rw [hlp]; rfl))
      have := hle.length_le
      rw [he, List.length_append, List.length_cons] at this
      omega
  refine (mem_processUpload hl (remoteSorted_some hr) hf).2 ⟨p, l, some r, hvisit, ?_⟩
  have hfiles : ∀ f, findKey n l.files = some f →
      f.unsyncable = false ∧ sync.checkIncluded f.absoluteName := fun f hf =>
    habove (p ++ [n]) f ⟨q, by simp⟩ (by rw [Dir.fileAt_concat, hlp]; exact hf)
  have hnames : findKey n l.files = none → findKey n l.subdirs = none → n ∉ l.names := by
    intro hf hs hn
    rcases Dir.mem_names.1 hn with hn | hn
    · rw [hf] at hn; cases hn
    · rw [hs] at hn; cases hn
  by_cases hqn : q = []
  · subst hqn
    cases hs : findKey n l.subdirs with
    | some dir => exact .shadowingFile hd hs hg
    | none => exact .unseenFile hd (hnames hnone hs) hg
  · have hsub := hq.resolve_left hqn
    have hi : sync.checkIncluded g.absoluteName.path := by
      refine hinc.resolve_left fun h => ?_
      rw [List.dropLast_append_of_ne_nil (List.cons_ne_nil _ _), List.dropLast_cons_of_ne_nil hqn,
        Dir.dirAt_append, hlp, Option.bind_some, Dir.dirAt_cons, hsub] at h
      cases h
    rw [Dir.fileAt_cons hqn] at hg
    obtain ⟨dir, hdir, hg⟩ := Option.bind_eq_some_iff.1 hg
    cases hf : findKey n l.files with
    | some f => exact .shadowedDir hd hf (hfiles f hf).1 (hfiles f hf).2 hdir hg hi
    | none => exact .unseenDir hd (hnames hf hsub) hdir hg hi

/-- The objects that an upload deletes. -/
theorem deletes_iff (hl : locals.Everywhere Dir.Sorted) (hlu : locals.Everywhere Dir.Unshadowed)
    (hr : remotes.Everywhere Dir.Sorted)
    (hf : (processUpload sync (some remotes) dest locals).failed = false) {k : S3Path} :
    .remoteFileDeleter k ∈ (processUpload sync (some remotes) dest locals).actions ↔
      ∃ p g, remotes.fileAt p = some g ∧ g.absoluteName = k ∧ sync.Deletes locals remotes p g := by
  refine ⟨deletes_of_mem hl hlu hr, ?_⟩
  rintro ⟨p, g, hg, rfl, h⟩
  exact mem_of_deletes hl hr hf hg h

end

/-- The paths of the local tree, as a download extends them. -/
theorem appendPath_foldl {root : Str} (hroot : root ≠ []) (p : List Str) (n : Str) :
    appendPath (p.foldl appendPath root) n = joinAll root (p ++ [n]) := by
  rw [foldl_appendPath hroot, appendPath, if_neg (joinAll_ne_nil hroot p), joinAll_concat]

/-- A local directory that is there is sorted as it is. -/
theorem localSorted_some {l : LocalDir} (h : l.Everywhere Dir.Sorted) : LocalSorted (some l) :=
  fun d hd => by cases hd; exact h

/-- A download schedules the deletion of unseen local entries only. -/
theorem local_deletes_of_mem {sync : Sync} {locals : LocalDir} {remotes : S3Dir} {root file : Str}
    (hl : locals.IsLocal root) (hr : remotes.Everywhere Dir.Sorted)
    (h : .schedule (.localFileDeleter file) ∈
        (processDownloads sync (some locals) root remotes).actions) :
    sync.deleteMissing ∧ ∃ p n l r, locals.dirAt p = some l ∧ remotes.dirAt p = some r ∧
      n ∈ l.names ∧ n ∉ r.names ∧ file = joinAll root (p ++ [n]) := by
  obtain ⟨p, r, l, hv, h⟩ := downloadsAt_of_mem hr (localSorted_some hl.sorted) h
  obtain ⟨hrp, rfl⟩ := downloadVisit_dirAt hv
  cases h with
  | @unseen n target hd hn ht =>
    rw [Option.bind_some] at ht
    cases hlp : locals.dirAt p with
    | none => rw [hlp] at ht; cases ht
    | some l =>
      rw [hlp] at ht
      obtain ⟨rfl, hentry⟩ := hl.unseenAt_eq hlp ht
      exact ⟨hd, p, n, l, r, hlp, hrp, Dir.mem_names.2 hentry, hn, rfl⟩

/-- The local entries that a download schedules the deletion of. -/
theorem local_deletes_iff {sync : Sync} {locals : LocalDir} {remotes : S3Dir} {root file : Str}
    (hl : locals.IsLocal root) (hr : remotes.Everywhere Dir.Sorted)
    (hf : (processDownloads sync (some locals) root remotes).failed = false) :
    .schedule (.localFileDeleter file) ∈
        (processDownloads sync (some locals) root remotes).actions ↔
      sync.deleteMissing ∧ ∃ p n l r, locals.dirAt p = some l ∧ remotes.dirAt p = some r ∧
        n ∈ l.names ∧ n ∉ r.names ∧ file = joinAll root (p ++ [n]) := by
  refine ⟨local_deletes_of_mem hl hr, ?_⟩
  rintro ⟨hd, p, n, l, r, hlp, hrp, hn, hnr, rfl⟩
  refine (mem_processDownloads hr (localSorted_some hl.sorted) hf).2
    ⟨p, r, _, downloadVisit_of_dirAt hd hrp, ?_⟩
  rw [Option.bind_some, hlp]
  refine .unseen hd hnr ?_
  obtain ⟨target, ht⟩ : ∃ target, unseenAt (some l) n = some target := by
    simp only [unseenAt, Option.bind_some]
    cases hs : findKey n l.subdirs with
    | some d => exact ⟨_, rfl⟩
    | none =>
      rcases Dir.mem_names.1 hn with hf | hf
      · obtain ⟨f, hf⟩ := Option.isSome_iff_exists.1 hf
        exact ⟨_, by rw [hf]; rfl⟩
      · rw [hs] at hf; cases hf
  rw [ht, (hl.unseenAt_eq hlp ht).1]

end ExtremeS3
