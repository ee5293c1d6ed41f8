import ExtremeS3.Sync.LocalTree

/-!
# Merging the trees of several sources

`merge_to_left` adds the files and directories of one tree to another one, and gives up where a name
is a file in one of them and anything in the other. What it returns has the files of both trees
(`fileAt_mergeToLeft`) and the directories of both (`dirAt_mergeToLeft`). What it does at one level
(`mergeToLeft_ok`) is followed along a path (`mergedAt_dirAt`), and over the sources one after the
other: the tree that an upload is planned from is read from the disk (`buildLocals_ok`).
-/

namespace ExtremeS3

section

variable {ι φ : Type}

/-- The first loop of `merge_to_left`, over the files on the right. -/
def mergeFiles (nameOf : φ → ι) (leftDirs : List (Str × Dir Str ι φ)) (leftFiles : List (Str × φ)) :
    List (Str × φ) → Except (ScheduleError ι) (List (Str × φ))
  | [] => .ok leftFiles
  | (name, rightFile) :: files =>
    match findKey name leftFiles with
    | some leftFile => .error (.fileCollision (nameOf rightFile) (nameOf leftFile))
    | none =>
      match findKey name leftDirs with
      | some leftDir => .error (.fileShadows (nameOf rightFile) leftDir.info)
      | none => mergeFiles nameOf leftDirs (upsert name (fun _ => rightFile) leftFiles) files

mutual

/-- `merge_to_left`. -/
def mergeToLeft (nameOf : φ → ι) (left : Dir Str ι φ) :
    Dir Str ι φ → Except (ScheduleError ι) (Dir Str ι φ)
  | .node _ files subdirs =>
    match mergeFiles nameOf left.subdirs left.files files with
    | .error e => .error e
    | .ok leftFiles => mergeSubdirs nameOf (.node left.info leftFiles left.subdirs) subdirs

/-- The second loop of `merge_to_left`, over the subdirectories on the right. -/
def mergeSubdirs (nameOf : φ → ι) (left : Dir Str ι φ) :
    List (Str × Dir Str ι φ) → Except (ScheduleError ι) (Dir Str ι φ)
  | [] => .ok left
  | (name, rightDir) :: dirs =>
    match findKey name left.files with
    | some leftFile => .error (.dirShadowed rightDir.info (nameOf leftFile))
    | none =>
      match findKey name left.subdirs with
      | none =>
        mergeSubdirs nameOf
          (.node left.info left.files (upsert name (fun _ => rightDir) left.subdirs)) dirs
      | some leftDir =>
        match mergeToLeft nameOf leftDir rightDir with
        | .error e => .error e
        | .ok merged =>
          mergeSubdirs nameOf
            (.node left.info left.files (upsert name (fun _ => merged) left.subdirs)) dirs

end

/-! ## One directory -/

variable {nameOf : φ → ι}

/-- If files can be merged, the result has the files of both sides, and no name was there before. -/
theorem mergeFiles_ok {leftDirs : List (Str × Dir Str ι φ)} {leftFiles files m : List (Str × φ)}
    (hl : Sorted leftFiles) (hf : Sorted files)
    (h : mergeFiles nameOf leftDirs leftFiles files = .ok m) :
    Sorted m ∧ (∀ n, findKey n m = (findKey n leftFiles).or (findKey n files)) ∧
      ∀ n, (findKey n files).isSome → findKey n leftFiles = none ∧ findKey n leftDirs = none := by
  induction files generalizing leftFiles with
  | nil =>
    cases h
    exact ⟨hl, fun n => Option.or_none.symm, nofun⟩
  | cons e files ih =>
    obtain ⟨name, f⟩ := e
    obtain ⟨hlt, hfs⟩ := sorted_cons.1 hf
    rw [mergeFiles] at h
    split at h
    · cases h
    · next hname =>
      split at h
      · cases h
      · next hdir =>
        obtain ⟨hm, hfind, hnone⟩ := ih (hl.upsert _ _) hfs h
        refine ⟨hm, fun n => ?_, fun n hn => ?_⟩
        · rw [hfind, findKey_upsert hl, findKey_cons]
          split
          · next he => rw [he, hname]; rfl
          · rfl
        · rw [findKey_cons] at hn
          split at hn
          · next he => rw [he]; exact ⟨hname, hdir⟩
          · next hne =>
            have := hnone n hn
            rwa [findKey_upsert hl, if_neg hne] at this

/-- How the subdirectories of a name on both sides are merged. -/
def MergedAt (nameOf : φ → ι) (left right merged : Option (Dir Str ι φ)) : Prop :=
  match left, right with
  | none, right => merged = right
  | some left, none => merged = some left
  | some left, some right => ∃ m, mergeToLeft nameOf left right = .ok m ∧ merged = some m

/-- If subdirectories can be merged, the result has those of both sides, merged where both have one,
and no name was that of a file. -/
theorem mergeSubdirs_ok {left m : Dir Str ι φ} {dirs : List (Str × Dir Str ι φ)} (hl : left.Sorted)
    (hd : Sorted dirs) (h : mergeSubdirs nameOf left dirs = .ok m) :
    m.Sorted ∧ m.info = left.info ∧ m.files = left.files ∧
      (∀ n, MergedAt nameOf (findKey n left.subdirs) (findKey n dirs) (findKey n m.subdirs)) ∧
      ∀ n, (findKey n dirs).isSome → findKey n left.files = none := by
  induction dirs generalizing left with
  | nil =>
    rw [mergeSubdirs] at h
    cases h
    refine ⟨hl, rfl, rfl, fun n => ?_, nofun⟩
    rw [findKey_nil]
    cases findKey n m.subdirs <;> rfl
  | cons e dirs ih =>
    obtain ⟨name, right⟩ := e
    obtain ⟨hlt, hds⟩ := sorted_cons.1 hd
    have htail : findKey name dirs = none := findKey_eq_none_of_lt hlt
    rw [mergeSubdirs] at h
    -- once the name itself is merged, to `d`
    have hstep : ∀ d, mergeSubdirs nameOf
        (.node left.info left.files (upsert name (fun _ => d) left.subdirs)) dirs = .ok m →
        findKey name left.files = none →
        MergedAt nameOf (findKey name left.subdirs) (some right) (some d) →
        m.Sorted ∧ m.info = left.info ∧ m.files = left.files ∧
        (∀ n, MergedAt nameOf (findKey n left.subdirs) (findKey n ((name, right) :: dirs))
          (findKey n m.subdirs)) ∧
        ∀ n, (findKey n ((name, right) :: dirs)).isSome → findKey n left.files = none := by
      intro d h hname hmerged
      have hl' : Dir.Sorted (.node left.info left.files (upsert name (fun _ => d) left.subdirs)) :=
        ⟨hl.1, hl.2.upsert _ _⟩
      obtain ⟨hm, hinfo, hfiles, hsub, hnone⟩ := ih hl' hds h
      refine ⟨hm, hinfo, hfiles, fun n => ?_, fun n hn => ?_⟩
      · have := hsub n
        rw [Dir.subdirs_node, findKey_upsert hl.2] at this
        rw [findKey_cons]
        split
        · next he =>
          subst he
          rw [if_pos rfl, htail] at this
          rw [show findKey n m.subdirs = some d from this]
          exact hmerged
        · next hne => rwa [if_neg hne] at this
      · rw [findKey_cons] at hn
        split at hn
        · next he => rw [he]; exact hname
        · exact hnone n hn
    split at h
    · cases h
    · next hname =>
      split at h
      · next hleft => exact hstep right h hname (by rw [hleft]; rfl)
      · next leftDir hleft =>
        split at h
        · cases h
        · next d hd => exact hstep d h hname (by rw [hleft]; exact ⟨d, hd, rfl⟩)

/-- What a merge makes of one directory. -/
theorem mergeToLeft_ok {left right m : Dir Str ι φ} (hl : left.Sorted) (hr : right.Sorted)
    (h : mergeToLeft nameOf left right = .ok m) :
    m.Sorted ∧ m.info = left.info ∧
      (∀ n, findKey n m.files = (findKey n left.files).or (findKey n right.files)) ∧
      (∀ n, MergedAt nameOf (findKey n left.subdirs) (findKey n right.subdirs)
        (findKey n m.subdirs)) ∧
      (∀ n, (findKey n right.files).isSome →
        findKey n left.files = none ∧ findKey n left.subdirs = none) ∧
      ∀ n, (findKey n right.subdirs).isSome →
        findKey n left.files = none ∧ findKey n right.files = none := by
  cases right with
  | node i files subdirs =>
    rw [mergeToLeft] at h
    split at h
    · cases h
    · next leftFiles hfs =>
      obtain ⟨hsorted, hfind, hnone⟩ := mergeFiles_ok hl.1 hr.1 hfs
      have hl' : Dir.Sorted (.node left.info leftFiles left.subdirs) := ⟨hsorted, hl.2⟩
      obtain ⟨hm, hinfo, hfiles, hsub, hshadow⟩ := mergeSubdirs_ok hl' hr.2 h
      refine ⟨hm, hinfo, fun n => by rw [hfiles]; exact hfind n, hsub, hnone, fun n hn => ?_⟩
      have := hshadow n hn
      rw [Dir.files_node, hfind, Option.or_eq_none_iff] at this
      exact this

/-! ## Whole trees -/

/-- A directory of a merged tree is there on one side only, or merged from both. -/
theorem MergedAt.cases {left right merged : Option (Dir Str ι φ)}
    (h : MergedAt nameOf left right merged) :
    left = none ∧ merged = right ∨ right = none ∧ merged = left ∨
      ∃ l r m, left = some l ∧ right = some r ∧ merged = some m ∧
        mergeToLeft nameOf l r = .ok m := by
  cases left with
  | none => exact .inl ⟨rfl, h⟩
  | some l =>
    cases right with
    | none => exact .inr (.inl ⟨rfl, h⟩)
    | some r =>
      obtain ⟨m, hm, hmerged⟩ := h
      exact .inr (.inr ⟨l, r, m, rfl, rfl, hmerged, hm⟩)

/-- Directories are merged the same way at every path. -/
theorem mergedAt_dirAt {left right m : Dir Str ι φ} (hl : left.Everywhere Dir.Sorted)
    (hr : right.Everywhere Dir.Sorted) (h : mergeToLeft nameOf left right = .ok m) (p : List Str) :
    MergedAt nameOf (left.dirAt p) (right.dirAt p) (m.dirAt p) := by
  induction p generalizing left right m with
  | nil => exact ⟨m, h, rfl⟩
  | cons n p ih =>
    obtain ⟨-, -, -, hsub, -, -⟩ := mergeToLeft_ok hl.root hr.root h
    simp only [Dir.dirAt_cons]
    rcases (hsub n).cases with ⟨hln, hmn⟩ | ⟨hrn, hmn⟩ | ⟨l, r, d, hln, hrn, hmn, hd⟩
    · rw [hln, hmn]
      rfl
    · rw [hrn, hmn]
      cases (findKey n left.subdirs).bind (Dir.dirAt p) <;> rfl
    · rw [hln, hrn, hmn]
      exact ih (hl.child hln) (hr.child hrn) hd

/-- The files of a merged tree are those of both trees. -/
theorem fileAt_mergeToLeft {left right m : Dir Str ι φ} (hl : left.Everywhere Dir.Sorted)
    (hr : right.Everywhere Dir.Sorted) (h : mergeToLeft nameOf left right = .ok m) (p : List Str) :
    m.fileAt p = (left.fileAt p).or (right.fileAt p) := by
  rcases List.eq_nil_or_concat p with rfl | ⟨q, n, rfl⟩
  · rfl
  · rw [List.concat_eq_append]
    simp only [Dir.fileAt_concat]
    rcases (mergedAt_dirAt hl hr h q).cases with ⟨hlq, hmq⟩ | ⟨hrq, hmq⟩ |
      ⟨l, r, d, hlq, hrq, hmq, hd⟩
    · rw [hlq, hmq]
      rfl
    · rw [hrq, hmq]
      exact Option.or_none.symm
    · obtain ⟨-, -, hfiles, -⟩ := mergeToLeft_ok (hl q l hlq) (hr q r hrq) hd
      rw [hlq, hrq, hmq]
      exact hfiles n

/-- A file on the right has none at its path on the left. -/
theorem fileAt_left_of_mergeToLeft {left right m : Dir Str ι φ} (hl : left.Everywhere Dir.Sorted)
    (hr : right.Everywhere Dir.Sorted) (h : mergeToLeft nameOf left right = .ok m) {p : List Str}
    {f : φ} (hf : right.fileAt p = some f) : left.fileAt p = none := by
  rcases List.eq_nil_or_concat p with rfl | ⟨q, n, rfl⟩
  · rfl
  · rw [List.concat_eq_append, Dir.fileAt_concat] at hf ⊢
    obtain ⟨r, hrq, hf⟩ := Option.bind_eq_some_iff.1 hf
    rcases (mergedAt_dirAt hl hr h q).cases with ⟨hlq, -⟩ | ⟨hnone, -⟩ |
      ⟨l, r', d, hlq, hrq', -, hd⟩
    · rw [hlq]
      rfl
    · rw [hrq] at hnone
      cases hnone
    · rw [hrq] at hrq'
      cases hrq'
      obtain ⟨-, -, -, -, hleft, -⟩ := mergeToLeft_ok (hl q l hlq) (hr q r hrq) hd
      rw [hlq]
      exact (hleft n (Option.isSome_of_eq_some hf)).1

/-- The files of a merged tree are those of either tree. -/
theorem fileAt_mergeToLeft_eq_some {left right m : Dir Str ι φ} (hl : left.Everywhere Dir.Sorted)
    (hr : right.Everywhere Dir.Sorted) (h : mergeToLeft nameOf left right = .ok m) {p : List Str}
    {f : φ} : m.fileAt p = some f ↔ left.fileAt p = some f ∨ right.fileAt p = some f := by
  rw [fileAt_mergeToLeft hl hr h]
  cases hf : right.fileAt p with
  | none => simp
  | some g => simp [fileAt_left_of_mergeToLeft hl hr h hf]

/-- The directories of a merged tree are those of both trees. -/
theorem dirAt_mergeToLeft {left right m : Dir Str ι φ} (hl : left.Everywhere Dir.Sorted)
    (hr : right.Everywhere Dir.Sorted) (h : mergeToLeft nameOf left right = .ok m) (p : List Str) :
    (m.dirAt p).isSome = ((left.dirAt p).isSome || (right.dirAt p).isSome) := by
  rcases (mergedAt_dirAt hl hr h p).cases with ⟨hlp, hmp⟩ | ⟨hrp, hmp⟩ |
    ⟨l, r, d, hlp, hrp, hmp, -⟩
  · rw [hlp, hmp]
    rfl
  · rw [hrp, hmp]
    exact (Bool.or_false _).symm
  · rw [hlp, hrp, hmp]
    rfl

/-- A directory of a merged tree is one of the trees, or merged from directories of both. -/
theorem exists_of_dirAt_mergeToLeft {left right m d : Dir Str ι φ}
    (hl : left.Everywhere Dir.Sorted) (hr : right.Everywhere Dir.Sorted)
    (h : mergeToLeft nameOf left right = .ok m) {p : List Str} (hd : m.dirAt p = some d) :
    left.dirAt p = some d ∨ right.dirAt p = some d ∨
      ∃ l r, left.dirAt p = some l ∧ right.dirAt p = some r ∧ mergeToLeft nameOf l r = .ok d := by
  rcases (mergedAt_dirAt hl hr h p).cases with ⟨-, hmp⟩ | ⟨-, hmp⟩ |
    ⟨l, r, e, hlp, hrp, hmp, he⟩
  · exact .inr (.inl (hmp.symm.trans hd))
  · exact .inl (hmp.symm.trans hd)
  · cases hmp.symm.trans hd
    exact .inr (.inr ⟨l, r, hlp, hrp, he⟩)

/-- The maps of a merged tree are maps. -/
theorem sorted_mergeToLeft {left right m : Dir Str ι φ} (hl : left.Everywhere Dir.Sorted)
    (hr : right.Everywhere Dir.Sorted) (h : mergeToLeft nameOf left right = .ok m) :
    m.Everywhere Dir.Sorted := by
  intro p d hd
  rcases exists_of_dirAt_mergeToLeft hl hr h hd with hd | hd | ⟨l, r, hlp, hrp, hd⟩
  · exact hl p d hd
  · exact hr p d hd
  · exact (mergeToLeft_ok (hl p l hlp) (hr p r hrp) hd).1

/-- A merged tree is like the trees it is merged from. -/
theorem level_mergeToLeft {left right m : Dir Str ι φ} (hl : left.Everywhere Dir.Sorted)
    (hlu : left.Everywhere Dir.Unshadowed) (hr : right.Everywhere Dir.Sorted)
    (hru : right.Everywhere Dir.Unshadowed) (h : mergeToLeft nameOf left right = .ok m) :
    m.Everywhere Dir.Sorted ∧ m.Everywhere Dir.Unshadowed := by
  refine ⟨sorted_mergeToLeft hl hr h, fun p d hd => ?_⟩
  rcases exists_of_dirAt_mergeToLeft hl hr h hd with hd | hd | ⟨l, r, hlp, hrp, hd⟩
  · exact hlu p d hd
  · exact hru p d hd
  · obtain ⟨-, -, hfiles, hsub, hleft, hright⟩ := mergeToLeft_ok (hl p l hlp) (hr p r hrp) hd
    intro n f hf
    -- the name is a file on one side only, and a subdirectory on neither
    rw [hfiles] at hf
    have hn := hsub n
    have hrn : findKey n r.subdirs = none := by
      cases hrn : findKey n r.subdirs with
      | none => rfl
      | some e =>
        obtain ⟨h₁, h₂⟩ := hright n (by rw [hrn]; rfl)
        rw [h₁, h₂] at hf
        cases hf
    have hln : findKey n l.subdirs = none := by
      cases hlf : findKey n l.files with
      | some g => exact hlu p l hlp n g hlf
      | none =>
        rw [hlf] at hf
        exact (hleft n (by rw [show findKey n r.files = some f from hf]; rfl)).2
    rwa [hln, hrn] at hn

end

/-! ## The local sources -/

/-- The loop of `create_schedule` over the local paths. -/
def buildLocals (disk : Disk) (upload : Bool) (locals : Option LocalDir) :
    List Str → Except (ScheduleError Str) (Option LocalDir)
  | [] => .ok locals
  | startPath :: paths =>
    match buildLocalDir disk startPath upload with
    | .error e => .error e
    | .ok cur =>
      match locals with
      | none => buildLocals disk upload (some cur) paths
      | some l =>
        match mergeToLeft LocalFile.absoluteName l cur with
        | .error e => .error e
        | .ok merged => buildLocals disk upload (some merged) paths

/-- What a merged local tree is: the files and directories read from the sources, besides those
there were before. -/
structure ReadFrom (disk : Disk) (paths : List Str) (before locals : Option LocalDir) : Prop where
  sorted : ∀ d ∈ locals, d.Everywhere Dir.Sorted
  unshadowed : ∀ d ∈ locals, d.Everywhere Dir.Unshadowed
  fileAt : ∀ p f, (∃ d ∈ locals, d.fileAt p = some f) ↔ (∃ d ∈ before, d.fileAt p = some f) ∨
    ∃ path ∈ paths, ∃ x, disk.below path p = some x ∧ seenFile x.1 x.2 = some f
  dirAt : ∀ p, p ≠ [] → ((∃ d ∈ locals, (d.dirAt p).isSome) ↔
    (∃ d ∈ before, (d.dirAt p).isSome) ∨
    ∃ path ∈ paths, ∃ x, disk.below path p = some x ∧ (seenDir disk.cwd x.1 x.2).isSome)

/-- The tree that is built of paths is read from the disk, behind what was there before. -/
theorem buildLocals_ok {disk : Disk} (hdisk : disk.Ok) {paths : List Str}
    {before locals : Option LocalDir} (hs : ∀ d ∈ before, d.Everywhere Dir.Sorted)
    (hu : ∀ d ∈ before, d.Everywhere Dir.Unshadowed)
    (h : buildLocals disk true before paths = .ok locals) : ReadFrom disk paths before locals := by
  induction paths generalizing before with
  | nil =>
    cases h
    exact ⟨hs, hu, fun p f => by simp, fun p _ => by simp⟩
  | cons path paths ih =>
    rw [buildLocals] at h
    split at h
    · cases h
    · next cur hcur =>
      obtain ⟨hcs, hcu⟩ := sorted_buildLocalDir hdisk hcur
      -- once the source is in the tree `d`
      have hstep : ∀ d, d.Everywhere Dir.Sorted → d.Everywhere Dir.Unshadowed →
          (∀ p f, d.fileAt p = some f ↔ (∃ b ∈ before, b.fileAt p = some f) ∨ cur.fileAt p = some f) →
          (∀ p, p ≠ [] → ((d.dirAt p).isSome ↔ (∃ b ∈ before, (b.dirAt p).isSome) ∨
            (cur.dirAt p).isSome)) →
          buildLocals disk true (some d) paths = .ok locals →
          ReadFrom disk (path :: paths) before locals := by
        intro d hds hdu hfile hdir h
        have hread := ih (fun e he => by cases he; exact hds) (fun e he => by cases he; exact hdu) h
        refine ⟨hread.sorted, hread.unshadowed, fun p f => ?_, fun p hp => ?_⟩
        · rw [hread.fileAt]
          simp only [Option.mem_some_iff, exists_eq_left', hfile, fileAt_buildLocalDir hdisk hcur,
            Option.bind_eq_some_iff, List.mem_cons, exists_eq_or_imp, or_assoc]
        · rw [hread.dirAt p hp]
          simp only [Option.mem_some_iff, exists_eq_left', hdir p hp,
            dirAt_buildLocalDir hdisk hcur hp, Option.isSome_bind, List.mem_cons, exists_eq_or_imp,
            or_assoc, Option.any_eq_true]
      cases before with
      | none => exact hstep cur hcs hcu (fun p f => by simp) (fun p _ => by simp) h
      | some l =>
        dsimp only at h
        split at h
        · cases h
        · next m hm =>
          obtain ⟨hms, hmu⟩ := level_mergeToLeft (hs l rfl) (hu l rfl) hcs hcu hm
          refine hstep m hms hmu (fun p f => ?_) (fun p _ => ?_) h
          · rw [fileAt_mergeToLeft_eq_some (hs l rfl) hcs hm]
            simp
          · rw [dirAt_mergeToLeft (hs l rfl) hcs hm]
            simp

end ExtremeS3
