import ExtremeS3.Agenda.ExitStatus
import ExtremeS3.Commands.DiskUsage
import ExtremeS3.Commands.Existence
import ExtremeS3.Connection.Headers
import ExtremeS3.Connection.PathOrder

/-!
# The command `ls`

`do_ls` lists a directory, and asks for the headers of each file in it: itself if there are at most
ten, else by a `get_file_info` task for each file, whose answers are kept in a map by their paths.
A listing is what the bucket has directly below the path, whatever its pages (`evals_listing`). The
paths of one bucket key the map, so after the tasks, in any order, it has the answer for each file
(`findBy_runTasks`); so both ways print the same (`ls_exact`). They differ where a request fails: the
tasks are tried again, and the loop is not.
-/

namespace ExtremeS3

/-! ## The code -/

/-- What the command depends on: what the listing does, the sizes that it tells, and how each request
for the headers of a path ends. -/
structure LsEnv extends CommandEnv where
  info : FileInfo
  head : S3Path → Nat → Except Thrown (Nat × List Str)

/-- The line of a directory. -/
def dirLine (path : S3Path) : Str := "\t\tDIR\t".toList ++ path.print

/-- The line of a file. -/
def fileLine (path : S3Path) (mod : FileDesc) : Str :=
  intToString mod.mtime.toInt ++ '\t' :: Nat.toDigits 10 mod.rawSize ++ '\t' :: path.print

/-- The lines after the files. -/
def totalLines (files dirs total : Nat) : List Str :=
  ["Total files: ".toList ++ Nat.toDigits 10 files,
    "Total directories: ".toList ++ Nat.toDigits 10 dirs,
    "Total size: ".toList ++ Nat.toDigits 10 total]

namespace LsEnv

variable (env : LsEnv)

/-- `find_mtime_and_size`, in the attempt `f`. -/
def describe (path : S3Path) (f : Nat) : Except Thrown FileDesc :=
  (env.head path f).map fun answer => findMtimeAndSize answer.1 answer.2

/-- The attempts at a `get_file_info` from the attempt `f` on. -/
def attempts (path : S3Path) : Nat → Nat → Option FileDesc
  | 0, _ => none
  | fuel + 1, f =>
    match env.describe path f with
    | .ok mod => some mod
    | .error e =>
      match afterAttempt f (some e) with
      | .next f' => attempts path fuel f'
      | .ended _ => none

/-- `get_file_info`, with its attempts. -/
def getFileInfo (path : S3Path) : Option FileDesc := env.attempts path maxAttempts 0

/-- A `get_file_info` task on `desc_map` and the number of tasks that failed. -/
def runGetFileInfo (s : List (S3Path × FileDesc) × Nat) (path : S3Path) :
    List (S3Path × FileDesc) × Nat :=
  match env.getFileInfo path with
  | some mod => (insertBy S3Path.less path mod s.1, s.2)
  | none => (s.1, s.2 + 1)

/-- The loop over the files, with the lines it prints, and the files and bytes that it counts. -/
def printFiles (desc : S3Path → Except Thrown FileDesc) :
    List (Str × S3File) → Nat × Nat → List Str × Except Thrown (Nat × Nat)
  | [], n => ([], .ok n)
  | (_, file) :: files, n =>
    match desc file.absoluteName with
    | .error e => ([], .error e)
    | .ok mod =>
      let r := printFiles desc files
        ((n.1 + 1) % 2 ^ 64, (n.2 + env.info.size file) % 2 ^ 64)
      (fileLine file.absoluteName mod :: r.1, r.2)

/-- The files and what follows them. -/
def printAll (desc : S3Path → Except Thrown FileDesc) (cur : S3Dir) :
    List Str × Except Thrown Int :=
  let dirs := cur.subdirs.map fun e => dirLine e.2.info
  match env.printFiles desc cur.files (0, 0) with
  | (lines, .error e) => (dirs ++ lines, .error e)
  | (lines, .ok (files, total)) =>
    (dirs ++ lines ++ totalLines files (cur.subdirs.length % 2 ^ 64) total, .ok 0)

/-- What `do_ls` prints of a directory; the tasks run in the order of the paths. -/
def printDir (order : List S3Path) (cur : S3Dir) : List Str × Except Thrown Int :=
  if 10 < cur.files.length then
    let s := order.foldl env.runGetFileInfo ([], 0)
    let res := toInt s.2
    if res ≠ 0 then (cur.subdirs.map fun e => dirLine e.2.info, .ok res)
    else
      env.printAll (fun path =>
        match findBy S3Path.less path s.1 with
        | some mod => .ok mod
        | none => .error .other) cur
  else env.printAll (fun path => env.describe path 0) cur

/-- `do_ls`. -/
def doLs (order : List S3Path) (params : List Str) (help : Bool) :
    Prog Thrown (List Str × Except Thrown Int) :=
  if help then pure ([], .ok 0)
  else
    match params with
    | [tgt] => do
      let path ← env.locate tgt
      let cur ← env.listing path
      pure (env.printDir order cur)
    | _ => pure ([], .ok 2)

end LsEnv

/-! ## The listing -/

section
variable {bucket : Bucket} {path : S3Path}

/-- The directory that is listed. -/
def Bucket.listed (bucket : Bucket) (path : S3Path) : S3Dir :=
  readItems (toRoot path) unlisted (bucket.list (path.path.drop 1))

/-- A directory depends on what it was read from as a set only. -/
theorem readItems_eq_of_mem_iff {sub : S3Path → S3Dir} {items items' : List Item}
    (h : ∀ i, i ∈ items ↔ i ∈ items') : readItems path sub items = readItems path sub items' := by
  have hfiles : (readItems path sub items).files = (readItems path sub items').files := by
    refine Sorted.ext (sorted_root_readItems items).1 (sorted_root_readItems items').1 ?_
    rintro ⟨n, f⟩
    rw [← Sorted.findKey_eq_some (sorted_root_readItems items).1,
      ← Sorted.findKey_eq_some (sorted_root_readItems items').1, findKey_files_readItems,
      findKey_files_readItems]
    simp only [h]
  have hsubdirs : (readItems path sub items).subdirs = (readItems path sub items').subdirs := by
    refine Sorted.ext (sorted_root_readItems items).2 (sorted_root_readItems items').2 ?_
    rintro ⟨n, e⟩
    rw [← Sorted.findKey_eq_some (sorted_root_readItems items).2,
      ← Sorted.findKey_eq_some (sorted_root_readItems items').2, findKey_subdirs_readItems,
      findKey_subdirs_readItems]
    simp only [h]
  have hinfo : (readItems path sub items).info = (readItems path sub items').info := by
    rw [info_readItems, info_readItems]
  generalize readItems path sub items = d at hfiles hsubdirs hinfo
  generalize readItems path sub items' = d' at hfiles hsubdirs hinfo
  obtain ⟨i, files, subdirs⟩ := d
  obtain ⟨i', files', subdirs'⟩ := d'
  obtain rfl : files = files' := hfiles
  obtain rfl : subdirs = subdirs' := hsubdirs
  obtain rfl : i = i' := hinfo
  rfl

/-- Without a request that fails, a listing is that of the whole answer, whatever its pages. -/
theorem evals_listing {env : CommandEnv} (path : S3Path)
    (hkeys : [] ∉ (env.buckets path.bucket).keys) (hsize : 1 ≤ env.pageSize)
    (hlist : ∀ n, env.listFails n = none) :
    (env.listing path).Evals (.ok ((env.buckets path.bucket).listed path)) := by
  obtain ⟨r, hr, hends⟩ := listFilesShallow_added hkeys hsize env.listFails path none true 0
  cases r with
  | error x =>
    obtain ⟨e, s⟩ := x
    obtain ⟨-, n, -, -, hn⟩ := hends
    rw [hlist n] at hn
    cases hn
  | ok s =>
    obtain ⟨nodes, hadded, hall⟩ := hends
    have htarget : s.target = (env.buckets path.bucket).listed path := by
      rw [hadded.eq]
      exact readItems_eq_of_mem_iff fun i => ⟨fun hi => hadded.subset hi, fun hi => hall i hi⟩
    rw [← htarget]
    exact hr.attempt.bind (Prog.evals_pure _)

/-- A name below the root of a path. -/
theorem derive_toRoot (path : S3Path) (n : Str) :
    derive (toRoot path) n = { path with path := joinPath (toRoot path).path n } := by
  unfold derive toRoot
  split
  · rfl
  · rfl

/-- The files that are listed are the objects asked for directly below the path. -/
theorem mem_files_listed (habs : path.path.head? = some '/') {n : Str} {g : S3File} :
    (n, g) ∈ (bucket.listed path).files ↔
      ∃ rest, '/' ∉ rest ∧ bucket.Asked path (path.path.drop 1 ++ rest) ∧
        n = path.path.rtakeWhile (· ≠ '/') ++ rest ∧
        g = ⟨{ path with path := '/' :: (path.path.drop 1 ++ rest) }⟩ := by
  have hroot := isDirPath_root habs
  have hslash := (path_eq_toRoot habs).2
  unfold Bucket.listed
  rw [drop_path habs, ← Sorted.findKey_eq_some (sorted_root_readItems _).1,
    findKey_files_list hroot hslash]
  constructor
  · rintro ⟨rfl, hkey, hlast, hn, rest, rfl⟩
    refine ⟨rest, fun h => hn (List.mem_append_right _ h), ?_, rfl, ?_⟩
    · rw [List.append_assoc]
      exact ⟨hkey, by rw [drop_path habs, ← List.append_assoc]; exact List.prefix_append _ _, hlast⟩
    · rw [derive_toRoot, hroot.file hn, List.append_assoc]
  · rintro ⟨rest, hrest, ⟨hkey, -, hlast⟩, rfl, rfl⟩
    have hn : '/' ∉ path.path.rtakeWhile (· ≠ '/') ++ rest := fun h =>
      (List.mem_append.1 h).elim hslash hrest
    rw [List.append_assoc] at hkey hlast ⊢
    exact ⟨by rw [derive_toRoot, hroot.file hn], hkey, hlast, hn, List.prefix_append _ _⟩

/-- The subdirectories that are listed are those below which there are objects asked for. -/
theorem mem_subdirs_listed (hkeys : bucket.PlainKeys) (habs : path.path.head? = some '/') {n : Str}
    {e : S3Dir} : (n, e) ∈ (bucket.listed path).subdirs ↔
      ∃ rest, '/' ∉ rest ∧ (∃ s, path.path.drop 1 ++ rest ++ '/' :: s ∈ bucket.keys) ∧
        n = path.path.rtakeWhile (· ≠ '/') ++ rest ∧
        e = unlisted { path with path := '/' :: (path.path.drop 1 ++ rest ++ "/".toList) } := by
  have hroot := isDirPath_root habs
  have hslash := (path_eq_toRoot habs).2
  have hsub : ∀ n, derive (toRoot path) (n ++ "/".toList) =
      { path with path := '/' :: ((toRoot path).path.drop 1 ++ n ++ "/".toList) } := by
    intro n
    rw [derive_toRoot, (hroot.sub n).1]
    conv_lhs => rw [hroot.eq_cons]
    rw [List.cons_append, List.append_assoc]
  unfold Bucket.listed
  rw [drop_path habs, ← Sorted.findKey_eq_some (sorted_root_readItems _).2,
    findKey_subdirs_list hkeys hroot hslash]
  constructor
  · rintro ⟨hn, ⟨rest, rfl⟩, ⟨s, hkey⟩, rfl⟩
    refine ⟨rest, fun h => hn.slash (List.mem_append_right _ h), ⟨s, ?_⟩, rfl, ?_⟩
    · rwa [List.append_assoc (List.drop 1 _)]
    · rw [hsub]
      simp only [List.append_assoc]
  · rintro ⟨rest, hrest, ⟨s, hkey⟩, rfl, rfl⟩
    have hn : '/' ∉ path.path.rtakeWhile (· ≠ '/') ++ rest := fun h =>
      (List.mem_append.1 h).elim hslash hrest
    rw [List.append_assoc (List.drop 1 _)] at hkey
    have hnamed := hkeys.named hroot (bucket.mem_commonPrefix.2 ⟨_, s, hkey, hn, rfl⟩)
    refine ⟨hnamed.nameOk, List.prefix_append _ _, ⟨s, hkey⟩, ?_⟩
    rw [hsub]
    simp only [List.append_assoc]

/-- The paths of the files that are listed. -/
def Bucket.filePaths (bucket : Bucket) (path : S3Path) : List S3Path :=
  (bucket.listed path).files.map fun e => e.2.absoluteName

/-- They are those of the objects asked for directly below the path, each once. -/
theorem mem_filePaths (habs : path.path.head? = some '/') {k : S3Path} :
    k ∈ bucket.filePaths path ↔
      ∃ rest, '/' ∉ rest ∧ bucket.Asked path (path.path.drop 1 ++ rest) ∧
        k = { path with path := '/' :: (path.path.drop 1 ++ rest) } := by
  unfold Bucket.filePaths
  rw [List.mem_map]
  constructor
  · rintro ⟨⟨n, g⟩, hmem, rfl⟩
    obtain ⟨rest, hrest, hasked, -, rfl⟩ := (mem_files_listed habs).1 hmem
    exact ⟨rest, hrest, hasked, rfl⟩
  · rintro ⟨rest, hrest, hasked, rfl⟩
    exact ⟨_, (mem_files_listed habs).2 ⟨rest, hrest, hasked, rfl, rfl⟩, rfl⟩

/-- The files directly below a path are listed once each. -/
theorem nodup_filePaths (habs : path.path.head? = some '/') : (bucket.filePaths path).Nodup := by
  have hsorted : Sorted (bucket.listed path).files := (sorted_root_readItems _).1
  have hnodup : (bucket.listed path).files.Nodup := .of_map _ (hsorted.imp ne_of_lt)
  refine (List.nodup_map_iff_inj_on hnodup).2 ?_
  rintro ⟨n, g⟩ he ⟨n', g'⟩ he' heq
  obtain ⟨rest, -, -, rfl, rfl⟩ := (mem_files_listed habs).1 he
  obtain ⟨rest', -, -, rfl, rfl⟩ := (mem_files_listed habs).1 he'
  have hpath := congrArg S3Path.path heq
  obtain rfl : rest = rest' := by simpa using hpath
  rfl

/-- The paths of the subdirectories that are listed. -/
def Bucket.subdirPaths (bucket : Bucket) (path : S3Path) : List S3Path :=
  (bucket.listed path).subdirs.map fun e => e.2.info

/-- They are those below which there are objects asked for, each once. -/
theorem mem_subdirPaths (hkeys : bucket.PlainKeys) (habs : path.path.head? = some '/')
    {k : S3Path} : k ∈ bucket.subdirPaths path ↔
      ∃ rest, '/' ∉ rest ∧ (∃ s, path.path.drop 1 ++ rest ++ '/' :: s ∈ bucket.keys) ∧
        k = { path with path := '/' :: (path.path.drop 1 ++ rest ++ "/".toList) } := by
  unfold Bucket.subdirPaths
  rw [List.mem_map]
  constructor
  · rintro ⟨⟨n, e⟩, hmem, rfl⟩
    obtain ⟨rest, hrest, hkey, -, rfl⟩ := (mem_subdirs_listed hkeys habs).1 hmem
    exact ⟨rest, hrest, hkey, rfl⟩
  · rintro ⟨rest, hrest, hkey, rfl⟩
    exact ⟨_, (mem_subdirs_listed hkeys habs).2 ⟨rest, hrest, hkey, rfl, rfl⟩, rfl⟩

/-- The subdirectories are listed once each. -/
theorem nodup_subdirPaths (hkeys : bucket.PlainKeys) (habs : path.path.head? = some '/') :
    (bucket.subdirPaths path).Nodup := by
  have hsorted : Sorted (bucket.listed path).subdirs := (sorted_root_readItems _).2
  have hnodup : (bucket.listed path).subdirs.Nodup := .of_map _ (hsorted.imp ne_of_lt)
  refine (List.nodup_map_iff_inj_on hnodup).2 ?_
  rintro ⟨n, e⟩ he ⟨n', e'⟩ he' heq
  obtain ⟨rest, -, -, rfl, rfl⟩ := (mem_subdirs_listed hkeys habs).1 he
  obtain ⟨rest', -, -, rfl, rfl⟩ := (mem_subdirs_listed hkeys habs).1 he'
  have hpath := congrArg S3Path.path heq
  obtain rfl : rest = rest' := by simpa [unlisted, Dir.info] using hpath
  rfl

end

/-! ## The files -/

namespace LsEnv

section
variable {env : LsEnv}

/-- The headers that the first of the attempts to return has, if those before it are tried again. -/
theorem attempts_eq_some {path : S3Path} {mod : FileDesc} {fuel f : Nat}
    (hfuel : fuel + f = maxAttempts) : env.attempts path fuel f = some mod ↔
      ∃ g, f ≤ g ∧ g < maxAttempts ∧ env.describe path g = .ok mod ∧
        ∀ j, f ≤ j → j < g → ∃ e, env.describe path j = .error e ∧ e.retried := by
  induction fuel generalizing f with
  | zero =>
    refine ⟨nofun, fun ⟨g, hle, hlt, _⟩ => ?_⟩
    omega
  | succ fuel ih =>
    unfold attempts
    cases hdesc : env.describe path f with
    | ok mod' =>
      dsimp only
      constructor
      · intro h
        cases h
        exact ⟨f, le_refl _, by omega, hdesc, fun j hle hlt => absurd hlt (by omega)⟩
      · rintro ⟨g, hle, -, hg, hbefore⟩
        rcases Nat.lt_or_eq_of_le hle with hlt | rfl
        · obtain ⟨e, he, -⟩ := hbefore f (le_refl _) hlt
          rw [hdesc] at he
          cases he
        · rw [hdesc] at hg
          cases hg
          rfl
    | error e =>
      have hstep : ∀ g, f ≤ g → env.describe path g = .ok mod → f + 1 ≤ g := by
        intro g hle hg
        rcases Nat.lt_or_eq_of_le hle with hlt | rfl
        · exact hlt
        · rw [hdesc] at hg
          cases hg
      by_cases hretried : e.retried = true
      · by_cases hlast : f + 1 < maxAttempts
        · have hafter : afterAttempt f (some e) = .next (f + 1) := by
            simp [afterAttempt, hretried, hlast]
          simp only [hafter, ih (f := f + 1) (by omega)]
          constructor
          · rintro ⟨g, hle, hlt, hg, hbefore⟩
            refine ⟨g, by omega, hlt, hg, fun j hj hjg => ?_⟩
            rcases Nat.lt_or_eq_of_le hj with hj | rfl
            · exact hbefore j hj hjg
            · exact ⟨e, hdesc, hretried⟩
          · rintro ⟨g, hle, hlt, hg, hbefore⟩
            exact ⟨g, hstep g hle hg, hlt, hg, fun j hj hjg => hbefore j (by omega) hjg⟩
        · have hafter : afterAttempt f (some e) = .ended true := by simp [afterAttempt, hlast]
          simp only [hafter, reduceCtorEq, false_iff]
          rintro ⟨g, hle, hlt, hg, -⟩
          have := hstep g hle hg
          omega
      · have hafter : afterAttempt f (some e) = .ended true := by simp [afterAttempt, hretried]
        simp only [hafter, reduceCtorEq, false_iff]
        rintro ⟨g, hle, hlt, hg, hbefore⟩
        obtain ⟨e', he', hretried'⟩ := hbefore f (le_refl _) (hstep g hle hg)
        rw [hdesc] at he'
        cases he'
        exact hretried hretried'

/-- The map and the number of failures after the tasks, in any order. -/
theorem foldl_runGetFileInfo (order : List S3Path) (s : List (S3Path × FileDesc) × Nat) :
    order.foldl env.runGetFileInfo s =
      (order.foldl (fun m path => (env.getFileInfo path).elim m fun mod =>
          insertBy S3Path.less path mod m) s.1,
        s.2 + order.countP fun path => (env.getFileInfo path).isNone) := by
  induction order generalizing s with
  | nil => rfl
  | cons path order ih =>
    rw [List.foldl_cons, List.foldl_cons, ih]
    unfold runGetFileInfo
    cases h : env.getFileInfo path with
    | none => simp [h, Nat.add_assoc, Nat.add_comm 1]
    | some mod => simp [h]

/-- The loop over files that are all described. -/
theorem printFiles_ok {desc : S3Path → Except Thrown FileDesc} {mods : S3Path → FileDesc}
    {files : List (Str × S3File)} (h : ∀ e ∈ files, desc e.2.absoluteName =
      .ok (mods e.2.absoluteName)) {n : Nat × Nat} (hn : n.1 < 2 ^ 64 ∧ n.2 < 2 ^ 64) :
    env.printFiles desc files n =
      (files.map fun e => fileLine e.2.absoluteName (mods e.2.absoluteName),
        .ok ((n.1 + files.length) % 2 ^ 64,
          (n.2 + (files.map fun e => env.info.size e.2).sum) % 2 ^ 64)) := by
  induction files generalizing n with
  | nil =>
    rw [printFiles, List.map_nil, List.map_nil, List.length_nil, List.sum_nil, Nat.add_zero,
      Nat.add_zero, Nat.mod_eq_of_lt hn.1, Nat.mod_eq_of_lt hn.2]
  | cons e files ih =>
    obtain ⟨name, file⟩ := e
    have hmod : ∀ k, k % 2 ^ 64 < 2 ^ 64 := fun k => Nat.mod_lt _ (by decide)
    rw [printFiles, h _ List.mem_cons_self]
    dsimp only
    rw [ih (fun e he => h e (List.mem_cons_of_mem _ he)) ⟨hmod _, hmod _⟩]
    simp [Nat.mod_add_mod, Nat.add_assoc, Nat.add_comm 1]

/-- The loop ends at the first file that is not described. -/
theorem printFiles_error {desc : S3Path → Except Thrown FileDesc} {mods : S3Path → FileDesc}
    {files files' : List (Str × S3File)} {e : Str × S3File} {thrown : Thrown}
    (h : ∀ e ∈ files, desc e.2.absoluteName = .ok (mods e.2.absoluteName))
    (he : desc e.2.absoluteName = .error thrown) (n : Nat × Nat) :
    env.printFiles desc (files ++ e :: files') n =
      (files.map fun e => fileLine e.2.absoluteName (mods e.2.absoluteName), .error thrown) := by
  induction files generalizing n with
  | nil => rw [List.nil_append, printFiles, he]; rfl
  | cons e' files ih =>
    obtain ⟨name, file⟩ := e'
    rw [List.cons_append, printFiles, h _ List.mem_cons_self]
    dsimp only
    rw [ih fun e he => h e (List.mem_cons_of_mem _ he)]
    rfl

/-- The lines of the subdirectories. -/
def dirLines (d : S3Dir) : List Str := d.subdirs.map fun e => dirLine e.2.info

/-- The lines of files with such headers. -/
def fileLines (mods : S3Path → FileDesc) (files : List (Str × S3File)) : List Str :=
  files.map fun e => fileLine e.2.absoluteName (mods e.2.absoluteName)

variable (env) in
/-- All lines of a directory. -/
def allLines (mods : S3Path → FileDesc) (d : S3Dir) : List Str :=
  dirLines d ++ fileLines mods d.files ++ totalLines (d.files.length % 2 ^ 64)
    (d.subdirs.length % 2 ^ 64) ((d.files.map fun e => env.info.size e.2).sum % 2 ^ 64)

/-- A directory whose files are all described. -/
theorem printAll_ok {desc : S3Path → Except Thrown FileDesc} {mods : S3Path → FileDesc} {d : S3Dir}
    (h : ∀ e ∈ d.files, desc e.2.absoluteName = .ok (mods e.2.absoluteName)) :
    env.printAll desc d = (env.allLines mods d, .ok 0) := by
  unfold printAll
  rw [printFiles_ok h ⟨by decide, by decide⟩, Nat.zero_add, Nat.zero_add]
  rfl

/-- The headers of a path, as the attempts of its task find them. -/
theorem getFileInfo_eq_some {path : S3Path} {mod : FileDesc} :
    env.getFileInfo path = some mod ↔ ∃ g < maxAttempts, env.describe path g = .ok mod ∧
      ∀ j < g, ∃ e, env.describe path j = .error e ∧ e.retried := by
  unfold getFileInfo
  rw [attempts_eq_some (by rfl)]
  constructor
  · rintro ⟨g, -, hlt, hg, hbefore⟩
    exact ⟨g, hlt, hg, fun j hj => hbefore j (Nat.zero_le _) hj⟩
  · rintro ⟨g, hlt, hg, hbefore⟩
    exact ⟨g, Nat.zero_le _, hlt, hg, fun j _ hj => hbefore j hj⟩

section
variable {bucket : Bucket} {path : S3Path} {order : List S3Path}

/-- After the tasks, in any order, the map has what each found. -/
theorem findBy_runTasks (habs : path.path.head? = some '/')
    (horder : order.Perm (bucket.filePaths path)) {k : S3Path} (hk : k ∈ bucket.filePaths path) :
    findBy S3Path.less k (order.foldl env.runGetFileInfo ([], 0)).1 = env.getFileInfo k := by
  have hin : ∀ k ∈ bucket.filePaths path, k ∈ {p | p.zone = path.zone ∧ p.bucket = path.bucket} := by
    intro k hk
    obtain ⟨rest, -, -, rfl⟩ := (mem_filePaths habs).1 hk
    exact ⟨rfl, rfl⟩
  rw [foldl_runGetFileInfo]
  dsimp only
  rw [findBy_foldl_insertBy (less_keys_bucket path.zone path.bucket) _
    (fun k hk => hin k (horder.subset hk)) (hin k hk), if_pos (horder.mem_iff.2 hk)]

/-- The number of tasks that failed. -/
theorem failed_runTasks (horder : order.Perm (bucket.filePaths path)) :
    (order.foldl env.runGetFileInfo ([], 0)).2 =
      (bucket.filePaths path).countP fun k => (env.getFileInfo k).isNone := by
  rw [foldl_runGetFileInfo, Nat.zero_add, horder.countP_eq]

/-- There are as many paths as files. -/
theorem length_filePaths : (bucket.filePaths path).length = (bucket.listed path).files.length :=
  List.length_map _

/-- More than ten files, all of which are found. -/
theorem printDir_tasks_ok (habs : path.path.head? = some '/')
    (horder : order.Perm (bucket.filePaths path)) (hmany : 10 < (bucket.filePaths path).length)
    {mods : S3Path → FileDesc} (h : ∀ k ∈ bucket.filePaths path, env.getFileInfo k = some (mods k)) :
    env.printDir order (bucket.listed path) = (env.allLines mods (bucket.listed path), .ok 0) := by
  have hfailed : (order.foldl env.runGetFileInfo ([], 0)).2 = 0 := by
    rw [failed_runTasks horder, List.countP_eq_zero]
    intro k hk
    rw [h k hk]
    exact Bool.false_ne_true
  unfold printDir
  rw [if_pos (length_filePaths ▸ hmany)]
  dsimp only
  rw [hfailed, if_neg (by decide)]
  refine printAll_ok fun e he => ?_
  have hk : e.2.absoluteName ∈ bucket.filePaths path := List.mem_map_of_mem he
  rw [findBy_runTasks habs horder hk, h _ hk]

/-- More than ten files, not all of which are found. -/
theorem printDir_tasks_failed (horder : order.Perm (bucket.filePaths path))
    (hmany : 10 < (bucket.filePaths path).length) {failed : Nat}
    (hfailed : failed = (bucket.filePaths path).countP fun k => (env.getFileInfo k).isNone)
    (hne : toInt failed ≠ 0) :
    env.printDir order (bucket.listed path) =
      (dirLines (bucket.listed path), .ok (toInt failed)) := by
  unfold printDir
  rw [if_pos (length_filePaths ▸ hmany)]
  dsimp only
  rw [failed_runTasks horder, ← hfailed, if_pos hne]
  rfl

/-- At most ten files. -/
theorem printDir_loop (hfew : (bucket.filePaths path).length ≤ 10) :
    env.printDir order (bucket.listed path) =
      env.printAll (fun path => env.describe path 0) (bucket.listed path) := by
  unfold printDir
  rw [if_neg (by rw [← length_filePaths]; omega)]

end

/-- `do_ls` prints the directory of its path. -/
theorem evals_doLs {tgt zone : Str} {path : S3Path} (hparse : parsePath tgt = .ok path)
    (hregion : env.findRegion path.bucket = .ok zone)
    (hkeys : [] ∉ (env.buckets path.bucket).keys) (hsize : 1 ≤ env.pageSize)
    (hlist : ∀ n, env.listFails n = none) (order : List S3Path) :
    (env.doLs order [tgt] false).Evals (.ok (env.printDir order
      ((env.buckets path.bucket).listed { path with zone := zone }))) := by
  have hlocate : (env.locate tgt).Evals (.ok { path with zone := zone }) := by
    unfold CommandEnv.locate
    rw [hparse]
    dsimp only
    rw [hregion]
    exact Prog.evals_pure _
  have hlisting := evals_listing { path with zone := zone } hkeys hsize hlist
  exact hlocate.bind (hlisting.bind (Prog.evals_pure _))

end

end LsEnv

/-- A service with a bucket of two objects, and one of twelve. The objects have five bytes and no
headers, and the first request about `c` fails. -/
def twoBuckets : LsEnv where
  useSsl := false
  buckets name := Bucket.ofKeys <| List.map String.toList <|
    if name = "few".toList then ["a", "d/x"]
    else ["a", "b", "c", "d/x", "e", "f", "g", "h", "i", "j", "k", "l"]
  findRegion _ := .ok "s3".toList
  pageSize := 1
  listFails _ := none
  uploadFails := none
  existsLocal _ := false
  system _ := 0
  info := ⟨fun _ => 5, fun _ => []⟩
  head path f := if path.path = "/c".toList ∧ f = 0 then .error (.es3 .errWarn) else .ok (200, [])

end ExtremeS3
