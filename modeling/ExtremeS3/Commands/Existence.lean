import ExtremeS3.Connection.ParsePath
import ExtremeS3.Connection.Url
import ExtremeS3.Sync.Pages

/-!
# The commands `test` and `touch`

`do_test` and `do_touch` list the keys that begin with the one of a path, and take it to exist when
the listing is not empty. A listing has the keys that merely begin with the same letters, and does
not have the object of a directory itself; so the commands tell the truth exactly where neither
matters (`existence_commands_iff`). What a listing shows is first what keys begin with the key of
the path (`exists_shown_iff`), and then what exists, but in two cases (`shownAt_iff_existsAt`). What
`do_touch` creates is read from the URL of its request (`readUrl_setUrl_path`).
-/

namespace ExtremeS3

/-! ## The code -/

/-- What a command depends on: the buckets by their names, what answers its requests, and the local
system. -/
structure CommandEnv where
  useSsl : Bool
  buckets : Str → Bucket
  findRegion : Str → Except Thrown Str
  pageSize : Nat
  listFails : Nat → Option Thrown
  uploadFails : Option Thrown
  existsLocal : Str → Bool
  system : Str → Int

/-- What an error in a URL throws. -/
def UrlError.thrown : UrlError → Thrown
  | .badException => .other
  | .fatal _ => .es3 .errFatal

/-- The object that the service stores at a request of `upload_data` that it accepts, with its bucket.
Authentication is not modelled: that a service refuses a request for its signature is one of the
ways in which a request fails. -/
def storedFor (useSsl : Bool) (path : S3Path) : List (Str × Str) :=
  let address := readUrl (setUrl useSsl path [])
  if address.host = path.host ∧ address.query = [] ∧ address.path.drop 1 ≠ [] then
    [(path.bucket, address.path.drop 1)]
  else []

namespace CommandEnv

variable (env : CommandEnv)

/-- The path of a command, with the zone that `find_region` finds. -/
def locate (tgt : Str) : Prog Thrown S3Path :=
  match parsePath tgt with
  | .error e => .throw e.thrown
  | .ok path =>
    match env.findRegion path.bucket with
    | .error e => .throw e
    | .ok region => pure { path with zone := region }

/-- `list_files_shallow` of a path, with `try_to_root`. -/
def listing (path : S3Path) : Prog Thrown S3Dir := do
  let answer := (env.buckets path.bucket).answer env.pageSize env.listFails
  match ← (listFilesShallow answer path none true 0).attempt with
  | .error (e, _) => .throw e
  | .ok s => pure s.target

/-- `upload_data` of an object without content, with the objects that the service stores. -/
def uploadData (path : S3Path) : Prog Thrown (List (Str × Str)) :=
  match env.uploadFails with
  | some e => .throw e
  | none => pure (storedFor env.useSsl path)

/-- `do_test`. -/
def doTest (params : List Str) (help : Bool) : Prog Thrown Int :=
  if help then pure 0
  else
    match params with
    | [tgt] =>
      if "s3://".toList <+: tgt then do
        let path ← env.locate tgt
        let ptr ← env.listing path
        pure (if !ptr.subdirs.isEmpty || !ptr.files.isEmpty then 0 else 1)
      else pure (if env.existsLocal tgt then 0 else 1)
    | _ => pure 2

/-- `do_touch`, with the objects that it creates, each with its bucket. -/
def doTouch (params : List Str) (help : Bool) : Prog Thrown (Int × List (Str × Str)) :=
  if help then pure (0, [])
  else
    match params with
    | [tgt] =>
      if "s3://".toList <+: tgt then do
        let path ← env.locate tgt
        let ptr ← env.listing path
        if ptr.subdirs.isEmpty && ptr.files.isEmpty then do
          let created ← env.uploadData path
          pure (0, created)
        else pure (0, [])
      else pure (env.system ("touch ".toList ++ tgt), [])
    | _ => pure (2, [])

end CommandEnv

/-! ## What exists, and what a listing shows -/

/-- A key as the one of a directory. -/
def asDirectory (key : Str) : Str :=
  if key = [] ∨ key.getLast? = some '/' then key else key ++ "/".toList

/-- There is an object with the key, or one below it as a directory. -/
def ExistsAt (keys : List Str) (key : Str) : Prop :=
  ∃ k ∈ keys, k = key ∨ asDirectory key <+: k

/-- A listing of the key shows something: a key that begins with it, but not the object of a
directory itself. -/
def ShownAt (keys : List Str) (key : Str) : Prop :=
  ∃ k ∈ keys, key <+: k ∧ (k ≠ key ∨ key.getLast? ≠ some '/')

/-- There is the object of a directory, and nothing below. -/
def OnlyMarker (keys : List Str) (key : Str) : Prop :=
  key.getLast? = some '/' ∧ key ∈ keys ∧ ∀ k ∈ keys, key <+: k → k = key

/-- There are keys that begin with this one, but it does not exist. -/
def OnlyBeside (keys : List Str) (key : Str) : Prop :=
  (∃ k ∈ keys, key <+: k) ∧ ¬ ExistsAt keys key

/-- The key of a directory goes on from that of an object. -/
theorem prefix_asDirectory (key : Str) : key <+: asDirectory key := by
  unfold asDirectory
  split
  · exact List.prefix_refl _
  · exact List.prefix_append _ _

/-- What exists begins with the key. -/
theorem ExistsAt.begins {keys : List Str} {key : Str} (h : ExistsAt keys key) :
    ∃ k ∈ keys, key <+: k := by
  obtain ⟨k, hk, rfl | hbelow⟩ := h
  · exact ⟨k, hk, List.prefix_refl _⟩
  · exact ⟨k, hk, (prefix_asDirectory key).trans hbelow⟩

/-- A listing shows what begins with the key, unless it is the object of a directory alone. -/
theorem shownAt_iff {keys : List Str} {key : Str} :
    ShownAt keys key ↔ (∃ k ∈ keys, key <+: k) ∧ ¬ OnlyMarker keys key := by
  constructor
  · rintro ⟨k, hk, hle, hne⟩
    refine ⟨⟨k, hk, hle⟩, fun ⟨hslash, _, hall⟩ => ?_⟩
    exact hne.elim (fun h => h (hall k hk hle)) fun h => h hslash
  · rintro ⟨⟨k, hk, hle⟩, hno⟩
    by_cases hslash : key.getLast? = some '/'
    · by_contra hshown
      refine hno ⟨hslash, ?_, ?_⟩
      · by_contra hmem
        exact hshown ⟨k, hk, hle, .inl fun he => hmem (he ▸ hk)⟩
      · intro j hj hle'
        by_contra hne
        exact hshown ⟨j, hj, hle', .inl hne⟩
    · exact ⟨k, hk, hle, .inr hslash⟩

/-- The object of a directory exists. -/
theorem OnlyMarker.existsAt {keys : List Str} {key : Str} (h : OnlyMarker keys key) :
    ExistsAt keys key := ⟨key, h.2.1, .inl rfl⟩

/-- A listing tells what exists but in two cases. -/
theorem shownAt_iff_existsAt {keys : List Str} {key : Str} :
    (ShownAt keys key ↔ ExistsAt keys key) ↔ ¬ OnlyMarker keys key ∧ ¬ OnlyBeside keys key := by
  rw [shownAt_iff]
  constructor
  · intro h
    refine ⟨fun hmarker => (h.2 hmarker.existsAt).2 hmarker, fun ⟨hbegins, hno⟩ => ?_⟩
    exact hno (h.1 ⟨hbegins, fun hmarker => hno hmarker.existsAt⟩)
  · rintro ⟨hmarker, hbeside⟩
    refine ⟨fun ⟨hbegins, _⟩ => ?_, fun h => ⟨h.begins, hmarker⟩⟩
    by_contra hno
    exact hbeside ⟨hbegins, hno⟩

/-- Where a listing shows something, it has to exist; where it does not, it exists afterwards also if
it is created. -/
theorem exists_after_iff {keys : List Str} {key : Str} {created : Prop} :
    ((ShownAt keys key → ExistsAt keys key) ∧
        (¬ ShownAt keys key → ExistsAt keys key ∨ created)) ↔
      ¬ OnlyBeside keys key ∧ ((∃ k ∈ keys, key <+: k) ∨ created) := by
  constructor
  · rintro ⟨hlisted, hunlisted⟩
    by_cases hexists : ExistsAt keys key
    · exact ⟨fun h => h.2 hexists, .inl hexists.begins⟩
    · have hno : ¬ ShownAt keys key := fun h => hexists (hlisted h)
      have hcreated : created := (hunlisted hno).resolve_left hexists
      refine ⟨fun ⟨hbegins, _⟩ => hno (shownAt_iff.2 ⟨hbegins, fun h => ?_⟩), .inr hcreated⟩
      exact hexists h.existsAt
  · rintro ⟨hbeside, hor⟩
    have hexists : (∃ k ∈ keys, key <+: k) → ExistsAt keys key := fun hbegins => by
      by_contra hno
      exact hbeside ⟨hbegins, hno⟩
    exact ⟨fun h => hexists (shownAt_iff.1 h).1, fun _ => hor.imp hexists id⟩

/-! ## The listing -/

/-- `ptr->subdirs_` or `ptr->files_` has something. -/
def Dir.showsAny (d : S3Dir) : Bool := !d.subdirs.isEmpty || !d.files.isEmpty

/-- An item that adds something to a directory. -/
def Item.shown : Item → Bool
  | .content name => name.getLast? ≠ some '/'
  | .commonPrefix _ => true

/-- A map that was written to is not empty. -/
theorem isEmpty_upsert {V : Type} (k : Str) (f : Option V → V) (m : List (Str × V)) :
    (upsert k f m).isEmpty = false := by
  cases m with
  | nil => rfl
  | cons e m =>
    obtain ⟨k', v⟩ := e
    rw [upsert]
    split
    · rfl
    · split <;> rfl

/-- An entry of a listing shows something just if it is not the directory itself. -/
theorem showsAny_addItem (d : S3Dir) (i : Item) :
    (addItem unlisted d i).showsAny = (d.showsAny || i.shown) := by
  cases i with
  | content name =>
    rw [addItem]
    by_cases hlast : name.getLast? = some '/'
    · rw [if_pos hlast]
      simp [Item.shown, hlast]
    · rw [if_neg hlast]
      simp [Dir.showsAny, Item.shown, hlast, isEmpty_upsert]
  | commonPrefix name =>
    simp [addItem, Dir.showsAny, Item.shown, isEmpty_upsert]

/-- A listing shows something just if one of its entries does. -/
theorem showsAny_foldl_addItem (nodes : List Item) (d : S3Dir) :
    (nodes.foldl (addItem unlisted) d).showsAny = (d.showsAny || nodes.any Item.shown) := by
  induction nodes generalizing d with
  | nil => simp
  | cons i nodes ih => rw [List.foldl_cons, ih, showsAny_addItem, List.any_cons, Bool.or_assoc]

/-- What a listing of the key shows. -/
theorem exists_shown_iff {bucket : Bucket} {key : Str} :
    (∃ i ∈ bucket.list key, i.shown) ↔ ShownAt bucket.keys key := by
  constructor
  · rintro ⟨i, hi, hshown⟩
    cases i with
    | content name =>
      obtain ⟨hname, rest, rfl, hrest⟩ := bucket.mem_content.1 hi
      refine ⟨_, hname, List.prefix_append _ _, ?_⟩
      by_cases hnil : rest = []
      · subst hnil
        rw [List.append_nil] at hshown
        exact .inr (of_decide_eq_true hshown)
      · exact .inl fun he => hnil (List.append_right_eq_self.1 he)
    | commonPrefix name =>
      obtain ⟨n, rest, hname, -, -⟩ := bucket.mem_commonPrefix.1 hi
      rw [List.append_assoc] at hname
      refine ⟨_, hname, List.prefix_append _ _, .inl fun he => ?_⟩
      have := List.append_right_eq_self.1 he
      exact absurd this (List.append_ne_nil_of_right_ne_nil _ (List.cons_ne_nil _ _))
  · rintro ⟨k, hk, ⟨rest, rfl⟩, hne⟩
    by_cases hslash : '/' ∈ rest
    · obtain ⟨n, s, rfl, hn⟩ := List.eq_append_cons_of_mem hslash
      refine ⟨_, bucket.mem_commonPrefix.2 ⟨n, s, ?_, hn, rfl⟩, rfl⟩
      rwa [List.append_assoc]
    · refine ⟨_, bucket.mem_content.2 ⟨hk, rest, rfl, hslash⟩, decide_eq_true fun hlast => ?_⟩
      by_cases hnil : rest = []
      · subst hnil
        rw [List.append_nil] at hlast hne
        exact hne.elim (fun h => h rfl) fun h => h hlast
      · rw [List.getLast?_append_of_ne_nil _ hnil] at hlast
        exact hslash (List.mem_of_getLast? hlast)

namespace CommandEnv

variable {env : CommandEnv}

/-- A listing ends, and shows what there is to show, or a request fails. -/
theorem listing_ends (path : S3Path) (hkeys : [] ∉ (env.buckets path.bucket).keys)
    (hsize : 1 ≤ env.pageSize) :
    (∃ d, (env.listing path).Evals (.ok d) ∧
      (d.showsAny ↔ ShownAt (env.buckets path.bucket).keys (path.path.drop 1))) ∨
    ∃ e n, (env.listing path).Evals (.error e) ∧ env.listFails n = some e := by
  obtain ⟨r, hr, hends⟩ := listFilesShallow_added hkeys hsize env.listFails path none true 0
  cases r with
  | ok s =>
    obtain ⟨nodes, hadded, hall⟩ := hends
    refine .inl ⟨s.target, hr.attempt.bind (Prog.evals_pure _), ?_⟩
    rw [hadded.eq, showsAny_foldl_addItem, ← exists_shown_iff]
    have hstart : (unlisted (toRoot path)).showsAny = false := rfl
    rw [Option.getD_none, if_pos rfl, hstart, Bool.false_or, List.any_eq_true]
    exact ⟨fun ⟨i, hi, h⟩ => ⟨i, hadded.subset hi, h⟩, fun ⟨i, hi, h⟩ => ⟨i, hall i hi, h⟩⟩
  | error x =>
    obtain ⟨e, s⟩ := x
    obtain ⟨-, n, -, -, hn⟩ := hends
    exact .inr ⟨e, n, hr.attempt.bind (Prog.evals_throw e), hn⟩

end CommandEnv

/-! ## The object that `touch` creates -/

/-- An object exists among two lists of keys if it does in one of them. -/
theorem existsAt_append {keys keys' : List Str} {key : Str} :
    ExistsAt (keys ++ keys') key ↔ ExistsAt keys key ∨ ExistsAt keys' key := by
  simp only [ExistsAt, List.mem_append, or_and_right, exists_or]

/-- A key that is not longer exists only as itself. -/
theorem existsAt_singleton {k key : Str} (h : k.length ≤ key.length) :
    ExistsAt [k] key ↔ k = key := by
  constructor
  · rintro ⟨j, hj, hor⟩
    rw [List.mem_singleton.1 hj] at hor
    rcases hor with rfl | hbelow
    · rfl
    · have hle := (prefix_asDirectory key).trans hbelow
      exact (hle.eq_of_length_le h).symm
  · rintro rfl
    exact ⟨k, List.mem_singleton_self _, .inl rfl⟩

/-- The path that a request about the object is read with. -/
theorem readUrl_setUrl_path (useSsl : Bool) {path : S3Path} {key : Str}
    (hpath : path.path = '/' :: key) (hhost : HostClean path.host) :
    (readUrl (setUrl useSsl path [])).path =
      '/' :: percentDecode (key.takeWhile fun c => c ≠ '?' ∧ c ≠ '#') := by
  have hhead : path.path.head? = some '/' := by rw [hpath]; rfl
  have hurl : setUrl useSsl path [] = requestUrl useSsl path none := rfl
  rw [hurl, requestUrl_eq useSsl hhead, readUrl_eq useSsl hhead hhost, queryText, List.append_nil,
    hpath]
  dsimp only
  rw [List.takeWhile_cons_of_pos (by decide), percentDecode]
  simp

/-- An object is stored in the bucket of its path. -/
theorem bucket_of_storedFor {useSsl : Bool} {path : S3Path} {e : Str × Str}
    (h : e ∈ storedFor useSsl path) : e.1 = path.bucket := by
  rw [storedFor] at h
  split at h
  · rw [List.mem_singleton.1 h]
  · cases h

/-- The request of `touch` creates the object of the path just if the path has nothing that is read
otherwise, and is not the root. -/
theorem existsAt_storedFor (useSsl : Bool) {path : S3Path} (hhead : path.path.head? = some '/') :
    ExistsAt ((storedFor useSsl path).map Prod.snd) (path.path.drop 1) ↔
      HostClean path.host ∧ PathClean path.path ∧ path.path.drop 1 ≠ [] := by
  obtain ⟨key, hpath⟩ := List.head?_eq_some_iff.1 hhead
  have hkey : path.path.drop 1 = key := by rw [hpath]; rfl
  have hurl : setUrl useSsl path [] = requestUrl useSsl path none := rfl
  rw [hkey]
  constructor
  · intro hexists
    rw [storedFor] at hexists
    split at hexists
    · next hcond =>
      obtain ⟨hhost, hquery, hne⟩ := hcond
      have hclean : HostClean path.host := by
        rw [hurl] at hhost
        exact hostClean_of_readUrl hhead hhost
      have hread := readUrl_setUrl_path useSsl hpath hclean
      -- decoding makes nothing longer
      have hle := (length_percentDecode_le (key.takeWhile fun c => c ≠ '?' ∧ c ≠ '#')).trans
        (List.takeWhile_prefix _).length_le
      rw [List.map_singleton, hread, List.drop_one, List.tail_cons, existsAt_singleton hle] at hexists
      rw [hexists, ← hpath] at hread
      have haddress : readUrl (requestUrl useSsl path none) = ⟨path.host, path.path, []⟩ := by
        rw [← hurl]
        generalize readUrl (setUrl useSsl path []) = address at hhost hquery hread
        obtain ⟨host, p, query⟩ := address
        rw [← hhost, ← hread, ← show query = [] from hquery]
      refine ⟨hclean, (clean_of_readUrl hhead haddress).2, ?_⟩
      rwa [hread, hkey] at hne
    · obtain ⟨k, hk, -⟩ := hexists
      cases hk
  · rintro ⟨hhost, hclean, hne⟩
    have haddress := readUrl_requestUrl useSsl hhead hhost hclean none
    rw [storedFor, hurl, haddress]
    dsimp only
    rw [if_pos ⟨rfl, rfl, by rwa [hkey]⟩, List.map_singleton, hkey]
    exact ⟨key, List.mem_singleton_self _, .inl rfl⟩

/-! ## The commands -/

/-- What the commands rely on: a key is not empty, a page has room, and a zone is part of a host. -/
structure CommandEnv.Ok (env : CommandEnv) : Prop where
  keys : ∀ name, [] ∉ (env.buckets name).keys
  pageSize : 1 ≤ env.pageSize
  zone : ∀ name region, env.findRegion name = .ok region → HostClean region

/-- No request about the bucket fails. -/
structure CommandEnv.Answered (env : CommandEnv) (bucket : Str) : Prop where
  region : ∃ region, env.findRegion bucket = .ok region
  listed : ∀ n, env.listFails n = none
  uploaded : env.uploadFails = none

/-- A zone without special characters leaves the host as clean as the name of the bucket. -/
theorem hostClean_iff {path : S3Path} {zone : Str} (hzone : HostClean zone) :
    HostClean { path with zone := zone }.host ↔ HostClean path.bucket := by
  have hdot : HostClean ".".toList := by decide
  have hamazon : HostClean ".amazonaws.com".toList := by decide
  unfold S3Path.host HostClean at *
  simp only [List.forall_mem_append]
  exact ⟨fun h => h.1.1.1, fun h => ⟨⟨⟨h, hdot⟩, hzone⟩, hamazon⟩⟩

/-- The request is about the bucket of the path, whatever its zone. -/
theorem existsAt_created (useSsl : Bool) {path : S3Path} (hhead : path.path.head? = some '/')
    {zone : Str} (hzone : HostClean zone) :
    ExistsAt (((storedFor useSsl { path with zone := zone }).filter
        fun e => e.1 = path.bucket).map Prod.snd) (path.path.drop 1) ↔
      HostClean path.bucket ∧ PathClean path.path ∧ path.path.drop 1 ≠ [] := by
  rw [← hostClean_iff hzone]
  obtain ⟨located, hlocated⟩ : ∃ p, p = { path with zone := zone } := ⟨_, rfl⟩
  have hbucket : path.bucket = located.bucket := by rw [hlocated]
  have hpath : path.path = located.path := by rw [hlocated]
  rw [← hlocated, hbucket, hpath]
  rw [hpath] at hhead
  have hall : (storedFor useSsl located).filter (fun e => e.1 = located.bucket) =
      storedFor useSsl located :=
    List.filter_eq_self.2 fun e he => decide_eq_true (bucket_of_storedFor he)
  rw [hall]
  exact existsAt_storedFor useSsl hhead

namespace CommandEnv

variable {env : CommandEnv} {tgt : Str} {path : S3Path}

variable (env) in
/-- A path that was parsed is located in some zone, or the request for the zone throws. -/
theorem locate_ends (hparse : parsePath tgt = .ok path) :
    (∃ zone, (env.locate tgt).Evals (.ok { path with zone := zone }) ∧
      env.findRegion path.bucket = .ok zone) ∨
    ∃ e, (env.locate tgt).Evals (.error e) ∧ env.findRegion path.bucket = .error e := by
  rw [locate, hparse]
  dsimp only
  cases env.findRegion path.bucket with
  | error e => exact .inr ⟨e, Prog.evals_throw e, rfl⟩
  | ok zone => exact .inl ⟨zone, Prog.evals_pure _, rfl⟩

/-- The requests of a command: the path is located and listed, or one of them fails. -/
theorem locate_listing_ends (hok : env.Ok) (hparse : parsePath tgt = .ok path) :
    (∃ zone d, HostClean zone ∧ (env.locate tgt).Evals (.ok { path with zone := zone }) ∧
      (env.listing { path with zone := zone }).Evals (.ok d) ∧
      (d.showsAny ↔ ShownAt (env.buckets path.bucket).keys (path.path.drop 1))) ∨
    ∃ e, ¬ env.Answered path.bucket ∧ ((env.locate tgt).Evals (.error e) ∨
      ∃ p, (env.locate tgt).Evals (.ok p) ∧ (env.listing p).Evals (.error e)) := by
  rcases locate_ends env hparse with ⟨zone, hlocate, hregion⟩ | ⟨e, hlocate, hregion⟩
  · have hkeys := hok.keys path.bucket
    rcases listing_ends { path with zone := zone } hkeys hok.pageSize with
      ⟨d, hd, hshown⟩ | ⟨e, n, he, hn⟩
    · exact .inl ⟨zone, d, hok.zone _ _ hregion, hlocate, hd, hshown⟩
    · refine .inr ⟨e, fun hanswered => ?_, .inr ⟨_, hlocate, he⟩⟩
      rw [hanswered.listed n] at hn
      cases hn
  · refine .inr ⟨e, fun hanswered => ?_, .inl hlocate⟩
    obtain ⟨zone, hzone⟩ := hanswered.region
    rw [hregion] at hzone
    cases hzone

/-- `do_test` returns by what the listing shows, or a request fails. -/
theorem doTest_ends (hok : env.Ok) (hparse : parsePath tgt = .ok path) :
    (∃ code, (env.doTest [tgt] false).Evals (.ok code) ∧
      (code = 0 ↔ ShownAt (env.buckets path.bucket).keys (path.path.drop 1))) ∨
    ∃ e, (env.doTest [tgt] false).Evals (.error e) ∧ ¬ env.Answered path.bucket := by
  have hrun : env.doTest [tgt] false = (do
      let path ← env.locate tgt
      let ptr ← env.listing path
      pure (if !ptr.subdirs.isEmpty || !ptr.files.isEmpty then 0 else 1)) := by
    unfold doTest
    rw [if_neg Bool.false_ne_true]
    exact if_pos (scheme_of_parsePath hparse)
  rw [hrun]
  rcases locate_listing_ends hok hparse with
    ⟨zone, d, -, hlocate, hd, hshown⟩ | ⟨e, hanswered, hlocate | ⟨p, hlocate, he⟩⟩
  · refine .inl ⟨_, hlocate.bind (hd.bind (Prog.evals_pure _)), ?_⟩
    rw [← hshown, Dir.showsAny]
    split <;> simp [*]
  · exact .inr ⟨e, hlocate.bind_error, hanswered⟩
  · exact .inr ⟨e, hlocate.bind he.bind_error, hanswered⟩

/-- `do_touch` creates an object where the listing shows nothing, or a request fails. -/
theorem doTouch_ends (hok : env.Ok) (hparse : parsePath tgt = .ok path) :
    (∃ created, (env.doTouch [tgt] false).Evals (.ok (0, created)) ∧
      (ShownAt (env.buckets path.bucket).keys (path.path.drop 1) ∧ created = [] ∨
        ¬ ShownAt (env.buckets path.bucket).keys (path.path.drop 1) ∧
          ∃ zone, HostClean zone ∧ created = storedFor env.useSsl { path with zone := zone })) ∨
    ∃ e, (env.doTouch [tgt] false).Evals (.error e) ∧ ¬ env.Answered path.bucket := by
  have hrun : env.doTouch [tgt] false = (do
      let path ← env.locate tgt
      let ptr ← env.listing path
      if ptr.subdirs.isEmpty && ptr.files.isEmpty then do
        let created ← env.uploadData path
        pure (0, created)
      else pure (0, [])) := by
    unfold doTouch
    rw [if_neg Bool.false_ne_true]
    exact if_pos (scheme_of_parsePath hparse)
  rw [hrun]
  rcases locate_listing_ends hok hparse with
    ⟨zone, d, hzone, hlocate, hd, hshown⟩ | ⟨e, hanswered, hlocate | ⟨p, hlocate, he⟩⟩
  · have hempty : (d.subdirs.isEmpty && d.files.isEmpty) = !d.showsAny := by
      simp [Dir.showsAny]
    by_cases hany : d.showsAny = true
    · refine .inl ⟨[], hlocate.bind (hd.bind (Prog.evals_if_neg ?_ (Prog.evals_pure _))),
        .inl ⟨hshown.1 hany, rfl⟩⟩
      simp [hempty, hany]
    · have hcond : (d.subdirs.isEmpty && d.files.isEmpty) = true := by simp [hempty, hany]
      cases huploads : env.uploadFails with
      | none =>
        have hupload : (env.uploadData { path with zone := zone }).Evals
            (.ok (storedFor env.useSsl { path with zone := zone })) := by
          rw [uploadData, huploads]
          exact Prog.evals_pure _
        refine .inl ⟨_, hlocate.bind (hd.bind (Prog.evals_if_pos hcond
          (hupload.bind (Prog.evals_pure _)))), .inr ⟨fun h => hany (hshown.2 h), zone, hzone, rfl⟩⟩
      | some e =>
        have hupload : (env.uploadData { path with zone := zone }).Evals (.error e) := by
          rw [uploadData, huploads]
          exact Prog.evals_throw e
        refine .inr ⟨e, hlocate.bind (hd.bind (Prog.evals_if_pos hcond hupload.bind_error)),
          fun hanswered => ?_⟩
        rw [hanswered.uploaded] at huploads
        cases huploads
  · exact .inr ⟨e, hlocate.bind_error, hanswered⟩
  · exact .inr ⟨e, hlocate.bind he.bind_error, hanswered⟩

end CommandEnv

/-- Whenever `do_test` returns it tells whether the path exists, and it returns if no request
fails. -/
def TestsTruly (buckets : Str → Bucket) (tgt : Str) (path : S3Path) : Prop :=
  ∀ env : CommandEnv, env.Ok → env.buckets = buckets →
    (∀ code, (env.doTest [tgt] false).Evals (.ok code) →
      (code = 0 ↔ ExistsAt (buckets path.bucket).keys (path.path.drop 1))) ∧
    (env.Answered path.bucket → ∃ code, (env.doTest [tgt] false).Evals (.ok code))

/-- Whenever `do_touch` returns success the path exists then. -/
def TouchesTruly (buckets : Str → Bucket) (tgt : Str) (path : S3Path) : Prop :=
  ∀ env : CommandEnv, env.Ok → env.buckets = buckets →
    ∀ created, (env.doTouch [tgt] false).Evals (.ok (0, created)) →
      ExistsAt ((buckets path.bucket).keys ++
        (created.filter fun e => e.1 = path.bucket).map Prod.snd) (path.path.drop 1)

/-- An environment in which no request fails. -/
def plainEnv (buckets : Str → Bucket) : CommandEnv where
  useSsl := false
  buckets := buckets
  findRegion _ := .ok "s3".toList
  pageSize := 1000
  listFails _ := none
  uploadFails := none
  existsLocal _ := false
  system _ := 0

/-- The plain environment has no empty key and a clean zone. -/
theorem plainEnv_ok {buckets : Str → Bucket} (hkeys : ∀ name, [] ∉ (buckets name).keys) :
    (plainEnv buckets).Ok where
  keys := hkeys
  pageSize := (by decide : 1 ≤ 1000)
  zone _ region h := by
    rw [← Except.ok.inj h]
    decide

/-- Its requests are answered. -/
theorem plainEnv_answered (buckets : Str → Bucket) (bucket : Str) :
    (plainEnv buckets).Answered bucket where
  region := ⟨_, rfl⟩
  listed _ := rfl
  uploaded := rfl

/-- Buckets that have one object. -/
def onlyObject (key : Str) : Str → Bucket := fun _ => .ofKeys [key]

/-- A bucket with one key that is not empty has no empty key. -/
theorem onlyObject_keys {key : Str} (hne : key ≠ []) (name : Str) :
    [] ∉ (onlyObject key name).keys := fun h => hne (List.mem_singleton.1 h).symm

/-- What exists after `do_touch`. -/
theorem existsAt_touched {buckets : Str → Bucket} {tgt : Str} {path : S3Path} {useSsl : Bool}
    (hparse : parsePath tgt = .ok path) {created : List (Str × Str)}
    (h : ShownAt (buckets path.bucket).keys (path.path.drop 1) ∧ created = [] ∨
      ¬ ShownAt (buckets path.bucket).keys (path.path.drop 1) ∧
        ∃ zone, HostClean zone ∧ created = storedFor useSsl { path with zone := zone }) :
    ExistsAt ((buckets path.bucket).keys ++
        (created.filter fun e => e.1 = path.bucket).map Prod.snd) (path.path.drop 1) ↔
      (ShownAt (buckets path.bucket).keys (path.path.drop 1) →
        ExistsAt (buckets path.bucket).keys (path.path.drop 1)) ∧
      (¬ ShownAt (buckets path.bucket).keys (path.path.drop 1) →
        ExistsAt (buckets path.bucket).keys (path.path.drop 1) ∨
          HostClean path.bucket ∧ PathClean path.path ∧ path.path.drop 1 ≠ []) := by
  rcases h with ⟨hshown, rfl⟩ | ⟨hshown, zone, hzone, rfl⟩
  · rw [List.filter_nil, List.map_nil, List.append_nil]
    exact ⟨fun h => ⟨fun _ => h, fun hno => absurd hshown hno⟩, fun h => h.1 hshown⟩
  · have hstored := existsAt_created useSsl (path_of_parsePath hparse).1 hzone
    rw [existsAt_append, hstored]
    exact ⟨fun h => ⟨fun hs => absurd hs hshown, fun _ => h⟩, fun h => h.2 hshown⟩

/-- The commands tell the truth about a path exactly when it is not a directory with nothing but its
own object, no key merely begins with the same letters, and a path that has to be created is read by
the service as it was meant. -/
theorem existence_commands_iff {buckets : Str → Bucket} (hkeys : ∀ name, [] ∉ (buckets name).keys)
    {tgt : Str} {path : S3Path} (hparse : parsePath tgt = .ok path) :
    (TestsTruly buckets tgt path ↔
      ¬ OnlyMarker (buckets path.bucket).keys (path.path.drop 1) ∧
        ¬ OnlyBeside (buckets path.bucket).keys (path.path.drop 1)) ∧
    (TouchesTruly buckets tgt path ↔
      ¬ OnlyBeside (buckets path.bucket).keys (path.path.drop 1) ∧
        ((∃ k ∈ (buckets path.bucket).keys, path.path.drop 1 <+: k) ∨
          HostClean path.bucket ∧ PathClean path.path ∧ path.path.drop 1 ≠ [])) := by
  have hok := plainEnv_ok hkeys
  have hanswered := plainEnv_answered buckets path.bucket
  constructor
  · rw [← shownAt_iff_existsAt]
    constructor
    · intro h
      rcases CommandEnv.doTest_ends hok hparse with ⟨code, hcode, hshown⟩ | ⟨e, -, hno⟩
      · exact hshown.symm.trans ((h _ hok rfl).1 code hcode)
      · exact absurd hanswered hno
    · rintro h env henv rfl
      rcases CommandEnv.doTest_ends henv hparse with ⟨code, hcode, hshown⟩ | ⟨e, he, hno⟩
      · refine ⟨fun code' hcode' => ?_, fun _ => ⟨code, hcode⟩⟩
        cases hcode.unique hcode'
        exact hshown.trans h
      · refine ⟨fun code hcode => ?_, fun hans => absurd hans hno⟩
        cases he.unique hcode
  · rw [← exists_after_iff]
    constructor
    · intro h
      rcases CommandEnv.doTouch_ends hok hparse with ⟨created, hrun, hcases⟩ | ⟨e, -, hno⟩
      · exact (existsAt_touched hparse hcases).1 (h _ hok rfl created hrun)
      · exact absurd hanswered hno
    · rintro h env henv rfl created hrun
      rcases CommandEnv.doTouch_ends henv hparse with ⟨created', hrun', hcases⟩ | ⟨e, he, -⟩
      · cases hrun.unique hrun'
        exact (existsAt_touched hparse hcases).2 h
      · cases he.unique hrun

/-- The commands tell the truth about a directory that has a file. -/
theorem existence_commands_iff_directory :
    TestsTruly (onlyObject "foo/x".toList) "s3://b/foo".toList ⟨[], "b".toList, "/foo".toList⟩ ∧
    TouchesTruly (onlyObject "foo/x".toList) "s3://b/foo".toList
      ⟨[], "b".toList, "/foo".toList⟩ := by
  have hkeys := onlyObject_keys (List.cons_ne_nil 'f' "oo/x".toList)
  have hparse : parsePath "s3://b/foo".toList = .ok ⟨[], "b".toList, "/foo".toList⟩ := by decide
  have hexists : ExistsAt ["foo/x".toList] "foo".toList :=
    ⟨_, List.mem_singleton_self _, .inr (by decide)⟩
  have hmarker : ¬ OnlyMarker ["foo/x".toList] "foo".toList := fun h => absurd h.1 (by decide)
  have hbeside : ¬ OnlyBeside ["foo/x".toList] "foo".toList := fun h => h.2 hexists
  obtain ⟨htest, htouch⟩ := existence_commands_iff hkeys hparse
  exact ⟨htest.2 ⟨hmarker, hbeside⟩, htouch.2 ⟨hbeside, .inl hexists.begins⟩⟩

/-- In a bucket with the object `foobar` alone, `test` finds `/foo`, and `touch` does not create
it. -/
theorem beside_found :
    parsePath "s3://b/foo".toList = .ok ⟨[], "b".toList, "/foo".toList⟩ ∧
    ((plainEnv (onlyObject "foobar".toList)).doTest ["s3://b/foo".toList] false).Evals (.ok 0) ∧
    ((plainEnv (onlyObject "foobar".toList)).doTouch ["s3://b/foo".toList] false).Evals
      (.ok (0, [])) ∧
    ¬ ExistsAt ["foobar".toList] "foo".toList ∧
    ¬ TestsTruly (onlyObject "foobar".toList) "s3://b/foo".toList
      ⟨[], "b".toList, "/foo".toList⟩ ∧
    ¬ TouchesTruly (onlyObject "foobar".toList) "s3://b/foo".toList
      ⟨[], "b".toList, "/foo".toList⟩ := by
  have hparse : parsePath "s3://b/foo".toList = .ok ⟨[], "b".toList, "/foo".toList⟩ := by decide
  have hok := plainEnv_ok (onlyObject_keys (List.cons_ne_nil 'f' "oobar".toList))
  have hanswered := plainEnv_answered (onlyObject "foobar".toList) "b".toList
  have hshown : ShownAt ["foobar".toList] "foo".toList :=
    ⟨_, List.mem_singleton_self _, by decide, .inl (by decide)⟩
  have hexists : ¬ ExistsAt ["foobar".toList] "foo".toList := by
    rintro ⟨k, hk, hor⟩
    rw [List.mem_singleton.1 hk] at hor
    exact absurd hor (by decide)
  have htest : ((plainEnv (onlyObject "foobar".toList)).doTest ["s3://b/foo".toList] false).Evals
      (.ok 0) := by
    rcases CommandEnv.doTest_ends hok hparse with ⟨code, hcode, hiff⟩ | ⟨e, -, hno⟩
    · have hzero : code = 0 := hiff.2 hshown
      rwa [hzero] at hcode
    · exact absurd hanswered hno
  have htouch : ((plainEnv (onlyObject "foobar".toList)).doTouch ["s3://b/foo".toList]
      false).Evals (.ok (0, [])) := by
    rcases CommandEnv.doTouch_ends hok hparse with
      ⟨created, hrun, ⟨-, rfl⟩ | ⟨hno, -⟩⟩ | ⟨e, -, hno⟩
    · exact hrun
    · exact absurd hshown hno
    · exact absurd hanswered hno
  refine ⟨hparse, htest, htouch, hexists, fun h => ?_, fun h => ?_⟩
  · exact hexists (((h _ hok rfl).1 0 htest).1 rfl)
  · have hafter := h _ hok rfl [] htouch
    rw [List.filter_nil, List.map_nil, List.append_nil] at hafter
    exact hexists hafter

end ExtremeS3
