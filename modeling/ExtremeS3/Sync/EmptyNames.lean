import ExtremeS3.Sync.Names

/-!
# Keys with empty names

A listing goes on from a directory to a name as to a subdirectory of that name, but from an empty
name it goes on to the prefix of the directory itself, repeated. The keys without empty names are all
reached (`reaches_of_straight`). In a bucket where no key begins or ends with a separator there is no
way back to a key with an empty name, and only those are reached (`straight_of_reaches`).
-/

namespace ExtremeS3

/-- No name of a directory in the path is empty, but the first one of a key may be. -/
def NoEmptyName (pre rest : Str) : Prop :=
  let dirs := (rest.splitOn '/').dropLast
  [] ∉ if pre = [] then dirs.drop 1 else dirs

/-- The prefix below which the names of a listing are those of the objects: that of the root, or,
where the path of the root does not end with a separator, that of the directory below it that has
the last name of the path once more. -/
def straightPrefix (path : S3Path) (tryToRoot : Bool) : Str :=
  let f := path.path.rtakeWhile (· ≠ '/')
  if tryToRoot ∨ f = [] then (toRoot path).path.drop 1
  else path.path.drop 1 ++ '/' :: f ++ "/".toList

/-- Every object asked for is below that prefix, and no name in its key is empty from there on. -/
def Bucket.Straight (bucket : Bucket) (path : S3Path) (tryToRoot : Bool) : Prop :=
  ∀ key, bucket.Asked path key → ∃ rest, key = straightPrefix path tryToRoot ++ rest ∧
    NoEmptyName (straightPrefix path tryToRoot) rest

section

variable {bucket : Bucket} {pre f : Str}

/-- Without a slash there is no name that is empty. -/
theorem noEmptyName_of_slash_free {rest : Str} (h : '/' ∉ rest) : NoEmptyName pre rest := by
  rw [NoEmptyName, List.splitOn_eq_singleton h]
  simp

/-- No name is empty where the first one is not, unless it is the first one of a key, and no other
one is. -/
theorem noEmptyName_cons {n s : Str} (hn : '/' ∉ n) :
    NoEmptyName pre (n ++ '/' :: s) ↔
      (n = [] → pre = []) ∧ NoEmptyName (subdirPrefix pre n) s := by
  have hsplit : ((n ++ '/' :: s).splitOn '/').dropLast = n :: (s.splitOn '/').dropLast := by
    rw [List.splitOn_append_cons_self, List.splitOn_eq_singleton hn]
    exact List.dropLast_cons_of_ne_nil (List.splitOn_ne_nil '/' s)
  have hne : subdirPrefix pre n ≠ [] := by simp [subdirPrefix]
  rw [NoEmptyName, NoEmptyName, hsplit, if_neg hne]
  by_cases hpre : pre = []
  · simp [hpre]
  · simp [hpre, eq_comm]

/-- The prefix of a subdirectory is that of its directory, its name and a slash. -/
theorem subdirPrefix_eq {n : Str} (h : n = [] → pre = []) :
    subdirPrefix pre n = pre ++ n ++ "/".toList := by
  rw [subdirPrefix]
  split
  · next hn => rw [h hn, hn]
  · rfl

/-- A key without empty names is reached. -/
theorem visits_of_noEmptyName {key rest : Str} (hkey : key ∈ bucket.keys) (hle : pre ++ f <+: key)
    (hf : '/' ∉ f) (hrest : key = pre ++ rest) (h : NoEmptyName pre rest) :
    ∃ dir m, key = dir ++ m ∧ '/' ∉ m ∧ bucket.Visits pre f dir := by
  induction hlen : rest.length using Nat.strong_induction_on generalizing pre f rest with
  | _ len ih =>
    rcases splitOn_cases rest with ⟨hslash, -⟩ | ⟨n, s, hn, rfl, -⟩
    · exact ⟨pre, rest, hrest, hslash, .here⟩
    · obtain ⟨hnil, hs⟩ := (noEmptyName_cons hn).1 h
      have hsub : key = subdirPrefix pre n ++ s := by
        rw [hrest, subdirPrefix_eq hnil]
        simp
      rw [hrest, List.prefix_append_right_inj] at hle
      have hsub' : subdirPrefix pre n ++ [] <+: key := by
        rw [hsub, List.append_nil]
        exact List.prefix_append _ s
      obtain ⟨dir, m, heq, hm, hv⟩ := ih s.length
        (by rw [← hlen, List.length_append, List.length_cons]; omega) hsub' List.not_mem_nil hsub hs
        rfl
      have hmem : pre ++ n ++ '/' :: s ∈ bucket.keys := by rwa [List.append_assoc, ← hrest]
      exact ⟨dir, m, heq, hm, .down hn (prefix_of_slash_free hf hle) hmem hv⟩

/-- A prefix that is listed ends with a separator. -/
theorem Bucket.Visits.slash {dir : Str} (h : bucket.Visits pre f dir)
    (hpre : pre = [] ∨ pre.getLast? = some '/') : dir = [] ∨ dir.getLast? = some '/' := by
  induction h with
  | here => exact hpre
  | down _ _ _ _ ih =>
    refine ih (.inr ?_)
    rw [subdirPrefix, List.getLast?_append]
    rfl

/-- On the way to a key with an empty name, the names before it are not empty, so that the way leads
through the directory `pre` of the empty name; from there it goes on to `pre` repeated, and the key
does not. -/
theorem not_visits_of_emptyName {start d g dir m s : Str} (hv : bucket.Visits d g dir)
    (hstart : ∀ x, bucket.Visits d g x → bucket.Visits start f x) (hle : start ++ f <+: d ++ g)
    (hd : d <+: pre) (hpre : pre.getLast? = some '/') (hhead : pre.head? ≠ some '/')
    (hfirst : ∀ d, bucket.Visits start f d → d <+: pre → d ≠ pre → d ≠ [] →
      ∀ t, start ++ f <+: d ++ '/' :: t → d ++ '/' :: t ∉ bucket.keys)
    (hkey : dir ++ m = pre ++ '/' :: s) (hm : '/' ∉ m) : False := by
  induction hv with
  | @here d g =>
    obtain ⟨r, rfl⟩ := hd
    rw [List.append_assoc, List.append_cancel_left_eq] at hkey
    exact hm (hkey ▸ List.mem_append_right r List.mem_cons_self)
  | @down d g n t dir hn hg hmem hv ih =>
    obtain ⟨x, rfl⟩ := hv.le
    by_cases hdp : d = pre
    · -- at the directory of the empty name
      subst hdp
      have hne : d ≠ [] := fun h => by rw [h] at hpre; cases hpre
      rw [subdirPrefix, List.append_assoc, List.append_assoc, List.append_assoc,
        List.append_cancel_left_eq] at hkey
      have hhead' := congrArg List.head? hkey
      split at hhead'
      · rw [List.head?_append_of_ne_nil _ hne] at hhead'
        exact hhead hhead'
      · next hnil =>
        rw [List.head?_append_of_ne_nil _ hnil] at hhead'
        exact hn (List.mem_of_head? hhead')
    · -- before it
      have hnil : n = [] → d = [] := by
        rintro rfl
        by_contra hne
        rw [List.prefix_nil.1 hg, List.append_nil] at hle
        rw [List.append_nil] at hmem
        exact hfirst d (hstart d .here) hd hdp hne t (hle.trans (List.prefix_append _ _)) hmem
      obtain ⟨r, rfl⟩ := hd
      have hr : '/' ∈ r := by
        rw [List.getLast?_append] at hpre
        cases hl : r.getLast? with
        | none => exact absurd (by rw [List.getLast?_eq_none_iff.1 hl, List.append_nil]) hdp
        | some c =>
          rw [hl] at hpre
          cases hpre
          exact List.mem_of_getLast? hl
      obtain ⟨k, r, rfl, hk⟩ := List.eq_append_cons_of_mem hr
      have hnk : n = k := by
        rw [subdirPrefix_eq hnil] at hkey
        have hkey' : n ++ '/' :: (x ++ m) = k ++ '/' :: (r ++ '/' :: s) := by simpa using hkey
        have hnames := congrArg (List.takeWhile (· ≠ '/')) hkey'
        rwa [takeWhile_before_slash hn, takeWhile_before_slash hk] at hnames
      refine ih (fun y hy => hstart y (.down hn hg hmem hy)) ?_ ?_ hkey
      · rw [List.append_nil]
        exact hle.trans (prefix_subdirPrefix hg)
      · rw [subdirPrefix_eq hnil, hnk, List.append_assoc]
        exact (List.prefix_append_right_inj d).2 ⟨r, by simp⟩

/-- Where the directories that are listed have no empty names, the keys below them have none. -/
theorem noEmptyName_of_forall {start d g key rest : Str}
    (hno : ∀ d, bucket.Visits start f d → d ≠ [] → ∀ t, start ++ f <+: d ++ '/' :: t →
      d ++ '/' :: t ∉ bucket.keys)
    (hd : ∀ x, bucket.Visits d g x → bucket.Visits start f x) (hg : '/' ∉ g)
    (hle : start ++ f <+: d ++ g) (hkey : key ∈ bucket.keys) (hgkey : d ++ g <+: key)
    (hrest : key = d ++ rest) : NoEmptyName d rest := by
  induction hlen : rest.length using Nat.strong_induction_on generalizing d g rest with
  | _ len ih =>
    rcases splitOn_cases rest with ⟨hslash, -⟩ | ⟨n, s, hn, rfl, -⟩
    · exact noEmptyName_of_slash_free hslash
    · have hgn : g <+: n := by
        rw [hrest, List.prefix_append_right_inj] at hgkey
        exact prefix_of_slash_free hg hgkey
      have hmem : d ++ n ++ '/' :: s ∈ bucket.keys := by rwa [List.append_assoc, ← hrest]
      have hnil : n = [] → d = [] := by
        rintro rfl
        by_contra hne
        rw [List.prefix_nil.1 hgn, List.append_nil] at hle
        rw [List.append_nil] at hmem
        exact hno d (hd d .here) hne s (hle.trans (List.prefix_append _ _)) hmem
      have hsub : key = subdirPrefix d n ++ s := by
        rw [hrest, subdirPrefix_eq hnil]
        simp
      refine (noEmptyName_cons hn).2 ⟨hnil, ih s.length ?_ ?_ List.not_mem_nil ?_ ?_ hsub rfl⟩
      · rw [← hlen, List.length_append, List.length_cons]
        omega
      · exact fun x hx => hd x (.down hn hgn hmem hx)
      · rw [List.append_nil]
        exact hle.trans (prefix_subdirPrefix hgn)
      · rw [List.append_nil, hsub]
        exact List.prefix_append _ s

/-- Where all keys below a prefix are reached from it, and none begins with a separator, no name in
them is empty. -/
theorem noEmptyName_of_visits {start : Str} (hf : '/' ∉ f)
    (hstart : start = [] ∨ start.getLast? = some '/')
    (hall : ∀ key ∈ bucket.keys, start ++ f <+: key → key.head? ≠ some '/' ∧
      ∃ dir m, key = dir ++ m ∧ '/' ∉ m ∧ bucket.Visits start f dir)
    {key rest : Str} (hkey : key ∈ bucket.keys) (hle : start ++ f <+: key)
    (hrest : key = start ++ rest) : NoEmptyName start rest := by
  refine noEmptyName_of_forall ?_ (fun x hx => hx) hf (List.prefix_refl _) hkey hle hrest
  -- the shortest directory with an empty name would not be passed on the way to that key
  intro pre
  induction hlen : pre.length using Nat.strong_induction_on generalizing pre with
  | _ len ih =>
    intro hv hne s hle hkey
    obtain ⟨hhead, dir, m, heq, hm, hdir⟩ := hall _ hkey hle
    rw [List.head?_append_of_ne_nil _ hne] at hhead
    refine not_visits_of_emptyName hdir (fun x hx => hx) (List.prefix_refl _) hv.le
      ((hv.slash hstart).resolve_left hne) hhead ?_ heq.symm hm
    intro d hd hdp hdne hnil t hle' hmem
    have hlt : d.length < len := by
      rw [← hlen]
      exact lt_of_le_of_ne hdp.length_le fun h => hdne (hdp.eq_of_length h)
    exact ih d.length hlt d rfl hd hnil t hle' hmem

variable {path : S3Path} {tryToRoot : Bool}

/-- The objects without empty names are reached. -/
theorem reaches_of_straight (h : path.path.head? = some '/') (hs : bucket.Straight path tryToRoot)
    {key : Str} (hkey : bucket.Asked path key) : bucket.Reaches path tryToRoot key := by
  obtain ⟨rest, hrest, hnames⟩ := hs key hkey
  obtain ⟨hmem, hle, -⟩ := hkey
  obtain ⟨-, hf⟩ := path_eq_toRoot h
  rw [Bucket.Reaches]
  by_cases hroot : tryToRoot ∨ path.path.rtakeWhile (· ≠ '/') = []
  · simp only [straightPrefix, if_pos hroot] at hrest hnames ⊢
    rw [drop_path h] at hle
    exact visits_of_noEmptyName hmem hle hf hrest hnames
  · simp only [straightPrefix, if_neg hroot] at hrest hnames ⊢
    obtain ⟨dir, m, heq, hm, hv⟩ := visits_of_noEmptyName (f := []) hmem
      (by rw [hrest, List.append_nil]; exact List.prefix_append _ rest) List.not_mem_nil hrest hnames
    refine ⟨dir, m, heq, hm, _, path.path.rtakeWhile (· ≠ '/') ++ '/' :: rest, hf,
      List.prefix_refl _, ?_, hv⟩
    rw [← drop_path h]
    rw [hrest] at hmem
    simpa using hmem

/-- Where no key that is listed begins or ends with a separator, only objects without empty names
are reached. -/
theorem straight_of_reaches (h : path.path.head? = some '/')
    (hplain : ∀ key ∈ bucket.keys, path.path.drop 1 <+: key →
      key.head? ≠ some '/' ∧ key.getLast? ≠ some '/')
    (hreach : ∀ key, bucket.Asked path key → bucket.Reaches path tryToRoot key) :
    bucket.Straight path tryToRoot := by
  intro key hkey
  obtain ⟨-, hf⟩ := path_eq_toRoot h
  have hasked : ∀ key ∈ bucket.keys, path.path.drop 1 <+: key →
      key.head? ≠ some '/' ∧ bucket.Reaches path tryToRoot key := fun key hmem hle =>
    ⟨(hplain key hmem hle).1, hreach key ⟨hmem, hle, (hplain key hmem hle).2⟩⟩
  obtain ⟨hmem, hle, -⟩ := hkey
  unfold Bucket.Reaches at hasked
  by_cases hroot : tryToRoot ∨ path.path.rtakeWhile (· ≠ '/') = []
  · simp only [straightPrefix, if_pos hroot] at hasked ⊢
    rw [drop_path h] at hasked hle
    obtain ⟨rest, rfl⟩ := (List.prefix_append _ _).trans hle
    refine ⟨rest, rfl, noEmptyName_of_visits hf ?_ hasked hmem hle rfl⟩
    exact (isDirPath_toRoot h).eq_nil_or.imp id fun ⟨s, hs⟩ => by rw [hs]; simp
  · simp only [straightPrefix, if_neg hroot] at hasked ⊢
    -- every key goes on after the path of the root by a separator
    have hsep : ∀ {rest}, path.path.drop 1 ++ rest ∈ bucket.keys → rest.head? = some '/' := by
      intro rest hmem
      obtain ⟨-, dir, m, heq, -, n, s, -, -, -, hv⟩ := hasked _ hmem (List.prefix_append _ _)
      obtain ⟨x, rfl⟩ := hv.le
      rw [List.append_assoc, List.append_assoc, List.append_assoc, List.append_cancel_left_eq] at heq
      rw [heq]
      rfl
    have hlast : ∀ key ∈ bucket.keys, path.path.drop 1 <+: key → key.head? ≠ some '/' ∧
        ∃ dir m, key = dir ++ m ∧ '/' ∉ m ∧ bucket.Visits
          (path.path.drop 1 ++ '/' :: path.path.rtakeWhile (· ≠ '/') ++ "/".toList) [] dir := by
      intro key hmem hle
      obtain ⟨hhead, dir, m, heq, hm, n, s, hn, ⟨t, rfl⟩, hkey, hv⟩ := hasked key hmem hle
      rw [← List.append_assoc, ← drop_path h, List.append_assoc] at hkey
      have ht : t = [] := by
        by_contra hne
        have := hsep hkey
        rw [List.head?_append_of_ne_nil _ hne] at this
        exact hn (List.mem_append_right _ (List.mem_of_head? this))
      rw [ht, List.append_nil] at hv
      exact ⟨hhead, dir, m, heq, hm, hv⟩
    obtain ⟨-, dir, m, rfl, hm, hv⟩ := hlast key hmem hle
    obtain ⟨x, rfl⟩ := hv.le
    rw [List.append_assoc] at hmem ⊢
    refine ⟨x ++ m, rfl, noEmptyName_of_visits List.not_mem_nil (.inr ?_) ?_ hmem ?_ rfl⟩
    · rw [List.getLast?_append]
      rfl
    · intro key hmem hle
      refine hlast key hmem (List.IsPrefix.trans ?_ hle)
      rw [List.append_nil, List.append_assoc]
      exact List.prefix_append _ _
    · rw [List.append_nil]
      exact List.prefix_append _ _

end

/-- The names of a listing address the objects just if all that is asked for is reached: this is so
where no name is empty, and, in a bucket whose keys neither begin nor end with a separator, only
there. -/
theorem names_address_objects (bucket : Bucket) (path : S3Path) (tryToRoot : Bool)
    (h : ParsedPath path) :
    (bucket.Addresses path (bucket.tree path tryToRoot) ↔
      ∀ key, bucket.Asked path key → bucket.Reaches path tryToRoot key) ∧
    (bucket.Straight path tryToRoot → bucket.Addresses path (bucket.tree path tryToRoot)) ∧
    ((∀ key ∈ bucket.keys, path.path.drop 1 <+: key →
        key.head? ≠ some '/' ∧ key.getLast? ≠ some '/') →
      bucket.Addresses path (bucket.tree path tryToRoot) → bucket.Straight path tryToRoot) := by
  have hiff := @addresses_iff_reaches bucket path tryToRoot h.head
  refine ⟨hiff, fun hs => ?_, fun hplain haddr => ?_⟩
  · exact hiff.2 fun key hkey => reaches_of_straight h.head hs hkey
  · exact straight_of_reaches h.head hplain (hiff.1 haddr)

/-- An object in the directory `foo` is found where `foo/` is listed. -/
theorem names_address_objects_slash :
    (Bucket.ofKeys ["foo/x".toList]).Addresses ⟨[], "b".toList, "/foo/".toList⟩
      ((Bucket.ofKeys ["foo/x".toList]).tree ⟨[], "b".toList, "/foo/".toList⟩ false) := by
  refine (names_address_objects _ _ false (parsedPath_of (by decide) (by decide) rfl (by decide))).2.1 ?_
  intro key hkey
  obtain rfl := List.mem_singleton.1 hkey.1
  exact ⟨"x".toList, by decide, noEmptyName_of_slash_free (by decide)⟩

/-- An object in the directory `foo` is not found where `foo` is listed as the destination of an
upload. -/
theorem upload_destination_misses :
    ¬ ∀ (bucket : Bucket) (path : S3Path) (tryToRoot : Bool), ParsedPath path →
      bucket.Addresses path (bucket.tree path tryToRoot) := by
  intro hall
  have haddr := hall (Bucket.ofKeys ["foo/x".toList]) ⟨[], "b".toList, "/foo".toList⟩ false
    (parsedPath_of (by decide) (by decide) rfl (by decide))
  have hs := straight_of_reaches rfl (fun key hmem _ => by
    obtain rfl := List.mem_singleton.1 hmem
    decide) ((addresses_iff_reaches rfl).1 haddr)
  obtain ⟨rest, hrest, -⟩ := hs "foo/x".toList ⟨List.mem_singleton.2 rfl, by decide, by decide⟩
  have hpre : straightPrefix ⟨[], "b".toList, "/foo".toList⟩ false = "foo/foo/".toList := by decide
  rw [hpre] at hrest
  simp at hrest

end ExtremeS3
