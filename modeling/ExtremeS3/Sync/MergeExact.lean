import ExtremeS3.Sync.Merge

/-!
# When a merge gives up

`merge_to_left` checks every entry of the tree on the right, against the tree on the left and, as
the files are added before the directories, against the files of the tree on the right itself. So it
succeeds just if no path is a file in one tree and anything in the other, and no directory that is in
both has a name twice on the right (`exists_mergeToLeft_iff`). Between trees without shadowed names a
merge is exact (`merge_exact`).
-/

namespace ExtremeS3

section

variable {ι φ : Type}

/-- The path is a file in one of the trees, and a file or a directory in the other. -/
def CollidesAt (left right : Dir Str ι φ) (p : List Str) : Prop :=
  (left.fileAt p).isSome ∧ ((right.fileAt p).isSome ∨ (right.dirAt p).isSome) ∨
    (right.fileAt p).isSome ∧ ((left.fileAt p).isSome ∨ (left.dirAt p).isSome)

/-- Of the directories of the tree, those in the other one have no name twice. -/
def UnshadowedIn (left right : Dir Str ι φ) : Prop :=
  ∀ p d, right.dirAt p = some d → (left.dirAt p).isSome → d.Unshadowed

/-- Two trees collide at a name if one has a file there and the other has anything. -/
theorem collidesAt_singleton {left right : Dir Str ι φ} {n : Str} :
    CollidesAt left right [n] ↔
      (findKey n left.files).isSome ∧
          ((findKey n right.files).isSome ∨ (findKey n right.subdirs).isSome) ∨
        (findKey n right.files).isSome ∧
          ((findKey n left.files).isSome ∨ (findKey n left.subdirs).isSome) := by
  have hdir : ∀ d : Dir Str ι φ, (d.dirAt [n]).isSome = (findKey n d.subdirs).isSome := by
    intro d
    rw [Dir.dirAt_cons, show Dir.dirAt ([] : List Str) = @some (Dir Str ι φ) from rfl,
      Option.bind_fun_some]
  unfold CollidesAt
  rw [hdir, hdir]
  rfl

/-- Trees collide below a subdirectory that is in both. -/
theorem collidesAt_cons {left right : Dir Str ι φ} {n : Str} {p : List Str} (hp : p ≠ []) :
    CollidesAt left right (n :: p) ↔
      ∃ l r, findKey n left.subdirs = some l ∧ findKey n right.subdirs = some r ∧
        CollidesAt l r p := by
  unfold CollidesAt
  simp only [Dir.fileAt_cons hp, Dir.dirAt_cons]
  cases findKey n left.subdirs with
  | none => simp
  | some l =>
    cases findKey n right.subdirs with
    | none => simp
    | some r => simp

/-- What two trees share of the second one has no name twice if its root has none, and what their
subdirectories share has none. -/
theorem unshadowedIn_iff {left right : Dir Str ι φ} :
    UnshadowedIn left right ↔ right.Unshadowed ∧
      ∀ n l r, findKey n left.subdirs = some l → findKey n right.subdirs = some r →
        UnshadowedIn l r := by
  constructor
  · intro h
    refine ⟨h [] right rfl rfl, fun n l r hl hr p d hd hsome => ?_⟩
    refine h (n :: p) d ?_ ?_
    · rw [Dir.dirAt_cons, hr]
      exact hd
    · rw [Dir.dirAt_cons, hl]
      exact hsome
  · rintro ⟨hroot, hsub⟩ p d hd hsome
    cases p with
    | nil =>
      cases hd
      exact hroot
    | cons n p =>
      rw [Dir.dirAt_cons] at hd hsome
      cases hl : findKey n left.subdirs with
      | none => rw [hl] at hsome; cases hsome
      | some l =>
        cases hr : findKey n right.subdirs with
        | none => rw [hr] at hd; cases hd
        | some r =>
          rw [hr] at hd
          rw [hl] at hsome
          exact hsub n l r hl hr p d hd hsome

variable {nameOf : φ → ι}

/-! ## One directory -/

/-- The files are added where none has a name that is taken. -/
theorem exists_mergeFiles {leftDirs : List (Str × Dir Str ι φ)} {leftFiles files : List (Str × φ)}
    (hl : Sorted leftFiles) (hf : Sorted files)
    (h : ∀ n, (findKey n files).isSome → findKey n leftFiles = none ∧ findKey n leftDirs = none) :
    ∃ m, mergeFiles nameOf leftDirs leftFiles files = .ok m := by
  induction files generalizing leftFiles with
  | nil => exact ⟨leftFiles, rfl⟩
  | cons e files ih =>
    obtain ⟨name, f⟩ := e
    obtain ⟨hlt, hfs⟩ := sorted_cons.1 hf
    obtain ⟨hfile, hdir⟩ := h name (by rw [findKey_cons_self]; rfl)
    rw [mergeFiles, hfile, hdir]
    refine ih (hl.upsert _ _) hfs fun n hn => ?_
    -- the names that follow are other ones
    have hne : n ≠ name := by
      rintro rfl
      rw [findKey_eq_none_of_lt hlt] at hn
      cases hn
    have := h n (by rw [findKey_cons, if_neg hne]; exact hn)
    rwa [findKey_upsert hl, if_neg hne]

/-- The subdirectories are added where none has the name of a file, and those that are on the left
already can be merged. -/
theorem exists_mergeSubdirs {left : Dir Str ι φ} {dirs : List (Str × Dir Str ι φ)}
    (hl : left.Sorted) (hd : Sorted dirs)
    (h : ∀ n r, findKey n dirs = some r → findKey n left.files = none ∧
      ∀ l, findKey n left.subdirs = some l → ∃ m, mergeToLeft nameOf l r = .ok m) :
    ∃ m, mergeSubdirs nameOf left dirs = .ok m := by
  induction dirs generalizing left with
  | nil => exact ⟨left, by rw [mergeSubdirs]⟩
  | cons e dirs ih =>
    obtain ⟨name, right⟩ := e
    obtain ⟨hlt, hds⟩ := sorted_cons.1 hd
    obtain ⟨hfile, hdir⟩ := h name right (findKey_cons_self ..)
    have hstep : ∀ d, ∃ m, mergeSubdirs nameOf
        (.node left.info left.files (upsert name (fun _ => d) left.subdirs)) dirs = .ok m := by
      intro d
      refine ih ⟨hl.1, hl.2.upsert _ _⟩ hds fun n r hn => ?_
      have hne : n ≠ name := by
        rintro rfl
        rw [findKey_eq_none_of_lt hlt] at hn
        cases hn
      have := h n r (by rw [findKey_cons, if_neg hne]; exact hn)
      rwa [Dir.files_node, Dir.subdirs_node, findKey_upsert hl.2, if_neg hne]
    rw [mergeSubdirs, hfile]
    cases hleft : findKey name left.subdirs with
    | none => exact hstep right
    | some l =>
      obtain ⟨d, hd⟩ := hdir l hleft
      dsimp only
      rw [hd]
      exact hstep d

/-! ## Whole trees -/

/-- Where a merge succeeds nothing collides, and no name of the right is there twice. -/
theorem not_collidesAt_of_mergeToLeft {left right m : Dir Str ι φ} (hl : left.Everywhere Dir.Sorted)
    (hr : right.Everywhere Dir.Sorted) (h : mergeToLeft nameOf left right = .ok m) :
    (∀ p, ¬ CollidesAt left right p) ∧ UnshadowedIn left right := by
  induction right using Dir.induct generalizing left m with
  | node i files subdirs ih =>
    obtain ⟨-, -, -, hsub, hleft, hright⟩ := mergeToLeft_ok hl.root hr.root h
    have hchild : ∀ n l r, findKey n left.subdirs = some l → findKey n subdirs = some r →
        (∀ p, ¬ CollidesAt l r p) ∧ UnshadowedIn l r := by
      intro n l r hln hrn
      have hn := hsub n
      rw [hln, Dir.subdirs_node, hrn] at hn
      obtain ⟨d, hd, -⟩ := hn
      exact ih n r (mem_of_findKey hrn) (hl.child hln) (hr.child hrn) hd
    refine ⟨fun p hp => ?_, unshadowedIn_iff.2 ⟨fun n f hf => ?_, fun n l r hln hrn =>
      (hchild n l r hln hrn).2⟩⟩
    · cases p with
      | nil => simp [CollidesAt] at hp
      | cons n p =>
        by_cases hnil : p = []
        · subst hnil
          rcases collidesAt_singleton.1 hp with ⟨hlf, hrf | hrd⟩ | ⟨hrf, -⟩
          · rw [(hleft n hrf).1] at hlf
            cases hlf
          · rw [(hright n hrd).1] at hlf
            cases hlf
          · obtain ⟨hlf, hld⟩ := hleft n hrf
            rcases collidesAt_singleton.1 hp with ⟨hsome, -⟩ | ⟨-, hsome | hsome⟩
            · rw [hlf] at hsome; cases hsome
            · rw [hlf] at hsome; cases hsome
            · rw [hld] at hsome; cases hsome
        · obtain ⟨l, r, hln, hrn, hp⟩ := (collidesAt_cons hnil).1 hp
          exact (hchild n l r hln hrn).1 p hp
    · cases hd : findKey n subdirs with
      | none => exact hd
      | some d =>
        have := (hright n (by rw [Dir.subdirs_node, hd]; rfl)).2
        rw [hf] at this
        cases this

/-- Otherwise a merge succeeds. -/
theorem exists_mergeToLeft {left right : Dir Str ι φ} (hl : left.Everywhere Dir.Sorted)
    (hr : right.Everywhere Dir.Sorted) (hcollide : ∀ p, ¬ CollidesAt left right p)
    (hshadow : UnshadowedIn left right) : ∃ m, mergeToLeft nameOf left right = .ok m := by
  induction right using Dir.induct generalizing left with
  | node i files subdirs ih =>
    obtain ⟨hunshadowed, hsubs⟩ := unshadowedIn_iff.1 hshadow
    have hfiles : ∀ n, (findKey n files).isSome →
        findKey n left.files = none ∧ findKey n left.subdirs = none := by
      intro n hn
      have hno := hcollide [n]
      rw [collidesAt_singleton, not_or] at hno
      have := not_and.1 hno.2 hn
      simpa using this
    have hfs : Sorted files := hr.root.1
    have hmerge : ∃ m, mergeFiles nameOf left.subdirs left.files files = .ok m :=
      exists_mergeFiles hl.root.1 hfs hfiles
    obtain ⟨leftFiles, hmerged⟩ := hmerge
    obtain ⟨hsorted, hfind, -⟩ := mergeFiles_ok hl.root.1 hfs hmerged
    rw [mergeToLeft, hmerged]
    refine exists_mergeSubdirs ⟨hsorted, hl.root.2⟩ hr.root.2 fun n r hn => ⟨?_, fun l hln => ?_⟩
    · -- neither side has a file of that name
      have hlf : findKey n left.files = none := by
        have hno := hcollide [n]
        rw [collidesAt_singleton, not_or] at hno
        cases hlf : findKey n left.files with
        | none => rfl
        | some f => exact absurd ⟨by rw [hlf]; rfl, .inr (by rw [Dir.subdirs_node, hn]; rfl)⟩ hno.1
      have hrf : findKey n files = none := by
        cases hrf : findKey n files with
        | none => rfl
        | some f =>
          have := hunshadowed n f hrf
          rw [Dir.subdirs_node, hn] at this
          cases this
      rw [Dir.files_node, hfind, hlf, hrf]
      rfl
    · refine ih n r (mem_of_findKey hn) (hl.child hln) (hr.child hn) (fun p hp => ?_)
        (hsubs n l r hln hn)
      cases p with
      | nil => simp [CollidesAt] at hp
      | cons k p => exact hcollide (n :: k :: p) ((collidesAt_cons (List.cons_ne_nil _ _)).2
          ⟨l, r, hln, hn, hp⟩)

/-- A merge succeeds just if nothing collides and no name of the right is there twice, in a directory
that the left has too. -/
theorem exists_mergeToLeft_iff {left right : Dir Str ι φ} (hl : left.Everywhere Dir.Sorted)
    (hr : right.Everywhere Dir.Sorted) : (∃ m, mergeToLeft nameOf left right = .ok m) ↔
      (∀ p, ¬ CollidesAt left right p) ∧ UnshadowedIn left right :=
  ⟨fun ⟨_, h⟩ => not_collidesAt_of_mergeToLeft hl hr h, fun h => exists_mergeToLeft hl hr h.1 h.2⟩

/-- A merge gives up just if the trees collide at some path, and what it returns has the files of
either tree and the directories of both. Only the right tree must have no name that is both a file
and a directory. -/
theorem merge_exact {left right : Dir Str ι φ} (nameOf : φ → ι) (hl : left.Everywhere Dir.Sorted)
    (hr : right.Everywhere Dir.Sorted) (hru : right.Everywhere Dir.Unshadowed) :
    ((∃ e, mergeToLeft nameOf left right = .error e) ↔ ∃ p, CollidesAt left right p) ∧
      ∀ m, mergeToLeft nameOf left right = .ok m →
        (∀ p f, m.fileAt p = some f ↔ left.fileAt p = some f ∨ right.fileAt p = some f) ∧
        (∀ p, left.fileAt p = none ∨ right.fileAt p = none) ∧
        ∀ p, (m.dirAt p).isSome ↔ (left.dirAt p).isSome ∨ (right.dirAt p).isSome := by
  constructor
  · have hok : (∃ m, mergeToLeft nameOf left right = .ok m) ↔ ∀ p, ¬ CollidesAt left right p := by
      rw [exists_mergeToLeft_iff hl hr]
      exact and_iff_left fun p d hd _ => hru p d hd
    have hcollide : (∃ p, CollidesAt left right p) ↔
        ¬ ∃ m, mergeToLeft nameOf left right = .ok m := by
      rw [hok]
      exact Classical.not_forall_not.symm
    rw [hcollide]
    cases mergeToLeft nameOf left right with
    | error e => simp
    | ok m => simp
  · intro m hm
    refine ⟨fun p f => fileAt_mergeToLeft_eq_some hl hr hm, fun p => ?_, fun p => ?_⟩
    · cases hf : right.fileAt p with
      | none => exact .inr rfl
      | some f => exact .inl (fileAt_left_of_mergeToLeft hl hr hm hf)
    · rw [dirAt_mergeToLeft hl hr hm, Bool.or_eq_true]

end

/-! ### Small trees -/

/-- A tree with a file in a directory. -/
def smallTree (file : Str) : Dir Str Nat Nat :=
  .node 0 [] [("d".toList, .node 1 [(file, 2)] [])]

/-- The small tree is sorted, and no file of it is shadowed. -/
theorem smallTree_ok (file : Str) : (smallTree file).Everywhere Dir.Sorted ∧
    (smallTree file).Everywhere Dir.Unshadowed := by
  constructor
  · refine Dir.everywhere_node ⟨sorted_nil, by simp [Sorted]⟩ fun e he => ?_
    rw [List.mem_singleton.1 he]
    exact Dir.everywhere_of_subdirs_nil rfl ⟨by simp [Sorted], sorted_nil⟩
  · refine Dir.everywhere_node (fun n f hf => by cases hf) fun e he => ?_
    rw [List.mem_singleton.1 he]
    exact Dir.everywhere_of_subdirs_nil rfl fun _ _ _ => rfl

/-- `merge_exact` for two files in one directory, and for one file on both sides. -/
theorem merge_exact_small :
    (∀ m, mergeToLeft id (smallTree "x".toList) (smallTree "y".toList) = .ok m →
      m.fileAt ["d".toList, "x".toList] = some 2 ∧ m.fileAt ["d".toList, "y".toList] = some 2) ∧
    ∃ e, mergeToLeft id (smallTree "x".toList) (smallTree "x".toList) = .error e := by
  obtain ⟨hx, hxu⟩ := smallTree_ok "x".toList
  obtain ⟨hy, hyu⟩ := smallTree_ok "y".toList
  obtain ⟨-, hmerged⟩ := merge_exact id hx hy hyu
  obtain ⟨hcollide, -⟩ := merge_exact id hx hx hxu
  refine ⟨fun m hm => ?_, hcollide.2 ⟨["d".toList, "x".toList], .inl (by decide)⟩⟩
  obtain ⟨hfiles, -, -⟩ := hmerged m hm
  exact ⟨(hfiles _ _).2 (.inl (by decide)), (hfiles _ _).2 (.inr (by decide))⟩

end ExtremeS3
