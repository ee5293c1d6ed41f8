import ExtremeS3.Sync.DownloadOrder
import ExtremeS3.Sync.MergeExact

/-!
# The order of the sources

`create_schedule` merges the trees of its sources into the first one, which is taken as it is, while
each of the others is checked entry by entry. A local tree has no name twice, but a bucket can have
an object besides objects below it, and a tree with such a name can only come before the ones that
have its directory too. So where no two trees collide, the merge succeeds exactly for the lists in
such an order (`exists_mergeAll_iff`), and always with the same files.
-/

namespace ExtremeS3

section

variable {ι φ : Type}

/-- The loop of `create_schedule` over the trees of its sources. -/
def mergeAll (nameOf : φ → ι) (acc : Option (Dir Str ι φ)) :
    List (Dir Str ι φ) → Except (ScheduleError ι) (Option (Dir Str ι φ))
  | [] => .ok acc
  | cur :: trees =>
    match acc with
    | none => mergeAll nameOf (some cur) trees
    | some left =>
      match mergeToLeft nameOf left cur with
      | .error e => .error e
      | .ok merged => mergeAll nameOf (some merged) trees

/-- The remote trees are merged so. -/
theorem mergeRemotes_eq_mergeAll (remotes : Option S3Dir) (lists : List S3Dir) :
    mergeRemotes remotes lists = mergeAll S3File.absoluteName remotes lists := by
  induction lists generalizing remotes with
  | nil => rfl
  | cons cur lists ih =>
    cases remotes with
    | none => exact ih _
    | some r =>
      rw [mergeRemotes, mergeAll]
      cases mergeToLeft S3File.absoluteName r cur with
      | error e => rfl
      | ok merged => exact ih _

/-- The local trees are merged so, once all of them are read. -/
theorem buildLocals_eq_mergeAll {disk : Disk} {upload : Bool} {paths : List Str}
    {trees : List LocalDir} (locals : Option LocalDir)
    (h : List.Forall₂ (fun path tree => buildLocalDir disk path upload = .ok tree) paths trees) :
    buildLocals disk upload locals paths = mergeAll LocalFile.absoluteName locals trees := by
  induction h generalizing locals with
  | nil => rfl
  | @cons path cur paths trees hcur _ ih =>
    rw [buildLocals, hcur]
    cases locals with
    | none => exact ih _
    | some l =>
      rw [mergeAll]
      dsimp only
      cases mergeToLeft LocalFile.absoluteName l cur with
      | error e => rfl
      | ok merged => exact ih _

/-- Some path is a file in one of two trees of the list, and a file or a directory in the other. -/
def Collide (trees : List (Dir Str ι φ)) : Prop :=
  ¬ trees.Pairwise fun s t => ∀ p, ¬ CollidesAt s t p

/-- A tree in which a name is both a file and a subdirectory comes before all other trees that have
the directory of the name. -/
def ShadowedFirst (trees : List (Dir Str ι φ)) : Prop := trees.Pairwise UnshadowedIn

/-- The file at a path of a tree, if there is a tree. -/
def fileOf (tree : Option (Dir Str ι φ)) (p : List Str) : Option φ := tree.bind (Dir.fileAt p)

variable {nameOf : φ → ι}

/-- Colliding is symmetric. -/
theorem collidesAt_symm {s t : Dir Str ι φ} {p : List Str} (h : CollidesAt s t p) :
    CollidesAt t s p := by
  rcases h with ⟨hs, ht⟩ | ⟨ht, hs⟩
  · exact .inr ⟨hs, ht⟩
  · exact .inl ⟨ht, hs⟩

/-- Whether trees collide does not depend on their order. -/
theorem collide_perm {trees trees' : List (Dir Str ι φ)} (h : trees.Perm trees') :
    Collide trees ↔ Collide trees' := by
  unfold Collide
  rw [h.pairwise_iff fun hno p hp => hno p (collidesAt_symm hp)]

/-- What collides with a merged tree collides with one of its parts. -/
theorem collidesAt_merged {left right m t : Dir Str ι φ} (hl : left.Everywhere Dir.Sorted)
    (hr : right.Everywhere Dir.Sorted) (h : mergeToLeft nameOf left right = .ok m) (p : List Str) :
    CollidesAt m t p ↔ CollidesAt left t p ∨ CollidesAt right t p := by
  unfold CollidesAt
  rw [fileAt_mergeToLeft hl hr h, dirAt_mergeToLeft hl hr h, Option.isSome_or]
  simp only [Bool.or_eq_true]
  tauto

/-- What a merged tree shares with another one has no name twice if what either tree shares with it
has none. -/
theorem unshadowedIn_merged {left right m t : Dir Str ι φ} (hl : left.Everywhere Dir.Sorted)
    (hr : right.Everywhere Dir.Sorted) (h : mergeToLeft nameOf left right = .ok m) :
    UnshadowedIn m t ↔ UnshadowedIn left t ∧ UnshadowedIn right t := by
  unfold UnshadowedIn
  simp only [dirAt_mergeToLeft hl hr h, Bool.or_eq_true]
  constructor
  · intro hm
    exact ⟨fun p d hd hsome => hm p d hd (.inl hsome), fun p d hd hsome => hm p d hd (.inr hsome)⟩
  · rintro ⟨hl, hr⟩ p d hd (hsome | hsome)
    · exact hl p d hd hsome
    · exact hr p d hd hsome

/-- Trees can be merged into a tree just if each can, and no two of them stand in each other's way. -/
theorem exists_mergeAll_some {left : Dir Str ι φ} {trees : List (Dir Str ι φ)}
    (hl : left.Everywhere Dir.Sorted) (ht : ∀ t ∈ trees, t.Everywhere Dir.Sorted) :
    (∃ m, mergeAll nameOf (some left) trees = .ok m) ↔
      ¬ Collide (left :: trees) ∧ ShadowedFirst (left :: trees) := by
  induction trees generalizing left with
  | nil => simp [mergeAll, Collide, ShadowedFirst]
  | cons cur trees ih =>
    have hcur := ht cur List.mem_cons_self
    have htrees : ∀ t ∈ trees, t.Everywhere Dir.Sorted := fun t h => ht t (List.mem_cons_of_mem _ h)
    have hiff : (∃ m, mergeToLeft nameOf left cur = .ok m) ↔ _ := exists_mergeToLeft_iff hl hcur
    rw [mergeAll]
    cases hm : mergeToLeft nameOf left cur with
    | error e =>
      rw [hm] at hiff
      have hno : ¬ ((∀ p, ¬ CollidesAt left cur p) ∧ UnshadowedIn left cur) := by
        rw [← hiff]
        simp
      refine iff_of_false (by simp) fun h => hno ?_
      obtain ⟨hcollide, hfirst⟩ := h
      rw [Collide, not_not, List.pairwise_cons] at hcollide
      rw [ShadowedFirst, List.pairwise_cons] at hfirst
      exact ⟨hcollide.1 cur List.mem_cons_self, hfirst.1 cur List.mem_cons_self⟩
    | ok merged =>
      obtain ⟨hcollide, hunshadowed⟩ := hiff.1 ⟨merged, hm⟩
      -- the merged tree stands in the way of a tree just if one of its parts does
      dsimp only
      rw [ih (sorted_mergeToLeft hl hcur hm) htrees]
      simp only [Collide, ShadowedFirst, not_not, List.pairwise_cons, List.forall_mem_cons,
        collidesAt_merged hl hcur hm, unshadowedIn_merged hl hcur hm, not_or]
      grind

/-- The sources can be merged just if no two collide and the shadowed names come first. -/
theorem exists_mergeAll_iff {trees : List (Dir Str ι φ)}
    (ht : ∀ t ∈ trees, t.Everywhere Dir.Sorted) :
    (∃ m, mergeAll nameOf none trees = .ok m) ↔ ¬ Collide trees ∧ ShadowedFirst trees := by
  cases trees with
  | nil => simp [mergeAll, Collide, ShadowedFirst]
  | cons left trees =>
    rw [mergeAll]
    exact exists_mergeAll_some (ht left List.mem_cons_self) fun t h =>
      ht t (List.mem_cons_of_mem _ h)

/-- The files of the merged tree are those of the sources. -/
theorem fileOf_mergeAll {acc tree : Option (Dir Str ι φ)} {trees : List (Dir Str ι φ)}
    (ha : ∀ d ∈ acc, d.Everywhere Dir.Sorted) (ht : ∀ t ∈ trees, t.Everywhere Dir.Sorted)
    (h : mergeAll nameOf acc trees = .ok tree) (p : List Str) (f : φ) :
    fileOf tree p = some f ↔ fileOf acc p = some f ∨ ∃ t ∈ trees, t.fileAt p = some f := by
  induction trees generalizing acc with
  | nil =>
    cases h
    simp
  | cons cur trees ih =>
    have hcur := ht cur List.mem_cons_self
    have htrees : ∀ t ∈ trees, t.Everywhere Dir.Sorted := fun t h => ht t (List.mem_cons_of_mem _ h)
    rw [List.exists_mem_cons_iff]
    cases acc with
    | none =>
      rw [ih (fun d hd => by cases hd; exact hcur) htrees h]
      simp [fileOf]
    | some left =>
      have hl := ha left rfl
      rw [mergeAll] at h
      split at h
      · cases h
      · next m hm =>
        rw [ih (fun d hd => by cases hd; exact sorted_mergeToLeft hl hcur hm) htrees h, ← or_assoc]
        exact or_congr_left (fileAt_mergeToLeft_eq_some hl hcur hm)

end

/-- The order of the sources does not matter exactly where two of them collide, or both orders put
the shadowed names first, or neither does. -/
theorem merge_order_iff {ι φ : Type} (nameOf : φ → ι) {trees trees' : List (Dir Str ι φ)}
    (hsorted : ∀ t ∈ trees, t.Everywhere Dir.Sorted) (hperm : trees.Perm trees') :
    (((∃ m, mergeAll nameOf none trees = .ok m) ↔ ∃ m, mergeAll nameOf none trees' = .ok m) ∧
      ∀ m m', mergeAll nameOf none trees = .ok m → mergeAll nameOf none trees' = .ok m' →
        ∀ p, fileOf m p = fileOf m' p) ↔
    Collide trees ∨ (ShadowedFirst trees ↔ ShadowedFirst trees') := by
  have hsorted' : ∀ t ∈ trees', t.Everywhere Dir.Sorted := fun t ht => hsorted t (hperm.mem_iff.2 ht)
  have hfiles : ∀ m m', mergeAll nameOf none trees = .ok m → mergeAll nameOf none trees' = .ok m' →
      ∀ p, fileOf m p = fileOf m' p := by
    intro m m' hm hm' p
    refine Option.ext fun f => ?_
    rw [fileOf_mergeAll (fun d hd => by cases hd) hsorted hm,
      fileOf_mergeAll (fun d hd => by cases hd) hsorted' hm']
    simp only [hperm.mem_iff]
  rw [and_iff_left hfiles, exists_mergeAll_iff hsorted, exists_mergeAll_iff hsorted',
    ← collide_perm hperm, and_congr_right_iff]
  exact or_iff_not_imp_left.symm

/-- `merge_order_iff` for two files in one directory. -/
theorem merge_order_iff_small :
    ((∃ m, mergeAll id none [smallTree "x".toList, smallTree "y".toList] = .ok m) ↔
      ∃ m, mergeAll id none [smallTree "y".toList, smallTree "x".toList] = .ok m) ∧
    ∀ m m', mergeAll id none [smallTree "x".toList, smallTree "y".toList] = .ok m →
      mergeAll id none [smallTree "y".toList, smallTree "x".toList] = .ok m' →
        ∀ p, fileOf m p = fileOf m' p := by
  obtain ⟨hx, hxu⟩ := smallTree_ok "x".toList
  obtain ⟨hy, hyu⟩ := smallTree_ok "y".toList
  refine (merge_order_iff id (fun t ht => ?_) (.swap ..)).2 (.inr ?_)
  · rcases List.mem_pair.1 ht with rfl | rfl
    · exact hx
    · exact hy
  · have hunshadowed : ∀ s t : Dir Str Nat Nat, t.Everywhere Dir.Unshadowed →
        ShadowedFirst [s, t] := by
      intro s t ht
      rw [ShadowedFirst, List.pairwise_pair]
      exact fun p d hd _ => ht p d hd
    exact iff_of_true (hunshadowed _ _ hyu) (hunshadowed _ _ hxu)

/-- A bucket with the objects `x` and `x/y` can come before an empty one, and not after it. -/
theorem shadowed_source_order :
    (∃ m, mergeRemotes none [(remoteOf ["x".toList, "x/y".toList]).listing,
      (remoteOf []).listing] = .ok m) ∧
    ∃ e, mergeRemotes none [(remoteOf []).listing,
      (remoteOf ["x".toList, "x/y".toList]).listing] = .error e :=
  ⟨⟨_, rfl⟩, _, rfl⟩

end ExtremeS3
