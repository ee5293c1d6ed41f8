import Mathlib.Data.List.Infix

/-!
# Files and directories on disk

A file tree says what there is at each place, a list of names from the root. A path is looked up name
by name, through directories only; some names may lead elsewhere than down, which is what `enter`
says. `update` is what a program does that removes what is at a path or replaces a file there: it
changes nothing but the place and what is below it, and nothing at all where the path leads through
something else than a directory. So two updates below one directory commute unless they are at the
same path (`update_comm`).
-/

namespace ExtremeS3

/-- A directory, or a file with its content. -/
inductive DiskNode (C : Type u) where
  | dir
  | file (content : C)
  deriving DecidableEq, Repr

/-- What there is at each place. -/
def FileTree (K : Type u) (C : Type v) := List K → Option (DiskNode C)

namespace FileTree

variable {K : Type u} {C : Type v}

/-- There is a directory at the place. -/
def isDir (fs : FileTree K C) (place : List K) : Bool :=
  match fs place with
  | some .dir => true
  | some (.file _) => false
  | none => false

/-- The content of the file at the place. -/
def content (fs : FileTree K C) (place : List K) : Option C :=
  match fs place with
  | some .dir => none
  | some (.file c) => some c
  | none => none

/-- The place that a path leads to from another one. -/
def lookup (enter : List K → K → List K) (fs : FileTree K C) (place : List K) :
    List K → Option (List K)
  | [] => some place
  | n :: path => if fs.isDir place then lookup enter fs (enter place n) path else none

section

variable [DecidableEq K]

/-- Remove the place with everything below it. -/
def removeAll (fs : FileTree K C) (place : List K) : FileTree K C := fun q =>
  if place <+: q then none else fs q

/-- Put a file at the place. -/
def put (fs : FileTree K C) (place : List K) (c : C) : FileTree K C := fun q =>
  if q = place then some (.file c) else fs q

/-- Write a file at the place, unless there is a directory or the file that is there is to stay. -/
def replace (fs : FileTree K C) (place : List K) (write : Option C → Option C) : FileTree K C :=
  if fs.isDir place then fs
  else
    match write (fs.content place) with
    | none => fs
    | some c => fs.put place c

/-- Remove what is at the place, if it is to be cleared, and write a file there. -/
def renew (fs : FileTree K C) (place : List K) (clear : Bool) (write : Option C → Option C) :
    FileTree K C :=
  (if clear then fs.removeAll place else fs).replace place write

/-- The same at the place that a path leads to. -/
def update (enter : List K → K → List K) (fs : FileTree K C) (path : List K) (clear : Bool)
    (write : Option C → Option C) : FileTree K C :=
  match fs.lookup enter [] path with
  | none => fs
  | some place => fs.renew place clear write

end

/-! ## At one place -/

section

variable {fs fs' : FileTree K C} {place x : List K} {clear : Bool} {write : Option C → Option C}

/-- Whether a place is a directory is known from what is there. -/
theorem isDir_congr (h : fs place = fs' place) : fs.isDir place = fs'.isDir place := by
  unfold isDir
  rw [h]

/-- What a place holds is known from what is there. -/
theorem content_congr (h : fs place = fs' place) : fs.content place = fs'.content place := by
  unfold content
  rw [h]

variable [DecidableEq K]

/-- Replacing at a place leaves the others alone. -/
theorem replace_of_ne (h : x ≠ place) : fs.replace place write x = fs x := by
  unfold replace
  split
  · rfl
  · cases write (fs.content place) with
    | none => rfl
    | some c => exact if_neg h

/-- What is replaced is known from what is at the two places. -/
theorem replace_congr (h : fs place = fs' place) (hx : fs x = fs' x) :
    fs.replace place write x = fs'.replace place write x := by
  unfold replace
  rw [isDir_congr h, content_congr h]
  split
  · exact hx
  · cases write (fs'.content place) with
    | none => exact hx
    | some c =>
      dsimp only
      unfold put
      rw [hx]

/-- No directory is made. -/
theorem isDir_replace (h : fs.isDir place = false) : (fs.replace place write).isDir place = false := by
  unfold replace
  rw [h, if_neg Bool.false_ne_true]
  cases write (fs.content place) with
  | none => exact h
  | some c => simp [isDir, put]

/-- Nothing changes but the place and what is below it. -/
theorem renew_apart (h : ¬ place <+: x) : fs.renew place clear write x = fs x := by
  have hne : x ≠ place := fun he => h (he ▸ List.prefix_refl x)
  unfold renew
  rw [replace_of_ne hne]
  split
  · exact if_neg h
  · rfl

/-- The result there depends on nothing else. -/
theorem renew_congr (h : ∀ x, place <+: x → fs x = fs' x) (hx : place <+: x) :
    fs.renew place clear write x = fs'.renew place clear write x := by
  unfold renew
  split
  · refine replace_congr ?_ ?_
    · unfold removeAll
      rw [if_pos (List.prefix_refl _), if_pos (List.prefix_refl _)]
    · unfold removeAll
      rw [if_pos hx, if_pos hx]
  · exact replace_congr (h place (List.prefix_refl place)) (h x hx)

/-- The result does not depend on what was cleared. -/
theorem renew_clear_congr (hx : place <+: x) :
    fs.renew place true write x = fs'.renew place true write x := by
  unfold renew
  rw [if_pos rfl, if_pos rfl]
  refine replace_congr ?_ ?_
  · unfold removeAll
    rw [if_pos (List.prefix_refl _), if_pos (List.prefix_refl _)]
  · unfold removeAll
    rw [if_pos hx, if_pos hx]

/-- A directory that is not cleared stays as it is. -/
theorem renew_of_isDir (h : fs.isDir place) : fs.renew place false write = fs := by
  unfold renew replace
  rw [if_neg Bool.false_ne_true, if_pos h]

/-- After any other change there is no directory at the place. -/
theorem isDir_renew (h : clear = true ∨ fs.isDir place = false) :
    (fs.renew place clear write).isDir place = false := by
  unfold renew
  refine isDir_replace ?_
  split
  · unfold isDir removeAll
    rw [if_pos (List.prefix_refl _)]
  · next hc => exact h.resolve_left hc

end

/-! ## Paths -/

section

variable {enter : List K → K → List K} {fs fs' : FileTree K C} {place : List K}

/-- A path in two parts is looked up in two parts. -/
theorem lookup_append (path path' : List K) :
    fs.lookup enter place (path ++ path') =
      (fs.lookup enter place path).bind fun d => fs.lookup enter d path' := by
  induction path generalizing place with
  | nil => rfl
  | cons n path ih =>
    rw [List.cons_append, lookup, lookup]
    split
    · exact ih
    · rfl

/-- A path leads where its names lead. -/
theorem eq_of_lookup {path d : List K} (h : fs.lookup enter place path = some d) :
    d = path.foldl enter place := by
  induction path generalizing place with
  | nil => exact (Option.some.inj h).symm
  | cons n path ih =>
    rw [lookup] at h
    split at h
    · exact ih h
    · cases h

/-- Whether a path leads somewhere depends on the directories on it. -/
theorem lookup_congr {path : List K}
    (h : ∀ q, q <+: path → fs (q.foldl enter place) = fs' (q.foldl enter place)) :
    fs.lookup enter place path = fs'.lookup enter place path := by
  induction path generalizing place with
  | nil => rfl
  | cons n path ih =>
    have hplace := isDir_congr (h [] List.nil_prefix)
    rw [List.foldl_nil] at hplace
    rw [lookup, lookup, hplace]
    split
    · exact ih fun q hq => h (n :: q) (List.cons_prefix_cons.2 ⟨rfl, hq⟩)
    · rfl

/-- The names lead down. -/
def LeadDown (enter : List K → K → List K) (path : List K) : Prop :=
  ∀ n ∈ path, ∀ place, enter place n = place ++ [n]

/-- Down a path of directories. -/
theorem lookup_down {path : List K} (h : LeadDown enter path) {d : List K} :
    fs.lookup enter place path = some d ↔
      d = place ++ path ∧ ∀ q, q <+: path → q ≠ path → fs.isDir (place ++ q) := by
  induction path generalizing place with
  | nil =>
    rw [lookup, Option.some.injEq, List.append_nil]
    refine ⟨fun he => ⟨he.symm, fun q hq hne => absurd (List.prefix_nil.1 hq) hne⟩, fun he => he.1.symm⟩
  | cons n path ih =>
    have hn := h n List.mem_cons_self place
    have ih' := @ih (place ++ [n]) fun m hm => h m (List.mem_cons_of_mem _ hm)
    rw [lookup, hn]
    constructor
    · intro hl
      split at hl
      · next hdir =>
        obtain ⟨rfl, hq⟩ := ih'.1 hl
        refine ⟨by simp, fun q hle hne => ?_⟩
        cases q with
        | nil => rwa [List.append_nil]
        | cons m q =>
          obtain ⟨rfl, hle'⟩ := List.cons_prefix_cons.1 hle
          have := hq q hle' fun he => hne (by rw [he])
          rwa [List.append_assoc] at this
      · cases hl
    · rintro ⟨rfl, hq⟩
      have hdir := hq [] List.nil_prefix (List.cons_ne_nil n path).symm
      rw [List.append_nil] at hdir
      rw [if_pos hdir]
      refine ih'.2 ⟨by simp, fun q hle hne => ?_⟩
      rw [List.append_assoc]
      exact hq (n :: q) (List.cons_prefix_cons.2 ⟨rfl, hle⟩) fun he => hne (List.cons.inj he).2

end

/-! ## Below one directory -/

/-- No directory on the path lies inside the one that the path leads to. -/
def NotThroughItself (enter : List K → K → List K) (root : List K) : Prop :=
  ∀ q, q <+: root → ∀ n s, q.foldl enter [] ≠ root.foldl enter [] ++ n :: s

/-- Going down a path is going to the place at its end. -/
theorem LeadDown.foldl {enter : List K → K → List K} {path : List K} (h : LeadDown enter path)
    (place : List K) : path.foldl enter place = place ++ path := by
  induction path generalizing place with
  | nil => exact (List.append_nil _).symm
  | cons n path ih =>
    rw [List.foldl_cons, h n List.mem_cons_self, ih fun m hm => h m (List.mem_cons_of_mem _ hm),
      List.append_assoc]
    rfl

/-- A path whose names lead down goes through no such directory. -/
theorem LeadDown.notThroughItself {enter : List K → K → List K} {root : List K}
    (h : LeadDown enter root) : NotThroughItself enter root := by
  intro q hq n s he
  have hdown : LeadDown enter q := fun m hm => h m (hq.subset hm)
  rw [hdown.foldl, h.foldl] at he
  have hlen := congrArg List.length he
  have := hq.length_le
  simp only [List.nil_append, List.length_append, List.length_cons] at hlen
  omega

section

variable {enter : List K → K → List K} {fs fs' : FileTree K C} {root p p' : List K}

/-- A path below the root leads to its place: the root is there, and directories on the way down. -/
def Reaches (enter : List K → K → List K) (fs : FileTree K C) (root p : List K) : Prop :=
  fs.lookup enter [] root = some (root.foldl enter []) ∧
    ∀ q, q <+: p → q ≠ p → fs.isDir (root.foldl enter [] ++ q)

/-- Whether a path below the root leads to its place depends on what is above the place. -/
theorem reaches_congr (hroot : NotThroughItself enter root) (hp' : p' ≠ [])
    (h : ∀ x, ¬ root.foldl enter [] ++ p' <+: x → fs x = fs' x)
    (hle : ∀ q, q <+: p → q ≠ p → ¬ p' <+: q) :
    fs.Reaches enter root p ↔ fs'.Reaches enter root p := by
  have hlookup : fs.lookup enter [] root = fs'.lookup enter [] root := by
    refine lookup_congr fun q hq => h _ fun hpre => ?_
    obtain ⟨n, s, rfl⟩ := List.exists_cons_of_ne_nil hp'
    obtain ⟨t, ht⟩ := hpre
    exact hroot q hq n (s ++ t) (by rw [← ht]; simp)
  unfold Reaches
  rw [hlookup]
  refine and_congr_right fun _ => forall_congr' fun q => ?_
  refine forall_congr' fun hq => forall_congr' fun hne => ?_
  rw [isDir_congr (h _ fun hpre => hle q hq hne ((List.prefix_append_right_inj _).1 hpre))]

/-- A path leads on from a directory. -/
theorem Reaches.above (h : fs.Reaches enter root p) (hle : p' <+: p) (hne : p' ≠ p) :
    fs.Reaches enter root p' ∧ fs.isDir (root.foldl enter [] ++ p') := by
  refine ⟨⟨h.1, fun q hq hqne => h.2 q (hq.trans hle) ?_⟩, h.2 p' hle hne⟩
  rintro rfl
  exact hqne (hq.eq_of_length_le hle.length_le)

variable [DecidableEq K] {clear clear' : Bool} {write write' : Option C → Option C}

/-- An update at a path that is reached renews the place it leads to. -/
theorem update_of_reaches (hp : LeadDown enter p) (h : fs.Reaches enter root p) :
    fs.update enter (root ++ p) clear write = fs.renew (root.foldl enter [] ++ p) clear write := by
  have hl : fs.lookup enter [] (root ++ p) = some (root.foldl enter [] ++ p) := by
    rw [lookup_append, h.1, Option.bind_some]
    exact (lookup_down hp).2 ⟨rfl, h.2⟩
  unfold update
  rw [hl]

/-- An update at a path that is not reached changes nothing. -/
theorem update_of_not_reaches (hp : LeadDown enter p) (h : ¬ fs.Reaches enter root p) :
    fs.update enter (root ++ p) clear write = fs := by
  unfold update
  cases hl : fs.lookup enter [] (root ++ p) with
  | none => rfl
  | some d =>
    rw [lookup_append] at hl
    obtain ⟨e, he, hd⟩ := Option.bind_eq_some_iff.1 hl
    obtain rfl := eq_of_lookup he
    exact absurd ⟨he, ((lookup_down hp).1 hd).2⟩ h

/-- An update changes nothing but its place and what is below it. -/
theorem update_apart (hp : LeadDown enter p) {x : List K}
    (hx : ¬ root.foldl enter [] ++ p <+: x) : fs.update enter (root ++ p) clear write x = fs x := by
  by_cases h : fs.Reaches enter root p
  · rw [update_of_reaches hp h, renew_apart hx]
  · rw [update_of_not_reaches hp h]

/-- Updates of which neither is above the other one commute. -/
theorem update_comm_of_apart (hroot : NotThroughItself enter root) (hp : LeadDown enter p)
    (hp' : LeadDown enter p') (hle : ¬ p <+: p') (hle' : ¬ p' <+: p) :
    (fs.update enter (root ++ p) clear write).update enter (root ++ p') clear' write' =
      (fs.update enter (root ++ p') clear' write').update enter (root ++ p) clear write := by
  have hnil : p ≠ [] := fun h => hle (h ▸ List.nil_prefix)
  have hnil' : p' ≠ [] := fun h => hle' (h ▸ List.nil_prefix)
  -- neither changes whether the other one reaches its place
  have hreach : (fs.update enter (root ++ p) clear write).Reaches enter root p' ↔
      fs.Reaches enter root p' :=
    reaches_congr hroot hnil (fun x hx => update_apart hp hx) fun q hq _ hpq =>
      hle (hpq.trans hq)
  have hreach' : (fs.update enter (root ++ p') clear' write').Reaches enter root p ↔
      fs.Reaches enter root p :=
    reaches_congr hroot hnil' (fun x hx => update_apart hp' hx) fun q hq _ hpq =>
      hle' (hpq.trans hq)
  by_cases h : fs.Reaches enter root p
  · by_cases h' : fs.Reaches enter root p'
    · rw [update_of_reaches hp' (hreach.2 h'), update_of_reaches hp (hreach'.2 h),
        update_of_reaches hp h, update_of_reaches hp' h']
      have hapart : ∀ {x}, root.foldl enter [] ++ p <+: x → ¬ root.foldl enter [] ++ p' <+: x := by
        intro x hx hx'
        rcases List.prefix_or_prefix_of_prefix hx hx' with hpre | hpre
        · exact hle ((List.prefix_append_right_inj _).1 hpre)
        · exact hle' ((List.prefix_append_right_inj _).1 hpre)
      funext x
      by_cases hx : root.foldl enter [] ++ p <+: x
      · rw [renew_apart (hapart hx)]
        exact renew_congr (fun y hy => (renew_apart (hapart hy)).symm) hx
      · rw [renew_apart hx]
        by_cases hx' : root.foldl enter [] ++ p' <+: x
        · exact renew_congr (fun y hy => renew_apart fun hy' => hapart hy' hy) hx'
        · rw [renew_apart hx', renew_apart hx', renew_apart hx]
    · rw [update_of_not_reaches hp' h', update_of_not_reaches hp' fun hr => h' (hreach.1 hr)]
  · rw [update_of_not_reaches hp h, update_of_not_reaches hp fun hr => h (hreach'.1 hr)]

/-- An update commutes with one further down: where it leaves a directory, it leaves it as it is, and
otherwise nothing is left of what the other one did. -/
theorem update_comm_below (hroot : NotThroughItself enter root) (hp : LeadDown enter p)
    (hp' : LeadDown enter p') (hle : p <+: p') (hne : p ≠ p') :
    (fs.update enter (root ++ p) clear write).update enter (root ++ p') clear' write' =
      (fs.update enter (root ++ p') clear' write').update enter (root ++ p) clear write := by
  have hnil' : p' ≠ [] := fun h => hne ((List.prefix_nil.1 (h ▸ hle)).trans h.symm)
  have hfar : ¬ root.foldl enter [] ++ p' <+: root.foldl enter [] ++ p := fun h =>
    hne (hle.eq_of_length_le ((List.prefix_append_right_inj _).1 h).length_le)
  have hsame : fs.update enter (root ++ p') clear' write' (root.foldl enter [] ++ p) =
      fs (root.foldl enter [] ++ p) := update_apart hp' hfar
  have hreach : (fs.update enter (root ++ p') clear' write').Reaches enter root p ↔
      fs.Reaches enter root p :=
    reaches_congr hroot hnil' (fun x hx => update_apart hp' hx) fun q hq hqne hpq =>
      hqne (hq.eq_of_length_le (hle.trans hpq).length_le)
  by_cases h : fs.Reaches enter root p
  · rw [update_of_reaches hp (hreach.2 h), update_of_reaches hp h]
    by_cases hstay : clear = false ∧ fs.isDir (root.foldl enter [] ++ p)
    · obtain ⟨rfl, hdir⟩ := hstay
      rw [renew_of_isDir hdir, renew_of_isDir (isDir_congr hsame ▸ hdir)]
    · have hgone : clear = true ∨ fs.isDir (root.foldl enter [] ++ p) = false := by
        rwa [not_and_or, Bool.not_eq_false, Bool.not_eq_true] at hstay
      have hno : ¬ (fs.renew (root.foldl enter [] ++ p) clear write).Reaches enter root p' := by
        intro hr
        have hdir := (hr.above hle hne).2
        rw [isDir_renew hgone] at hdir
        cases hdir
      rw [update_of_not_reaches hp' hno]
      rcases hgone with rfl | hdir
      · funext x
        by_cases hx : root.foldl enter [] ++ p <+: x
        · exact renew_clear_congr hx
        · rw [renew_apart hx, renew_apart hx, update_apart hp' fun hx' =>
            hx (((List.prefix_append_right_inj _).2 hle).trans hx')]
      · have hno' : ¬ fs.Reaches enter root p' := by
          intro hr
          rw [(hr.above hle hne).2] at hdir
          cases hdir
        rw [update_of_not_reaches hp' hno']
  · have hno : ¬ fs.Reaches enter root p' := fun hr => h (hr.above hle hne).1
    rw [update_of_not_reaches hp h, update_of_not_reaches hp' hno, update_of_not_reaches hp h]

/-- Updates at different paths below one directory commute. -/
theorem update_comm (hroot : NotThroughItself enter root) (hp : LeadDown enter p)
    (hp' : LeadDown enter p') (hne : p ≠ p') :
    (fs.update enter (root ++ p) clear write).update enter (root ++ p') clear' write' =
      (fs.update enter (root ++ p') clear' write').update enter (root ++ p) clear write := by
  by_cases hle : p <+: p'
  · exact update_comm_below hroot hp hp' hle hne
  · by_cases hle' : p' <+: p
    · exact (update_comm_below hroot hp' hp hle' hne.symm).symm
    · exact update_comm_of_apart hroot hp hp' hle hle'

end

end FileTree

end ExtremeS3
