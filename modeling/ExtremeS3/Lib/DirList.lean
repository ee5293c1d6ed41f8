import ExtremeS3.Lib.Dir

/-!
# The files and the directories of a tree, one after the other

A recursion over a tree comes to each file and to each directory once. `entries` and `dirPaths` are
what it comes to, with the paths; `mem_entries` and `mem_dirPaths` say that these are the paths that
`fileAt` and `dirAt` follow, and `nodup_entries` and `nodup_dirPaths` that none comes twice.
-/

namespace ExtremeS3

namespace Dir

variable {K : Type u} {ι : Type v} {φ : Type w}

mutual

/-- The files of a tree with their paths. -/
def entries : Dir K ι φ → List (List K × φ)
  | .node _ fs ds => fs.map (fun e => ([e.1], e.2)) ++ entriesBelow ds

/-- The files in the subdirectories. -/
def entriesBelow : List (K × Dir K ι φ) → List (List K × φ)
  | [] => []
  | (n, d) :: ds => (entries d).map (fun e => (n :: e.1, e.2)) ++ entriesBelow ds

end

mutual

/-- The paths of the directories below the root. -/
def dirPaths : Dir K ι φ → List (List K)
  | .node _ _ ds => dirPathsBelow ds

/-- The paths of the subdirectories, and of the directories below them. -/
def dirPathsBelow : List (K × Dir K ι φ) → List (List K)
  | [] => []
  | (n, d) :: ds => [n] :: (dirPaths d).map (n :: ·) ++ dirPathsBelow ds

end

/-- The files below a list of subdirectories are those of each, with its name put before theirs. -/
theorem entriesBelow_eq (ds : List (K × Dir K ι φ)) :
    entriesBelow ds = ds.flatMap fun e => (entries e.2).map fun x => (e.1 :: x.1, x.2) := by
  induction ds with
  | nil => rfl
  | cons e ds ih => rw [entriesBelow, ih, List.flatMap_cons]

/-- The paths below a list of subdirectories are those of each, with its name put before them. -/
theorem dirPathsBelow_eq (ds : List (K × Dir K ι φ)) :
    dirPathsBelow ds = ds.flatMap fun e => [e.1] :: (dirPaths e.2).map (e.1 :: ·) := by
  induction ds with
  | nil => rfl
  | cons e ds ih => rw [dirPathsBelow, ih, List.flatMap_cons]

/-- A file is below a list of subdirectories if it is in one of them. -/
theorem mem_entriesBelow {ds : List (K × Dir K ι φ)} {x : List K × φ} :
    x ∈ entriesBelow ds ↔ ∃ n d p, (n, d) ∈ ds ∧ x.1 = n :: p ∧ (p, x.2) ∈ entries d := by
  rw [entriesBelow_eq, List.mem_flatMap]
  constructor
  · rintro ⟨⟨n, d⟩, hd, hx⟩
    obtain ⟨⟨p, f⟩, hp, rfl⟩ := List.mem_map.1 hx
    exact ⟨n, d, p, hd, rfl, hp⟩
  · rintro ⟨n, d, p, hd, hx, hp⟩
    exact ⟨(n, d), hd, List.mem_map.2 ⟨(p, x.2), hp, Prod.ext hx.symm rfl⟩⟩

/-- A path is below a list of subdirectories if it is one of them, or leads into one. -/
theorem mem_dirPathsBelow {ds : List (K × Dir K ι φ)} {q : List K} :
    q ∈ dirPathsBelow ds ↔ ∃ n d p, (n, d) ∈ ds ∧ q = n :: p ∧ (p = [] ∨ p ∈ dirPaths d) := by
  rw [dirPathsBelow_eq, List.mem_flatMap]
  constructor
  · rintro ⟨⟨n, d⟩, hd, hq⟩
    rcases List.mem_cons.1 hq with rfl | hq
    · exact ⟨n, d, [], hd, rfl, .inl rfl⟩
    · obtain ⟨p, hp, rfl⟩ := List.mem_map.1 hq
      exact ⟨n, d, p, hd, rfl, .inr hp⟩
  · rintro ⟨n, d, p, hd, rfl, hp⟩
    refine ⟨(n, d), hd, List.mem_cons.2 ?_⟩
    exact hp.imp (congrArg _) fun hp => List.mem_map.2 ⟨p, hp, rfl⟩

variable [LinearOrder K]

/-- The files are those that paths lead to. -/
theorem mem_entries {d : Dir K ι φ} (hd : d.Everywhere Sorted) {p : List K} {f : φ} :
    (p, f) ∈ entries d ↔ fileAt p d = some f := by
  induction d using Dir.induct generalizing p f with
  | node i fs ds ih =>
    have hfs : ExtremeS3.Sorted fs := hd.root.1
    have hds : ExtremeS3.Sorted ds := hd.root.2
    have hchild : ∀ {n e}, (n, e) ∈ ds → e.Everywhere Sorted :=
      fun he => hd.child (hds.findKey_eq_some.2 he)
    rw [entries, List.mem_append, List.mem_map, mem_entriesBelow]
    constructor
    · rintro (⟨⟨n, f'⟩, hn, he⟩ | ⟨n, e, q, he, hp, hq⟩)
      · cases he
        exact hfs.findKey_eq_some.2 hn
      · dsimp only at hp hq
        rw [ih n e he (hchild he)] at hq
        rw [hp, fileAt_cons (ne_nil_of_fileAt hq), subdirs_node, hds.findKey_eq_some.2 he]
        exact hq
    · intro h
      match p with
      | [] => cases h
      | [n] => exact .inl ⟨(n, f), mem_of_findKey h, rfl⟩
      | n :: m :: q =>
        obtain ⟨e, he, hf⟩ := Option.bind_eq_some_iff.1 h
        have hin := mem_of_findKey he
        exact .inr ⟨n, e, m :: q, hin, rfl, (ih n e hin (hchild hin)).2 hf⟩

/-- The directories are those that paths lead to. -/
theorem mem_dirPaths {d : Dir K ι φ} (hd : d.Everywhere Sorted) {p : List K} :
    p ∈ dirPaths d ↔ p ≠ [] ∧ (dirAt p d).isSome := by
  induction d using Dir.induct generalizing p with
  | node i fs ds ih =>
    have hds : ExtremeS3.Sorted ds := hd.root.2
    have hchild : ∀ {n e}, (n, e) ∈ ds → e.Everywhere Sorted :=
      fun he => hd.child (hds.findKey_eq_some.2 he)
    rw [dirPaths, mem_dirPathsBelow]
    constructor
    · rintro ⟨n, e, q, he, rfl, hq⟩
      refine ⟨List.cons_ne_nil _ _, ?_⟩
      rw [dirAt_cons, subdirs_node, hds.findKey_eq_some.2 he, Option.bind_some]
      rcases hq with rfl | hq
      · rfl
      · exact ((ih n e he (hchild he)).1 hq).2
    · rintro ⟨hne, h⟩
      obtain ⟨n, q, rfl⟩ := List.exists_cons_of_ne_nil hne
      obtain ⟨e, he⟩ := Option.isSome_iff_exists.1 h
      obtain ⟨d, hn, hq⟩ := Option.bind_eq_some_iff.1 he
      have hin := mem_of_findKey hn
      refine ⟨n, d, q, hin, rfl, or_iff_not_imp_left.2 fun hq' => ?_⟩
      exact (ih n d hin (hchild hin)).2 ⟨hq', by rw [hq]; rfl⟩

/-- Paths that go on from different names are different. -/
theorem nodup_flatMap {V : Type*} {m : List (K × V)} (hm : ExtremeS3.Sorted m)
    {g : K × V → List (List K)} (hg : ∀ e ∈ m, (g e).Nodup)
    (hhead : ∀ e ∈ m, ∀ p ∈ g e, p.head? = some e.1) : (m.flatMap g).Nodup := by
  refine List.nodup_flatMap.2 ⟨hg, ?_⟩
  have hlt : m.Pairwise fun e e' => e.1 < e'.1 := List.pairwise_map.1 hm
  refine hlt.imp_of_mem fun he he' hne p hp hp' => ?_
  have := (hhead _ he p hp).symm.trans (hhead _ he' p hp')
  exact absurd hne (by rw [Option.some.inj this]; exact lt_irrefl _)

/-- No file comes twice. -/
theorem nodup_entries {d : Dir K ι φ} (hd : d.Everywhere Sorted) :
    ((entries d).map Prod.fst).Nodup := by
  induction d using Dir.induct with
  | node i fs ds ih =>
    have hfs : ExtremeS3.Sorted fs := hd.root.1
    have hds : ExtremeS3.Sorted ds := hd.root.2
    have hchild : ∀ {n e}, (n, e) ∈ ds → e.Everywhere Sorted :=
      fun he => hd.child (hds.findKey_eq_some.2 he)
    have hfiles : (fs.map fun e => [e.1]).Nodup := by
      have := hfs.nodup_keys.map (f := fun n => [n]) fun a b h => (List.cons.inj h).1
      rwa [List.map_map] at this
    have hbelow : ((entriesBelow ds).map Prod.fst).Nodup := by
      rw [entriesBelow_eq, List.map_flatMap]
      refine nodup_flatMap hds (fun e he => ?_) fun e he p hp => ?_
      · have := (ih e.1 e.2 he (hchild he)).map (f := (e.1 :: ·)) fun a b h => (List.cons.inj h).2
        rw [List.map_map] at this ⊢
        exact this
      · rw [List.map_map] at hp
        obtain ⟨x, -, rfl⟩ := List.mem_map.1 hp
        rfl
    rw [entries, List.map_append, List.map_map, List.nodup_append]
    refine ⟨hfiles, hbelow, ?_⟩
    rintro a ha b hb rfl
    obtain ⟨x, -, rfl⟩ := List.mem_map.1 ha
    obtain ⟨y, hy, he⟩ := List.mem_map.1 hb
    obtain ⟨m, d, p, hd', hp, hmem⟩ := mem_entriesBelow.1 hy
    rw [hp] at he
    have hnil : p = [] := (List.cons.inj he).2
    rw [hnil, mem_entries (hchild hd')] at hmem
    cases hmem

/-- No directory comes twice. -/
theorem nodup_dirPaths {d : Dir K ι φ} (hd : d.Everywhere Sorted) : (dirPaths d).Nodup := by
  induction d using Dir.induct with
  | node i fs ds ih =>
    have hds : ExtremeS3.Sorted ds := hd.root.2
    have hchild : ∀ {n e}, (n, e) ∈ ds → e.Everywhere Sorted :=
      fun he => hd.child (hds.findKey_eq_some.2 he)
    rw [dirPaths, dirPathsBelow_eq]
    refine nodup_flatMap hds (fun e he => List.nodup_cons.2 ⟨fun h => ?_, ?_⟩) fun e he p hp => ?_
    · obtain ⟨p, hp, heq⟩ := List.mem_map.1 h
      exact ((mem_dirPaths (hchild he)).1 hp).1 (List.cons.inj heq).2
    · exact (ih e.1 e.2 he (hchild he)).map fun a b h => (List.cons.inj h).2
    · rcases List.mem_cons.1 hp with rfl | hp
      · rfl
      · obtain ⟨q, -, rfl⟩ := List.mem_map.1 hp
        rfl

end Dir

end ExtremeS3
