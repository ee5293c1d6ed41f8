import Mathlib.Algebra.GroupWithZero.Nat
import Mathlib.Data.List.Basic
import Mathlib.Data.List.Induction
import Mathlib.Data.List.Perm.Basic
import Mathlib.Data.List.Sort
import Mathlib.Order.Lattice

/-!
# Ordered maps as sorted association lists

`std::map` iterates over its entries in the order of their keys and keeps one entry for a key. A
map is represented by the list of its entries in that order: `Sorted` says that the keys strictly
increase. The lists are not bundled with `Sorted`, so that an inductive type may nest them.

`findKey` is `find`. `upsert k f` is what an assignment through `operator[]` does: it rewrites the
value at `k`, or inserts one. `eraseKey k` is `erase`. A sorted map is read back by `findKey_upsert`
and, as a collection of entries, by `mem_eraseKey`, `upsert_perm` and `perm_of_findKey`, of which the
last two move the entry at `k` to the front of the entries at the other keys.
-/

namespace ExtremeS3

variable {K : Type u} {V : Type v} [LinearOrder K]

/-- The keys strictly increase. -/
def Sorted (m : List (K × V)) : Prop := (m.map Prod.fst).Pairwise (· < ·)

/-- The value at `k`. -/
def findKey (k : K) : List (K × V) → Option V
  | [] => none
  | (k', v) :: m => if k = k' then some v else findKey k m

/-- Rewrite the value at `k`, or insert one. -/
def upsert (k : K) (f : Option V → V) : List (K × V) → List (K × V)
  | [] => [(k, f none)]
  | (k', v) :: m =>
    if k < k' then (k, f none) :: (k', v) :: m
    else if k = k' then (k, f (some v)) :: m
    else (k', v) :: upsert k f m

/-- Remove the entry at `k`. -/
def eraseKey (k : K) (m : List (K × V)) : List (K × V) := m.filter (·.1 ≠ k)

/-! ## Sorted maps -/

@[simp] theorem sorted_nil : Sorted ([] : List (K × V)) := List.Pairwise.nil

/-- A map is sorted if its first key is below the others, and the rest is sorted. -/
theorem sorted_cons {k : K} {v : V} {m : List (K × V)} :
    Sorted ((k, v) :: m) ↔ (∀ e ∈ m, k < e.1) ∧ Sorted m := by
  simp [Sorted, List.pairwise_cons]

/-- A sorted map has no key twice. -/
theorem Sorted.nodup_keys {m : List (K × V)} (h : Sorted m) : (m.map Prod.fst).Nodup :=
  h.imp fun hlt => hlt.ne

/-- What is left of a sorted map is sorted. -/
theorem Sorted.filter {m : List (K × V)} (h : Sorted m) (p : K × V → Bool) :
    Sorted (m.filter p) :=
  List.Pairwise.sublist (List.filter_sublist.map _) h

/-- Erasing a key leaves a map sorted. -/
protected theorem Sorted.eraseKey {m : List (K × V)} (h : Sorted m) (k : K) :
    Sorted (eraseKey k m) :=
  h.filter _

/-- The keys of a map after a write are those before and the one written. -/
theorem mem_keys_upsert {k : K} {f : Option V → V} {m : List (K × V)} {j : K} :
    j ∈ (upsert k f m).map Prod.fst ↔ j = k ∨ j ∈ m.map Prod.fst := by
  induction m with
  | nil => simp [upsert]
  | cons e m ih =>
    obtain ⟨k', v⟩ := e
    simp only [upsert]
    split
    · simp
    · split
      · next he => subst he; simp
      · simp only [List.map_cons, List.mem_cons, ih]
        grind

/-- Setting a key leaves a map sorted. -/
protected theorem Sorted.upsert {m : List (K × V)} (h : Sorted m) (k : K) (f : Option V → V) :
    Sorted (upsert k f m) := by
  induction m with
  | nil => simp [upsert, Sorted]
  | cons e m ih =>
    obtain ⟨k', v⟩ := e
    obtain ⟨hlt, hm⟩ := sorted_cons.1 h
    simp only [upsert]
    split
    · next hk =>
      refine sorted_cons.2 ⟨fun e he => ?_, h⟩
      rcases List.mem_cons.1 he with rfl | he
      · exact hk
      · exact hk.trans (hlt e he)
    · split
      · next he => subst he; exact sorted_cons.2 ⟨hlt, hm⟩
      · next hnlt hne =>
        refine sorted_cons.2 ⟨fun e he => ?_, ih hm⟩
        rcases mem_keys_upsert.1 (List.mem_map_of_mem (f := Prod.fst) he) with hk | hk
        · exact hk ▸ lt_of_le_of_ne (not_lt.1 hnlt) (Ne.symm hne)
        · obtain ⟨e', he', hk⟩ := List.mem_map.1 hk
          exact hk ▸ hlt e' he'

/-! ## Reading a map -/

@[simp] theorem findKey_nil (k : K) : findKey k ([] : List (K × V)) = none := rfl

/-- A key is the first one, or looked up in the rest. -/
theorem findKey_cons (k k' : K) (v : V) (m : List (K × V)) :
    findKey k ((k', v) :: m) = if k = k' then some v else findKey k m := rfl

@[simp] theorem findKey_cons_self (k : K) (v : V) (m : List (K × V)) :
    findKey k ((k, v) :: m) = some v := if_pos rfl

/-- A key is not found if it is not one of the map. -/
theorem findKey_eq_none {k : K} {m : List (K × V)} :
    findKey k m = none ↔ k ∉ m.map Prod.fst := by
  induction m with
  | nil => simp
  | cons e m ih =>
    obtain ⟨k', v⟩ := e
    by_cases hk : k = k' <;> simp [findKey_cons, hk, ih]

/-- A key is one of the map if it is found. -/
theorem mem_keys {k : K} {m : List (K × V)} : k ∈ m.map Prod.fst ↔ (findKey k m).isSome := by
  rw [← not_iff_not, ← findKey_eq_none, Bool.not_eq_true, Option.isSome_eq_false_iff,
    Option.isNone_iff_eq_none]

/-- What is found under a key is in the map with it. -/
theorem mem_of_findKey {k : K} {v : V} {m : List (K × V)} (h : findKey k m = some v) :
    (k, v) ∈ m := by
  induction m with
  | nil => cases h
  | cons e m ih =>
    obtain ⟨k', w⟩ := e
    rw [findKey_cons] at h
    split at h
    · next hk => cases h; exact hk ▸ List.mem_cons_self
    · exact List.mem_cons_of_mem _ (ih h)

/-- A key below every key of a map is not in it. -/
theorem findKey_eq_none_of_lt {k : K} {m : List (K × V)} (h : ∀ e ∈ m, k < e.1) :
    findKey k m = none :=
  findKey_eq_none.2 fun hk => by
    obtain ⟨e, he, rfl⟩ := List.mem_map.1 hk
    exact lt_irrefl _ (h e he)

/-- In a sorted map an entry is what its key finds. -/
theorem Sorted.findKey_eq_some {m : List (K × V)} (h : Sorted m) {k : K} {v : V} :
    findKey k m = some v ↔ (k, v) ∈ m := by
  refine ⟨mem_of_findKey, fun hm => ?_⟩
  induction m with
  | nil => cases hm
  | cons e m ih =>
    obtain ⟨k', w⟩ := e
    obtain ⟨hlt, hs⟩ := sorted_cons.1 h
    rcases List.mem_cons.1 hm with he | hm
    · cases he; exact findKey_cons_self ..
    · rw [findKey_cons, if_neg (hlt _ hm).ne', ih hs hm]

/-- A sorted map is determined by its entries. -/
protected theorem Sorted.ext {m m' : List (K × V)} (h : Sorted m) (h' : Sorted m')
    (hm : ∀ e, e ∈ m ↔ e ∈ m') : m = m' := by
  have : Std.Irrefl fun e e' : K × V => e.1 < e'.1 := ⟨fun e => lt_irrefl e.1⟩
  have : Std.Antisymm fun e e' : K × V => e.1 < e'.1 :=
    ⟨fun e e' hlt hgt => absurd hgt hlt.asymm⟩
  exact (List.pairwise_map.1 h).eq_of_mem_iff (List.pairwise_map.1 h') hm

/-- Setting a key changes what is found under it, and nothing else. -/
theorem findKey_upsert {m : List (K × V)} (h : Sorted m) (k : K) (f : Option V → V) (j : K) :
    findKey j (upsert k f m) = if j = k then some (f (findKey k m)) else findKey j m := by
  induction m with
  | nil => rfl
  | cons e m ih =>
    obtain ⟨k', v⟩ := e
    obtain ⟨hlt, hm⟩ := sorted_cons.1 h
    simp only [upsert]
    split
    · next hk =>
      have hnone : findKey k ((k', v) :: m) = none := findKey_eq_none_of_lt fun e he => by
        rcases List.mem_cons.1 he with rfl | he
        · exact hk
        · exact hk.trans (hlt e he)
      rw [hnone, findKey_cons]
    · split
      · next he => subst he; simp only [findKey_cons, if_true]; split <;> rfl
      · next hne =>
        rw [findKey_cons, ih hm, findKey_cons, findKey_cons, if_neg hne]
        split
        · next hj => rw [if_neg fun h => hne (h.symm.trans hj)]
        · rfl

/-- A map that is written by one item after the other, each value determined by its key, holds the
values of the keys that were written. -/
theorem findKey_written {I : Type w} {read : List I → List (K × V)} {key : I → Option K}
    {value : K → V} (hnil : read [] = []) (hsorted : ∀ items, Sorted (read items))
    (hwrite : ∀ items i, read (items ++ [i]) =
      (key i).elim (read items) fun k => upsert k (fun _ => value k) (read items))
    {items : List I} {k : K} {v : V} :
    findKey k (read items) = some v ↔ v = value k ∧ ∃ i ∈ items, key i = some k := by
  induction items using List.reverseRecOn with
  | nil => simp [hnil]
  | append_singleton items i ih =>
    have hmem : (∃ j ∈ items ++ [i], key j = some k) ↔
        (∃ j ∈ items, key j = some k) ∨ key i = some k := by
      simp only [List.mem_append, List.mem_singleton, or_and_right, exists_or, exists_eq_left]
    rw [hwrite, hmem]
    cases hkey : key i with
    | none =>
      rw [Option.elim_none, ih]
      simp
    | some k' =>
      rw [Option.elim_some, findKey_upsert (hsorted items)]
      by_cases hk : k = k'
      · rw [if_pos hk, hk, Option.some_inj]
        exact ⟨fun h => ⟨h.symm, .inr rfl⟩, fun h => h.1.symm⟩
      · rw [if_neg hk, ih, Option.some_inj, or_iff_left (Ne.symm hk)]

/-- A key is erased entry by entry. -/
theorem eraseKey_cons (k k' : K) (v : V) (m : List (K × V)) :
    eraseKey k ((k', v) :: m) = if k' = k then eraseKey k m else (k', v) :: eraseKey k m := by
  by_cases hk : k' = k <;> simp [eraseKey, hk]

/-! ## A map as a collection of entries -/

/-- Removing a key that is not there changes nothing. -/
theorem eraseKey_of_findKey_none {k : K} {m : List (K × V)} (h : findKey k m = none) :
    eraseKey k m = m :=
  List.filter_eq_self.2 fun e he => decide_eq_true fun hk =>
    findKey_eq_none.1 h (List.mem_map.2 ⟨e, he, hk⟩)

/-- The entries of a sorted map are the one at a key and those at the other keys. -/
theorem Sorted.perm_of_findKey {m : List (K × V)} (h : Sorted m) {k : K} {v : V}
    (hk : findKey k m = some v) : m.Perm ((k, v) :: eraseKey k m) := by
  induction m with
  | nil => cases hk
  | cons e m ih =>
    obtain ⟨k', w⟩ := e
    obtain ⟨hlt, hm⟩ := sorted_cons.1 h
    rw [findKey_cons] at hk
    split at hk
    · next he =>
      subst he
      cases hk
      rw [eraseKey_cons, if_pos rfl, eraseKey_of_findKey_none (findKey_eq_none_of_lt hlt)]
    · next hne =>
      rw [eraseKey_cons, if_neg (Ne.symm hne)]
      exact ((ih hm hk).cons _).trans (.swap ..)

/-- Setting a key before it is erased makes no difference. -/
theorem eraseKey_upsert (k : K) (f : Option V → V) (m : List (K × V)) :
    eraseKey k (upsert k f m) = eraseKey k m := by
  induction m with
  | nil => simp [upsert, eraseKey]
  | cons e m ih =>
    obtain ⟨k', w⟩ := e
    simp only [upsert]
    split
    · rw [eraseKey_cons, if_pos rfl]
    · split
      · next hk => rw [eraseKey_cons, eraseKey_cons, if_pos rfl, if_pos hk.symm]
      · rw [eraseKey_cons, eraseKey_cons, ih]

/-- The entries of a sorted map after a write are the one written and those at the other keys. -/
theorem Sorted.upsert_perm {m : List (K × V)} (h : Sorted m) (k : K) (f : Option V → V) :
    (upsert k f m).Perm ((k, f (findKey k m)) :: eraseKey k m) := by
  have hk : findKey k (upsert k f m) = some (f (findKey k m)) := by
    rw [findKey_upsert h, if_pos rfl]
  exact eraseKey_upsert k f m ▸ (h.upsert k f).perm_of_findKey hk

/-- The entries after a write at a new key. -/
theorem Sorted.upsert_new {m : List (K × V)} (h : Sorted m) {k : K} (hk : findKey k m = none)
    (f : Option V → V) : (upsert k f m).Perm ((k, f none) :: m) := by
  have := h.upsert_perm k f
  rwa [hk, eraseKey_of_findKey_none hk] at this

/-- The sum of the values after a write. -/
theorem Sorted.sum_upsert {m : List (K × Nat)} (h : Sorted m) (k : K) (f : Option Nat → Nat) :
    ((upsert k f m).map Prod.snd).sum + (findKey k m).getD 0 =
      (m.map Prod.snd).sum + f (findKey k m) := by
  have hup := ((h.upsert_perm k f).map Prod.snd).sum_nat
  rw [hup, List.map_cons, List.sum_cons]
  cases hk : findKey k m with
  | none =>
    rw [eraseKey_of_findKey_none hk, Option.getD_none]
    omega
  | some n =>
    have hm := ((h.perm_of_findKey hk).map Prod.snd).sum_nat
    rw [List.map_cons, List.sum_cons] at hm
    rw [hm, Option.getD_some]
    omega

@[simp] theorem mem_eraseKey {k : K} {m : List (K × V)} {e : K × V} :
    e ∈ eraseKey k m ↔ e ∈ m ∧ e.1 ≠ k := by
  simp [eraseKey]

/-- The entries after a write. -/
theorem Sorted.mem_upsert {m : List (K × V)} (h : Sorted m) {k : K} {f : Option V → V}
    {e : K × V} : e ∈ upsert k f m ↔ e = (k, f (findKey k m)) ∨ e ∈ m ∧ e.1 ≠ k := by
  rw [(h.upsert_perm k f).mem_iff, List.mem_cons, mem_eraseKey]

/-- The last key is the greatest. -/
theorem Sorted.le_getLast {m : List (K × V)} (h : Sorted m) {last : K × V}
    (hl : m.getLast? = some last) : ∀ e ∈ m, e.1 ≤ last.1 := by
  obtain ⟨l, rfl⟩ := List.getLast?_eq_some_iff.1 hl
  intro e he
  rcases List.mem_append.1 he with he | he
  · have hp := List.pairwise_append.1 (List.pairwise_map.1 h)
    exact (hp.2.2 e he last (List.mem_singleton_self _)).le
  · rw [List.mem_singleton.1 he]

/-- The first key is the least. -/
theorem Sorted.head_le {m : List (K × V)} (h : Sorted m) {first : K × V}
    (hf : m.head? = some first) : ∀ e ∈ m, first.1 ≤ e.1 := by
  obtain ⟨l, rfl⟩ := List.head?_eq_some_iff.1 hf
  intro e he
  rcases List.mem_cons.1 he with rfl | he
  · exact le_rfl
  · exact ((sorted_cons.1 h).1 e he).le

/-- Entries of one key are one. -/
theorem Sorted.eq_of_key {m : List (K × V)} (h : Sorted m) {d e : K × V} (hd : d ∈ m) (he : e ∈ m)
    (hk : d.1 = e.1) : d = e := by
  have hfd := h.findKey_eq_some.2 hd
  rw [hk, h.findKey_eq_some.2 he] at hfd
  exact Prod.ext hk (Option.some.inj hfd).symm

/-- What a function lists of the entries after a write. -/
theorem Sorted.flatMap_upsert_perm {m : List (K × V)} (h : Sorted m) (k : K) (f : Option V → V)
    (g : K × V → List W) :
    ((upsert k f m).flatMap g).Perm (g (k, f (findKey k m)) ++ (eraseKey k m).flatMap g) :=
  (h.upsert_perm k f).flatMap_right g

/-- What a function lists of the entries, those at one key first. -/
theorem Sorted.flatMap_perm {m : List (K × V)} (h : Sorted m) (k : K) (g : K × V → List W) :
    (m.flatMap g).Perm
      (((findKey k m).map fun v => g (k, v)).getD [] ++ (eraseKey k m).flatMap g) := by
  cases hk : findKey k m with
  | none => rw [eraseKey_of_findKey_none hk]; exact .refl _
  | some v => exact (h.perm_of_findKey hk).flatMap_right g

/-! ## Insertions -/

/-- The map after writing entries, one after the other. -/
def insertAll (es m : List (K × V)) : List (K × V) :=
  es.foldl (fun m e => upsert e.1 (fun _ => e.2) m) m

/-- Entries are put into a map one by one. -/
theorem insertAll_cons (e : K × V) (es m : List (K × V)) :
    insertAll (e :: es) m = insertAll es (upsert e.1 (fun _ => e.2) m) := rfl

/-- Putting entries into a map leaves it sorted. -/
protected theorem Sorted.insertAll {m : List (K × V)} (h : Sorted m) (es : List (K × V)) :
    Sorted (insertAll es m) := by
  induction es generalizing m with
  | nil => exact h
  | cons e es ih => exact ih (h.upsert _ _)

/-- The keys of a map with entries put into it are its own and theirs. -/
theorem mem_keys_insertAll {es m : List (K × V)} {k : K} :
    k ∈ (insertAll es m).map Prod.fst ↔ k ∈ m.map Prod.fst ∨ k ∈ es.map Prod.fst := by
  induction es generalizing m with
  | nil => simp [insertAll]
  | cons e es ih =>
    rw [insertAll_cons, ih, mem_keys_upsert, List.map_cons, List.mem_cons, or_assoc, or_left_comm]

/-- Writing entries at new keys adds just these entries. -/
theorem Sorted.insertAll_perm {es m : List (K × V)} (h : Sorted m)
    (hnodup : ((es ++ m).map Prod.fst).Nodup) : (insertAll es m).Perm (es ++ m) := by
  induction es generalizing m with
  | nil => exact .refl _
  | cons e es ih =>
    have hnew : findKey e.1 m = none := by
      rw [List.cons_append, List.map_cons, List.nodup_cons] at hnodup
      exact findKey_eq_none.2 fun hm => hnodup.1 (by simp only [List.map_append, List.mem_append, hm,
        or_true])
    have hset : (upsert e.1 (fun _ => e.2) m).Perm (e :: m) := h.upsert_new hnew _
    have hperm : (es ++ upsert e.1 (fun _ => e.2) m).Perm (e :: es ++ m) :=
      (hset.append_left es).trans List.perm_middle
    rw [insertAll_cons]
    exact (ih (h.upsert _ _) ((hperm.map Prod.fst).nodup_iff.2 hnodup)).trans hperm

/-- The order of writes at different keys does not matter. -/
theorem insertAll_eq_of_perm {es es' : List (K × V)} (h : es.Perm es')
    (hnodup : (es.map Prod.fst).Nodup) : insertAll es [] = insertAll es' [] := by
  have hperm : ∀ es : List (K × V), (es.map Prod.fst).Nodup → (insertAll es []).Perm es := by
    intro es hnodup
    have := sorted_nil.insertAll_perm (m := []) (by rwa [List.append_nil])
    rwa [List.append_nil] at this
  have hes := hperm es hnodup
  have hes' := hperm es' ((h.map Prod.fst).nodup_iff.1 hnodup)
  exact (sorted_nil.insertAll es).ext (sorted_nil.insertAll es') fun e =>
    ((hes.trans h).trans hes'.symm).mem_iff

end ExtremeS3
