import Mathlib.Data.Char
import Mathlib.Data.List.Lex
import ExtremeS3.Common
import ExtremeS3.Lib.Machine
import ExtremeS3.Lib.SortedMap

/-!
# The pool of connections

A `conn_context` keeps the CURL handles that are not in use, by the zone and the bucket they were
made for, and remembers for each that is in use where it belongs. Each call keeps every live handle
in one place, under its own key (`PoolOk`), whatever the order of the calls; so a handle is never
handed out twice, and `reset` cleans up each once (`pool_invariant`). Each call keeps `PoolOk`
(`PoolOk.getCurl`, `PoolOk.releaseCurl`, `PoolOk.reset`), so it holds after any calls
(`poolOk_of_reachable`), and what the next call returns is read off it.
-/

namespace ExtremeS3

/-- The maps of a `conn_context`. -/
structure ConnContext (H B : Type) where
  curls : List (Str × List H)
  errorBufs : List (H × B)
  borrowedCurls : List (H × Str)

/-- The maps, and the handles that are alive, each with the key that it was made for. -/
structure CurlWorld (H B : Type) where
  context : ConnContext H B
  live : List (H × Str)

/-- What makes a call fail. -/
inductive PoolFailure where
  | assertion
  | cannotInit
  deriving DecidableEq, Repr

/-- The key of a bucket. -/
def poolKey (zone bucket : Str) : Str := zone ++ "/".toList ++ bucket

/-! ## The lists of handles -/

section

variable {H : Type}

/-- The handles of the lists, with their keys. -/
def idle (curls : List (Str × List H)) : List (H × Str) :=
  curls.flatMap fun e => e.2.map fun curl => (curl, e.1)

/-- A handle is idle if it lies in the list of its key. -/
theorem mem_idle {curls : List (Str × List H)} {curl : H} {key : Str} :
    (curl, key) ∈ idle curls ↔ ∃ cur, (key, cur) ∈ curls ∧ curl ∈ cur := by
  simp only [idle, List.mem_flatMap, List.mem_map, Prod.mk.injEq]
  constructor
  · rintro ⟨⟨k, cur⟩, he, c, hc, rfl, rfl⟩
    exact ⟨cur, he, hc⟩
  · rintro ⟨cur, he, hc⟩
    exact ⟨(key, cur), he, curl, hc, rfl, rfl⟩

/-- The handles of one key, and the others. -/
theorem idle_perm {curls : List (Str × List H)} (h : Sorted curls) (key : Str) :
    (idle curls).Perm
      (((findKey key curls).getD []).map (fun curl => (curl, key)) ++ idle (eraseKey key curls)) := by
  have hperm := h.flatMap_perm key fun e => e.2.map fun curl => (curl, e.1)
  cases hk : findKey key curls with
  | none =>
    rw [hk] at hperm
    exact hperm
  | some cur =>
    rw [hk] at hperm
    exact hperm

/-- The same after a write of the list of the key. -/
theorem idle_upsert_perm {curls : List (Str × List H)} (h : Sorted curls) (key : Str)
    (f : Option (List H) → List H) :
    (idle (upsert key f curls)).Perm
      ((f (findKey key curls)).map (fun curl => (curl, key)) ++ idle (eraseKey key curls)) :=
  h.flatMap_upsert_perm key f fun e => e.2.map fun curl => (curl, e.1)

/-- A handle moves from the end of its list to the front of another one. -/
theorem perm_move (a : α) (l l' rest : List α) :
    (a :: l ++ (l' ++ rest)).Perm (l ++ (l' ++ [a] ++ rest)) := by
  have : (a :: (l ++ l' ++ rest)).Perm (l ++ l' ++ a :: rest) := List.perm_middle.symm
  simpa only [List.append_assoc, List.cons_append, List.nil_append] using this

/-- Rewriting a list as it is. -/
theorem idle_upsert_self {curls : List (Str × List H)} (h : Sorted curls) (key : Str) :
    (idle (upsert key (fun _ => (findKey key curls).getD []) curls)).Perm (idle curls) :=
  (idle_upsert_perm h key _).trans (idle_perm h key).symm

end

section

variable {H B : Type} [LinearOrder H]

/-! ## The code -/

/-- `conn_context::get_curl`; `curl_easy_init` is answered with a handle, and `malloc` with a
buffer. -/
def getCurl (zone bucket : Str) (init : Option (H × B)) (w : CurlWorld H B) :
    CurlWorld H B × Except PoolFailure H :=
  let c := w.context
  let cur := (findKey (poolKey zone bucket) c.curls).getD []
  match cur.getLast? with
  | some res =>
    let curls := upsert (poolKey zone bucket) (fun _ => cur.dropLast) c.curls
    if (findKey res c.borrowedCurls).isSome then
      ({ w with context := { c with curls := curls } }, .error .assertion)
    else
      let borrowed := upsert res (fun _ => poolKey zone bucket) c.borrowedCurls
      ({ w with context := { c with curls := curls, borrowedCurls := borrowed } }, .ok res)
  | none =>
    let c := { c with curls := upsert (poolKey zone bucket) (fun _ => cur) c.curls }
    match init with
    | none => ({ w with context := c }, .error .cannotInit)
    | some (res, errBuf) =>
      let live := upsert res (fun _ => poolKey zone bucket) w.live
      let c := { c with errorBufs := upsert res (fun _ => errBuf) c.errorBufs }
      if (findKey res c.borrowedCurls).isSome then ({ context := c, live := live }, .error .assertion)
      else
        let borrowed := upsert res (fun _ => poolKey zone bucket) c.borrowedCurls
        ({ context := { c with borrowedCurls := borrowed }, live := live }, .ok res)

/-- `conn_context::release_curl`. -/
def releaseCurl (curl : H) (w : CurlWorld H B) : Except PoolFailure (CurlWorld H B) :=
  let c := w.context
  match findKey curl c.borrowedCurls with
  | none => .error .assertion
  | some key =>
    .ok { w with context := { c with
      borrowedCurls := eraseKey curl c.borrowedCurls
      curls := upsert key (fun cur => cur.getD [] ++ [curl]) c.curls } }

/-- The loop of `conn_context::reset`, with the handles cleaned up and the buffers freed. -/
def cleanup (errorBufs : List (H × B)) : List H → List (H × Str) →
    Except PoolFailure (List (H × B) × List (H × Str))
  | [], live => .ok ([], live)
  | curl :: curls, live =>
    match findKey curl errorBufs with
    | none => .error .assertion
    | some errBuf =>
      match cleanup errorBufs curls (eraseKey curl live) with
      | .error e => .error e
      | .ok (cleaned, live) => .ok ((curl, errBuf) :: cleaned, live)

/-- `conn_context::reset`. -/
def reset (w : CurlWorld H B) : Except PoolFailure (CurlWorld H B × List (H × B)) :=
  let c := w.context
  if c.borrowedCurls ≠ [] then .error .assertion
  else
    match cleanup c.errorBufs (c.curls.flatMap Prod.snd) w.live with
    | .error e => .error e
    | .ok (cleaned, live) =>
      .ok ({ context := { c with curls := [], errorBufs := [] }, live := live }, cleaned)

/-- The calls of the users of a context. -/
inductive PoolCall (H B : Type) where
  | get (zone bucket : Str) (init : Option (H × B))
  | release (curl : H)
  | reset

/-! ## Its users -/

/-- A context in use, and the handles that its users hold. -/
structure Pool (H B : Type) where
  world : CurlWorld H B
  held : List H

/-- The handles that the users hold after `get_curl`. -/
def heldAfter (held : List H) : Except PoolFailure H → List H
  | .ok curl => curl :: held
  | .error _ => held

/-- A new handle is none that is alive. -/
def FreshInit (w : CurlWorld H B) (init : Option (H × B)) : Prop :=
  ∀ p ∈ init, findKey p.1 w.live = none

/-- The runs of a context, which start empty: a handle is released by one who holds it, and `reset`
is called when none is held. -/
def poolMachine (H B : Type) [LinearOrder H] : Machine (Pool H B) (PoolCall H B) where
  init s := s = ⟨⟨⟨[], [], []⟩, []⟩, []⟩
  step s call t :=
    match call with
    | .get zone bucket init => FreshInit s.world init ∧
      t = ⟨(getCurl zone bucket init s.world).1,
        heldAfter s.held (getCurl zone bucket init s.world).2⟩
    | .release curl => curl ∈ s.held ∧ releaseCurl curl s.world = .ok t.world ∧
      t.held = s.held.erase curl
    | .reset => s.held = [] ∧ ∃ cleaned, ExtremeS3.reset s.world = .ok (t.world, cleaned) ∧
      t.held = []

/-- Every live handle is in one place, in use or in the list of its key, and has a buffer; those in
use are the ones that are held. -/
structure PoolOk (w : CurlWorld H B) (held : List H) : Prop where
  sorted : Sorted w.context.curls
  sortedBufs : Sorted w.context.errorBufs
  sortedBorrowed : Sorted w.context.borrowedCurls
  sortedLive : Sorted w.live
  placed : (w.context.borrowedCurls ++ idle w.context.curls).Perm w.live
  buffers : (w.context.errorBufs.map Prod.fst).Perm (w.live.map Prod.fst)
  held : held.Perm (w.context.borrowedCurls.map Prod.fst)

variable {w : CurlWorld H B} {held : List H}

/-- A handle is in one place. -/
theorem PoolOk.nodup (h : PoolOk w held) :
    ((w.context.borrowedCurls ++ idle w.context.curls).map Prod.fst).Nodup :=
  (h.placed.map Prod.fst).nodup_iff.2 h.sortedLive.nodup_keys

/-- An idle handle is not lent out. -/
theorem PoolOk.not_borrowed (h : PoolOk w held) {curl : H} {key : Str}
    (hidle : (curl, key) ∈ idle w.context.curls) : findKey curl w.context.borrowedCurls = none := by
  have hnodup := h.nodup
  rw [List.map_append, List.nodup_append] at hnodup
  refine findKey_eq_none.2 fun hb => ?_
  exact hnodup.2.2 curl hb curl (List.mem_map.2 ⟨_, hidle, rfl⟩) rfl

/-- A handle in use or in a list is alive. -/
theorem PoolOk.live_iff (h : PoolOk w held) {curl : H} {key : Str} :
    findKey curl w.live = some key ↔
      findKey curl w.context.borrowedCurls = some key ∨ (curl, key) ∈ idle w.context.curls := by
  rw [h.sortedLive.findKey_eq_some, ← h.placed.mem_iff, List.mem_append,
    h.sortedBorrowed.findKey_eq_some]

/-- A handle that was never there is not lent out. -/
theorem PoolOk.fresh_not_borrowed (h : PoolOk w held) {curl : H}
    (hfresh : findKey curl w.live = none) : findKey curl w.context.borrowedCurls = none := by
  cases hb : findKey curl w.context.borrowedCurls with
  | none => rfl
  | some key =>
    have hlive := h.live_iff.2 (.inl hb)
    rw [hfresh] at hlive
    cases hlive

/-- A pool without handles is in order. -/
theorem PoolOk.empty : PoolOk (⟨⟨[], [], []⟩, []⟩ : CurlWorld H B) [] where
  sorted := sorted_nil
  sortedBufs := sorted_nil
  sortedBorrowed := sorted_nil
  sortedLive := sorted_nil
  placed := .nil
  buffers := .nil
  held := .nil

/-! ## The calls -/

/-- What `get_curl` does: it takes the last handle of the list, which nobody holds, or a new one. -/
theorem PoolOk.getCurl_cases (h : PoolOk w held) (zone bucket : Str) {init : Option (H × B)}
    (hinit : FreshInit w init) :
    (∃ cur res, findKey (poolKey zone bucket) w.context.curls = some (cur ++ [res]) ∧
      findKey res w.context.borrowedCurls = none ∧
      getCurl zone bucket init w = (⟨{ w.context with
        curls := upsert (poolKey zone bucket) (fun _ => cur) w.context.curls
        borrowedCurls := upsert res (fun _ => poolKey zone bucket) w.context.borrowedCurls },
        w.live⟩, .ok res)) ∨
    (findKey (poolKey zone bucket) w.context.curls).getD [] = [] ∧
      ((init = none ∧ getCurl zone bucket init w = (⟨{ w.context with
        curls := upsert (poolKey zone bucket) (fun _ => []) w.context.curls }, w.live⟩,
        .error .cannotInit)) ∨
      ∃ res errBuf, init = some (res, errBuf) ∧ findKey res w.context.borrowedCurls = none ∧
        getCurl zone bucket init w = (⟨{
          curls := upsert (poolKey zone bucket) (fun _ => []) w.context.curls
          errorBufs := upsert res (fun _ => errBuf) w.context.errorBufs
          borrowedCurls := upsert res (fun _ => poolKey zone bucket) w.context.borrowedCurls },
          upsert res (fun _ => poolKey zone bucket) w.live⟩, .ok res)) := by
  cases hlast : ((findKey (poolKey zone bucket) w.context.curls).getD []).getLast? with
  | some res =>
    obtain ⟨cur, hcur⟩ := List.getLast?_eq_some_iff.1 hlast
    have hfind : findKey (poolKey zone bucket) w.context.curls = some (cur ++ [res]) := by
      cases hk : findKey (poolKey zone bucket) w.context.curls with
      | none =>
        rw [hk] at hcur
        exact absurd hcur.symm (List.append_ne_nil_of_right_ne_nil _ (List.cons_ne_nil _ _))
      | some l =>
        rw [hk] at hcur
        exact congrArg some hcur
    have hno : findKey res w.context.borrowedCurls = none :=
      h.not_borrowed (mem_idle.2 ⟨_, mem_of_findKey hfind, by simp⟩)
    refine .inl ⟨cur, res, hfind, hno, ?_⟩
    unfold ExtremeS3.getCurl
    simp only [hfind, Option.getD_some, List.getLast?_concat, List.dropLast_concat, hno,
      Option.isSome_none, Bool.false_eq_true, if_false]
  | none =>
    have hnil := List.getLast?_eq_none_iff.1 hlast
    refine .inr ⟨hnil, ?_⟩
    cases init with
    | none =>
      refine .inl ⟨rfl, ?_⟩
      unfold ExtremeS3.getCurl
      simp only [hnil, List.getLast?_nil]
    | some p =>
      obtain ⟨res, errBuf⟩ := p
      have hno := h.fresh_not_borrowed (hinit _ rfl)
      refine .inr ⟨res, errBuf, rfl, hno, ?_⟩
      unfold ExtremeS3.getCurl
      simp only [hnil, List.getLast?_nil, hno, Option.isSome_none, Bool.false_eq_true, if_false]

/-- Taking a handle, an idle or a new one, leaves the pool in order. -/
theorem PoolOk.getCurl (h : PoolOk w held) (zone bucket : Str) {init : Option (H × B)}
    (hinit : FreshInit w init) : PoolOk (getCurl zone bucket init w).1
      (heldAfter held (getCurl zone bucket init w).2) := by
  rcases h.getCurl_cases zone bucket hinit with
    ⟨cur, res, hfind, hno, heq⟩ | ⟨hnil, ⟨-, heq⟩ | ⟨res, errBuf, hsome, hno, heq⟩⟩
  · rw [heq]
    have hborrowed := h.sortedBorrowed.upsert_new hno fun _ => poolKey zone bucket
    constructor
    case sorted => exact h.sorted.upsert _ _
    case sortedBufs => exact h.sortedBufs
    case sortedBorrowed => exact h.sortedBorrowed.upsert _ _
    case sortedLive => exact h.sortedLive
    case buffers => exact h.buffers
    case held => exact (h.held.cons res).trans (hborrowed.map Prod.fst).symm
    case placed =>
      have hbefore := idle_perm h.sorted (poolKey zone bucket)
      rw [hfind, Option.getD_some, List.map_append] at hbefore
      refine (hborrowed.append (idle_upsert_perm h.sorted _ _)).trans ?_
      exact ((perm_move _ _ _ _).trans (hbefore.append_left _).symm).trans h.placed
  · rw [heq]
    constructor
    case sorted => exact h.sorted.upsert _ _
    case sortedBufs => exact h.sortedBufs
    case sortedBorrowed => exact h.sortedBorrowed
    case sortedLive => exact h.sortedLive
    case buffers => exact h.buffers
    case held => exact h.held
    case placed =>
      have hidle := idle_upsert_self h.sorted (poolKey zone bucket)
      rw [hnil] at hidle
      exact (hidle.append_left _).trans h.placed
  · rw [heq]
    have hlive : findKey res w.live = none := hinit (res, errBuf) hsome
    have hbuf : findKey res w.context.errorBufs = none := by
      rw [findKey_eq_none, h.buffers.mem_iff, ← findKey_eq_none]
      exact hlive
    have hborrowed := h.sortedBorrowed.upsert_new hno fun _ => poolKey zone bucket
    have hliveNew := h.sortedLive.upsert_new hlive fun _ => poolKey zone bucket
    have hbufNew := h.sortedBufs.upsert_new hbuf fun _ => errBuf
    constructor
    case sorted => exact h.sorted.upsert _ _
    case sortedBufs => exact h.sortedBufs.upsert _ _
    case sortedBorrowed => exact h.sortedBorrowed.upsert _ _
    case sortedLive => exact h.sortedLive.upsert _ _
    case held => exact (h.held.cons res).trans (hborrowed.map Prod.fst).symm
    case buffers =>
      exact ((hbufNew.map Prod.fst).trans (h.buffers.cons res)).trans (hliveNew.map Prod.fst).symm
    case placed =>
      have hidle := idle_upsert_self h.sorted (poolKey zone bucket)
      rw [hnil] at hidle
      exact ((hborrowed.append hidle).trans (h.placed.cons _)).trans hliveNew.symm

/-- Giving back a handle that is held succeeds, and leaves the pool in order. -/
theorem PoolOk.releaseCurl (h : PoolOk w held) {curl : H} (hcurl : curl ∈ held) :
    ∃ w', releaseCurl curl w = .ok w' ∧ PoolOk w' (held.erase curl) := by
  obtain ⟨key, hkey⟩ := Option.isSome_iff_exists.1 (mem_keys.1 (h.held.mem_iff.1 hcurl))
  have hborrowed := h.sortedBorrowed.perm_of_findKey hkey
  have hrun : ExtremeS3.releaseCurl curl w = .ok { w with context := { w.context with
      borrowedCurls := eraseKey curl w.context.borrowedCurls
      curls := upsert key (fun cur => cur.getD [] ++ [curl]) w.context.curls } } := by
    unfold ExtremeS3.releaseCurl
    simp only [hkey]
  refine ⟨_, hrun, ?_⟩
  constructor
  case sorted => exact h.sorted.upsert _ _
  case sortedBufs => exact h.sortedBufs
  case sortedBorrowed => exact h.sortedBorrowed.eraseKey _
  case sortedLive => exact h.sortedLive
  case buffers => exact h.buffers
  case held =>
    have := (h.held.trans (hborrowed.map Prod.fst)).erase curl
    rwa [List.map_cons, List.erase_cons_head] at this
  case placed =>
    have hidle := idle_upsert_perm h.sorted key fun cur => cur.getD [] ++ [curl]
    rw [List.map_append] at hidle
    refine (hidle.append_left _).trans (.trans ?_ h.placed)
    exact (perm_move _ _ _ _).symm.trans (hborrowed.append (idle_perm h.sorted key)).symm

/-- The loop of `reset` over handles that have buffers. -/
theorem cleanup_ok {errorBufs : List (H × B)} {curls : List H} (live : List (H × Str))
    (h : ∀ curl ∈ curls, (findKey curl errorBufs).isSome) :
    ∃ cleaned, cleanup errorBufs curls live =
        .ok (cleaned, live.filter fun e => e.1 ∉ curls) ∧
      cleaned.map Prod.fst = curls ∧ ∀ e ∈ cleaned, e ∈ errorBufs := by
  induction curls generalizing live with
  | nil => exact ⟨[], by simp [cleanup], rfl, by simp⟩
  | cons curl curls ih =>
    obtain ⟨errBuf, hbuf⟩ := Option.isSome_iff_exists.1 (h curl List.mem_cons_self)
    obtain ⟨cleaned, hcleaned, hmap, hmem⟩ := ih (eraseKey curl live) fun c hc =>
      h c (List.mem_cons_of_mem _ hc)
    refine ⟨(curl, errBuf) :: cleaned, ?_, by rw [List.map_cons, hmap], ?_⟩
    · rw [cleanup, hbuf]
      dsimp only
      rw [hcleaned]
      simp [eraseKey, List.filter_filter, not_or, Bool.and_comm]
    · exact List.forall_mem_cons.2 ⟨mem_of_findKey hbuf, hmem⟩

/-- When nothing is held, `reset` cleans up every handle once, and frees its buffer. -/
theorem PoolOk.reset (h : PoolOk w []) :
    ∃ w' cleaned, reset w = .ok (w', cleaned) ∧ cleaned.Perm w.context.errorBufs ∧
      w'.live = [] ∧ PoolOk w' [] := by
  have hborrowed : w.context.borrowedCurls = [] :=
    List.map_eq_nil_iff.1 (List.nil_perm.1 h.held)
  have hall : (w.context.curls.flatMap Prod.snd).Perm (w.live.map Prod.fst) := by
    have hplaced := h.placed.map Prod.fst
    rw [hborrowed, List.nil_append, idle, List.map_flatMap] at hplaced
    simpa only [List.map_map, Function.comp_def, List.map_id'] using hplaced
  have hbufs : ∀ curl ∈ w.context.curls.flatMap Prod.snd,
      (findKey curl w.context.errorBufs).isSome := by
    intro curl hcurl
    rw [← mem_keys, h.buffers.mem_iff, ← hall.mem_iff]
    exact hcurl
  obtain ⟨cleaned, hcleaned, hmap, hmem⟩ := cleanup_ok w.live hbufs
  have hlive : (w.live.filter fun e => e.1 ∉ w.context.curls.flatMap Prod.snd) = [] := by
    refine List.filter_eq_nil_iff.2 fun e he => ?_
    rw [decide_eq_true_eq, not_not, hall.mem_iff]
    exact List.mem_map_of_mem he
  have hrun : ExtremeS3.reset w =
      .ok (⟨⟨[], [], w.context.borrowedCurls⟩, []⟩, cleaned) := by
    unfold ExtremeS3.reset
    rw [if_neg (not_not.2 hborrowed), hcleaned, hlive]
  refine ⟨_, cleaned, hrun, ?_, rfl, ?_⟩
  · have hnodup : (cleaned.map Prod.fst).Nodup := by
      rw [hmap, hall.nodup_iff]
      exact h.sortedLive.nodup_keys
    refine (List.perm_ext_iff_of_nodup hnodup.of_map h.sortedBufs.nodup_keys.of_map).2 fun e =>
      ⟨hmem e, fun he => ?_⟩
    have hcurl : e.1 ∈ cleaned.map Prod.fst := by
      rw [hmap, hall.mem_iff, ← h.buffers.mem_iff]
      exact List.mem_map_of_mem he
    -- the buffer that is freed is the one of the handle
    obtain ⟨⟨curl, errBuf⟩, he', hfst⟩ := List.mem_map.1 hcurl
    have hfind := h.sortedBufs.findKey_eq_some.2 (hmem _ he')
    have hfind' := h.sortedBufs.findKey_eq_some.2 he
    rw [← hfst, hfind, Option.some.injEq] at hfind'
    rwa [← (Prod.ext hfst hfind' : (curl, errBuf) = e)]
  · rw [hborrowed]
    exact PoolOk.empty

/-! ## Runs -/

/-- Every run keeps each handle in its place. -/
theorem poolOk_of_reachable {s : Pool H B} (h : (poolMachine H B).Reachable s) :
    PoolOk s.world s.held := by
  refine h.invariant (I := fun s => PoolOk s.world s.held) (fun s hs => ?_)
    fun s call t hs hstep => ?_
  · rw [show s = _ from hs]
    exact .empty
  · cases call with
    | get zone bucket init =>
      obtain ⟨hinit, rfl⟩ := hstep
      exact hs.getCurl zone bucket hinit
    | release curl =>
      obtain ⟨hcurl, hrun, hheld⟩ := hstep
      obtain ⟨w, hw, hok⟩ := hs.releaseCurl hcurl
      rw [hrun] at hw
      cases hw
      rw [hheld]
      exact hok
    | reset =>
      obtain ⟨hheld, cleaned, hrun, hheld'⟩ := hstep
      rw [hheld] at hs
      obtain ⟨w, cleaned', hw, -, -, hok⟩ := hs.reset
      rw [hrun] at hw
      cases hw
      rw [hheld']
      exact hok

/-- The handles of the list of a key. -/
def listOf (w : CurlWorld H B) (key : Str) : List H := (findKey key w.context.curls).getD []

/-- A handle made for a key is in use, or once in the list of the key, and nowhere else. -/
def InOnePlace (w : CurlWorld H B) (curl : H) (key : Str) : Prop :=
  (findKey curl w.context.borrowedCurls = some key ∧ ∀ k, curl ∉ listOf w k) ∨
    (findKey curl w.context.borrowedCurls = none ∧ (listOf w key).count curl = 1 ∧
      ∀ k, k ≠ key → curl ∉ listOf w k)

/-- What holds of a pool, and what the calls do in it. -/
structure PoolInvariant (s : Pool H B) : Prop where
  placed : ∀ curl key, findKey curl s.world.live = some key ↔ InOnePlace s.world curl key
  buffers : ∀ curl, (findKey curl s.world.context.errorBufs).isSome ↔
    (findKey curl s.world.live).isSome
  get : ∀ zone bucket init curl, FreshInit s.world init →
    (getCurl zone bucket init s.world).2 = .ok curl →
      findKey curl s.world.context.borrowedCurls = none ∧ curl ∉ s.held ∧
        findKey curl (getCurl zone bucket init s.world).1.live = some (poolKey zone bucket)
  getFails : ∀ zone bucket init e, FreshInit s.world init →
    (getCurl zone bucket init s.world).2 = .error e → e = .cannotInit ∧ init = none
  release : ∀ curl ∈ s.held, ∃ w, releaseCurl curl s.world = .ok w
  reset : s.held = [] → ∃ w cleaned, reset s.world = .ok (w, cleaned) ∧
    (cleaned.map Prod.fst).Perm (s.world.live.map Prod.fst) ∧ w.live = []

/-- The list of a key has the idle handles of that key. -/
theorem PoolOk.mem_listOf (h : PoolOk w held) {curl : H} {key : Str} :
    curl ∈ listOf w key ↔ (curl, key) ∈ idle w.context.curls := by
  rw [mem_idle, listOf]
  constructor
  · intro hm
    cases hk : findKey key w.context.curls with
    | none =>
      rw [hk] at hm
      cases hm
    | some cur =>
      rw [hk] at hm
      exact ⟨cur, mem_of_findKey hk, hm⟩
  · rintro ⟨cur, hcur, hm⟩
    rw [h.sorted.findKey_eq_some.2 hcur]
    exact hm

/-- The places of the handles that are alive. -/
theorem PoolOk.placed_iff (h : PoolOk w held) (curl : H) (key : Str) :
    findKey curl w.live = some key ↔ InOnePlace w curl key := by
  rw [h.live_iff]
  constructor
  · rintro (hb | hidle)
    · refine .inl ⟨hb, fun k hk => ?_⟩
      rw [h.not_borrowed (h.mem_listOf.1 hk)] at hb
      cases hb
    · refine .inr ⟨h.not_borrowed hidle, ?_, fun k hne hk => ?_⟩
      · have hnodup := h.nodup
        rw [List.map_append, List.nodup_append] at hnodup
        have hlists := (((idle_perm h.sorted key).map Prod.fst).nodup_iff.1 hnodup.2.1)
        rw [List.map_append, List.map_map, List.nodup_append] at hlists
        have hlist : (listOf w key).Nodup := by
          simpa only [listOf, Function.comp_def, List.map_id'] using hlists.1
        exact List.count_eq_one_of_mem hlist (h.mem_listOf.2 hidle)
      · have hlive := h.live_iff.2 (.inr hidle)
        rw [h.live_iff.2 (.inr (h.mem_listOf.1 hk))] at hlive
        cases hlive
        exact hne rfl
  · rintro (⟨hb, -⟩ | ⟨-, hcount, -⟩)
    · exact .inl hb
    · refine .inr (h.mem_listOf.1 (List.count_pos_iff.1 ?_))
      omega

/-- `get_curl` hands out a handle that nobody holds, which was made for the key. -/
theorem PoolOk.getCurl_eq_ok (h : PoolOk w held) {zone bucket : Str} {init : Option (H × B)}
    (hinit : FreshInit w init) {curl : H}
    (hget : (ExtremeS3.getCurl zone bucket init w).2 = .ok curl) :
    findKey curl w.context.borrowedCurls = none ∧ curl ∉ held ∧
      findKey curl (ExtremeS3.getCurl zone bucket init w).1.live = some (poolKey zone bucket) := by
  have hheld : findKey curl w.context.borrowedCurls = none → curl ∉ held := by
    rw [h.held.mem_iff, findKey_eq_none]
    exact id
  rcases h.getCurl_cases zone bucket hinit with
    ⟨cur, res, hfind, hno, heq⟩ | ⟨-, ⟨-, heq⟩ | ⟨res, errBuf, -, hno, heq⟩⟩
  · rw [heq] at hget ⊢
    cases hget
    refine ⟨hno, hheld hno, ?_⟩
    exact h.live_iff.2 (.inr (mem_idle.2 ⟨_, mem_of_findKey hfind, by simp⟩))
  · rw [heq] at hget
    cases hget
  · rw [heq] at hget ⊢
    cases hget
    refine ⟨hno, hheld hno, ?_⟩
    exact (findKey_upsert h.sortedLive _ _ _).trans (if_pos rfl)

/-- `get_curl` fails only where no new handle can be made. -/
theorem PoolOk.getCurl_eq_error (h : PoolOk w held) {zone bucket : Str} {init : Option (H × B)}
    (hinit : FreshInit w init) {e : PoolFailure}
    (hget : (ExtremeS3.getCurl zone bucket init w).2 = .error e) :
    e = .cannotInit ∧ init = none := by
  rcases h.getCurl_cases zone bucket hinit with
    ⟨cur, res, -, -, heq⟩ | ⟨-, ⟨hnone, heq⟩ | ⟨res, errBuf, -, -, heq⟩⟩
  · rw [heq] at hget
    cases hget
  · rw [heq] at hget
    cases hget
    exact ⟨rfl, hnone⟩
  · rw [heq] at hget
    cases hget

/-- In every run, a live handle is in use or in one list, once, under the key that it was made for;
exactly the live handles have buffers; `get_curl` hands out one that is not in use, made for the key,
and fails only where no new one can be made; `release_curl` finds its key; and `reset` cleans up every
live handle once. -/
theorem pool_invariant {s : Pool H B} (h : (poolMachine H B).Reachable s) : PoolInvariant s := by
  have hs := poolOk_of_reachable h
  constructor
  case placed => exact hs.placed_iff
  case buffers =>
    intro curl
    rw [← mem_keys, ← mem_keys, hs.buffers.mem_iff]
  case get =>
    intro zone bucket init curl hinit hget
    exact hs.getCurl_eq_ok hinit hget
  case getFails =>
    intro zone bucket init e hinit hget
    exact hs.getCurl_eq_error hinit hget
  case release =>
    intro curl hcurl
    obtain ⟨w, hw, -⟩ := hs.releaseCurl hcurl
    exact ⟨w, hw⟩
  case reset =>
    intro hheld
    rw [hheld] at hs
    obtain ⟨w, cleaned, hrun, hcleaned, hlive, -⟩ := hs.reset
    exact ⟨w, cleaned, hrun, (hcleaned.map Prod.fst).trans hs.buffers, hlive⟩

end

/-- A context that two handles were made in, of which one is in use. -/
def usedPool : Pool Nat Nat :=
  ⟨⟨⟨[("s3/b".toList, [1]), ("s3/c".toList, [])], [(1, 10), (2, 20)], [(2, "s3/c".toList)]⟩,
    [(1, "s3/b".toList), (2, "s3/c".toList)]⟩, [2]⟩

/-- `pool_invariant` after three calls. -/
theorem pool_invariant_used : (poolMachine Nat Nat).Reachable usedPool ∧ PoolInvariant usedPool := by
  have hreach : (poolMachine Nat Nat).Reachable usedPool := by
    refine ⟨_, [.get "s3".toList "b".toList (some (1, 10)),
      .get "s3".toList "c".toList (some (2, 20)), .release 1], rfl, ?_⟩
    refine .cons (t := ⟨⟨⟨[("s3/b".toList, [])], [(1, 10)], [(1, "s3/b".toList)]⟩,
      [(1, "s3/b".toList)]⟩, [1]⟩) ⟨fun p hp => by cases hp; rfl, rfl⟩ ?_
    refine .cons (t := ⟨⟨⟨[("s3/b".toList, []), ("s3/c".toList, [])], [(1, 10), (2, 20)],
      [(1, "s3/b".toList), (2, "s3/c".toList)]⟩,
      [(1, "s3/b".toList), (2, "s3/c".toList)]⟩, [2, 1]⟩) ⟨fun p hp => by cases hp; rfl, rfl⟩ ?_
    exact .single ⟨by decide, rfl, rfl⟩
  exact ⟨hreach, pool_invariant hreach⟩

end ExtremeS3
