import ExtremeS3.Common
import ExtremeS3.Lib.Slices

/-!
# The adapters of a transfer

`curl` asks a `buf_data` for the bytes of a request, piece by piece, and delivers the bytes of an
answer to a `write_data`. Each keeps a cursor that stays within its buffer (`BufData.Sent`,
`WriteData.Received`), whatever sizes are asked for or delivered: a buffer is read from its front,
what is read goes into the checksum in order, and what does not fit into a buffer is reported
(`adapters_transfer`).
-/

namespace ExtremeS3

/-- The difference of two numbers in a `size_t`. -/
def sizeSub (a b : Nat) : Nat := (a + (2 ^ 64 - b)) % 2 ^ 64

/-- A difference that does not go below zero is that of the numbers. -/
theorem sizeSub_of_le {a b : Nat} (h : b ≤ a) (ha : a < 2 ^ 64) : sizeSub a b = a - b := by
  rw [sizeSub, ← Nat.add_sub_assoc (by omega), Nat.add_comm, Nat.add_sub_assoc h, Nat.add_mod_left]
  exact Nat.mod_eq_of_lt (by omega)

/-- `MD5_Init` and `MD5_Update` on an `MD5_CTX`. -/
structure Md5 (Ctx : Type) where
  init : Ctx
  update : Ctx → Bytes → Ctx

/-! ## Reading -/

/-- `buf_data`. -/
structure BufData (Ctx : Type) where
  buf : Bytes
  totalSize : Nat
  written : Nat
  md5Ctx : Ctx

section

variable {Ctx : Type} (md5 : Md5 Ctx)

/-- The constructor of `buf_data`, for a buffer with its size. -/
def BufData.new (buf : Bytes) : BufData Ctx := ⟨buf, buf.length, 0, md5.init⟩

/-- `simple_read`: what it returns in the buffer of `curl`; `none` is a read beyond the buffer. -/
def BufData.simpleRead (s : BufData Ctx) (size : Nat) : Option (Bytes × BufData Ctx) :=
  let tocopy := min (sizeSub s.totalSize s.written) size
  if tocopy ≠ 0 then
    if s.written + tocopy ≤ s.buf.length then
      let copied := (s.buf.drop s.written).take tocopy
      some (copied, { s with
        md5Ctx := md5.update s.md5Ctx copied
        written := (s.written + tocopy) % 2 ^ 64 })
    else none
  else some ([], s)

/-- What `simple_read` returns for a sequence of sizes. -/
def BufData.reads (s : BufData Ctx) : List Nat → Option (List Bytes × BufData Ctx)
  | [] => some ([], s)
  | size :: sizes => do
    let (chunk, s) ← s.simpleRead md5 size
    let (chunks, s) ← s.reads sizes
    pure (chunk :: chunks, s)

/-- The context that was fed the chunks in order; an empty one is not fed. -/
def Md5.feed (chunks : List Bytes) : Ctx := (chunks.filter (· ≠ [])).foldl md5.update md5.init

/-- The chunks were read from the front of the buffer, and fed to the context. -/
structure BufData.Sent (buf : Bytes) (s : BufData Ctx) (chunks : List Bytes) : Prop where
  buf_eq : s.buf = buf
  totalSize : s.totalSize = buf.length
  le : s.written ≤ buf.length
  sent : chunks.flatten = buf.take s.written
  md5Ctx : s.md5Ctx = md5.feed chunks

variable {md5} {buf : Bytes}

/-- Nothing of a new buffer is sent. -/
theorem BufData.sent_new (buf : Bytes) : BufData.Sent md5 buf (BufData.new md5 buf) [] :=
  ⟨rfl, rfl, Nat.zero_le _, rfl, rfl⟩

/-- A digest that is fed one piece more is updated with it, unless the piece is empty. -/
theorem Md5.feed_concat (chunks : List Bytes) (chunk : Bytes) :
    md5.feed (chunks ++ [chunk]) =
      if chunk ≠ [] then md5.update (md5.feed chunks) chunk else md5.feed chunks := by
  unfold Md5.feed
  by_cases h : chunk = []
  · simp [h]
  · simp [h, List.filter_append]

/-- One read goes on from the cursor, with as much as is asked for or is left. -/
theorem BufData.Sent.simpleRead {s : BufData Ctx} {chunks : List Bytes}
    (h : s.Sent md5 buf chunks) (hbuf : buf.length < 2 ^ 64) (size : Nat) :
    ∃ chunk t, s.simpleRead md5 size = some (chunk, t) ∧ t.Sent md5 buf (chunks ++ [chunk]) ∧
      t.written = min buf.length (s.written + size) ∧ chunk.length ≤ size := by
  have hle := h.le
  have hrest : sizeSub s.totalSize s.written = buf.length - s.written := by
    rw [h.totalSize]
    exact sizeSub_of_le hle hbuf
  unfold BufData.simpleRead
  rw [hrest, h.buf_eq]
  dsimp only
  split
  · next hne =>
    have hfits : s.written + min (buf.length - s.written) size ≤ buf.length := by omega
    have hnext : (s.written + min (buf.length - s.written) size) % 2 ^ 64 =
        s.written + min (buf.length - s.written) size := Nat.mod_eq_of_lt (by omega)
    rw [if_pos hfits]
    refine ⟨_, _, rfl, ?_, ?_, ?_⟩
    · constructor
      case buf_eq => exact rfl
      case totalSize => exact h.totalSize
      case le =>
        dsimp only
        rwa [hnext]
      case sent =>
        rw [List.flatten_append, h.sent, List.flatten_singleton]
        dsimp only
        rw [hnext, List.take_add]
      case md5Ctx =>
        have hchunk : (buf.drop s.written).take (min (buf.length - s.written) size) ≠ [] := by
          intro hnil
          have hlen := congrArg List.length hnil
          rw [List.length_take, List.length_drop, List.length_nil] at hlen
          omega
        rw [Md5.feed_concat, if_pos hchunk, h.md5Ctx]
    · dsimp only
      omega
    · rw [List.length_take]
      omega
  · next hne =>
    refine ⟨[], s, rfl, ?_, by omega, Nat.zero_le _⟩
    constructor
    case buf_eq => exact h.buf_eq
    case totalSize => exact h.totalSize
    case le => exact hle
    case sent => rw [List.flatten_append, h.sent, List.flatten_singleton, List.append_nil]
    case md5Ctx => rw [Md5.feed_concat, if_neg (fun hno => hno rfl), h.md5Ctx]

/-- Reads of any sizes go on from the cursor. -/
theorem BufData.Sent.reads {s : BufData Ctx} {chunks : List Bytes} (h : s.Sent md5 buf chunks)
    (hbuf : buf.length < 2 ^ 64) (sizes : List Nat) :
    ∃ more t, s.reads md5 sizes = some (more, t) ∧ t.Sent md5 buf (chunks ++ more) ∧
      t.written = min buf.length (s.written + sizes.sum) ∧
      List.Forall₂ (fun chunk size => chunk.length ≤ size) more sizes := by
  induction sizes generalizing s chunks with
  | nil =>
    have hle := h.le
    refine ⟨[], s, rfl, ?_, ?_, .nil⟩
    · rwa [List.append_nil]
    · simp only [List.sum_nil]
      omega
  | cons size sizes ih =>
    obtain ⟨chunk, t, hread, hsent, hwritten, hsize⟩ := h.simpleRead hbuf size
    obtain ⟨more, u, hreads, hsent', hwritten', hsizes⟩ := ih hsent
    refine ⟨chunk :: more, u, ?_, ?_, ?_, .cons hsize hsizes⟩
    · rw [BufData.reads, hread]
      simp only [Option.bind_eq_bind, Option.bind_some, hreads]
      rfl
    · rwa [List.append_assoc] at hsent'
    · rw [hwritten', hwritten, List.sum_cons]
      omega

end

/-! ## Writing -/

/-- `write_data`. -/
structure WriteData where
  buf : Bytes
  totalSize : Nat
  written : Nat

/-- The constructor of `write_data`, for a buffer with its size. -/
def WriteData.new (buf : Bytes) : WriteData := ⟨buf, buf.length, 0⟩

/-- `simple_write`: how much it takes; `none` is a store beyond the buffer. -/
def WriteData.simpleWrite (s : WriteData) (data : Bytes) : Option (Nat × WriteData) :=
  let tocopy := min (sizeSub s.totalSize s.written) data.length
  if tocopy ≠ 0 then
    if s.written + tocopy ≤ s.buf.length then
      some (tocopy, { s with
        buf := overwrite s.buf s.written (data.take tocopy)
        written := (s.written + tocopy) % 2 ^ 64 })
    else none
  else some (tocopy, s)

/-- What `simple_write` reports of a sequence of deliveries. -/
def WriteData.writes (s : WriteData) : List Bytes → Option (List Nat × WriteData)
  | [] => some ([], s)
  | data :: deliveries => do
    let (taken, s) ← s.simpleWrite data
    let (reports, s) ← s.writes deliveries
    pure (taken :: reports, s)

/-- What was delivered, as far as there was room, is in front of what was in the buffer. -/
structure WriteData.Received (buf : Bytes) (s : WriteData) (delivered : Bytes) : Prop where
  totalSize : s.totalSize = buf.length
  written : s.written = min buf.length delivered.length
  stored : s.buf = delivered.take buf.length ++ buf.drop delivered.length

/-- Nothing is received into a new buffer. -/
theorem WriteData.received_new (buf : Bytes) : (WriteData.new buf).Received buf [] :=
  ⟨rfl, (Nat.min_eq_right (Nat.zero_le _)).symm, by simp [WriteData.new]⟩

section

variable {buf : Bytes}

/-- What still fits is written after what was delivered before. -/
theorem overwrite_stored {delivered : Bytes} (h : delivered.length ≤ buf.length)
    (data : Bytes) :
    overwrite (delivered.take buf.length ++ buf.drop delivered.length) delivered.length
        (data.take (buf.length - delivered.length)) =
      (delivered ++ data).take buf.length ++ buf.drop (delivered ++ data).length := by
  have htake : delivered.take buf.length = delivered := List.take_of_length_le h
  have hcount : (data.take (buf.length - delivered.length)).length =
      min (buf.length - delivered.length) data.length := List.length_take
  rw [htake, overwrite, List.take_left, List.length_append,
    Nat.sub_eq_zero_of_le (Nat.le_add_right _ _), List.replicate_zero, List.append_nil,
    List.drop_append, List.drop_of_length_le (Nat.le_add_right _ _), List.nil_append,
    Nat.add_sub_cancel_left, List.drop_drop, hcount, List.take_append, htake, List.length_append]
  congr 1
  by_cases hroom : data.length ≤ buf.length - delivered.length
  · rw [Nat.min_eq_right hroom]
  · rw [List.drop_of_length_le (by omega), List.drop_of_length_le (by omega)]

/-- One delivery is stored at the cursor, as far as there is room. -/
theorem WriteData.Received.simpleWrite {s : WriteData} {delivered : Bytes}
    (h : s.Received buf delivered) (hbuf : buf.length < 2 ^ 64) (data : Bytes) :
    ∃ t, s.simpleWrite data = some (min (buf.length - delivered.length) data.length, t) ∧
      t.Received buf (delivered ++ data) := by
  have hwritten := h.written
  have hrest : sizeSub s.totalSize s.written = buf.length - delivered.length := by
    rw [h.totalSize, sizeSub_of_le (by omega) hbuf]
    omega
  have hlen : s.buf.length = buf.length := by
    rw [h.stored, List.length_append, List.length_take, List.length_drop]
    omega
  unfold WriteData.simpleWrite
  rw [hrest, hlen]
  dsimp only
  split
  · next hne =>
    have hcursor : s.written = delivered.length := by omega
    have hfits : s.written + min (buf.length - delivered.length) data.length ≤ buf.length := by
      omega
    rw [if_pos hfits]
    refine ⟨_, rfl, ?_⟩
    constructor
    case totalSize => exact h.totalSize
    case written =>
      dsimp only
      rw [Nat.mod_eq_of_lt (by omega), List.length_append]
      omega
    case stored =>
      have hdata : data.take (min (buf.length - delivered.length) data.length) =
          data.take (buf.length - delivered.length) := by
        rw [← List.take_take, List.take_length]
      dsimp only
      rw [hdata, h.stored, hcursor]
      exact overwrite_stored (by omega) data
  · next hne =>
    have hzero : min (buf.length - delivered.length) data.length = 0 := by omega
    refine ⟨s, rfl, ?_⟩
    constructor
    case totalSize => exact h.totalSize
    case written =>
      rw [List.length_append]
      omega
    case stored =>
      rw [h.stored]
      by_cases hnil : data = []
      · rw [hnil, List.append_nil]
      · have hpos := List.length_pos_iff.2 hnil
        rw [List.take_append_of_le_length (by omega), List.drop_of_length_le (by omega),
          List.drop_of_length_le (by rw [List.length_append]; omega)]

/-- Deliveries are stored one after the other, and each is reported in full unless it exceeds the
room that is left. -/
theorem WriteData.Received.writes {s : WriteData} {delivered : Bytes}
    (h : s.Received buf delivered) (hbuf : buf.length < 2 ^ 64) (deliveries : List Bytes) :
    ∃ reports t, s.writes deliveries = some (reports, t) ∧
      t.Received buf (delivered ++ deliveries.flatten) ∧
      ∀ before data rest, deliveries = before ++ data :: rest →
        reports[before.length]? =
          some (min (buf.length - (delivered ++ before.flatten).length) data.length) := by
  induction deliveries generalizing s delivered with
  | nil =>
    refine ⟨[], s, rfl, ?_, fun before data rest he => by simp at he⟩
    rwa [List.flatten_nil, List.append_nil]
  | cons data deliveries ih =>
    obtain ⟨t, hwrite, hreceived⟩ := h.simpleWrite hbuf data
    obtain ⟨reports, u, hwrites, hreceived', hreports⟩ := ih hreceived
    refine ⟨min (buf.length - delivered.length) data.length :: reports, u, ?_, ?_, ?_⟩
    · rw [WriteData.writes, hwrite]
      simp only [Option.bind_eq_bind, Option.bind_some, hwrites]
      rfl
    · rwa [List.flatten_cons, ← List.append_assoc]
    · intro before data' rest he
      cases before with
      | nil =>
        rw [List.nil_append, List.cons.injEq] at he
        rw [← he.1, List.flatten_nil, List.append_nil]
        rfl
      | cons first before =>
        rw [List.cons_append, List.cons.injEq] at he
        rw [List.length_cons, List.getElem?_cons_succ, hreports before data' rest he.2, ← he.1,
          List.flatten_cons, List.append_assoc]

end

/-- Whatever sizes are asked for, the chunks that are read make up the front of the buffer, and all
of it once as much was asked for, and they are what the checksum was fed; and of whatever is
delivered the buffer has as much of the front as it has room for, and a delivery is reported short
exactly when it exceeds the room that is left. -/
theorem adapters_transfer {Ctx : Type} (md5 : Md5 Ctx) {buf : Bytes} (hbuf : buf.length < 2 ^ 64) :
    (∀ sizes : List Nat, ∃ chunks s, (BufData.new md5 buf).reads md5 sizes = some (chunks, s) ∧
      List.Forall₂ (fun chunk size => chunk.length ≤ size) chunks sizes ∧
      chunks.flatten <+: buf ∧ (buf.length ≤ sizes.sum → chunks.flatten = buf) ∧
      s.md5Ctx = md5.feed chunks) ∧
    ∀ deliveries : List Bytes, ∃ reports s,
      (WriteData.new buf).writes deliveries = some (reports, s) ∧
      s.written = min buf.length deliveries.flatten.length ∧
      s.buf = deliveries.flatten.take buf.length ++ buf.drop deliveries.flatten.length ∧
      ∀ before data rest, deliveries = before ++ data :: rest →
        ∃ taken, reports[before.length]? = some taken ∧ taken ≤ data.length ∧
          (taken < data.length ↔ buf.length - before.flatten.length < data.length) := by
  constructor
  · intro sizes
    obtain ⟨chunks, s, hreads, hsent, hwritten, hsizes⟩ := (BufData.sent_new buf).reads hbuf sizes
    rw [List.nil_append] at hsent
    refine ⟨chunks, s, hreads, hsizes, ?_, fun hle => ?_, hsent.md5Ctx⟩
    · rw [hsent.sent]
      exact List.take_prefix _ _
    · have hzero : (BufData.new md5 buf).written = 0 := rfl
      rw [hsent.sent, List.take_of_length_le (by omega)]
  · intro deliveries
    obtain ⟨reports, s, hwrites, hreceived, hreports⟩ :=
      (WriteData.received_new buf).writes hbuf deliveries
    rw [List.nil_append] at hreceived
    refine ⟨reports, s, hwrites, hreceived.written, hreceived.stored, ?_⟩
    intro before data rest he
    have htaken := hreports before data rest he
    rw [List.nil_append] at htaken
    exact ⟨_, htaken, by omega, by omega⟩

/-- `adapters_transfer` at a buffer of three bytes. -/
theorem adapters_transfer_three :
    (∃ chunks s, (BufData.new ⟨[], (· ++ ·)⟩ [1, 2, 3]).reads ⟨[], (· ++ ·)⟩ [2, 0, 5] =
      some (chunks, s) ∧ chunks.flatten = [1, 2, 3]) ∧
    ∃ reports s, (WriteData.new [0, 0, 0]).writes [[1, 2], [3, 4]] = some (reports, s) ∧
      s.buf = [1, 2, 3] := by
  have hsent : ([1, 2, 3] : Bytes).length < 2 ^ 64 := by decide
  have hroom : ([0, 0, 0] : Bytes).length < 2 ^ 64 := by decide
  obtain ⟨hread, -⟩ := adapters_transfer (⟨[], (· ++ ·)⟩ : Md5 Bytes) hsent
  obtain ⟨-, hwrite⟩ := adapters_transfer (⟨[], (· ++ ·)⟩ : Md5 Bytes) hroom
  obtain ⟨chunks, s, hreads, -, -, hall, -⟩ := hread [2, 0, 5]
  obtain ⟨reports, t, hwrites, -, hstored, -⟩ := hwrite [[1, 2], [3, 4]]
  exact ⟨⟨chunks, s, hreads, hall (by decide)⟩, reports, t, hwrites, hstored⟩

end ExtremeS3
