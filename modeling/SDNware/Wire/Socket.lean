/-
# SDNware.Wire.Socket — records through a TCP stream: `sock_write`, `sock_read`, the server's read loop.

The client hands arrays of `Amount` to `sock_write`, which retries `write()` until every byte is
accepted.  The server polls its non-blocking sockets: each iteration of `main` allocates a zeroed
`cli_amount`, lets `sock_read` fill it until `read()` reports `-1`, and passes `read_tal /
sizeof(Amount)` records to `add_send_rec`.  Nothing is kept between two iterations.

The environment enters as data: the results of the successive `write()` and `read()` calls.  A
`Poll` is what one `sock_read` call sees; it carries the contract of `read()` (between one byte and
the room that is left), so an impossible delivery cannot be written down.

`framed_iff` is the account of the framing: records arrive in order and unmixed as long as every
`sock_read` call ends on a record boundary, and for a stream that has been read to its end the
records are all there ONLY then, because the tail of a record at the end of a read is discarded
with the buffer and the rest of that record is decoded as the start of the next one.
-/
import Mathlib.Algebra.BigOperators.Ring.List
import SDNware.Wire.Amount

namespace SDNware.Wire

/-! ## §1 — the sender -/

/-- One `write()` call: a positive count, `-1` with `EINTR`, or `0`/`-1` for any other reason. -/
inductive WriteResult
  | wrote (n : Nat)
  | eintr
  | failed
  deriving DecidableEq

/-- The loop of `sock_write` on the bytes that remain: the bytes the socket accepts and the return
value (`none` while the given results leave it inside the loop). `write()` accepts at least one and
at most the remaining bytes. -/
def sockWriteLoop : List UInt8 → Nat → List WriteResult → List UInt8 × Option Int
  | [], tot, _ => ([], some tot)
  | _ :: _, _, [] => ([], none)
  | b :: buf, tot, .eintr :: rs => sockWriteLoop (b :: buf) tot rs
  | _ :: _, _, .failed :: _ => ([], some (-1))
  | b :: buf, tot, .wrote n :: rs =>
      let nw := min (max n 1) (b :: buf).length
      let next := sockWriteLoop ((b :: buf).drop nw) (tot + nw) rs
      ((b :: buf).take nw ++ next.1, next.2)

/-- `sock_write(fd, buffer, len)`. -/
def sockWrite (buffer : List UInt8) (rs : List WriteResult) : List UInt8 × Option Int :=
  sockWriteLoop buffer 0 rs

/-- **What the loop does.** The bytes accepted are a prefix of those it was given.  It returns the full
count once all are accepted, `-1` at a failure before that, and goes on otherwise. -/
theorem sockWriteLoop_spec (rs : List WriteResult) : ∀ (buf : List UInt8) (tot : Nat),
    (sockWriteLoop buf tot rs).1 <+: buf ∧
      (sockWriteLoop buf tot rs).2 =
        if (sockWriteLoop buf tot rs).1 = buf then some ((tot + buf.length : Nat) : Int)
        else if .failed ∈ rs then some (-1) else none := by
  induction rs with
  | nil =>
    intro buf tot
    cases buf with
    | nil => exact ⟨List.prefix_rfl, rfl⟩
    | cons b buf => exact ⟨List.nil_prefix, rfl⟩
  | cons r rs ih =>
    intro buf tot
    cases buf with
    | nil => exact ⟨List.prefix_rfl, rfl⟩
    | cons b buf =>
      cases r with
      | eintr =>
        obtain ⟨hbegin, hret⟩ := ih (b :: buf) tot
        refine ⟨hbegin, ?_⟩
        simp only [sockWriteLoop, List.mem_cons, reduceCtorEq, false_or]
        exact hret
      | failed =>
        refine ⟨List.nil_prefix, ?_⟩
        simp [sockWriteLoop]
      | wrote n =>
        simp only [sockWriteLoop]
        set nw := min (max n 1) (b :: buf).length
        -- the bytes of this call, then what the rest of the loop does with the others
        obtain ⟨hbegin, hret⟩ := ih ((b :: buf).drop nw) (tot + nw)
        have hall : (b :: buf).take nw ++ (sockWriteLoop ((b :: buf).drop nw) (tot + nw) rs).1 = b :: buf ↔
            (sockWriteLoop ((b :: buf).drop nw) (tot + nw) rs).1 = (b :: buf).drop nw := by
          conv_lhs => rhs; rw [← List.take_append_drop nw (b :: buf)]
          exact List.append_right_inj _
        have htot : tot + nw + ((b :: buf).drop nw).length = tot + (b :: buf).length := by
          have hle : nw ≤ (b :: buf).length := min_le_right _ _
          rw [List.length_drop]
          omega
        constructor
        · conv_rhs => rw [← List.take_append_drop nw (b :: buf)]
          exact (List.prefix_append_right_inj _).mpr hbegin
        · rw [hret, htot]
          refine if_congr hall.symm rfl (if_congr ?_ rfl rfl)
          simp only [List.mem_cons, reduceCtorEq, false_or]

/-- When the loop returns the full count, the socket has accepted exactly the bytes it was given. -/
theorem sockWriteLoop_complete (rs : List WriteResult) (buf : List UInt8) (tot : Nat)
    (h : (sockWriteLoop buf tot rs).2 = some ((tot + buf.length : Nat) : Int)) :
    (sockWriteLoop buf tot rs).1 = buf := by
  by_contra hne
  rw [(sockWriteLoop_spec rs buf tot).2, if_neg hne] at h
  split at h
  · have hneg := Option.some.inj h
    omega
  · exact absurd h (by simp)

theorem sockWrite_complete {buffer : List UInt8} {rs : List WriteResult}
    (h : (sockWrite buffer rs).2 = some (buffer.length : Int)) : (sockWrite buffer rs).1 = buffer :=
  sockWriteLoop_complete rs buffer 0 (by simpa [sockWrite] using h)

/-- When the loop returns, it has put all bytes on the connection, or it returns `-1` and some are
missing. -/
theorem sockWriteLoop_outcome (rs : List WriteResult) (buf : List UInt8) (tot : Nat) {ret : Int}
    (h : (sockWriteLoop buf tot rs).2 = some ret) :
    ret = ((tot + buf.length : Nat) : Int) ∨
      ret = -1 ∧ (sockWriteLoop buf tot rs).1.length < buf.length := by
  obtain ⟨hbegin, hret⟩ := sockWriteLoop_spec rs buf tot
  rw [hret] at h
  by_cases hall : (sockWriteLoop buf tot rs).1 = buf
  · rw [if_pos hall] at h
    exact .inl (Option.some.inj h).symm
  · rw [if_neg hall] at h
    split at h
    · refine .inr ⟨(Option.some.inj h).symm, lt_of_le_of_ne hbegin.length_le fun hlen => hall ?_⟩
      exact hbegin.eq_of_length hlen
    · exact absurd h (by simp)

/-- Later calls add to the bytes accepted. -/
theorem sockWriteLoop_append (pre post : List WriteResult) : ∀ (buf : List UInt8) (tot : Nat),
    (sockWriteLoop buf tot pre).1 <+: (sockWriteLoop buf tot (pre ++ post)).1 := by
  induction pre with
  | nil =>
    intro buf tot
    cases buf with
    | nil => exact List.nil_prefix
    | cons b buf => exact List.nil_prefix
  | cons r pre ih =>
    intro buf tot
    cases buf with
    | nil => exact List.nil_prefix
    | cons b buf =>
      cases r with
      | eintr => exact ih (b :: buf) tot
      | failed => exact List.nil_prefix
      | wrote n => exact (List.prefix_append_right_inj _).mpr (ih _ _)

/-- A failure adds nothing, and nothing comes after it. -/
theorem sockWriteLoop_failed (pre post : List WriteResult) : ∀ (buf : List UInt8) (tot : Nat),
    (sockWriteLoop buf tot (pre ++ .failed :: post)).1 = (sockWriteLoop buf tot pre).1 := by
  induction pre with
  | nil =>
    intro buf tot
    cases buf with
    | nil => rfl
    | cons b buf => rfl
  | cons r pre ih =>
    intro buf tot
    cases buf with
    | nil => rfl
    | cons b buf =>
      cases r with
      | eintr => exact ih (b :: buf) tot
      | failed => rfl
      | wrote n => exact congrArg ((b :: buf).take _ ++ ·) (ih _ _)

/-- **`sock_write` delivers the buffer.** Whatever the results of its `write()` calls: after any number
of them the bytes accepted are a prefix of the buffer, and of what is accepted later.  The function
returns once all are accepted or a call has failed.  It then returns the full length if and only if all
are accepted, and `-1` if and only if a call has failed when some were missing. -/
theorem sockWrite_exact (buffer : List UInt8) (rs : List WriteResult) :
    (∀ pre, pre <+: rs → (sockWrite buffer pre).1 <+: buffer ∧
      (sockWrite buffer pre).1 <+: (sockWrite buffer rs).1) ∧
    ((sockWrite buffer rs).2.isSome ↔ (sockWrite buffer rs).1 = buffer ∨ .failed ∈ rs) ∧
    ∀ ret, (sockWrite buffer rs).2 = some ret →
      (ret = buffer.length ↔ (sockWrite buffer rs).1 = buffer) ∧
      (ret = -1 ↔ ∃ pre, pre ++ [.failed] <+: rs ∧ .failed ∉ pre ∧ (sockWrite buffer pre).1 ≠ buffer) := by
  obtain ⟨hbegin, hret⟩ := sockWriteLoop_spec rs buffer 0
  rw [Nat.zero_add] at hret
  -- a failed call with bytes missing is a failure in the list with bytes missing at the end
  have hfailed : (∃ pre, pre ++ [.failed] <+: rs ∧ .failed ∉ pre ∧ (sockWrite buffer pre).1 ≠ buffer) ↔
      .failed ∈ rs ∧ (sockWrite buffer rs).1 ≠ buffer := by
    constructor
    · rintro ⟨pre, ⟨post, rfl⟩, -, hmissing⟩
      rw [List.append_assoc, List.singleton_append]
      refine ⟨by simp, ?_⟩
      unfold sockWrite at hmissing ⊢
      rwa [sockWriteLoop_failed]
    · rintro ⟨hmem, hmissing⟩
      obtain ⟨pre, post, rfl, hnot⟩ := List.eq_append_cons_of_mem hmem
      refine ⟨pre, ⟨post, by simp⟩, hnot, ?_⟩
      unfold sockWrite at hmissing ⊢
      rwa [sockWriteLoop_failed] at hmissing
  refine ⟨?_, ?_, ?_⟩
  · rintro pre ⟨post, rfl⟩
    exact ⟨(sockWriteLoop_spec pre buffer 0).1, sockWriteLoop_append pre post buffer 0⟩
  · show (sockWriteLoop buffer 0 rs).2.isSome ↔ (sockWriteLoop buffer 0 rs).1 = buffer ∨ _
    rw [hret]
    by_cases hall : (sockWriteLoop buffer 0 rs).1 = buffer
    · simp [hall]
    · by_cases hmem : .failed ∈ rs
      · simp [hall, hmem]
      · simp [hall, hmem]
  · intro ret hsome
    rw [hfailed]
    change (sockWriteLoop buffer 0 rs).2 = some ret at hsome
    show (_ ↔ (sockWriteLoop buffer 0 rs).1 = buffer) ∧
      (_ ↔ _ ∧ (sockWriteLoop buffer 0 rs).1 ≠ buffer)
    rw [hret] at hsome
    by_cases hall : (sockWriteLoop buffer 0 rs).1 = buffer
    · rw [if_pos hall] at hsome
      obtain rfl := Option.some.inj hsome
      exact ⟨iff_of_true rfl hall, iff_of_false (by omega) fun h => h.2 hall⟩
    · rw [if_neg hall] at hsome
      split at hsome
      · rename_i hmem
        obtain rfl := Option.some.inj hsome
        exact ⟨iff_of_false (by omega) hall, iff_of_true rfl ⟨hmem, hall⟩⟩
      · exact absurd hsome (by simp)

/-- Three bytes in two calls, with an interruption in between. -/
theorem sockWrite_exact_interrupted :
    (sockWrite [1, 2, 3] [.wrote 2]).1 <+: [1, 2, 3] ∧
      (sockWrite [1, 2, 3] [.wrote 2, .eintr, .wrote 1]).1 = [1, 2, 3] := by
  obtain ⟨hbegin, -, hret⟩ := sockWrite_exact [1, 2, 3] [.wrote 2, .eintr, .wrote 1]
  exact ⟨(hbegin [.wrote 2] (by decide)).1, (hret 3 (by decide)).1.mp rfl⟩

/-- One `sock_write` of an array of records, with the results its `write()` calls get. -/
structure Send where
  records : List Amount
  results : List WriteResult

/-- The call returned its full length. -/
def Send.Done (c : Send) : Prop :=
  (sockWrite (wire c.records) c.results).2 = some ((wire c.records).length : Int)

instance (c : Send) : Decidable c.Done := inferInstanceAs (Decidable (_ = _))

/-- The call returned `-1`. -/
def Send.Failed (c : Send) : Prop := (sockWrite (wire c.records) c.results).2 = some (-1)

instance (c : Send) : Decidable c.Failed := inferInstanceAs (Decidable (_ = _))

/-- The records the call has not put on the connection completely. -/
def Send.unwritten (c : Send) : List Amount :=
  c.records.drop ((sockWrite (wire c.records) c.results).1.length / sizeofAmount)

theorem Send.Done.unwritten_eq {c : Send} (h : c.Done) : c.unwritten = [] := by
  have hlen : (sockWrite (wire c.records) c.results).1.length / sizeofAmount = c.records.length := by
    rw [sockWrite_complete h, wire_length, Nat.mul_div_cancel_left _ (by decide)]
  unfold Send.unwritten
  rw [hlen, List.drop_length]

/-- A failed call leaves at least its last record unwritten. -/
theorem Send.Failed.unwritten_ne_nil {c : Send} (h : c.Failed) : c.unwritten ≠ [] := by
  have hcut : (sockWrite (wire c.records) c.results).1.length < (wire c.records).length := by
    rcases sockWriteLoop_outcome c.results (wire c.records) 0 h with hall | ⟨-, hcut⟩
    · omega
    · exact hcut
  have hlt : (sockWrite (wire c.records) c.results).1.length / sizeofAmount < c.records.length := by
    rw [wire_length] at hcut
    exact Nat.div_lt_of_lt_mul hcut
  unfold Send.unwritten
  rw [ne_eq, List.drop_eq_nil_iff]
  omega

/-- The byte stream the calls put on the connection. -/
def sentStream (calls : List Send) : List UInt8 :=
  calls.flatMap fun c => (sockWrite (wire c.records) c.results).1

/-- The records handed to the calls. -/
def sentRecords (calls : List Send) : List Amount := calls.flatMap Send.records

theorem sentStream_eq_wire : ∀ {calls : List Send}, (∀ c ∈ calls, c.Done) →
    sentStream calls = wire (sentRecords calls)
  | [], _ => rfl
  | c :: cs, h => by
      have ih := sentStream_eq_wire fun d hd => h d (List.mem_cons_of_mem c hd)
      have hc := sockWrite_complete (h c List.mem_cons_self)
      simp only [sentStream, sentRecords, wire, List.flatMap_cons, List.flatMap_append] at ih hc ⊢
      rw [hc, ih]

/-! ## §2 — the receiver -/

/-- One `read()` call on a non-blocking socket: some bytes, `0` at the end of the stream, or `-1`. -/
inductive ReadResult
  | data (bytes : List UInt8)
  | closed
  | again
  deriving DecidableEq

/-- `amount_size`. -/
def amountSize : Nat := sizeofAmount * flowNum

/-- `sock_read(fd, buffer, len)`: the bytes stored in `buffer`; their number is the return value.
The `EINTR` and `return -1` lines of the source sit under `nr != -1 && nr != 0` and never run. -/
def sockRead : Nat → List ReadResult → List UInt8
  | 0, _ => []
  | _ + 1, [] => []
  | _ + 1, .again :: _ => []
  | _ + 1, .closed :: _ => []
  | len + 1, .data bytes :: rs => bytes ++ sockRead (len + 1 - bytes.length) rs

/-- The contract of `read()`: at least one byte, and never more than the room that is left. -/
def ReadsFit : Nat → List ReadResult → Prop
  | _, [] => True
  | len, .data bytes :: rs => 0 < bytes.length ∧ bytes.length ≤ len ∧ ReadsFit (len - bytes.length) rs
  | _, .again :: _ => True
  | _, .closed :: _ => True

/-- The bytes the kernel delivers before it reports `-1` or the end of the stream. -/
def delivered : List ReadResult → List UInt8
  | .data bytes :: rs => bytes ++ delivered rs
  | _ => []

/-- What one `sock_read` call of the server meets. -/
structure Poll where
  results : List ReadResult
  fits : ReadsFit amountSize results

/-- The bytes of a poll. -/
def Poll.bytes (p : Poll) : List UInt8 := delivered p.results

/-- The poll ends on a record boundary. -/
def Poll.Whole (p : Poll) : Prop := sizeofAmount ∣ p.bytes.length

/-- `sock_read` stores all that is delivered to it. -/
theorem sockRead_eq_delivered : ∀ (len : Nat) (rs : List ReadResult), ReadsFit len rs →
    sockRead len rs = delivered rs
  | 0, [], _ => rfl
  | 0, .again :: _, _ => rfl
  | 0, .closed :: _, _ => rfl
  | 0, .data bytes :: rs, h => by
      simp only [ReadsFit] at h
      omega
  | _ + 1, [], _ => rfl
  | _ + 1, .again :: _, _ => rfl
  | _ + 1, .closed :: _, _ => rfl
  | len + 1, .data bytes :: rs, h => by
      simp only [sockRead, delivered]
      rw [sockRead_eq_delivered _ rs h.2.2]

/-- The body of the read loop of `main` for one client: the records handed to `add_send_rec`. -/
def readRecords (p : Poll) : List Amount :=
  let got := sockRead amountSize p.results
  let cliAmount := got ++ List.replicate (amountSize - got.length) 0
  (Frames.frames sizeofAmount (got.length / sizeofAmount) cliAmount).map Amount.ofBytes

/-- Everything `add_send_rec` is given over a sequence of polls of one connection. -/
def received (polls : List Poll) : List Amount := polls.flatMap readRecords

/-- The bytes read over a sequence of polls. -/
def readStream (polls : List Poll) : List UInt8 := polls.flatMap Poll.bytes

theorem readRecords_eq (p : Poll) :
    readRecords p = (Frames.wholeFrames sizeofAmount p.bytes).map Amount.ofBytes := by
  simp only [readRecords, Frames.wholeFrames, Poll.bytes, sockRead_eq_delivered _ _ p.fits]
  rw [Frames.frames_append_left _ _ _ _ (Nat.mul_div_le _ _)]

theorem received_eq (polls : List Poll) :
    received polls
      = ((polls.map Poll.bytes).flatMap (Frames.wholeFrames sizeofAmount)).map Amount.ofBytes := by
  induction polls with
  | nil => rfl
  | cons p ps ih =>
    simp only [received, List.flatMap_cons, List.map_cons, List.map_append] at ih ⊢
    rw [ih, readRecords_eq]

theorem readStream_eq (polls : List Poll) : readStream polls = (polls.map Poll.bytes).flatten :=
  List.flatMap_def ..

/-! ## §3 — framing -/

/-- The framing contract for what has been read so far: the records passed on are a prefix of the
records sent, and all of them once every byte has been read. -/
def Framed (calls : List Send) (polls : List Poll) : Prop :=
  received polls <+: sentRecords calls ∧
    (readStream polls = sentStream calls → received polls = sentRecords calls)

/-- Polls that all end on record boundaries decode a prefix of the records. -/
theorem received_of_whole {rs : List Amount} {polls : List Poll} (hread : readStream polls <+: wire rs)
    (hwhole : ∀ p ∈ polls, p.Whole) :
    received polls = rs.take ((readStream polls).length / sizeofAmount) := by
  have hall : ∀ b ∈ polls.map Poll.bytes, sizeofAmount ∣ b.length := by
    intro b hb
    obtain ⟨p, hp, rfl⟩ := List.mem_map.mp hb
    exact hwhole p hp
  have hdvd : sizeofAmount ∣ (readStream polls).length := by
    rw [readStream_eq, List.length_flatten]
    exact List.dvd_sum fun n hn => by
      obtain ⟨b, hb, rfl⟩ := List.mem_map.mp hn
      exact hall b hb
  rw [received_eq, Frames.flatMap_wholeFrames (by decide) _ hall, ← readStream_eq,
    Frames.wholeFrames_of_prefix Amount.toBytes Amount.toBytes_length hdvd hread, List.map_map]
  rw [show Amount.ofBytes ∘ Amount.toBytes = id from funext Amount.ofBytes_toBytes, List.map_id]

/-- A stream read to its end yields all its records only if no poll ended inside a record. -/
theorem whole_of_received_all {rs : List Amount} {polls : List Poll} (hread : readStream polls = wire rs)
    (hall : received polls = rs) : ∀ p ∈ polls, p.Whole := by
  have htotal : (polls.map Poll.bytes).flatten.length = sizeofAmount * rs.length := by
    rw [← readStream_eq, hread, wire_length]
  have hcount : ((polls.map Poll.bytes).flatMap (Frames.wholeFrames sizeofAmount)).length
      = rs.length := by
    rw [← hall, received_eq, List.length_map]
  intro p hp
  exact Frames.pieces_dvd_of_count htotal hcount _ (List.mem_map.mpr ⟨p, hp, rfl⟩)

/-- **Framing, exactly.** Whatever the sender's records, its write results and the way the stream is
cut over the server's `sock_read` calls: polls that end on record boundaries keep the contract, and
once the stream has been read to its end the contract holds if and only if every poll did. -/
theorem framed_iff (calls : List Send) (hdone : ∀ c ∈ calls, c.Done) (polls : List Poll)
    (hread : readStream polls <+: sentStream calls) :
    ((∀ p ∈ polls, p.Whole) → Framed calls polls) ∧
      (readStream polls = sentStream calls →
        (Framed calls polls ↔ ∀ p ∈ polls, p.Whole)) := by
  have hwire := sentStream_eq_wire hdone
  rw [hwire] at hread
  have hforward : (∀ p ∈ polls, p.Whole) → Framed calls polls := by
    intro hwhole
    have heq := received_of_whole hread hwhole
    refine ⟨heq ▸ List.take_prefix _ _, ?_⟩
    intro hfull
    rw [heq, hfull, hwire, wire_length, Nat.mul_div_cancel_left _ (by decide), List.take_length]
  refine ⟨hforward, ?_⟩
  intro hfull
  refine ⟨?_, hforward⟩
  intro hframed
  exact whole_of_received_all (by rw [hfull, hwire]) (hframed.2 hfull)

/-- One record, sent in one `write()`. -/
def loneRecord : Amount where
  gid := strncpy 16 "172.16.5.1"
  name := strncpy 64 "mlx5_0"
  ip := strncpy 32 "172.16.1.1"
  tx := 5000
  rx := 66
  tm := 1000

def loneSend : Send where
  records := [loneRecord]
  results := [.wrote sizeofAmount]

/-- The record in a single poll. -/
def wholePoll : Poll where
  results := [.data loneRecord.toBytes, .again]
  fits := by
    simp only [ReadsFit, Amount.toBytes_length]
    decide

theorem framed_iff_wholePoll :
    (∀ c ∈ [loneSend], c.Done) ∧ Framed [loneSend] [wholePoll] := by
  have hdone : ∀ c ∈ [loneSend], c.Done := by
    simp only [List.mem_singleton, forall_eq, Send.Done]
    decide +kernel
  have hread : readStream [wholePoll] = sentStream [loneSend] := by decide +kernel
  have hwhole : ∀ p ∈ [wholePoll], p.Whole := by
    simp only [List.mem_singleton, forall_eq, Poll.Whole]
    decide +kernel
  exact ⟨hdone, ((framed_iff [loneSend] hdone [wholePoll] (hread ▸ List.prefix_rfl)).2 hread).mpr
    hwhole⟩

/-- The same record cut after its first 100 bytes: `EAGAIN` inside the record. -/
def cutPolls : List Poll :=
  [{ results := [.data (loneRecord.toBytes.take 100), .again]
     fits := by
       simp only [ReadsFit, List.length_take, Amount.toBytes_length]
       decide },
   { results := [.data (loneRecord.toBytes.drop 100), .again]
     fits := by
       simp only [ReadsFit, List.length_drop, Amount.toBytes_length]
       decide }]

/-- Every byte of the record has been read, and no record has been passed on. -/
theorem not_framed_cutPolls :
    (∀ c ∈ [loneSend], c.Done) ∧ readStream cutPolls = sentStream [loneSend] ∧
      ¬ Framed [loneSend] cutPolls := by
  have hread : readStream cutPolls = sentStream [loneSend] := by decide +kernel
  refine ⟨?_, hread, ?_⟩
  · simp only [List.mem_singleton, forall_eq, Send.Done]
    decide +kernel
  · intro hframed
    have hlen := congrArg List.length (hframed.2 hread)
    have hnone : (received cutPolls).length = 0 := by decide +kernel
    rw [hnone] at hlen
    exact absurd hlen (by decide)

end SDNware.Wire
