import Tgin.LocalFiles.ScanGuard
import Tgin.Time

/-! Bodies read whole up to a limit, of `gateway/mod.rs`, and by the webhook of `webhook.rs`: a body over the limit comes back
    from the gateway's reader as it was.

    A body is what its polls give until its end or its error; to wait for a frame changes nothing. The bytes read are in memory,
    so that their lengths do not overflow. -/

namespace Tgin.Gateway
open LocalFiles (Bytes Frame Failure)

/-! ### Bodies -/

/-- How many bytes a body has still, as far as it says. -/
@[ext] structure SizeHint where
  lower : Nat
  upper : Option Nat
  small : lower ≤ wordMax
  ordered : ∀ u ∈ upper, lower ≤ u ∧ u ≤ wordMax
  deriving DecidableEq

/-- As far as 64 bits count. -/
def counted (n : Nat) : Nat := min n wordMax

theorem saturatingAdd_mono {a b : Nat} (h : a ≤ b) (n : Nat) : saturatingAdd a n ≤ saturatingAdd b n := by
  unfold saturatingAdd
  omega

theorem counted_mono {a b : Nat} (h : a ≤ b) : counted a ≤ counted b := by
  unfold counted
  omega

theorem saturatingAdd_counted (a n : Nat) : saturatingAdd (counted a) n = counted (n + a) := by
  unfold saturatingAdd counted
  omega

namespace SizeHint

def exact (hint : SizeHint) : Option Nat := if hint.upper = some hint.lower then some hint.lower else none

/-- There are `n` bytes. -/
structure Keeps (hint : SizeHint) (n : Nat) : Prop where
  lower : hint.lower ≤ counted n
  upper : ∀ u ∈ hint.upper, counted n ≤ u

theorem Keeps.exact {hint : SizeHint} {n : Nat} (h : hint.Keeps n) (known : hint.upper = some hint.lower) :
    hint.exact = some (counted n) := by
  rw [SizeHint.exact, if_pos known, Nat.le_antisymm h.lower (h.upper _ known)]

end SizeHint

/-- What a body says of itself. -/
structure Signs where
  sizeHint : SizeHint
  endStream : Bool
  deriving DecidableEq

inductive Body where
  | ended (signs : Signs)
  | failed (signs : Signs) (failure : Failure)
  | frame (signs : Signs) (frame : Frame) (rest : Body)

namespace Body

def signs : Body → Signs
  | .ended signs => signs
  | .failed signs _ => signs
  | .frame signs _ _ => signs

/-- The next frame or the error, if the body has not ended. -/
def pollFrame : Body → Option (Except Failure Frame) × Body
  | .ended signs => (none, .ended signs)
  | .failed signs failure => (some (.error failure), .ended signs)
  | .frame _ next rest => (some (.ok next), rest)

end Body

/-! ### Reading -/

/-- Frames read so far; a single frame is kept without copying. -/
structure Collected where
  first : Bytes
  more : Option Bytes
  len : Nat

namespace Collected

def new : Collected := { first := [], more := none, len := 0 }

def push (read : Collected) (data : Bytes) : Collected :=
  let len := read.len + data.length
  match read.more with
  | some more => { read with more := some (more ++ data), len }
  | none =>
    if read.first.isEmpty then { read with first := data, len }
    else { read with more := some (read.first ++ data), len }

def intoBytes (read : Collected) : Bytes := read.more.getD read.first

end Collected

/-- A body longer than a limit: what was read of it, and the rest unread. -/
structure Partial where
  /-- The frames read before the limit was passed, the last one included. -/
  prefixBytes : Bytes
  rest : Body

/-- A request body read up to a limit. -/
inductive Bounded where
  /-- The whole body, no longer than the limit. -/
  | complete (data : Bytes)
  /-- The body is longer than the limit. -/
  | above (part : Partial)

/-- The loop of `readBounded`. -/
def readFrames (limit : Nat) : Body → Collected → Except Failure Bounded
  | .ended _, read => .ok (.complete read.intoBytes)
  | .failed _ failure, _ => .error failure
  | .frame _ .trailers rest, read => readFrames limit rest read
  | .frame _ (.data data) rest, read =>
    let read := read.push data
    if read.len > limit then .ok (.above { prefixBytes := read.intoBytes, rest })
    else readFrames limit rest read

/-- Reads `body` while it fits in `limit` bytes. A body that announces a longer length is not read at all. -/
def readBounded (body : Body) (limit : Nat) : Except Failure Bounded :=
  if body.signs.sizeHint.lower > limit then .ok (.above { prefixBytes := [], rest := body })
  else readFrames limit body .new

/-- `prefixBytes`, then `rest`. -/
structure Prefixed where
  prefixBytes : Option Bytes
  rest : Body

/-- The whole body again. -/
def Partial.intoBody (part : Partial) : Prefixed where
  prefixBytes := if part.prefixBytes.isEmpty then none else some part.prefixBytes
  rest := part.rest

namespace Prefixed

def pollFrame (body : Prefixed) : Option (Except Failure Frame) × Prefixed :=
  match body.prefixBytes with
  | some data => (some (.ok (.data data)), { body with prefixBytes := none })
  | none => (body.rest.pollFrame.1, { body with rest := body.rest.pollFrame.2 })

def isEndStream (body : Prefixed) : Bool := body.prefixBytes.isNone && body.rest.signs.endStream

def sizeHint (body : Prefixed) : SizeHint :=
  let rest := body.rest.signs.sizeHint
  let more := (body.prefixBytes.map (·.length)).getD 0
  {
    lower := saturatingAdd rest.lower more
    upper := rest.upper.map (saturatingAdd · more)
    small := Nat.min_le_right ..
    ordered := by
      intro u hu
      obtain ⟨v, hv, rfl⟩ := Option.map_eq_some_iff.mp hu
      exact ⟨saturatingAdd_mono (rest.ordered v hv).1 more, Nat.min_le_right ..⟩ }

end Prefixed

inductive BodyError where
  | tooLarge
  /-- The client failed to send the body. -/
  | read
  deriving DecidableEq, Repr

/-- The loop of `readBody`. -/
def readWhole (limit : Nat) : Body → Option Bytes → Bytes → Nat → Except BodyError Bytes
  | .ended _, first, rest, _ => .ok (first.getD rest)
  | .failed .., _, _, _ => .error .read
  | .frame _ .trailers body, first, rest, len => readWhole limit body first rest len
  | .frame _ (.data data) body, first, rest, len =>
    let len := saturatingAdd len data.length
    if len > limit then .error .tooLarge
    else match first with
      | none => if rest.isEmpty then readWhole limit body (some data) rest len else readWhole limit body none (rest ++ data) len
      | some earlier => readWhole limit body none (rest ++ earlier ++ data) len

/-- Reads `body` whole, refusing it as soon as it is known to exceed `limit`. -/
def readBody (body : Body) (limit : Nat) : Except BodyError Bytes :=
  if body.signs.sizeHint.lower > limit then .error .tooLarge else readWhole limit body none [] 0

/-! ### What a body holds -/

namespace Body

def data : Body → Bytes
  | .ended _ | .failed .. => []
  | .frame _ (.data data) rest => data ++ rest.data
  | .frame _ .trailers rest => rest.data

/-- The error that the body comes to instead of its end. -/
def failure : Body → Option Failure
  | .ended _ => none
  | .failed _ failure => some failure
  | .frame _ _ rest => rest.failure

/-- The size hints are kept by the data. -/
def Kept : Body → Prop
  | .ended signs => signs.sizeHint.Keeps 0
  | .failed signs _ => signs.sizeHint.Keeps 0
  | .frame signs next rest => signs.sizeHint.Keeps (Body.frame signs next rest).data.length ∧ rest.Kept

theorem Kept.keeps {body : Body} (h : body.Kept) : body.signs.sizeHint.Keeps body.data.length := by
  cases body with
  | ended | failed => exact h
  | frame => exact h.1

end Body

/-- Polls of the rebuilt body give what those of `whole` do. -/
def Prefixed.Shows (body : Prefixed) : Body → Prop
  | .ended signs => body.sizeHint = signs.sizeHint ∧ body.isEndStream = signs.endStream ∧ body.pollFrame.1 = none
  | .failed signs failure =>
    body.sizeHint = signs.sizeHint ∧ body.isEndStream = signs.endStream ∧ body.pollFrame.1 = some (.error failure)
  | .frame signs frame rest =>
    body.sizeHint = signs.sizeHint ∧ body.isEndStream = signs.endStream ∧ body.pollFrame.1 = some (.ok frame) ∧
      body.pollFrame.2.Shows rest

/-! ### The gateway's reader -/

section
variable {read : Collected} {limit : Nat} {body : Body}

/-- What has been read, in one piece. -/
structure Collected.Holds (read : Collected) (bytes : Bytes) : Prop where
  whole : read.intoBytes = bytes
  len : read.len = bytes.length

theorem Collected.Holds.push {bytes : Bytes} (h : read.Holds bytes) (data : Bytes) : (read.push data).Holds (bytes ++ data) := by
  obtain ⟨first, more, len⟩ := read
  obtain ⟨rfl, len⟩ := h
  dsimp only at len
  unfold Collected.push
  rw [len]
  cases more with
  | some more => exact ⟨rfl, (List.length_append ..).symm⟩
  | none =>
    cases first with
    | nil => exact ⟨rfl, (List.length_append ..).symm⟩
    | cons b first => exact ⟨rfl, (List.length_append ..).symm⟩

/-- What a reader with a limit owes for a body after some bytes of it. -/
def Reads (limit : Nat) (bytes : Bytes) (body : Body) : Except Failure Bounded → Prop
  | .ok (.complete data) => data = bytes ++ body.data ∧ body.failure = none ∧ data.length ≤ limit
  | .error failure => body.failure = some failure ∧ (bytes ++ body.data).length ≤ limit
  | .ok (.above part) => part.prefixBytes ++ part.rest.data = bytes ++ body.data ∧ part.rest.failure = body.failure ∧ part.rest.Kept ∧
      limit < (bytes ++ body.data).length

theorem Reads.data {bytes data : Bytes} {signs : Signs} {rest : Body} {answer : Except Failure Bounded}
    (h : Reads limit (bytes ++ data) rest answer) : Reads limit bytes (.frame signs (.data data) rest) answer := by
  have whole : bytes ++ (Body.frame signs (.data data) rest).data = bytes ++ data ++ rest.data := (List.append_assoc ..).symm
  unfold Reads
  rw [whole]
  exact h

theorem readFrames_reads {bytes : Bytes} (h : read.Holds bytes) (within : bytes.length ≤ limit) (kept : body.Kept) :
    Reads limit bytes body (readFrames limit body read) := by
  induction body generalizing read bytes with
  | ended signs =>
    refine ⟨h.whole.trans (List.append_nil _).symm, rfl, ?_⟩
    rw [h.whole]
    exact within
  | failed signs failure => exact ⟨rfl, by rwa [Body.data, List.append_nil]⟩
  | frame signs frame rest ih =>
    cases frame with
    | trailers => exact ih h within kept.2
    | data data =>
      have pushed := h.push data
      refine Reads.data ?_
      rw [readFrames]
      by_cases beyond : (read.push data).len > limit
      · rw [if_pos beyond]
        refine ⟨by rw [pushed.whole], rfl, kept.2, ?_⟩
        rw [pushed.len] at beyond
        rw [List.length_append]
        exact Nat.lt_add_right _ beyond
      · rw [if_neg beyond]
        exact ih pushed (pushed.len ▸ Nat.le_of_not_lt beyond) kept.2

theorem readBounded_reads (kept : body.Kept) (limit : Nat) : Reads limit [] body (readBounded body limit) := by
  unfold readBounded
  split
  · rename_i beyond
    exact ⟨rfl, rfl, kept, Nat.lt_of_lt_of_le beyond (kept.keeps.lower.trans (Nat.min_le_left ..))⟩
  · exact readFrames_reads ⟨rfl, rfl⟩ (Nat.zero_le _) kept

/-! ### The rebuilt body -/

/-- Some bytes, then a body. -/
def Partial.whole (part : Partial) : Body :=
  if part.prefixBytes.isEmpty then part.rest
  else .frame { sizeHint := part.intoBody.sizeHint, endStream := false } (.data part.prefixBytes) part.rest

theorem Prefixed.sizeHint_exact {body : Prefixed} {n : Nat} (h : body.rest.signs.sizeHint.exact = some n) :
    body.sizeHint.upper = some body.sizeHint.lower := by
  unfold SizeHint.exact at h
  split at h
  · rename_i known
    rw [Prefixed.sizeHint]
    dsimp only
    rw [known]
    rfl
  · cases h

theorem Prefixed.Shows.sizeHint {body : Prefixed} {whole : Body} (h : body.Shows whole) : body.sizeHint = whole.signs.sizeHint := by
  cases whole with
  | ended | failed | frame => exact h.1

theorem shows_rest (rest : Body) : Prefixed.Shows { prefixBytes := none, rest } rest := by
  have hint (body : Body) : Prefixed.sizeHint { prefixBytes := none, rest := body } = body.signs.sizeHint :=
    SizeHint.ext (Nat.min_eq_left body.signs.sizeHint.small) (by
      have := body.signs.sizeHint.ordered
      change body.signs.sizeHint.upper.map _ = body.signs.sizeHint.upper
      cases upper : body.signs.sizeHint.upper with
      | none => rfl
      | some u => exact congrArg some (Nat.min_eq_left (this u upper).2))
  induction rest with
  | ended signs => exact ⟨hint _, rfl, rfl⟩
  | failed signs failure => exact ⟨hint _, rfl, rfl⟩
  | frame signs frame rest ih => exact ⟨hint _, rfl, rfl, ih⟩

theorem Partial.shows (part : Partial) : part.intoBody.Shows part.whole := by
  unfold Partial.intoBody Partial.whole
  cases h : part.prefixBytes.isEmpty with
  | true => exact shows_rest part.rest
  | false => exact ⟨by rw [Partial.intoBody, h], rfl, rfl, shows_rest part.rest⟩

theorem Partial.whole_data (part : Partial) : part.whole.data = part.prefixBytes ++ part.rest.data := by
  unfold Partial.whole
  cases h : part.prefixBytes.isEmpty with
  | true =>
    rw [List.isEmpty_iff.mp h]
    rfl
  | false => rfl

theorem Partial.whole_failure (part : Partial) : part.whole.failure = part.rest.failure := by
  unfold Partial.whole
  split <;> rfl

theorem Partial.whole_kept {part : Partial} (kept : part.rest.Kept) : part.whole.Kept := by
  have keeps := kept.keeps
  unfold Partial.whole
  cases h : part.prefixBytes.isEmpty with
  | true => exact kept
  | false =>
    have hint : part.intoBody.sizeHint.lower = saturatingAdd part.rest.signs.sizeHint.lower part.prefixBytes.length ∧
        part.intoBody.sizeHint.upper = part.rest.signs.sizeHint.upper.map (saturatingAdd · part.prefixBytes.length) := by
      rw [Partial.intoBody, h]
      exact ⟨rfl, rfl⟩
    have total : (Body.frame ⟨part.intoBody.sizeHint, false⟩ (.data part.prefixBytes) part.rest).data.length =
        part.prefixBytes.length + part.rest.data.length := List.length_append
    refine ⟨?_, kept⟩
    rw [total]
    constructor
    · rw [hint.1, ← saturatingAdd_counted]
      exact saturatingAdd_mono keeps.lower _
    · intro u hu
      rw [hint.2] at hu
      obtain ⟨v, hv, rfl⟩ := Option.map_eq_some_iff.mp hu
      rw [← saturatingAdd_counted]
      exact saturatingAdd_mono (keeps.upper v hv) _

/-! ### The webhook's reader -/

/-- What a reader owes that refuses a body over its limit. -/
def ReadsWhole (limit : Nat) (bytes : Bytes) (body : Body) : Except BodyError Bytes → Prop
  | .ok data => data = bytes ++ body.data ∧ body.failure = none ∧ counted data.length ≤ limit
  | .error .tooLarge => limit < counted (bytes ++ body.data).length
  | .error .read => body.failure.isSome ∧ counted (bytes ++ body.data).length ≤ limit

theorem ReadsWhole.data {bytes data : Bytes} {signs : Signs} {rest : Body} {answer : Except BodyError Bytes}
    (h : ReadsWhole limit (bytes ++ data) rest answer) : ReadsWhole limit bytes (.frame signs (.data data) rest) answer := by
  have whole : bytes ++ (Body.frame signs (.data data) rest).data = bytes ++ data ++ rest.data := (List.append_assoc ..).symm
  unfold ReadsWhole
  rw [whole]
  exact h

theorem readWhole_reads {first : Option Bytes} {rest : Bytes} (one : first.isSome → rest = [])
    (within : counted (first.getD rest).length ≤ limit) :
    ReadsWhole limit (first.getD rest) body (readWhole limit body first rest (counted (first.getD rest).length)) := by
  induction body generalizing first rest with
  | ended signs => exact ⟨(List.append_nil _).symm, rfl, within⟩
  | failed signs failure => exact ⟨rfl, by rwa [Body.data, List.append_nil]⟩
  | frame signs frame body ih =>
    cases frame with
    | trailers => exact ih one within
    | data data =>
      have more : saturatingAdd (counted (first.getD rest).length) data.length = counted (first.getD rest ++ data).length := by
        rw [saturatingAdd_counted, List.length_append, Nat.add_comm]
      refine ReadsWhole.data ?_
      unfold readWhole
      dsimp only
      rw [more]
      by_cases beyond : counted (first.getD rest ++ data).length > limit
      · rw [if_pos beyond]
        exact Nat.lt_of_lt_of_le beyond (counted_mono (List.sublist_append_left ..).length_le)
      · rw [if_neg beyond]
        have fits := Nat.le_of_not_lt beyond
        cases first with
        | none =>
          cases rest with
          | nil => exact @ih (some data) [] (fun _ => rfl) fits
          | cons b rest => exact @ih none (b :: rest ++ data) nofun fits
        | some earlier =>
          cases one rfl
          exact @ih none (earlier ++ data) nofun fits

theorem readBody_reads (kept : body.Kept) (limit : Nat) : ReadsWhole limit [] body (readBody body limit) := by
  unfold readBody
  split
  · rename_i beyond
    exact Nat.lt_of_lt_of_le beyond kept.keeps.lower
  · exact @readWhole_reads _ _ none [] nofun (Nat.zero_le _)

end

/-- A body within the limit is read whole by both readers, and one whose error comes before the limit is passed fails. Any other the
    webhook refuses, and the gateway hands on as it was: rebuilt it gives all the data, then its end or its error. -/
theorem bodies_read {body : Body} (kept : body.Kept) (limit : Nat) :
    (match readBounded body limit with
      | .ok (.complete data) => body.failure = none ∧ data = body.data ∧ data.length ≤ limit
      | .error failure => body.failure = some failure ∧ body.data.length ≤ limit
      | .ok (.above part) => limit < body.data.length ∧
          ∃ whole, part.intoBody.Shows whole ∧ whole.data = body.data ∧ whole.failure = body.failure ∧ whole.Kept ∧
            ∀ n, part.rest.signs.sizeHint.exact = some n → part.intoBody.sizeHint.exact = some (counted body.data.length)) ∧
    match readBody body limit with
      | .ok data => body.failure = none ∧ data = body.data ∧ counted data.length ≤ limit
      | .error .tooLarge => limit < counted body.data.length
      | .error .read => body.failure.isSome ∧ counted body.data.length ≤ limit := by
  constructor
  · have reads := readBounded_reads kept limit
    revert reads
    rcases readBounded body limit with failure | data | part
    · exact id
    · exact fun ⟨data, ends, within⟩ => ⟨ends, data, within⟩
    · rintro ⟨data, failure, rest, beyond⟩
      refine ⟨beyond, part.whole, part.shows, part.whole_data.trans data, part.whole_failure.trans failure, part.whole_kept rest, ?_⟩
      intro n known
      have keeps := (part.whole_kept rest).keeps
      rw [← part.shows.sizeHint, part.whole_data.trans data] at keeps
      exact keeps.exact (Prefixed.sizeHint_exact known)
  · have reads := readBody_reads kept limit
    revert reads
    rcases readBody body limit with (_ | _) | data
    · exact id
    · exact id
    · exact fun ⟨data, ends, within⟩ => ⟨ends, data, within⟩

/-- Eight bytes in three frames, of unknown length until the last. -/
def chunked : Body :=
  let unknown : Signs := ⟨⟨0, none, by decide, nofun⟩, false⟩
  .frame unknown (.data [1, 2, 3]) (.frame unknown (.data []) (.frame unknown (.data [4, 5, 6, 7, 8])
    (.ended ⟨⟨0, some 0, by decide, by decide⟩, true⟩)))

theorem chunked_kept : chunked.Kept := by
  have unknown (n : Nat) : SizeHint.Keeps ⟨0, none, by decide, nofun⟩ n := ⟨Nat.zero_le _, nofun⟩
  exact ⟨unknown _, unknown _, unknown _, Nat.zero_le _, by rintro u ⟨⟩; exact Nat.zero_le _⟩

theorem bodies_read_chunked : ∃ part whole, readBounded chunked 4 = .ok (.above part) ∧ part.intoBody.Shows whole ∧
    whole.data = [1, 2, 3, 4, 5, 6, 7, 8] ∧ whole.failure = none := by
  obtain ⟨-, whole, shows, data, failure, -⟩ := (bodies_read chunked_kept 4).1
  exact ⟨_, whole, rfl, shows, data, failure⟩

end Tgin.Gateway
