import Tgin.Time

/-! The rate limiters of `tgin-runtime/src/limit.rs`: the keyed GCRA and the slot calendar. The lock of a
    shard, or of the calendar, makes every operation one step. -/

namespace Tgin.Limit
open Std (ExtTreeMap)

abbrev NonZeroU32 := { n : Nat // 0 < n ∧ n < 2 ^ 32 }

theorem one_nonZeroU32 : 0 < 1 ∧ 1 < 2 ^ 32 := by decide

inductive QuotaError where
  | zeroPeriod
  deriving DecidableEq, Repr

/-- `count` requests per `per`, up to `burst` of them at once. -/
structure Quota where
  /-- `T`: the spacing between requests at the steady rate. -/
  interval : Duration
  /-- `τ`: how far ahead of schedule a request may start. -/
  tolerance : Duration
  deriving DecidableEq, Repr

/-- `per / count`, rounded up to the nanosecond. -/
def interval (count : NonZeroU32) (per : Duration) : Except QuotaError Duration :=
  if per = 0 then .error .zeroPeriod
  else
    let floor := per / count.1
    .ok (if Duration.checkedMul floor count.1 = some per then floor else Duration.saturatingAdd floor 1)

/-- A key's theoretical arrival time. -/
inductive Tat where
  | at (tat : Instant)
  /-- Past the last instant the platform can represent. -/
  | never
  deriving DecidableEq, Repr

structure Denied where
  retryAfter : Duration
  deriving DecidableEq, Repr

namespace Quota

def new (count : NonZeroU32) (per : Duration) (burst : NonZeroU32) : Except QuotaError Quota := do
  let interval ← Limit.interval count per
  return { interval, tolerance := (Duration.checkedMul interval (burst.1 - 1)).getD Duration.MAX }

/-- One GCRA step for a key whose theoretical arrival time is `stored`: the new one and the delay. -/
def book (quota : Quota) (stored : Option Tat) (now : Instant) (maxDelay : Duration) : Except Denied (Tat × Duration) :=
  let booked (tat : Instant) : Except Denied (Tat × Duration) :=
    let wait := Instant.saturatingDurationSince tat now - quota.tolerance
    if wait > maxDelay then .error { retryAfter := wait }
    else .ok ((Instant.checkedAdd tat quota.interval).elim .never .at, wait)
  match stored with
  | none => booked now
  | some (.at tat) => booked (max tat now)
  | some .never => .error { retryAfter := Duration.MAX }

end Quota

/-! ### The keyed limiter -/

structure Entry where
  tat : Tat
  /-- Which booking set `tat`: unique within the shard. -/
  stamp : Nat
  deriving DecidableEq, Repr

structure Shard (K : Type) [Ord K] where
  map : ExtTreeMap K Entry
  nextStamp : Nat

/-- A booked slot, with the entry it replaced. -/
structure Admit where
  delay : Duration
  stamp : Nat
  prev : Option Entry
  deriving DecidableEq, Repr

def SHARDS : Nat := 16

/-- One GCRA state per key, spread over the shards by the key's hash. -/
structure KeyedLimiter (K : Type) [Ord K] where
  quota : Quota
  hasher : K → Nat
  shards : Nat → Shard K

namespace KeyedLimiter
variable {K : Type} [Ord K] [Std.TransOrd K]

def new (quota : Quota) (hasher : K → Nat) : KeyedLimiter K :=
  { quota, hasher, shards := fun _ => { map := ∅, nextStamp := 0 } }

def shardOf (l : KeyedLimiter K) (key : K) : Nat := l.hasher key % SHARDS

def shard (l : KeyedLimiter K) (key : K) : Shard K := l.shards (l.shardOf key)

def setShard (l : KeyedLimiter K) (key : K) (shard : Shard K) : KeyedLimiter K :=
  { l with shards := fun i => if i = l.shardOf key then shard else l.shards i }

/-- Books one slot for `key` if it can start within `maxDelay` of `now`. -/
def acquire (l : KeyedLimiter K) (key : K) (now : Instant) (maxDelay : Duration) : Except Denied Admit × KeyedLimiter K :=
  let { map, nextStamp := stamp } := l.shard key
  let prev := map[key]?
  match l.quota.book (prev.map (·.tat)) now maxDelay with
  | .error denied => (.error denied, l)
  | .ok (tat, delay) =>
    (.ok { delay, stamp, prev },
      l.setShard key { map := map.insert key { tat, stamp }, nextStamp := wrappingAdd stamp 1 })

/-- Undoes `admission` when no later booking for `key` happened. -/
def cancel (l : KeyedLimiter K) (key : K) (admission : Admit) : KeyedLimiter K :=
  let shard := l.shard key
  match shard.map[key]? with
  | none => l
  | some entry =>
    if entry.stamp ≠ admission.stamp then l
    else match admission.prev with
      | some prev => l.setShard key { shard with map := shard.map.insert key prev }
      | none => l.setShard key { shard with map := shard.map.erase key }

/-- Forgets keys whose next slot is free at `now`. -/
def retainRecent (l : KeyedLimiter K) (now : Instant) : KeyedLimiter K :=
  { l with shards := fun i =>
      { l.shards i with map := (l.shards i).map.filter fun _ entry =>
          match entry.tat with
          | .at tat => tat > now
          | .never => true } }

def len (l : KeyedLimiter K) : Nat := ((List.range SHARDS).map fun i => (l.shards i).map.size).sum

end KeyedLimiter

/-! ### The slot calendar -/

/-- The bookings of a slot calendar. -/
structure Calendar where
  /-- The theoretical arrival time after the bookings folded in. -/
  floor : Option Instant
  /-- The booked instants not folded in, sorted. -/
  slots : List Instant
  deriving DecidableEq, Repr

structure Booking where
  /-- How long after the caller's `now` the slot starts. -/
  delay : Duration
  «at» : Instant
  deriving DecidableEq, Repr

structure SlotCalendar where
  quota : Quota
  state : Calendar
  deriving DecidableEq, Repr

/-- `partition_point`: how many slots, which come first, match `pred`. -/
def partitionPoint (slots : List Instant) (pred : Instant → Bool) : Nat := (slots.takeWhile pred).length

/-! `earliest` computes in `i128`, whose operations saturate. -/

namespace I128

def MAX : Int := 2 ^ 127 - 1
def MIN : Int := -2 ^ 127

def saturate (x : Int) : Int := max MIN (min x MAX)
def saturatingAdd (a b : Int) : Int := saturate (a + b)
def saturatingSub (a b : Int) : Int := saturate (a - b)
def saturatingMul (a b : Int) : Int := saturate (a * b)

/-- `i128::try_from(n).unwrap_or(i128::MAX)`. -/
def ofNat (n : Nat) : Int := min n MAX

end I128

namespace SlotCalendar
open I128

def new (count : NonZeroU32) (per : Duration) (burst : NonZeroU32) : Except QuotaError SlotCalendar := do
  return { quota := ← Quota.new count per burst, state := { floor := none, slots := [] } }

/-- The loop of `foldBefore`: the number of slots folded, and the floor after them. -/
def foldSlots (quota : Quota) : List Instant → Option Instant → Nat × Option Instant
  | [], floor => (0, floor)
  | slot :: slots, floor =>
    match Instant.checkedAdd (floor.elim slot fun floor => max floor slot) quota.interval with
    | none => (0, floor)
    | some next =>
      let (folded, floor) := foldSlots quota slots (some next)
      (folded + 1, floor)

/-- Folds every booking before `now` into the floor. -/
def foldBefore (quota : Quota) (state : Calendar) (now : Instant) : Calendar :=
  let before := partitionPoint state.slots (· < now)
  let (folded, floor) := foldSlots quota (state.slots.take before) state.floor
  { floor, slots := state.slots.drop folded }

/-- What `earliest` computes before its loop, and does not change in it. -/
structure Search where
  interval : Int
  tolerance : Int
  /-- The offsets of the slots. -/
  offsets : List Int
  /-- `s_k = t_k − k × T`. -/
  s : List Int
  first : Nat
  start : Int

/-- The smallest `s` from position `k` on. -/
def Search.suffixMin (search : Search) (k : Nat) : Option Int := (search.s.drop k).min?

/-- Whether the bookings before a position keep their distance to the shifted later ones. -/
def Search.spans (search : Search) : Option Int → Option Int → Bool
  | some before, some after => saturatingSub before after ≤ search.tolerance
  | _, _ => true

/-- Where a booking at position `p` may stand: at `lower`, given the largest `s` before it. -/
def Search.fits (search : Search) (p : Nat) (prefixMax : Option Int) : Option Int :=
  let low := if p = search.first then search.start else search.offsets.getD (p - 1) 0
  let shift := saturatingMul (ofNat p) search.interval
  -- The shifted later bookings' smallest `s`.
  let after := (search.suffixMin p).map fun m => saturatingSub m search.interval
  let lower := prefixMax.elim low fun before => max low (I128.saturatingAdd (saturatingSub before search.tolerance) shift)
  let upper := after.map fun after => I128.saturatingAdd (I128.saturatingAdd after search.tolerance) shift
  if search.spans prefixMax after && search.offsets[p]?.all (lower < ·) && upper.all (lower ≤ ·) then some lower else none

/-- The loop of `earliest` over the positions from `p` on. -/
def Search.loop (search : Search) : Nat → Nat → Option Int → Option Int
  | 0, _, _ => none
  | fuel + 1, p, prefixMax =>
    match search.fits p prefixMax with
    | some lower => some lower
    | none =>
      let prefixMax := match search.s[p]? with
        | some here => some (prefixMax.elim here (max · here))
        | none => prefixMax
      search.loop fuel (p + 1) prefixMax

/-- The earliest instant at or after `start` whose booking keeps the calendar conformant. -/
def earliest (quota : Quota) (state : Calendar) (start : Instant) : Option Instant :=
  let interval := ofNat quota.interval
  let origin := (state.slots.head?.toList ++ state.floor.toList).foldl min start
  let offset (t : Instant) : Int := ofNat (Instant.saturatingDurationSince t origin)
  let s := state.slots.mapIdx fun k slot => saturatingSub (offset slot) (saturatingMul (ofNat k) interval)
  let first := partitionPoint state.slots (· ≤ start)
  let prefixMax := (s.take first ++ (state.floor.map offset).toList).max?
  let search : Search := {
    interval, tolerance := ofNat quota.tolerance, offsets := state.slots.map offset, s, first, start := offset start }
  match search.loop (s.length + 1 - first) first prefixMax with
  | none => none
  | some lower =>
    -- A duration of `lower` nanoseconds.
    if lower < 0 ∨ lower > (Duration.MAX : Int) then none else Instant.checkedAdd origin lower.toNat

/-- Books the earliest free instant at or after `now + source`, if it is within `maxDelay` of `now`. -/
def acquire (c : SlotCalendar) (now : Instant) (source maxDelay : Duration) : Except Denied Booking × SlotCalendar :=
  match Instant.checkedAdd now source with
  | none => (.error { retryAfter := Duration.MAX }, c)
  | some start =>
    let state := foldBefore c.quota c.state now
    match earliest c.quota state start with
    | none => (.error { retryAfter := Duration.MAX }, { c with state })
    | some «at» =>
      let delay := Instant.saturatingDurationSince «at» now
      if delay > maxDelay then (.error { retryAfter := delay }, { c with state })
      else
        let index := partitionPoint state.slots (· ≤ «at»)
        (.ok { delay, «at» }, { c with state := { state with slots := state.slots.insertIdx index «at» } })

/-- Undoes `booking`. -/
def cancel (c : SlotCalendar) (booking : Booking) : SlotCalendar :=
  let index := partitionPoint c.state.slots (· < booking.at)
  if c.state.slots[index]? = some booking.at then
    { c with state := { c.state with slots := c.state.slots.eraseIdx index } }
  else c

/-- Folds the bookings before `now` into the floor. -/
def retainRecent (c : SlotCalendar) (now : Instant) : SlotCalendar :=
  { c with state := foldBefore c.quota c.state now }

/-- The bookings not yet folded into the floor. -/
def len (c : SlotCalendar) : Nat := c.state.slots.length

end SlotCalendar

end Tgin.Limit
