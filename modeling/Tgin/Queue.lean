import Tgin.Time

/-! The bounded lease queue of `tgin-runtime/src/queue.rs`: producers reserve room and commit, consumers
    lease items in seq order until they ack or release them.

    `BTreeMap` and `BTreeSet` are `Std.ExtTreeMap` and `Std.ExtTreeSet`. So are the hash maps; the one
    place that walks a hash map, `expire`, does not depend on the order of the walk. The queue lock makes
    every operation one step. Items are generic, and a queue is told from another by the address of its
    reservation counters, as `Arc::ptr_eq` does. -/

namespace Tgin.Queue
open Std (ExtTreeMap ExtTreeSet)

inductive Ordering where
  /-- Items of one key may be leased together. -/
  | none
  /-- At most one item per key is leased at any time; items without a key are never held back. -/
  | perKey
  deriving DecidableEq, Repr

inductive OnFull where
  /-- Reject the new item. -/
  | backpressure
  /-- Evict the oldest unleased items to make room for the new one. -/
  | dropOldest
  deriving DecidableEq, Repr

structure QueueConfig where
  /-- Most items, counting available, leased and reserved ones. -/
  capacity : Nat
  /-- Most bytes, counting available, leased and reserved items. -/
  capacityBytes : Nat
  leaseTimeout : Duration
  ordering : Ordering
  onFull : OnFull
  deriving DecidableEq, Repr

/-- Who holds a lease. -/
abbrev HolderId := String

/-- Room reserved for one item, with the address of the counters it counts in. -/
structure Permit where
  /-- Items `OnFull.dropOldest` evicted to make room. -/
  evicted : Nat
  size : Nat
  reservations : Nat
  deriving DecidableEq, Repr

/-- Totals of the outstanding permits. -/
structure Reservations where
  items : Nat
  bytes : Nat
  deriving DecidableEq, Repr

def Reservations.load (r : Reservations) : Nat × Nat := (r.items, r.bytes)

/-- What dropping a permit of `size` bytes leaves. -/
def Reservations.release (r : Reservations) (size : Nat) : Reservations :=
  { items := r.items - 1, bytes := wrappingSub r.bytes size }

/-- Why `tryReserve` found no room. -/
inductive Full where
  | items
  | bytes
  /-- The item is larger than `capacityBytes`: it never fits. -/
  | tooLarge
  deriving DecidableEq, Repr

/-- `commit` got a permit that another queue granted: nothing was stored. -/
structure ForeignPermit (T : Type) where
  permit : Permit
  item : T
  deriving DecidableEq, Repr

structure Lease (T : Type) where
  seq : Nat
  ackId : Int
  item : T
  deriving DecidableEq, Repr

structure QueueStats where
  available : Nat
  leased : Nat
  reserved : Nat
  bytes : Nat
  deriving DecidableEq, Repr

structure Holding where
  holder : HolderId
  /-- `none` when `now + leaseTimeout` overflows: the lease never expires. -/
  deadline : Option Instant
  deriving DecidableEq, Repr

structure Entry (T : Type) where
  item : T
  key : Option Nat
  ackId : Int
  size : Nat
  lease : Option Holding
  deriving DecidableEq, Repr

variable {T R : Type}

def Entry.toLease (e : Entry T) (seq : Nat) : Lease T := { seq, ackId := e.ackId, item := e.item }

/-- Removes `seq` from the set of `key`, and the set with it once it is empty. -/
def removeFrom {K : Type} [Ord K] [Std.TransOrd K] (m : ExtTreeMap K (ExtTreeSet Nat)) (key : K) (seq : Nat) :
    ExtTreeMap K (ExtTreeSet Nat) :=
  match m[key]? with
  | none => m
  | some seqs => if (seqs.erase seq).isEmpty then m.erase key else m.insert key (seqs.erase seq)

structure Inner (T : Type) where
  cfg : QueueConfig
  entries : ExtTreeMap Nat (Entry T)
  /-- Seqs of the unleased entries. -/
  available : ExtTreeSet Nat
  /-- Unleased seqs `Ordering.perKey` may lease: every keyless one, and the lowest of each key that has no
      leased item. -/
  eligible : ExtTreeSet Nat
  /-- Unleased seqs of each key. -/
  queuedPerKey : ExtTreeMap Nat (ExtTreeSet Nat)
  leases : ExtTreeMap HolderId (ExtTreeSet Nat)
  leasedPerKey : ExtTreeMap Nat Nat
  nextSeq : Nat
  /-- Bytes of all entries. -/
  bytes : Nat
  /-- Bytes of the leased entries. -/
  leasedBytes : Nat

namespace Inner

def leased (q : Inner T) : Nat := q.entries.size - q.available.size

/-- Whether one more item of `size` fits next to `items` stored items of `bytes` bytes and the `reserved`
    (items, bytes). -/
def room (q : Inner T) (reserved : Nat × Nat) (items bytes size : Nat) : Except Full Unit :=
  if saturatingAdd items reserved.1 ≥ q.cfg.capacity then .error .items
  else if saturatingAdd (saturatingAdd bytes reserved.2) size > q.cfg.capacityBytes then .error .bytes
  else .ok ()

def holds (q : Inner T) (holder : HolderId) (seq : Nat) : Bool :=
  match q.leases[holder]? with
  | none => false
  | some seqs => seqs.contains seq

/-- The seq of `key` that belongs in `eligible`. -/
def eligibleOf (q : Inner T) (key : Nat) : Option Nat :=
  if q.leasedPerKey.contains key then none
  else match q.queuedPerKey[key]? with
    | none => none
    | some seqs => seqs.toList.head?

/-- Runs `change` on an item with `key`, then brings `eligible` up to date for that key. -/
def rekeyed (q : Inner T) (key : Option Nat) (change : Inner T → R × Inner T) : R × Inner T :=
  match key with
  | none => change q
  | some key =>
    let before := q.eligibleOf key
    let (result, q) := change q
    let after := q.eligibleOf key
    if before = after then (result, q)
    else
      let eligible := match before with
        | some seq => q.eligible.erase seq
        | none => q.eligible
      let eligible := match after with
        | some seq => eligible.insert seq
        | none => eligible
      (result, { q with eligible })

/-- Marks `seq` unleased. -/
def link (q : Inner T) (seq : Nat) (key : Option Nat) : Inner T :=
  let q := { q with available := q.available.insert seq }
  match key with
  | some key => { q with queuedPerKey := q.queuedPerKey.insert key (q.queuedPerKey[key]?.getD ∅ |>.insert seq) }
  | none => { q with eligible := q.eligible.insert seq }

/-- Takes `seq` out of the unleased ones, if it is there. -/
def unlink (q : Inner T) (seq : Nat) (key : Option Nat) : Inner T :=
  if !q.available.contains seq then q
  else
    let q := { q with available := q.available.erase seq }
    match key with
    | some key => { q with queuedPerKey := removeFrom q.queuedPerKey key seq }
    | none => { q with eligible := q.eligible.erase seq }

/-- Leases the unleased entry `seq` until `deadline`. The caller records it in `leases`. -/
def startLease (q : Inner T) (seq : Nat) (holder : HolderId) (deadline : Option Instant) : Inner T :=
  match q.entries[seq]? with
  | none => q
  | some entry =>
    let key := entry.key
    let q := { q with
      entries := q.entries.insert seq { entry with lease := some { holder, deadline } }
      leasedBytes := wrappingAdd q.leasedBytes entry.size }
    (q.rekeyed key fun q =>
      let q := q.unlink seq key
      ((), match key with
        | some key => { q with leasedPerKey := q.leasedPerKey.insert key (q.leasedPerKey[key]?.getD 0 + 1) }
        | none => q)).2

/-- Ends the lease on `seq`, if any, without making the entry available. -/
def endLease (q : Inner T) (seq : Nat) : Inner T :=
  match q.entries[seq]? with
  | none => q
  | some entry =>
    match entry.lease with
    | none => q
    | some holding =>
      let q := { q with
        entries := q.entries.insert seq { entry with lease := none }
        leasedBytes := wrappingSub q.leasedBytes entry.size }
      let q := match entry.key with
        | none => q
        | some key =>
          match q.leasedPerKey[key]? with
          | none => q
          | some count =>
            if count - 1 = 0 then { q with leasedPerKey := q.leasedPerKey.erase key }
            else { q with leasedPerKey := q.leasedPerKey.insert key (count - 1) }
      { q with leases := removeFrom q.leases holding.holder seq }

/-- Puts the leased entry `seq` back among the available ones. -/
def requeue (q : Inner T) (seq : Nat) : Inner T :=
  match q.entries[seq]? with
  | none => q
  | some entry => (q.rekeyed entry.key fun q => ((), (q.endLease seq).link seq entry.key)).2

/-- Removes the entry `seq`, leased or not. -/
def remove (q : Inner T) (seq : Nat) : Option (Entry T) × Inner T :=
  match q.entries[seq]? with
  | none => (none, q)
  | some entry =>
    let (removed, q) := q.rekeyed entry.key fun q =>
      let q := (q.endLease seq).unlink seq entry.key
      (q.entries[seq]?, { q with entries := q.entries.erase seq })
    match removed with
    | none => (none, q)
    | some entry => (some entry, { q with bytes := wrappingSub q.bytes entry.size })

/-- The eviction loop of `tryReserve`: the number of evicted items, once there is room. The fuel is the
    number of unleased entries; with none left the loop gives up, as `ok_or(full)?` does. -/
def evict (reserved : Nat × Nat) (size : Nat) : Nat → Inner T → Nat → Except Full Nat × Inner T
  | fuel, q, evicted =>
    match q.room reserved q.entries.size q.bytes size with
    | .ok () => (.ok evicted, q)
    | .error full =>
      match fuel, q.available.toList.head? with
      | fuel + 1, some oldest => evict reserved size fuel (q.remove oldest).2 (evicted + 1)
      | _, _ => (.error full, q)

end Inner

/-- The queue, with the number of times it woke its waiters. -/
structure LeaseQueue (T : Type) where
  inner : Inner T
  address : Nat
  reservations : Reservations
  notified : Nat

namespace LeaseQueue

def new (address : Nat) (cfg : QueueConfig) : LeaseQueue T where
  inner := {
    cfg, entries := ∅, available := ∅, eligible := ∅, queuedPerKey := ∅, leases := ∅, leasedPerKey := ∅,
    nextSeq := 0, bytes := 0, leasedBytes := 0 }
  address
  reservations := { items := 0, bytes := 0 }
  notified := 0

def notifyWaiters (q : LeaseQueue T) : LeaseQueue T := { q with notified := q.notified + 1 }

/-- Makes room for one more item next to the `reserved` (items, bytes): the number of items evicted. -/
def makeRoom (q : Inner T) (reserved : Nat × Nat) (size : Nat) : Except Full Nat × Inner T :=
  match q.room reserved q.entries.size q.bytes size with
  | .ok () => (.ok 0, q)
  | .error full =>
    if q.cfg.onFull = .backpressure then (.error full, q)
    else match q.room reserved q.leased q.leasedBytes size with
      | .error full => (.error full, q)
      | .ok () => q.evict reserved size q.available.size 0

/-- `tryReserve` when it reads `reserved` off the reservation counters. -/
def tryReserveSeeing (q : LeaseQueue T) (reserved : Nat × Nat) (size : Nat) : Except Full Permit × LeaseQueue T :=
  if size > q.inner.cfg.capacityBytes then (.error .tooLarge, q)
  else
    match makeRoom q.inner reserved size with
    | (.error full, inner) => (.error full, { q with inner })
    | (.ok evicted, inner) =>
      (.ok { evicted, size, reservations := q.address },
        { q with
          inner
          reservations := {
            items := q.reservations.items + 1, bytes := wrappingAdd q.reservations.bytes size } })

/-- Reserves room for one item of `size` bytes. -/
def tryReserve (q : LeaseQueue T) (size : Nat) : Except Full Permit × LeaseQueue T :=
  q.tryReserveSeeing q.reservations.load size

/-- Dropping (or cancelling) a permit this queue granted. -/
def dropPermit (q : LeaseQueue T) (permit : Permit) : LeaseQueue T :=
  { q with reservations := q.reservations.release permit.size }

/-- Stores `item` in the room `permit` reserved and returns its seq. -/
def commit (q : LeaseQueue T) (permit : Permit) (item : T) (key : Option Nat) (ackId : Int) :
    Except (ForeignPermit T) Nat × LeaseQueue T :=
  if permit.reservations ≠ q.address then (.error { permit, item }, q)
  else
    let size := permit.size
    let seq := q.inner.nextSeq
    let inner := { q.inner with
      nextSeq := seq + 1
      entries := q.inner.entries.insert seq { item, key, ackId, size, lease := none }
      bytes := wrappingAdd q.inner.bytes size }
    let inner := (inner.rekeyed key fun q => ((), q.link seq key)).2
    -- The item counts now, so the reservation goes under the same lock.
    (.ok seq, notifyWaiters { q.dropPermit permit with inner })

/-- Leases up to `max` available items to `holder` in seq order, until `now + leaseTimeout`. -/
def lease (q : LeaseQueue T) (holder : HolderId) (max : Nat) (now : Instant) : List (Lease T) × LeaseQueue T :=
  let candidates := match q.inner.cfg.ordering with
    | .none => q.inner.available
    | .perKey => q.inner.eligible
  let picked := candidates.toList.take max
  if picked.isEmpty then ([], q)
  else
    let deadline := Instant.checkedAdd now q.inner.cfg.leaseTimeout
    let (leases, inner) := picked.foldl
      (fun (leases, inner) seq =>
        let inner := inner.startLease seq holder deadline
        (match inner.entries[seq]? with
          | some entry => leases ++ [entry.toLease seq]
          | none => leases,
          inner))
      ([], q.inner)
    let held := inner.leases[holder]?.getD ∅
    (leases, { q with inner := { inner with leases := inner.leases.insert holder (picked.foldl .insert held) } })

/-- The leases `holder` has with `ackId ≥ minAckId`, in seq order, each renewed until `now + leaseTimeout`. -/
def held (q : LeaseQueue T) (holder : HolderId) (minAckId : Int) (now : Instant) : List (Lease T) × LeaseQueue T :=
  match q.inner.leases[holder]? with
  | none => ([], q)
  | some seqs =>
    let deadline := Instant.checkedAdd now q.inner.cfg.leaseTimeout
    let (held, inner) := seqs.toList.foldl
      (fun (held, inner) seq =>
        match inner.entries[seq]? with
        | none => (held, inner)
        | some entry =>
          if entry.ackId < minAckId then (held, inner)
          else
            let entry := { entry with lease := entry.lease.map fun holding => { holding with deadline } }
            (held ++ [entry.toLease seq], { inner with entries := inner.entries.insert seq entry }))
      ([], q.inner)
    (held, { q with inner })

/-- Removes the leases of `holder` that match `pred`: their number, and the items the callback is run on. -/
def ackWhere (q : LeaseQueue T) (holder : HolderId) (pred : Entry T → Bool) : (Nat × List T) × LeaseQueue T :=
  match q.inner.leases[holder]? with
  | none => ((0, []), q)
  | some seqs =>
    let acked := seqs.toList.filter fun seq => q.inner.entries[seq]?.any pred
    let (removed, freedKey, inner) := acked.foldl
      (fun (removed, freedKey, inner) seq =>
        match inner.remove seq with
        | (some entry, inner) => (removed ++ [entry.item], freedKey || entry.key.isSome, inner)
        | (none, inner) => (removed, freedKey, inner))
      ([], false, q.inner)
    let q := { q with inner }
    ((acked.length, removed), if freedKey && inner.cfg.ordering = .perKey then q.notifyWaiters else q)

/-- Removes the leases `holder` has with `ackId` below the given one. -/
def ackBelow (q : LeaseQueue T) (holder : HolderId) (ackId : Int) : (Nat × List T) × LeaseQueue T :=
  q.ackWhere holder fun entry => entry.ackId < ackId

/-- Removes every lease `holder` has. -/
def ackAll (q : LeaseQueue T) (holder : HolderId) : (Nat × List T) × LeaseQueue T := q.ackWhere holder fun _ => true

/-- Removes the item `seq` if `holder` leases it. -/
def ackSeq (q : LeaseQueue T) (holder : HolderId) (seq : Nat) : Bool × LeaseQueue T :=
  if !q.inner.holds holder seq then (false, q)
  else
    let (removed, inner) := q.inner.remove seq
    let q := { q with inner }
    (true, if inner.cfg.ordering = .perKey && removed.any (·.key.isSome) then q.notifyWaiters else q)

/-- Returns the item `seq`, if `holder` leases it, to its original position. -/
def releaseSeq (q : LeaseQueue T) (holder : HolderId) (seq : Nat) : Bool × LeaseQueue T :=
  if !q.inner.holds holder seq then (false, q)
  else (true, notifyWaiters { q with inner := q.inner.requeue seq })

/-- Returns the leases whose deadline is at or before `now` to their original positions. -/
def expire (q : LeaseQueue T) (now : Instant) : Nat × LeaseQueue T :=
  let leased := q.inner.leases.toList.flatMap fun (_, seqs) => seqs.toList
  let expired := leased.filter fun seq =>
    match q.inner.entries[seq]?.bind (·.lease) |>.bind (·.deadline) with
    | some deadline => deadline ≤ now
    | none => false
  let q := { q with inner := expired.foldl .requeue q.inner }
  (expired.length, if expired.isEmpty then q else q.notifyWaiters)

def stats (q : LeaseQueue T) : QueueStats where
  available := q.inner.available.size
  leased := q.inner.leased
  reserved := q.reservations.items
  bytes := q.inner.bytes

/-- Drops every unleased item. -/
def purge (q : LeaseQueue T) : Nat × LeaseQueue T :=
  let available := q.inner.available
  let inner := { q.inner with available := ∅, eligible := ∅, queuedPerKey := ∅ }
  let inner := available.toList.foldl
    (fun inner seq =>
      match inner.entries[seq]? with
      | none => inner
      | some entry =>
        { inner with entries := inner.entries.erase seq, bytes := wrappingSub inner.bytes entry.size })
    inner
  (available.size, { q with inner })

/-- How many items, leased or not, match `pred`. -/
def countWhere (q : LeaseQueue T) (pred : T → Bool) : Nat :=
  (q.inner.entries.toList.filter fun (_, e) => pred e.item).length

/-- Drops the unleased items that match `pred`. -/
def purgeWhere (q : LeaseQueue T) (pred : T → Bool) : Nat × LeaseQueue T :=
  let matched := q.inner.available.toList.filter fun seq => q.inner.entries[seq]?.any fun e => pred e.item
  (matched.length, { q with inner := matched.foldl (fun inner seq => (inner.remove seq).2) q.inner })

/-- Removes every item, leased or not, and returns them in seq order. Outstanding permits stay valid. -/
def drainAll (q : LeaseQueue T) : List T × LeaseQueue T :=
  (q.inner.entries.toList.map (·.2.item),
    { q with inner := { q.inner with
        available := ∅, eligible := ∅, queuedPerKey := ∅, leases := ∅, leasedPerKey := ∅, bytes := 0,
        leasedBytes := 0, entries := ∅ } })

/-- Applies `cfg` from the next call on and never drops items. -/
def setConfig (q : LeaseQueue T) (cfg : QueueConfig) : LeaseQueue T :=
  notifyWaiters { q with inner := { q.inner with cfg } }

end LeaseQueue

end Tgin.Queue
