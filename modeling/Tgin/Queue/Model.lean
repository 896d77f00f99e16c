import Tgin.Lib.Run
import Tgin.Queue

/-! What the lease queue is for, said naively: one list of entries in seq order and the list of live
    permits, everything else recomputed by scanning them. `Client` runs the queue of the code next to the
    permits its callers hold, `Model` the lists. -/

namespace Tgin.Queue

variable {T : Type}

/-- One call on a queue. A caller names the permit it uses by its place among the live ones. -/
inductive Op (T : Type) where
  | tryReserve (size : Nat)
  | commit (permit : Nat) (item : T) (key : Option Nat) (ackId : Int)
  /-- `commit` with a permit that some other queue granted. -/
  | commitForeign (permit : Permit) (item : T) (key : Option Nat) (ackId : Int)
  | dropPermit (permit : Nat)
  | lease (holder : HolderId) (max : Nat) (now : Instant)
  | held (holder : HolderId) (minAckId : Int) (now : Instant)
  | ackBelow (holder : HolderId) (ackId : Int)
  | ackAll (holder : HolderId)
  | ackSeq (holder : HolderId) (seq : Nat)
  | releaseSeq (holder : HolderId) (seq : Nat)
  | expire (now : Instant)
  | stats
  | purge
  | countWhere (pred : T → Bool)
  | purgeWhere (pred : T → Bool)
  | drainAll
  | setConfig (cfg : QueueConfig)

inductive Result (T : Type) where
  | reserved (result : Except Full Permit)
  | committed (result : Except (ForeignPermit T) Nat)
  /-- There is no such permit, so there was no call. -/
  | noPermit
  | done
  | leases (leases : List (Lease T))
  /-- The number of acked items and the items themselves. -/
  | acked (count : Nat) (items : List T)
  | found (found : Bool)
  | count (n : Nat)
  | stats (stats : QueueStats)
  | items (items : List T)

def Entry.heldBy (e : Entry T) (holder : HolderId) : Bool := e.lease.any (·.holder = holder)

/-! ### The queue and its callers -/

structure Client (T : Type) where
  queue : LeaseQueue T
  /-- The permits the queue granted and nobody committed or dropped yet. -/
  permits : List Permit

namespace Client

def new (address : Nat) (cfg : QueueConfig) : Client T := { queue := .new address cfg, permits := [] }

def step (op : Op T) (c : Client T) : Result T × Client T :=
  match op with
  | .tryReserve size =>
    match c.queue.tryReserve size with
    | (.error full, queue) => (.reserved (.error full), { c with queue })
    | (.ok permit, queue) => (.reserved (.ok permit), { queue, permits := c.permits ++ [permit] })
  | .commit i item key ackId =>
    match c.permits[i]? with
    | none => (.noPermit, c)
    | some permit =>
      let (result, queue) := c.queue.commit permit item key ackId
      (.committed result, { queue, permits := c.permits.eraseIdx i })
  | .commitForeign permit item key ackId =>
    if permit.reservations = c.queue.address then (.noPermit, c)
    else
      let (result, queue) := c.queue.commit permit item key ackId
      (.committed result, { c with queue })
  | .dropPermit i =>
    match c.permits[i]? with
    | none => (.noPermit, c)
    | some permit => (.done, { queue := c.queue.dropPermit permit, permits := c.permits.eraseIdx i })
  | .lease holder max now => let (leases, queue) := c.queue.lease holder max now; (.leases leases, { c with queue })
  | .held holder min now => let (leases, queue) := c.queue.held holder min now; (.leases leases, { c with queue })
  | .ackBelow holder ackId =>
    let ((count, items), queue) := c.queue.ackBelow holder ackId
    (.acked count items, { c with queue })
  | .ackAll holder => let ((count, items), queue) := c.queue.ackAll holder; (.acked count items, { c with queue })
  | .ackSeq holder seq => let (found, queue) := c.queue.ackSeq holder seq; (.found found, { c with queue })
  | .releaseSeq holder seq => let (found, queue) := c.queue.releaseSeq holder seq; (.found found, { c with queue })
  | .expire now => let (count, queue) := c.queue.expire now; (.count count, { c with queue })
  | .stats => (.stats c.queue.stats, c)
  | .purge => let (count, queue) := c.queue.purge; (.count count, { c with queue })
  | .countWhere pred => (.count (c.queue.countWhere pred), c)
  | .purgeWhere pred => let (count, queue) := c.queue.purgeWhere pred; (.count count, { c with queue })
  | .drainAll => let (items, queue) := c.queue.drainAll; (.items items, { c with queue })
  | .setConfig cfg => (.done, { c with queue := c.queue.setConfig cfg })

/-- Every call of `ops` in turn, on a new queue. -/
def run (address : Nat) (cfg : QueueConfig) (ops : List (Op T)) : List (Result T) × Client T :=
  Run.run step ops (new address cfg)

end Client

/-! ### The lists -/

structure Model (T : Type) where
  cfg : QueueConfig
  address : Nat
  /-- Every entry with its seq, the oldest first. -/
  entries : List (Nat × Entry T)
  permits : List Permit
  nextSeq : Nat

namespace Model

def new (address : Nat) (cfg : QueueConfig) : Model T := { cfg, address, entries := [], permits := [], nextSeq := 0 }

/-- The size of some entries together, in the code's machine words. -/
def bytes (entries : List (Nat × Entry T)) : Nat := (entries.map fun x => x.2.size).sum % wordSize

def reserved (m : Model T) : Nat × Nat := (m.permits.length, (m.permits.map (·.size)).sum % wordSize)

def leased (m : Model T) : List (Nat × Entry T) := m.entries.filter fun x => x.2.lease.isSome

def unleased (m : Model T) : List (Nat × Entry T) := m.entries.filter fun x => x.2.lease.isNone

/-- Whether one more item of `size` fits next to `entries` and the live permits. -/
def room (m : Model T) (entries : List (Nat × Entry T)) (size : Nat) : Except Full Unit :=
  if saturatingAdd entries.length m.reserved.1 ≥ m.cfg.capacity then .error .items
  else if saturatingAdd (saturatingAdd (bytes entries) m.reserved.2) size > m.cfg.capacityBytes then .error .bytes
  else .ok ()

/-- The model without the entries that match `pred`. -/
def without (m : Model T) (pred : Nat × Entry T → Bool) : Model T :=
  { m with entries := m.entries.filter fun x => !pred x }

/-- Drops the entries `seqs` one by one until one more item of `size` fits: how many it dropped. -/
def evict (size : Nat) : List Nat → Model T → Nat × Model T
  | [], m => (0, m)
  | seq :: seqs, m =>
    match m.room m.entries size with
    | .ok () => (0, m)
    | .error _ =>
      let (evicted, m) := evict size seqs (m.without (·.1 = seq))
      (evicted + 1, m)

/-- Makes room by the overflow policy: the number of entries evicted, oldest unleased first. -/
def makeRoom (m : Model T) (size : Nat) : Except Full Nat × Model T :=
  match m.room m.entries size, m.cfg.onFull, m.room m.leased size with
  | .ok (), _, _ => (.ok 0, m)
  | .error full, .backpressure, _ => (.error full, m)
  | .error _, .dropOldest, .error full => (.error full, m)
  | .error _, .dropOldest, .ok () =>
    let (evicted, m) := m.evict size (m.unleased.map (·.1))
    (.ok evicted, m)

def tryReserve (m : Model T) (size : Nat) : Except Full Permit × Model T :=
  if size > m.cfg.capacityBytes then (.error .tooLarge, m)
  else
    match m.makeRoom size with
    | (.error full, m) => (.error full, m)
    | (.ok evicted, m) =>
      let permit := { evicted, size, reservations := m.address }
      (.ok permit, { m with permits := m.permits ++ [permit] })

/-- Whether `x` may be leased: it is unleased and, under `Ordering.perKey`, no entry of its key is leased
    or older. -/
def ready (m : Model T) (x : Nat × Entry T) : Bool :=
  x.2.lease.isNone && (m.cfg.ordering = .none ||
    m.entries.all fun y => x.2.key.isNone || y.2.key ≠ x.2.key || (y.2.lease.isNone && x.1 ≤ y.1))

def lease (m : Model T) (holder : HolderId) (max : Nat) (now : Instant) : List (Lease T) × Model T :=
  let picked := (m.entries.filter m.ready).take max
  let lease := some { holder, deadline := Instant.checkedAdd now m.cfg.leaseTimeout }
  (picked.map fun x => x.2.toLease x.1,
    { m with entries := m.entries.map fun x => (x.1, if x.1 ∈ picked.map (·.1) then { x.2 with lease } else x.2) })

def held (m : Model T) (holder : HolderId) (minAckId : Int) (now : Instant) : List (Lease T) × Model T :=
  let lease := some { holder, deadline := Instant.checkedAdd now m.cfg.leaseTimeout }
  let renewed := fun x : Nat × Entry T => x.2.heldBy holder && minAckId ≤ x.2.ackId
  ((m.entries.filter renewed).map fun x => x.2.toLease x.1,
    { m with entries := m.entries.map fun x => (x.1, if renewed x then { x.2 with lease } else x.2) })

/-- Removes the entries that match `pred`: their number and their items. -/
def removeWhere (m : Model T) (pred : Nat × Entry T → Bool) : (Nat × List T) × Model T :=
  (((m.entries.filter pred).length, (m.entries.filter pred).map (·.2.item)), m.without pred)

/-- Ends the lease of the entries that match `pred`: their number. -/
def releaseWhere (m : Model T) (pred : Nat × Entry T → Bool) : Nat × Model T :=
  ((m.entries.filter pred).length,
    { m with entries := m.entries.map fun x => (x.1, if pred x then { x.2 with lease := none } else x.2) })

def stats (m : Model T) : QueueStats where
  available := m.unleased.length
  leased := m.leased.length
  reserved := m.permits.length
  bytes := bytes m.entries

def step (op : Op T) (m : Model T) : Result T × Model T :=
  match op with
  | .tryReserve size => let (result, m) := m.tryReserve size; (.reserved result, m)
  | .commit i item key ackId =>
    match m.permits[i]? with
    | none => (.noPermit, m)
    | some permit =>
      (.committed (.ok m.nextSeq), { m with
        entries := m.entries ++ [(m.nextSeq, { item, key, ackId, size := permit.size, lease := none })]
        permits := m.permits.eraseIdx i
        nextSeq := m.nextSeq + 1 })
  | .commitForeign permit item _ _ =>
    (if permit.reservations = m.address then .noPermit else .committed (.error { permit, item }), m)
  | .dropPermit i =>
    if i < m.permits.length then (.done, { m with permits := m.permits.eraseIdx i }) else (.noPermit, m)
  | .lease holder max now => let (leases, m) := m.lease holder max now; (.leases leases, m)
  | .held holder minAckId now => let (leases, m) := m.held holder minAckId now; (.leases leases, m)
  | .ackBelow holder ackId =>
    let ((count, items), m) := m.removeWhere fun x => x.2.heldBy holder && x.2.ackId < ackId
    (.acked count items, m)
  | .ackAll holder =>
    let ((count, items), m) := m.removeWhere fun x => x.2.heldBy holder
    (.acked count items, m)
  | .ackSeq holder seq =>
    let ((count, _), m) := m.removeWhere fun x => x.1 = seq && x.2.heldBy holder
    (.found (count = 1), m)
  | .releaseSeq holder seq =>
    let (count, m) := m.releaseWhere fun x => x.1 = seq && x.2.heldBy holder
    (.found (count = 1), m)
  | .expire now =>
    let (count, m) := m.releaseWhere fun x => (x.2.lease.bind (·.deadline)).any (· ≤ now)
    (.count count, m)
  | .stats => (.stats m.stats, m)
  | .purge => let ((count, _), m) := m.removeWhere fun x => x.2.lease.isNone; (.count count, m)
  | .countWhere pred => (.count (m.entries.filter fun x => pred x.2.item).length, m)
  | .purgeWhere pred =>
    let ((count, _), m) := m.removeWhere fun x => x.2.lease.isNone && pred x.2.item
    (.count count, m)
  | .drainAll => let ((_, items), m) := m.removeWhere fun _ => true; (.items items, m)
  | .setConfig cfg => (.done, { m with cfg })

def run (address : Nat) (cfg : QueueConfig) (ops : List (Op T)) : List (Result T) × Model T :=
  Run.run step ops (new address cfg)

end Model

end Tgin.Queue
