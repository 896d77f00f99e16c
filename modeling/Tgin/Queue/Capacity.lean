import Mathlib.Algebra.Order.BigOperators.Group.List
import Mathlib.Algebra.Order.Group.Nat
import Tgin.Queue.Conservation
import Tgin.Queue.Consume
import Tgin.Queue.Reserve

/-! What a queue stores and what it has promised to store stay within its capacity. Permits are dropped without the
    queue lock, so a `tryReserve` may still see some of them counted. -/

namespace Tgin.Queue
open Std (ExtTreeMap ExtTreeSet)
open Ordered (total)

variable {T : Type}

/-- The limits are machine words. -/
structure QueueConfig.Words (cfg : QueueConfig) : Prop where
  capacity : cfg.capacity ≤ wordMax
  capacityBytes : cfg.capacityBytes ≤ wordMax

/-- One step of the callers of a queue. -/
inductive Move (T : Type) where
  | call (op : Op T)
  /-- A `tryReserve` that reads `seen` off the reservation counters while permits are being dropped. -/
  | tryReserveSeeing (seen : Nat × Nat) (size : Nat)

/-- A configuration the call sets has machine words for limits. -/
def Move.Words : Move T → Prop
  | .call (.setConfig cfg) => cfg.Words
  | _ => True

namespace Client

def cfg (c : Client T) : QueueConfig := c.queue.inner.cfg

/-- Items stored and reserved. -/
def items (c : Client T) : Nat := c.queue.inner.entries.size + c.permits.length

def reservedBytes (c : Client T) : Nat := (c.permits.map (·.size)).sum

/-- Bytes stored and reserved. -/
def bytes (c : Client T) : Nat := total c.queue.inner.entries Entry.size + c.reservedBytes

def tryReserveSeeing (seen : Nat × Nat) (size : Nat) (c : Client T) : Except Full Permit × Client T :=
  match c.queue.tryReserveSeeing seen size with
  | (.error full, queue) => (.error full, { c with queue })
  | (.ok permit, queue) => (.ok permit, { queue, permits := c.permits ++ [permit] })

/-- `seen` counts every live permit, and maybe some that are being dropped. -/
def MaySee (c : Client T) (seen : Nat × Nat) : Prop :=
  c.queue.reservations.items ≤ seen.1 ∧ c.queue.reservations.bytes ≤ seen.2

instance (c : Client T) (seen : Nat × Nat) : Decidable (c.MaySee seen) := inferInstanceAs (Decidable (_ ∧ _))

def move (c : Client T) : Move T → Client T
  | .call op => (step op c).2
  | .tryReserveSeeing seen size => if c.MaySee seen then (c.tryReserveSeeing seen size).2 else c

def moves (c : Client T) (ms : List (Move T)) : Client T := ms.foldl move c

/-! ### Where the byte check is exact -/

/-- How many items over the item limit one more item would be. -/
def excess (c : Client T) : Nat := c.items + 1 - c.cfg.capacity

/-- The item limit alone rejects one more item: there are too many, and the queue may not or cannot evict enough. -/
def RejectsItem (c : Client T) : Prop :=
  0 < c.excess ∧ (c.cfg.onFull = .backpressure ∨ c.cfg.capacity ≤ c.queue.inner.leased + c.permits.length)

/-- Bytes stored and reserved, without the oldest unleased items that the item limit has an evicting queue drop. -/
def stayingBytes (c : Client T) : Nat :=
  ((c.queue.inner.entries.toList.filter fun x => x.1 ∉ c.queue.inner.available.toList.take c.excess).map
    (·.2.size)).sum + c.reservedBytes

/-- One more item of `size` bytes meets no sum that saturates at a byte limit of `usize::MAX`. -/
def Counts (c : Client T) (size : Nat) : Prop :=
  c.cfg.capacityBytes < wordMax ∨ c.RejectsItem ∨ c.stayingBytes + size ≤ wordMax

def MoveCounts (c : Client T) : Move T → Prop
  | .call (.tryReserve size) | .tryReserveSeeing _ size => c.Counts size
  | _ => True

def AllCount : Client T → List (Move T) → Prop
  | _, [] => True
  | c, m :: ms => c.MoveCounts m ∧ AllCount (c.move m) ms

/-- What the capacity promises about a state. -/
structure KeepsCapacity (c : Client T) : Prop where
  reserved : c.queue.reservations = { items := c.permits.length, bytes := c.reservedBytes }
  tryReserve : ∀ seen size permit c', c.Counts size → c.MaySee seen → c.tryReserveSeeing seen size = (.ok permit, c') →
    c'.items ≤ c'.cfg.capacity ∧ c'.bytes ≤ c'.cfg.capacityBytes
  commit : ∀ i item key ackId,
    (step (.commit i item key ackId) c).2.items ≤ c.items ∧ (step (.commit i item key ackId) c).2.bytes ≤ c.bytes

end Client

/-! ### Room -/

theorem le_of_saturatingAdd_lt {a b n : Nat} (h : saturatingAdd a b < n) (hn : n ≤ wordMax) : a + b < n := by
  simp only [saturatingAdd, wordMax, wordSize] at *
  omega

section
variable {q : Inner T}

theorem room_ok {reserved : Nat × Nat} {items bytes size : Nat} (h : q.room reserved items bytes size = .ok ()) :
    saturatingAdd items reserved.1 < q.cfg.capacity ∧
      saturatingAdd (saturatingAdd bytes reserved.2) size ≤ q.cfg.capacityBytes := by
  unfold Inner.room at h
  split at h
  · cases h
  · rename_i hi
    split at h
    · cases h
    · rename_i hb
      exact ⟨Nat.lt_of_not_le hi, Nat.le_of_not_lt hb⟩

theorem evict_room {reserved : Nat × Nat} {size : Nat} (fuel : Nat) (q : Inner T) (evicted : Nat) {n : Nat} {q' : Inner T}
    (h : q.evict reserved size fuel evicted = (.ok n, q')) :
    q'.room reserved q'.entries.size q'.bytes size = .ok () := by
  induction fuel generalizing q evicted with
  | zero =>
    unfold Inner.evict at h
    cases hr : q.room reserved q.entries.size q.bytes size with
    | ok _ =>
      rw [hr] at h
      cases h
      exact hr
    | error full =>
      rw [hr] at h
      cases h
  | succ fuel ih =>
    unfold Inner.evict at h
    cases hr : q.room reserved q.entries.size q.bytes size with
    | ok _ =>
      rw [hr] at h
      cases h
      exact hr
    | error full =>
      rw [hr] at h
      cases ha : q.available.toList.head? with
      | none =>
        rw [ha] at h
        cases h
      | some oldest =>
        rw [ha] at h
        exact ih _ _ h

theorem makeRoom_room {reserved : Nat × Nat} {size n : Nat} {q' : Inner T}
    (h : LeaseQueue.makeRoom q reserved size = (.ok n, q')) :
    q'.room reserved q'.entries.size q'.bytes size = .ok () := by
  unfold LeaseQueue.makeRoom at h
  cases hr : q.room reserved q.entries.size q.bytes size with
  | ok _ =>
    rw [hr] at h
    cases h
    exact hr
  | error full =>
    rw [hr] at h
    dsimp only at h
    split at h
    · cases h
    · cases hl : q.room reserved q.leased q.leasedBytes size with
      | error full =>
        rw [hl] at h
        cases h
      | ok _ =>
        rw [hl] at h
        exact evict_room _ _ _ h

theorem tryReserveSeeing_room {q q' : LeaseQueue T} {seen : Nat × Nat} {size : Nat} {permit : Permit}
    (h : q.tryReserveSeeing seen size = (.ok permit, q')) :
    q'.inner.room seen q'.inner.entries.size q'.inner.bytes size = .ok () := by
  unfold LeaseQueue.tryReserveSeeing at h
  split at h
  · cases h
  · cases hm : LeaseQueue.makeRoom q.inner seen size with
    | mk answer inner =>
      rw [hm] at h
      cases answer with
      | error full => cases h
      | ok evicted =>
        cases h
        exact makeRoom_room hm

end

/-! ### The totals of the lists -/

namespace Model

def totalBytes (m : Model T) : Nat := (m.entries.map (·.2.size)).sum + (m.permits.map (·.size)).sum

def totalItems (m : Model T) : Nat := m.entries.length + m.permits.length

theorem sizes_le_of_sublist {entries entries' : List (Nat × Entry T)} (h : entries'.Sublist entries) :
    (entries'.map (·.2.size)).sum ≤ (entries.map (·.2.size)).sum :=
  (h.map _).sum_le_sum fun _ _ => Nat.zero_le _

theorem sparing_length {m : Model T} (nodup : (m.entries.map (·.1)).Nodup) {n : Nat} (hn : n ≤ m.unleased.length) :
    (m.sparing n).entries.length + n = m.entries.length := by
  have split := List.length_eq_length_filter_add (l := m.entries) fun x => x.1 ∈ (m.unleased.map (·.1)).take n
  rw [length_sparing nodup hn] at split
  rw [split, Nat.add_comm]
  rfl

theorem sparing_sublist (m : Model T) {k n : Nat} (h : k ≤ n) : (m.sparing n).entries.Sublist (m.sparing k).entries := by
  refine List.monotone_filter_right _ fun x stays => ?_
  have := (List.take_prefix_take_left h (l := m.unleased.map (·.1))).subset
  simp only [Bool.not_eq_true', decide_eq_false_iff_not] at stays ⊢
  exact fun hx => stays (this hx)

/-- Storing an item moves it from the reserved ones to the stored ones. -/
theorem commit_totals (m : Model T) (i : Nat) (item : T) (key : Option Nat) (ackId : Int) :
    (step (.commit i item key ackId) m).2.totalItems = m.totalItems ∧
      (step (.commit i item key ackId) m).2.totalBytes = m.totalBytes := by
  simp only [step]
  cases hi : m.permits[i]? with
  | none => exact ⟨rfl, rfl⟩
  | some permit =>
    have lt := (List.getElem?_eq_some_iff.mp hi).1
    have sizes := sum_eraseIdx hi
    simp only [totalItems, totalBytes, List.length_append, List.map_append, List.sum_append, List.length_eraseIdx, lt,
      if_true, List.length_singleton, List.map_cons, List.map_nil, List.sum_singleton]
    omega

/-- Only `tryReserve` adds to the bytes stored and reserved. -/
theorem step_totalBytes {op : Op T} (h : ∀ size, op ≠ .tryReserve size) (m : Model T) :
    (step op m).2.totalBytes ≤ m.totalBytes := by
  by_cases consumes : op.consumes
  · obtain ⟨⟨lease, left⟩, -⟩ := step_consumes consumes m
    rw [left]
    simp only [totalBytes, List.map_map]
    exact Nat.add_le_add_right (sizes_le_of_sublist List.filter_sublist) _
  · cases op with
    | tryReserve size => exact absurd rfl (h size)
    | commit i item key ackId => exact (m.commit_totals i item key ackId).2.le
    | dropPermit i =>
      simp only [step]
      split
      · rename_i lt
        have sizes := sum_eraseIdx (List.getElem?_eq_getElem lt)
        simp only [totalBytes]
        omega
      · exact le_rfl
    | drainAll =>
      simp only [step, removeWhere, without, totalBytes]
      exact Nat.add_le_add_right (sizes_le_of_sublist List.filter_sublist) _
    | commitForeign permit item key ackId => exact le_rfl
    | stats => exact le_rfl
    | countWhere pred => exact le_rfl
    | setConfig cfg => exact le_rfl
    | _ => exact absurd rfl consumes

theorem step_cfg {op : Op T} (h : ∀ cfg, op ≠ .setConfig cfg) (m : Model T) : (step op m).2.cfg = m.cfg := by
  cases op with
  | tryReserve size => exact (tryReserve_sublist size m).2
  | commit i item key ackId =>
    simp only [step]
    split <;> rfl
  | dropPermit i =>
    simp only [step]
    split <;> rfl
  | setConfig cfg => exact absurd rfl (h cfg)
  | _ => rfl

end Model

/-! ### Runs -/

namespace Client

/-- The queue's counters and indexes are exact for the live permits, and no sum of theirs wraps. -/
structure Sound (c : Client T) : Prop where
  exact : Exact c.queue.inner
  reserved : c.queue.reservations = { items := c.permits.length, bytes := c.reservedBytes }
  own : ∀ p ∈ c.permits, p.reservations = c.queue.address
  words : c.cfg.Words
  bytes : c.bytes ≤ wordMax

def model (c : Client T) : Model T :=
  { cfg := c.cfg, address := c.queue.address, entries := c.queue.inner.entries.toList, permits := c.permits,
    nextSeq := c.queue.inner.nextSeq }

theorem mod_of_le {n : Nat} (h : n ≤ wordMax) : n % wordSize = n := Nat.mod_eq_of_lt (Nat.lt_of_le_pred (by decide) h)

theorem Sound.refines {c : Client T} (h : c.Sound) : ClientRefines c c.model := by
  refine ⟨⟨⟨h.exact, rfl, rfl, rfl⟩, rfl, ?_, h.own⟩, rfl⟩
  have reserved : c.reservedBytes ≤ wordMax := (Nat.le_add_left _ _).trans h.bytes
  rw [h.reserved]
  exact congrArg (Prod.mk _) (mod_of_le reserved).symm

theorem bytes_eq {c : Client T} {m : Model T} (h : ClientRefines c m) : c.bytes = m.totalBytes := by
  rw [bytes, total, h.queue.inner.entries, reservedBytes, h.permits, Model.totalBytes]

theorem items_eq {c : Client T} {m : Model T} (h : ClientRefines c m) : c.items = m.totalItems := by
  rw [items, h.queue.inner.size, h.permits, Model.totalItems]

theorem sound_of_refines {c : Client T} {m : Model T} (h : ClientRefines c m) (words : m.cfg.Words)
    (bytes : m.totalBytes ≤ wordMax) : c.Sound := by
  have reserved : c.reservedBytes ≤ wordMax := by
    rw [← bytes_eq h] at bytes
    exact (Nat.le_add_left _ _).trans bytes
  refine ⟨h.queue.inner.exact, ?_, ?_, ?_, bytes_eq h ▸ bytes⟩
  · refine Reservations.eq_of_load (h.queue.reserved.trans ?_)
    rw [Model.reserved, ← h.permits]
    exact congrArg (Prod.mk _) (mod_of_le reserved)
  · rw [h.permits, h.queue.address]
    exact h.queue.own
  · rw [cfg, h.queue.inner.cfg]
    exact words

/-- A permit given out: what is stored and reserved then is within the limits. -/
theorem Sound.tryReserveSeeing {c c' : Client T} (h : c.Sound) {seen : Nat × Nat} {size : Nat} {permit : Permit}
    (counts : c.Counts size) (sees : c.MaySee seen) (hr : c.tryReserveSeeing seen size = (.ok permit, c')) :
    c'.items ≤ c'.cfg.capacity ∧ c'.bytes ≤ c'.cfg.capacityBytes ∧ c'.Sound := by
  unfold Client.tryReserveSeeing at hr
  rcases LeaseQueue.tryReserveSeeing_cases h.exact seen size with ⟨full, answer, -⟩ | ⟨n, inner, answer, -, le, removed, stays⟩
  · rw [answer] at hr
    cases hr
  rw [answer] at hr
  obtain ⟨fits, fitsBytes⟩ := room_ok (tryReserveSeeing_room answer)
  cases hr
  have mirrors : Mirrors c.queue.inner c.model := h.refines.queue.inner
  have available : c.queue.inner.available.toList = c.model.unleased.map (·.1) := mirrors.available
  have mirrors' : Mirrors inner (c.model.sparing n) := by
    refine mirrors.removed _ removed fun s e _ => ?_
    rw [available]
    simp
  have capacity : inner.cfg = c.cfg := removed.cfg
  have left : inner.entries.size + n = c.queue.inner.entries.size := by
    rw [mirrors'.size, mirrors.size]
    exact Model.sparing_length mirrors.nodup_entries (by rwa [available, List.length_map] at le)
  have sizes : total inner.entries Entry.size = ((c.model.sparing n).entries.map (·.2.size)).sum := by
    rw [total, mirrors'.entries]
  have fewer : total inner.entries Entry.size ≤ total c.queue.inner.entries Entry.size :=
    sizes ▸ Model.sizes_le_of_sublist List.filter_sublist
  obtain ⟨seenItems, seenBytes⟩ := sees
  rw [h.reserved] at seenItems seenBytes
  have bounded : total c.queue.inner.entries Entry.size + c.reservedBytes ≤ wordMax := h.bytes
  rw [removed.exact.bytes, mod_of_le (by omega)] at fitsBytes
  rw [capacity] at fits fitsBytes
  have items : inner.entries.size + seen.1 < c.cfg.capacity := le_of_saturatingAdd_lt fits h.words.capacity
  dsimp only at seenItems seenBytes
  have within : total inner.entries Entry.size + (c.reservedBytes + size) ≤ c.cfg.capacityBytes := by
    rcases counts with below | ⟨above, full⟩ | staying
    · simp only [saturatingAdd, wordMax, wordSize] at fitsBytes below
      omega
    · exfalso
      rw [Client.excess, Client.items] at above
      rcases full with backpressure | leased
      · obtain ⟨rfl, -⟩ := stays (.inr backpressure)
        omega
      · rw [Inner.leased] at leased
        rw [ExtTreeSet.length_toList] at le
        omega
    · -- the byte limit may be `usize::MAX`, so only the item limit tells how many items were dropped
      have enough : c.excess ≤ n := by
        rw [Client.excess, Client.items]
        omega
      have spared := Model.sizes_le_of_sublist (c.model.sparing_sublist enough)
      rw [Client.stayingBytes, available] at staying
      have sparing : (c.model.sparing c.excess).entries = c.queue.inner.entries.toList.filter fun x =>
          x.1 ∉ (c.model.unleased.map (·.1)).take c.excess := by
        simp only [Model.sparing, Model.without, decide_not]
        rfl
      rw [sparing, ← sizes] at spared
      by_cases below : c.cfg.capacityBytes < wordMax
      · simp only [saturatingAdd, wordMax, wordSize] at fitsBytes below
        omega
      · omega
  set c' : Client T := {
    queue := { c.queue with inner, reservations := {
      items := c.queue.reservations.items + 1, bytes := wrappingAdd c.queue.reservations.bytes size } }
    permits := c.permits ++ [{ evicted := n, size, reservations := c.queue.address }] } with hc'
  have reserved : c'.reservedBytes = c.reservedBytes + size := by simp [hc', reservedBytes]
  have bytes : c'.bytes = total inner.entries Entry.size + (c.reservedBytes + size) := by rw [Client.bytes, reserved]
  have limit : c'.cfg.capacityBytes = c.cfg.capacityBytes := congrArg _ capacity
  refine ⟨?_, ?_, removed.exact, ?_, ?_, ?_, ?_⟩
  · rw [show c'.cfg = c.cfg from capacity]
    simp only [hc', Client.items, List.length_append, List.length_singleton]
    omega
  · rw [bytes, limit]
    exact within
  · have whole : wrappingAdd c.reservedBytes size = c.reservedBytes + size :=
      mod_of_le (by have := h.words.capacityBytes; omega)
    rw [reserved]
    simp only [hc', h.reserved, whole, List.length_append, List.length_singleton]
  · intro p hp
    rcases List.mem_append.mp hp with hp | hp
    · exact h.own p hp
    · rw [List.mem_singleton.mp hp]
  · rw [show c'.cfg = c.cfg from capacity]
    exact h.words
  · rw [bytes]
    exact within.trans h.words.capacityBytes

theorem Sound.step {c : Client T} (h : c.Sound) {op : Op T} (hop : ∀ size, op ≠ .tryReserve size)
    (words : (Move.call op).Words) : (step op c).2.Sound := by
  have refines := (step_refines op h.refines).2
  refine sound_of_refines refines ?_ ((Model.step_totalBytes hop c.model).trans (bytes_eq h.refines ▸ h.bytes))
  by_cases sets : ∃ cfg, op = .setConfig cfg
  · obtain ⟨cfg, rfl⟩ := sets
    exact words
  · rw [Model.step_cfg fun cfg heq => sets ⟨cfg, heq⟩]
    exact h.words

theorem step_tryReserve (c : Client T) (size : Nat) :
    (step (.tryReserve size) c).2 = (c.tryReserveSeeing c.queue.reservations.load size).2 := by
  simp only [step, LeaseQueue.tryReserve, Client.tryReserveSeeing]
  generalize c.queue.tryReserveSeeing c.queue.reservations.load size = answered
  obtain ⟨answer, queue⟩ := answered
  cases answer <;> rfl

theorem Sound.error {c : Client T} (h : c.Sound) {seen : Nat × Nat} {size : Nat} {full : Full}
    (hr : (c.tryReserveSeeing seen size).1 = .error full) : (c.tryReserveSeeing seen size).2 = c := by
  unfold Client.tryReserveSeeing at hr ⊢
  rcases LeaseQueue.tryReserveSeeing_cases h.exact seen size with ⟨full, answer, -⟩ | ⟨n, inner, answer, -⟩
  · rw [answer]
  · rw [answer] at hr
    cases hr

/-- Every move whose byte check is exact keeps the state sound. -/
theorem Sound.move {c : Client T} (h : c.Sound) {m : Move T} (words : m.Words) (counts : c.MoveCounts m) :
    (c.move m).Sound := by
  have reserve {seen : Nat × Nat} {size : Nat} (counts : c.Counts size) (sees : c.MaySee seen) :
      (c.tryReserveSeeing seen size).2.Sound := by
    cases hr : c.tryReserveSeeing seen size with
    | mk answer c' =>
      cases answer with
      | error full =>
        have := h.error (congrArg Prod.fst hr)
        rw [hr] at this
        exact this ▸ h
      | ok permit => exact (h.tryReserveSeeing counts sees hr).2.2
  cases m with
  | call op =>
    by_cases hop : ∃ size, op = .tryReserve size
    · obtain ⟨size, rfl⟩ := hop
      rw [Client.move, step_tryReserve]
      exact reserve counts ⟨le_rfl, le_rfl⟩
    · exact h.step (fun size heq => hop ⟨size, heq⟩) words
  | tryReserveSeeing seen size =>
    rw [Client.move]
    split
    · rename_i sees
      exact reserve counts sees
    · exact h

theorem Sound.moves {c : Client T} (h : c.Sound) {ms : List (Move T)} (words : ∀ m ∈ ms, m.Words)
    (counts : c.AllCount ms) : (c.moves ms).Sound := by
  induction ms generalizing c with
  | nil => exact h
  | cons m ms ih =>
    rw [List.forall_mem_cons] at words
    exact ih (h.move words.1 counts.1) words.2 counts.2

theorem sound_new (address : Nat) {cfg : QueueConfig} (words : cfg.Words) : (new (T := T) address cfg).Sound :=
  sound_of_refines (clientRefines_new address cfg) words (Nat.zero_le _)

theorem Sound.keepsCapacity {c : Client T} (h : c.Sound) : c.KeepsCapacity := by
  refine ⟨h.reserved, fun seen size permit c' counts sees hr => ?_, fun i item key ackId => ?_⟩
  · obtain ⟨items, bytes, -⟩ := h.tryReserveSeeing counts sees hr
    exact ⟨items, bytes⟩
  · have refines := (step_refines (.commit i item key ackId) h.refines).2
    obtain ⟨items, bytes⟩ := c.model.commit_totals i item key ackId
    rw [items_eq refines, bytes_eq refines, items_eq h.refines, bytes_eq h.refines]
    exact ⟨items.le, bytes.le⟩

/-- In every run of calls and of permits dropped meanwhile, as long as no byte sum saturates at a limit of
    `usize::MAX`: the reservation counters are the sums over the live permits; every permit given out leaves what is
    stored and reserved within the current limits; storing an item adds to neither total. -/
theorem moves_keepsCapacity (address : Nat) {cfg : QueueConfig} (words : cfg.Words) {ms : List (Move T)}
    (hms : ∀ m ∈ ms, m.Words) (counts : (new address cfg).AllCount ms) :
    ((new address cfg).moves ms).KeepsCapacity :=
  ((sound_new address words).moves hms counts).keepsCapacity

/-- A queue of two items that sets no limit to their bytes. -/
def unlimited : QueueConfig :=
  { capacity := 2, capacityBytes := wordMax, leaseTimeout := 0, ordering := .none, onFull := .backpressure }

theorem moves_keepsCapacity_unlimited :
    ((new (T := Unit) 0 unlimited).moves [.call (.tryReserve 1), .call (.dropPermit 0)]).KeepsCapacity := by
  refine moves_keepsCapacity 0 ⟨by decide, by decide⟩ ?_ ⟨.inr (.inr ?_), trivial, trivial⟩
  · simp [Move.Words]
  · decide

/-- Two permits of `usize::MAX` bytes each: the sum of their sizes saturates at the limit. -/
theorem unlimited_overbooks :
    ¬∀ (address : Nat) (cfg : QueueConfig), cfg.Words → ∀ ms : List (Move Unit), (∀ m ∈ ms, m.Words) →
      ∀ seen size permit c', size ≤ wordMax → ((new address cfg).moves ms).MaySee seen →
        ((new address cfg).moves ms).tryReserveSeeing seen size = (.ok permit, c') →
          c'.bytes ≤ c'.cfg.capacityBytes := by
  intro h
  have := h 0 unlimited ⟨by decide, by decide⟩ [.call (.tryReserve wordMax)] (by simp [Move.Words]) (1, wordMax) wordMax _ _ le_rfl
    ⟨by decide, by decide⟩ rfl
  revert this
  decide

end Client

end Tgin.Queue
