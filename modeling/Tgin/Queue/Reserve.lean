import Tgin.Queue.Operations

/-! Reserving room while permits are dropped elsewhere: whatever the reservation counters are read to be, room is
    found by evicting the oldest unleased entries, or nothing changes. -/

namespace Tgin.Queue
open Std (ExtTreeMap ExtTreeSet)
open Ordered (total)

variable {T : Type}

section
variable {q q' : Inner T}

/-- With nothing unleased, the leased entries are all there is. -/
theorem leased_of_available_nil (h : Exact q) (hq : q.available.toList = []) :
    q.leased = q.entries.size ∧ q.leasedBytes = q.bytes := by
  have empty : q.available.size = 0 := by rw [← ExtTreeSet.length_toList, hq, List.length_nil]
  refine ⟨by rw [Inner.leased, empty, Nat.sub_zero], ?_⟩
  rw [h.leasedBytes, h.bytes]
  congr 1
  refine Ordered.total_congr fun s e he => ?_
  have leased : e.lease ≠ none := fun hl => by
    have mem := ExtTreeSet.mem_toList.mpr ((h.indexes.available s).mpr ⟨e, he, hl⟩)
    rw [hq] at mem
    cases mem
  rw [Entry.leasedSize, if_pos (Option.isSome_iff_ne_none.mpr leased)]

/-- Removing the oldest unleased entry leaves the other unleased ones and what is leased. -/
theorem remove_oldest (h : Exact q) {seq : Nat} {seqs : List Nat} (hq : q.available.toList = seq :: seqs) :
    (∃ e, q.entries[seq]? = some e) ∧ Exact (q.remove seq).2 ∧ (q.remove seq).2.available.toList = seqs ∧
      (q.remove seq).2.leased = q.leased ∧ (q.remove seq).2.leasedBytes = q.leasedBytes ∧
      (q.remove seq).2.cfg = q.cfg := by
  have mem : seq ∈ q.available := ExtTreeSet.mem_toList.mp (hq ▸ List.mem_cons_self)
  obtain ⟨e, he, hl⟩ := (h.indexes.available seq).mp mem
  obtain ⟨-, hb⟩ := remove_becomes h he
  have sorted := ExtTreeSet.ordered_toList (t := q.available)
  have nodup := Ordered.set_toList_nodup (s := q.available)
  rw [hq] at sorted nodup
  have available : (q.remove seq).2.available.toList = seqs := by
    refine Ordered.set_toList_unique (List.pairwise_cons.mp sorted).2 fun s => ?_
    rw [hb.consistent.indexes.available, hb.entries, stores_erase, ← h.indexes.available, ← ExtTreeSet.mem_toList, hq,
      List.mem_cons]
    have notMem := (List.nodup_cons.mp nodup).1
    constructor
    · intro hs
      exact ⟨.inr hs, fun heq => notMem (heq ▸ hs)⟩
    · rintro ⟨rfl | hs, ne⟩
      · exact absurd rfl ne
      · exact hs
  refine ⟨⟨e, he⟩, hb.consistent, available, ?_, ?_, hb.cfg⟩
  · have before : q.available.size = seqs.length + 1 := by rw [← ExtTreeSet.length_toList, hq, List.length_cons]
    have after : (q.remove seq).2.available.size = seqs.length := by rw [← ExtTreeSet.length_toList, available]
    have size : (q.entries.erase seq).size = q.entries.size - 1 := by
      rw [ExtTreeMap.size_erase, if_pos (ExtTreeMap.contains_iff_mem.mpr (mem_entries.mpr ⟨e, he⟩))]
    rw [Inner.leased, Inner.leased, hb.entries, before, after, size, Nat.sub_sub, Nat.add_comm 1]
  · have zero : e.leasedSize = 0 := by simp [Entry.leasedSize, hl]
    rw [hb.consistent.leasedBytes, h.leasedBytes, hb.entries, ← Ordered.total_erase he Entry.leasedSize, zero, Nat.add_zero]

theorem room_congr (hcfg : q'.cfg = q.cfg) (reserved : Nat × Nat) (items bytes size : Nat) :
    q'.room reserved items bytes size = q.room reserved items bytes size := by
  rw [Inner.room, Inner.room, hcfg]

/-- The eviction loop finds room once the leased entries alone fit: it evicts some of the oldest unleased entries. -/
theorem evict_spec {reserved : Nat × Nat} {size : Nat} {seqs : List Nat} (h : Exact q) (hq : q.available.toList = seqs)
    (fits : q.room reserved q.leased q.leasedBytes size = .ok ()) (evicted : Nat) :
    ∃ n, (q.evict reserved size seqs.length evicted).1 = .ok (evicted + n) ∧
      Removed q (seqs.take n) (q.evict reserved size seqs.length evicted).2 ∧ n ≤ seqs.length := by
  induction seqs generalizing q evicted with
  | nil =>
    obtain ⟨items, bytes⟩ := leased_of_available_nil h hq
    rw [items, bytes] at fits
    rw [List.length_nil, Inner.evict, fits]
    exact ⟨0, rfl, removed_nil h, le_rfl⟩
  | cons seq seqs ih =>
    rw [List.length_cons, Inner.evict]
    cases q.room reserved q.entries.size q.bytes size with
    | ok _ => exact ⟨0, rfl, removed_nil h, Nat.zero_le _⟩
    | error full =>
      obtain ⟨⟨e, he⟩, exact', available, leased, leasedBytes, hcfg⟩ := remove_oldest h hq
      have fits' : (q.remove seq).2.room reserved (q.remove seq).2.leased (q.remove seq).2.leasedBytes size = .ok () := by
        rw [leased, leasedBytes, room_congr hcfg, fits]
      obtain ⟨n, result, removed, le⟩ := ih exact' available fits' (evicted + 1)
      rw [hq, List.head?_cons]
      refine ⟨n + 1, ?_, removed_cons h he removed, Nat.succ_le_succ le⟩
      exact result.trans (by rw [Nat.add_assoc, Nat.add_comm 1])

end

namespace LeaseQueue

/-- The queue has room for an item of `size` bytes as it stands. -/
def HasRoom (q : LeaseQueue T) (reserved : Nat × Nat) (size : Nat) : Prop :=
  size ≤ q.inner.cfg.capacityBytes ∧ q.inner.room reserved q.inner.entries.size q.inner.bytes size = .ok ()

instance (q : LeaseQueue T) (reserved : Nat × Nat) (size : Nat) : Decidable (q.HasRoom reserved size) :=
  inferInstanceAs (Decidable (_ ∧ _))

/-- The queue has no room for an item of `size` bytes, and may not or cannot make it. -/
def IsFull (q : LeaseQueue T) (reserved : Nat × Nat) (size : Nat) : Prop :=
  size ≤ q.inner.cfg.capacityBytes ∧ ¬q.HasRoom reserved size ∧
    (q.inner.cfg.onFull = .backpressure ∨ q.inner.room reserved q.inner.leased q.inner.leasedBytes size ≠ .ok ())

instance (q : LeaseQueue T) (reserved : Nat × Nat) (size : Nat) : Decidable (q.IsFull reserved size) :=
  inferInstanceAs (Decidable (_ ∧ _ ∧ (_ ∨ _)))

variable {q : LeaseQueue T}

theorem room_ne_tooLarge {inner : Inner T} {reserved : Nat × Nat} {items bytes size : Nat} {full : Full}
    (h : inner.room reserved items bytes size = .error full) : full ≠ .tooLarge := by
  rintro rfl
  unfold Inner.room at h
  split at h
  · cases h
  · split at h <;> cases h

/-- What asking for room does: there is none and nothing changes, or a permit is given out and the oldest unleased
    entries make room for it, none of them if there was room or the queue does not evict. -/
theorem tryReserveSeeing_cases (h : Exact q.inner) (reserved : Nat × Nat) (size : Nat) :
    (∃ full, q.tryReserveSeeing reserved size = (.error full, q) ∧
      (full = .tooLarge ∧ q.inner.cfg.capacityBytes < size ∨ full ≠ .tooLarge ∧ q.IsFull reserved size)) ∨
      ∃ n inner, q.tryReserveSeeing reserved size =
          (.ok { evicted := n, size, reservations := q.address }, { q with
            inner
            reservations := { items := q.reservations.items + 1, bytes := wrappingAdd q.reservations.bytes size } }) ∧
        size ≤ q.inner.cfg.capacityBytes ∧ n ≤ q.inner.available.toList.length ∧
        Removed q.inner (q.inner.available.toList.take n) inner ∧
        (q.HasRoom reserved size ∨ q.inner.cfg.onFull = .backpressure → n = 0 ∧ inner = q.inner) := by
  unfold tryReserveSeeing
  by_cases large : size > q.inner.cfg.capacityBytes
  · exact .inl ⟨.tooLarge, if_pos large, .inl ⟨rfl, large⟩⟩
  · rw [if_neg large]
    unfold makeRoom
    have fits := Nat.le_of_not_lt large
    cases hroom : q.inner.room reserved q.inner.entries.size q.inner.bytes size with
    | ok _ => exact .inr ⟨0, q.inner, rfl, fits, Nat.zero_le _, removed_nil h, fun _ => ⟨rfl, rfl⟩⟩
    | error full =>
      have noRoom : ¬q.HasRoom reserved size := fun hr => nomatch hroom.symm.trans hr.2
      dsimp only
      by_cases hfull : q.inner.cfg.onFull = .backpressure
      · rw [if_pos hfull]
        exact .inl ⟨full, rfl, .inr ⟨room_ne_tooLarge hroom, fits, noRoom, .inl hfull⟩⟩
      · rw [if_neg hfull]
        cases hleased : q.inner.room reserved q.inner.leased q.inner.leasedBytes size with
        | error full =>
          have cannot : q.inner.room reserved q.inner.leased q.inner.leasedBytes size ≠ .ok () :=
            fun hr => nomatch hleased.symm.trans hr
          exact .inl ⟨full, rfl, .inr ⟨room_ne_tooLarge hleased, fits, noRoom, .inr cannot⟩⟩
        | ok _ =>
          obtain ⟨n, result, removed, le⟩ := evict_spec h rfl hleased 0
          rw [ExtTreeSet.length_toList] at result removed
          dsimp only
          generalize q.inner.evict reserved size q.inner.available.size 0 = evicted at result removed ⊢
          obtain ⟨answer, inner⟩ := evicted
          obtain rfl : answer = .ok n := result.trans (by rw [Nat.zero_add])
          exact .inr ⟨n, inner, rfl, fits, le, removed, fun hr => hr.elim (absurd · noRoom) (absurd · hfull)⟩

/-- Storing an update in the room reserved for it. -/
theorem commit_own (h : Exact q.inner) {permit : Permit} (own : permit.reservations = q.address) (item : T)
    (key : Option Nat) (ackId : Int) :
    ∃ inner, q.commit permit item key ackId = (.ok q.inner.nextSeq, { q with
        inner, reservations := q.reservations.release permit.size, notified := q.notified + 1 }) ∧ Exact inner ∧
      inner.entries = q.inner.entries.insert q.inner.nextSeq { item, key, ackId, size := permit.size, lease := none } ∧
      inner.cfg = q.inner.cfg ∧ inner.nextSeq = q.inner.nextSeq + 1 := by
  have stored := store_exact h (e := { item, key, ackId, size := permit.size, lease := none }) rfl
  refine ⟨_, ?_, stored⟩
  unfold commit
  rw [if_neg (not_not_intro own)]
  rfl

theorem drainAll_exact (q : LeaseQueue T) : Exact q.drainAll.2.inner := by
  have empty := exact_new (T := T) q.address q.inner.cfg
  refine ⟨fun s hs => ?_, empty.indexes.of_eq rfl rfl rfl rfl, empty.eligible, empty.bytes, empty.leasedBytes⟩
  simp [drainAll] at hs

theorem setConfig_exact (h : Exact q.inner) (cfg : QueueConfig) : Exact (q.setConfig cfg).inner :=
  ⟨h.fresh, h.indexes.of_eq rfl rfl rfl rfl, h.eligible, h.bytes, h.leasedBytes⟩

end LeaseQueue

end Tgin.Queue
