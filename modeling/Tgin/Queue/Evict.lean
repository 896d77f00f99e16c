import Tgin.Queue.Capacity

/-! What a full queue evicts for a reservation: nothing when it fails, else the oldest unleased entries, and the fewest of
    them that make room. -/

namespace Tgin.Queue
open Std (ExtTreeMap ExtTreeSet)

variable {T : Type}

namespace Inner

/-- The seqs of the unleased entries, the oldest first. -/
def unleasedSeqs (q : Inner T) : List Nat := (q.entries.toList.filter fun x => x.2.lease.isNone).map (·.1)

/-- The entries left without the `n` oldest unleased ones. -/
def rest (q : Inner T) (n : Nat) : List (Nat × Entry T) := q.entries.toList.filter fun x => x.1 ∉ q.unleasedSeqs.take n

/-- Whether one more item of `size` fits once the `n` oldest unleased entries are gone. -/
def FitsWithout (q : Inner T) (reserved : Nat × Nat) (size n : Nat) : Prop :=
  q.room reserved (q.rest n).length (Model.bytes (q.rest n)) size = .ok ()

end Inner

/-- Asking for room changes nothing when it fails. When it succeeds, what it reports evicted are the oldest unleased
    entries, the fewest of them that make room, and the other entries are as before. -/
def LeaseQueue.EvictsLeast (q : LeaseQueue T) (reserved : Nat × Nat) (size : Nat) : Prop :=
  match q.tryReserveSeeing reserved size with
  | (.error _, q') => q' = q
  | (.ok permit, q') =>
    permit.evicted ≤ q.inner.unleasedSeqs.length ∧ q'.inner.entries.toList = q.inner.rest permit.evicted ∧
      (∀ x ∈ q.inner.entries.toList, x.2.lease ≠ none → x ∈ q'.inner.entries.toList) ∧
      q.inner.FitsWithout reserved size permit.evicted ∧ ∀ n < permit.evicted, ¬q.inner.FitsWithout reserved size n

section
variable {q q' : Inner T}

theorem unleasedSeqs_eq (h : Exact q) : q.available.toList = q.unleasedSeqs := by
  refine Ordered.keys_unique ExtTreeSet.ordered_toList fun s => ?_
  rw [ExtTreeSet.mem_toList, h.indexes.available]
  simp only [Stores, Option.isNone_iff_eq_none]

theorem removed_rest (h : Exact q) {n : Nat} (removed : Removed q (q.available.toList.take n) q') :
    q'.entries.toList = q.rest n := by
  rw [unleasedSeqs_eq h] at removed
  rw [Ordered.toList_filter (m := q.entries) (p := fun s _ => s ∉ q.unleasedSeqs.take n) fun s => ?_]
  · rfl
  · rw [removed.entries]
    cases q.entries[s]? with
    | none => simp
    | some e => by_cases hs : s ∈ q.unleasedSeqs.take n <;> simp [hs, Option.filter]

/-- The room there is after some evictions is what the entries left say. -/
theorem fitsWithout_iff (h : Exact q) (reserved : Nat × Nat) (size : Nat) {n : Nat}
    (removed : Removed q (q.available.toList.take n) q') :
    q.FitsWithout reserved size n ↔ q'.room reserved q'.entries.size q'.bytes size = .ok () := by
  have rest := removed_rest h removed
  rw [Inner.FitsWithout, ← room_congr removed.cfg, ← rest, ExtTreeMap.length_toList]
  rw [removed.exact.bytes]
  rfl

theorem exists_removed (h : Exact q) (n : Nat) : ∃ q', Removed q (q.available.toList.take n) q' := by
  refine ⟨_, foldl_remove (Ordered.set_toList_nodup.sublist (List.take_sublist n _)) h fun s hs => ?_⟩
  obtain ⟨e, he, -⟩ := (h.indexes.available s).mp (ExtTreeSet.mem_toList.mp (List.mem_of_mem_take hs))
  exact mem_entries.mpr ⟨e, he⟩

/-- Removing one entry, then others. -/
theorem removed_tail (h : Exact q) {seq : Nat} {e : Entry T} (he : q.entries[seq]? = some e) {seqs : List Nat}
    (removed : Removed q (seq :: seqs) q') : Removed (q.remove seq).2 seqs q' := by
  obtain ⟨-, hb⟩ := remove_becomes h he
  refine ⟨removed.exact, fun s => ?_, removed.cfg.trans hb.cfg.symm, removed.nextSeq.trans hb.nextSeq.symm⟩
  rw [removed.entries, hb.entries]
  by_cases hs : s = seq
  · simp [hs]
  · rw [Ordered.getElem?_erase_of_ne hs]
    simp [hs]

theorem room_removed_nil (h : Exact q) (removed : Removed q [] q') (reserved : Nat × Nat) (size : Nat) :
    q'.room reserved q'.entries.size q'.bytes size = q.room reserved q.entries.size q.bytes size := by
  have entries : q'.entries = q.entries := ExtTreeMap.ext_getElem? fun s => by rw [removed.entries, if_neg List.not_mem_nil]
  rw [room_congr removed.cfg, removed.exact.bytes, h.bytes, entries]

/-- The eviction loop stops as soon as there is room. -/
theorem evict_least {reserved : Nat × Nat} {size : Nat} {seqs : List Nat} (h : Exact q) (hq : q.available.toList = seqs)
    {evicted n : Nat} (result : q.evict reserved size seqs.length evicted = (.ok n, q')) :
    q'.room reserved q'.entries.size q'.bytes size = .ok () ∧
      ∀ j, evicted + j < n → ∀ p, Removed q (seqs.take j) p → p.room reserved p.entries.size p.bytes size ≠ .ok () := by
  induction seqs generalizing q evicted with
  | nil =>
    rw [List.length_nil, Inner.evict] at result
    cases hroom : q.room reserved q.entries.size q.bytes size with
    | ok _ =>
      rw [hroom] at result
      cases result
      exact ⟨hroom, fun j hj => absurd hj (Nat.not_lt.mpr (Nat.le_add_right ..))⟩
    | error full =>
      rw [hroom] at result
      cases result
  | cons seq seqs ih =>
    rw [List.length_cons, Inner.evict] at result
    cases hroom : q.room reserved q.entries.size q.bytes size with
    | ok _ =>
      rw [hroom] at result
      cases result
      exact ⟨hroom, fun j hj => absurd hj (Nat.not_lt.mpr (Nat.le_add_right ..))⟩
    | error full =>
      obtain ⟨⟨e, he⟩, exact', available, -⟩ := remove_oldest h hq
      rw [hroom, hq, List.head?_cons] at result
      obtain ⟨found, least⟩ := ih exact' available result
      refine ⟨found, fun j hj p removed => ?_⟩
      cases j with
      | zero =>
        rw [room_removed_nil h removed, hroom]
        rintro ⟨⟩
      | succ j => exact least j (by omega) p (removed_tail h he removed)

/-- A leased entry is not among the unleased ones. -/
theorem leased_stays (h : Exact q) {n : Nat} (removed : Removed q (q.available.toList.take n) q') {x : Nat × Entry T}
    (hx : x ∈ q.entries.toList) (leased : x.2.lease ≠ none) : x ∈ q'.entries.toList := by
  obtain ⟨s, e⟩ := x
  rw [ExtTreeMap.mem_toList_iff_getElem?_eq_some] at hx ⊢
  have unlisted : s ∉ q.available.toList.take n := by
    intro hs
    obtain ⟨e', he', unleased⟩ := (h.indexes.available s).mp (ExtTreeSet.mem_toList.mp (List.mem_of_mem_take hs))
    obtain rfl := Option.some.inj (hx.symm.trans he')
    exact leased unleased
  rw [removed.entries, if_neg unlisted, hx]

end

/-- Whatever the reservation counters are read to be, a queue evicts the fewest of its oldest unleased entries. -/
theorem evictsLeast_of_exact {q : LeaseQueue T} (h : Exact q.inner) (reserved : Nat × Nat) (size : Nat) :
    q.EvictsLeast reserved size := by
  have granted {n : Nat} {inner : Inner T} (le : n ≤ q.inner.available.toList.length)
      (removed : Removed q.inner (q.inner.available.toList.take n) inner)
      (found : inner.room reserved inner.entries.size inner.bytes size = .ok ())
      (least : ∀ j < n, ∀ p, Removed q.inner (q.inner.available.toList.take j) p →
        p.room reserved p.entries.size p.bytes size ≠ .ok ()) :
      n ≤ q.inner.unleasedSeqs.length ∧ inner.entries.toList = q.inner.rest n ∧
        (∀ x ∈ q.inner.entries.toList, x.2.lease ≠ none → x ∈ inner.entries.toList) ∧
        q.inner.FitsWithout reserved size n ∧ ∀ j < n, ¬q.inner.FitsWithout reserved size j := by
    refine ⟨unleasedSeqs_eq h ▸ le, removed_rest h removed, fun x => leased_stays h removed,
      (fitsWithout_iff h reserved size removed).mpr found, fun j hj fits => ?_⟩
    obtain ⟨p, removed⟩ := exists_removed h j
    exact least j hj p removed ((fitsWithout_iff h reserved size removed).mp fits)
  unfold LeaseQueue.EvictsLeast LeaseQueue.tryReserveSeeing
  by_cases large : size > q.inner.cfg.capacityBytes
  · rw [if_pos large]
  · rw [if_neg large]
    unfold LeaseQueue.makeRoom
    cases hroom : q.inner.room reserved q.inner.entries.size q.inner.bytes size with
    | ok _ => exact granted (Nat.zero_le _) (removed_nil h) hroom nofun
    | error full =>
      dsimp only
      by_cases hfull : q.inner.cfg.onFull = .backpressure
      · rw [if_pos hfull]
      · rw [if_neg hfull]
        cases hleased : q.inner.room reserved q.inner.leased q.inner.leasedBytes size with
        | error full => rfl
        | ok _ =>
          obtain ⟨n, result, removed, le⟩ := evict_spec h rfl hleased 0
          rw [ExtTreeSet.length_toList] at result removed
          dsimp only
          rcases heq : q.inner.evict reserved size q.inner.available.size 0 with ⟨answer, inner⟩
          rw [heq] at result removed
          obtain rfl : answer = .ok n := result.trans (by rw [Nat.zero_add])
          rw [← ExtTreeSet.length_toList] at heq
          obtain ⟨found, least⟩ := evict_least h rfl heq
          exact granted le removed found fun j hj => least j (by rwa [Nat.zero_add])

/-- So it does in every state that calls bring a new queue to. -/
theorem run_evictsLeast (address : Nat) (cfg : QueueConfig) (ops : List (Op T)) (reserved : Nat × Nat) (size : Nat) :
    (Client.run address cfg ops).2.queue.EvictsLeast reserved size :=
  evictsLeast_of_exact (run_clientRefines address cfg ops).2.queue.inner.exact reserved size

end Tgin.Queue
