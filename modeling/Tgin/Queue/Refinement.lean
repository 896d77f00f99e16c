import Tgin.Queue.Model
import Tgin.Queue.Operations

/-! The queue answers every call as the list of its entries does. `Mirrors` relates the two states; every
    operation keeps it, and with it the claim that all indexes are exactly what the entries imply. -/

namespace Tgin.Queue
open Std (ExtTreeMap ExtTreeSet)
open Ordered (Represents total)

variable {T : Type}

/-- `m` lists the entries of `q`, whose indexes are exact. -/
structure Mirrors (q : Inner T) (m : Model T) : Prop where
  exact : Exact q
  entries : q.entries.toList = m.entries
  cfg : q.cfg = m.cfg
  nextSeq : q.nextSeq = m.nextSeq

/-- `m` lists the entries of `q` and its live permits, all granted by `q`. -/
structure Refines (q : LeaseQueue T) (m : Model T) : Prop where
  inner : Mirrors q.inner m
  address : q.address = m.address
  reserved : q.reservations.load = m.reserved
  own : ∀ p ∈ m.permits, p.reservations = m.address

section
variable {q : Inner T} {m : Model T}

theorem Mirrors.mem (h : Mirrors q m) {s : Nat} {e : Entry T} : (s, e) ∈ m.entries ↔ q.entries[s]? = some e := by
  rw [← h.entries, ExtTreeMap.mem_toList_iff_getElem?_eq_some]

theorem Mirrors.stores (h : Mirrors q m) {P : Entry T → Prop} {s : Nat} :
    Stores q.entries P s ↔ ∃ e, (s, e) ∈ m.entries ∧ P e := by
  simp only [Stores, h.mem]

/-- The seqs of the entries that match `pred`, in order. -/
theorem Mirrors.seqs (h : Mirrors q m) {pred : Nat × Entry T → Bool} {l : List Nat}
    (sorted : l.Pairwise fun a b => compare a b = .lt) (hl : ∀ s, s ∈ l ↔ ∃ e, q.entries[s]? = some e ∧ pred (s, e)) :
    l = (m.entries.filter pred).map (·.1) := by
  rw [Ordered.keys_unique sorted hl, h.entries]

theorem Mirrors.nodup (h : Mirrors q m) (pred : Nat × Entry T → Bool) : ((m.entries.filter pred).map (·.1)).Nodup := by
  rw [← h.entries]
  exact Ordered.keys_nodup pred

theorem Mirrors.mem_seqs (h : Mirrors q m) {p : Nat × Entry T → Bool} {s : Nat} {e : Entry T}
    (he : q.entries[s]? = some e) : s ∈ (m.entries.filter p).map (·.1) ↔ p (s, e) := by
  simp only [List.mem_map, List.mem_filter, Prod.exists, exists_and_right, exists_eq_right, h.mem, he,
    Option.some.injEq, exists_eq_left']

theorem Mirrors.stored_of_mem_seqs (h : Mirrors q m) {p : Nat × Entry T → Bool} {s : Nat}
    (hs : s ∈ (m.entries.filter p).map (·.1)) : ∃ e, q.entries[s]? = some e ∧ p (s, e) := by
  obtain ⟨⟨s, e⟩, hx, rfl⟩ := List.mem_map.mp hs
  exact ⟨e, h.mem.mp (List.mem_filter.mp hx).1, (List.mem_filter.mp hx).2⟩

/-- Looking up some entries of the list by their seqs. -/
theorem Mirrors.lookup (h : Mirrors q m) {W : Type} {l : List (Nat × Entry T)} (hl : l.Sublist m.entries)
    (f : Nat → Entry T → W) :
    ((l.map (·.1)).filterMap fun s => q.entries[s]?.map (f s)) = l.map fun x => f x.1 x.2 :=
  Ordered.filterMap_keys (fun _ hx => h.mem.mp (hl.subset hx)) f

/-- Removing the entries that match `pred`. -/
theorem Mirrors.removed (h : Mirrors q m) (pred : Nat × Entry T → Bool) {seqs : List Nat} {q' : Inner T}
    (hr : Removed q seqs q') (hs : ∀ s e, q.entries[s]? = some e → (s ∈ seqs ↔ pred (s, e))) :
    Mirrors q' (m.without pred) := by
  refine ⟨hr.exact, ?_, hr.cfg.trans h.cfg, hr.nextSeq.trans h.nextSeq⟩
  rw [Ordered.toList_filter (m := q.entries) (p := fun s e => !pred (s, e)) fun s => ?_, h.entries]
  · rfl
  · rw [hr.entries]
    cases he : q.entries[s]? with
    | none => simp
    | some e =>
      have := hs s e he
      by_cases hp : pred (s, e) <;> simp [this, hp, Option.filter]

/-- Changing the entries that match `pred` by `f`. -/
theorem Mirrors.updated (h : Mirrors q m) (pred : Nat × Entry T → Bool) {f : Entry T → Entry T} {seqs : List Nat}
    {q' : Inner T} (hr : Updated q seqs f (fun _ => False) q')
    (hs : ∀ s e, q.entries[s]? = some e → (s ∈ seqs ↔ pred (s, e))) :
    Mirrors q' { m with entries := m.entries.map fun x => (x.1, if pred x then f x.2 else x.2) } := by
  refine ⟨hr.consistent, ?_, hr.cfg.trans h.cfg, hr.nextSeq.trans h.nextSeq⟩
  rw [Ordered.toList_map (m := q.entries) (f := fun s e => if pred (s, e) then f e else e) fun s => ?_, h.entries]
  rw [hr.entries]
  cases he : q.entries[s]? with
  | none => simp
  | some e =>
    have := hs s e he
    by_cases hp : pred (s, e) <;> simp [this, hp]

/-! ### Counts and bytes -/

theorem Mirrors.size (h : Mirrors q m) : q.entries.size = m.entries.length := by
  rw [← ExtTreeMap.length_toList, h.entries]

theorem Mirrors.available (h : Mirrors q m) : q.available.toList = m.unleased.map (·.1) :=
  h.seqs ExtTreeSet.ordered_toList fun s => by
    rw [ExtTreeSet.mem_toList, h.exact.indexes.available]
    simp only [Stores, Option.isNone_iff_eq_none]

theorem Mirrors.available_size (h : Mirrors q m) : q.available.size = m.unleased.length := by
  rw [← ExtTreeSet.length_toList, h.available, List.length_map]

theorem Model.length_split (m : Model T) : m.entries.length = m.unleased.length + m.leased.length := by
  simp only [Model.unleased, Model.leased, ← List.countP_eq_length_filter]
  rw [List.length_eq_countP_add_countP fun x : Nat × Entry T => x.2.lease.isNone]
  congr 2
  funext x
  cases x.2.lease <;> rfl

theorem Mirrors.leased (h : Mirrors q m) : q.leased = m.leased.length := by
  rw [Inner.leased, h.size, h.available_size, m.length_split]
  omega

theorem Mirrors.bytes (h : Mirrors q m) : q.bytes = Model.bytes m.entries := by
  rw [h.exact.bytes, total, h.entries, Model.bytes]

theorem sum_leasedSize (l : List (Nat × Entry T)) :
    (l.map fun x => x.2.leasedSize).sum = ((l.filter fun x => x.2.lease.isSome).map fun x => x.2.size).sum := by
  induction l with
  | nil => rfl
  | cons x l ih =>
    rw [List.map_cons, List.sum_cons, ih]
    by_cases hx : x.2.lease.isSome <;> simp [Entry.leasedSize, hx]

theorem Mirrors.leasedBytes (h : Mirrors q m) : q.leasedBytes = Model.bytes m.leased := by
  rw [h.exact.leasedBytes, total, h.entries, sum_leasedSize]
  rfl

theorem Mirrors.room (h : Mirrors q m) (size : Nat) :
    q.room m.reserved q.entries.size q.bytes size = m.room m.entries size := by
  rw [Inner.room, Model.room, h.size, h.bytes, h.cfg]

theorem Mirrors.room_leased (h : Mirrors q m) (size : Nat) :
    q.room m.reserved q.leased q.leasedBytes size = m.room m.leased size := by
  rw [Inner.room, Model.room, h.leased, h.leasedBytes, h.cfg]

/-! ### Reserving and committing -/

/-- One entry removed. -/
theorem Mirrors.remove (h : Mirrors q m) {seq : Nat} {e : Entry T} (he : q.entries[seq]? = some e) :
    Mirrors (q.remove seq).2 (m.without (·.1 = seq)) := by
  have hr := removed_cons h.exact he (removed_nil (remove_becomes h.exact he).2.consistent)
  exact h.removed _ hr fun s e _ => by simp

theorem Model.unleased_without (m : Model T) {seq : Nat} {seqs : List Nat} (hm : m.unleased.map (·.1) = seq :: seqs)
    (nodup : (m.unleased.map (·.1)).Nodup) : (m.without (·.1 = seq)).unleased.map (·.1) = seqs := by
  have hn := (List.nodup_cons.mp (hm ▸ nodup)).1
  have comm : (m.without (·.1 = seq)).unleased = m.unleased.filter fun x => x.1 ≠ seq := by
    simp only [Model.without, Model.unleased, List.filter_filter, Bool.and_comm, decide_not]
  rw [comm, show (fun x : Nat × Entry T => decide (x.1 ≠ seq)) = (fun s => decide (s ≠ seq)) ∘ (·.1) from rfl,
    ← List.filter_map, hm, List.filter_cons_of_neg (by simp)]
  refine List.filter_eq_self.mpr fun s hs => ?_
  have : s ≠ seq := fun heq => hn (heq ▸ hs)
  simpa using this

theorem Model.leased_without (m : Model T) {seq : Nat} (hs : seq ∈ m.unleased.map (·.1))
    (nodup : (m.entries.map (·.1)).Nodup) : (m.without (·.1 = seq)).leased = m.leased := by
  obtain ⟨⟨s, e⟩, hx, rfl⟩ := List.mem_map.mp hs
  obtain ⟨hx, hl⟩ := List.mem_filter.mp hx
  have comm : (m.without (·.1 = s)).leased = m.leased.filter fun x => !decide (x.1 = s) := by
    simp only [Model.without, Model.leased, List.filter_filter, Bool.and_comm]
  rw [comm, List.filter_eq_self]
  rintro ⟨s', e'⟩ hx'
  obtain ⟨hx', hl'⟩ := List.mem_filter.mp hx'
  have : s' ≠ s := by
    rintro rfl
    have := List.inj_on_of_nodup_map nodup hx hx' rfl
    rw [Prod.mk.injEq] at this
    rw [← this.2] at hl'
    simp only [Option.isNone_iff_eq_none] at hl
    simp [hl] at hl'
  simpa using this

theorem Mirrors.nodup_entries (h : Mirrors q m) : (m.entries.map (·.1)).Nodup := by
  have := h.nodup fun _ => true
  rwa [List.filter_true] at this

/-- The eviction loop drops what the list drops, and does find room: the leased entries alone fit. -/
theorem evict_mirrors {size : Nat} {seqs : List Nat} {q : Inner T} {m : Model T} (h : Mirrors q m)
    (room : m.room m.leased size = .ok ()) (hs : m.unleased.map (·.1) = seqs) (evicted : Nat) :
    (q.evict m.reserved size seqs.length evicted).1 = .ok (evicted + (m.evict size seqs).1) ∧
      Mirrors (q.evict m.reserved size seqs.length evicted).2 (m.evict size seqs).2 := by
  induction seqs generalizing q m evicted with
  | nil =>
    have all : m.entries = m.leased := by
      have none : m.unleased = [] := List.map_eq_nil_iff.mp hs
      refine (List.filter_eq_self.mpr fun x hx => ?_).symm
      have := List.filter_eq_nil_iff.mp none x hx
      cases hl : x.2.lease <;> simp [hl] at this ⊢
    rw [List.length_nil, Inner.evict, h.room, all, room]
    exact ⟨rfl, h⟩
  | cons seq seqs ih =>
    rw [List.length_cons, Inner.evict, h.room, Model.evict]
    cases hroom : m.room m.entries size with
    | ok _ => exact ⟨rfl, h⟩
    | error full =>
      have head : q.available.toList.head? = some seq := by rw [h.available, hs, List.head?_cons]
      obtain ⟨e, he, -⟩ := (h.exact.indexes.available seq).mp
        (ExtTreeSet.mem_toList.mp (List.mem_of_mem_head? head))
      have nodup : (m.unleased.map (·.1)).Nodup := h.nodup _
      have room' : (m.without (·.1 = seq)).room (m.without (·.1 = seq)).leased size = .ok () := by
        rw [m.leased_without (hs ▸ List.mem_cons_self) h.nodup_entries]
        exact room
      obtain ⟨hi, hm⟩ := ih (h.remove he) room' (m.unleased_without hs nodup) (evicted + 1)
      simp only [head]
      refine ⟨hi.trans ?_, hm⟩
      congr 1
      omega

theorem Model.evict_keeps (size : Nat) (seqs : List Nat) (m : Model T) :
    (m.evict size seqs).2.permits = m.permits ∧ (m.evict size seqs).2.address = m.address := by
  induction seqs generalizing m with
  | nil => exact ⟨rfl, rfl⟩
  | cons seq seqs ih =>
    rw [Model.evict]
    cases m.room m.entries size with
    | ok _ => exact ⟨rfl, rfl⟩
    | error _ => exact ih (m.without (·.1 = seq))

theorem Model.makeRoom_keeps (m : Model T) (size : Nat) :
    (m.makeRoom size).2.permits = m.permits ∧ (m.makeRoom size).2.address = m.address := by
  unfold Model.makeRoom
  split <;> first | exact ⟨rfl, rfl⟩ | exact m.evict_keeps size _

theorem makeRoom_mirrors (h : Mirrors q m) (size : Nat) :
    (LeaseQueue.makeRoom q m.reserved size).1 = (m.makeRoom size).1 ∧
      Mirrors (LeaseQueue.makeRoom q m.reserved size).2 (m.makeRoom size).2 := by
  unfold LeaseQueue.makeRoom Model.makeRoom
  rw [h.room, h.room_leased, h.cfg]
  cases m.room m.entries size with
  | ok _ => exact ⟨rfl, h⟩
  | error full =>
    cases m.cfg.onFull with
    | backpressure => exact ⟨rfl, h⟩
    | dropOldest =>
      cases hroom : m.room m.leased size with
      | error full => exact ⟨rfl, h⟩
      | ok _ =>
        have := evict_mirrors h hroom rfl 0
        rw [List.length_map, ← h.available_size, Nat.zero_add] at this
        exact this

end

section
variable {q : LeaseQueue T} {m : Model T}

theorem Refines.of_mirrors (h : Refines q m) {inner : Inner T} {m' : Model T} (hm : Mirrors inner m')
    (permits : m'.permits = m.permits) (address : m'.address = m.address) : Refines { q with inner } m' := by
  refine ⟨hm, h.address.trans address.symm, ?_, by rw [permits, address]; exact h.own⟩
  rw [Model.reserved, permits]
  exact h.reserved

theorem Refines.notified (h : Refines q m) (n : Nat) : Refines { q with notified := n } m :=
  ⟨h.inner, h.address, h.reserved, h.own⟩

theorem tryReserve_refines (h : Refines q m) (size : Nat) :
    (q.tryReserve size).1 = (m.tryReserve size).1 ∧ Refines (q.tryReserve size).2 (m.tryReserve size).2 := by
  obtain ⟨hr, hm⟩ := makeRoom_mirrors h.inner size
  obtain ⟨permits, address⟩ := m.makeRoom_keeps size
  unfold LeaseQueue.tryReserve LeaseQueue.tryReserveSeeing Model.tryReserve
  rw [h.reserved, h.inner.cfg]
  split
  · exact ⟨rfl, h⟩
  · generalize LeaseQueue.makeRoom q.inner m.reserved size = made at hr hm
    generalize m.makeRoom size = made' at hr hm permits address
    obtain ⟨r, inner⟩ := made
    obtain ⟨r', m'⟩ := made'
    dsimp only at hr hm permits address
    subst hr
    cases r with
    | error full => exact ⟨rfl, h.of_mirrors hm permits address⟩
    | ok evicted =>
      have reserved := h.reserved
      simp only [Reservations.load, Model.reserved, Prod.mk.injEq] at reserved
      dsimp only
      refine ⟨by rw [h.address, address], ⟨hm.exact, hm.entries, hm.cfg, hm.nextSeq⟩, h.address.trans address.symm, ?_, ?_⟩
      · simp only [Reservations.load, Model.reserved, permits, List.length_append, List.map_append, List.sum_append,
          reserved.1, reserved.2, ← wrappingAdd_mod]
        simp
      · intro p hp
        rcases List.mem_append.mp hp with hp | hp
        · rw [address]
          exact h.own p (permits ▸ hp)
        · rw [List.mem_singleton.mp hp]

theorem sum_eraseIdx {l : List Permit} {i : Nat} {permit : Permit} (hi : l[i]? = some permit) :
    ((l.eraseIdx i).map (·.size)).sum + permit.size = (l.map (·.size)).sum := by
  induction l generalizing i with
  | nil => simp at hi
  | cons p l ih =>
    cases i with
    | zero =>
      simp only [List.getElem?_cons_zero, Option.some.injEq] at hi
      simp [hi, Nat.add_comm]
    | succ i =>
      have := ih (by simpa using hi)
      simp only [List.eraseIdx_cons_succ, List.map_cons, List.sum_cons]
      omega

/-- Without the permit at `i`, the counters are those of the other permits. -/
theorem Refines.release (h : Refines q m) {i : Nat} {permit : Permit} (hi : m.permits[i]? = some permit) :
    (q.reservations.release permit.size).load = (m.permits.eraseIdx i |>.length, ((m.permits.eraseIdx i).map (·.size)).sum % wordSize) := by
  have reserved := h.reserved
  simp only [Reservations.load, Model.reserved, Prod.mk.injEq] at reserved
  have hlt : i < m.permits.length := (List.getElem?_eq_some_iff.mp hi).1
  simp only [Reservations.load, Reservations.release, reserved.1, reserved.2, ← sum_eraseIdx hi, wrappingSub_mod,
    List.length_eraseIdx, hlt, if_true]

theorem dropPermit_refines (h : Refines q m) {i : Nat} {permit : Permit} (hi : m.permits[i]? = some permit) :
    Refines (q.dropPermit permit) { m with permits := m.permits.eraseIdx i } :=
  ⟨⟨h.inner.exact, h.inner.entries, h.inner.cfg, h.inner.nextSeq⟩, h.address, h.release hi,
    fun p hp => h.own p (List.mem_of_mem_eraseIdx hp)⟩

theorem commit_refines (h : Refines q m) {i : Nat} {permit : Permit} (hi : m.permits[i]? = some permit) (item : T)
    (key : Option Nat) (ackId : Int) :
    (q.commit permit item key ackId).1 = .ok m.nextSeq ∧
      Refines (q.commit permit item key ackId).2 { m with
        entries := m.entries ++ [(m.nextSeq, { item, key, ackId, size := permit.size, lease := none })]
        permits := m.permits.eraseIdx i
        nextSeq := m.nextSeq + 1 } := by
  have own : permit.reservations = q.address := by
    rw [h.address]
    exact h.own permit (List.mem_of_getElem? hi)
  set e : Entry T := { item, key, ackId, size := permit.size, lease := none } with he
  have commit : q.commit permit item key ackId =
      (.ok q.inner.nextSeq, LeaseQueue.notifyWaiters { q.dropPermit permit with inner := store q.inner e }) := by
    unfold LeaseQueue.commit
    rw [if_neg (by simpa using own)]
    rfl
  obtain ⟨exact, entries, cfg, nextSeq⟩ := store_exact h.inner.exact (e := e) rfl
  rw [commit]
  refine ⟨by rw [h.inner.nextSeq], ⟨exact, ?_, cfg.trans h.inner.cfg, by rw [← h.inner.nextSeq]; exact nextSeq⟩,
    h.address, h.release hi, fun p hp => h.own p (List.mem_of_mem_eraseIdx hp)⟩
  have last : ∀ s ∈ q.inner.entries, compare s q.inner.nextSeq = .lt :=
    fun s hs => Nat.compare_eq_lt.mpr (h.inner.exact.fresh s hs)
  change (store q.inner e).entries.toList = _
  rw [entries, Ordered.toList_insert_last last, h.inner.entries, h.inner.nextSeq]

/-! ### Leasing -/

/-- The seqs `lease` chooses from are those of the entries that are ready. -/
theorem candidates_eq (h : Refines q m) :
    (match q.inner.cfg.ordering with
      | .none => q.inner.available
      | .perKey => q.inner.eligible).toList = (m.entries.filter m.ready).map (·.1) := by
  refine h.inner.seqs ExtTreeSet.ordered_toList fun s => ?_
  rw [ExtTreeSet.mem_toList, h.inner.cfg]
  unfold Model.ready
  cases m.cfg.ordering with
  | none =>
    dsimp only
    rw [h.inner.exact.indexes.available]
    simp [Stores]
  | perKey =>
    dsimp only
    rw [h.inner.exact.eligible]
    have all : ∀ e : Entry T, (m.entries.all fun y => e.key.isNone || y.2.key ≠ e.key || (y.2.lease.isNone && s ≤ y.1)) ↔
        ∀ key, e.key = some key → ∀ (s' : Nat) (e' : Entry T), q.inner.entries[s']? = some e' → e'.key = some key →
          e'.lease = none ∧ s ≤ s' := by
      intro e
      rw [List.all_eq_true]
      constructor
      · intro hall key hk s' e' he' hk'
        simpa [hk, hk'] using hall (s', e') (h.inner.mem.mpr he')
      · rintro hall ⟨s', e'⟩ hx
        cases hk : e.key with
        | none => rfl
        | some key =>
          by_cases hk' : e'.key = some key
          · have := hall key hk s' e' (h.inner.mem.mp hx) hk'
            simp [hk', this]
          · simp [hk']
    simp only [Bool.and_eq_true, Bool.or_eq_true, decide_eq_true_eq, reduceCtorEq, false_or, all,
      Option.isNone_iff_eq_none]
    constructor
    · rintro (⟨e, he, hl, hk⟩ | ⟨key, ⟨e, he, hl, hk⟩, hfirst⟩)
      · exact ⟨e, he, hl, fun key hk' => by simp [hk] at hk'⟩
      · refine ⟨e, he, hl, fun key' hk' => ?_⟩
        rw [hk, Option.some.injEq] at hk'
        exact hk' ▸ hfirst
    · rintro ⟨e, he, hl, hall⟩
      cases hk : e.key with
      | none => exact .inl ⟨e, he, hl, hk⟩
      | some key => exact .inr ⟨key, ⟨e, he, hl, hk⟩, hall key hk⟩

theorem Consistent.with_leases {q : Inner T} {unrecorded unrecorded' : Nat → Prop} (h : Consistent q unrecorded)
    {leases : ExtTreeMap HolderId (ExtTreeSet Nat)}
    (hl : Represents leases fun holder s => Stores q.entries (·.holds holder) s ∧ ¬ unrecorded' s) :
    Consistent { q with leases } unrecorded' :=
  ⟨h.fresh, ⟨h.indexes.available, h.indexes.queuedPerKey, h.indexes.leasedPerKey, hl⟩, h.eligible, h.bytes,
    h.leasedBytes⟩

theorem lease_eq (q : LeaseQueue T) (holder : HolderId) (max : Nat) (now : Instant) (picked : List Nat)
    (hp : ((match q.inner.cfg.ordering with
      | .none => q.inner.available
      | .perKey => q.inner.eligible).toList.take max) = picked) :
    q.lease holder max now =
      if picked.isEmpty then ([], q)
      else
        let result := picked.foldl
          (leaseLoop holder (Instant.checkedAdd now q.inner.cfg.leaseTimeout)) ([], q.inner)
        (result.1, { q with inner := { result.2 with
          leases := result.2.leases.insert holder (picked.foldl .insert (result.2.leases[holder]?.getD ∅)) } }) := by
  subst hp
  rfl

theorem lease_refines (h : Refines q m) (holder : HolderId) (max : Nat) (now : Instant) :
    (q.lease holder max now).1 = (m.lease holder max now).1 ∧
      Refines (q.lease holder max now).2 (m.lease holder max now).2 := by
  set pairs := (m.entries.filter m.ready).take max with hpairs
  have sub : pairs.Sublist (m.entries.filter m.ready) := List.take_sublist _ _
  have picked := lease_eq q holder max now (pairs.map (·.1)) (by rw [candidates_eq h, hpairs, List.map_take])
  rw [picked]
  unfold Model.lease
  rw [← hpairs]
  by_cases hnil : pairs = []
  · simp only [hnil, List.map_nil, List.isEmpty_nil, if_true, List.not_mem_nil, if_false, List.map_id']
    exact ⟨trivial, h⟩
  · rw [if_neg (by simpa using hnil)]
    have nodup : (pairs.map (·.1)).Nodup := (h.inner.nodup m.ready).sublist (sub.map _)
    have unleased : ∀ s ∈ pairs.map (·.1), Stores q.inner.entries (·.lease = none) s := by
      intro s hs
      obtain ⟨e, he, hr⟩ := h.inner.stored_of_mem_seqs ((sub.map _).subset hs)
      exact ⟨e, he, by simpa using (Bool.and_eq_true_iff.mp hr).1⟩
    obtain ⟨hlist, hleases, hu⟩ := foldl_leaseLoop nodup h.inner.exact unleased holder
      (Instant.checkedAdd now q.inner.cfg.leaseTimeout) []
    set result := (pairs.map (·.1)).foldl
      (leaseLoop holder (Instant.checkedAdd now q.inner.cfg.leaseTimeout)) ([], q.inner)
    refine ⟨?_, ?_⟩
    · rw [hlist, List.nil_append, h.inner.lookup (sub.trans List.filter_sublist) fun s e => e.toLease s]
    · have recorded : Represents
          (result.2.leases.insert holder ((pairs.map (·.1)).foldl .insert (result.2.leases[holder]?.getD ∅)))
          fun holder s => Stores result.2.entries (·.holds holder) s ∧ ¬ False := by
        refine (hu.consistent.indexes.leases.insertAll holder (pairs.map (·.1)) (by simpa using hnil)).congr
          fun holder' s => ?_
        by_cases hs : s ∈ pairs.map (·.1)
        · obtain ⟨e, he, -⟩ := unleased s hs
          have he' := hu.entries s
          rw [if_pos hs, he, Option.map_some] at he'
          simp [hs, stores_of he', Entry.holds, eq_comm]
        · simp [hs]
      have exact := hu.consistent.with_leases recorded
      have hm := h.inner.updated (fun x => x.1 ∈ pairs.map (·.1)) ⟨exact, hu.entries, hu.cfg, hu.nextSeq⟩
        fun s e _ => decide_eq_true_iff.symm
      rw [h.inner.cfg] at hm
      simp only [decide_eq_true_eq] at hm
      exact h.of_mirrors hm rfl rfl

theorem heldBy_iff {e : Entry T} {holder : HolderId} : e.heldBy holder ↔ e.holds holder := by
  cases h : e.lease <;> simp [Entry.heldBy, Entry.holds, h]

/-- The seqs of `leases` are those of the entries held. -/
theorem Mirrors.leases_of_some {q : Inner T} (h : Mirrors q m) {holder : HolderId} {seqs : ExtTreeSet Nat}
    (hs : q.leases[holder]? = some seqs) :
    seqs.toList = (m.entries.filter fun x => x.2.heldBy holder).map (·.1) := by
  refine h.seqs ExtTreeSet.ordered_toList fun s => ?_
  rw [ExtTreeSet.mem_toList, h.exact.indexes.leases.mem_of_some hs]
  simp only [Stores, heldBy_iff, not_false_eq_true, and_true]

theorem Mirrors.leases_of_none {q : Inner T} (h : Mirrors q m) {holder : HolderId} (hs : q.leases[holder]? = none) :
    ∀ x ∈ m.entries, x.2.heldBy holder = false := by
  rintro ⟨s, e⟩ hx
  by_contra hh
  rw [Bool.not_eq_false, heldBy_iff] at hh
  exact h.exact.indexes.leases.eq_none.mp hs s ⟨⟨e, h.mem.mp hx, hh⟩, id⟩

theorem held_eq (q : LeaseQueue T) (holder : HolderId) (minAckId : Int) (now : Instant) :
    q.held holder minAckId now =
      match q.inner.leases[holder]? with
      | none => ([], q)
      | some seqs =>
        let result := seqs.toList.foldl
          (heldLoop minAckId (Instant.checkedAdd now q.inner.cfg.leaseTimeout)) ([], q.inner)
        (result.1, { q with inner := result.2 }) := by
  unfold LeaseQueue.held
  cases q.inner.leases[holder]? with
  | none => rfl
  | some seqs =>
    dsimp only
    congr 2

theorem filterMap_unless {α β : Type} (p : α → Prop) [DecidablePred p] (f : α → β) (l : List α) :
    (l.filterMap fun x => if p x then none else some (f x)) = (l.filter fun x => !decide (p x)).map f := by
  induction l with
  | nil => rfl
  | cons x l ih => by_cases hp : p x <;> simp [hp, ih]

theorem held_refines (h : Refines q m) (holder : HolderId) (minAckId : Int) (now : Instant) :
    (q.held holder minAckId now).1 = (m.held holder minAckId now).1 ∧
      Refines (q.held holder minAckId now).2 (m.held holder minAckId now).2 := by
  rw [held_eq]
  unfold Model.held
  cases hs : q.inner.leases[holder]? with
  | none =>
    have none := h.inner.leases_of_none hs
    have empty : (m.entries.filter fun x => x.2.heldBy holder && minAckId ≤ x.2.ackId) = [] :=
      List.filter_eq_nil_iff.mpr fun x hx => by simp [none x hx]
    dsimp only
    rw [empty]
    refine ⟨rfl, ⟨⟨h.inner.exact, ?_, h.inner.cfg, h.inner.nextSeq⟩, h.address, h.reserved, h.own⟩⟩
    rw [h.inner.entries]
    conv_lhs => rw [← List.map_id m.entries]
    refine List.map_congr_left fun x hx => ?_
    simp [none x hx]
  | some seqs =>
    have keys := h.inner.leases_of_some hs
    have nodup := h.inner.nodup fun x => x.2.heldBy holder
    dsimp only
    rw [keys]
    obtain ⟨hlist, hu⟩ := foldl_heldLoop nodup h.inner.exact (fun s hs => mem_entries.mpr
      ((h.inner.stored_of_mem_seqs hs).imp fun _ he => he.1)) minAckId
      (Instant.checkedAdd now q.inner.cfg.leaseTimeout) []
    refine ⟨?_, ?_⟩
    · have lookup : ∀ x ∈ m.entries.filter (fun x => x.2.heldBy holder), q.inner.entries[x.1]? = some x.2 :=
        fun x hx => h.inner.mem.mp (List.mem_filter.mp hx).1
      rw [hlist, List.nil_append, List.filterMap_map, List.filterMap_congr fun x hx => by
        rw [Function.comp_apply, lookup x hx, Option.bind_some]]
      rw [filterMap_unless, List.filter_filter]
      congr 1
      refine List.filter_congr fun x _ => ?_
      by_cases hmin : x.2.ackId < minAckId
      · simp [hmin, not_le.mpr hmin]
      · simp [hmin, not_lt.mp hmin]
    · have hm := h.inner.updated (fun x => x.2.heldBy holder) hu fun s e he => h.inner.mem_seqs he
      have same : (m.entries.map fun x => (x.1, if x.2.heldBy holder then
            x.2.renewed minAckId (Instant.checkedAdd now q.inner.cfg.leaseTimeout) else x.2)) =
          m.entries.map fun x => (x.1, if (x.2.heldBy holder && decide (minAckId ≤ x.2.ackId)) = true then
            { x.2 with lease := some { holder, deadline := Instant.checkedAdd now m.cfg.leaseTimeout } } else x.2) := by
        rw [h.inner.cfg]
        refine List.map_congr_left fun x _ => ?_
        by_cases hh : x.2.heldBy holder
        · obtain ⟨holding, hl, rfl⟩ := heldBy_iff.mp hh
          by_cases hmin : x.2.ackId < minAckId
          · simp [hh, Entry.renewed, hmin, not_le.mpr hmin]
          · simp [hh, Entry.renewed, hmin, hl, not_lt.mp hmin]
        · simp [hh]
      rw [same] at hm
      exact h.of_mirrors hm rfl rfl

/-! ### Removing and releasing -/

theorem ackWhere_eq (q : LeaseQueue T) (holder : HolderId) (pred : Entry T → Bool) :
    ∃ notified, q.ackWhere holder pred =
      match q.inner.leases[holder]? with
      | none => ((0, []), q)
      | some seqs =>
        let acked := seqs.toList.filter fun seq => q.inner.entries[seq]?.any pred
        let result := acked.foldl ackLoop ([], false, q.inner)
        ((acked.length, result.1), { q with inner := result.2.2, notified }) := by
  unfold LeaseQueue.ackWhere
  cases q.inner.leases[holder]? with
  | none => exact ⟨0, rfl⟩
  | some seqs =>
    dsimp only
    split
    · exact ⟨q.notified + 1, rfl⟩
    · exact ⟨q.notified, rfl⟩

theorem ackWhere_refines (h : Refines q m) (holder : HolderId) (pred : Entry T → Bool) :
    (q.ackWhere holder pred).1 = (m.removeWhere fun x => x.2.heldBy holder && pred x.2).1 ∧
      Refines (q.ackWhere holder pred).2 (m.removeWhere fun x => x.2.heldBy holder && pred x.2).2 := by
  obtain ⟨notified, heq⟩ := ackWhere_eq q holder pred
  rw [heq]
  unfold Model.removeWhere
  cases hs : q.inner.leases[holder]? with
  | none =>
    have none := h.inner.leases_of_none hs
    have empty : (m.entries.filter fun x => x.2.heldBy holder && pred x.2) = [] :=
      List.filter_eq_nil_iff.mpr fun x hx => by simp [none x hx]
    have all : (m.entries.filter fun x => !(x.2.heldBy holder && pred x.2)) = m.entries :=
      List.filter_eq_self.mpr fun x hx => by simp [none x hx]
    rw [empty, Model.without, all]
    exact ⟨rfl, h⟩
  | some seqs =>
    have acked : (seqs.toList.filter fun seq => q.inner.entries[seq]?.any pred) =
        (m.entries.filter fun x => x.2.heldBy holder && pred x.2).map (·.1) := by
      refine h.inner.seqs (ExtTreeSet.ordered_toList.filter _) fun s => ?_
      rw [List.mem_filter, ExtTreeSet.mem_toList, h.inner.exact.indexes.leases.mem_of_some hs]
      cases he : q.inner.entries[s]? with
      | none => simp [not_stores he]
      | some e => simp [stores_of he, heldBy_iff]
    dsimp only
    rw [acked]
    obtain ⟨hi, hr⟩ := foldl_ackLoop (h.inner.nodup _) h.inner.exact (fun s hs => mem_entries.mpr
      ((h.inner.stored_of_mem_seqs hs).imp fun _ he => he.1)) [] false
    refine ⟨?_, ?_⟩
    · rw [hi, List.nil_append, h.inner.lookup List.filter_sublist fun _ e => e.item, List.length_map]
    · exact (h.of_mirrors (h.inner.removed _ hr fun s e he => h.inner.mem_seqs he) rfl rfl).notified notified

theorem Mirrors.holds_iff {q : Inner T} (h : Mirrors q m) {holder : HolderId} {seq : Nat} :
    q.holds holder seq ↔ Stores q.entries (·.holds holder) seq := by
  unfold Inner.holds
  cases hs : q.leases[holder]? with
  | none =>
    have := h.exact.indexes.leases.eq_none.mp hs seq
    simpa using this
  | some seqs => simp [h.exact.indexes.leases.mem_of_some hs]

/-- The entries stored under `seq` and held by `holder`: one, if `holder` leases it. -/
theorem Mirrors.filter_seq {q : Inner T} (h : Mirrors q m) (holder : HolderId) (seq : Nat) :
    (m.entries.filter fun x => x.1 = seq && x.2.heldBy holder).map (·.1) =
      if q.holds holder seq then [seq] else [] := by
  symm
  refine h.seqs ?_ fun s => ?_
  · split <;> simp
  · by_cases hh : q.holds holder seq
    · obtain ⟨e, he, hl⟩ := h.holds_iff.mp hh
      rw [if_pos hh, List.mem_singleton]
      constructor
      · rintro rfl
        exact ⟨e, he, by simpa [heldBy_iff] using hl⟩
      · rintro ⟨e, -, hs⟩
        simpa using (Bool.and_eq_true_iff.mp hs).1
    · rw [if_neg hh]
      simp only [List.not_mem_nil, false_iff]
      rintro ⟨e, he, hs⟩
      simp only [Bool.and_eq_true, decide_eq_true_eq, heldBy_iff] at hs
      exact hh (h.holds_iff.mpr (hs.1 ▸ ⟨e, he, hs.2⟩))

theorem Mirrors.length_filter_seq {q : Inner T} (h : Mirrors q m) (holder : HolderId) (seq : Nat) :
    (m.entries.filter fun x => x.1 = seq && x.2.heldBy holder).length = if q.holds holder seq then 1 else 0 := by
  rw [← List.length_map (·.1), h.filter_seq]
  split <;> rfl

theorem Mirrors.mem_filter_seq {q : Inner T} (h : Mirrors q m) {holder : HolderId} {seq : Nat}
    (hh : q.holds holder seq) {s : Nat} {e : Entry T} (he : q.entries[s]? = some e) :
    s ∈ [seq] ↔ (decide ((s, e).1 = seq) && (s, e).2.heldBy holder) = true := by
  rw [← h.mem_seqs (p := fun x => x.1 = seq && x.2.heldBy holder) he, h.filter_seq, if_pos hh]

theorem ackSeq_eq (q : LeaseQueue T) (holder : HolderId) (seq : Nat) :
    ∃ notified, q.ackSeq holder seq =
      if q.inner.holds holder seq then (true, { q with inner := (q.inner.remove seq).2, notified }) else (false, q) := by
  unfold LeaseQueue.ackSeq
  cases q.inner.holds holder seq with
  | false => exact ⟨0, rfl⟩
  | true =>
    simp only [Bool.not_true, Bool.false_eq_true, if_false, if_true]
    split
    · exact ⟨q.notified + 1, rfl⟩
    · exact ⟨q.notified, rfl⟩

theorem ackSeq_refines (h : Refines q m) (holder : HolderId) (seq : Nat) :
    (q.ackSeq holder seq).1 = decide ((m.removeWhere fun x => x.1 = seq && x.2.heldBy holder).1.1 = 1) ∧
      Refines (q.ackSeq holder seq).2 (m.removeWhere fun x => x.1 = seq && x.2.heldBy holder).2 := by
  obtain ⟨notified, heq⟩ := ackSeq_eq q holder seq
  rw [heq, Model.removeWhere, h.inner.length_filter_seq]
  by_cases hh : q.inner.holds holder seq
  · obtain ⟨e, he, -⟩ := h.inner.holds_iff.mp hh
    have hr := removed_cons h.inner.exact he (removed_nil (remove_becomes h.inner.exact he).2.consistent)
    have hm := h.inner.removed (fun x => x.1 = seq && x.2.heldBy holder) hr fun s e he =>
      h.inner.mem_filter_seq hh he
    rw [if_pos hh, if_pos hh]
    exact ⟨rfl, (h.of_mirrors hm rfl rfl).notified notified⟩
  · have none := h.inner.filter_seq holder seq
    rw [if_neg hh, List.map_eq_nil_iff, List.filter_eq_nil_iff] at none
    have all : (m.entries.filter fun x => !(decide (x.1 = seq) && x.2.heldBy holder)) = m.entries :=
      List.filter_eq_self.mpr fun x hx => by simpa [imp_iff_not_or] using none x hx
    rw [if_neg hh, if_neg hh, Model.without, all]
    exact ⟨rfl, h⟩

theorem releaseSeq_refines (h : Refines q m) (holder : HolderId) (seq : Nat) :
    (q.releaseSeq holder seq).1 = decide ((m.releaseWhere fun x => x.1 = seq && x.2.heldBy holder).1 = 1) ∧
      Refines (q.releaseSeq holder seq).2 (m.releaseWhere fun x => x.1 = seq && x.2.heldBy holder).2 := by
  unfold LeaseQueue.releaseSeq
  rw [Model.releaseWhere, h.inner.length_filter_seq]
  by_cases hh : q.inner.holds holder seq
  · obtain ⟨e, he, holding, hl, -⟩ := h.inner.holds_iff.mp hh
    have hb := requeue_becomes h.inner.exact he hl
    have hu := updated_cons (f := fun e => { e with lease := none }) he hb List.not_mem_nil
      (updated_nil hb.consistent _)
    have hm := h.inner.updated (fun x => x.1 = seq && x.2.heldBy holder) hu fun s e he =>
      h.inner.mem_filter_seq hh he
    rw [hh]
    exact ⟨rfl, (h.of_mirrors hm rfl rfl).notified (q.notified + 1)⟩
  · have none := h.inner.filter_seq holder seq
    rw [if_neg hh, List.map_eq_nil_iff, List.filter_eq_nil_iff] at none
    have same : (m.entries.map fun x => (x.1, if (decide (x.1 = seq) && x.2.heldBy holder) = true then
        { x.2 with lease := Option.none } else x.2)) = m.entries := by
      conv_rhs => rw [← List.map_id m.entries]
      refine List.map_congr_left fun x hx => ?_
      rw [if_neg (none x hx)]
      rfl
    rw [Bool.not_eq_true] at hh
    rw [hh, same]
    exact ⟨rfl, h⟩

/-- Every leased seq is listed once over all holders. -/
theorem Mirrors.leased_seqs {q : Inner T} (h : Mirrors q m) :
    (q.leases.toList.flatMap fun x => x.2.toList).Nodup ∧
      ∀ s, s ∈ q.leases.toList.flatMap (fun x => x.2.toList) ↔ Stores q.entries (·.lease.isSome) s := by
  have leases := h.exact.indexes.leases
  have lookup : ∀ x ∈ q.leases.toList, q.leases[x.1]? = some x.2 := fun x hx =>
    ExtTreeMap.mem_toList_iff_getElem?_eq_some.mp (show (x.1, x.2) ∈ _ from hx)
  refine ⟨List.nodup_flatMap.mpr ⟨fun x _ => Ordered.set_toList_nodup, ?_⟩, fun s => ?_⟩
  · refine ExtTreeMap.ordered_keys_toList.imp_of_mem fun {x y} hx hy hlt => ?_
    intro s hsx hsy
    rw [ExtTreeSet.mem_toList, leases.mem_of_some (lookup x hx)] at hsx
    rw [ExtTreeSet.mem_toList, leases.mem_of_some (lookup y hy)] at hsy
    obtain ⟨⟨e, he, holding, hl, hx⟩, -⟩ := hsx
    obtain ⟨holding', hl', hy⟩ := (stores_of he).mp hsy.1
    rw [hl, Option.some.injEq] at hl'
    rw [← hx, ← hy, hl'] at hlt
    simp at hlt
  · rw [List.mem_flatMap]
    constructor
    · rintro ⟨x, hx, hs⟩
      rw [ExtTreeSet.mem_toList, leases.mem_of_some (lookup x hx)] at hs
      obtain ⟨⟨e, he, holding, hl, -⟩, -⟩ := hs
      exact ⟨e, he, by simp [hl]⟩
    · rintro ⟨e, he, hl⟩
      obtain ⟨holding, hl⟩ := Option.isSome_iff_exists.mp hl
      obtain ⟨seqs, hseqs, hs⟩ := (leases.mem holding.holder s).mpr ⟨⟨e, he, holding, hl, rfl⟩, id⟩
      exact ⟨(holding.holder, seqs), ExtTreeMap.mem_toList_iff_getElem?_eq_some.mpr hseqs, ExtTreeSet.mem_toList.mpr hs⟩

theorem expire_refines (h : Refines q m) (now : Instant) :
    (q.expire now).1 = (m.releaseWhere fun x => (x.2.lease.bind (·.deadline)).any (· ≤ now)).1 ∧
      Refines (q.expire now).2 (m.releaseWhere fun x => (x.2.lease.bind (·.deadline)).any (· ≤ now)).2 := by
  set pred : Nat × Entry T → Bool := fun x => (x.2.lease.bind (·.deadline)).any (· ≤ now) with hpred
  obtain ⟨nodup, mem⟩ := h.inner.leased_seqs
  obtain ⟨due, ⟨notified, expire⟩, hdue⟩ : ∃ due : Nat → Bool,
      (∃ notified, q.expire now = (((q.inner.leases.toList.flatMap fun x => x.2.toList).filter due).length,
        { q with inner := ((q.inner.leases.toList.flatMap fun x => x.2.toList).filter due).foldl .requeue q.inner, notified })) ∧
      ∀ seq, due seq = ((q.inner.entries[seq]?.bind (·.lease)).bind (·.deadline)).any (· ≤ now) := by
    unfold LeaseQueue.expire
    dsimp only
    split
    · refine ⟨_, ⟨q.notified, rfl⟩, fun seq => ?_⟩
      split <;> rename_i eq <;> rw [eq] <;> rfl
    · refine ⟨_, ⟨q.notified + 1, rfl⟩, fun seq => ?_⟩
      split <;> rename_i eq <;> rw [eq] <;> rfl
  set expired := (q.inner.leases.toList.flatMap fun x => x.2.toList).filter due with hexpired
  have mem' : ∀ s (e : Entry T), q.inner.entries[s]? = some e → (s ∈ expired ↔ pred (s, e)) := by
    intro s e he
    rw [hexpired, List.mem_filter, mem, stores_of he, hdue, he]
    cases hl : e.lease with
    | none => simp [hpred, hl]
    | some holding => cases hd : holding.deadline <;> simp [hpred, hl, hd]
  have leased : ∀ s ∈ expired, Stores q.inner.entries (·.lease.isSome) s :=
    fun s hs => (mem s).mp (List.mem_filter.mp hs).1
  have perm : expired.Perm ((m.entries.filter pred).map (·.1)) := by
    refine (List.perm_ext_iff_of_nodup (nodup.filter _) (h.inner.nodup pred)).mpr fun s => ?_
    constructor
    · intro hs
      obtain ⟨e, he, -⟩ := leased s hs
      exact (h.inner.mem_seqs he).mpr ((mem' s e he).mp hs)
    · intro hs
      obtain ⟨e, he, hp⟩ := h.inner.stored_of_mem_seqs hs
      exact (mem' s e he).mpr hp
  have hu := foldl_requeue (nodup.filter _) h.inner.exact leased
  rw [expire, Model.releaseWhere]
  exact ⟨by rw [perm.length_eq, List.length_map], (h.of_mirrors (h.inner.updated pred hu mem') rfl rfl).notified notified⟩

theorem stats_refines (h : Refines q m) : q.stats = m.stats := by
  have reserved := h.reserved
  simp only [Reservations.load, Model.reserved, Prod.mk.injEq] at reserved
  simp only [LeaseQueue.stats, Model.stats, h.inner.available_size, h.inner.leased, h.inner.bytes, reserved.1]

/-- Without the unleased entries, the indexes of the unleased ones are empty and the others are unchanged. -/
theorem purge_removed {q : Inner T} (h : Exact q) :
    Removed q q.available.toList (q.available.toList.foldl purgeLoop
      { q with available := ∅, eligible := ∅, queuedPerKey := ∅ }) := by
  have unleased : ∀ s ∈ q.available.toList, Stores q.entries (·.lease = none) s :=
    fun s hs => (h.indexes.available s).mp (ExtTreeSet.mem_toList.mp hs)
  have hp := foldl_purgeLoop (q := { q with available := ∅, eligible := ∅, queuedPerKey := ∅ })
    Ordered.set_toList_nodup h.bytes unleased
  generalize q.available.toList.foldl purgeLoop
    { q with available := ∅, eligible := ∅, queuedPerKey := ∅ } = q' at hp
  have stored : ∀ (s : Nat) (e : Entry T), q'.entries[s]? = some e → q.entries[s]? = some e ∧ e.lease ≠ none := by
    intro s e he
    rw [hp.entries] at he
    split at he
    · cases he
    · rename_i hs
      refine ⟨he, fun hl => hs ?_⟩
      rw [ExtTreeSet.mem_toList, h.indexes.available]
      exact ⟨e, he, hl⟩
  have leased : ∀ P : Entry T → Prop, (∀ e, P e → e.lease ≠ none) → ∀ s, Stores q'.entries P s ↔ Stores q.entries P s := by
    intro P hP s
    constructor
    · rintro ⟨e, he, hpe⟩
      exact ⟨e, (stored s e he).1, hpe⟩
    · rintro ⟨e, he, hpe⟩
      refine ⟨e, ?_, hpe⟩
      rw [hp.entries, if_neg, he]
      rw [ExtTreeSet.mem_toList, h.indexes.available, stores_of he]
      exact hP e hpe
  have none : ∀ P : Entry T → Prop, (∀ e, P e → e.lease = none) → ∀ s, ¬ Stores q'.entries P s := by
    rintro P hP s ⟨e, he, hpe⟩
    exact (stored s e he).2 (hP e hpe)
  have hrest := hp.rest
  refine ⟨⟨fun s hs => ?_, ⟨fun s => ?_, ?_, fun key => ?_, ?_⟩, fun s => ?_, hp.bytes, ?_⟩, hp.entries, ?_, ?_⟩
  · obtain ⟨e, he⟩ := mem_entries.mp hs
    rw [hrest]
    exact h.fresh s (mem_entries.mpr ⟨e, (stored s e he).1⟩)
  · rw [hrest]
    simpa using none (·.lease = Option.none) (fun _ => id) s
  · rw [hrest]
    exact Represents.empty fun key s => none _ (fun e he => he.1) s
  · rw [hrest, hp.leased _ fun e hl => by simp [Entry.leasedOf, hl]]
    exact h.indexes.leasedPerKey key
  · rw [hrest]
    exact h.indexes.leases.congr fun holder s => by
      rw [leased _ (by rintro e ⟨holding, hl, -⟩; simp [hl])]
  · rw [hrest]
    simp [Eligible, none _ (fun (e : Entry T) (he : e.lease = Option.none ∧ e.key = Option.none) => he.1),
      FirstOf, none _ (fun (e : Entry T) (he : e.queuedOf _) => he.1)]
  · rw [hrest, hp.leased _ fun e hl => by simp [Entry.leasedSize, hl]]
    exact h.leasedBytes
  · rw [hrest]
  · rw [hrest]

theorem purge_refines (h : Refines q m) :
    q.purge.1 = (m.removeWhere fun x => x.2.lease.isNone).1.1 ∧
      Refines q.purge.2 (m.removeWhere fun x => x.2.lease.isNone).2 := by
  refine ⟨h.inner.available_size, ?_⟩
  have hm := h.inner.removed (fun x => x.2.lease.isNone) (purge_removed h.inner.exact) fun s e he => by
    rw [ExtTreeSet.mem_toList, h.inner.exact.indexes.available, stores_of he, Option.isNone_iff_eq_none]
  exact h.of_mirrors hm rfl rfl

theorem purgeWhere_refines (h : Refines q m) (pred : T → Bool) :
    (q.purgeWhere pred).1 = (m.removeWhere fun x => x.2.lease.isNone && pred x.2.item).1.1 ∧
      Refines (q.purgeWhere pred).2 (m.removeWhere fun x => x.2.lease.isNone && pred x.2.item).2 := by
  have matched : (q.inner.available.toList.filter fun seq => q.inner.entries[seq]?.any fun e => pred e.item) =
      (m.entries.filter fun x => x.2.lease.isNone && pred x.2.item).map (·.1) := by
    refine h.inner.seqs (ExtTreeSet.ordered_toList.filter _) fun s => ?_
    rw [List.mem_filter, ExtTreeSet.mem_toList, h.inner.exact.indexes.available]
    cases he : q.inner.entries[s]? with
    | none => simp [not_stores he]
    | some e => simp [stores_of he]
  unfold LeaseQueue.purgeWhere Model.removeWhere
  rw [matched]
  have hr := foldl_remove (h.inner.nodup _) h.inner.exact fun s hs => mem_entries.mpr
    ((h.inner.stored_of_mem_seqs (p := fun x => x.2.lease.isNone && pred x.2.item) hs).imp fun _ he => he.1)
  exact ⟨List.length_map _, h.of_mirrors (h.inner.removed _ hr fun s e he => h.inner.mem_seqs he) rfl rfl⟩

theorem drainAll_refines (h : Refines q m) :
    q.drainAll.1 = (m.removeWhere fun _ => true).1.2 ∧ Refines q.drainAll.2 (m.removeWhere fun _ => true).2 := by
  unfold LeaseQueue.drainAll Model.removeWhere Model.without
  simp only [Bool.not_true, List.filter_true, List.filter_false]
  have empty := exact_new (T := T) q.address q.inner.cfg
  refine ⟨by rw [h.inner.entries], h.of_mirrors ⟨⟨?_, ?_, empty.eligible, empty.bytes, empty.leasedBytes⟩, ?_, h.inner.cfg,
    h.inner.nextSeq⟩ rfl rfl⟩
  · simp
  · exact empty.indexes.of_eq rfl rfl rfl rfl
  · exact ExtTreeMap.toList_eq_nil_iff.mpr rfl

theorem setConfig_refines (h : Refines q m) (cfg : QueueConfig) : Refines (q.setConfig cfg) { m with cfg } :=
  have exact := h.inner.exact
  ⟨⟨⟨exact.fresh, exact.indexes.of_eq rfl rfl rfl rfl, exact.eligible, exact.bytes, exact.leasedBytes⟩, h.inner.entries, rfl,
    h.inner.nextSeq⟩, h.address, h.reserved, h.own⟩

end

/-! ### Runs -/

/-- `m` lists the entries of the queue and the live permits of its callers. -/
structure ClientRefines (c : Client T) (m : Model T) : Prop where
  queue : Refines c.queue m
  permits : c.permits = m.permits

theorem clientRefines_new (address : Nat) (cfg : QueueConfig) :
    ClientRefines (Client.new (T := T) address cfg) (Model.new address cfg) :=
  ⟨⟨⟨exact_new address cfg, ExtTreeMap.toList_eq_nil_iff.mpr rfl, rfl, rfl⟩, rfl, rfl, by simp [Model.new]⟩, rfl⟩

theorem Model.tryReserve_permits (m : Model T) (size : Nat) :
    (m.tryReserve size).2.permits =
      match (m.tryReserve size).1 with
      | .ok permit => m.permits ++ [permit]
      | .error _ => m.permits := by
  have keeps := (m.makeRoom_keeps size).1
  unfold Model.tryReserve
  split
  · rfl
  · generalize m.makeRoom size = r at keeps
    obtain ⟨r, m'⟩ := r
    cases r with
    | error full => exact keeps
    | ok evicted => simp only [show m'.permits = m.permits from keeps]

theorem step_refines (op : Op T) {c : Client T} {m : Model T} (h : ClientRefines c m) :
    (Client.step op c).1 = (Model.step op m).1 ∧ ClientRefines (Client.step op c).2 (Model.step op m).2 := by
  obtain ⟨q, permits⟩ := c
  obtain ⟨hq, rfl⟩ := h
  replace hq : Refines q m := hq
  cases op with
  | tryReserve size =>
    obtain ⟨hr, hm⟩ := tryReserve_refines hq size
    have permits := m.tryReserve_permits size
    simp only [Client.step, Model.step]
    generalize q.tryReserve size = r at hr hm
    generalize m.tryReserve size = r' at hr hm permits
    obtain ⟨r, q'⟩ := r
    obtain ⟨r', m'⟩ := r'
    dsimp only at hr hm permits
    subst hr
    cases r with
    | error full => exact ⟨rfl, hm, permits.symm⟩
    | ok permit => exact ⟨rfl, hm, permits.symm⟩
  | commit i item key ackId =>
    simp only [Client.step, Model.step]
    cases hi : m.permits[i]? with
    | none => exact ⟨rfl, hq, rfl⟩
    | some permit =>
      obtain ⟨hr, hm⟩ := commit_refines hq hi item key ackId
      exact ⟨congrArg Result.committed hr, hm, rfl⟩
  | commitForeign permit item key ackId =>
    simp only [Client.step, Model.step, hq.address]
    by_cases hp : permit.reservations = m.address
    · rw [if_pos hp, if_pos hp]
      exact ⟨rfl, hq, rfl⟩
    · have : q.commit permit item key ackId = (.error { permit, item }, q) := by
        rw [LeaseQueue.commit, if_pos (hq.address ▸ hp)]
      rw [if_neg hp, if_neg hp, this]
      exact ⟨rfl, hq, rfl⟩
  | dropPermit i =>
    simp only [Client.step, Model.step]
    cases hi : m.permits[i]? with
    | none =>
      rw [if_neg (not_lt.mpr (List.getElem?_eq_none_iff.mp hi))]
      exact ⟨rfl, hq, rfl⟩
    | some permit =>
      rw [if_pos (List.getElem?_eq_some_iff.mp hi).1]
      exact ⟨rfl, dropPermit_refines hq hi, rfl⟩
  | lease holder max now =>
    obtain ⟨hr, hm⟩ := lease_refines hq holder max now
    exact ⟨congrArg Result.leases hr, hm, rfl⟩
  | held holder minAckId now =>
    obtain ⟨hr, hm⟩ := held_refines hq holder minAckId now
    exact ⟨congrArg Result.leases hr, hm, rfl⟩
  | ackBelow holder ackId =>
    obtain ⟨hr, hm⟩ := ackWhere_refines hq holder fun e => e.ackId < ackId
    exact ⟨congrArg (fun r : Nat × List T => Result.acked r.1 r.2) hr, hm, rfl⟩
  | ackAll holder =>
    obtain ⟨hr, hm⟩ := ackWhere_refines hq holder fun _ => true
    simp only [Bool.and_true] at hr hm
    exact ⟨congrArg (fun r : Nat × List T => Result.acked r.1 r.2) hr, hm, rfl⟩
  | ackSeq holder seq =>
    obtain ⟨hr, hm⟩ := ackSeq_refines hq holder seq
    exact ⟨congrArg Result.found hr, hm, rfl⟩
  | releaseSeq holder seq =>
    obtain ⟨hr, hm⟩ := releaseSeq_refines hq holder seq
    exact ⟨congrArg Result.found hr, hm, rfl⟩
  | expire now =>
    obtain ⟨hr, hm⟩ := expire_refines hq now
    exact ⟨congrArg Result.count hr, hm, rfl⟩
  | stats => exact ⟨congrArg Result.stats (stats_refines hq), hq, rfl⟩
  | purge =>
    obtain ⟨hr, hm⟩ := purge_refines hq
    exact ⟨congrArg Result.count hr, hm, rfl⟩
  | countWhere pred =>
    refine ⟨congrArg Result.count ?_, hq, rfl⟩
    rw [LeaseQueue.countWhere, hq.inner.entries]
  | purgeWhere pred =>
    obtain ⟨hr, hm⟩ := purgeWhere_refines hq pred
    exact ⟨congrArg Result.count hr, hm, rfl⟩
  | drainAll =>
    obtain ⟨hr, hm⟩ := drainAll_refines hq
    exact ⟨congrArg Result.items hr, hm, rfl⟩
  | setConfig cfg => exact ⟨rfl, setConfig_refines hq cfg, rfl⟩

theorem run_clientRefines (address : Nat) (cfg : QueueConfig) (ops : List (Op T)) :
    (Client.run address cfg ops).1 = (Model.run address cfg ops).1 ∧
      ClientRefines (Client.run address cfg ops).2 (Model.run address cfg ops).2 :=
  Run.run_simulates (fun op _ _ h => step_refines op h) ops (clientRefines_new address cfg)

theorem Reservations.eq_of_load {r : Reservations} {items bytes : Nat} (h : r.load = (items, bytes)) :
    r = { items, bytes } := by
  obtain ⟨_, _⟩ := r
  cases h
  rfl

/-- Over every run of calls on a new queue, every call answers as the naive lists do, and afterwards the
    queue stores what they list while its indexes and counters are exactly what its entries and the live
    permits imply. -/
theorem run_matches_model (address : Nat) (cfg : QueueConfig) (ops : List (Op T)) :
    let (results, client) := Client.run address cfg ops
    let (expected, model) := Model.run address cfg ops
    results = expected ∧
      client.queue.inner.entries.toList = model.entries ∧ client.permits = model.permits ∧
      client.queue.inner.cfg = model.cfg ∧ client.queue.inner.nextSeq = model.nextSeq ∧
      Exact client.queue.inner ∧
      client.queue.reservations =
        { items := client.permits.length, bytes := (client.permits.map (·.size)).sum % wordSize } := by
  obtain ⟨hr, hq, hp⟩ := run_clientRefines address cfg ops
  refine ⟨hr, hq.inner.entries, hp, hq.inner.cfg, hq.inner.nextSeq, hq.inner.exact, ?_⟩
  exact Reservations.eq_of_load (hq.reserved.trans (by rw [Model.reserved, ← hp]; rfl))

end Tgin.Queue
