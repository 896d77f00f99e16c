import Tgin.Queue.Conservation

/-! Nobody sleeps next to an item it may lease: a call after which an item may be leased, where none could be
    before, wakes the waiters. -/

namespace Tgin.Queue
open Std (ExtTreeMap ExtTreeSet)

variable {T : Type}

/-- Nothing may be leased. -/
def Model.Idle (m : Model T) : Prop := ∀ x ∈ m.entries, ¬m.ready x

/-- `m'` has no unleased entry that `m` lacks, and under `Ordering.perKey` no key got rid of its leased entries. -/
structure Quieter (m m' : Model T) : Prop where
  ordering : m'.cfg.ordering = m.cfg.ordering
  back : ∀ x' ∈ m'.entries, ∃ x ∈ m.entries, x.1 = x'.1 ∧ x.2.key = x'.2.key ∧ (x'.2.lease = none → x.2.lease = none)
  forth : m.cfg.ordering = .perKey → ∀ y ∈ m.entries, ∀ key, y.2.leasedWith key → ∃ y' ∈ m'.entries, y'.2.leasedWith key

section
variable {m m' : Model T}

/-- The oldest entry of a key. -/
theorem exists_oldest {entries : List (Nat × Entry T)} {key : Nat} {x : Nat × Entry T} (hx : x ∈ entries)
    (hk : x.2.key = some key) :
    ∃ z ∈ entries, z.2.key = some key ∧ ∀ y ∈ entries, y.2.key = some key → z.1 ≤ y.1 := by
  classical
  have some : ∃ n, ∃ z ∈ entries, z.2.key = some key ∧ z.1 = n := ⟨x.1, x, hx, hk, rfl⟩
  obtain ⟨z, hz, hzk, first⟩ := Nat.find_spec some
  exact ⟨z, hz, hzk, fun y hy hyk => first ▸ Nat.find_min' some ⟨y, hy, hyk, rfl⟩⟩

theorem Quieter.idle (h : Quieter m m') (idle : m.Idle) : m'.Idle := by
  intro x' hx' ready
  obtain ⟨x, hx, -, key, unleased⟩ := h.back x' hx'
  have free := Option.isNone_iff_eq_none.mp (Bool.and_eq_true_iff.mp ready).1
  cases ho : m.cfg.ordering with
  | none => exact idle x hx (by simp [Model.ready, ho, unleased free])
  | perKey =>
    cases hk : x'.2.key with
    | none => exact idle x hx (by simp [Model.ready, unleased free, key, hk])
    | some k =>
      obtain ⟨z, hz, hzk, oldest⟩ := exists_oldest hx (key.trans hk)
      have all (y) (hy : y ∈ m.entries) (hyk : y.2.key = some k) : y.2.lease = none := by
        by_contra leased
        obtain ⟨y', hy', leased'⟩ := h.forth ho y hy k ⟨Option.isSome_iff_ne_none.mpr leased, hyk⟩
        have := (ready_perKey (h.ordering.trans ho) ready hk hy' leased'.2).1
        exact absurd leased'.1 (by simp [this])
      refine idle z hz (Bool.and_eq_true_iff.mpr ⟨by simp [all z hz hzk], ?_⟩)
      rw [Bool.or_eq_true, List.all_eq_true]
      refine .inr fun y hy => ?_
      by_cases hyk : y.2.key = some k
      · simp [hzk, hyk, all y hy hyk, oldest y hy hyk]
      · simp [hzk, hyk]

theorem quieter_of_mirrors {q : Inner T} (h : Mirrors q m) (h' : Mirrors q m') : Quieter m m' := by
  have entries : m'.entries = m.entries := h'.entries.symm.trans h.entries
  refine ⟨by rw [← h'.cfg, h.cfg], fun x' hx' => ⟨x', entries ▸ hx', rfl, rfl, id⟩, fun _ y hy key hk => ⟨y, ?_, hk⟩⟩
  rw [entries]
  exact hy

/-- Dropping entries, none of them the leased entry of a key. -/
theorem quieter_without (m : Model T) (pred : Nat × Entry T → Bool)
    (unkeyed : m.cfg.ordering = .perKey → ∀ y ∈ m.entries, pred y → y.2.lease = none ∨ y.2.key = none) :
    Quieter m (m.without pred) := by
  refine ⟨rfl, fun x' hx' => ⟨x', (List.mem_filter.mp hx').1, rfl, rfl, id⟩, fun ho y hy key hk => ⟨y, ?_, hk⟩⟩
  refine List.mem_filter.mpr ⟨hy, ?_⟩
  by_contra dropped
  rcases unkeyed ho y hy (by simpa using dropped) with lease | none
  · simp [Entry.leasedWith, lease] at hk
  · simp [Entry.leasedWith, none] at hk

/-- Leasing entries, or leasing them again. -/
theorem quieter_lease (m : Model T) (p : Nat × Entry T → Prop) [DecidablePred p] (holding : Holding) :
    Quieter m { m with entries := m.entries.map fun x => (x.1, if p x then { x.2 with lease := some holding } else x.2) } := by
  refine ⟨rfl, fun x' hx' => ?_, fun _ y hy key hk => ⟨_, List.mem_map_of_mem hy, ?_⟩⟩
  · obtain ⟨x, hx, rfl⟩ := List.mem_map.mp hx'
    refine ⟨x, hx, rfl, ?_, ?_⟩ <;> dsimp only <;> split <;> simp
  · dsimp only
    split
    · exact ⟨rfl, hk.2⟩
    · exact hk

end

/-! ### Which calls wake the waiters -/

/-- `q'` woke the waiters of `q`, or it did not and stores the same. -/
def WakesOrKeeps (q q' : LeaseQueue T) : Prop := q.notified < q'.notified ∨ q'.notified = q.notified ∧ q'.inner = q.inner

theorem ackLoop_keyless {seqs : List Nat} (nodup : seqs.Nodup) {q : Inner T} (h : Exact q)
    (hs : ∀ s ∈ seqs, s ∈ q.entries) {items : List T} {freed : Bool}
    (keyless : (seqs.foldl ackLoop (items, freed, q)).2.1 = false) :
    freed = false ∧ ∀ s ∈ seqs, ∀ e, q.entries[s]? = some e → e.key = none := by
  induction seqs generalizing q items freed with
  | nil => exact ⟨keyless, nofun⟩
  | cons seq seqs ih =>
    obtain ⟨hn, nodup⟩ := List.nodup_cons.mp nodup
    obtain ⟨e, he⟩ := mem_entries.mp (hs seq List.mem_cons_self)
    obtain ⟨hr, hb⟩ := remove_becomes h he
    have step : ackLoop (items, freed, q) seq = (items ++ [e.item], freed || e.key.isSome, (q.remove seq).2) := by
      rw [ackLoop, show q.remove seq = ((q.remove seq).1, (q.remove seq).2) from rfl, hr]
    have stored : ∀ s ∈ seqs, (q.remove seq).2.entries[s]? = q.entries[s]? := fun s => stored_after_remove h he hn
    rw [List.foldl_cons, step] at keyless
    obtain ⟨freed, rest⟩ := ih nodup hb.consistent (fun s hs' => by
      rw [← ExtTreeMap.isSome_getElem?_iff_mem, stored s hs', ExtTreeMap.isSome_getElem?_iff_mem]
      exact hs s (List.mem_cons_of_mem _ hs')) keyless
    rw [Bool.or_eq_false_iff] at freed
    refine ⟨freed.1, fun s hs' e' he' => ?_⟩
    rcases List.mem_cons.mp hs' with rfl | hs'
    · rw [he, Option.some.injEq] at he'
      simpa [he'] using freed.2
    · exact rest s hs' e' (by rw [stored s hs', he'])

section
variable {q : LeaseQueue T} {m : Model T}

theorem ackWhere_wakes (h : Refines q m) (holder : HolderId) (pred : Entry T → Bool) :
    q.notified < (q.ackWhere holder pred).2.notified ∨ (q.ackWhere holder pred).2.notified = q.notified ∧
      Quieter m (m.removeWhere fun x => x.2.heldBy holder && pred x.2).2 := by
  have refines := (ackWhere_refines h holder pred).2.inner
  unfold LeaseQueue.ackWhere at refines ⊢
  cases hs : q.inner.leases[holder]? with
  | none =>
    rw [hs] at refines
    exact .inr ⟨rfl, quieter_of_mirrors h.inner refines⟩
  | some seqs =>
    dsimp only
    set acked := seqs.toList.filter fun seq => q.inner.entries[seq]?.any pred with hacked
    have mem (s : Nat) (hs' : s ∈ acked) : s ∈ q.inner.entries := by
      obtain ⟨-, hp⟩ := List.mem_filter.mp hs'
      rw [← ExtTreeMap.isSome_getElem?_iff_mem]
      cases he : q.inner.entries[s]? with
      | none => simp [he] at hp
      | some e => rfl
    have nodup : acked.Nodup := (ExtTreeSet.ordered_toList.imp fun hlt heq => by simp [heq] at hlt).filter _
    change q.notified < (if (acked.foldl ackLoop ([], false, q.inner)).2.1 && _ then _ else _ : LeaseQueue T).notified ∨
      (if (acked.foldl ackLoop ([], false, q.inner)).2.1 && _ then _ else _ : LeaseQueue T).notified = q.notified ∧ _
    obtain ⟨-, removed⟩ := foldl_ackLoop nodup h.inner.exact mem [] false
    split
    · exact .inl (Nat.lt_succ_self _)
    · rename_i silent
      refine .inr ⟨rfl, quieter_without m _ fun ho y hy acks => .inr ?_⟩
      have keyless : (acked.foldl ackLoop ([], false, q.inner)).2.1 = false := by
        by_contra freed
        have cfg : (acked.foldl ackLoop ([], false, q.inner)).2.2.cfg = m.cfg := removed.cfg.trans h.inner.cfg
        exact silent (Bool.and_eq_true_iff.mpr ⟨by simpa using freed, decide_eq_true (cfg ▸ ho)⟩)
      have stored := h.inner.mem.mp hy
      obtain ⟨held, hp⟩ := Bool.and_eq_true_iff.mp acks
      refine (ackLoop_keyless nodup h.inner.exact mem keyless).2 y.1 (List.mem_filter.mpr ⟨?_, ?_⟩) y.2 stored
      · rw [ExtTreeSet.mem_toList, h.inner.exact.indexes.leases.mem_of_some hs]
        exact ⟨⟨y.2, stored, heldBy_iff.mp held⟩, not_false⟩
      · simp [stored, hp]

theorem ackSeq_wakes (h : Refines q m) (holder : HolderId) (seq : Nat) :
    q.notified < (q.ackSeq holder seq).2.notified ∨ (q.ackSeq holder seq).2.notified = q.notified ∧
      Quieter m (m.removeWhere fun x => x.1 = seq && x.2.heldBy holder).2 := by
  have refines := (ackSeq_refines h holder seq).2.inner
  unfold LeaseQueue.ackSeq at refines ⊢
  cases hh : q.inner.holds holder seq with
  | false =>
    simp only [hh, Bool.not_false, if_true] at refines
    exact .inr ⟨rfl, quieter_of_mirrors h.inner refines⟩
  | true =>
    obtain ⟨e, he, -⟩ := h.inner.holds_iff.mp hh
    obtain ⟨hr, hb⟩ := remove_becomes h.inner.exact he
    simp only [Bool.not_true, Bool.false_eq_true, if_false]
    split
    · exact .inl (Nat.lt_succ_self _)
    · rename_i silent
      refine .inr ⟨rfl, quieter_without m _ fun ho y hy acks => .inr ?_⟩
      obtain ⟨heq, -⟩ := Bool.and_eq_true_iff.mp acks
      have stored := h.inner.mem.mp hy
      rw [of_decide_eq_true heq, he, Option.some.injEq] at stored
      rw [hr, hb.cfg, h.inner.cfg, ho] at silent
      simpa [← stored] using silent

theorem expire_wakes (q : LeaseQueue T) (now : Instant) : WakesOrKeeps q (q.expire now).2 := by
  unfold LeaseQueue.expire
  dsimp only
  split
  · rename_i none
    rw [List.isEmpty_iff.mp none]
    exact .inr ⟨rfl, rfl⟩
  · exact .inl (Nat.lt_succ_self _)

theorem releaseSeq_wakes (q : LeaseQueue T) (holder : HolderId) (seq : Nat) : WakesOrKeeps q (q.releaseSeq holder seq).2 := by
  unfold LeaseQueue.releaseSeq
  split
  · exact .inr ⟨rfl, rfl⟩
  · exact .inl (Nat.lt_succ_self _)

theorem commit_wakes (q : LeaseQueue T) (permit : Permit) (item : T) (key : Option Nat) (ackId : Int) :
    WakesOrKeeps q (q.commit permit item key ackId).2 := by
  unfold LeaseQueue.commit
  split
  · exact .inr ⟨rfl, rfl⟩
  · exact .inl (Nat.lt_succ_self _)

theorem tryReserve_notified (q : LeaseQueue T) (size : Nat) : (q.tryReserve size).2.notified = q.notified := by
  unfold LeaseQueue.tryReserve LeaseQueue.tryReserveSeeing
  split
  · rfl
  · split <;> rfl

theorem lease_notified (q : LeaseQueue T) (holder : HolderId) (max : Nat) (now : Instant) :
    (q.lease holder max now).2.notified = q.notified := by
  rw [lease_eq q holder max now _ rfl]
  generalize List.take max _ = picked
  cases picked <;> rfl

theorem held_notified (q : LeaseQueue T) (holder : HolderId) (minAckId : Int) (now : Instant) :
    (q.held holder minAckId now).2.notified = q.notified := by
  unfold LeaseQueue.held
  split <;> rfl

end

namespace Client

/-- Every call wakes the waiters or makes nothing leasable where nothing was. -/
theorem step_wakes (op : Op T) {c : Client T} {m : Model T} (h : ClientRefines c m) :
    c.queue.notified < (step op c).2.queue.notified ∨
      (step op c).2.queue.notified = c.queue.notified ∧ (m.Idle → (Model.step op m).2.Idle) := by
  have refines := (step_refines op h).2
  have keeps (wakes : WakesOrKeeps c.queue (step op c).2.queue) :
      c.queue.notified < (step op c).2.queue.notified ∨
        (step op c).2.queue.notified = c.queue.notified ∧ (m.Idle → (Model.step op m).2.Idle) := by
    refine wakes.imp_right (.imp_right fun inner => (quieter_of_mirrors h.queue.inner ?_).idle)
    rw [← inner]
    exact refines.queue.inner
  cases op with
  | tryReserve size =>
    have notified : (step (.tryReserve size) c).2.queue.notified = c.queue.notified := by
      have same := tryReserve_notified c.queue size
      simp only [step]
      split <;> rename_i heq <;> rw [heq] at same <;> exact same
    refine .inr ⟨notified, ?_⟩
    simp only [Model.step]
    rcases m.tryReserve_cases h.queue.inner.nodup_entries size with ⟨full, hr⟩ | ⟨n, -, hr, -, -⟩
    · rw [hr]
      exact id
    · rw [hr]
      have quieter : Quieter m (m.sparing n) := quieter_without m _ fun _ y hy dropped => .inl ?_
      · exact quieter.idle
      · obtain ⟨z, hz, heq⟩ := List.mem_map.mp (List.mem_of_mem_take (of_decide_eq_true dropped))
        obtain ⟨hz, free⟩ := List.mem_filter.mp hz
        rw [← List.inj_on_of_nodup_map h.queue.inner.nodup_entries hz hy heq]
        exact Option.isNone_iff_eq_none.mp free
  | commit i item key ackId =>
    refine keeps ?_
    simp only [step]
    split
    · exact .inr ⟨rfl, rfl⟩
    · exact commit_wakes _ _ _ _ _
  | commitForeign permit item key ackId =>
    refine keeps ?_
    simp only [step]
    split
    · exact .inr ⟨rfl, rfl⟩
    · exact commit_wakes _ _ _ _ _
  | dropPermit i =>
    refine keeps ?_
    simp only [step]
    split <;> exact .inr ⟨rfl, rfl⟩
  | lease holder max now => exact .inr ⟨lease_notified .., (quieter_lease m _ _).idle⟩
  | held holder minAckId now => exact .inr ⟨held_notified .., (quieter_lease m _ _).idle⟩
  | ackBelow holder ackId =>
    exact (ackWhere_wakes h.queue holder _).imp_right (.imp_right Quieter.idle)
  | ackAll holder =>
    have wakes := ackWhere_wakes h.queue holder fun _ => true
    simp only [Bool.and_true] at wakes
    exact wakes.imp_right (.imp_right Quieter.idle)
  | ackSeq holder seq =>
    exact (ackSeq_wakes h.queue holder seq).imp_right (.imp_right Quieter.idle)
  | releaseSeq holder seq => exact keeps (releaseSeq_wakes _ _ _)
  | expire now => exact keeps (expire_wakes _ _)
  | stats => exact keeps (.inr ⟨rfl, rfl⟩)
  | purge =>
    refine .inr ⟨rfl, (quieter_without m _ fun _ y _ dropped => .inl ?_).idle⟩
    exact Option.isNone_iff_eq_none.mp dropped
  | countWhere pred => exact keeps (.inr ⟨rfl, rfl⟩)
  | purgeWhere pred =>
    refine .inr ⟨rfl, (quieter_without m _ fun _ y _ dropped => .inl ?_).idle⟩
    exact Option.isNone_iff_eq_none.mp (Bool.and_eq_true_iff.mp dropped).1
  | drainAll =>
    refine .inr ⟨rfl, fun _ x hx => ?_⟩
    simp [Model.step, Model.removeWhere, Model.without] at hx
  | setConfig cfg => exact .inl (Nat.lt_succ_self _)

/-- A `lease` of at least one item gets nothing exactly when nothing may be leased. -/
theorem lease_eq_nil_iff {c : Client T} {m : Model T} (h : ClientRefines c m) (holder : HolderId) {max : Nat} (hmax : 0 < max)
    (now : Instant) : (c.queue.lease holder max now).1 = [] ↔ m.Idle := by
  rw [(lease_refines h.queue holder max now).1, Model.lease, List.map_eq_nil_iff, List.take_eq_nil_iff,
    List.filter_eq_nil_iff]
  exact or_iff_right hmax.ne'

theorem pos_of_lease {c : Client T} {m : Model T} (h : ClientRefines c m) {holder : HolderId} {max : Nat} {now : Instant}
    (leases : (c.queue.lease holder max now).1 ≠ []) : 0 < max := by
  refine Nat.pos_of_ne_zero ?_
  rintro rfl
  refine leases ?_
  rw [(lease_refines h.queue holder 0 now).1]
  rfl

/-- Calls that wake nobody make nothing leasable where nothing was. -/
theorem run_wakes (ops : List (Op T)) {c : Client T} {m : Model T} (h : ClientRefines c m) :
    c.queue.notified < (Run.run step ops c).2.queue.notified ∨
      (Run.run step ops c).2.queue.notified = c.queue.notified ∧ (m.Idle → (Run.run Model.step ops m).2.Idle) := by
  induction ops generalizing c m with
  | nil => exact .inr ⟨rfl, id⟩
  | cons op ops ih =>
    rw [Run.run_cons, Run.run_cons]
    rcases step_wakes op h with first | ⟨same, idle⟩ <;>
      rcases ih (step_refines op h).2 with rest | ⟨same', idle'⟩
    · exact .inl (first.trans rest)
    · exact .inl (same' ▸ first)
    · exact .inl (same ▸ rest)
    · exact .inr ⟨same'.trans same, idle' ∘ idle⟩

/-- In every reachable state: if a consumer's `lease` gets nothing, and after any one call, or after any number of
    calls, some consumer's `lease` would get an item, then the waiters were woken in between. A consumer that
    enables its notification, looks at the queue and finds nothing so never sleeps next to an item it may take. -/
theorem run_leasable_wakes (address : Nat) (cfg : QueueConfig) (ops : List (Op T)) {holder : HolderId} {max : Nat}
    {now : Instant} (hmax : 0 < max) :
    let c := (run address cfg ops).2
    (c.queue.lease holder max now).1 = [] →
      (∀ op holder' max' now', ((step op c).2.queue.lease holder' max' now').1 ≠ [] →
        c.queue.notified < (step op c).2.queue.notified) ∧
      ∀ later holder' max' now', ((Run.run step later c).2.queue.lease holder' max' now').1 ≠ [] →
        c.queue.notified < (Run.run step later c).2.queue.notified := by
  intro c nothing
  have h := (run_clientRefines address cfg ops).2
  have idle := (lease_eq_nil_iff h holder hmax now).mp nothing
  refine ⟨fun op holder' max' now' leases => ?_, fun later holder' max' now' leases => ?_⟩
  · have h' := (step_refines op h).2
    rcases step_wakes op h with woken | ⟨-, stays⟩
    · exact woken
    · exact absurd ((lease_eq_nil_iff h' holder' (pos_of_lease h' leases) now').mpr (stays idle)) leases
  · have h' := (Run.run_simulates (fun op _ _ h => step_refines op h) later h).2
    rcases run_wakes later h with woken | ⟨-, stays⟩
    · exact woken
    · exact absurd ((lease_eq_nil_iff h' holder' (pos_of_lease h' leases) now').mpr (stays idle)) leases

/-- One item of a key is leased, the other waits for it. -/
def waiting : List (Op Unit) :=
  [.tryReserve 1, .commit 0 () (some 7) 1, .tryReserve 1, .commit 0 () (some 7) 2, .lease "a" 2 0]

def inTurn : QueueConfig :=
  { capacity := 2, capacityBytes := 10, leaseTimeout := 5, ordering := .perKey, onFull := .backpressure }

theorem run_leasable_wakes_ack :
    (run 0 inTurn waiting).2.queue.notified < (step (.ackAll "a") (run 0 inTurn waiting).2).2.queue.notified :=
  (@run_leasable_wakes Unit 0 inTurn waiting "b" 1 0 Nat.one_pos rfl).1 (.ackAll "a") "b" 1 0 (by decide)

end Client

end Tgin.Queue
