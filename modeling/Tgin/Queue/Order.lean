import Tgin.Queue.Refinement

/-! What `Ordering.perKey` guarantees: the updates of a key are processed one at a time and in commit order.
    The list of entries of the naive model carries the invariant, the refinement takes it to the queue. -/

namespace Tgin.Queue
open Std (ExtTreeMap)

variable {T : Type}

def Entry.leasedWith (key : Nat) (e : Entry T) : Prop := e.lease.isSome ∧ e.key = some key

/-- No key has two leased entries. -/
def OneLeased (q : LeaseQueue T) : Prop :=
  ∀ key s s', Stores q.inner.entries (·.leasedWith key) s → Stores q.inner.entries (·.leasedWith key) s' → s = s'

/-- A call of `lease` hands out no entry of a key that has a leased entry. -/
def SkipsBusyKeys (q : LeaseQueue T) : Prop :=
  ∀ holder max now, ∀ lease ∈ (q.lease holder max now).1, ∃ e, q.inner.entries[lease.seq]? = some e ∧
    ∀ key, e.key = some key → ∀ s, ¬ Stores q.inner.entries (·.leasedWith key) s

/-- A call of `lease` hands out no entry of a key that stores an older entry. -/
def LeasesOldest (q : LeaseQueue T) : Prop :=
  ∀ holder max now, ∀ lease ∈ (q.lease holder max now).1, ∃ e, q.inner.entries[lease.seq]? = some e ∧
    ∀ key, e.key = some key → ∀ s, Stores q.inner.entries (·.key = some key) s → lease.seq ≤ s

/-- The call does not take `Ordering.perKey` away. -/
def Op.keepsPerKey : Op T → Prop
  | .setConfig cfg => cfg.ordering = .perKey
  | _ => True

/-! ### The invariant on the list -/

/-- No key has two leased entries in the list. -/
def OneLeasedIn (entries : List (Nat × Entry T)) : Prop :=
  ∀ x ∈ entries, ∀ y ∈ entries, ∀ key, x.2.leasedWith key → y.2.leasedWith key → x.1 = y.1

/-- Each leased entry of `entries'` is a leased entry of `entries`, under its seq and key. -/
def LeasesFewer (entries entries' : List (Nat × Entry T)) : Prop :=
  ∀ y ∈ entries', ∀ key, y.2.leasedWith key → ∃ x ∈ entries, x.1 = y.1 ∧ x.2.leasedWith key

theorem OneLeasedIn.of_fewer {entries entries' : List (Nat × Entry T)} (h : OneLeasedIn entries)
    (hf : LeasesFewer entries entries') : OneLeasedIn entries' := by
  intro x hx y hy key hxk hyk
  obtain ⟨x', hx', heqx, hxk'⟩ := hf x hx key hxk
  obtain ⟨y', hy', heqy, hyk'⟩ := hf y hy key hyk
  rw [← heqx, ← heqy]
  exact h x' hx' y' hy' key hxk' hyk'

theorem leasesFewer_of_sublist {entries entries' : List (Nat × Entry T)} (h : entries'.Sublist entries) :
    LeasesFewer entries entries' := fun y hy _ hk => ⟨y, h.subset hy, rfl, hk⟩

theorem leasesFewer_map {entries : List (Nat × Entry T)} {f : Nat × Entry T → Entry T}
    (h : ∀ x key, (f x).leasedWith key → x.2.leasedWith key) :
    LeasesFewer entries (entries.map fun x => (x.1, f x)) := by
  intro y hy key hk
  obtain ⟨x, hx, rfl⟩ := List.mem_map.mp hy
  exact ⟨x, hx, rfl, h x key hk⟩

theorem evict_sublist (size : Nat) (seqs : List Nat) (m : Model T) :
    (m.evict size seqs).2.entries.Sublist m.entries ∧ (m.evict size seqs).2.cfg = m.cfg := by
  induction seqs generalizing m with
  | nil => exact ⟨List.Sublist.refl _, rfl⟩
  | cons seq seqs ih =>
    rw [Model.evict]
    cases m.room m.entries size with
    | ok _ => exact ⟨List.Sublist.refl _, rfl⟩
    | error _ =>
      obtain ⟨sub, cfg⟩ := ih (m.without (·.1 = seq))
      exact ⟨sub.trans List.filter_sublist, cfg⟩

theorem tryReserve_sublist (size : Nat) (m : Model T) :
    (m.tryReserve size).2.entries.Sublist m.entries ∧ (m.tryReserve size).2.cfg = m.cfg := by
  have made : (m.makeRoom size).2.entries.Sublist m.entries ∧ (m.makeRoom size).2.cfg = m.cfg := by
    unfold Model.makeRoom
    split <;> first | exact ⟨List.Sublist.refl _, rfl⟩ | exact evict_sublist size _ m
  unfold Model.tryReserve
  split
  · exact ⟨List.Sublist.refl _, rfl⟩
  · generalize m.makeRoom size = r at made
    obtain ⟨r, m'⟩ := r
    cases r <;> exact made

/-- Only `lease` adds leased entries. -/
theorem step_leasesFewer (op : Op T) (m : Model T) (h : ∀ holder max now, op ≠ .lease holder max now) :
    LeasesFewer m.entries (Model.step op m).2.entries := by
  have same : LeasesFewer m.entries m.entries := leasesFewer_of_sublist (List.Sublist.refl _)
  have filtered : ∀ p, LeasesFewer m.entries (m.without p).entries := fun p =>
    leasesFewer_of_sublist List.filter_sublist
  have released : ∀ p, LeasesFewer m.entries (m.releaseWhere p).2.entries := fun p => by
    refine leasesFewer_map fun x key hk => ?_
    split at hk
    · simp [Entry.leasedWith] at hk
    · exact hk
  cases op with
  | tryReserve size => exact leasesFewer_of_sublist (tryReserve_sublist size m).1
  | commit i item key ackId =>
    simp only [Model.step]
    split
    · exact same
    · intro y hy k hk
      rcases List.mem_append.mp hy with hy | hy
      · exact ⟨y, hy, rfl, hk⟩
      · rw [List.mem_singleton.mp hy] at hk
        simp [Entry.leasedWith] at hk
  | commitForeign permit item key ackId => exact same
  | dropPermit i =>
    simp only [Model.step]
    split <;> exact same
  | lease holder max now => exact absurd rfl (h holder max now)
  | held holder minAckId now =>
    refine leasesFewer_map fun x key hk => ?_
    split at hk
    · rename_i hr
      obtain ⟨holding, hl, -⟩ := heldBy_iff.mp (Bool.and_eq_true_iff.mp hr).1
      exact ⟨by simp [hl], hk.2⟩
    · exact hk
  | ackBelow holder ackId => exact filtered _
  | ackAll holder => exact filtered _
  | ackSeq holder seq => exact filtered _
  | releaseSeq holder seq => exact released _
  | expire now => exact released _
  | stats => exact same
  | purge => exact filtered _
  | countWhere pred => exact same
  | purgeWhere pred => exact filtered _
  | drainAll => exact filtered _
  | setConfig cfg => exact same

theorem ready_perKey {m : Model T} (ho : m.cfg.ordering = .perKey) {x : Nat × Entry T} (hr : m.ready x) {key : Nat}
    (hk : x.2.key = some key) {y : Nat × Entry T} (hy : y ∈ m.entries) (hky : y.2.key = some key) :
    y.2.lease = none ∧ x.1 ≤ y.1 := by
  have hr := (Bool.and_eq_true_iff.mp hr).2
  simp only [ho, reduceCtorEq, decide_false, Bool.false_or, List.all_eq_true] at hr
  simpa [hk, hky] using hr y hy

/-- Under `Ordering.perKey`, `lease` leases only entries that are the oldest of their key and have no leased
    one beside them. -/
theorem lease_oneLeased {m : Model T} (ho : m.cfg.ordering = .perKey) (nodup : (m.entries.map (·.1)).Nodup)
    (h : OneLeasedIn m.entries) (holder : HolderId) (max : Nat) (now : Instant) :
    OneLeasedIn (m.lease holder max now).2.entries := by
  set picked := (m.entries.filter m.ready).take max with hp
  set lease : Option Holding := some { holder, deadline := Instant.checkedAdd now m.cfg.leaseTimeout }
  have ready : ∀ x ∈ m.entries, x.1 ∈ picked.map (·.1) → m.ready x := by
    intro x hx hs
    obtain ⟨y, hy, heq⟩ := List.mem_map.mp hs
    obtain ⟨hy, hr⟩ := List.mem_filter.mp (List.mem_of_mem_take hy)
    exact List.inj_on_of_nodup_map nodup hy hx heq ▸ hr
  have leased : ∀ x ∈ m.entries, ∀ key,
      (if x.1 ∈ picked.map (·.1) then { x.2 with lease } else x.2).leasedWith key →
        x.2.key = some key ∧ (m.ready x ∨ x.2.leasedWith key) := by
    intro x hx key hk
    split at hk
    · rename_i hs
      exact ⟨hk.2, .inl (ready x hx hs)⟩
    · exact ⟨hk.2, .inr hk⟩
  intro x' hx' y' hy' key hkx hky
  obtain ⟨x, hx, rfl⟩ := List.mem_map.mp hx'
  obtain ⟨y, hy, rfl⟩ := List.mem_map.mp hy'
  obtain ⟨hkx, hx'⟩ := leased x hx key hkx
  obtain ⟨hky, hy'⟩ := leased y hy key hky
  have busy : ∀ {z : Nat × Entry T}, z.2.leasedWith key → z.2.lease ≠ none :=
    fun hz => Option.isSome_iff_ne_none.mp hz.1
  rcases hx' with hrx | hlx
  · rcases hy' with hry | hly
    · exact le_antisymm (ready_perKey ho hrx hkx hy hky).2 (ready_perKey ho hry hky hx hkx).2
    · exact absurd (ready_perKey ho hrx hkx hy hky).1 (busy hly)
  · rcases hy' with hry | hly
    · exact absurd (ready_perKey ho hry hky hx hkx).1 (busy hlx)
    · exact h x hx y hy key hlx hly

/-! ### Runs -/

theorem step_keepsPerKey {op : Op T} (hop : op.keepsPerKey) {m : Model T} (h : m.cfg.ordering = .perKey) :
    (Model.step op m).2.cfg.ordering = .perKey := by
  cases op with
  | tryReserve size => exact (congrArg (·.ordering) (tryReserve_sublist size m).2).trans h
  | commit i item key ackId =>
    simp only [Model.step]
    split <;> exact h
  | dropPermit i =>
    simp only [Model.step]
    split <;> exact h
  | setConfig cfg => exact hop
  | _ => exact h

/-- The state of a queue and its callers that has never leased two entries of one key. -/
structure InOrder (c : Client T) (m : Model T) : Prop where
  refines : ClientRefines c m
  perKey : m.cfg.ordering = .perKey
  oneLeased : OneLeasedIn m.entries

theorem step_inOrder {op : Op T} (hop : op.keepsPerKey) {c : Client T} {m : Model T} (h : InOrder c m) :
    InOrder (Client.step op c).2 (Model.step op m).2 := by
  refine ⟨(step_refines op h.refines).2, step_keepsPerKey hop h.perKey, ?_⟩
  by_cases hl : ∃ holder max now, op = .lease holder max now
  · obtain ⟨holder, max, now, rfl⟩ := hl
    exact lease_oneLeased h.perKey h.refines.queue.inner.nodup_entries h.oneLeased holder max now
  · exact h.oneLeased.of_fewer (step_leasesFewer op m fun holder max now he => hl ⟨holder, max, now, he⟩)

theorem oneLeased_of_in {q : LeaseQueue T} {m : Model T} (h : Refines q m) (hm : OneLeasedIn m.entries) : OneLeased q := by
  intro key s s' hs hs'
  obtain ⟨e, he, hk⟩ := h.inner.stores.mp hs
  obtain ⟨e', he', hk'⟩ := h.inner.stores.mp hs'
  exact hm _ he _ he' key hk hk'

/-- Whatever happened before, a call of `lease` under `Ordering.perKey` skips the busy keys and takes the
    oldest entry of the others. -/
theorem lease_in_order {q : LeaseQueue T} {m : Model T} (h : Refines q m) (ho : m.cfg.ordering = .perKey) :
    SkipsBusyKeys q ∧ LeasesOldest q := by
  have handed : ∀ holder max now, ∀ lease ∈ (q.lease holder max now).1, ∃ e, q.inner.entries[lease.seq]? = some e ∧
      m.ready (lease.seq, e) := by
    intro holder max now lease hl
    rw [(lease_refines h holder max now).1] at hl
    obtain ⟨x, hx, rfl⟩ := List.mem_map.mp hl
    obtain ⟨hx, hr⟩ := List.mem_filter.mp (List.mem_of_mem_take hx)
    exact ⟨x.2, h.inner.mem.mp hx, hr⟩
  constructor
  · intro holder max now lease hl
    obtain ⟨e, he, hr⟩ := handed holder max now lease hl
    refine ⟨e, he, fun key hk s ⟨e', he', hl', hk'⟩ => ?_⟩
    exact Option.isSome_iff_ne_none.mp hl' (ready_perKey ho hr hk (h.inner.mem.mpr he') hk').1
  · intro holder max now lease hl
    obtain ⟨e, he, hr⟩ := handed holder max now lease hl
    refine ⟨e, he, fun key hk s ⟨e', he', hk'⟩ => ?_⟩
    exact (ready_perKey ho hr hk (h.inner.mem.mpr he') hk').2

theorem run_perKey {ops : List (Op T)} (hops : ∀ op ∈ ops, op.keepsPerKey) {c : Client T} {m : Model T}
    (h : ClientRefines c m) (ho : m.cfg.ordering = .perKey) :
    ∃ m', ClientRefines (Run.run Client.step ops c).2 m' ∧ m'.cfg.ordering = .perKey :=
  Run.run_invariant_of (P := fun c => ∃ m, ClientRefines c m ∧ m.cfg.ordering = .perKey)
    (fun op _ hop ⟨_, hr, ho⟩ => ⟨_, (step_refines op hr).2, step_keepsPerKey hop ho⟩) hops ⟨m, h, ho⟩

/-- In a run under `Ordering.perKey` from the start, no key ever has two leased entries and `lease` takes the
    oldest entry of a key. Once a run has switched to `Ordering.perKey`, whatever was leased before the
    switch, a key with leased entries gets no further lease until they have all ended. -/
theorem perKey_one_at_a_time (address : Nat) (cfg : QueueConfig) (ops : List (Op T)) :
    (cfg.ordering = .perKey → (∀ op ∈ ops, op.keepsPerKey) →
      OneLeased (Client.run address cfg ops).2.queue ∧ LeasesOldest (Client.run address cfg ops).2.queue) ∧
    ∀ before switched after, ops = before ++ .setConfig switched :: after → switched.ordering = .perKey →
      (∀ op ∈ after, op.keepsPerKey) →
        SkipsBusyKeys (Client.run address cfg ops).2.queue ∧ LeasesOldest (Client.run address cfg ops).2.queue := by
  constructor
  · intro ho hops
    obtain ⟨m, h⟩ := Run.run_invariant_of (P := fun c => ∃ m, InOrder c m)
      (fun op _ hop ⟨_, h⟩ => ⟨_, step_inOrder hop h⟩) hops
      (⟨Model.new address cfg, clientRefines_new address cfg, ho, by simp [Model.new, OneLeasedIn]⟩ :
        ∃ m, InOrder (Client.new (T := T) address cfg) m)
    exact ⟨oneLeased_of_in h.refines.queue h.oneLeased, (lease_in_order h.refines.queue h.perKey).2⟩
  · rintro before switched after rfl ho hafter
    have h := (run_clientRefines address cfg before).2
    obtain ⟨m, hr, ho⟩ := run_perKey hafter (step_refines (.setConfig switched) h).2 ho
    rw [Client.run, Run.run_append, Run.run_cons]
    exact lease_in_order hr.queue ho

def smallConfig (ordering : Ordering) : QueueConfig :=
  { capacity := 4, capacityBytes := 100, leaseTimeout := 10, ordering, onFull := .backpressure }

/-- Two updates of key 7. -/
def twoUpdates : List (Op Nat) := [.tryReserve 1, .commit 0 10 (some 7) 1, .tryReserve 1, .commit 0 20 (some 7) 2]

/-- Both updates are leased when the ordering switches; one of them has been acked since. -/
def switchWhileLeased : List (Op Nat) :=
  (twoUpdates ++ [.lease "a" 2 0]) ++ .setConfig (smallConfig .perKey) :: [.ackSeq "a" 0, .tryReserve 1, .commit 0 30 (some 7) 3]

theorem perKey_one_at_a_time_twoUpdates :
    (OneLeased (Client.run 0 (smallConfig .perKey) twoUpdates).2.queue ∧
      LeasesOldest (Client.run 0 (smallConfig .perKey) twoUpdates).2.queue ∧
      ((Client.run 0 (smallConfig .perKey) twoUpdates).2.queue.lease "a" 2 0).1.map (·.item) = [10]) ∧
    SkipsBusyKeys (Client.run 0 (smallConfig .none) switchWhileLeased).2.queue ∧
      LeasesOldest (Client.run 0 (smallConfig .none) switchWhileLeased).2.queue ∧
      ((Client.run 0 (smallConfig .none) switchWhileLeased).2.queue.lease "a" 2 0).1.map (·.item) = [] := by
  have started := (perKey_one_at_a_time 0 (smallConfig .perKey) twoUpdates).1 rfl (by simp [twoUpdates, Op.keepsPerKey])
  have switched := (perKey_one_at_a_time 0 (smallConfig .none) switchWhileLeased).2 (twoUpdates ++ [.lease "a" 2 0])
    (smallConfig .perKey) _ rfl rfl (by simp [Op.keepsPerKey])
  exact ⟨⟨started.1, started.2, by decide⟩, switched.1, switched.2, by decide⟩

end Tgin.Queue
