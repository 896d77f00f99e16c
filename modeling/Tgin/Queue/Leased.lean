import Tgin.Queue.Holders

/-! A leased update stays as it is through every call but those that are about leases, and a seq that has left the queue never comes
    back. -/

namespace Tgin.Queue

variable {T : Type}

/-- The call may change the update `seq` while it is leased. -/
def Op.touches (op : Op T) (seq : Nat) : Prop :=
  match op with
  | .held .. | .ackBelow .. | .ackAll _ | .expire _ | .drainAll => True
  | .ackSeq _ s | .releaseSeq _ s => seq = s
  | _ => False

def LeaseQueue.at (q : LeaseQueue T) (seq : Nat) : Option (Entry T) := q.inner.entries[seq]?

/-- `q'` is what some calls that touch no other leased updates left of `q`. -/
structure Onward (touched : Nat → Prop) (q q' : LeaseQueue T) : Prop where
  leased : ∀ seq e, q.at seq = some e → e.lease.isSome → ¬touched seq → q'.at seq = some e
  gone : ∀ seq < q.inner.nextSeq, q.at seq = none → q'.at seq = none
  nextSeq : q.inner.nextSeq ≤ q'.inner.nextSeq

theorem Onward.refl (touched : Nat → Prop) (q : LeaseQueue T) : Onward touched q q :=
  ⟨fun _ _ h _ _ => h, fun _ _ h => h, Nat.le_refl _⟩

section
variable {m : Model T}

theorem mem_relabel {entries : List (Nat × Entry T)} {x : Nat × Entry T} (hx : x ∈ entries) {p : Nat × Entry T → Prop} [DecidablePred p]
    {f : Entry T → Entry T} (not : ¬p x) : x ∈ entries.map fun y => (y.1, if p y then f y.2 else y.2) :=
  List.mem_map.mpr ⟨x, hx, by rw [if_neg not]⟩

/-- Only the calls about leases change a leased entry. -/
theorem Model.step_leased (nodup : (m.entries.map (·.1)).Nodup) (op : Op T) {x : Nat × Entry T} (hx : x ∈ m.entries)
    (leased : x.2.lease.isSome) (untouched : ¬op.touches x.1) : x ∈ (Model.step op m).2.entries := by
  have busy : x.2.lease.isNone = false := by rw [← Option.not_isSome, leased, Bool.not_true]
  cases op with
  | tryReserve size =>
    rcases Model.tryReserve_cases nodup size with ⟨full, eq⟩ | ⟨n, -, eq, -⟩
    · simp only [Model.step, eq]
      exact hx
    · simp only [Model.step, eq]
      refine List.mem_filter.mpr ⟨hx, ?_⟩
      have kept : x.1 ∉ (m.unleased.map (·.1)).take n := by
        intro taken
        obtain ⟨y, hy, seq⟩ := List.mem_map.mp (List.mem_of_mem_take taken)
        obtain ⟨hy, free⟩ := List.mem_filter.mp hy
        obtain rfl := List.inj_on_of_nodup_map nodup hy hx seq
        exact Bool.false_ne_true (busy.symm.trans free)
      simp [kept]
  | commit i item key ackId =>
    simp only [Model.step]
    split
    · exact hx
    · exact List.mem_append_left _ hx
  | dropPermit i =>
    simp only [Model.step]
    split <;> exact hx
  | lease holder max now =>
    refine mem_relabel (f := fun e => { e with lease := some _ }) hx ?_
    intro picked
    obtain ⟨y, hy, seq⟩ := List.mem_map.mp picked
    obtain ⟨hy, ready⟩ := List.mem_filter.mp (List.mem_of_mem_take hy)
    obtain rfl := List.inj_on_of_nodup_map nodup hy hx seq
    exact Bool.false_ne_true (busy.symm.trans (Bool.and_eq_true_iff.mp ready).1)
  | ackSeq holder seq =>
    have other : x.1 ≠ seq := untouched
    exact List.mem_filter.mpr ⟨hx, by simp [other]⟩
  | releaseSeq holder seq =>
    have other : x.1 ≠ seq := untouched
    exact mem_relabel (p := fun x => x.1 = seq && x.2.heldBy holder) (f := fun e => { e with lease := none }) hx (by simp [other])
  | purge => exact List.mem_filter.mpr ⟨hx, by simp [busy]⟩
  | purgeWhere pred => exact List.mem_filter.mpr ⟨hx, by simp [busy]⟩
  | commitForeign | stats | countWhere | setConfig => exact hx
  | _ => exact absurd trivial untouched

end

section
variable {c : Client T} {m : Model T}

theorem ClientRefines.at_iff (h : ClientRefines c m) {seq : Nat} {e : Entry T} : c.queue.at seq = some e ↔ (seq, e) ∈ m.entries :=
  h.queue.inner.mem.symm

theorem ClientRefines.at_none (h : ClientRefines c m) {seq : Nat} : c.queue.at seq = none ↔ ∀ e, (seq, e) ∉ m.entries := by
  rw [Option.eq_none_iff_forall_not_mem]
  exact forall_congr' fun e => not_congr h.at_iff

theorem step_onward (h : ClientRefines c m) (op : Op T) : Onward op.touches c.queue (Client.step op c).2.queue := by
  have nodup := h.queue.inner.nodup_entries
  have after := (step_refines op h).2
  refine ⟨fun seq e stored leased untouched => ?_, fun seq old gone => ?_, ?_⟩
  · exact after.at_iff.mpr (Model.step_leased nodup op (h.at_iff.mp stored) leased untouched)
  · refine after.at_none.mpr fun e he => ?_
    obtain ⟨⟨s, e'⟩, hx, same⟩ := Model.step_leftOf nodup op _ he (h.queue.inner.nextSeq ▸ old)
    obtain rfl : s = seq := same.seq
    exact h.at_none.mp gone e' hx
  · rw [h.queue.inner.nextSeq, after.queue.inner.nextSeq]
    exact Model.step_nextSeq nodup op

theorem ClientRefines.old (h : ClientRefines c m) {seq : Nat} {e : Entry T} (stored : c.queue.at seq = some e) :
    seq < c.queue.inner.nextSeq := by
  refine h.queue.inner.exact.fresh seq ?_
  rw [← Std.ExtTreeMap.isSome_getElem?_iff_mem, show c.queue.inner.entries[seq]? = some e from stored]
  rfl

/-- A holder's own call about an update finds it exactly if the holder leases it. -/
theorem holds_iff_at (h : ClientRefines c m) {holder : HolderId} {seq : Nat} :
    c.queue.inner.holds holder seq ↔ ∃ e, c.queue.at seq = some e ∧ e.heldBy holder := by
  rw [h.queue.inner.holds_iff]
  exact exists_congr fun e => and_congr_right fun _ => heldBy_iff.symm

theorem ackSeq_held (h : ClientRefines c m) {holder : HolderId} {seq : Nat} {e : Entry T} (stored : c.queue.at seq = some e)
    (held : e.heldBy holder) :
    (Client.step (.ackSeq holder seq) c).1 = .found true ∧ (Client.step (.ackSeq holder seq) c).2.queue.at seq = none := by
  have holds := (holds_iff_at h).mpr ⟨e, stored, held⟩
  have after := (step_refines (.ackSeq holder seq) h).2
  constructor
  · simp only [Client.step, LeaseQueue.ackSeq, holds]
    rfl
  · refine after.at_none.mpr fun e' he => ?_
    obtain ⟨he, other⟩ := List.mem_filter.mp he
    obtain rfl : e' = e := Option.some_inj.mp ((h.at_iff.mpr he).symm.trans stored)
    simp [held] at other

theorem releaseSeq_held (h : ClientRefines c m) {holder : HolderId} {seq : Nat} {e : Entry T} (stored : c.queue.at seq = some e)
    (held : e.heldBy holder) :
    (Client.step (.releaseSeq holder seq) c).1 = .found true ∧
      (Client.step (.releaseSeq holder seq) c).2.queue.at seq = some { e with lease := none } := by
  have holds := (holds_iff_at h).mpr ⟨e, stored, held⟩
  have after := (step_refines (.releaseSeq holder seq) h).2
  constructor
  · simp only [Client.step, LeaseQueue.releaseSeq, holds]
    rfl
  · refine after.at_iff.mpr (List.mem_map.mpr ⟨(seq, e), h.at_iff.mp stored, ?_⟩)
    simp [held]

/-- A holder's call about an update that has left the queue does nothing. -/
theorem ackSeq_gone (h : ClientRefines c m) (holder : HolderId) {seq : Nat} (gone : c.queue.at seq = none) :
    Client.step (.ackSeq holder seq) c = (.found false, c) := by
  have holds : c.queue.inner.holds holder seq = false := by
    rw [← Bool.not_eq_true, holds_iff_at h, gone]
    exact fun ⟨_, stored, _⟩ => nomatch stored
  simp only [Client.step, LeaseQueue.ackSeq, holds]
  rfl

theorem releaseSeq_gone (h : ClientRefines c m) (holder : HolderId) {seq : Nat} (gone : c.queue.at seq = none) :
    Client.step (.releaseSeq holder seq) c = (.found false, c) := by
  have holds : c.queue.inner.holds holder seq = false := by
    rw [← Bool.not_eq_true, holds_iff_at h, gone]
    exact fun ⟨_, stored, _⟩ => nomatch stored
  simp only [Client.step, LeaseQueue.releaseSeq, holds]
  rfl

/-- Each lease is of an update that nobody leased, and now the holder does. -/
theorem lease_takes (h : ClientRefines c m) (holder : HolderId) (max : Nat) (now : Instant) :
    (∀ lease ∈ (c.queue.lease holder max now).1, ∃ e, c.queue.at lease.seq = some e ∧ e.lease = none ∧ e.item = lease.item ∧
      ∃ e', (c.queue.lease holder max now).2.at lease.seq = some e' ∧ e'.heldBy holder ∧ e'.item = lease.item) ∧
    ((c.queue.lease holder max now).1.map (·.seq)).Nodup := by
  obtain ⟨leases, after⟩ := lease_refines h.queue holder max now
  have sub : ((m.entries.filter m.ready).take max).Sublist m.entries := (List.take_sublist _ _).trans List.filter_sublist
  rw [leases]
  constructor
  · intro lease mem
    obtain ⟨x, hx, rfl⟩ := List.mem_map.mp mem
    have stored := sub.subset hx
    have free := (Bool.and_eq_true_iff.mp (List.mem_filter.mp (List.mem_of_mem_take hx)).2).1
    refine ⟨x.2, h.at_iff.mpr stored, Option.isNone_iff_eq_none.mp free, rfl,
      { x.2 with lease := some { holder, deadline := Instant.checkedAdd now m.cfg.leaseTimeout } }, ?_, ?_, rfl⟩
    · refine after.inner.mem.mp (List.mem_map.mpr ⟨x, stored, ?_⟩)
      rw [if_pos (List.mem_map_of_mem hx)]
      rfl
    · exact decide_eq_true rfl
  · rw [Model.lease, List.map_map]
    exact h.queue.inner.nodup_entries.sublist (sub.map _)

/-- Once everything is drained, nothing is stored. -/
theorem drainAll_empties (h : ClientRefines c m) (seq : Nat) : (Client.step .drainAll c).2.queue.at seq = none := by
  refine (step_refines .drainAll h).2.at_none.mpr fun e he => ?_
  exact Bool.false_ne_true (List.mem_filter.mp he).2

end

end Tgin.Queue
