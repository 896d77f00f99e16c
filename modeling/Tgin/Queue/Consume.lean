import Tgin.Queue.Refinement

/-! The calls of a queue's consumers and of its operators: what they leave of its entries. -/

namespace Tgin.Queue
open Std (ExtTreeMap ExtTreeSet)

variable {T : Type}

namespace Op

/-- Whether the call takes, returns or drops what the queue holds; such a call neither stores nor reserves. -/
def consumes : Op T → Bool
  | .lease .. | .held .. | .ackBelow .. | .ackAll _ | .ackSeq .. | .releaseSeq .. | .expire _ | .purge | .purgeWhere _ => true
  | _ => false

/-- Which entries such a call removes. -/
def removes : Op T → Nat × Entry T → Bool
  | .ackBelow holder ackId => fun x => x.2.heldBy holder && x.2.ackId < ackId
  | .ackAll holder => fun x => x.2.heldBy holder
  | .ackSeq holder seq => fun x => x.1 = seq && x.2.heldBy holder
  | .purge => fun x => x.2.lease.isNone
  | .purgeWhere pred => fun x => x.2.lease.isNone && pred x.2.item
  | _ => fun _ => false

/-- Whether the call is an operator's, which counts what it drops. -/
def purges : Op T → Bool
  | .purge | .purgeWhere _ => true
  | _ => false

end Op

/-- How many entries a call dropped, as it says. -/
def Result.dropped : Result T → Nat
  | .count n => n
  | _ => 0

/-- An entry with another lease. -/
def releasing (lease : Nat × Entry T → Option Holding) (x : Nat × Entry T) : Nat × Entry T :=
  (x.1, { x.2 with lease := lease x })

theorem map_releasing (entries : List (Nat × Entry T)) (p : Nat × Entry T → Prop) [DecidablePred p] (lease : Option Holding) :
    (entries.map fun x => (x.1, if p x then { x.2 with lease } else x.2)) =
      entries.map (releasing fun x => if p x then lease else x.2.lease) := by
  refine List.map_congr_left fun x _ => ?_
  by_cases hp : p x <;> simp only [releasing, hp, if_true, if_false]

/-- On the lists, such a call removes some entries and changes the leases of others. -/
theorem Model.step_consumes {op : Op T} (h : op.consumes) (m : Model T) :
    (∃ lease, (Model.step op m).2 = { m with
      entries := (m.entries.filter fun x => !op.removes x).map (releasing lease) }) ∧
      (op.purges → (Model.step op m).1.dropped = (m.entries.filter op.removes).length) := by
  have all : (m.entries.filter fun _ => !false) = m.entries := List.filter_eq_self.mpr fun _ _ => rfl
  have removed (pred : Nat × Entry T → Bool) : ∃ lease, m.without pred = { m with
      entries := (m.entries.filter fun x => !pred x).map (releasing lease) } :=
    ⟨fun x => x.2.lease, congrArg (fun entries => { m with entries }) (List.map_id (m.entries.filter fun x => !pred x)).symm⟩
  have released (p : Nat × Entry T → Prop) [DecidablePred p] (lease : Option Holding) :
      ∃ lease', { m with entries := m.entries.map fun x => (x.1, if p x then { x.2 with lease } else x.2) } =
        { m with entries := (m.entries.filter fun _ => !false).map (releasing lease') } := by
    rw [all, map_releasing]
    exact ⟨_, rfl⟩
  cases op with
  | lease holder max now => exact ⟨released _ _, nofun⟩
  | held holder minAckId now => exact ⟨released _ _, nofun⟩
  | ackBelow holder ackId => exact ⟨removed _, nofun⟩
  | ackAll holder => exact ⟨removed _, nofun⟩
  | ackSeq holder seq => exact ⟨removed _, nofun⟩
  | releaseSeq holder seq => exact ⟨released _ _, nofun⟩
  | expire now => exact ⟨released _ _, nofun⟩
  | purge => exact ⟨removed _, fun _ => rfl⟩
  | purgeWhere pred => exact ⟨removed _, fun _ => rfl⟩
  | _ => cases h

/-- Leases are of what the lists hold. -/
theorem Model.step_leases {op : Op T} {m : Model T} {leases : List (Lease T)} (answer : (Model.step op m).1 = .leases leases) :
    ∀ lease ∈ leases, ∃ e, (lease.seq, e) ∈ m.entries ∧ e.item = lease.item := by
  have of {picked : List (Nat × Entry T)} (sub : picked ⊆ m.entries) (eq : picked.map (fun x => x.2.toLease x.1) = leases) :
      ∀ lease ∈ leases, ∃ e, (lease.seq, e) ∈ m.entries ∧ e.item = lease.item := by
    subst eq
    intro lease mem
    obtain ⟨x, hx, rfl⟩ := List.mem_map.mp mem
    exact ⟨x.2, sub hx, rfl⟩
  cases op with
  | lease holder max now =>
    exact of (List.Subset.trans (List.take_subset _ _) (List.filter_subset_self _)) (Result.leases.inj answer)
  | held holder minAckId now => exact of (List.filter_subset_self _) (Result.leases.inj answer)
  | commit i =>
    simp only [step] at answer
    split at answer <;> cases answer
  | commitForeign permit =>
    simp only [step] at answer
    split at answer <;> cases answer
  | dropPermit i =>
    simp only [step] at answer
    split at answer <;> cases answer
  | _ => cases answer

/-- Such a call does not read how much room is reserved. -/
theorem Client.step_reservations {op : Op T} (h : op.consumes) (q : LeaseQueue T) (reservations : Reservations) :
    Client.step op { queue := { q with reservations }, permits := [] } =
      ((Client.step op { queue := q, permits := [] }).1,
        { queue := { (Client.step op { queue := q, permits := [] }).2.queue with reservations }, permits := [] }) := by
  cases op with
  | lease holder max now =>
    simp only [step, lease_eq _ holder max now _ rfl]
    generalize List.take max _ = picked
    cases picked <;> rfl
  | held holder minAckId now =>
    simp only [step, LeaseQueue.held]
    split <;> rfl
  | ackBelow holder ackId =>
    simp only [step, LeaseQueue.ackBelow, LeaseQueue.ackWhere]
    split
    · rfl
    · dsimp only; split <;> rfl
  | ackAll holder =>
    simp only [step, LeaseQueue.ackAll, LeaseQueue.ackWhere]
    split
    · rfl
    · dsimp only; split <;> rfl
  | ackSeq holder seq =>
    simp only [step, LeaseQueue.ackSeq]
    split
    · rfl
    · dsimp only; split <;> rfl
  | releaseSeq holder seq =>
    simp only [step, LeaseQueue.releaseSeq]
    split <;> rfl
  | expire now =>
    simp only [step, LeaseQueue.expire]
    split <;> rfl
  | purge => rfl
  | purgeWhere pred => rfl
  | _ => cases h

/-- What such a call leaves of a queue. -/
structure Consumed (op : Op T) (q q' : LeaseQueue T) : Prop where
  exact : Exact q'.inner
  entries : ∃ lease, q'.inner.entries.toList =
    (q.inner.entries.toList.filter fun x => !op.removes x).map (releasing lease)
  cfg : q'.inner.cfg = q.inner.cfg
  nextSeq : q'.inner.nextSeq = q.inner.nextSeq
  reservations : q'.reservations = q.reservations
  address : q'.address = q.address

theorem mem_toList {q : Inner T} {x : Nat × Entry T} :
    x ∈ q.entries.toList ↔ q.entries[x.1]? = some x.2 := ExtTreeMap.mem_toList_iff_getElem?_eq_some

/-- What a consumer's call leaves. -/
theorem Consumed.getElem? {op : Op T} {q q' : LeaseQueue T} (h : Consumed op q q') {seq : Nat} {e' : Entry T} :
    q'.inner.entries[seq]? = some e' →
      ∃ e, q.inner.entries[seq]? = some e ∧ op.removes (seq, e) = false ∧ e'.item = e.item := by
  intro he'
  obtain ⟨lease, entries⟩ := h.entries
  have mem : (seq, e') ∈ q'.inner.entries.toList := mem_toList.mpr he'
  rw [entries] at mem
  obtain ⟨⟨seq', e⟩, hx, heq⟩ := List.mem_map.mp mem
  obtain ⟨hx, stays⟩ := List.mem_filter.mp hx
  cases heq
  exact ⟨e, mem_toList.mp hx, by simpa using stays, rfl⟩

theorem Consumed.none_iff {op : Op T} {q q' : LeaseQueue T} (h : Consumed op q q') {seq : Nat} {e : Entry T}
    (he : q.inner.entries[seq]? = some e) : q'.inner.entries[seq]? = none ↔ op.removes (seq, e) = true := by
  constructor
  · intro none
    by_contra stays
    obtain ⟨lease, entries⟩ := h.entries
    have mem : releasing lease (seq, e) ∈ q'.inner.entries.toList := by
      rw [entries]
      exact List.mem_map_of_mem (List.mem_filter.mpr ⟨mem_toList.mpr he, by simpa using stays⟩)
    have he' := mem_toList.mp mem
    rw [show (releasing lease (seq, e)).1 = seq from rfl, none] at he'
    cases he'
  · intro removes
    cases he' : q'.inner.entries[seq]? with
    | none => rfl
    | some e' =>
      obtain ⟨e₀, he₀, stays, -⟩ := h.getElem? he'
      rw [he, Option.some.injEq] at he₀
      rw [← he₀, removes] at stays
      cases stays

theorem Client.step_consumes {op : Op T} (h : op.consumes) {q : LeaseQueue T} (exact : Exact q.inner) :
    Consumed op q (Client.step op { queue := q, permits := [] }).2.queue ∧
      (op.purges → (Client.step op { queue := q, permits := [] }).1.dropped =
        (q.inner.entries.toList.filter op.removes).length) ∧
      ∀ leases, (Client.step op { queue := q, permits := [] }).1 = .leases leases → ∀ lease ∈ leases,
        ∃ e, q.inner.entries[lease.seq]? = some e ∧ e.item = lease.item := by
  let m : Model T := {
    cfg := q.inner.cfg, address := q.address, entries := q.inner.entries.toList, permits := [], nextSeq := q.inner.nextSeq }
  let bare : LeaseQueue T := { q with reservations := { items := 0, bytes := 0 } }
  have refines : ClientRefines { queue := bare, permits := [] } m :=
    ⟨⟨⟨exact, rfl, rfl, rfl⟩, rfl, rfl, nofun⟩, rfl⟩
  obtain ⟨answer, refines⟩ := step_refines op refines
  obtain ⟨⟨lease, left⟩, count⟩ := Model.step_consumes h m
  have real := Client.step_reservations h bare q.reservations
  rw [left] at refines
  rw [answer] at real
  change Client.step op { queue := q, permits := [] } = _ at real
  rw [real]
  refine ⟨⟨refines.queue.inner.exact, ⟨lease, refines.queue.inner.entries⟩, refines.queue.inner.cfg,
    refines.queue.inner.nextSeq, rfl, refines.queue.address⟩, count, fun leases held lease mem => ?_⟩
  obtain ⟨e, stored, item⟩ := Model.step_leases held lease mem
  exact ⟨e, mem_toList.mp stored, item⟩

end Tgin.Queue
