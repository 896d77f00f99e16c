import Tgin.Queue.Consistent

/-! What each operation of the queue does to its entries, one lemma for each. Loops over seqs move one entry
    after the other, and a step does not touch the entries of the seqs still to come. -/

namespace Tgin.Queue
open Std (ExtTreeMap ExtTreeSet)
open Ordered (Represents total)

variable {T R : Type}

/-! ### Loops -/

section
variable {q : Inner T}

theorem mem_entries {m : Entries T} {s : Nat} : s ∈ m ↔ ∃ e : Entry T, m[s]? = some e := by
  rw [← ExtTreeMap.isSome_getElem?_iff_mem, Option.isSome_iff_exists]

/-- The state after removing `seqs` from `q`. -/
structure Removed (q : Inner T) (seqs : List Nat) (q' : Inner T) : Prop where
  exact : Exact q'
  entries : ∀ s : Nat, q'.entries[s]? = if s ∈ seqs then none else q.entries[s]?
  cfg : q'.cfg = q.cfg
  nextSeq : q'.nextSeq = q.nextSeq

theorem removed_nil (h : Exact q) : Removed q [] q := ⟨h, fun s => by simp, rfl, rfl⟩

theorem removed_cons (h : Exact q) {seq : Nat} {e : Entry T} (he : q.entries[seq]? = some e) {seqs : List Nat}
    {q' : Inner T} (hr : Removed (q.remove seq).2 seqs q') : Removed q (seq :: seqs) q' := by
  obtain ⟨-, hb⟩ := remove_becomes h he
  refine ⟨hr.exact, fun s => ?_, hr.cfg.trans hb.cfg, hr.nextSeq.trans hb.nextSeq⟩
  rw [hr.entries, hb.entries]
  by_cases hs : s = seq
  · simp [hs]
  · rw [Ordered.getElem?_erase_of_ne hs]
    simp [hs]

theorem stored_after_remove (h : Exact q) {seq : Nat} {e : Entry T} (he : q.entries[seq]? = some e)
    {seqs : List Nat} (hn : seq ∉ seqs) {s : Nat} (hs : s ∈ seqs) :
    (q.remove seq).2.entries[s]? = q.entries[s]? := by
  rw [(remove_becomes h he).2.entries]
  refine Ordered.getElem?_erase_of_ne ?_
  rintro rfl
  exact hn hs

theorem foldl_remove {seqs : List Nat} (nodup : seqs.Nodup) {q : Inner T} (h : Exact q) (hs : ∀ s ∈ seqs, s ∈ q.entries) :
    Removed q seqs (seqs.foldl (fun inner seq => (inner.remove seq).2) q) := by
  induction seqs generalizing q with
  | nil => exact removed_nil h
  | cons seq seqs ih =>
    obtain ⟨hn, nodup⟩ := List.nodup_cons.mp nodup
    obtain ⟨e, he⟩ := mem_entries.mp (hs seq List.mem_cons_self)
    refine removed_cons h he (ih nodup (remove_becomes h he).2.consistent fun s hs' => ?_)
    rw [← ExtTreeMap.isSome_getElem?_iff_mem, stored_after_remove h he hn hs', ExtTreeMap.isSome_getElem?_iff_mem]
    exact hs s (List.mem_cons_of_mem _ hs')

/-- The loop of `ackWhere`: the removed items, and whether one of them had a key. -/
def ackLoop (acc : List T × Bool × Inner T) (seq : Nat) : List T × Bool × Inner T :=
  match acc.2.2.remove seq with
  | (some entry, inner) => (acc.1 ++ [entry.item], acc.2.1 || entry.key.isSome, inner)
  | (none, inner) => (acc.1, acc.2.1, inner)

theorem foldl_ackLoop {seqs : List Nat} (nodup : seqs.Nodup) {q : Inner T} (h : Exact q)
    (hs : ∀ s ∈ seqs, s ∈ q.entries) (items : List T) (freed : Bool) :
    (seqs.foldl ackLoop (items, freed, q)).1 = items ++ (seqs.filterMap fun s => q.entries[s]?.map (·.item)) ∧
      Removed q seqs (seqs.foldl ackLoop (items, freed, q)).2.2 := by
  induction seqs generalizing q items freed with
  | nil => exact ⟨by simp, removed_nil h⟩
  | cons seq seqs ih =>
    obtain ⟨hn, nodup⟩ := List.nodup_cons.mp nodup
    obtain ⟨e, he⟩ := mem_entries.mp (hs seq List.mem_cons_self)
    obtain ⟨hr, hb⟩ := remove_becomes h he
    have step : ackLoop (items, freed, q) seq = (items ++ [e.item], freed || e.key.isSome, (q.remove seq).2) := by
      rw [ackLoop, show q.remove seq = ((q.remove seq).1, (q.remove seq).2) from rfl, hr]
    have stored : ∀ s ∈ seqs, (q.remove seq).2.entries[s]? = q.entries[s]? := fun s => stored_after_remove h he hn
    rw [List.foldl_cons, step]
    obtain ⟨hi, hr⟩ := ih nodup hb.consistent (fun s hs' => by
      rw [← ExtTreeMap.isSome_getElem?_iff_mem, stored s hs', ExtTreeMap.isSome_getElem?_iff_mem]
      exact hs s (List.mem_cons_of_mem _ hs')) (items ++ [e.item]) (freed || e.key.isSome)
    refine ⟨?_, removed_cons h he hr⟩
    rw [hi, List.filterMap_congr fun s hs' => by rw [stored s hs']]
    simp [he]

/-- The state after changing the entries `seqs` of `q` by `f`. -/
structure Updated (q : Inner T) (seqs : List Nat) (f : Entry T → Entry T) (unrecorded : Nat → Prop) (q' : Inner T) :
    Prop where
  consistent : Consistent q' unrecorded
  entries : ∀ s : Nat, q'.entries[s]? = if s ∈ seqs then q.entries[s]?.map f else q.entries[s]?
  cfg : q'.cfg = q.cfg
  nextSeq : q'.nextSeq = q.nextSeq

theorem updated_nil {unrecorded : Nat → Prop} (h : Consistent q unrecorded) (f : Entry T → Entry T) :
    Updated q [] f unrecorded q := ⟨h, fun s => by simp, rfl, rfl⟩

theorem updated_cons {f : Entry T → Entry T} {unrecorded unrecorded' : Nat → Prop} {seq : Nat} {e : Entry T}
    (he : q.entries[seq]? = some e) {q₁ q' : Inner T} (hb : Becomes q (q.entries.insert seq (f e)) unrecorded q₁)
    {seqs : List Nat} (hn : seq ∉ seqs) (hr : Updated q₁ seqs f unrecorded' q') :
    Updated q (seq :: seqs) f unrecorded' q' := by
  refine ⟨hr.consistent, fun s => ?_, hr.cfg.trans hb.cfg, hr.nextSeq.trans hb.nextSeq⟩
  rw [hr.entries, hb.entries]
  by_cases hs : s = seq
  · subst hs
    simp [hn, he]
  · rw [Ordered.getElem?_insert_of_ne hs]
    simp [hs]

theorem stored_after_insert {unrecorded : Nat → Prop} {seq : Nat} {e : Entry T} {q₁ : Inner T}
    (hb : Becomes q (q.entries.insert seq e) unrecorded q₁) {seqs : List Nat} (hn : seq ∉ seqs) {s : Nat}
    (hs : s ∈ seqs) : q₁.entries[s]? = q.entries[s]? := by
  rw [hb.entries]
  refine Ordered.getElem?_insert_of_ne ?_ _
  rintro rfl
  exact hn hs

theorem stores_congr {m m' : Entries T} {s : Nat} (h : m'[s]? = m[s]?) {P : Entry T → Prop} :
    Stores m' P s ↔ Stores m P s := by
  simp only [Stores, h]

theorem foldl_requeue {seqs : List Nat} (nodup : seqs.Nodup) {q : Inner T} (h : Exact q)
    (hs : ∀ s ∈ seqs, Stores q.entries (·.lease.isSome) s) :
    Updated q seqs (fun e => { e with lease := none }) (fun _ => False) (seqs.foldl .requeue q) := by
  induction seqs generalizing q with
  | nil => exact updated_nil h _
  | cons seq seqs ih =>
    obtain ⟨hn, nodup⟩ := List.nodup_cons.mp nodup
    obtain ⟨e, he, hl⟩ := hs seq List.mem_cons_self
    obtain ⟨holding, hl⟩ := Option.isSome_iff_exists.mp hl
    have hb := requeue_becomes h he hl
    refine updated_cons he hb hn (ih nodup hb.consistent fun s hs' => ?_)
    exact (stores_congr (stored_after_insert hb hn hs')).mpr (hs s (List.mem_cons_of_mem _ hs'))

theorem Consistent.congr {unrecorded unrecorded' : Nat → Prop} (h : Consistent q unrecorded)
    (hu : ∀ s, unrecorded s ↔ unrecorded' s) : Consistent q unrecorded' :=
  (funext fun s => propext (hu s) : unrecorded = unrecorded') ▸ h

/-- The loop of `lease`. -/
def leaseLoop (holder : HolderId) (deadline : Option Instant) (acc : List (Lease T) × Inner T) (seq : Nat) :
    List (Lease T) × Inner T :=
  let inner := acc.2.startLease seq holder deadline
  (match inner.entries[seq]? with
    | some entry => acc.1 ++ [entry.toLease seq]
    | none => acc.1,
    inner)

theorem foldl_leaseLoop {seqs : List Nat} (nodup : seqs.Nodup) {q : Inner T} {unrecorded : Nat → Prop}
    (h : Consistent q unrecorded) (hs : ∀ s ∈ seqs, Stores q.entries (·.lease = none) s) (holder : HolderId)
    (deadline : Option Instant) (leases : List (Lease T)) :
    (seqs.foldl (leaseLoop holder deadline) (leases, q)).1 =
        leases ++ (seqs.filterMap fun s => q.entries[s]?.map (·.toLease s)) ∧
      (seqs.foldl (leaseLoop holder deadline) (leases, q)).2.leases = q.leases ∧
      Updated q seqs (fun e => { e with lease := some { holder, deadline } }) (fun s => unrecorded s ∨ s ∈ seqs)
        (seqs.foldl (leaseLoop holder deadline) (leases, q)).2 := by
  induction seqs generalizing q leases unrecorded with
  | nil => exact ⟨by simp, rfl, h.congr (by simp), fun s => by simp, rfl, rfl⟩
  | cons seq seqs ih =>
    obtain ⟨hn, nodup⟩ := List.nodup_cons.mp nodup
    obtain ⟨e, he, hl⟩ := hs seq List.mem_cons_self
    obtain ⟨hb, hleases⟩ := startLease_becomes h he hl holder deadline
    have step : leaseLoop holder deadline (leases, q) seq =
        (leases ++ [e.toLease seq], q.startLease seq holder deadline) := by
      simp only [leaseLoop, hb.entries, ExtTreeMap.getElem?_insert_self]
      rfl
    have stored : ∀ s ∈ seqs, (q.startLease seq holder deadline).entries[s]? = q.entries[s]? :=
      fun s => stored_after_insert hb hn
    rw [List.foldl_cons, step]
    obtain ⟨hi, hl', hr⟩ := ih nodup hb.consistent (fun s hs' =>
      (stores_congr (stored s hs')).mpr (hs s (List.mem_cons_of_mem _ hs'))) (leases ++ [e.toLease seq])
    refine ⟨?_, hl'.trans hleases, ?_⟩
    · rw [hi, List.filterMap_congr fun s hs' => by rw [stored s hs']]
      simp [he]
    · obtain ⟨consistent, entries, cfg, nextSeq⟩ := updated_cons he hb hn hr
      exact ⟨consistent.congr fun s => by rw [List.mem_cons, or_assoc], entries, cfg, nextSeq⟩

/-- Renewing a lease leaves every index as it is. -/
theorem renew_becomes (h : Exact q) {seq : Nat} {e e' : Entry T} (he : q.entries[seq]? = some e) (hk : e'.key = e.key)
    (hsize : e'.size = e.size) (hl : e'.lease = none ↔ e.lease = none) (hh : ∀ holder, e'.holds holder ↔ e.holds holder) :
    Becomes q (q.entries.insert seq e') (fun _ => False) { q with entries := q.entries.insert seq e' } := by
  have isSome : e'.lease.isSome = e.lease.isSome := by
    cases h' : e'.lease <;> cases h : e.lease <;> simp_all
  have stores : ∀ P : Entry T → Prop, (P e' ↔ P e) → ∀ s,
      Stores (q.entries.insert seq e') P s ↔ Stores q.entries P s := by
    intro P hP s
    rw [stores_insert]
    by_cases hs : s = seq
    · subst hs
      simp [stores_of he, hP]
    · simp [hs]
  have queued : ∀ key, e'.queuedOf key ↔ e.queuedOf key := fun key => by simp only [Entry.queuedOf, hk, hl]
  have totals : ∀ f : Entry T → Nat, f e' = f e → total (q.entries.insert seq e') f = total q.entries f := by
    intro f hf
    have := Ordered.total_insert he e' f
    omega
  have leasedSize : e'.leasedSize = e.leasedSize := by simp only [Entry.leasedSize, isSome, hsize]
  have first : ∀ key s, FirstOf (q.entries.insert seq e') key s ↔ FirstOf q.entries key s := by
    intro key s
    refine and_congr (stores _ (queued key) s) ⟨fun h s' e₁ he₁ hk₁ => ?_, fun h s' e₁ he₁ hk₁ => ?_⟩
    · by_cases hs : s' = seq
      · subst hs
        rw [he, Option.some.injEq] at he₁
        subst he₁
        have := h s' e' ExtTreeMap.getElem?_insert_self (hk.trans hk₁)
        exact ⟨hl.mp this.1, this.2⟩
      · exact h s' e₁ (by rw [Ordered.getElem?_insert_of_ne hs, he₁]) hk₁
    · by_cases hs : s' = seq
      · subst hs
        rw [ExtTreeMap.getElem?_insert_self, Option.some.injEq] at he₁
        subst he₁
        have := h s' e he (hk ▸ hk₁)
        exact ⟨hl.mpr this.1, this.2⟩
      · exact h s' e₁ (by rw [← he₁, Ordered.getElem?_insert_of_ne hs]) hk₁
  refine ⟨⟨fresh_insert h.fresh he e', ⟨fun s => ?_, h.indexes.queuedPerKey.congr fun key s => ?_, fun key => ?_,
    h.indexes.leases.congr fun holder s => ?_⟩, fun s => ?_, ?_, ?_⟩, rfl, rfl, rfl⟩
  · rw [stores _ hl]
    exact h.indexes.available s
  · exact (stores _ (queued key) s).symm
  · rw [totals _ (by simp only [Entry.leasedOf, isSome, hk])]
    exact h.indexes.leasedPerKey key
  · rw [stores _ (hh holder) s]
  · rw [Eligible, stores _ (by rw [hk, hl]) s]
    simp only [first]
    exact h.eligible s
  · rw [totals _ hsize]
    exact h.bytes
  · rw [totals _ leasedSize]
    exact h.leasedBytes

/-- An entry of `held`: renewed until `deadline` unless its ack id is too low. -/
def Entry.renewed (minAckId : Int) (deadline : Option Instant) (e : Entry T) : Entry T :=
  if e.ackId < minAckId then e else { e with lease := e.lease.map fun holding => { holding with deadline } }

/-- The loop of `held`. -/
def heldLoop (minAckId : Int) (deadline : Option Instant) (acc : List (Lease T) × Inner T) (seq : Nat) :
    List (Lease T) × Inner T :=
  match acc.2.entries[seq]? with
  | none => acc
  | some entry =>
    if entry.ackId < minAckId then acc
    else
      let entry := { entry with lease := entry.lease.map fun holding => { holding with deadline } }
      (acc.1 ++ [entry.toLease seq], { acc.2 with entries := acc.2.entries.insert seq entry })

theorem renewed_becomes (h : Exact q) {seq : Nat} {e : Entry T} (he : q.entries[seq]? = some e) (minAckId : Int)
    (deadline : Option Instant) (leases : List (Lease T)) :
    Becomes q (q.entries.insert seq (e.renewed minAckId deadline)) (fun _ => False)
        (heldLoop minAckId deadline (leases, q) seq).2 ∧
      (heldLoop minAckId deadline (leases, q) seq).1 =
        if e.ackId < minAckId then leases else leases ++ [e.toLease seq] := by
  simp only [heldLoop, he, Entry.renewed]
  split
  · have same : q.entries.insert seq e = q.entries := by
      refine ExtTreeMap.ext_getElem? fun s => ?_
      by_cases hs : s = seq
      · rw [hs, ExtTreeMap.getElem?_insert_self, he]
      · exact Ordered.getElem?_insert_of_ne hs _
    exact ⟨⟨h, same.symm, rfl, rfl⟩, rfl⟩
  · refine ⟨renew_becomes h he rfl rfl Option.map_eq_none_iff fun holder => ?_, rfl⟩
    cases hl : e.lease <;> simp [Entry.holds, hl]

theorem foldl_heldLoop {seqs : List Nat} (nodup : seqs.Nodup) {q : Inner T} (h : Exact q)
    (hs : ∀ s ∈ seqs, s ∈ q.entries) (minAckId : Int) (deadline : Option Instant) (leases : List (Lease T)) :
    (seqs.foldl (heldLoop minAckId deadline) (leases, q)).1 =
        leases ++ (seqs.filterMap fun s => q.entries[s]?.bind fun e =>
          if e.ackId < minAckId then none else some (e.toLease s)) ∧
      Updated q seqs (Entry.renewed minAckId deadline) (fun _ => False)
        (seqs.foldl (heldLoop minAckId deadline) (leases, q)).2 := by
  induction seqs generalizing q leases with
  | nil => exact ⟨by simp, updated_nil h _⟩
  | cons seq seqs ih =>
    obtain ⟨hn, nodup⟩ := List.nodup_cons.mp nodup
    obtain ⟨e, he⟩ := mem_entries.mp (hs seq List.mem_cons_self)
    obtain ⟨hb, hlist⟩ := renewed_becomes h he minAckId deadline leases
    generalize hacc : heldLoop minAckId deadline (leases, q) seq = acc at hb hlist
    obtain ⟨leases', q₁⟩ := acc
    have stored : ∀ s ∈ seqs, q₁.entries[s]? = q.entries[s]? := fun s => stored_after_insert hb hn
    rw [List.foldl_cons, hacc]
    obtain ⟨hi, hr⟩ := ih nodup hb.consistent (fun s hs' => by
      rw [← ExtTreeMap.isSome_getElem?_iff_mem, stored s hs', ExtTreeMap.isSome_getElem?_iff_mem]
      exact hs s (List.mem_cons_of_mem _ hs')) leases'
    refine ⟨?_, updated_cons he hb hn hr⟩
    dsimp only at hlist
    rw [hi, List.filterMap_congr fun s hs' => by rw [stored s hs'], hlist, List.filterMap_cons, he, Option.bind_some]
    by_cases hmin : e.ackId < minAckId <;> simp [hmin]

/-- The loop of `purge`. -/
def purgeLoop (inner : Inner T) (seq : Nat) : Inner T :=
  match inner.entries[seq]? with
  | none => inner
  | some entry =>
    { inner with entries := inner.entries.erase seq, bytes := wrappingSub inner.bytes entry.size }

/-- The state after the loop of `purge` over the unleased entries `seqs`. -/
structure Purged (q : Inner T) (seqs : List Nat) (q' : Inner T) : Prop where
  entries : ∀ s : Nat, q'.entries[s]? = if s ∈ seqs then none else q.entries[s]?
  bytes : q'.bytes = total q'.entries Entry.size % wordSize
  rest : q' = { q with entries := q'.entries, bytes := q'.bytes }
  leased : ∀ f : Entry T → Nat, (∀ e, e.lease = none → f e = 0) → total q'.entries f = total q.entries f

theorem foldl_purgeLoop {seqs : List Nat} (nodup : seqs.Nodup) {q : Inner T}
    (h : q.bytes = total q.entries Entry.size % wordSize) (hs : ∀ s ∈ seqs, Stores q.entries (·.lease = none) s) :
    Purged q seqs (seqs.foldl purgeLoop q) := by
  induction seqs generalizing q with
  | nil => exact ⟨fun s => by simp, h, rfl, fun _ _ => rfl⟩
  | cons seq seqs ih =>
    obtain ⟨hn, nodup⟩ := List.nodup_cons.mp nodup
    obtain ⟨e, he, hl⟩ := hs seq List.mem_cons_self
    have step : purgeLoop q seq = { q with entries := q.entries.erase seq, bytes := wrappingSub q.bytes e.size } := by
      rw [purgeLoop, he]
    have bytes : wrappingSub q.bytes e.size = total (q.entries.erase seq) Entry.size % wordSize := by
      rw [h, ← Ordered.total_erase he, wrappingSub_mod]
    have ne : ∀ s ∈ seqs, s ≠ seq := by
      rintro s hs' rfl
      exact hn hs'
    rw [List.foldl_cons, step]
    have hp := ih (q := { q with entries := q.entries.erase seq, bytes := wrappingSub q.bytes e.size }) nodup bytes
      fun s hs' => stores_erase.mpr ⟨hs s (List.mem_cons_of_mem _ hs'), ne s hs'⟩
    refine ⟨fun s => ?_, hp.bytes, hp.rest, fun f hf => ?_⟩
    · rw [hp.entries]
      by_cases hs' : s = seq
      · simp [hs']
      · rw [Ordered.getElem?_erase_of_ne hs']
        simp [hs']
    · rw [hp.leased f hf, ← Ordered.total_erase he f, hf e hl, Nat.add_zero]

end

end Tgin.Queue
