import Tgin.Queue.Order

/-! No item of a queue is lost and none is counted twice: over a whole run the items taken out and the items
    stored are the items committed, each under its own seq, and every call says how many it took out. -/

namespace Tgin.Queue
open Std (ExtTreeMap ExtTreeSet)

variable {T : Type}

/-- The items of some entries, under their seqs. -/
def itemsOf (entries : List (Nat × Entry T)) : List (Nat × T) := entries.map fun x => (x.1, x.2.item)

/-- The items of `before` that `after` lacks. -/
def missing (before after : List (Nat × Entry T)) : List (Nat × T) :=
  (itemsOf before).filter fun x => x.1 ∉ after.map (·.1)

/-- A call of a run, with its answer and the stored items that it took out. -/
structure Call (T : Type) where
  op : Op T
  result : Result T
  removed : List (Nat × T)

namespace Call

/-- What the call stored. -/
def committed (call : Call T) : List (Nat × T) :=
  match call.op, call.result with
  | .commit _ item _ _, .committed (.ok seq) | .commitForeign _ item _ _, .committed (.ok seq) => [(seq, item)]
  | _, _ => []

/-- How many items the call says it took out. -/
def count (call : Call T) : Nat :=
  match call.op, call.result with
  | .tryReserve _, .reserved (.ok permit) => permit.evicted
  | .ackBelow .., .acked count _ | .ackAll _, .acked count _ => count
  | .ackSeq .., .found found => found.toNat
  | .purge, .count count | .purgeWhere _, .count count => count
  | .drainAll, .items items => items.length
  | _, _ => 0

/-- The items the call hands out, if it does. -/
def items (call : Call T) : Option (List T) :=
  match call.op, call.result with
  | .ackBelow .., .acked _ items | .ackAll _, .acked _ items | .drainAll, .items items => some items
  | _, _ => none

/-- The call says exactly what it took out. -/
structure Accounted (call : Call T) : Prop where
  count : call.count = call.removed.length
  items : ∀ items ∈ call.items, items = call.removed.map (·.2)

end Call

namespace Client

def stored (c : Client T) : List (Nat × T) := itemsOf c.queue.inner.entries.toList

def call (op : Op T) (c : Client T) : Call T :=
  let (result, c') := step op c
  { op, result, removed := missing c.queue.inner.entries.toList c'.queue.inner.entries.toList }

/-- The calls of a run. -/
def calls : List (Op T) → Client T → List (Call T)
  | [], _ => []
  | op :: ops, c => call op c :: calls ops (step op c).2

/-- `seq` is available and nobody holds it, or it is not available and one holder holds it. -/
def InOnePlace (c : Client T) (seq : Nat) : Prop :=
  (seq ∈ c.queue.inner.available ∧ ∀ holder, c.queue.inner.holds holder seq = false) ∨
    (seq ∉ c.queue.inner.available ∧ ∃ holder, ∀ holder', c.queue.inner.holds holder' seq ↔ holder' = holder)

end Client

/-! ### What is missing -/

theorem missing_of_keys {before after : List (Nat × Entry T)} (h : ∀ x ∈ before, x.1 ∈ after.map (·.1)) :
    missing before after = [] := by
  refine List.filter_eq_nil_iff.mpr fun x hx => ?_
  obtain ⟨y, hy, rfl⟩ := List.mem_map.mp hx
  simpa using h y hy

theorem missing_filter {entries : List (Nat × Entry T)} (nodup : (entries.map (·.1)).Nodup)
    (pred : Nat × Entry T → Bool) :
    missing entries (entries.filter fun x => !pred x) = itemsOf (entries.filter pred) := by
  rw [missing, itemsOf, List.filter_map, itemsOf]
  refine congrArg _ (List.filter_congr fun x hx => ?_)
  have stays : x.1 ∈ (entries.filter fun x => !pred x).map (·.1) ↔ pred x = false := by
    constructor
    · intro h
      obtain ⟨y, hy, heq⟩ := List.mem_map.mp h
      obtain ⟨hy, hp⟩ := List.mem_filter.mp hy
      rw [← List.inj_on_of_nodup_map nodup hy hx heq]
      simpa using hp
    · intro h
      exact List.mem_map_of_mem (List.mem_filter.mpr ⟨hx, by simp [h]⟩)
  cases hp : pred x <;> simp [stays, hp]

theorem itemsOf_perm (entries : List (Nat × Entry T)) (pred : Nat × Entry T → Bool) :
    (itemsOf (entries.filter pred) ++ itemsOf (entries.filter fun x => !pred x)).Perm (itemsOf entries) := by
  rw [itemsOf, itemsOf, ← List.map_append]
  exact (List.filter_append_perm pred entries).map _

/-! ### What making room drops -/

/-- Eviction drops the oldest of `seqs`, until there is room or none is left. -/
theorem evict_eq (size : Nat) (seqs : List Nat) (m : Model T) :
    ∃ n ≤ seqs.length, m.evict size seqs = (n, m.without fun x => x.1 ∈ seqs.take n) ∧
      (n = seqs.length ∨ m.room (m.without fun x => x.1 ∈ seqs.take n).entries size = .ok ()) := by
  have none : (m.without fun x => x.1 ∈ ([] : List Nat)) = m := by simp [Model.without]
  induction seqs generalizing m with
  | nil => exact ⟨0, le_rfl, by rw [Model.evict, List.take_nil, none], .inl rfl⟩
  | cons seq seqs ih =>
    rw [Model.evict]
    cases room : m.room m.entries size with
    | ok _ =>
      refine ⟨0, Nat.zero_le _, ?_, .inr ?_⟩
      · rw [List.take_zero, none]
      · rw [List.take_zero, none, room]
    | error full =>
      obtain ⟨n, hn, evicted, enough⟩ := ih (m.without (·.1 = seq)) (by simp [Model.without])
      have both : ((m.without (·.1 = seq)).without fun x => x.1 ∈ seqs.take n) =
          m.without fun x => x.1 ∈ (seq :: seqs).take (n + 1) := by
        simp only [Model.without, List.filter_filter, List.take_succ_cons, List.mem_cons]
        refine congrArg (fun entries => { m with entries }) (List.filter_congr fun x _ => ?_)
        by_cases hs : x.1 = seq <;> simp [hs]
      refine ⟨n + 1, Nat.succ_le_succ hn, ?_, ?_⟩
      · simp only [evicted, both]
      · rw [both] at enough
        exact enough.imp (congrArg (· + 1)) id

/-- The entries left when the `n` oldest unleased ones are dropped. -/
def Model.sparing (m : Model T) (n : Nat) : Model T := m.without fun x => x.1 ∈ (m.unleased.map (·.1)).take n

theorem sparing_zero (m : Model T) : m.sparing 0 = m := by simp [Model.sparing, Model.without]

theorem sparing_all {m : Model T} (nodup : (m.entries.map (·.1)).Nodup) :
    (m.sparing m.unleased.length).entries = m.leased := by
  rw [Model.sparing, ← List.length_map, List.take_length]
  refine List.filter_congr fun x hx => ?_
  have : x.1 ∈ m.unleased.map (·.1) ↔ x.2.lease = none := by
    constructor
    · intro h
      obtain ⟨y, hy, heq⟩ := List.mem_map.mp h
      obtain ⟨hy, hl⟩ := List.mem_filter.mp hy
      rw [← List.inj_on_of_nodup_map nodup hy hx heq]
      simpa using hl
    · intro h
      exact List.mem_map_of_mem (List.mem_filter.mpr ⟨hx, by simp [h]⟩)
  cases hl : x.2.lease <;> simp [this, hl]

/-- A call of `tryReserve` changes nothing, or it drops some of the oldest unleased entries and gives out a permit,
    for which there is room then. -/
theorem Model.tryReserve_cases {m : Model T} (nodup : (m.entries.map (·.1)).Nodup) (size : Nat) :
    (∃ full, m.tryReserve size = (.error full, m)) ∨
      ∃ n ≤ m.unleased.length,
        m.tryReserve size =
          (.ok { evicted := n, size, reservations := m.address },
            { m.sparing n with permits := m.permits ++ [{ evicted := n, size, reservations := m.address }] }) ∧
        size ≤ m.cfg.capacityBytes ∧ m.room (m.sparing n).entries size = .ok () := by
  unfold Model.tryReserve
  by_cases large : size > m.cfg.capacityBytes
  · exact .inl ⟨.tooLarge, if_pos large⟩
  · rw [if_neg large]
    have fits := Nat.le_of_not_lt large
    unfold Model.makeRoom
    cases room : m.room m.entries size with
    | ok _ => exact .inr ⟨0, Nat.zero_le _, by rw [sparing_zero], fits, by rw [sparing_zero, room]⟩
    | error full =>
      cases m.cfg.onFull with
      | backpressure => exact .inl ⟨full, rfl⟩
      | dropOldest =>
        cases roomLeased : m.room m.leased size with
        | error full => exact .inl ⟨full, rfl⟩
        | ok _ =>
          obtain ⟨n, hn, evicted, enough⟩ := evict_eq size (m.unleased.map (·.1)) m
          rw [List.length_map] at hn enough
          refine .inr ⟨n, hn, ?_, fits, ?_⟩
          · simp only [evicted, Model.sparing]
            rfl
          · rcases enough with rfl | room
            · rw [sparing_all nodup, roomLeased]
            · exact room

theorem length_sparing {m : Model T} (nodup : (m.entries.map (·.1)).Nodup) {n : Nat} (hn : n ≤ m.unleased.length) :
    (m.entries.filter fun x => x.1 ∈ (m.unleased.map (·.1)).take n).length = n := by
  have sub : m.unleased.map (·.1) |>.Sublist (m.entries.map (·.1)) := List.filter_sublist.map _
  have perm : ((m.entries.filter fun x => x.1 ∈ (m.unleased.map (·.1)).take n).map (·.1)).Perm
      ((m.unleased.map (·.1)).take n) := by
    refine (List.perm_ext_iff_of_nodup (nodup.sublist (List.filter_sublist.map _))
      ((nodup.sublist sub).sublist (List.take_sublist _ _))).mpr fun s => ?_
    constructor
    · intro h
      obtain ⟨x, hx, rfl⟩ := List.mem_map.mp h
      simpa using (List.mem_filter.mp hx).2
    · intro h
      obtain ⟨x, hx, rfl⟩ := List.mem_map.mp (sub.subset (List.mem_of_mem_take h))
      exact List.mem_map_of_mem (List.mem_filter.mpr ⟨hx, by simpa using h⟩)
  rw [← List.length_map (f := (·.1)), perm.length_eq, List.length_take, List.length_map, Nat.min_eq_left hn]

/-! ### One call -/

def Model.call (op : Op T) (m : Model T) : Call T :=
  { op, result := (Model.step op m).1, removed := missing m.entries (Model.step op m).2.entries }

/-- What a call does to the items committed, stored and taken out. -/
structure Call.Conserves (call : Call T) (m m' : Model T) : Prop where
  accounted : call.Accounted
  items : (call.removed ++ itemsOf m'.entries).Perm (itemsOf m.entries ++ call.committed)
  seqs : List.range m.nextSeq ++ call.committed.map (·.1) = List.range m'.nextSeq

section
variable {m : Model T}

/-- A call that stores nothing and takes nothing out. -/
theorem conserves_keeps {op : Op T} {result : Result T} {m' : Model T} (hc : Call.committed ⟨op, result, []⟩ = [])
    (count : Call.count ⟨op, result, []⟩ = 0) (items : Call.items ⟨op, result, []⟩ = none)
    (entries : itemsOf m'.entries = itemsOf m.entries) (nextSeq : m'.nextSeq = m.nextSeq) :
    Call.Conserves ⟨op, result, missing m.entries m'.entries⟩ m m' := by
  have keys : m'.entries.map (·.1) = m.entries.map (·.1) := by
    have := congrArg (List.map Prod.fst) entries
    simpa only [itemsOf, List.map_map, Function.comp_def] using this
  have nothing : missing m.entries m'.entries = [] :=
    missing_of_keys fun x hx => keys ▸ List.mem_map_of_mem hx
  rw [nothing]
  refine ⟨⟨count, fun _ h => ?_⟩, ?_, ?_⟩
  · rw [items] at h
    cases h
  · rw [hc, entries, List.append_nil, List.nil_append]
  · rw [hc, nextSeq, List.map_nil, List.append_nil]

/-- A call that takes out the entries that match `pred`. -/
theorem conserves_removes (nodup : (m.entries.map (·.1)).Nodup) {op : Op T} {result : Result T} {m' : Model T}
    (pred : Nat × Entry T → Bool) (hc : ∀ removed, Call.committed ⟨op, result, removed⟩ = [])
    (count : ∀ removed, Call.count ⟨op, result, removed⟩ = (m.entries.filter pred).length)
    (items : ∀ removed, ∀ items ∈ Call.items ⟨op, result, removed⟩, items = (m.entries.filter pred).map (·.2.item))
    (entries : m'.entries = m.entries.filter fun x => !pred x) (nextSeq : m'.nextSeq = m.nextSeq) :
    Call.Conserves ⟨op, result, missing m.entries m'.entries⟩ m m' := by
  have removed : missing m.entries m'.entries = itemsOf (m.entries.filter pred) := by rw [entries, missing_filter nodup]
  refine ⟨⟨?_, fun l h => ?_⟩, ?_, ?_⟩
  · rw [count, removed, itemsOf, List.length_map]
  · rw [items _ l h, removed, itemsOf, List.map_map]
    rfl
  · rw [hc, removed, entries, List.append_nil]
    exact itemsOf_perm m.entries pred
  · rw [hc, nextSeq, List.map_nil, List.append_nil]

theorem itemsOf_relabel (entries : List (Nat × Entry T)) (p : Nat × Entry T → Prop) [DecidablePred p]
    (lease : Option Holding) :
    itemsOf (entries.map fun x => (x.1, if p x then { x.2 with lease } else x.2)) = itemsOf entries := by
  rw [itemsOf, itemsOf, List.map_map]
  refine List.map_congr_left fun x _ => ?_
  simp only [Function.comp_apply]
  split <;> rfl

/-- Every call accounts for what it takes out, stores under a fresh seq, and loses nothing. -/
theorem Model.step_conserves (nodup : (m.entries.map (·.1)).Nodup) (op : Op T) :
    (Model.call op m).Conserves m (Model.step op m).2 := by
  cases op with
  | tryReserve size =>
    rw [Model.call]
    simp only [Model.step]
    rcases m.tryReserve_cases nodup size with ⟨full, hr⟩ | ⟨n, hn, hr, -, -⟩
    · rw [hr]
      exact conserves_keeps rfl rfl rfl rfl rfl
    · rw [hr]
      exact conserves_removes nodup (fun x => x.1 ∈ (m.unleased.map Prod.fst).take n) (fun _ => rfl)
        (fun _ => show n = _ from (length_sparing nodup hn).symm) (fun _ _ h => by cases h) rfl rfl
  | commit i item key ackId =>
    rw [Model.call]
    simp only [Model.step]
    cases m.permits[i]? with
    | none => exact conserves_keeps rfl rfl rfl rfl rfl
    | some permit =>
      refine ⟨⟨?_, fun _ h => by cases h⟩, ?_, List.range_succ.symm⟩
      · rw [missing_of_keys fun x hx => ?_]
        · rfl
        · rw [List.map_append]
          exact List.mem_append_left _ (List.mem_map_of_mem hx)
      · rw [missing_of_keys fun x hx => ?_]
        · rw [List.nil_append, itemsOf, List.map_append]
          exact List.Perm.refl _
        · rw [List.map_append]
          exact List.mem_append_left _ (List.mem_map_of_mem hx)
  | commitForeign permit item key ackId =>
    rw [Model.call]
    simp only [Model.step]
    split <;> exact conserves_keeps rfl rfl rfl rfl rfl
  | dropPermit i =>
    rw [Model.call]
    simp only [Model.step]
    split <;> exact conserves_keeps rfl rfl rfl rfl rfl
  | lease holder max now => exact conserves_keeps rfl rfl rfl (itemsOf_relabel _ _ _) rfl
  | held holder minAckId now => exact conserves_keeps rfl rfl rfl (itemsOf_relabel _ _ _) rfl
  | ackBelow holder ackId =>
    exact conserves_removes nodup _ (fun _ => rfl) (fun _ => rfl) (fun _ _ h => (Option.some.inj h).symm) rfl rfl
  | ackAll holder =>
    exact conserves_removes nodup _ (fun _ => rfl) (fun _ => rfl) (fun _ _ h => (Option.some.inj h).symm) rfl rfl
  | ackSeq holder seq =>
    refine conserves_removes nodup _ (fun _ => rfl) (fun _ => ?_) (fun _ _ h => by cases h) rfl rfl
    have one : (m.entries.filter fun x => x.1 = seq && x.2.heldBy holder).length ≤ 1 := by
      have among : (m.entries.filter fun x => x.1 = seq && x.2.heldBy holder).map Prod.fst ⊆ [seq] := fun s hs => by
        obtain ⟨x, hx, rfl⟩ := List.mem_map.mp hs
        simpa using (Bool.and_eq_true_iff.mp (List.mem_filter.mp hx).2).1
      rw [← List.length_map (f := Prod.fst)]
      exact (List.subperm_of_subset (nodup.sublist (List.filter_sublist.map _)) among).length_le
    change Bool.toNat (decide (_ = 1)) = _
    rcases Nat.le_one_iff_eq_zero_or_eq_one.mp one with h | h <;> simp [h]
  | releaseSeq holder seq => exact conserves_keeps rfl rfl rfl (itemsOf_relabel _ _ _) rfl
  | expire now => exact conserves_keeps rfl rfl rfl (itemsOf_relabel _ _ _) rfl
  | stats => exact conserves_keeps rfl rfl rfl rfl rfl
  | purge => exact conserves_removes nodup _ (fun _ => rfl) (fun _ => rfl) (fun _ _ h => by cases h) rfl rfl
  | countWhere pred => exact conserves_keeps rfl rfl rfl rfl rfl
  | purgeWhere pred => exact conserves_removes nodup _ (fun _ => rfl) (fun _ => rfl) (fun _ _ h => by cases h) rfl rfl
  | drainAll =>
    refine conserves_removes nodup (fun _ => true) (fun _ => rfl) (fun _ => ?_) (fun _ _ h => (Option.some.inj h).symm) rfl rfl
    exact List.length_map _
  | setConfig cfg => exact conserves_keeps rfl rfl rfl rfl rfl

end

/-! ### Runs -/

namespace Client

theorem inOnePlace {c : Client T} {m : Model T} (h : ClientRefines c m) {x : Nat × T} (hx : x ∈ c.stored) :
    c.InOnePlace x.1 := by
  obtain ⟨⟨seq, e⟩, he, rfl⟩ := List.mem_map.mp hx
  have he := ExtTreeMap.mem_toList_iff_getElem?_eq_some.mp he
  have holds (holder : HolderId) : c.queue.inner.holds holder seq ↔ e.holds holder := by
    rw [h.queue.inner.holds_iff, stores_of he]
  have available : seq ∈ c.queue.inner.available ↔ e.lease = none := by
    rw [h.queue.inner.exact.indexes.available, stores_of he]
  cases hl : e.lease with
  | none =>
    refine .inl ⟨available.mpr hl, fun holder => ?_⟩
    rw [Bool.eq_false_iff, ne_eq, holds]
    rintro ⟨holding, held, -⟩
    rw [hl] at held
    cases held
  | some holding =>
    refine .inr ⟨fun free => ?_, holding.holder, fun holder => ?_⟩
    · rw [available, hl] at free
      cases free
    · rw [holds, Entry.holds, hl]
      simp [eq_comm]

/-- The calls of a run from any state account for themselves; together they take out and leave stored what was stored
    before and what they committed. -/
theorem calls_conserve (ops : List (Op T)) {c : Client T} {m : Model T} (h : ClientRefines c m) :
    let c' := (Run.run step ops c).2
    let calls := calls ops c
    (calls.flatMap (·.removed) ++ c'.stored).Perm (c.stored ++ calls.flatMap (·.committed)) ∧
      List.range c.queue.inner.nextSeq ++ (calls.flatMap (·.committed)).map (·.1) =
        List.range c'.queue.inner.nextSeq ∧
      (∀ call ∈ calls, call.Accounted) ∧ ∀ x ∈ c'.stored, c'.InOnePlace x.1 := by
  induction ops generalizing c m with
  | nil =>
    refine ⟨?_, List.append_nil _, nofun, fun x hx => inOnePlace h hx⟩
    simp only [calls, List.flatMap_nil, List.nil_append, List.append_nil, Run.run_nil]
    exact List.Perm.refl _
  | cons op ops ih =>
    obtain ⟨answer, refines⟩ := step_refines op h
    obtain ⟨items, seqs, accounted, places⟩ := ih refines
    have one := Model.step_conserves h.queue.inner.nodup_entries op
    simp only [calls, Run.run_cons, List.flatMap_cons]
    set c' := (step op c).2 with hc'
    set m' := (Model.step op m).2
    have call : call op c = Model.call op m := by
      rw [Model.call, ← answer, ← h.queue.inner.entries, ← refines.queue.inner.entries]
      rfl
    have before : c.stored = itemsOf m.entries := congrArg itemsOf h.queue.inner.entries
    have after : c'.stored = itemsOf m'.entries := congrArg itemsOf refines.queue.inner.entries
    refine ⟨?_, ?_, ?_, places⟩
    · rw [call, before, List.append_assoc, ← List.append_assoc (itemsOf m.entries)]
      refine (items.append_left _).trans ?_
      rw [after, ← List.append_assoc]
      exact one.items.append_right _
    · rw [call, List.map_append, ← List.append_assoc, h.queue.inner.nextSeq, one.seqs, ← refines.queue.inner.nextSeq]
      exact seqs
    · rw [List.forall_mem_cons, call]
      exact ⟨one.accounted, accounted⟩

/-- Over every run of calls on a new queue: the seqs given out are 0, 1, 2, … in this order; the items taken out by
    the calls and the items stored at the end are the committed ones, each once; every call says exactly how many
    items it took out and hands out exactly those, where it hands out any, and the counts add up to the items
    committed that are not stored; a stored item is either available or leased to one holder. -/
theorem run_conserves (address : Nat) (cfg : QueueConfig) (ops : List (Op T)) :
    let c := (run address cfg ops).2
    let calls := calls ops (new address cfg)
    let committed := calls.flatMap (·.committed)
    committed.map (·.1) = List.range c.queue.inner.nextSeq ∧
      (calls.flatMap (·.removed) ++ c.stored).Perm committed ∧
      (∀ call ∈ calls, call.Accounted) ∧
      (calls.map (·.count)).sum + c.stored.length = committed.length ∧
      ∀ x ∈ c.stored, c.InOnePlace x.1 := by
  obtain ⟨items, seqs, accounted, places⟩ := calls_conserve ops (clientRefines_new (T := T) address cfg)
  have empty : (new (T := T) address cfg).stored = [] := congrArg itemsOf (ExtTreeMap.toList_eq_nil_iff.mpr rfl)
  rw [empty, List.nil_append] at items
  refine ⟨seqs, items, accounted, ?_, places⟩
  have counts : (calls ops (new (T := T) address cfg)).map (·.count) =
      (calls ops (new address cfg)).map fun call => call.removed.length :=
    List.map_congr_left fun call hc => (accounted call hc).count
  rw [counts, ← List.length_flatMap, ← List.length_append]
  exact items.length_eq

end Client

end Tgin.Queue
