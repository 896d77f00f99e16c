import Tgin.Lib.Ordered
import Tgin.Queue

/-! The indexes of the queue are what its entries imply. Every change of the queue takes one entry out of
    the indexes or puts one in, so the invariant is stated for indexes that stand for any map of entries:
    inside a step that is the queue's own map without the entry that moves. `lease` records what it leased
    only at its end; the entries it has yet to record are a parameter too. -/

namespace Tgin.Queue
open Std (ExtTreeMap ExtTreeSet)
open Ordered (Represents total)

variable {T R : Type}

abbrev Entries (T : Type) := ExtTreeMap Nat (Entry T)

/-! ### What the entries imply -/

/-- `m` stores an entry with property `P` under `seq`. -/
def Stores (m : Entries T) (P : Entry T → Prop) (seq : Nat) : Prop := ∃ e, m[seq]? = some e ∧ P e

theorem stores_of {m : Entries T} {P : Entry T → Prop} {seq : Nat} {e : Entry T} (h : m[seq]? = some e) :
    Stores m P seq ↔ P e := by
  simp [Stores, h]

theorem stores_erase {m : Entries T} {P : Entry T → Prop} {seq s : Nat} :
    Stores (m.erase seq) P s ↔ Stores m P s ∧ s ≠ seq := by
  simp only [Stores, ExtTreeMap.getElem?_erase, Std.compare_eq_iff_eq]
  by_cases h : seq = s
  · simp [h]
  · simp [h, Ne.symm h]

theorem stores_insert {m : Entries T} {P : Entry T → Prop} {seq s : Nat} {e : Entry T} :
    Stores (m.insert seq e) P s ↔ (s = seq ∧ P e) ∨ (s ≠ seq ∧ Stores m P s) := by
  simp only [Stores, ExtTreeMap.getElem?_insert, Std.compare_eq_iff_eq]
  by_cases h : seq = s
  · simp [h]
  · simp [h, Ne.symm h]

theorem not_stores {m : Entries T} {P : Entry T → Prop} {seq : Nat} (h : m[seq]? = none) : ¬ Stores m P seq := by
  simp [Stores, h]

def Entry.queuedOf (key : Nat) (e : Entry T) : Prop := e.lease = none ∧ e.key = some key

/-- 1 for a leased entry of `key`. -/
def Entry.leasedOf (key : Nat) (e : Entry T) : Nat := if e.lease.isSome ∧ e.key = some key then 1 else 0

def Entry.leasedSize (e : Entry T) : Nat := if e.lease.isSome then e.size else 0

def Entry.holds (holder : HolderId) (e : Entry T) : Prop := ∃ holding, e.lease = some holding ∧ holding.holder = holder

/-- No entry of `key` is leased, and `seq` is the oldest. -/
def FirstOf (m : Entries T) (key seq : Nat) : Prop :=
  Stores m (·.queuedOf key) seq ∧
    ∀ (s : Nat) (e : Entry T), m[s]? = some e → e.key = some key → e.lease = none ∧ seq ≤ s

/-- `Ordering.perKey` may lease `seq`. -/
def Eligible (m : Entries T) (seq : Nat) : Prop :=
  Stores m (fun e => e.lease = none ∧ e.key = none) seq ∨ ∃ key, FirstOf m key seq

/-- A count that is not kept while it is zero. -/
def positive (n : Nat) : Option Nat := if n = 0 then none else some n

/-- The indexes of `q` stand for the entries `m`, of which `leases` lacks the `unrecorded` ones. -/
structure Indexes (q : Inner T) (m : Entries T) (unrecorded : Nat → Prop) : Prop where
  available : ∀ s, s ∈ q.available ↔ Stores m (·.lease = none) s
  queuedPerKey : Represents q.queuedPerKey fun key => Stores m (·.queuedOf key)
  leasedPerKey : ∀ key : Nat, q.leasedPerKey[key]? = positive (total m (Entry.leasedOf key))
  leases : Represents q.leases fun holder s => Stores m (·.holds holder) s ∧ ¬ unrecorded s

/-- The indexes of `q` are what its entries imply, except that `leases` lacks the `unrecorded` ones. -/
structure Consistent (q : Inner T) (unrecorded : Nat → Prop) : Prop where
  fresh : ∀ s ∈ q.entries, s < q.nextSeq
  indexes : Indexes q q.entries unrecorded
  eligible : ∀ s, s ∈ q.eligible ↔ Eligible q.entries s
  bytes : q.bytes = total q.entries Entry.size % wordSize
  leasedBytes : q.leasedBytes = total q.entries Entry.leasedSize % wordSize

/-- The indexes of `q` are exactly what its entries imply. -/
abbrev Exact (q : Inner T) : Prop := Consistent q fun _ => False

theorem exact_new (address : Nat) (cfg : QueueConfig) : Exact (LeaseQueue.new (T := T) address cfg).inner := by
  have none : ∀ P s, ¬ Stores (∅ : Entries T) P s := fun P s => not_stores ExtTreeMap.getElem?_empty
  refine ⟨?_, ⟨?_, ?_, ?_, ?_⟩, ?_, rfl, rfl⟩
  · simp [LeaseQueue.new]
  · simp [LeaseQueue.new, none]
  · exact Represents.empty fun _ _ => none _ _
  · simp [LeaseQueue.new, positive]
  · exact Represents.empty fun _ _ h => none _ _ h.1
  · simp [LeaseQueue.new, Eligible, FirstOf, none]

/-! ### Eligible entries -/

section
variable {q : Inner T} {m m' : Entries T} {unrecorded : Nat → Prop}

theorem total_leasedOf_eq_zero {key : Nat} :
    total m (Entry.leasedOf key) = 0 ↔ ∀ (s : Nat) (e : Entry T), m[s]? = some e → e.key = some key → e.lease = none := by
  rw [Ordered.total_eq_zero]
  refine forall_congr' fun s => forall_congr' fun e => forall_congr' fun _ => ?_
  by_cases hk : e.key = some key <;> cases hl : e.lease <;> simp [Entry.leasedOf, hk, hl]

theorem FirstOf.unique {key key' seq : Nat} (h : FirstOf m key seq) (h' : FirstOf m key' seq) : key = key' := by
  obtain ⟨⟨e, he, -, hk⟩, -⟩ := h
  obtain ⟨⟨e', he', -, hk'⟩, -⟩ := h'
  rw [he, Option.some.injEq] at he'
  rw [← he', hk, Option.some.injEq] at hk'
  exact hk'

/-- `eligibleOf` finds the oldest entry of a key that has no leased one. -/
theorem eligibleOf_eq_some (h : Indexes q m unrecorded) {key seq : Nat} :
    q.eligibleOf key = some seq ↔ FirstOf m key seq := by
  unfold Inner.eligibleOf
  by_cases hl : total m (Entry.leasedOf key) = 0
  · have free : q.leasedPerKey.contains key = false := by
      rw [← Bool.not_eq_true, ExtTreeMap.contains_iff_mem, ← ExtTreeMap.isSome_getElem?_iff_mem, h.leasedPerKey, hl]
      simp [positive]
    have unleased := total_leasedOf_eq_zero.mp hl
    rw [free, if_neg Bool.false_ne_true]
    cases hs : q.queuedPerKey[key]? with
    | none =>
      have := h.queuedPerKey.eq_none.mp hs
      simp [FirstOf, this]
    | some seqs =>
      have mem : ∀ s, s ∈ seqs ↔ Stores m (·.queuedOf key) s := h.queuedPerKey.mem_of_some hs
      simp only [Ordered.set_head?_eq_some, mem, FirstOf, Nat.compare_eq_lt]
      refine and_congr_right fun _ => ⟨fun hle s e he hk => ?_, fun hle s hs => ?_⟩
      · have := hle s ⟨e, he, unleased s e he hk, hk⟩
        exact ⟨unleased s e he hk, by omega⟩
      · obtain ⟨e, he, -, hk⟩ := hs
        have := (hle s e he hk).2
        omega
  · have busy : q.leasedPerKey.contains key = true := by
      rw [ExtTreeMap.contains_iff_mem, ← ExtTreeMap.isSome_getElem?_iff_mem, h.leasedPerKey]
      simp [positive, hl]
    rw [busy, if_pos rfl]
    simp only [reduceCtorEq, false_iff]
    exact fun hf => hl (total_leasedOf_eq_zero.mpr fun s e he hk => (hf.2 s e he hk).1)

/-- Two maps that differ only in entries of `key` have the same first entries of any other key. -/
theorem firstOf_congr {key : Option Nat} (same : ∀ (s : Nat) (e : Entry T), e.key ≠ key → (m[s]? = some e ↔ m'[s]? = some e))
    {k seq : Nat} (hk : some k ≠ key) : FirstOf m k seq ↔ FirstOf m' k seq := by
  have same' : ∀ (s : Nat) (e : Entry T), e.key = some k → (m[s]? = some e ↔ m'[s]? = some e) :=
    fun s e he => same s e (he ▸ hk)
  refine and_congr (exists_congr fun e => ?_) (forall_congr' fun s => forall_congr' fun e => ?_)
  · exact ⟨fun ⟨h, hq⟩ => ⟨(same' seq e hq.2).mp h, hq⟩, fun ⟨h, hq⟩ => ⟨(same' seq e hq.2).mpr h, hq⟩⟩
  · exact ⟨fun h he hk => h ((same' s e hk).mpr he) hk, fun h he hk => h ((same' s e hk).mp he) hk⟩

end

/-! ### Rekeying -/

/-- `eligible` with the seq `before` of a key replaced by the seq `after`. -/
def rekeyEligible (before after : Option Nat) (eligible : ExtTreeSet Nat) : ExtTreeSet Nat :=
  if before = after then eligible
  else
    let eligible := match before with
      | some seq => eligible.erase seq
      | none => eligible
    match after with
    | some seq => eligible.insert seq
    | none => eligible

theorem mem_rekeyEligible {before after : Option Nat} {eligible : ExtTreeSet Nat}
    (h : ∀ s, before = some s → s ∈ eligible) (s : Nat) :
    s ∈ rekeyEligible before after eligible ↔ after = some s ∨ (s ∈ eligible ∧ before ≠ some s) := by
  unfold rekeyEligible
  split
  · rename_i he
    subst he
    have := h s
    by_cases hb : before = some s <;> simp [hb, this]
  · cases before <;> cases after <;> simp [and_comm]

/-- What `rekeyed` leaves for a key: the change, with `eligible` brought up to date. -/
theorem rekeyed_some (q : Inner T) (key : Nat) (change : Inner T → R × Inner T) :
    q.rekeyed (some key) change = ((change q).1, { (change q).2 with
      eligible := rekeyEligible (q.eligibleOf key) ((change q).2.eligibleOf key) (change q).2.eligible }) := by
  unfold Inner.rekeyed rekeyEligible
  dsimp only
  split <;> rfl

section
variable {q q' : Inner T} {m m' : Entries T} {unrecorded unrecorded' : Nat → Prop}

theorem eligible_rekeyed {key : Nat} (h : Indexes q m unrecorded) (h' : Indexes q' m' unrecorded')
    (same : ∀ (s : Nat) (e : Entry T), e.key ≠ some key → (m[s]? = some e ↔ m'[s]? = some e))
    (he : ∀ s, s ∈ q.eligible ↔ Eligible m s) (s : Nat) :
    s ∈ rekeyEligible (q.eligibleOf key) (q'.eligibleOf key) q.eligible ↔ Eligible m' s := by
  have keyless : Stores m (fun e => e.lease = none ∧ e.key = none) s ↔
      Stores m' (fun e => e.lease = none ∧ e.key = none) s := by
    refine exists_congr fun e => and_congr_left fun hk => same s e ?_
    rw [hk.2]
    simp
  rw [mem_rekeyEligible fun s hs => (he s).mpr (.inr ⟨key, (eligibleOf_eq_some h).mp hs⟩), he, ne_eq,
    eligibleOf_eq_some h, eligibleOf_eq_some h', Eligible, Eligible, ← keyless]
  constructor
  · rintro (hf | ⟨hk | ⟨k, hf⟩, hne⟩)
    · exact .inr ⟨key, hf⟩
    · exact .inl hk
    · have : some k ≠ some key := fun heq => hne (Option.some.inj heq ▸ hf)
      exact .inr ⟨k, (firstOf_congr same this).mp hf⟩
  · rintro (hk | ⟨k, hf⟩)
    · refine .inr ⟨.inl hk, fun hf => ?_⟩
      obtain ⟨e, he, -, hk⟩ := hk
      have := ((stores_of he).mp hf.1).2
      simp [hk] at this
    · by_cases heq : k = key
      · exact .inl (heq ▸ hf)
      · have hf := (firstOf_congr same (fun h => heq (Option.some.inj h))).mpr hf
        exact .inr ⟨.inr ⟨k, hf⟩, fun hf' => heq (hf.unique hf')⟩

end

/-! ### Moving one entry in the indexes -/

section
variable {q : Inner T} {m : Entries T} {unrecorded : Nat → Prop} {seq : Nat} {e : Entry T}

theorem stores_erase_of_not {P : Entry T → Prop} (he : m[seq]? = some e) (hP : ¬ P e) {s : Nat} :
    Stores (m.erase seq) P s ↔ Stores m P s := by
  rw [stores_erase, and_iff_left_iff_imp]
  rintro hs rfl
  exact hP ((stores_of he).mp hs)

theorem stores_insert_of_not {P : Entry T → Prop} (hn : m[seq]? = none) (hP : ¬ P e) {s : Nat} :
    Stores (m.insert seq e) P s ↔ Stores m P s := by
  rw [stores_insert]
  constructor
  · rintro (⟨-, h⟩ | ⟨-, h⟩)
    · exact absurd h hP
    · exact h
  · intro h
    refine .inr ⟨?_, h⟩
    rintro rfl
    exact not_stores hn h

theorem removeFrom_represents {K : Type} [Ord K] [Std.TransOrd K] [Std.LawfulEqOrd K]
    {m : ExtTreeMap K (ExtTreeSet Nat)} {P : K → Nat → Prop} (h : Represents m P) (key : K) (seq : Nat) :
    Represents (removeFrom m key seq) fun k s => P k s ∧ ¬ (k = key ∧ s = seq) := by
  have : removeFrom m key seq = Ordered.erasePair m key seq := by
    unfold removeFrom Ordered.erasePair
    cases m[key]? <;> rfl
  rw [this]
  exact h.erasePair key seq

theorem link_eq (q : Inner T) (seq : Nat) (key : Option Nat) :
    q.link seq key = { q with
      available := q.available.insert seq
      queuedPerKey := key.elim q.queuedPerKey fun key => Ordered.insertPair q.queuedPerKey key seq
      eligible := key.elim (q.eligible.insert seq) fun _ => q.eligible } := by
  cases key <;> rfl

theorem unlink_eq (h : seq ∈ q.available) (key : Option Nat) :
    q.unlink seq key = { q with
      available := q.available.erase seq
      queuedPerKey := key.elim q.queuedPerKey fun key => removeFrom q.queuedPerKey key seq
      eligible := key.elim (q.eligible.erase seq) fun _ => q.eligible } := by
  cases key <;> simp [Inner.unlink, h]

theorem unlink_of_notMem (h : seq ∉ q.available) (key : Option Nat) : q.unlink seq key = q := by
  simp [Inner.unlink, h]

theorem unlink_eligible_of_key (h : seq ∈ q.available) {key : Option Nat} (hk : key ≠ none) :
    (q.unlink seq key).eligible = q.eligible := by
  obtain ⟨k, rfl⟩ := Option.ne_none_iff_exists'.mp hk
  rw [unlink_eq h, Option.elim_some]

theorem mem_unlink_eligible (h : seq ∈ q.available) (s : Nat) :
    s ∈ (q.unlink seq none).eligible ↔ s ≠ seq ∧ s ∈ q.eligible := by
  rw [unlink_eq h, Option.elim_none, ExtTreeSet.mem_erase, ne_eq, Std.compare_eq_iff_eq, eq_comm]

theorem link_eligible_of_key {key : Option Nat} (hk : key ≠ none) : (q.link seq key).eligible = q.eligible := by
  obtain ⟨k, rfl⟩ := Option.ne_none_iff_exists'.mp hk
  rfl

theorem mem_link_eligible (s : Nat) : s ∈ (q.link seq none).eligible ↔ s = seq ∨ s ∈ q.eligible := by
  rw [link_eq, Option.elim_none, ExtTreeSet.mem_insert, Std.compare_eq_iff_eq, eq_comm]

theorem unlink_indexes (h : Indexes q m unrecorded) (he : m[seq]? = some e) (hl : e.lease = none) :
    Indexes (q.unlink seq e.key) (m.erase seq) unrecorded := by
  rw [unlink_eq ((h.available seq).mpr ⟨e, he, hl⟩)]
  refine ⟨fun s => ?_, ?_, fun key => ?_, h.leases.congr fun holder s => ?_⟩
  · rw [ExtTreeSet.mem_erase, h.available, stores_erase, ne_eq, Std.compare_eq_iff_eq, and_comm, eq_comm]
  · cases hk : e.key with
    | none => exact h.queuedPerKey.congr fun k s => (stores_erase_of_not he (by simp [Entry.queuedOf, hk])).symm
    | some key =>
      refine (removeFrom_represents h.queuedPerKey key seq).congr fun k s => ?_
      rw [stores_erase]
      refine and_congr_right fun hs => not_congr ⟨fun h => h.2, ?_⟩
      rintro rfl
      have := ((stores_of he).mp hs).2
      rw [hk, Option.some.injEq] at this
      exact ⟨this.symm, rfl⟩
  · have := Ordered.total_erase he (Entry.leasedOf key)
    have zero : e.leasedOf key = 0 := by simp [Entry.leasedOf, hl]
    rw [h.leasedPerKey, ← this, zero, Nat.add_zero]
  · rw [stores_erase_of_not he]
    simp [Entry.holds, hl]

theorem link_indexes (h : Indexes q m unrecorded) (hn : m[seq]? = none) (hl : e.lease = none) :
    Indexes (q.link seq e.key) (m.insert seq e) unrecorded := by
  rw [link_eq]
  refine ⟨fun s => ?_, ?_, fun key => ?_, h.leases.congr fun holder s => ?_⟩
  · rw [ExtTreeSet.mem_insert, h.available, stores_insert, Std.compare_eq_iff_eq, @eq_comm _ seq]
    by_cases hs : s = seq <;> simp [hs, hl]
  · cases hk : e.key with
    | none => exact h.queuedPerKey.congr fun k s => (stores_insert_of_not hn (by simp [Entry.queuedOf, hk])).symm
    | some key =>
      refine (h.queuedPerKey.insertPair key seq).congr fun k s => ?_
      rw [stores_insert]
      by_cases hs : s = seq
      · simp [hs, not_stores hn, Entry.queuedOf, hl, hk, eq_comm]
      · simp [hs]
  · have := Ordered.total_insert_new hn e (Entry.leasedOf key)
    have zero : e.leasedOf key = 0 := by simp [Entry.leasedOf, hl]
    rw [h.leasedPerKey, this, zero, Nat.add_zero]
  · rw [stores_insert_of_not hn]
    simp [Entry.holds, hl]

/-- The leased items of each key with one more of `key`. -/
def countLeased (leasedPerKey : ExtTreeMap Nat Nat) (key : Option Nat) : ExtTreeMap Nat Nat :=
  key.elim leasedPerKey fun key => leasedPerKey.insert key (leasedPerKey[key]?.getD 0 + 1)

/-- The leased items of each key with one less of `key`. -/
def uncountLeased (leasedPerKey : ExtTreeMap Nat Nat) (key : Option Nat) : ExtTreeMap Nat Nat :=
  key.elim leasedPerKey fun key =>
    match leasedPerKey[key]? with
    | none => leasedPerKey
    | some count => if count - 1 = 0 then leasedPerKey.erase key else leasedPerKey.insert key (count - 1)

theorem leasedOf_of_leased (hl : e.lease.isSome) (key : Nat) :
    e.leasedOf key = if e.key = some key then 1 else 0 := by
  simp [Entry.leasedOf, hl]

theorem lease_indexes (h : Indexes q m unrecorded) (hn : m[seq]? = none) (hl : e.lease.isSome) :
    Indexes { q with leasedPerKey := countLeased q.leasedPerKey e.key } (m.insert seq e)
      fun s => unrecorded s ∨ s = seq := by
  have leased : e.lease ≠ none := Option.isSome_iff_ne_none.mp hl
  refine ⟨fun s => ?_, h.queuedPerKey.congr fun k s => ?_, fun key => ?_, h.leases.congr fun holder s => ?_⟩
  · rw [stores_insert_of_not hn leased, h.available]
  · rw [stores_insert_of_not hn fun hq => leased hq.1]
  · rw [Ordered.total_insert_new hn, leasedOf_of_leased hl]
    have hkey := h.leasedPerKey key
    cases hk : e.key with
    | none => simpa [countLeased] using hkey
    | some k =>
      simp only [countLeased, Option.elim_some, ExtTreeMap.getElem?_insert, Std.compare_eq_iff_eq, Option.some.injEq]
      by_cases heq : k = key
      · subst heq
        rw [hkey]
        by_cases h0 : total m (Entry.leasedOf k) = 0 <;> simp [positive, h0]
      · simp [heq, hkey]
  · rw [stores_insert]
    by_cases hs : s = seq
    · simp [hs, not_stores hn]
    · simp [hs]

theorem unlease_indexes (h : Indexes q m unrecorded) (he : m[seq]? = some e) {holding : Holding}
    (hl : e.lease = some holding) (hr : ¬ unrecorded seq) :
    Indexes { q with
      leasedPerKey := uncountLeased q.leasedPerKey e.key
      leases := removeFrom q.leases holding.holder seq } (m.erase seq) unrecorded := by
  have leased : e.lease ≠ none := by simp [hl]
  refine ⟨fun s => ?_, h.queuedPerKey.congr fun k s => ?_, fun key => ?_,
    (removeFrom_represents h.leases holding.holder seq).congr fun holder s => ?_⟩
  · rw [stores_erase_of_not he leased, h.available]
  · rw [stores_erase_of_not he fun hq => leased hq.1]
  · have hsum := Ordered.total_erase he (Entry.leasedOf key)
    rw [leasedOf_of_leased (by simp [hl])] at hsum
    have hkey := h.leasedPerKey key
    cases hk : e.key with
    | none =>
      simp only [hk, reduceCtorEq, if_false, Nat.add_zero] at hsum
      simp only [uncountLeased, Option.elim_none, hkey, hsum]
    | some k =>
      by_cases heq : k = key
      · subst heq
        simp only [hk, if_true] at hsum
        have count : q.leasedPerKey[k]? = some (total (m.erase seq) (Entry.leasedOf k) + 1) := by
          rw [hkey, ← hsum]
          simp [positive]
        simp only [uncountLeased, Option.elim_some, count, Nat.add_sub_cancel]
        by_cases h0 : total (m.erase seq) (Entry.leasedOf k) = 0 <;> simp [positive, h0]
      · simp only [hk, Option.some.injEq, heq, if_false, Nat.add_zero] at hsum
        rw [hsum, ← hkey]
        simp only [uncountLeased, Option.elim_some]
        split
        · rfl
        · split
          · simp [ExtTreeMap.getElem?_erase, heq]
          · simp [ExtTreeMap.getElem?_insert, heq]
  · rw [stores_erase]
    by_cases hs : s = seq
    · subst hs
      simp only [stores_of he, hr, not_false_eq_true, and_true, not_and, ne_eq, not_true_eq_false, and_false,
        iff_false]
      rintro ⟨holding', hl', rfl⟩ heq
      rw [hl, Option.some.injEq] at hl'
      exact heq (hl' ▸ rfl)
    · simp [hs]

end

/-! ### Moving one entry of the queue -/

/-- `m` and `m'` differ at `seq` only, and what they store there has the same key. -/
structure Moved (m m' : Entries T) (seq : Nat) (key : Option Nat) : Prop where
  off : ∀ s : Nat, s ≠ seq → m[s]? = m'[s]?
  before : ∀ e : Entry T, m[seq]? = some e → e.key = key
  after : ∀ e : Entry T, m'[seq]? = some e → e.key = key

theorem moved_insert {m : Entries T} {seq : Nat} {e e' : Entry T} (he : m[seq]? = some e) (hk : e'.key = e.key) :
    Moved m (m.insert seq e') seq e.key := by
  refine ⟨fun s hs => ?_, fun e₁ h₁ => ?_, fun e₁ h₁ => ?_⟩
  · exact (Ordered.getElem?_insert_of_ne hs _).symm
  · rw [he, Option.some.injEq] at h₁
    rw [h₁]
  · rw [ExtTreeMap.getElem?_insert_self, Option.some.injEq] at h₁
    rw [← h₁, hk]

theorem moved_erase {m : Entries T} {seq : Nat} {e : Entry T} (he : m[seq]? = some e) :
    Moved m (m.erase seq) seq e.key := by
  refine ⟨fun s hs => ?_, fun e₁ h₁ => ?_, fun e₁ h₁ => ?_⟩
  · exact (Ordered.getElem?_erase_of_ne hs).symm
  · rw [he, Option.some.injEq] at h₁
    rw [h₁]
  · rw [ExtTreeMap.getElem?_erase_self] at h₁
    cases h₁

theorem moved_insert_new {m : Entries T} {seq : Nat} {e : Entry T} (hn : m[seq]? = none) :
    Moved m (m.insert seq e) seq e.key := by
  refine ⟨fun s hs => ?_, fun e₁ h₁ => ?_, fun e₁ h₁ => ?_⟩
  · exact (Ordered.getElem?_insert_of_ne hs _).symm
  · rw [hn] at h₁
    cases h₁
  · rw [ExtTreeMap.getElem?_insert_self, Option.some.injEq] at h₁
    rw [h₁]

section
variable {q : Inner T} {m m' : Entries T} {unrecorded unrecorded' : Nat → Prop} {seq : Nat} {key : Option Nat}

theorem Moved.same (h : Moved m m' seq key) (s : Nat) (e : Entry T) (hk : e.key ≠ key) :
    m[s]? = some e ↔ m'[s]? = some e := by
  by_cases hs : s = seq
  · subst hs
    exact ⟨fun he => absurd (h.before e he) hk, fun he => absurd (h.after e he) hk⟩
  · rw [h.off s hs]

/-- Moving an entry without a key changes what is eligible at its seq only. -/
theorem Moved.eligible_keyless (h : Moved m m' seq none) (s : Nat) :
    Eligible m' s ↔ (s = seq ∧ Stores m' (·.lease = none) seq) ∨ (s ≠ seq ∧ Eligible m s) := by
  have first : ∀ k, FirstOf m k s ↔ FirstOf m' k s := fun k => firstOf_congr h.same (by simp)
  by_cases hs : s = seq
  · subst hs
    simp only [true_and, ne_eq, not_true_eq_false, false_and, or_false]
    constructor
    · rintro (⟨e, he, hl, -⟩ | ⟨k, ⟨e, he, hl, -⟩, -⟩)
      · exact ⟨e, he, hl⟩
      · exact ⟨e, he, hl⟩
    · rintro ⟨e, he, hl⟩
      exact .inl ⟨e, he, hl, h.after e he⟩
  · simp only [Eligible, first, Stores, h.off s hs, hs, false_and, ne_eq, not_false_eq_true, true_and, false_or]

/-- `rekeyed` brings `eligible` up to date after a change of one entry of `key`, if the change leaves it
    alone for an entry with a key and updates it itself for one without. -/
theorem rekeyed_eligible (change : Inner T → R × Inner T) (h : Indexes q m unrecorded)
    (he : ∀ s, s ∈ q.eligible ↔ Eligible m s) (h' : Indexes (change q).2 m' unrecorded') (moved : Moved m m' seq key)
    (keyed : key ≠ none → (change q).2.eligible = q.eligible)
    (keyless : key = none → ∀ s, s ∈ (change q).2.eligible ↔
      (s = seq ∧ Stores m' (·.lease = none) seq) ∨ (s ≠ seq ∧ s ∈ q.eligible)) (s : Nat) :
    s ∈ (q.rekeyed key change).2.eligible ↔ Eligible m' s := by
  cases key with
  | none =>
    rw [moved.eligible_keyless, ← he]
    exact keyless rfl s
  | some key =>
    rw [rekeyed_some]
    simp only [keyed (by simp)]
    exact eligible_rekeyed h h' moved.same he s

/-- `rekeyed` touches nothing but `eligible`. -/
theorem rekeyed_eq (q : Inner T) (key : Option Nat) (change : Inner T → R × Inner T) :
    q.rekeyed key change =
      ((change q).1, { (change q).2 with eligible := (q.rekeyed key change).2.eligible }) := by
  cases key with
  | none => rfl
  | some key => rw [rekeyed_some]

theorem Indexes.of_eq {q' : Inner T} (h : Indexes q m unrecorded) (available : q'.available = q.available)
    (queuedPerKey : q'.queuedPerKey = q.queuedPerKey) (leasedPerKey : q'.leasedPerKey = q.leasedPerKey)
    (leases : q'.leases = q.leases) : Indexes q' m unrecorded :=
  ⟨available ▸ h.available, queuedPerKey ▸ h.queuedPerKey, leasedPerKey ▸ h.leasedPerKey, leases ▸ h.leases⟩

end

/-! ### The operations that move one entry -/

/-- `q` becomes `q'`, with `entries` and their indexes. -/
structure Becomes (q : Inner T) (entries : Entries T) (unrecorded : Nat → Prop) (q' : Inner T) : Prop where
  consistent : Consistent q' unrecorded
  entries : q'.entries = entries
  cfg : q'.cfg = q.cfg
  nextSeq : q'.nextSeq = q.nextSeq

section
variable {q : Inner T} {unrecorded : Nat → Prop} {seq : Nat} {e : Entry T}

theorem fresh_insert (h : ∀ s ∈ q.entries, s < q.nextSeq) (he : q.entries[seq]? = some e) (e' : Entry T) :
    ∀ s ∈ q.entries.insert seq e', s < q.nextSeq := by
  intro s hs
  rcases ExtTreeMap.mem_insert.mp hs with hs | hs
  · rw [← Ordered.compare_eq_iff.mp hs]
    exact h seq (ExtTreeMap.isSome_getElem?_iff_mem.mp (by simp [he]))
  · exact h s hs

/-- Takes `seq` out of the unleased ones and counts it among the leased ones. -/
def markLeased (seq : Nat) (key : Option Nat) (q : Inner T) : Inner T :=
  { q.unlink seq key with leasedPerKey := countLeased (q.unlink seq key).leasedPerKey key }

theorem startLease_eq (he : q.entries[seq]? = some e) (holder : HolderId) (deadline : Option Instant) :
    q.startLease seq holder deadline =
      (Inner.rekeyed { q with
          entries := q.entries.insert seq { e with lease := some { holder, deadline } }
          leasedBytes := wrappingAdd q.leasedBytes e.size }
        e.key fun q => ((), markLeased seq e.key q)).2 := by
  unfold Inner.startLease
  rw [he]
  dsimp only
  congr 2
  funext q
  unfold markLeased
  cases e.key <;> rfl

theorem startLease_becomes (h : Consistent q unrecorded) (he : q.entries[seq]? = some e) (hl : e.lease = none)
    (holder : HolderId) (deadline : Option Instant) :
    Becomes q (q.entries.insert seq { e with lease := some { holder, deadline } })
      (fun s => unrecorded s ∨ s = seq) (q.startLease seq holder deadline) ∧
    (q.startLease seq holder deadline).leases = q.leases := by
  rw [startLease_eq he]
  set e' : Entry T := { e with lease := some { holder, deadline } }
  set q₁ : Inner T := { q with
    entries := q.entries.insert seq e', leasedBytes := wrappingAdd q.leasedBytes e.size }
  have available : seq ∈ q₁.available := (h.indexes.available seq).mpr ⟨e, he, hl⟩
  have indexes₁ : Indexes q₁ q.entries unrecorded := h.indexes.of_eq rfl rfl rfl rfl
  have indexes₂ : Indexes (markLeased seq e.key q₁) (q.entries.insert seq e') fun s => unrecorded s ∨ s = seq := by
    have := lease_indexes (unlink_indexes indexes₁ he hl) ExtTreeMap.getElem?_erase_self (e := e') rfl
    rwa [Ordered.insert_erase_self] at this
  have unlinked := unlink_eq available e.key
  have keyed (hk : e.key ≠ none) : (markLeased seq e.key q₁).eligible = q.eligible :=
    unlink_eligible_of_key available hk
  have keyless (hk : e.key = none) (s : Nat) : s ∈ (markLeased seq e.key q₁).eligible ↔
      (s = seq ∧ Stores (q.entries.insert seq e') (·.lease = none) seq) ∨ (s ≠ seq ∧ s ∈ q.eligible) := by
    rw [stores_of ExtTreeMap.getElem?_insert_self, hk]
    simp only [e', reduceCtorEq, and_false, false_or]
    exact mem_unlink_eligible available s
  have eligible := rekeyed_eligible (fun q => ((), markLeased seq e.key q)) indexes₁ h.eligible indexes₂
    (moved_insert he rfl) keyed keyless
  rw [rekeyed_eq]
  have size : total (q.entries.insert seq e') Entry.size = total q.entries Entry.size := by
    have := Ordered.total_insert he e' Entry.size
    simpa [e'] using this
  have leasedSize : total (q.entries.insert seq e') Entry.leasedSize = total q.entries Entry.leasedSize + e.size := by
    have := Ordered.total_insert he e' Entry.leasedSize
    simpa [e', Entry.leasedSize, hl] using this
  simp only [markLeased, unlinked] at indexes₂ eligible ⊢
  refine ⟨⟨⟨fresh_insert h.fresh he e', indexes₂.of_eq rfl rfl rfl rfl, eligible, ?_, ?_⟩, rfl, rfl, rfl⟩, rfl⟩
  · rw [size]
    exact h.bytes
  · rw [leasedSize, ← wrappingAdd_mod, ← h.leasedBytes]

theorem endLease_eq (he : q.entries[seq]? = some e) {holding : Holding} (hl : e.lease = some holding) :
    q.endLease seq = { q with
      entries := q.entries.insert seq { e with lease := none }
      leasedBytes := wrappingSub q.leasedBytes e.size
      leasedPerKey := uncountLeased q.leasedPerKey e.key
      leases := removeFrom q.leases holding.holder seq } := by
  unfold Inner.endLease uncountLeased
  rw [he]
  dsimp only
  rw [hl]
  cases hk : e.key with
  | none => rfl
  | some key =>
    dsimp only [Option.elim_some]
    cases q.leasedPerKey[key]? with
    | none => rfl
    | some count =>
      dsimp only
      split <;> rfl

theorem endLease_of_unleased (he : q.entries[seq]? = some e) (hl : e.lease = none) : q.endLease seq = q := by
  simp [Inner.endLease, he, hl]

theorem endLease_indexes (h : Exact q) (he : q.entries[seq]? = some e) {holding : Holding}
    (hl : e.lease = some holding) : Indexes (q.endLease seq) (q.entries.erase seq) fun _ => False := by
  rw [endLease_eq he hl]
  exact (unlease_indexes h.indexes he hl id).of_eq rfl rfl rfl rfl

theorem total_erase_leasedSize (h : Exact q) (he : q.entries[seq]? = some e) :
    wrappingSub q.leasedBytes e.leasedSize = total (q.entries.erase seq) Entry.leasedSize % wordSize := by
  rw [h.leasedBytes, ← Ordered.total_erase he, wrappingSub_mod]

theorem requeue_becomes (h : Exact q) (he : q.entries[seq]? = some e) {holding : Holding}
    (hl : e.lease = some holding) :
    Becomes q (q.entries.insert seq { e with lease := none }) (fun _ => False) (q.requeue seq) := by
  set e' : Entry T := { e with lease := none }
  have requeue : q.requeue seq = (q.rekeyed e.key fun q => ((), (q.endLease seq).link seq e.key)).2 := by
    unfold Inner.requeue
    rw [he]
  have indexes : Indexes ((q.endLease seq).link seq e.key) (q.entries.insert seq e') fun _ => False := by
    have := link_indexes (endLease_indexes h he hl) ExtTreeMap.getElem?_erase_self (e := e') rfl
    rwa [Ordered.insert_erase_self] at this
  have ended := endLease_eq he hl
  have keyed (hk : e.key ≠ none) : ((q.endLease seq).link seq e.key).eligible = q.eligible := by
    rw [link_eligible_of_key hk, ended]
  have keyless (hk : e.key = none) (s : Nat) : s ∈ ((q.endLease seq).link seq e.key).eligible ↔
      (s = seq ∧ Stores (q.entries.insert seq e') (·.lease = none) seq) ∨ (s ≠ seq ∧ s ∈ q.eligible) := by
    rw [stores_of ExtTreeMap.getElem?_insert_self, hk, mem_link_eligible, ended]
    by_cases hs : s = seq <;> simp [hs, e']
  have eligible := rekeyed_eligible (fun q => ((), (q.endLease seq).link seq e.key)) h.indexes h.eligible indexes
    (moved_insert he rfl) keyed keyless
  have size : total (q.entries.insert seq e') Entry.size = total q.entries Entry.size := by
    have := Ordered.total_insert he e' Entry.size
    simpa [e'] using this
  have leasedSize : total (q.entries.insert seq e') Entry.leasedSize = total (q.entries.erase seq) Entry.leasedSize := by
    have := Ordered.total_insert_new (m := q.entries.erase seq) ExtTreeMap.getElem?_erase_self e' Entry.leasedSize
    rw [Ordered.insert_erase_self] at this
    simpa [e', Entry.leasedSize] using this
  have same : e.leasedSize = e.size := by simp [Entry.leasedSize, hl]
  rw [requeue, rekeyed_eq]
  simp only [link_eq, ended] at indexes eligible ⊢
  refine ⟨⟨fresh_insert h.fresh he e', indexes.of_eq rfl rfl rfl rfl, eligible, ?_, ?_⟩, rfl, rfl, rfl⟩
  · rw [size]
    exact h.bytes
  · rw [leasedSize, ← total_erase_leasedSize h he, same]

/-- The entry `e` is in no index of `q₁`, and its lease has ended. -/
structure Detached (q : Inner T) (seq : Nat) (e : Entry T) (q₁ : Inner T) : Prop where
  indexes : Indexes q₁ (q.entries.erase seq) fun _ => False
  entry : q₁.entries[seq]? = some { e with lease := none }
  rest : q₁.entries.erase seq = q.entries.erase seq
  cfg : q₁.cfg = q.cfg
  nextSeq : q₁.nextSeq = q.nextSeq
  bytes : q₁.bytes = q.bytes
  leasedBytes : q₁.leasedBytes = total (q.entries.erase seq) Entry.leasedSize % wordSize
  keyed : e.key ≠ none → q₁.eligible = q.eligible
  keyless : e.key = none → ∀ s, s ∈ q₁.eligible ↔ s ≠ seq ∧ s ∈ q.eligible

theorem detached (h : Exact q) (he : q.entries[seq]? = some e) :
    Detached q seq e ((q.endLease seq).unlink seq e.key) := by
  cases hl : e.lease with
  | none =>
    have available : seq ∈ q.available := (h.indexes.available seq).mpr ⟨e, he, hl⟩
    have leasedBytes := total_erase_leasedSize h he
    have zero : e.leasedSize = 0 := by simp [Entry.leasedSize, hl]
    rw [zero, h.leasedBytes, show ∀ n, wrappingSub (n % wordSize) 0 = n % wordSize from
      fun n => wrappingSub_mod n 0] at leasedBytes
    rw [endLease_of_unleased he hl]
    refine ⟨unlink_indexes h.indexes he hl, ?_, ?_, ?_, ?_, ?_, ?_, unlink_eligible_of_key available,
      fun hk => hk ▸ mem_unlink_eligible available⟩
    all_goals rw [unlink_eq available]
    · rw [he, ← hl]
    · exact h.leasedBytes.trans leasedBytes
  | some holding =>
    have indexes := endLease_indexes h he hl
    have notMem : seq ∉ (q.endLease seq).available := by
      rw [indexes.available, stores_erase]
      simp
    rw [unlink_of_notMem notMem]
    have leasedBytes := total_erase_leasedSize h he
    have same : e.leasedSize = e.size := by simp [Entry.leasedSize, hl]
    rw [same] at leasedBytes
    refine ⟨indexes, ?_, ?_, ?_, ?_, ?_, ?_, ?_, ?_⟩
    all_goals rw [endLease_eq he hl]
    · exact ExtTreeMap.getElem?_insert_self
    · exact Ordered.erase_insert_self _
    · exact leasedBytes
    · exact fun _ => rfl
    · intro hk s
      simp only [iff_and_self, ne_eq]
      rintro hs rfl
      rcases (h.eligible s).mp hs with hs | ⟨k, hs, -⟩
      · simpa [hl] using ((stores_of he).mp hs).1
      · simpa [hl] using ((stores_of he).mp hs).1

theorem remove_becomes (h : Exact q) (he : q.entries[seq]? = some e) :
    (q.remove seq).1 = some { e with lease := none } ∧
      Becomes q (q.entries.erase seq) (fun _ => False) (q.remove seq).2 := by
  have detached := detached h he
  set change : Inner T → Option (Entry T) × Inner T := fun q =>
    let q := (q.endLease seq).unlink seq e.key
    (q.entries[seq]?, { q with entries := q.entries.erase seq }) with hchange
  have entry : (change q).1 = some { e with lease := none } := detached.entry
  have remove : q.remove seq = (some { e with lease := none },
      { (q.rekeyed e.key change).2 with
        bytes := wrappingSub (q.rekeyed e.key change).2.bytes e.size }) := by
    unfold Inner.remove
    rw [he]
    dsimp only
    rw [rekeyed_eq q e.key change, entry]
  have indexes : Indexes (change q).2 (q.entries.erase seq) fun _ => False :=
    detached.indexes.of_eq rfl rfl rfl rfl
  have eligible := rekeyed_eligible change h.indexes h.eligible indexes (moved_erase he) detached.keyed
    (fun hk s => by
      have gone := not_stores (m := q.entries.erase seq) (P := (·.lease = none)) ExtTreeMap.getElem?_erase_self
      simpa only [gone, and_false, false_or] using detached.keyless hk s)
  rw [remove, rekeyed_eq]
  have entries : (change q).2.entries = q.entries.erase seq := detached.rest
  refine ⟨rfl, ⟨?_, ?_, ?_, ?_, ?_⟩, entries, detached.cfg, detached.nextSeq⟩
  · intro s hs
    rw [entries] at hs
    rw [show (change q).2.nextSeq = q.nextSeq from detached.nextSeq]
    exact h.fresh s (ExtTreeMap.mem_of_mem_erase hs)
  · rw [entries]
    exact indexes.of_eq rfl rfl rfl rfl
  · rw [entries]
    exact eligible
  · rw [entries, show (change q).2.bytes = q.bytes from detached.bytes, h.bytes, ← Ordered.total_erase he,
      wrappingSub_mod]
  · rw [entries]
    exact detached.leasedBytes

/-- The queue with `e` stored under the next seq, as `commit` stores it. -/
def store (q : Inner T) (e : Entry T) : Inner T :=
  (Inner.rekeyed { q with
      nextSeq := q.nextSeq + 1
      entries := q.entries.insert q.nextSeq e
      bytes := wrappingAdd q.bytes e.size }
    e.key fun q' => ((), q'.link q.nextSeq e.key)).2

theorem next_unused (h : ∀ s ∈ q.entries, s < q.nextSeq) : q.entries[q.nextSeq]? = none :=
  ExtTreeMap.getElem?_eq_none fun hm => Nat.lt_irrefl _ (h _ hm)

theorem store_exact (h : Exact q) (hl : e.lease = none) :
    Exact (store q e) ∧ (store q e).entries = q.entries.insert q.nextSeq e ∧ (store q e).cfg = q.cfg ∧
      (store q e).nextSeq = q.nextSeq + 1 := by
  have hn := next_unused h.fresh
  set q₁ : Inner T := { q with
    nextSeq := q.nextSeq + 1
    entries := q.entries.insert q.nextSeq e
    bytes := wrappingAdd q.bytes e.size }
  have indexes₁ : Indexes q₁ q.entries fun _ => False := h.indexes.of_eq rfl rfl rfl rfl
  have indexes₂ := link_indexes indexes₁ hn hl
  have keyless (hk : e.key = none) (s : Nat) : s ∈ (q₁.link q.nextSeq e.key).eligible ↔
      (s = q.nextSeq ∧ Stores (q.entries.insert q.nextSeq e) (·.lease = none) q.nextSeq) ∨
        (s ≠ q.nextSeq ∧ s ∈ q.eligible) := by
    rw [stores_of ExtTreeMap.getElem?_insert_self, hk, mem_link_eligible]
    by_cases hs : s = q.nextSeq <;> simp [hs, hl, q₁]
  have eligible := rekeyed_eligible (fun q' => ((), q'.link q.nextSeq e.key)) indexes₁ h.eligible indexes₂
    (moved_insert_new hn) link_eligible_of_key keyless
  have fresh : ∀ s ∈ q.entries.insert q.nextSeq e, s < q.nextSeq + 1 := by
    intro s hs
    rcases ExtTreeMap.mem_insert.mp hs with hs | hs
    · exact Ordered.compare_eq_iff.mp hs ▸ Nat.lt_succ_self _
    · exact Nat.lt_succ_of_lt (h.fresh s hs)
  have zero : e.leasedSize = 0 := by simp [Entry.leasedSize, hl]
  unfold store
  rw [rekeyed_eq]
  simp only [link_eq] at indexes₂ eligible ⊢
  refine ⟨⟨fresh, indexes₂.of_eq rfl rfl rfl rfl, eligible, ?_, ?_⟩, trivial, trivial, trivial⟩
  · rw [Ordered.total_insert_new hn, ← wrappingAdd_mod, ← h.bytes]
  · rw [Ordered.total_insert_new hn, zero]
    exact h.leasedBytes

end

end Tgin.Queue
