import Tgin.Lib.Ordered
import Tgin.Limit.Calendar

/-! The keyed limiter books within its quota. A key's bookings in effect form a chain, the newest first, each
    with the entry that those before it left; a cancellation takes the newest one off, or nothing. -/

namespace Tgin.Limit
open Std (ExtTreeMap)
open Gcra

/-- A booking of a key: what undoes it, and when it starts. -/
structure Charge where
  admission : Admit
  start : Instant
  deriving DecidableEq, Repr

/-- The theoretical arrival time `t`, if the platform can represent it. -/
def Tat.ofNat (t : Nat) : Tat := if t ≤ Instant.LAST then .at t else .never

/-- When the bookings of a chain start, in the order they were made. -/
def starts (chain : List Charge) : List Instant := (chain.map (·.start)).reverse

@[simp] theorem starts_cons (c : Charge) (chain : List Charge) : starts (c :: chain) = starts chain ++ [c.start] :=
  List.reverse_cons

namespace Quota

/-- A start after the wait is ahead of the arrival time by the tolerance at most, and not after it. -/
theorem wait_bounds {u now tolerance : Nat} (h : now ≤ u) :
    u ≤ now + (u - now - tolerance) + tolerance ∧ now + (u - now - tolerance) ≤ u := by omega

variable {quota : Quota} {now : Instant} {maxDelay wait : Duration} {c : Option Nat} {tat : Tat}

/-- A booking follows the generic cell rate algorithm, also where the next arrival time cannot be represented. -/
theorem book_eq_ok (h : quota.book (c.map .ofNat) now maxDelay = .ok (tat, wait)) :
    wait ≤ maxDelay ∧ (∀ x ∈ c, x ≤ now + wait + quota.tolerance) ∧
      tat = .ofNat (next quota.interval c (now + wait)) ∧ (now ≤ Instant.LAST → now + wait ≤ Instant.LAST) := by
  -- The step from the arrival time `u`: the stored one or `now`, whichever is later.
  have step (u : Nat) (hu : now ≤ u) (hc : ∀ x ∈ c, x ≤ u) (reached : u = now ∨ u ∈ c)
      (last : now ≤ Instant.LAST → u ≤ Instant.LAST)
      (h : (if u - now - quota.tolerance > maxDelay then
          Except.error (Denied.mk (u - now - quota.tolerance) : Denied)
        else .ok ((Instant.checkedAdd u quota.interval).elim Tat.never .at, u - now - quota.tolerance)) =
          .ok (tat, wait)) :
      wait ≤ maxDelay ∧ (∀ x ∈ c, x ≤ now + wait + quota.tolerance) ∧
        tat = .ofNat (next quota.interval c (now + wait)) ∧ (now ≤ Instant.LAST → now + wait ≤ Instant.LAST) := by
    split at h
    · cases h
    · rename_i inTime
      simp only [Except.ok.injEq, Prod.mk.injEq] at h
      obtain ⟨rfl, rfl⟩ := h
      have hnext : next quota.interval c (now + (u - now - quota.tolerance)) = u + quota.interval := by
        cases c with
        | none =>
          obtain rfl : u = now := reached.resolve_right (by rintro ⟨⟩)
          simp [next]
        | some x =>
          have hx : x ≤ u := hc x rfl
          rw [next, Option.elim_some]
          rcases reached with rfl | hm
          · rw [Nat.sub_self, Nat.zero_sub, Nat.add_zero, Nat.max_eq_right hx]
          · obtain rfl : x = u := Option.some.inj hm
            rw [Nat.max_eq_left (wait_bounds hu).2]
      refine ⟨Nat.le_of_not_lt inTime, fun x hx => Nat.le_trans (hc x hx) (wait_bounds hu).1, ?_,
        fun hn => Nat.le_trans (wait_bounds hu).2 (last hn)⟩
      rw [hnext, Tat.ofNat, Instant.checkedAdd]
      split <;> rfl
  cases c with
  | none => exact step now (Nat.le_refl _) (by rintro _ ⟨⟩) (.inl rfl) id h
  | some c =>
    rw [Option.map_some, Tat.ofNat] at h
    by_cases last : c ≤ Instant.LAST
    · rw [if_pos last] at h
      refine step (max c now) (Nat.le_max_right ..) (fun x hx => ?_) ?_ (fun hn => Nat.max_le.mpr ⟨last, hn⟩) h
      · cases hx
        exact Nat.le_max_left ..
      · rcases Nat.le_total c now with le | le
        · exact .inl (Nat.max_eq_right le)
        · exact .inr (congrArg some (Nat.max_eq_left le).symm)
    · rw [if_neg last] at h
      cases h

end Quota

namespace KeyedLimiter

/-- The entry that the bookings of a chain leave. -/
def entryOf (quota : Quota) : List Charge → Option Entry
  | [] => none
  | c :: chain => some { tat := .ofNat (next quota.interval (tat quota.interval none (starts chain)) c.start), stamp := c.admission.stamp }

/-- Each booking replaced the entry of those before it, and has a newer stamp than they. -/
def Chained (quota : Quota) : List Charge → Prop
  | [] => True
  | c :: chain =>
    c.admission.prev = entryOf quota chain ∧ (∀ d ∈ chain, d.admission.stamp < c.admission.stamp) ∧ Chained quota chain

variable {K : Type} [Ord K]

theorem shards_setShard (l : KeyedLimiter K) (key : K) (shard : Shard K) (i : Nat) :
    (l.setShard key shard).shards i = if i = l.shardOf key then shard else l.shards i := rfl

variable [Std.TransOrd K]

/-- The entry of a key. -/
def entry (l : KeyedLimiter K) (key : K) : Option Entry := (l.shard key).map[key]?

/-- The bookings in effect are those of the chains; `made` counts the bookings of each shard so far. -/
structure Charged (l : KeyedLimiter K) (made : Nat → Nat) (chain : K → List Charge) : Prop where
  entry : ∀ key, l.entry key = entryOf l.quota (chain key)
  chained : ∀ key, Chained l.quota (chain key)
  conforms : ∀ key, Conforms l.quota.interval l.quota.tolerance none (starts (chain key))
  stamps : ∀ key, ∀ c ∈ chain key, c.admission.stamp < made (l.shardOf key)
  nextStamp : ∀ i, (l.shards i).nextStamp = made i % wordSize

theorem entryOf_tat (quota : Quota) (chain : List Charge) :
    (entryOf quota chain).map (·.tat) = (tat quota.interval none (starts chain)).map .ofNat := by
  cases chain with
  | nil => rfl
  | cons c chain => rw [starts_cons, tat_append]; rfl

theorem new_charged (quota : Quota) (hasher : K → Nat) : (new quota hasher).Charged (fun _ => 0) fun _ => [] :=
  ⟨fun _ => by simp [entry, shard, new, entryOf], fun _ => trivial, fun _ => trivial, nofun, fun _ => rfl⟩

section
variable {l : KeyedLimiter K} {made : Nat → Nat} {chain : K → List Charge} {key : K}

/-- What a request is granted, and what it leaves of the limiter. -/
theorem acquire_ok (h : l.Charged made chain) {now : Instant} {maxDelay : Duration} {admission : Admit}
    {l' : KeyedLimiter K} (hr : l.acquire key now maxDelay = (.ok admission, l')) :
    admission.delay ≤ maxDelay ∧ (now ≤ Instant.LAST → now + admission.delay ≤ Instant.LAST) ∧
      (∀ x ∈ tat l.quota.interval none (starts (chain key)), x ≤ now + admission.delay + l.quota.tolerance) ∧
      admission.stamp = (l.shard key).nextStamp ∧ admission.prev = l.entry key ∧
      l' = l.setShard key {
        map := (l.shard key).map.insert key {
          tat := .ofNat (next l.quota.interval (tat l.quota.interval none (starts (chain key))) (now + admission.delay))
          stamp := admission.stamp }
        nextStamp := wrappingAdd admission.stamp 1 } := by
  unfold acquire at hr
  dsimp only at hr
  have stored := entryOf_tat l.quota (chain key)
  rw [← h.entry key] at stored
  split at hr
  · cases hr
  · rename_i tat' delay hbook
    simp only [Prod.mk.injEq, Except.ok.injEq] at hr
    obtain ⟨rfl, rfl⟩ := hr
    rw [← entry, stored] at hbook
    obtain ⟨inTime, ahead, rfl, last⟩ := Quota.book_eq_ok hbook
    exact ⟨inTime, last, ahead, rfl, rfl, rfl⟩

theorem cancel_same (l : KeyedLimiter K) (key : K) (admission : Admit) :
    (l.cancel key admission).quota = l.quota ∧ (l.cancel key admission).hasher = l.hasher := by
  unfold cancel
  dsimp only
  split
  · exact ⟨rfl, rfl⟩
  · split
    · exact ⟨rfl, rfl⟩
    · split <;> exact ⟨rfl, rfl⟩

theorem acquire_error {now : Instant} {maxDelay : Duration} {denied : Denied} {l' : KeyedLimiter K}
    (hr : l.acquire key now maxDelay = (.error denied, l')) : l' = l := by
  unfold acquire at hr
  dsimp only at hr
  split at hr <;> cases hr
  rfl

/-- A cancellation whose booking did not leave the entry does nothing. -/
theorem cancel_stale {admission : Admit} (stale : ∀ entry ∈ l.entry key, entry.stamp ≠ admission.stamp) :
    l.cancel key admission = l := by
  unfold cancel
  dsimp only
  split
  · rfl
  · rename_i entry found
    rw [if_pos (stale entry found)]

end

section
variable [Std.LawfulEqOrd K] {l : KeyedLimiter K} {made : Nat → Nat} {chain : K → List Charge} {key : K}

/-- Forgetting a key forgets all its bookings. -/
theorem retainRecent_entry (l : KeyedLimiter K) (key : K) (now : Instant) :
    (l.retainRecent now).entry key = (l.entry key).filter fun entry =>
      match entry.tat with
      | .at tat => tat > now
      | .never => true := by
  simp only [entry, shard, retainRecent, shardOf]
  exact ExtTreeMap.getElem?_filter'

theorem retainRecent_charged (h : l.Charged made chain) (now : Instant) :
    (l.retainRecent now).Charged made fun key => if (l.retainRecent now).entry key = none then [] else chain key := by
  refine ⟨fun key => ?_, fun key => ?_, fun key => ?_, fun key => ?_, h.nextStamp⟩
  all_goals by_cases gone : (l.retainRecent now).entry key = none
  · rw [if_pos gone]
    exact gone
  · rw [if_neg gone]
    obtain ⟨entry, kept⟩ := Option.ne_none_iff_exists'.mp gone
    rw [kept]
    rw [retainRecent_entry] at kept
    exact (Option.eq_some_of_filter_eq_some kept).symm.trans (h.entry key)
  · rw [if_pos gone]
    trivial
  · rw [if_neg gone]
    exact h.chained key
  · rw [if_pos gone]
    trivial
  · rw [if_neg gone]
    exact h.conforms key
  · rw [if_pos gone]
    nofun
  · rw [if_neg gone]
    exact h.stamps key

/-- What is forgotten has left its key free. -/
theorem retainRecent_past (h : l.Charged made chain) {now : Instant} (gone : (l.retainRecent now).entry key = none) :
    ∀ x ∈ tat l.quota.interval none (starts (chain key)), x ≤ now ∧ x ≤ Instant.LAST := by
  intro x hx
  have stored := entryOf_tat l.quota (chain key)
  rw [← h.entry key, hx, Option.map_some] at stored
  obtain ⟨entry, found, htat⟩ := Option.map_eq_some_iff.mp stored
  rw [retainRecent_entry, found, Option.filter_eq_none_iff] at gone
  have past := gone entry rfl
  rw [htat, Tat.ofNat] at past
  by_cases last : x ≤ Instant.LAST
  · rw [if_pos last] at past
    exact ⟨Nat.le_of_not_lt fun later => past (decide_eq_true later), last⟩
  · rw [if_neg last] at past
    exact absurd rfl past

end

section
variable [DecidableEq K] {l : KeyedLimiter K} {made : Nat → Nat} {chain : K → List Charge} {key : K}

/-- Writing a key's entry leaves those of all other keys. -/
theorem entry_setShard (l : KeyedLimiter K) (key : K) (shard : Shard K)
    (others : ∀ key' ≠ key, shard.map[key']? = (l.shard key).map[key']?) (key' : K) :
    (l.setShard key shard).entry key' = if key' = key then shard.map[key]? else l.entry key' := by
  by_cases same : l.shardOf key' = l.shardOf key
  · have written : (l.setShard key shard).shard key' = shard := if_pos same
    rw [entry, written]
    split
    · rename_i heq
      rw [heq]
    · rename_i ne
      rw [others key' ne, entry, KeyedLimiter.shard, KeyedLimiter.shard, same]
  · have kept : (l.setShard key shard).shard key' = l.shard key' := if_neg same
    rw [entry, kept, if_neg fun heq => same (by rw [heq])]
    rfl

/-- One key has another chain, the others' are as before. -/
theorem charged_setShard (h : l.Charged made chain) {shard : Shard K} {made' : Nat → Nat} {cs : List Charge}
    (others : ∀ key' ≠ key, shard.map[key']? = (l.shard key).map[key']?)
    (here : shard.map[key]? = entryOf l.quota cs) (chained : Chained l.quota cs)
    (conforms : Conforms l.quota.interval l.quota.tolerance none (starts cs))
    (stamps : ∀ c ∈ cs, c.admission.stamp < made' (l.shardOf key)) (grows : ∀ i, made i ≤ made' i)
    (nextStamp : ∀ i, ((l.setShard key shard).shards i).nextStamp = made' i % wordSize) :
    (l.setShard key shard).Charged made' (Function.update chain key cs) := by
  refine ⟨fun key' => ?_, fun key' => ?_, fun key' => ?_, fun key' => ?_, nextStamp⟩
  all_goals rcases eq_or_ne key' key with rfl | ne
  · rw [entry_setShard l key' shard others, if_pos rfl, Function.update_self]
    exact here
  · rw [entry_setShard l key shard others, if_neg ne, Function.update_of_ne ne]
    exact h.entry key'
  · rw [Function.update_self]
    exact chained
  · rw [Function.update_of_ne ne]
    exact h.chained key'
  · rw [Function.update_self]
    exact conforms
  · rw [Function.update_of_ne ne]
    exact h.conforms key'
  · rw [Function.update_self]
    exact stamps
  · rw [Function.update_of_ne ne]
    exact fun c hc => Nat.lt_of_lt_of_le (h.stamps key' c hc) (grows _)

variable [Std.LawfulEqOrd K]

/-- A booking is the newest of its key. -/
theorem acquire_charged (h : l.Charged made chain) {now : Instant} {maxDelay : Duration} {admission : Admit}
    {l' : KeyedLimiter K} (few : made (l.shardOf key) < wordSize) (hr : l.acquire key now maxDelay = (.ok admission, l')) :
    l'.Charged (fun i => made i + if i = l.shardOf key then 1 else 0)
      (Function.update chain key (⟨admission, now + admission.delay⟩ :: chain key)) := by
  obtain ⟨-, -, ahead, hstamp, hprev, rfl⟩ := acquire_ok h hr
  have stamp : admission.stamp = made (l.shardOf key) := hstamp.trans ((h.nextStamp _).trans (Nat.mod_eq_of_lt few))
  have older (c : Charge) (hc : c ∈ chain key) : c.admission.stamp < admission.stamp := stamp ▸ h.stamps key c hc
  refine charged_setShard h (fun key' ne => Ordered.getElem?_insert_of_ne ne _) ?_
    ⟨hprev.trans (h.entry key), older, h.chained key⟩ ?_ ?_ (fun i => Nat.le_add_right ..) fun i => ?_
  · rw [ExtTreeMap.getElem?_insert_self]
    rfl
  · rw [starts_cons]
    exact conforms_append.mpr ⟨h.conforms key, ahead, trivial⟩
  · rw [if_pos rfl, ← stamp]
    exact List.forall_mem_cons.mpr ⟨Nat.lt_succ_self _, fun c hc => Nat.lt_succ_of_lt (older c hc)⟩
  · rw [shards_setShard]
    split
    · rename_i same
      rw [hstamp, shard, h.nextStamp, wrappingAdd_mod, same]
    · exact h.nextStamp i

/-- A cancellation of the booking that left a key's entry puts the one before it back. -/
theorem cancel_entry {admission : Admit} {entry : Entry} (found : l.entry key = some entry) (own : entry.stamp = admission.stamp)
    (key' : K) : (l.cancel key admission).entry key' = if key' = key then admission.prev else l.entry key' := by
  unfold cancel
  simp only [show (l.shard key).map[key]? = _ from found]
  rw [if_neg (by simpa using own)]
  cases hp : admission.prev with
  | none =>
    rw [entry_setShard l key _ fun key' ne => Ordered.getElem?_erase_of_ne ne, ExtTreeMap.getElem?_erase_self]
  | some prev =>
    rw [entry_setShard l key _ fun key' ne => Ordered.getElem?_insert_of_ne ne _, ExtTreeMap.getElem?_insert_self]

/-- The newest booking of a key is taken off when it is cancelled. -/
theorem cancel_newest (h : l.Charged made chain) {c : Charge} {rest : List Charge} (hk : chain key = c :: rest) :
    (l.cancel key c.admission).Charged made (Function.update chain key rest) := by
  have hentry := h.entry key
  have hchained := h.chained key
  have hstamps := h.stamps key
  have hconforms := h.conforms key
  rw [hk] at hentry hchained hstamps hconforms
  rw [starts_cons] at hconforms
  have charged (map : ExtTreeMap K Entry) (others : ∀ key' ≠ key, map[key']? = (l.shard key).map[key']?)
      (here : map[key]? = entryOf l.quota rest) :
      (l.setShard key { l.shard key with map }).Charged made (Function.update chain key rest) := by
    refine charged_setShard h others here hchained.2.2 (conforms_append.mp hconforms).1
      (fun d hd => hstamps d (List.mem_cons_of_mem _ hd)) (fun _ => Nat.le_refl _) fun i => ?_
    rw [shards_setShard]
    split
    · rename_i same
      rw [same]
      exact h.nextStamp _
    · exact h.nextStamp i
  unfold cancel
  simp only [show (l.shard key).map[key]? = _ from hentry, entryOf]
  rw [if_neg (by simp), hchained.1]
  cases hr : entryOf l.quota rest with
  | none =>
    exact charged _ (fun key' ne => Ordered.getElem?_erase_of_ne ne) (by rw [hr, ExtTreeMap.getElem?_erase_self])
  | some prev =>
    exact charged _ (fun key' ne => Ordered.getElem?_insert_of_ne ne _) (by rw [hr, ExtTreeMap.getElem?_insert_self])

/-- A booking in effect that is cancelled is taken off if it is its key's newest, and stays otherwise. -/
theorem cancel_charged (h : l.Charged made chain) {c : Charge} (hc : c ∈ chain key) :
    (l.cancel key c.admission).Charged made chain ∨
      ∃ rest, chain key = c :: rest ∧ (l.cancel key c.admission).Charged made (Function.update chain key rest) := by
  have hentry := h.entry key
  have hchained := h.chained key
  cases hk : chain key with
  | nil => simp [hk] at hc
  | cons newest rest =>
    rw [hk] at hentry hchained hc
    rcases List.mem_cons.mp hc with rfl | hc
    · exact .inr ⟨rest, rfl, cancel_newest h hk⟩
    · have stale : l.cancel key c.admission = l := by
        refine cancel_stale fun entry found => ?_
        rw [hentry] at found
        cases found
        exact (hchained.2.1 c hc).ne'
      exact .inl (stale.symm ▸ h)

end

end KeyedLimiter

end Tgin.Limit
