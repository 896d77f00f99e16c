import Tgin.Lib.Run
import Tgin.Limit.Keyed

/-! In time order the slot calendar is the keyed limiter. Each of its bookings still to start was made as early as the
    bookings before it allow, so no other fits between them and the search goes on to the end. -/

namespace Tgin.Limit
open Std (ExtTreeMap)
open Gcra

/-! ### The search in time order -/

/-- Every slot after `time` starts as early as those before it allow. -/
def Greedy (quota : Quota) (state : Calendar) (time : Instant) : Prop :=
  ∀ p (hp : p < state.slots.length), time < state.slots[p] →
    ∃ x ∈ tat quota.interval state.floor (state.slots.take p), state.slots[p] + quota.tolerance ≤ x

theorem Greedy.mono {quota : Quota} {state : Calendar} {time time' : Instant} (h : Greedy quota state time)
    (hle : time ≤ time') : Greedy quota state time' :=
  fun p hp later => h p hp (hle.trans_lt later)

/-- The theoretical arrival time after all bookings. -/
def Calendar.tat (quota : Quota) (state : Calendar) : Option Instant := Gcra.tat quota.interval state.floor state.slots

/-- Where the next booking starts at the earliest, in time order. -/
def Calendar.free (quota : Quota) (state : Calendar) (now : Instant) : Instant :=
  (state.tat quota).elim now fun x => max now (x - quota.tolerance)

theorem lt_of_partitionPoint_le {slots : List Instant} {start : Instant} {p : Nat} (sorted : slots.Pairwise (· ≤ ·))
    (h : partitionPoint slots (· ≤ start) ≤ p) (hp : p < slots.length) : start < slots[p] := by
  have first : start < slots[partitionPoint slots (· ≤ start)] :=
    Nat.lt_of_not_le (of_decide_eq_false (of_mem_getElem?_partitionPoint _ (List.getElem?_eq_getElem (h.trans_lt hp))))
  rcases Nat.lt_or_eq_of_le h with hlt | rfl
  · exact first.trans_le (List.pairwise_iff_getElem.mp sorted _ p (by omega) hp hlt)
  · exact first

namespace SlotCalendar
variable {quota : Quota} {state : Calendar} {start origin : Instant} {search : Search} {p : Nat}

/-- The loop goes on to a position that fits, past those that do not. -/
theorem Search.loop_of_fits {floor : Option Int} {fuel : Nat} {lower : Int} {n : Nat} (hn : n ≤ search.s.length)
    (hfuel : p + fuel = n + 1) (skips : ∀ q, p ≤ q → q < n → search.fits q (search.prefixMax floor q) = none)
    (fits : search.fits n (search.prefixMax floor n) = some lower) (hp : p ≤ n) :
    search.loop fuel p (search.prefixMax floor p) = some lower := by
  induction fuel generalizing p with
  | zero => omega
  | succ fuel ih =>
    unfold Search.loop
    rcases Nat.lt_or_eq_of_le hp with hlt | rfl
    · rw [skips p le_rfl hlt]
      have hs : search.s[p]? = some search.s[p] := List.getElem?_eq_getElem (by omega)
      simp only [hs]
      rw [← Search.prefixMax_succ hs]
      exact ih (by omega) (fun q hq => skips q (by omega)) hlt
    · rw [fits]

/-- Between the slots there is no place. -/
theorem fits_none_of_greedy (wf : quota.WellFormed) (cal : state.WellFormed quota) (greedy : Greedy quota state start)
    (hstart : start ≤ Instant.LAST) (horigin : origin ≤ start) (hfirst : partitionPoint state.slots (· ≤ start) ≤ p)
    (hp : p < state.slots.length) :
    (Search.exact quota state.slots start origin).fits p
      ((Search.exact quota state.slots start origin).prefixMax (state.floor.map fun x : Nat => (x : Int) - origin) p) =
        none := by
  cases h : (Search.exact quota state.slots start origin).fits p
      ((Search.exact quota state.slots start origin).prefixMax (state.floor.map fun x : Nat => (x : Int) - origin) p) with
  | none => rfl
  | some lower =>
    obtain ⟨t, -, -, -, before, reach, -⟩ := exact_fits wf cal hstart horigin hfirst hp.le h
    obtain ⟨x, hx, tight⟩ := greedy p hp (lt_of_partitionPoint_le cal.sorted hfirst hp)
    have below : t < state.slots[p] := before _ (List.getElem?_eq_getElem hp)
    exact absurd (Nat.le_of_add_le_add_right (tight.trans (reach x hx).1)) (Nat.not_le_of_lt below)

theorem low_last (sorted : state.slots.Pairwise (· ≤ ·)) (origin : Instant)
    (behind : state.slots.length ≠ (Search.exact quota state.slots start origin).first) :
    ∃ hlast : state.slots.length - 1 < state.slots.length, start < state.slots[state.slots.length - 1] ∧
      (Search.exact quota state.slots start origin).low state.slots.length =
        (state.slots[state.slots.length - 1] : Int) - origin := by
  have first : partitionPoint state.slots (· ≤ start) < state.slots.length :=
    Nat.lt_of_le_of_ne partitionPoint_le (Ne.symm behind)
  refine ⟨by omega, lt_of_partitionPoint_le sorted (by omega) _, ?_⟩
  rw [Search.low, if_neg behind]
  simp [Search.exact, List.getD_eq_getElem?_getD, List.getElem?_eq_getElem (show state.slots.length - 1 < state.slots.length by omega)]

/-- The offset the search gives a booking after all others. -/
theorem fits_last (wf : quota.WellFormed) (cal : state.WellFormed quota) (greedy : Greedy quota state start)
    (hstart : start ≤ Instant.LAST) (horigin : origin ≤ start) :
    (Search.exact quota state.slots start origin).fits state.slots.length
      ((Search.exact quota state.slots start origin).prefixMax (state.floor.map fun x : Nat => (x : Int) - origin)
        state.slots.length) = some ((state.free quota start : Int) - origin) := by
  have hT := Duration.lt_of_le_max wf.interval_le
  have htau := Duration.lt_of_le_max wf.tolerance_le
  have mul := mul_interval_le wf cal le_rfl
  have pos := Nat.le_mul_of_pos_right state.slots.length wf.interval_pos
  have last : origin ≤ Instant.LAST := horigin.trans hstart
  have none : (Search.exact quota state.slots start origin).suffixMin state.slots.length = none := by
    simp [Search.suffixMin, Search.exact]
  refine (Search.fits_eq_some quota.interval quota.tolerance rfl rfl (by omega) (by omega) (by omega) (by omega)
    (prefixMax_bounds wf cal last le_rfl) (suffixMin_bounds wf cal last)).mpr ⟨?_, ?_, ?_, ?_⟩
  · simp [none]
  · rw [Search.prefixMax_exact _ _ le_rfl, List.take_length, Calendar.free, Calendar.tat]
    by_cases alone : state.slots.length = (Search.exact quota state.slots start origin).first
    · have low : (Search.exact quota state.slots start origin).low state.slots.length = (start : Int) - origin := if_pos alone
      rw [low]
      cases tat quota.interval state.floor state.slots with
      | none => rfl
      | some x =>
        simp only [Option.map_some, Option.elim_some]
        omega
    · obtain ⟨hlast, later, low⟩ := low_last cal.sorted origin alone
      obtain ⟨x, hx, tight⟩ := greedy _ hlast later
      obtain ⟨y, hy, le⟩ := tat_append_le (state.slots.drop (state.slots.length - 1)) hx
      rw [List.take_append_drop] at hy
      rw [low, hy]
      simp only [Option.map_some, Option.elim_some]
      have tight := Nat.le_trans tight le
      have later := Nat.succ_le_of_lt later
      omega
  · simp [Search.exact]
  · simp [none]

theorem le_free (quota : Quota) (state : Calendar) (now : Instant) : now ≤ state.free quota now := by
  rw [Calendar.free]
  cases state.tat quota with
  | none => exact le_rfl
  | some x => exact le_max_left ..

theorem free_le_last {now : Instant} (hnow : now ≤ Instant.LAST) (htat : ∀ x ∈ state.tat quota, x ≤ Instant.LAST) :
    state.free quota now ≤ Instant.LAST := by
  rw [Calendar.free]
  cases h : state.tat quota with
  | none => exact hnow
  | some x => exact max_le hnow ((Nat.sub_le ..).trans (htat x h))

theorem earliest_of_greedy (wf : quota.WellFormed) (cal : state.WellFormed quota) (greedy : Greedy quota state start)
    (hstart : start ≤ Instant.LAST) (htat : ∀ x ∈ state.tat quota, x ≤ Instant.LAST) :
    earliest quota state start = some (state.free quota start) := by
  obtain ⟨origin, horigin, heq⟩ := earliest_eq wf cal hstart
  have length : (Search.exact quota state.slots start origin).s.length = state.slots.length := List.length_mapIdx
  have first : (Search.exact quota state.slots start origin).first ≤ state.slots.length := partitionPoint_le
  have found : (Search.exact quota state.slots start origin).loop
      (state.slots.length + 1 - (Search.exact quota state.slots start origin).first)
      (Search.exact quota state.slots start origin).first
      ((Search.exact quota state.slots start origin).prefixMax (state.floor.map fun x : Nat => (x : Int) - origin)
        (Search.exact quota state.slots start origin).first) = some ((state.free quota start : Int) - origin) := by
    refine Search.loop_of_fits length.ge (by omega) (fun q hq hlt => ?_) (fits_last wf cal greedy hstart horigin) first
    exact fits_none_of_greedy wf cal greedy hstart horigin hq hlt
  rw [heq]
  dsimp only
  rw [found]
  have le := horigin.trans (le_free quota state start)
  have last := free_le_last hstart htat
  have range : ¬((state.free quota start : Int) - origin < 0 ∨ (state.free quota start : Int) - origin > (Duration.MAX : Int)) := by
    have le := Int.ofNat_le.mpr le
    have last := Int.ofNat_le.mpr last
    simp only [Instant.LAST, Duration.MAX] at last ⊢
    omega
  dsimp only
  rw [if_neg range, ← Int.ofNat_sub le, Int.toNat_natCast, Instant.checkedAdd_eq_some]
  exact ⟨(Nat.add_sub_cancel' le).symm, (Nat.add_sub_cancel' le).symm ▸ last⟩

variable {c : SlotCalendar} {folded : List Instant} {time now : Instant}

/-- Folding changes nothing of this. -/
theorem foldBefore_greedy (h : Charged c folded) (greedy : Greedy c.quota c.state time) (now : Instant) :
    Greedy c.quota (foldBefore c.quota c.state now) time ∧
      (foldBefore c.quota c.state now).tat c.quota = c.state.tat c.quota ∧
      ∃ folded, Charged { c with state := foldBefore c.quota c.state now } folded := by
  obtain ⟨n, hn, -, slots, folds⟩ := foldBefore_charged h now
  have floor : (foldBefore c.quota c.state now).floor = tat c.quota.interval c.state.floor (c.state.slots.take n) := by
    rw [h.floor, ← tat_append]
    exact folds.floor
  refine ⟨fun p hp later => ?_, ?_, _, folds⟩
  · simp only [slots, List.getElem_drop] at hp later ⊢
    rw [List.length_drop] at hp
    obtain ⟨x, hx, tight⟩ := greedy (n + p) (by omega) later
    refine ⟨x, ?_, tight⟩
    rw [floor, ← tat_append, ← List.take_add]
    exact hx
  · rw [Calendar.tat, floor, slots, ← tat_append, List.take_append_drop]
    rfl

theorem slots_le_free (greedy : Greedy quota state time) (hnow : time ≤ now) : ∀ t ∈ state.slots, t ≤ state.free quota now := by
  intro t ht
  obtain ⟨p, hp, rfl⟩ := List.mem_iff_getElem.mp ht
  rcases Nat.lt_or_ge now state.slots[p] with later | past
  · obtain ⟨x, hx, tight⟩ := greedy p hp (hnow.trans_lt later)
    obtain ⟨y, hy, le⟩ := tat_append_le (state.slots.drop p) hx
    rw [List.take_append_drop] at hy
    rw [Calendar.free, Calendar.tat, hy, Option.elim_some]
    exact le_max_of_le_right (Nat.le_sub_of_add_le (tight.trans le))
  · exact past.trans (le_free quota state now)

/-- A request in time order gets the earliest instant the theoretical arrival time allows. -/
theorem acquire_greedy (h : Charged c folded) (greedy : Greedy c.quota c.state time) (htime : time ≤ now)
    (hnow : now ≤ Instant.LAST) (htat : ∀ x ∈ c.state.tat c.quota, x ≤ Instant.LAST) (maxDelay : Duration) :
    c.acquire now 0 maxDelay =
      (let state := foldBefore c.quota c.state now
      let free := c.state.free c.quota now
      if free - now > maxDelay then (.error { retryAfter := free - now }, { c with state })
      else (.ok { delay := free - now, «at» := free }, { c with state := { state with slots := state.slots ++ [free] } })) := by
  obtain ⟨greedy', same, folded', charged⟩ := foldBefore_greedy h greedy now
  have free : (foldBefore c.quota c.state now).free c.quota now = c.state.free c.quota now := by
    rw [Calendar.free, Calendar.free, same]
  have found := earliest_of_greedy charged.quota charged.state (greedy'.mono htime) hnow (same ▸ htat)
  have last : partitionPoint (foldBefore c.quota c.state now).slots (· ≤ c.state.free c.quota now) =
      (foldBefore c.quota c.state now).slots.length := by
    refine partitionPoint_eq le_rfl (fun t ht => ?_) (fun t ht => ?_)
    · rw [List.take_length] at ht
      exact decide_eq_true (free ▸ slots_le_free greedy' htime t ht)
    · simp at ht
  unfold acquire
  rw [show Instant.checkedAdd now 0 = some now from Instant.checkedAdd_eq_some.mpr ⟨rfl, hnow⟩]
  dsimp only
  rw [found]
  dsimp only
  rw [free, last, insertIdx_eq le_rfl, List.take_length, List.drop_length]
  rfl

end SlotCalendar

/-! ### The two limiters side by side -/

/-- A call on a slot calendar and a keyed limiter, neither of which sees a cancellation. -/
inductive Request where
  | acquire (now : Instant) (maxDelay : Duration)
  | retainCalendar (now : Instant)
  | retainLimiter (now : Instant)
  deriving DecidableEq, Repr

def Request.time : Request → Instant
  | .acquire now _ | .retainCalendar now | .retainLimiter now => now

/-- What a slot calendar answers: the delay, or when to try again. -/
def SlotCalendar.serve (r : Request) (c : SlotCalendar) : Option (Except Denied Duration) × SlotCalendar :=
  match r with
  | .acquire now maxDelay => let (answer, c) := c.acquire now 0 maxDelay; (some (answer.map (·.delay)), c)
  | .retainCalendar now => (none, c.retainRecent now)
  | .retainLimiter _ => (none, c)

namespace KeyedLimiter
variable {K : Type} [Ord K] [Std.TransOrd K]

/-- What a keyed limiter answers for `key`. -/
def serve (key : K) (r : Request) (l : KeyedLimiter K) : Option (Except Denied Duration) × KeyedLimiter K :=
  match r with
  | .acquire now maxDelay => let (answer, l) := l.acquire key now maxDelay; (some (answer.map (·.delay)), l)
  | .retainCalendar _ => (none, l)
  | .retainLimiter now => (none, l.retainRecent now)

def arrival (l : KeyedLimiter K) (key : K) : Option Tat := (l.entry key).map (·.tat)

/-- The key's arrival time never passes the last instant. -/
def Representable (key : K) : KeyedLimiter K → List Request → Prop
  | _, [] => True
  | l, r :: rs => (l.serve key r).2.arrival key ≠ some .never ∧ Representable key (l.serve key r).2 rs

theorem acquire_book [DecidableEq K] [Std.LawfulEqOrd K] (l : KeyedLimiter K) (key : K) (now : Instant) (maxDelay : Duration) :
    match l.quota.book (l.arrival key) now maxDelay with
    | .error denied => l.acquire key now maxDelay = (.error denied, l)
    | .ok (tat, delay) => ∃ admission l', l.acquire key now maxDelay = (.ok admission, l') ∧ admission.delay = delay ∧
        (∀ key', l'.arrival key' = if key' = key then some tat else l.arrival key') ∧ l'.quota = l.quota := by
  unfold acquire
  dsimp only
  rw [arrival, entry]
  cases l.quota.book (((l.shard key).map[key]?).map (·.tat)) now maxDelay with
  | error denied => rfl
  | ok booked =>
    refine ⟨_, _, rfl, rfl, fun key' => ?_, rfl⟩
    rw [arrival, entry_setShard l key _ fun key' ne => Ordered.getElem?_insert_of_ne ne _, ExtTreeMap.getElem?_insert_self]
    split
    · rfl
    · rfl

theorem retainRecent_arrival [Std.LawfulEqOrd K] (l : KeyedLimiter K) (key : K) (now : Instant) :
    (l.retainRecent now).arrival key = (l.arrival key).filter fun tat =>
      match tat with
      | .at tat => tat > now
      | .never => true := by
  rw [arrival, retainRecent_entry, arrival]
  cases l.entry key with
  | none => rfl
  | some entry =>
    rw [Option.filter_some, apply_ite (Option.map _), Option.map_some, Option.filter_some]
    rfl

end KeyedLimiter

/-- The next start's theoretical arrival time. -/
def Calendar.arrival (quota : Quota) (state : Calendar) (now : Instant) : Instant := (state.tat quota).elim now (max · now)

section
variable {quota : Quota} {state : Calendar} {now : Instant}

theorem free_sub (quota : Quota) (state : Calendar) (now : Instant) :
    state.free quota now - now = state.arrival quota now - now - quota.tolerance := by
  rw [Calendar.free, Calendar.arrival]
  cases state.tat quota with
  | none => simp
  | some x =>
    simp only [Option.elim_some]
    change @Eq Nat _ _
    omega

theorem next_free (quota : Quota) (state : Calendar) (now : Instant) :
    next quota.interval (state.tat quota) (state.free quota now) = state.arrival quota now + quota.interval := by
  rw [Calendar.free, Calendar.arrival]
  cases state.tat quota with
  | none => rfl
  | some x =>
    simp only [Option.elim_some, next]
    omega

end

section
variable {quota : Quota} {state : Calendar} {time now t : Instant}

theorem tat_concat (quota : Quota) (state : Calendar) (t : Instant) :
    Calendar.tat quota { state with slots := state.slots ++ [t] } = some (next quota.interval (state.tat quota) t) := by
  rw [Calendar.tat, tat_append]
  rfl

theorem of_lt_free (later : now < state.free quota now) : ∃ x ∈ state.tat quota, state.free quota now + quota.tolerance ≤ x := by
  rw [Calendar.free] at later ⊢
  cases ht : state.tat quota with
  | none =>
    rw [ht] at later
    exact absurd later (lt_irrefl _)
  | some x =>
    rw [ht, Option.elim_some] at later
    have bound := (lt_max_iff.mp later).resolve_left (lt_irrefl _)
    have ahead : quota.tolerance ≤ x := Nat.le_of_lt (Nat.lt_of_sub_pos (Nat.zero_lt_of_lt bound))
    refine ⟨x, rfl, ?_⟩
    rw [Option.elim_some, max_eq_right bound.le, Nat.sub_add_cancel ahead]

/-- One more slot at the end, made as early as the others allow. -/
theorem greedy_concat (greedy : Greedy quota state time)
    (tight : time < t → ∃ x ∈ state.tat quota, t + quota.tolerance ≤ x) :
    Greedy quota { state with slots := state.slots ++ [t] } time := by
  intro p hp later
  simp only [List.length_append, List.length_singleton] at hp
  rcases Nat.lt_or_eq_of_le (Nat.le_of_lt_succ hp) with hlt | rfl
  · simp only [List.getElem_append_left hlt] at later ⊢
    rw [List.take_append_of_le_length hlt.le]
    exact greedy p hlt later
  · simp only [List.getElem_concat_length] at later ⊢
    rw [List.take_left]
    exact tight later

end

/-- The calendar and the limiter of `key` agree on the arrival time, as far as it is still to come at `time`. -/
structure Twins {K : Type} [Ord K] [Std.TransOrd K] (key : K) (c : SlotCalendar) (l : KeyedLimiter K) (time : Instant) : Prop where
  charged : ∃ folded, c.Charged folded
  greedy : Greedy c.quota c.state time
  quota : l.quota = c.quota
  last : ∀ x ∈ c.state.tat c.quota, x ≤ Instant.LAST
  same : l.arrival key = none ∧ (∀ x ∈ c.state.tat c.quota, x ≤ time) ∨
    ∃ x, l.arrival key = some (.at x) ∧ c.state.tat c.quota = some x

namespace Twins
variable {K : Type} [Ord K] [Std.TransOrd K] {key : K} {c : SlotCalendar} {l : KeyedLimiter K} {time now : Instant}

/-- The limiter books where the calendar does. -/
theorem book (h : Twins key c l time) (htime : time ≤ now) (maxDelay : Duration) :
    l.quota.book (l.arrival key) now maxDelay =
      let arrival := c.state.arrival c.quota now
      let wait := arrival - now - c.quota.tolerance
      if wait > maxDelay then .error { retryAfter := wait }
      else .ok ((Instant.checkedAdd arrival c.quota.interval).elim .never .at, wait) := by
  rw [h.quota, Calendar.arrival]
  rcases h.same with ⟨absent, past⟩ | ⟨x, stored, tat⟩
  · have now : (c.state.tat c.quota).elim now (max · now) = now := by
      cases ht : c.state.tat c.quota with
      | none => rfl
      | some x => exact max_eq_right ((past x ht).trans htime)
    rw [absent, now]
    rfl
  · rw [stored, tat]
    rfl

theorem retain (h : Twins key c l time) (htime : time ≤ now) : Twins key (c.retainRecent now) l now := by
  obtain ⟨folded, charged⟩ := h.charged
  obtain ⟨greedy, tat, charged⟩ := SlotCalendar.foldBefore_greedy charged h.greedy now
  refine ⟨charged, greedy.mono htime, h.quota, fun x hx => h.last x (tat ▸ hx), ?_⟩
  change l.arrival key = none ∧ (∀ x ∈ (SlotCalendar.foldBefore c.quota c.state now).tat c.quota, x ≤ now) ∨
    ∃ x, l.arrival key = some (.at x) ∧ (SlotCalendar.foldBefore c.quota c.state now).tat c.quota = some x
  rw [tat]
  exact h.same.imp_left fun ⟨absent, past⟩ => ⟨absent, fun x hx => (past x hx).trans htime⟩

variable [DecidableEq K] [Std.LawfulEqOrd K]

theorem acquire (h : Twins key c l time) (htime : time ≤ now) (maxDelay : Duration)
    (rep : (l.serve key (.acquire now maxDelay)).2.arrival key ≠ some .never) :
    (c.serve (.acquire now maxDelay)).1 = (l.serve key (.acquire now maxDelay)).1 ∧
      Twins key (c.serve (.acquire now maxDelay)).2 (l.serve key (.acquire now maxDelay)).2 now := by
  obtain ⟨folded, charged⟩ := h.charged
  have booked := KeyedLimiter.acquire_book l key now maxDelay
  rw [h.book htime] at booked
  have wait := free_sub c.quota c.state now
  set arrival := c.state.arrival c.quota now with harrival
  have ahead : now ≤ arrival := by
    rw [harrival, Calendar.arrival]
    cases c.state.tat c.quota with
    | none => exact le_rfl
    | some x => exact le_max_right ..
  -- The limiter grants what comes too late to be counted, and its arrival time is gone then.
  have granted (inTime : ¬arrival - now - c.quota.tolerance > maxDelay) : arrival + c.quota.interval ≤ Instant.LAST := by
    dsimp only at booked
    rw [if_neg inTime] at booked
    obtain ⟨admission, l', hr, -, after, -⟩ := booked
    simp only [KeyedLimiter.serve, hr, after] at rep
    by_contra past
    simp [Instant.checkedAdd, past] at rep
  have hnow : now ≤ Instant.LAST := by
    by_contra past
    have late : arrival = now := by
      rw [harrival, Calendar.arrival]
      cases ht : c.state.tat c.quota with
      | none => rfl
      | some x => exact max_eq_right ((h.last x ht).trans (Nat.le_of_not_le past))
    have := granted (by simp [late])
    exact past ((ahead.trans (Nat.le_add_right ..)).trans this)
  have asked := SlotCalendar.acquire_greedy charged h.greedy htime hnow h.last maxDelay
  obtain ⟨n, -, -, quota, charged', -⟩ := SlotCalendar.acquire_charged charged now 0 maxDelay
  obtain ⟨greedy, tat, folds⟩ := SlotCalendar.foldBefore_greedy charged h.greedy now
  dsimp only at asked booked
  rw [wait] at asked
  simp only [SlotCalendar.serve, KeyedLimiter.serve]
  by_cases late : arrival - now - c.quota.tolerance > maxDelay
  · rw [if_pos late] at asked booked
    rw [asked, booked]
    exact ⟨rfl, h.retain htime⟩
  · rw [if_neg late] at asked booked
    obtain ⟨admission, l', hr, delay, after, kept⟩ := booked
    rw [asked] at charged'
    rw [asked, hr]
    have last := granted late
    have after_free : Calendar.tat c.quota { SlotCalendar.foldBefore c.quota c.state now with
        slots := (SlotCalendar.foldBefore c.quota c.state now).slots ++ [c.state.free c.quota now] } =
          some (arrival + c.quota.interval) := by
      rw [tat_concat, tat, next_free]
    have spaced := greedy_concat (greedy.mono htime) (t := c.state.free c.quota now) fun later => by
      rw [tat]
      exact of_lt_free later
    refine ⟨by rw [← delay]; rfl, ⟨_, charged'⟩, spaced, kept.trans h.quota, fun x hx => ?_,
      .inr ⟨arrival + c.quota.interval, ?_, after_free⟩⟩
    · rw [after_free, Option.mem_def, Option.some.injEq] at hx
      exact hx ▸ last
    · rw [after, if_pos rfl, Instant.checkedAdd_eq_some.mpr ⟨rfl, last⟩]
      rfl

omit [DecidableEq K] in
theorem forget (h : Twins key c l time) (htime : time ≤ now) : Twins key c (l.retainRecent now) now := by
  refine ⟨h.charged, h.greedy.mono htime, h.quota, h.last, ?_⟩
  rw [KeyedLimiter.retainRecent_arrival]
  rcases h.same with ⟨absent, past⟩ | ⟨x, stored, tat⟩
  · rw [absent]
    exact .inl ⟨rfl, fun x hx => (past x hx).trans htime⟩
  · rw [stored, tat]
    by_cases later : x > now
    · exact .inr ⟨x, by simp [later], rfl⟩
    · refine .inl ⟨by simp [later], fun y hy => ?_⟩
      cases hy
      exact Nat.le_of_not_lt later

theorem serve (h : Twins key c l time) {r : Request} (htime : time ≤ r.time)
    (rep : (l.serve key r).2.arrival key ≠ some .never) :
    (c.serve r).1 = (l.serve key r).1 ∧ Twins key (c.serve r).2 (l.serve key r).2 r.time := by
  cases r with
  | acquire now maxDelay => exact h.acquire htime maxDelay rep
  | retainCalendar now => exact ⟨rfl, h.retain htime⟩
  | retainLimiter now => exact ⟨rfl, h.forget htime⟩

theorem run (h : Twins key c l time) {rs : List Request} (ordered : (time :: rs.map (·.time)).Pairwise (· ≤ ·))
    (rep : l.Representable key rs) : (Run.run SlotCalendar.serve rs c).1 = (Run.run (KeyedLimiter.serve key) rs l).1 := by
  induction rs generalizing c l time with
  | nil => rfl
  | cons r rs ih =>
    obtain ⟨later, ordered⟩ := List.pairwise_cons.mp ordered
    obtain ⟨same, next⟩ := h.serve (later r.time List.mem_cons_self) rep.1
    rw [Run.run_cons, Run.run_cons, same, ih next ordered rep.2]

end Twins

/-- Over every sequence of requests and of calls that forget what is past, in nondecreasing time, with nothing
    cancelled, a new slot calendar and a new keyed limiter of the same quota give a key the same answers, as long as
    its arrival time does not pass the last instant. -/
theorem run_inOrder {K : Type} [Ord K] [Std.TransOrd K] [DecidableEq K] [Std.LawfulEqOrd K] {count burst : NonZeroU32}
    {per : Duration} {c : SlotCalendar} {quota : Quota} (hc : SlotCalendar.new count per burst = .ok c)
    (hq : Quota.new count per burst = .ok quota) (hasher : K → Nat) (key : K) {rs : List Request}
    (ordered : (rs.map (·.time)).Pairwise (· ≤ ·)) (rep : (KeyedLimiter.new quota hasher).Representable key rs) :
    (Run.run SlotCalendar.serve rs c).1 = (Run.run (KeyedLimiter.serve key) rs (KeyedLimiter.new quota hasher)).1 := by
  obtain ⟨charged, slots, hquota⟩ := SlotCalendar.new_charged hc
  have floor : c.state.floor = none := charged.floor
  have tat : c.state.tat c.quota = none := by rw [Calendar.tat, floor, slots]; rfl
  have start : Twins key c (KeyedLimiter.new quota hasher) 0 := by
    refine ⟨⟨_, charged⟩, fun p hp => ?_, ?_, fun x hx => ?_, .inl ⟨?_, fun x hx => ?_⟩⟩
    · simp [slots] at hp
    · exact Except.ok.inj (hq.symm.trans hquota)
    · rw [tat] at hx
      cases hx
    · simp [KeyedLimiter.arrival, KeyedLimiter.entry, KeyedLimiter.shard, KeyedLimiter.new]
    · rw [tat] at hx
      cases hx
  exact start.run (List.pairwise_cons.mpr ⟨fun _ _ => Nat.zero_le _, ordered⟩) rep

/-- Two a second, two at once: the third waits, the fourth is denied, later ones start over. -/
def twoPerSecond : Quota := { interval := 5 * 10 ^ 8, tolerance := 5 * 10 ^ 8 }

def burstThenLater : List Request :=
  [.acquire 0 0, .acquire 0 0, .acquire 0 (6 * 10 ^ 8), .acquire 0 0, .retainCalendar (10 ^ 9), .acquire (10 ^ 9) 0,
    .retainLimiter (5 * 10 ^ 9), .acquire (5 * 10 ^ 9) 0]

theorem run_inOrder_burst :
    (Run.run SlotCalendar.serve burstThenLater { quota := twoPerSecond, state := { floor := none, slots := [] } }).1 =
      (Run.run (KeyedLimiter.serve 7) burstThenLater (KeyedLimiter.new twoPerSecond id : KeyedLimiter Nat)).1 :=
  @run_inOrder Nat _ _ _ _ ⟨2, by decide⟩ ⟨2, by decide⟩ (10 ^ 9) _ twoPerSecond rfl rfl id 7 burstThenLater (by decide)
    ⟨by decide, by decide, by decide, by decide, by decide, by decide, by decide +kernel, by decide +kernel, trivial⟩

end Tgin.Limit
