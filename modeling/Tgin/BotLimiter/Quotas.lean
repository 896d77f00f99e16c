import Tgin.BotLimiter
import Tgin.Limit.Keyed

/-! Whatever the interleaving of its calls, the limiter admits within each of its quotas, and an admitted call
    holds one booking of each quota that applies to it, all for the instant it starts at. What the calls hold of
    a quota is charged to it (`System.Invariant`): a cancellation that comes too late leaves a charge behind. -/

namespace Tgin.BotLimiter
open Limit

/-! ### The property -/

/-- The instants a call has been granted of a bucket. -/
def System.granted (s : System) (id : Nat) (bucket : Bucket) : List Instant :=
  s.log.filterMap fun
    | (id', .granted bucket' t) => if id' = id ∧ bucket' = bucket then some t else none
    | (_, .cancelled ..) => none

/-- The instants a call has cancelled of a bucket. -/
def System.cancelled (s : System) (id : Nat) (bucket : Bucket) : List Instant :=
  s.log.filterMap fun
    | (_, .granted ..) => none
    | (id', .cancelled bucket' t) => if id' = id ∧ bucket' = bucket then some t else none

/-- When an admitted call starts, if `bucket` applies to it. -/
def Call.starts (bucket : Bucket) (call : Call) : Option Instant :=
  match call.pc with
  | .returned (.ok admitted) =>
    if BotLimiter.bucket call.chat bucket.scope = some bucket then some (call.now + admitted.delay) else none
  | _ => none

/-- The starts are as far apart as the rate asks. -/
def Rate.Conforms (rate : Rate) (starts : List Instant) : Prop :=
  ∃ T, Limit.interval rate.count rate.per = .ok T ∧ Gcra.Spaced T rate.burst.1 starts

/-- When the calls admitted start, of those to which `bucket` applies. -/
def System.starts (s : System) (bucket : Bucket) : List Instant := s.calls.filterMap (Call.starts bucket)

/-- A booking of the chats' quota, or of the groups', in a shard. -/
def Action.books (scope : Scope) (shardOf : ChatKey → Nat) (i : Nat) : Action → Bool
  | .granted (.chat key) _ => scope = .chat && shardOf key = i
  | .granted (.group key) _ => scope = .group && shardOf key = i
  | _ => false

/-- How many bookings a shard has made. -/
def System.bookings (s : System) (scope : Scope) (shardOf : ChatKey → Nat) (i : Nat) : Nat :=
  s.log.countP fun e => e.2.books scope shardOf i

/-- No shard has made so many bookings that a stamp came twice. -/
def System.Few (l : BotLimiter) (s : System) : Prop :=
  ∀ i, s.bookings .chat l.chat.shardOf i ≤ wordSize ∧ s.bookings .group l.group.shardOf i ≤ wordSize

/-! ### One call -/

/-- What a call knows of its bookings. -/
structure Call.Valid (maxDelay : Duration) (call : Call) : Prop where
  bucket : ∀ scope, ∀ b ∈ call.booked scope, BotLimiter.bucket call.chat scope = some b.hold.bucket
  start : ∀ scope, ∀ b ∈ call.booked scope, ∀ booking, b.hold = .global booking → booking.at = call.now + b.delay
  le_delay : ∀ scope, ∀ b ∈ call.booked scope, b.delay ≤ call.admitted.delay
  start_le : call.start ≤ call.admitted.delay
  delay_le : call.admitted.delay ≤ maxDelay
  pass : match call.pc with
    | .visit rest => ∀ scope ∉ rest, (BotLimiter.bucket call.chat scope).isSome →
        ∃ b ∈ call.booked scope, call.start ≤ b.delay
    | .book bucket rest => BotLimiter.bucket call.chat bucket.scope = some bucket ∧ call.booked bucket.scope = none ∧
        ∀ scope ∉ rest, scope ≠ bucket.scope → (BotLimiter.bucket call.chat scope).isSome →
          ∃ b ∈ call.booked scope, call.start ≤ b.delay
    | .undo rest _ => ∀ scope ∉ rest, call.booked scope = none
    | .returned (.ok admitted) => admitted = call.admitted ∧ ∀ scope, (BotLimiter.bucket call.chat scope).isSome →
        ∃ b ∈ call.booked scope, b.delay = admitted.delay
    | .returned (.error _) => ∀ scope, call.booked scope = none

/-! ### What the calls hold is charged -/

/-- The charge of a booking of a keyed quota, if it is of that key. -/
def charge (now : Instant) (key : ChatKey) (b : Booked) : Option Charge :=
  match b.hold with
  | .global _ => none
  | .chat key' admission | .group key' admission => if key' = key then some { admission, start := now + b.delay } else none

/-- The instants the calls hold of the bot-wide quota. -/
def heldGlobal (calls : List Call) : List Instant :=
  calls.filterMap fun call => (call.booked .global).map fun b => call.now + b.delay

/-- The bookings the calls hold of a key's quota. -/
def held (calls : List Call) (scope : Scope) (key : ChatKey) : List Charge :=
  calls.filterMap fun call => (call.booked scope).bind (charge call.now key)

/-- A keyed quota has charged the bookings that are held, and perhaps more. -/
def Covers (limiter : KeyedLimiter ChatKey) (made : Nat → Nat) (held : ChatKey → List Charge) : Prop :=
  ∃ chain, limiter.Charged made chain ∧ ∀ key, (held key).Subperm (chain key)

/-- The bot-wide quota has charged the instants that are held, and perhaps more. -/
def CoversGlobal (global : SlotCalendar) (held : List Instant) : Prop :=
  ∃ folded, global.Charged folded ∧ held.Subperm (folded ++ global.state.slots)

section
variable {limiter limiter' : KeyedLimiter ChatKey} {made : Nat → Nat} {held held' : ChatKey → List Charge} {key : ChatKey}

theorem Covers.congr (h : Covers limiter made held) (same : ∀ key, (held' key).Perm (held key)) :
    Covers limiter made held' := by
  obtain ⟨chain, charged, sub⟩ := h
  exact ⟨chain, charged, fun key => (same key).subperm.trans (sub key)⟩

theorem bookKeyed_error {scope : Scope} {hold : ChatKey → Admit → Hold} {now : Instant} {source maxDelay : Duration}
    {e : Limited} (hr : bookKeyed limiter scope key hold now source maxDelay = (.error e, limiter')) :
    limiter' = limiter := by
  unfold bookKeyed at hr
  split at hr
  · cases hr
    rfl
  · split at hr
    · cases hr
    · rename_i hacquire
      simp only [Prod.mk.injEq] at hr
      exact hr.2 ▸ KeyedLimiter.acquire_error hacquire

section
variable {scope : Scope} {hold : ChatKey → Admit → Hold} {now : Instant} {source maxDelay : Duration} {b : Booked}

theorem bookKeyed_ok (hr : bookKeyed limiter scope key hold now source maxDelay = (.ok b, limiter')) :
    now + source ≤ Instant.LAST ∧ ∃ admission, limiter.acquire key (now + source) (maxDelay - source) = (.ok admission, limiter') ∧
      b = { delay := Duration.saturatingAdd source admission.delay, hold := hold key admission } := by
  unfold bookKeyed at hr
  split at hr
  · cases hr
  · rename_i t ht
    obtain ⟨rfl, last⟩ := Instant.checkedAdd_eq_some.mp ht
    split at hr
    · rename_i admission _ hacquire
      cases hr
      exact ⟨last, admission, hacquire, rfl⟩
    · cases hr

/-- A booking starts when it was asked for or later, within the longest delay, and its delay does not saturate. -/
theorem Covers.delay (h : Covers limiter made held)
    (hr : bookKeyed limiter scope key hold now source maxDelay = (.ok b, limiter')) :
    ∃ admission, b.hold = hold key admission ∧ b.delay = source + admission.delay ∧ (source ≤ maxDelay → b.delay ≤ maxDelay) ∧
      limiter'.quota = limiter.quota ∧ limiter'.hasher = limiter.hasher := by
  obtain ⟨chain, charged, -⟩ := h
  obtain ⟨last, admission, hacquire, rfl⟩ := bookKeyed_ok hr
  obtain ⟨inTime, last', -, -, -, rfl⟩ := KeyedLimiter.acquire_ok charged hacquire
  have exact : Duration.saturatingAdd source admission.delay = source + admission.delay :=
    Nat.min_eq_left (Nat.le_trans (Nat.add_le_add_right (Nat.le_add_left source now) _) (last' last))
  refine ⟨admission, rfl, exact, fun hs => ?_, rfl, rfl⟩
  rw [exact]
  exact Nat.le_trans (Nat.add_le_add_left inTime source) (Nat.le_of_eq (Nat.add_sub_cancel' hs))

/-- The booking is charged. -/
theorem Covers.bookKeyed (h : Covers limiter made held) (few : made (limiter.shardOf key) < wordSize)
    (hr : bookKeyed limiter scope key hold now source maxDelay = (.ok b, limiter')) {admission : Admit}
    (hhold : b.hold = hold key admission) (inj : Function.Injective (hold key))
    (same : ∀ key' ≠ key, (held' key').Perm (held key'))
    (added : (held' key).Perm (⟨admission, now + b.delay⟩ :: held key)) :
    Covers limiter' (fun i => made i + if i = limiter.shardOf key then 1 else 0) held' := by
  obtain ⟨admission', hhold', hdelay, -⟩ := h.delay hr
  obtain ⟨chain, charged, sub⟩ := h
  obtain ⟨-, admission'', hacquire, rfl⟩ := bookKeyed_ok hr
  obtain rfl : admission'' = admission := inj hhold
  obtain rfl : admission'' = admission' := inj hhold'
  rw [hdelay, ← Nat.add_assoc] at added
  refine ⟨_, KeyedLimiter.acquire_charged charged few hacquire, fun key' => ?_⟩
  rcases eq_or_ne key' key with rfl | ne
  · rw [Function.update_self]
    exact added.subperm.trans ((List.subperm_cons _).mpr (sub key'))
  · rw [Function.update_of_ne ne]
    exact (same key' ne).subperm.trans (sub key')

end

/-- Only the booking cancelled is let go. -/
theorem Covers.cancel {c : Charge} (h : Covers limiter made held) (hc : (held key).Perm (c :: held' key))
    (others : ∀ key' ≠ key, (held' key').Perm (held key')) : Covers (limiter.cancel key c.admission) made held' := by
  obtain ⟨chain, charged, sub⟩ := h
  have hsub := hc.symm.subperm.trans (sub key)
  rcases KeyedLimiter.cancel_charged charged (hsub.subset List.mem_cons_self) with charged' | ⟨rest, hrest, charged'⟩
  · refine ⟨chain, charged', fun key' => ?_⟩
    rcases eq_or_ne key' key with rfl | ne
    · exact (List.sublist_cons_self c _).subperm.trans hsub
    · exact (others key' ne).subperm.trans (sub key')
  · refine ⟨_, charged', fun key' => ?_⟩
    rcases eq_or_ne key' key with rfl | ne
    · rw [Function.update_self]
      exact (List.subperm_cons c).mp (hrest ▸ hsub)
    · rw [Function.update_of_ne ne]
      exact (others key' ne).subperm.trans (sub key')

end

section
variable {global global' : SlotCalendar} {held held' : List Instant}

theorem CoversGlobal.congr (h : CoversGlobal global held) (same : held'.Perm held) : CoversGlobal global held' := by
  obtain ⟨folded, charged, sub⟩ := h
  exact ⟨folded, charged, same.subperm.trans sub⟩

theorem CoversGlobal.acquire {now : Instant} {source maxDelay : Duration} (h : CoversGlobal global held)
    {result : Except Denied Booking} (hr : global.acquire now source maxDelay = (result, global')) :
    global'.quota = global.quota ∧
      match result with
      | .error _ => CoversGlobal global' held
      | .ok booking => source ≤ booking.delay ∧ booking.delay ≤ maxDelay ∧ booking.at = now + booking.delay ∧
          CoversGlobal global' (booking.at :: held) := by
  obtain ⟨folded, charged, sub⟩ := h
  obtain ⟨n, hn, -, quota, charged', slots⟩ := SlotCalendar.acquire_charged charged now source maxDelay
  rw [hr] at quota charged' slots
  refine ⟨quota, ?_⟩
  cases result with
  | error e =>
    refine ⟨_, charged', ?_⟩
    rw [show global'.state.slots = _ from slots, List.append_assoc, List.take_append_drop]
    exact sub
  | ok booking =>
    obtain ⟨hslots, start, delay, inTime⟩ := slots
    have hat : booking.at = now + booking.delay := by
      rw [delay, Nat.add_sub_cancel' (Nat.le_trans (Nat.le_add_right now source) start)]
    refine ⟨?_, inTime, hat, _, charged', ?_⟩
    · rw [hat] at start
      exact Nat.le_of_add_le_add_left start
    · have perm : (folded ++ global.state.slots.take n ++ global'.state.slots).Perm
          (booking.at :: (folded ++ global.state.slots)) := by
        rw [show global'.state.slots = _ from hslots]
        refine ((List.perm_insertIdx _ _ partitionPoint_le).append_left _).trans (List.perm_middle.trans ?_)
        rw [List.append_assoc, List.take_append_drop]
      exact ((List.subperm_cons _).mpr sub).trans perm.symm.subperm

theorem CoversGlobal.cancel {booking : Booking} (h : CoversGlobal global held)
    (hc : held.Perm (booking.at :: held')) : CoversGlobal (global.cancel booking) held' := by
  obtain ⟨folded, charged, sub⟩ := h
  refine ⟨folded, SlotCalendar.cancel_charged charged booking, ?_⟩
  rw [SlotCalendar.cancel_eq charged.state.sorted]
  have hsub := hc.symm.subperm.trans sub
  by_cases hm : booking.at ∈ global.state.slots
  · have perm : (folded ++ global.state.slots).Perm (booking.at :: (folded ++ global.state.slots.erase booking.at)) :=
      ((List.perm_cons_erase hm).append_left _).trans List.perm_middle
    exact (List.subperm_cons _).mp (hsub.trans perm.subperm)
  · rw [List.erase_of_not_mem hm]
    exact (List.sublist_cons_self _ _).subperm.trans hsub

end

/-! ### What a step does -/

/-- The operation of a step on the limiter, and what it changes in the call's bookings. -/
inductive Call.Effect (call : Call) (l : BotLimiter) : Call × BotLimiter × Option Action → Prop where
  | quiet {call' : Call} (now : call'.now = call.now) (booked : call'.booked = call.booked) :
    Effect call l (call', l, none)
  | refused {call' : Call} {l' : BotLimiter} {bucket : Bucket} {e : Limited} (now : call'.now = call.now)
    (free : call.booked bucket.scope = none) (booked : call'.booked = call.booked)
    (book : l.book bucket call.now call.start = (.error e, l')) :
    Effect call l (call', l', none)
  | granted {call' : Call} {l' : BotLimiter} {bucket : Bucket} {b : Booked} (now : call'.now = call.now)
    (free : call.booked bucket.scope = none)
    (booked : call'.booked = Function.update call.booked bucket.scope (some b))
    (book : l.book bucket call.now call.start = (.ok b, l')) :
    Effect call l (call', l', some (.granted bucket (call.now + b.delay)))
  | cancelled {call' : Call} {scope : Scope} {b : Booked} (now : call'.now = call.now)
    (held : call.booked scope = some b) (booked : call'.booked = Function.update call.booked scope none) :
    Effect call l (call', l.unbook b, some (.cancelled b.hold.bucket (call.now + b.delay)))

section
variable {call : Call} {maxDelay : Duration} {l : BotLimiter}

theorem Call.step_effect (free : ∀ bucket rest, call.pc = .book bucket rest → call.booked bucket.scope = none) (l : BotLimiter) :
    call.Effect l (call.step l) := by
  unfold Call.step
  cases hpc : call.pc with
  | visit rest =>
    cases rest with
    | nil =>
      dsimp only
      split
      · exact .quiet rfl rfl
      · exact .quiet rfl rfl
    | cons scope rest =>
      dsimp only
      split
      · exact .quiet rfl rfl
      · exact .quiet rfl rfl
      · rename_i early hb
        split
        · exact .quiet rfl rfl
        · exact .cancelled rfl hb rfl
  | book bucket rest =>
    dsimp only
    split
    · rename_i b l' hbook
      exact .granted rfl (free bucket rest hpc) rfl hbook
    · rename_i e l' hbook
      exact .refused rfl (free bucket rest hpc) rfl hbook
  | undo rest limited =>
    cases rest with
    | nil => exact .quiet rfl rfl
    | cons scope rest =>
      dsimp only
      split
      · exact .quiet rfl rfl
      · rename_i b hb
        exact .cancelled rfl hb rfl
  | returned result => exact .quiet rfl rfl

theorem Call.Valid.effect (h : call.Valid maxDelay) (l : BotLimiter) : call.Effect l (call.step l) := by
  refine step_effect (fun bucket rest hpc => ?_) l
  have pass := h.pass
  rw [hpc] at pass
  exact pass.2.1

theorem Call.valid_new (chat : Option ChatKey) (now : Instant) : (Call.new chat now).Valid maxDelay := by
  refine ⟨nofun, nofun, nofun, Nat.le_refl _, Nat.zero_le _, fun scope hs => ?_⟩
  cases scope <;> simp [scopes] at hs

theorem bucket_scope {chat : Option ChatKey} {scope : Scope} {bucket : Bucket}
    (h : BotLimiter.bucket chat scope = some bucket) : bucket.scope = scope := by
  cases scope
  · cases h
    rfl
  · obtain ⟨key, -, rfl⟩ := Option.map_eq_some_iff.mp h
    rfl
  · obtain ⟨key, -, rfl⟩ := Option.map_eq_some_iff.mp h
    rfl

theorem mem_scopes (scope : Scope) : scope ∈ scopes := by cases scope <;> decide

theorem of_mem_update_none {booked : Scope → Option Booked} {scope scope' : Scope} {b : Booked}
    (h : b ∈ Function.update booked scope none scope') : scope' ≠ scope ∧ b ∈ booked scope' := by
  rcases eq_or_ne scope' scope with rfl | ne
  · rw [Function.update_self] at h
    cases h
  · rw [Function.update_of_ne ne] at h
    exact ⟨ne, h⟩

theorem le_raise (admitted : Admitted) (scope : Scope) (delay : Duration) :
    admitted.delay ≤ (admitted.raise scope delay).delay ∧ delay ≤ (admitted.raise scope delay).delay ∧
      ∀ m, admitted.delay ≤ m → delay ≤ m → (admitted.raise scope delay).delay ≤ m := by
  unfold Admitted.raise
  split
  · rename_i longer
    exact ⟨Nat.le_of_lt longer, Nat.le_refl _, fun _ _ h => h⟩
  · rename_i shorter
    exact ⟨Nat.le_refl _, Nat.le_of_not_lt shorter, fun _ h _ => h⟩

/-- A valid call stays valid if what it books is what it asked for. -/
theorem Call.Valid.step (h : call.Valid maxDelay) (hbook : ∀ bucket b l',
      l.book bucket call.now call.start = (.ok b, l') → b.hold.bucket = bucket ∧ call.start ≤ b.delay ∧
        b.delay ≤ maxDelay ∧ ∀ booking, b.hold = .global booking → booking.at = call.now + b.delay) :
    (call.step l).1.Valid maxDelay := by
  have pass := h.pass
  unfold Call.step
  cases hpc : call.pc with
  | visit rest =>
    rw [hpc] at pass
    cases rest with
    | nil =>
      dsimp only
      split
      · rename_i settled
        refine ⟨h.bucket, h.start, h.le_delay, h.start_le, h.delay_le, rfl, fun scope hs => ?_⟩
        obtain ⟨b, hb, le⟩ := pass scope List.not_mem_nil hs
        exact ⟨b, hb, Nat.le_antisymm (h.le_delay scope b hb) (settled ▸ le)⟩
      · exact ⟨h.bucket, h.start, h.le_delay, Nat.le_refl _, h.delay_le, fun scope hs => absurd (mem_scopes scope) hs⟩
    | cons scope rest =>
      have others (scope' : Scope) (hs : scope' ∉ rest) (ne : scope' ≠ scope) : scope' ∉ scope :: rest :=
        fun hm => hs ((List.mem_cons.mp hm).resolve_left ne)
      dsimp only
      split
      · rename_i hnone
        refine ⟨h.bucket, h.start, h.le_delay, h.start_le, h.delay_le, fun scope' hs isSome => ?_⟩
        rcases eq_or_ne scope' scope with rfl | ne
        · simp [hnone] at isSome
        · exact pass scope' (others scope' hs ne) isSome
      · rename_i bucket hbucket hfree
        obtain rfl := bucket_scope hbucket
        exact ⟨h.bucket, h.start, h.le_delay, h.start_le, h.delay_le, hbucket, hfree,
          fun scope' hs ne => pass scope' (others scope' hs ne)⟩
      · rename_i bucket early hbucket hearly
        obtain rfl := bucket_scope hbucket
        split
        · rename_i inTime
          refine ⟨h.bucket, h.start, h.le_delay, h.start_le, h.delay_le, fun scope' hs isSome => ?_⟩
          rcases eq_or_ne scope' bucket.scope with rfl | ne
          · exact ⟨early, hearly, inTime⟩
          · exact pass scope' (others scope' hs ne) isSome
        · refine ⟨fun _ b hb => h.bucket _ b (of_mem_update_none hb).2, fun _ b hb => h.start _ b (of_mem_update_none hb).2,
            fun _ b hb => h.le_delay _ b (of_mem_update_none hb).2, h.start_le, h.delay_le, hbucket,
            Function.update_self .., fun scope' hs ne isSome => ?_⟩
          obtain ⟨b, hb, le⟩ := pass scope' (others scope' hs ne) isSome
          exact ⟨b, (Function.update_of_ne ne ..).trans hb, le⟩
  | book bucket rest =>
    rw [hpc] at pass
    dsimp only
    split
    · rename_i b l' hb
      obtain ⟨hhold, hstart, hdelay, hglobal⟩ := hbook bucket b l' hb
      obtain ⟨grows, raised, bounded⟩ := le_raise call.admitted bucket.scope b.delay
      have cases_booked {scope : Scope} {b' : Booked}
          (hm : b' ∈ Function.update call.booked bucket.scope (some b) scope) :
          scope = bucket.scope ∧ b' = b ∨ b' ∈ call.booked scope := by
        rcases eq_or_ne scope bucket.scope with rfl | ne
        · rw [Function.update_self] at hm
          exact .inl ⟨rfl, (Option.some.inj hm).symm⟩
        · rw [Function.update_of_ne ne] at hm
          exact .inr hm
      refine ⟨fun scope b' hm => ?_, fun scope b' hm => ?_, fun scope b' hm => ?_, Nat.le_trans h.start_le grows,
        bounded _ h.delay_le hdelay, fun scope hs isSome => ?_⟩
      · rcases cases_booked hm with ⟨rfl, rfl⟩ | hm
        · rw [hhold]
          exact pass.1
        · exact h.bucket scope b' hm
      · rcases cases_booked hm with ⟨rfl, rfl⟩ | hm
        · exact hglobal
        · exact h.start scope b' hm
      · rcases cases_booked hm with ⟨rfl, rfl⟩ | hm
        · exact raised
        · exact Nat.le_trans (h.le_delay scope b' hm) grows
      · rcases eq_or_ne scope bucket.scope with rfl | ne
        · exact ⟨b, Function.update_self .., hstart⟩
        · obtain ⟨b', hb', le⟩ := pass.2.2 scope hs ne isSome
          exact ⟨b', (Function.update_of_ne ne ..).trans hb', le⟩
    · exact ⟨h.bucket, h.start, h.le_delay, h.start_le, h.delay_le,
        fun scope hs => absurd (List.mem_reverse.mpr (mem_scopes scope)) hs⟩
  | undo rest limited =>
    rw [hpc] at pass
    cases rest with
    | nil => exact ⟨h.bucket, h.start, h.le_delay, h.start_le, h.delay_le, fun scope => pass scope List.not_mem_nil⟩
    | cons scope rest =>
      have others (scope' : Scope) (hs : scope' ∉ rest) (ne : scope' ≠ scope) : call.booked scope' = none :=
        pass scope' fun hm => hs ((List.mem_cons.mp hm).resolve_left ne)
      dsimp only
      split
      · rename_i hnone
        refine ⟨h.bucket, h.start, h.le_delay, h.start_le, h.delay_le, fun scope' hs => ?_⟩
        rcases eq_or_ne scope' scope with rfl | ne
        · exact hnone
        · exact others scope' hs ne
      · refine ⟨fun _ b hb => h.bucket _ b (of_mem_update_none hb).2, fun _ b hb => h.start _ b (of_mem_update_none hb).2,
          fun _ b hb => h.le_delay _ b (of_mem_update_none hb).2, h.start_le, h.delay_le, fun scope' hs => ?_⟩
        rcases eq_or_ne scope' scope with rfl | ne
        · exact Function.update_self ..
        · exact (Function.update_of_ne ne ..).trans (others scope' hs ne)
  | returned result =>
    rw [hpc] at pass
    refine ⟨h.bucket, h.start, h.le_delay, h.start_le, h.delay_le, ?_⟩
    rw [hpc]
    exact pass

end

/-! ### The invariant -/

/-- What a call holds of a bucket. -/
def Call.holds (bucket : Bucket) (call : Call) : Option Instant :=
  (call.booked bucket.scope).bind fun b => if b.hold.bucket = bucket then some (call.now + b.delay) else none

/-- The quotas of a limiter and the longest delay do not change. -/
structure Same (l l' : BotLimiter) : Prop where
  maxDelay : l'.maxDelay = l.maxDelay
  global : l'.global.quota = l.global.quota
  chat : l'.chat.quota = l.chat.quota ∧ l'.chat.hasher = l.chat.hasher
  group : l'.group.quota = l.group.quota ∧ l'.group.hasher = l.group.hasher

/-- What the calls hold has been charged, and is what they were granted and did not cancel. -/
structure System.Invariant (l : BotLimiter) (s : System) : Prop where
  same : Same l s.limiter
  valid : ∀ call ∈ s.calls, call.Valid l.maxDelay
  global : CoversGlobal s.limiter.global (heldGlobal s.calls)
  chat : Covers s.limiter.chat (s.bookings .chat s.limiter.chat.shardOf) (held s.calls .chat)
  group : Covers s.limiter.group (s.bookings .group s.limiter.group.shardOf) (held s.calls .group)
  log : ∀ id bucket, (s.granted id bucket).Perm
    ((s.calls[id]?.bind (Call.holds bucket)).toList ++ s.cancelled id bucket)

section
variable {α : Type} {calls : List Call} {id : Nat} {call call' : Call}

theorem filterMap_set (f : Call → Option α) (h : calls[id]? = some call) (call' : Call) :
    ∃ rest, (calls.filterMap f).Perm ((f call).toList ++ rest) ∧
      ((calls.set id call').filterMap f).Perm ((f call').toList ++ rest) := by
  obtain ⟨hid, rfl⟩ := List.getElem?_eq_some_iff.mp h
  have split (c : Call) : ((calls.set id c).filterMap f).Perm
      ((f c).toList ++ ((calls.take id).filterMap f ++ (calls.drop (id + 1)).filterMap f)) := by
    have cons : (c :: calls.drop (id + 1)).filterMap f = (f c).toList ++ (calls.drop (id + 1)).filterMap f := by
      cases hf : f c <;> simp [hf]
    rw [List.set_eq_take_append_cons_drop, if_pos hid, List.filterMap_append, cons]
    exact List.perm_append_comm_assoc ..
  refine ⟨_, ?_, split call'⟩
  have self := split calls[id]
  rwa [List.set_getElem_self] at self

/-- Nothing else changes what the calls hold. -/
theorem held_same {f : Call → Option α} (h : calls[id]? = some call) (same : f call' = f call) :
    ((calls.set id call').filterMap f).Perm (calls.filterMap f) := by
  obtain ⟨rest, before, after⟩ := filterMap_set f h call'
  exact after.trans (same ▸ before.symm)

theorem held_add {f : Call → Option α} {a : α} (h : calls[id]? = some call) (free : f call = none)
    (add : f call' = some a) : ((calls.set id call').filterMap f).Perm (a :: calls.filterMap f) := by
  obtain ⟨rest, before, after⟩ := filterMap_set f h call'
  rw [free] at before
  rw [add] at after
  exact after.trans (before.symm.cons a)

theorem held_remove {f : Call → Option α} {a : α} (h : calls[id]? = some call) (hold : f call = some a)
    (removed : f call' = none) : (calls.filterMap f).Perm (a :: (calls.set id call').filterMap f) := by
  obtain ⟨rest, before, after⟩ := filterMap_set f h call'
  rw [hold] at before
  rw [removed] at after
  exact before.trans (after.symm.cons a)

end

/-! ### A step keeps it -/

section
variable {s : System} {l l' : BotLimiter} {id : Nat} {call call' : Call} {bucket : Bucket} {b : Booked}

/-- The system after a step of the call `id`. -/
abbrev after (s : System) (id : Nat) (call : Call) (limiter : BotLimiter) (action : Option Action) : System :=
  { limiter, calls := s.calls.set id call, log := s.log ++ (action.map (id, ·)).toList }

theorem granted_after (s : System) (id : Nat) (call : Call) (limiter : BotLimiter) (bucket : Bucket) (t : Instant)
    (id' : Nat) (q : Bucket) : (after s id call limiter (some (.granted bucket t))).granted id' q =
      s.granted id' q ++ if id = id' ∧ bucket = q then [t] else [] := by
  simp only [System.granted, List.filterMap_append, Option.map_some, Option.toList_some, List.filterMap_cons,
    List.filterMap_nil]
  split <;> simp_all

theorem cancelled_after (s : System) (id : Nat) (call : Call) (limiter : BotLimiter) (bucket : Bucket) (t : Instant)
    (id' : Nat) (q : Bucket) : (after s id call limiter (some (.cancelled bucket t))).cancelled id' q =
      s.cancelled id' q ++ if id = id' ∧ bucket = q then [t] else [] := by
  simp only [System.cancelled, List.filterMap_append, Option.map_some, Option.toList_some, List.filterMap_cons,
    List.filterMap_nil]
  split <;> simp_all

/-- A step changes what its own call holds. -/
theorem holds_set (h : s.calls[id]? = some call) (id' : Nat) (q : Bucket) :
    (s.calls.set id call')[id']?.bind (Call.holds q) =
      if id = id' then call'.holds q else s.calls[id']?.bind (Call.holds q) := by
  split
  · rename_i heq
    obtain rfl := heq
    rw [List.getElem?_set_self (List.getElem?_eq_some_iff.mp h).1]
    rfl
  · rename_i ne
    rw [List.getElem?_set_ne ne]

theorem holds_congr (now : call'.now = call.now) (booked : call'.booked = call.booked) (q : Bucket) :
    call'.holds q = call.holds q := by
  simp only [Call.holds, now, booked]

theorem holds_granted (now : call'.now = call.now) (free : call.booked bucket.scope = none)
    (booked : call'.booked = Function.update call.booked bucket.scope (some b)) (hold : b.hold.bucket = bucket)
    (q : Bucket) : (call'.holds q).toList = (call.holds q).toList ++ if bucket = q then [call.now + b.delay] else [] := by
  simp only [Call.holds, now, booked]
  rcases eq_or_ne q.scope bucket.scope with heq | ne
  · rw [heq, Function.update_self, free, Option.bind_some, hold]
    split <;> rfl
  · rw [Function.update_of_ne ne, if_neg (fun h : bucket = q => ne (congrArg Bucket.scope h.symm)), List.append_nil]

theorem holds_cancelled {scope : Scope} (now : call'.now = call.now) (held : call.booked scope = some b)
    (booked : call'.booked = Function.update call.booked scope none) (hold : b.hold.bucket.scope = scope)
    (q : Bucket) : (call.holds q).toList = (call'.holds q).toList ++
      if b.hold.bucket = q then [call.now + b.delay] else [] := by
  simp only [Call.holds, now, booked]
  rcases eq_or_ne q.scope scope with heq | ne
  · rw [heq, Function.update_self, held, Option.bind_some]
    split <;> rfl
  · rw [Function.update_of_ne ne, if_neg (fun h : b.hold.bucket = q => ne ((congrArg Bucket.scope h.symm).trans hold)),
      List.append_nil]

/-- What the calls hold is still what they were granted and did not cancel. -/
theorem log_step {limiter : BotLimiter} {action : Option Action} (h : s.Invariant l) (hcall : s.calls[id]? = some call)
    (effect : call.Effect s.limiter (call', limiter, action)) (valid : call.Valid l.maxDelay)
    (hold : ∀ bucket b l', s.limiter.book bucket call.now call.start = (.ok b, l') → b.hold.bucket = bucket)
    (id' : Nat) (q : Bucket) : ((after s id call' limiter action).granted id' q).Perm
      (((s.calls.set id call')[id']?.bind (Call.holds q)).toList ++ (after s id call' limiter action).cancelled id' q) := by
  have before := h.log id' q
  rw [holds_set hcall]
  have quiet (now : call'.now = call.now) (booked : call'.booked = call.booked) :
      (if id = id' then call'.holds q else s.calls[id']?.bind (Call.holds q)) = s.calls[id']?.bind (Call.holds q) := by
    split
    · rename_i heq
      rw [← heq, hcall, Option.bind_some, holds_congr now booked]
    · rfl
  cases effect with
  | quiet now booked =>
    rw [quiet now booked]
    simpa [System.granted, System.cancelled] using before
  | refused now _ booked book =>
    rw [quiet now booked]
    simpa [System.granted, System.cancelled] using before
  | @granted _ _ bucket b now free booked book =>
    rw [granted_after]
    have same : (after s id call' limiter (some (.granted bucket (call.now + b.delay)))).cancelled id' q =
        s.cancelled id' q := by simp [System.cancelled]
    rw [same]
    by_cases heq : id = id'
    · obtain rfl := heq
      rw [hcall, Option.bind_some] at before
      rw [if_pos rfl, holds_granted now free booked (hold bucket b limiter book)]
      simp only [true_and]
      refine (before.append_right _).trans ?_
      rw [List.append_assoc, List.append_assoc]
      exact List.perm_append_comm.append_left _
    · simpa [heq] using before
  | @cancelled _ scope b now held booked =>
    rw [cancelled_after]
    have same : (after s id call' (s.limiter.unbook b) (some (.cancelled b.hold.bucket (call.now + b.delay)))).granted id' q =
        s.granted id' q := by simp [System.granted]
    rw [same]
    by_cases heq : id = id'
    · obtain rfl := heq
      rw [hcall, Option.bind_some, holds_cancelled now held booked (bucket_scope (valid.bucket scope b held)),
        List.append_assoc] at before
      rw [if_pos rfl]
      simp only [true_and]
      exact before.trans (List.perm_append_comm.append_left _)
    · simpa [heq] using before

theorem Same.trans {l₁ l₂ l₃ : BotLimiter} (h : Same l₁ l₂) (h' : Same l₂ l₃) : Same l₁ l₃ :=
  ⟨h'.maxDelay.trans h.maxDelay, h'.global.trans h.global, ⟨h'.chat.1.trans h.chat.1, h'.chat.2.trans h.chat.2⟩,
    ⟨h'.group.1.trans h.group.1, h'.group.2.trans h.group.2⟩⟩

theorem same_unbook (l : BotLimiter) (b : Booked) : Same l (l.unbook b) := by
  unfold unbook
  split
  · exact ⟨rfl, SlotCalendar.cancel_quota .., ⟨rfl, rfl⟩, ⟨rfl, rfl⟩⟩
  · exact ⟨rfl, rfl, KeyedLimiter.cancel_same .., ⟨rfl, rfl⟩⟩
  · exact ⟨rfl, rfl, ⟨rfl, rfl⟩, KeyedLimiter.cancel_same ..⟩

/-- A booking is of the bucket asked for, starts when asked for or later, and within the longest delay. -/
theorem book_ok {now : Instant} {source : Duration} (h : s.Invariant l)
    (hb : s.limiter.book bucket now source = (.ok b, l')) :
    b.hold.bucket = bucket ∧ source ≤ b.delay ∧ (source ≤ l.maxDelay → b.delay ≤ l.maxDelay) ∧
      (∀ booking, b.hold = .global booking → booking.at = now + b.delay) ∧ Same s.limiter l' := by
  have hmax := h.same.maxDelay
  cases bucket with
  | global =>
    simp only [book] at hb
    split at hb
    · rename_i booking global hr
      cases hb
      obtain ⟨quota, le, inTime, hat, -⟩ := h.global.acquire hr
      rw [hmax] at inTime
      exact ⟨rfl, le, fun _ => inTime, by rintro _ ⟨⟩; exact hat, ⟨rfl, quota, ⟨rfl, rfl⟩, ⟨rfl, rfl⟩⟩⟩
    · cases hb
  | chat key =>
    simp only [book, Prod.mk.injEq] at hb
    obtain ⟨hr, rfl⟩ := hb
    obtain ⟨admission, hold, delay, inTime, quota, hasher⟩ := h.chat.delay (Prod.ext hr rfl)
    rw [hmax] at inTime
    exact ⟨by rw [hold]; rfl, delay ▸ Nat.le_add_right .., inTime, by rw [hold]; nofun, ⟨rfl, rfl, ⟨quota, hasher⟩, ⟨rfl, rfl⟩⟩⟩
  | group key =>
    simp only [book, Prod.mk.injEq] at hb
    obtain ⟨hr, rfl⟩ := hb
    obtain ⟨admission, hold, delay, inTime, quota, hasher⟩ := h.group.delay (Prod.ext hr rfl)
    rw [hmax] at inTime
    exact ⟨by rw [hold]; rfl, delay ▸ Nat.le_add_right .., inTime, by rw [hold]; nofun, ⟨rfl, rfl, ⟨rfl, rfl⟩, ⟨quota, hasher⟩⟩⟩

/-- A refused booking leaves the charges as they are. -/
theorem refused_covers {now : Instant} {source : Duration} {e : Limited} (h : s.Invariant l)
    (hb : s.limiter.book bucket now source = (.error e, l')) :
    Same s.limiter l' ∧ CoversGlobal l'.global (heldGlobal s.calls) ∧ l'.chat = s.limiter.chat ∧
      l'.group = s.limiter.group := by
  cases bucket with
  | global =>
    simp only [book] at hb
    split at hb
    · cases hb
    · rename_i denied global hr
      cases hb
      obtain ⟨quota, covers⟩ := h.global.acquire hr
      exact ⟨⟨rfl, quota, ⟨rfl, rfl⟩, ⟨rfl, rfl⟩⟩, covers, rfl, rfl⟩
  | chat key =>
    simp only [book, Prod.mk.injEq] at hb
    obtain ⟨hr, rfl⟩ := hb
    have same := bookKeyed_error (Prod.ext hr rfl)
    exact ⟨⟨rfl, rfl, ⟨congrArg (·.quota) same, congrArg (·.hasher) same⟩, ⟨rfl, rfl⟩⟩, h.global, same, rfl⟩
  | group key =>
    simp only [book, Prod.mk.injEq] at hb
    obtain ⟨hr, rfl⟩ := hb
    have same := bookKeyed_error (Prod.ext hr rfl)
    exact ⟨⟨rfl, rfl, ⟨rfl, rfl⟩, ⟨congrArg (·.quota) same, congrArg (·.hasher) same⟩⟩, h.global, rfl, same⟩

/-- Of the other scopes, the calls hold what they held. -/
theorem held_other {scope scope' : Scope} {new : Option Booked} (hcall : s.calls[id]? = some call)
    (now : call'.now = call.now) (booked : call'.booked = Function.update call.booked scope new) (ne : scope' ≠ scope)
    (key : ChatKey) : (held (s.calls.set id call') scope' key).Perm (held s.calls scope' key) :=
  held_same hcall (by rw [now, booked, Function.update_of_ne ne])

theorem heldGlobal_other {scope : Scope} {new : Option Booked} (hcall : s.calls[id]? = some call)
    (now : call'.now = call.now) (booked : call'.booked = Function.update call.booked scope new) (ne : .global ≠ scope) :
    (heldGlobal (s.calls.set id call')).Perm (heldGlobal s.calls) :=
  held_same hcall (by rw [now, booked, Function.update_of_ne ne])

/-- A booking is added to what the calls hold of its key. -/
theorem held_granted {scope : Scope} (key : ChatKey) (c : Charge) (hcall : s.calls[id]? = some call)
    (now : call'.now = call.now) (free : call.booked scope = none)
    (booked : call'.booked = Function.update call.booked scope (some b))
    (hcharge : ∀ key', charge call.now key' b = if key = key' then some c else none) :
    (∀ key' ≠ key, (held (s.calls.set id call') scope key').Perm (held s.calls scope key')) ∧
      (held (s.calls.set id call') scope key).Perm (c :: held s.calls scope key) := by
  refine ⟨fun key' ne => held_same hcall ?_, held_add hcall ?_ ?_⟩
  · rw [now, booked, Function.update_self, free, Option.bind_some, hcharge, if_neg ne.symm]
    rfl
  · rw [free]
    rfl
  · rw [now, booked, Function.update_self, Option.bind_some, hcharge, if_pos rfl]

/-- A booking cancelled is taken out of what the calls hold of its key. -/
theorem held_cancelled {scope : Scope} (key : ChatKey) (c : Charge) (hcall : s.calls[id]? = some call)
    (now : call'.now = call.now) (hheld : call.booked scope = some b)
    (booked : call'.booked = Function.update call.booked scope none)
    (hcharge : ∀ key', charge call.now key' b = if key = key' then some c else none) :
    (∀ key' ≠ key, (held (s.calls.set id call') scope key').Perm (held s.calls scope key')) ∧
      (held s.calls scope key).Perm (c :: held (s.calls.set id call') scope key) := by
  refine ⟨fun key' ne => held_same hcall ?_, held_remove hcall ?_ ?_⟩
  · rw [now, booked, Function.update_self, hheld, Option.bind_some, hcharge, if_neg ne.symm]
    rfl
  · rw [hheld, Option.bind_some, hcharge, if_pos rfl]
  · rw [now, booked, Function.update_self]
    rfl

theorem bookings_after (s : System) (id : Nat) (call : Call) (limiter : BotLimiter) (action : Option Action)
    (scope : Scope) (shardOf : ChatKey → Nat) (i : Nat) : (after s id call limiter action).bookings scope shardOf i =
      s.bookings scope shardOf i + if action.any (Action.books scope shardOf i) then 1 else 0 := by
  rw [System.bookings, List.countP_append, ← System.bookings]
  cases action <;> simp [List.countP_cons]

theorem shardOf_congr {limiter limiter' : KeyedLimiter ChatKey} (h : limiter'.hasher = limiter.hasher) :
    limiter'.shardOf = limiter.shardOf := by
  funext key
  rw [KeyedLimiter.shardOf, h, KeyedLimiter.shardOf]

/-- What the calls hold after a booking is charged. -/
theorem granted_covers (h : s.Invariant l) (hcall : s.calls[id]? = some call) (now : call'.now = call.now)
    (free : call.booked bucket.scope = none) (booked : call'.booked = Function.update call.booked bucket.scope (some b))
    (hb : s.limiter.book bucket call.now call.start = (.ok b, l'))
    (few : (after s id call' l' (some (.granted bucket (call.now + b.delay)))).Few l) :
    let s' := after s id call' l' (some (.granted bucket (call.now + b.delay)))
    CoversGlobal l'.global (heldGlobal s'.calls) ∧
      Covers l'.chat (s'.bookings .chat l'.chat.shardOf) (held s'.calls .chat) ∧
      Covers l'.group (s'.bookings .group l'.group.shardOf) (held s'.calls .group) := by
  obtain ⟨-, -, -, hstart, same⟩ := book_ok h hb
  intro s'
  rw [shardOf_congr same.chat.2, shardOf_congr same.group.2]
  have chatShard : s.limiter.chat.shardOf = l.chat.shardOf := shardOf_congr h.same.chat.2
  have groupShard : s.limiter.group.shardOf = l.group.shardOf := shardOf_congr h.same.group.2
  have made {scope : Scope} {shardOf : ChatKey → Nat}
      (other : ∀ i, Action.books scope shardOf i (.granted bucket (call.now + b.delay)) = false) :
      s'.bookings scope shardOf = s.bookings scope shardOf := by
    funext i
    rw [bookings_after, Option.any_some, other]
    rfl
  have madeKeyed {scope : Scope} {shardOf : ChatKey → Nat} {key : ChatKey}
      (here : ∀ i, Action.books scope shardOf i (.granted bucket (call.now + b.delay)) = decide (i = shardOf key)) :
      s'.bookings scope shardOf = fun i => s.bookings scope shardOf i + if i = shardOf key then 1 else 0 := by
    funext i
    simp only [s', bookings_after, Option.any_some, here, decide_eq_true_eq]
  cases bucket with
  | global =>
    simp only [book] at hb
    split at hb
    · rename_i booking global hr
      cases hb
      obtain ⟨-, -, -, hat, covers⟩ := h.global.acquire hr
      refine ⟨covers.congr (held_add hcall ?_ ?_), ?_, ?_⟩
      · rw [show call.booked .global = none from free]
        rfl
      · rw [now, booked]
        exact congrArg some hat.symm
      · rw [made fun _ => rfl]
        exact h.chat.congr (held_other hcall now booked (by decide))
      · rw [made fun _ => rfl]
        exact h.group.congr (held_other hcall now booked (by decide))
    · cases hb
  | chat key =>
    simp only [book, Prod.mk.injEq] at hb
    obtain ⟨hr, rfl⟩ := hb
    obtain ⟨admission, hold, -⟩ := h.chat.delay (Prod.ext hr rfl)
    obtain ⟨others, added⟩ := held_granted key ⟨admission, call.now + b.delay⟩ hcall now free booked
      (fun key' => by simp only [charge, hold])
    have here (i : Nat) : Action.books .chat s.limiter.chat.shardOf i (.granted (.chat key) (call.now + b.delay)) =
        decide (i = s.limiter.chat.shardOf key) := by simp [Action.books, eq_comm]
    have few' : s.bookings .chat s.limiter.chat.shardOf (s.limiter.chat.shardOf key) < wordSize := by
      have := (few (s.limiter.chat.shardOf key)).1
      rw [← chatShard, madeKeyed here] at this
      exact Nat.lt_of_succ_le (by simpa using this)
    refine ⟨h.global.congr (heldGlobal_other hcall now booked nofun), ?_, ?_⟩
    · rw [madeKeyed here]
      exact h.chat.bookKeyed few' (Prod.ext hr rfl) hold (fun _ _ => by simp) others added
    · rw [made fun _ => rfl]
      exact h.group.congr (held_other hcall now booked nofun)
  | group key =>
    simp only [book, Prod.mk.injEq] at hb
    obtain ⟨hr, rfl⟩ := hb
    obtain ⟨admission, hold, -⟩ := h.group.delay (Prod.ext hr rfl)
    obtain ⟨others, added⟩ := held_granted key ⟨admission, call.now + b.delay⟩ hcall now free booked
      (fun key' => by simp only [charge, hold])
    have here (i : Nat) : Action.books .group s.limiter.group.shardOf i (.granted (.group key) (call.now + b.delay)) =
        decide (i = s.limiter.group.shardOf key) := by simp [Action.books, eq_comm]
    have few' : s.bookings .group s.limiter.group.shardOf (s.limiter.group.shardOf key) < wordSize := by
      have := (few (s.limiter.group.shardOf key)).2
      rw [← groupShard, madeKeyed here] at this
      exact Nat.lt_of_succ_le (by simpa using this)
    refine ⟨h.global.congr (heldGlobal_other hcall now booked nofun), ?_, ?_⟩
    · rw [made fun _ => rfl]
      exact h.chat.congr (held_other hcall now booked nofun)
    · rw [madeKeyed here]
      exact h.group.bookKeyed few' (Prod.ext hr rfl) hold (fun _ _ => by simp) others added

/-- What the calls hold after a cancellation is charged. -/
theorem cancelled_covers {scope : Scope} (h : s.Invariant l) (hcall : s.calls[id]? = some call)
    (valid : call.Valid l.maxDelay) (now : call'.now = call.now) (hheld : call.booked scope = some b)
    (booked : call'.booked = Function.update call.booked scope none) :
    let s' := after s id call' (s.limiter.unbook b) (some (.cancelled b.hold.bucket (call.now + b.delay)))
    CoversGlobal s'.limiter.global (heldGlobal s'.calls) ∧
      Covers s'.limiter.chat (s'.bookings .chat s'.limiter.chat.shardOf) (held s'.calls .chat) ∧
      Covers s'.limiter.group (s'.bookings .group s'.limiter.group.shardOf) (held s'.calls .group) := by
  have same := same_unbook s.limiter b
  intro s'
  have made (scope : Scope) (shardOf : ChatKey → Nat) : s'.bookings scope shardOf = s.bookings scope shardOf := by
    funext i
    exact bookings_after ..
  rw [made, made, shardOf_congr same.chat.2, shardOf_congr same.group.2]
  have hscope := bucket_scope (valid.bucket scope b hheld)
  have hstart := valid.start scope b hheld
  cases b with
  | mk hold delay =>
  cases hold with
  | global booking =>
    obtain rfl : .global = scope := hscope
    refine ⟨h.global.cancel (held_remove hcall ?_ ?_), h.chat.congr (held_other hcall now booked (by decide)),
      h.group.congr (held_other hcall now booked (by decide))⟩
    · rw [hheld]
      exact congrArg some (hstart booking rfl).symm
    · rw [now, booked]
      rfl
  | chat key admission =>
    obtain rfl : .chat = scope := hscope
    obtain ⟨others, removed⟩ := held_cancelled key ⟨admission, call.now + delay⟩ hcall now hheld booked
      (fun key' => by simp only [charge])
    exact ⟨h.global.congr (heldGlobal_other hcall now booked (by decide)), h.chat.cancel removed others,
      h.group.congr (held_other hcall now booked (by decide))⟩
  | group key admission =>
    obtain rfl : .group = scope := hscope
    obtain ⟨others, removed⟩ := held_cancelled key ⟨admission, call.now + delay⟩ hcall now hheld booked
      (fun key' => by simp only [charge])
    exact ⟨h.global.congr (heldGlobal_other hcall now booked (by decide)),
      h.chat.congr (held_other hcall now booked (by decide)), h.group.cancel removed others⟩

theorem invariant_advance (h : s.Invariant l) (hcall : s.calls[id]? = some call) {action : Option Action}
    (hstep : call.step s.limiter = (call', l', action)) (few : (after s id call' l' action).Few l) :
    (after s id call' l' action).Invariant l := by
  have valid := h.valid call (List.mem_of_getElem? hcall)
  have effect := valid.effect s.limiter
  have valid' : call'.Valid l.maxDelay := by
    have := valid.step (l := s.limiter) fun bucket b l' hb => by
      obtain ⟨hold, le, inTime, hstart, -⟩ := book_ok h hb
      exact ⟨hold, le, inTime (Nat.le_trans valid.start_le valid.delay_le), hstart⟩
    rwa [hstep] at this
  rw [hstep] at effect
  have log := log_step h hcall effect valid fun bucket b l' hb => (book_ok h hb).1
  have all : ∀ c ∈ s.calls.set id call', c.Valid l.maxDelay := fun c hc => by
    rcases List.mem_or_eq_of_mem_set hc with hc | rfl
    · exact h.valid c hc
    · exact valid'
  -- What a step without a booking leaves.
  have quiet {limiter : BotLimiter} (now : call'.now = call.now) (booked : call'.booked = call.booked)
      (chat : limiter.chat = s.limiter.chat) (group : limiter.group = s.limiter.group) :
      Covers limiter.chat ((after s id call' limiter none).bookings .chat limiter.chat.shardOf)
          (held (s.calls.set id call') .chat) ∧
        Covers limiter.group ((after s id call' limiter none).bookings .group limiter.group.shardOf)
          (held (s.calls.set id call') .group) := by
    have made (scope : Scope) (shardOf : ChatKey → Nat) :
        (after s id call' limiter none).bookings scope shardOf = s.bookings scope shardOf := by
      funext i
      exact bookings_after ..
    rw [made, made, chat, group]
    exact ⟨h.chat.congr fun key => held_same hcall (by rw [now, booked]),
      h.group.congr fun key => held_same hcall (by rw [now, booked])⟩
  cases effect with
  | quiet now booked =>
    obtain ⟨chat, group⟩ := quiet now booked rfl rfl
    exact ⟨h.same, all, h.global.congr (held_same hcall (by rw [now, booked])), chat, group, log⟩
  | refused now _ booked book =>
    obtain ⟨same, global, hchat, hgroup⟩ := refused_covers h book
    obtain ⟨chat, group⟩ := quiet now booked hchat hgroup
    exact ⟨h.same.trans same, all, global.congr (held_same hcall (by rw [now, booked])), chat, group, log⟩
  | granted now free booked book =>
    obtain ⟨global, chat, group⟩ := granted_covers h hcall now free booked book few
    exact ⟨h.same.trans (book_ok h book).2.2.2.2, all, global, chat, group, log⟩
  | cancelled now hheld booked =>
    obtain ⟨global, chat, group⟩ := cancelled_covers h hcall valid now hheld booked
    exact ⟨h.same.trans (same_unbook ..), all, global, chat, group, log⟩

theorem invariant_arrive (h : s.Invariant l) (chat : Option ChatKey) (now : Instant) :
    (s.step (.arrive chat now)).Invariant l := by
  have nothing {α : Type} {f : Call → Option α} (hf : f (.new chat now) = none) :
      (s.calls ++ [Call.new chat now]).filterMap f = s.calls.filterMap f := by
    simp [List.filterMap_append, hf]
  refine ⟨h.same, fun call hc => ?_, ?_, ?_, ?_, fun id q => ?_⟩
  · rcases List.mem_append.mp hc with hc | hc
    · exact h.valid call hc
    · exact List.mem_singleton.mp hc ▸ Call.valid_new chat now
  · rw [System.step, heldGlobal, nothing rfl]
    exact h.global
  · have : held (s.calls ++ [Call.new chat now]) .chat = held s.calls .chat := funext fun key => nothing rfl
    rw [System.step, this]
    exact h.chat
  · have : held (s.calls ++ [Call.new chat now]) .group = held s.calls .group := funext fun key => nothing rfl
    rw [System.step, this]
    exact h.group
  · have same : (s.calls ++ [Call.new chat now])[id]?.bind (Call.holds q) = s.calls[id]?.bind (Call.holds q) := by
      rw [List.getElem?_append]
      split
      · rfl
      · rename_i ge
        rw [List.getElem?_eq_none (Nat.le_of_not_lt ge)]
        cases id - s.calls.length <;> rfl
    rw [System.step, same]
    exact h.log id q

theorem invariant_step (h : s.Invariant l) (st : Step) (few : (s.step st).Few l) : (s.step st).Invariant l := by
  cases st with
  | arrive chat now => exact invariant_arrive h chat now
  | advance id =>
    simp only [System.step] at few ⊢
    split
    · exact h
    · rename_i call hcall
      simp only [hcall] at few
      exact invariant_advance h hcall rfl few

/-- Bookings are only ever added. -/
theorem few_of_step {st : Step} (few : (s.step st).Few l) : s.Few l := by
  have le (scope : Scope) (shardOf : ChatKey → Nat) (i : Nat) :
      s.bookings scope shardOf i ≤ (s.step st).bookings scope shardOf i := by
    cases st with
    | arrive chat now => exact Nat.le_refl _
    | advance id =>
      simp only [System.step]
      split
      · exact Nat.le_refl _
      · rw [bookings_after]
        exact Nat.le_add_right ..
  exact fun i => ⟨Nat.le_trans (le ..) (few i).1, Nat.le_trans (le ..) (few i).2⟩

theorem few_of_run {steps : List Step} (few : (s.run steps).Few l) : s.Few l := by
  induction steps generalizing s with
  | nil => exact few
  | cons st steps ih => exact few_of_step (ih few)

theorem invariant_run (h : s.Invariant l) {steps : List Step} (few : (s.run steps).Few l) :
    (s.run steps).Invariant l := by
  induction steps generalizing s with
  | nil => exact h
  | cons st steps ih => exact ih (invariant_step h st (few_of_run (s := s.step st) few)) few

/-! ### The quotas hold -/

/-- An admitted call holds its booking of each bucket that applies, for when it starts. -/
theorem starts_held (h : call.Valid l.maxDelay) {t : Instant} (ht : call.starts bucket = some t) :
    ∃ b ∈ call.booked bucket.scope, b.hold.bucket = bucket ∧ call.now + b.delay = t := by
  have pass := h.pass
  unfold Call.starts at ht
  split at ht
  · rename_i admitted hpc
    rw [hpc] at pass
    split at ht
    · rename_i applies
      cases ht
      obtain ⟨b, hb, delay⟩ := pass.2 bucket.scope (by rw [applies]; rfl)
      exact ⟨b, hb, Option.some.inj ((h.bucket _ b hb).symm.trans applies), by rw [delay]⟩
    · cases ht
  · cases ht

theorem filterMap_sublist {f g : Call → Option Instant} {calls : List Call}
    (h : ∀ call ∈ calls, ∀ t ∈ f call, t ∈ g call) : (calls.filterMap f).Sublist (calls.filterMap g) := by
  induction calls with
  | nil => exact .refl _
  | cons call calls ih =>
    rw [List.forall_mem_cons] at h
    rw [List.filterMap_cons, List.filterMap_cons]
    cases hf : f call with
    | none =>
      cases g call with
      | none => exact ih h.2
      | some u => exact (ih h.2).cons u
    | some t =>
      rw [h.1 t hf]
      exact (ih h.2).cons_cons t

theorem starts_global (h : s.Invariant l) : (s.starts .global).Sublist (heldGlobal s.calls) := by
  refine filterMap_sublist fun call hc t ht => ?_
  obtain ⟨b, hb, -, start⟩ := starts_held (h.valid call hc) ht
  rw [show call.booked .global = some b from hb]
  exact congrArg some start

theorem starts_keyed (h : s.Invariant l) {scope : Scope} {key : ChatKey} (hscope : bucket.scope = scope)
    (hcharge : ∀ now b, b.hold.bucket = bucket → (charge now key b).map (·.start) = some (now + b.delay)) :
    (s.starts bucket).Sublist ((held s.calls scope key).map (·.start)) := by
  rw [held, List.map_filterMap]
  refine filterMap_sublist fun call hc t ht => ?_
  obtain ⟨b, hb, hold, start⟩ := starts_held (h.valid call hc) ht
  rw [← hscope, show call.booked bucket.scope = some b from hb, Option.bind_some, hcharge _ b hold]
  exact congrArg some start

end

/-- What is charged to a keyed quota conforms, so what is held does. -/
theorem Covers.spaced {limiter : KeyedLimiter ChatKey} {made : Nat → Nat} {held : ChatKey → List Charge}
    {burst : NonZeroU32} {starts : List Instant} (h : Covers limiter made held) (key : ChatKey)
    (sub : starts.Sublist ((held key).map (·.start)))
    (htau : limiter.quota.tolerance ≤ limiter.quota.interval * (burst.1 - 1)) :
    Gcra.Spaced limiter.quota.interval burst.1 starts := by
  obtain ⟨chain, charged, covers⟩ := h
  have charges : ((held key).map (·.start)).Subperm (Limit.starts (chain key)) := by
    obtain ⟨charges, perm, sub⟩ := covers key
    have inOrder : ((held key).map (·.start)).Subperm ((chain key).map (·.start)) := ⟨_, perm.map _, sub.map _⟩
    exact inOrder.trans (List.reverse_perm _).symm.subperm
  exact Gcra.spaced_of_conforms (charged.conforms key) (sub.subperm.trans charges) burst.2.1 htau

theorem CoversGlobal.spaced {global : SlotCalendar} {held starts : List Instant} {burst : NonZeroU32}
    (h : CoversGlobal global held) (sub : starts.Sublist held)
    (htau : global.quota.tolerance ≤ global.quota.interval * (burst.1 - 1)) :
    Gcra.Spaced global.quota.interval burst.1 starts := by
  obtain ⟨folded, charged, covers⟩ := h
  exact Gcra.spaced_of_conforms charged.conforms (sub.subperm.trans covers) burst.2.1 htau

theorem new_eq_ok {cfg : RateLimit} {chatHasher groupHasher : ChatKey → Nat} {l : BotLimiter}
    (h : new cfg chatHasher groupHasher = .ok l) :
    SlotCalendar.new cfg.global.count cfg.global.per cfg.global.burst = .ok l.global ∧
      (∃ quota, Quota.new cfg.perChat.count cfg.perChat.per cfg.perChat.burst = .ok quota ∧
        l.chat = .new quota chatHasher) ∧
      ∃ quota, Quota.new cfg.perGroup.count cfg.perGroup.per cfg.perGroup.burst = .ok quota ∧
        l.group = .new quota groupHasher := by
  unfold new at h
  cases hg : SlotCalendar.new cfg.global.count cfg.global.per cfg.global.burst with
  | error e => rw [hg] at h; cases h
  | ok global =>
    cases hc : Quota.new cfg.perChat.count cfg.perChat.per cfg.perChat.burst with
    | error e => rw [hg, hc] at h; cases h
    | ok chat =>
      cases hq : Quota.new cfg.perGroup.count cfg.perGroup.per cfg.perGroup.burst with
      | error e => rw [hg, hc, hq] at h; cases h
      | ok group =>
        rw [hg, hc, hq] at h
        cases h
        exact ⟨rfl, ⟨chat, rfl, rfl⟩, ⟨group, rfl, rfl⟩⟩

theorem invariant_new {cfg : RateLimit} {chatHasher groupHasher : ChatKey → Nat} {l : BotLimiter}
    (h : new cfg chatHasher groupHasher = .ok l) : (System.new l).Invariant l := by
  obtain ⟨hglobal, ⟨chat, -, hchat⟩, group, -, hgroup⟩ := new_eq_ok h
  obtain ⟨charged, empty, -⟩ := SlotCalendar.new_charged hglobal
  refine ⟨⟨rfl, rfl, ⟨rfl, rfl⟩, ⟨rfl, rfl⟩⟩, nofun, ⟨[], charged, List.nil_subperm⟩, ?_, ?_, fun _ _ => .refl _⟩
  · exact ⟨_, hchat ▸ KeyedLimiter.new_charged chat chatHasher, fun _ => List.nil_subperm⟩
  · exact ⟨_, hgroup ▸ KeyedLimiter.new_charged group groupHasher, fun _ => List.nil_subperm⟩

/-- Whatever the interleaving: the calls admitted start within every quota that applies to them, and each holds
    one booking of each, for the instant it starts at, which it has not cancelled. -/
theorem run_conforms {cfg : RateLimit} {chatHasher groupHasher : ChatKey → Nat} {l : BotLimiter}
    (h : new cfg chatHasher groupHasher = .ok l) (steps : List Step) (few : ((System.new l).run steps).Few l) :
    let s := (System.new l).run steps
    Rate.Conforms cfg.global (s.starts .global) ∧
      (∀ key, Rate.Conforms cfg.perChat (s.starts (.chat key))) ∧
      (∀ key, Rate.Conforms cfg.perGroup (s.starts (.group key))) ∧
      ∀ id call admitted, s.calls[id]? = some call → call.pc = .returned (.ok admitted) →
        admitted.delay ≤ l.maxDelay ∧ ∀ scope bucket, BotLimiter.bucket call.chat scope = some bucket →
          (s.granted id bucket).Perm ((call.now + admitted.delay) :: s.cancelled id bucket) := by
  intro s
  have inv : s.Invariant l := invariant_run (invariant_new h) few
  obtain ⟨hglobal, ⟨chat, hchat, chatEq⟩, group, hgroup, groupEq⟩ := new_eq_ok h
  have globalQuota := (SlotCalendar.new_charged hglobal).2.2
  have chatQuota : s.limiter.chat.quota = chat := inv.same.chat.1.trans (congrArg (·.quota) chatEq)
  have groupQuota : s.limiter.group.quota = group := inv.same.group.1.trans (congrArg (·.quota) groupEq)
  refine ⟨⟨_, (Quota.new_eq_ok globalQuota).1, ?_⟩, fun key => ⟨_, (Quota.new_eq_ok hchat).1, ?_⟩,
    fun key => ⟨_, (Quota.new_eq_ok hgroup).1, ?_⟩, fun id call admitted hcall hpc => ?_⟩
  · rw [← inv.same.global]
    refine inv.global.spaced (starts_global inv) ?_
    rw [inv.same.global]
    exact Quota.new_tolerance_le globalQuota
  · rw [← chatQuota]
    refine inv.chat.spaced key (starts_keyed inv rfl fun now b hold => ?_) ?_
    · obtain ⟨hold', delay⟩ := b
      cases hold' <;> cases hold
      simp [charge]
    · rw [chatQuota]
      exact Quota.new_tolerance_le hchat
  · rw [← groupQuota]
    refine inv.group.spaced key (starts_keyed inv rfl fun now b hold => ?_) ?_
    · obtain ⟨hold', delay⟩ := b
      cases hold' <;> cases hold
      simp [charge]
    · rw [groupQuota]
      exact Quota.new_tolerance_le hgroup
  · have valid := inv.valid call (List.mem_of_getElem? hcall)
    have pass := valid.pass
    rw [hpc] at pass
    obtain ⟨rfl, pass⟩ := pass
    refine ⟨valid.delay_le, fun scope bucket applies => ?_⟩
    obtain rfl := bucket_scope applies
    have starts : call.starts bucket = some (call.now + call.admitted.delay) := by
      simp only [Call.starts, hpc, applies, if_true]
    obtain ⟨b, hb, hold, start⟩ := starts_held valid starts
    have log := inv.log id bucket
    rw [hcall, Option.bind_some, Call.holds, show call.booked bucket.scope = some b from hb, Option.bind_some,
      if_pos hold, start] at log
    exact log

/-- Thirty requests a second, one a second in a chat, twenty a minute in a group. -/
def defaults : RateLimit where
  mode := .shape
  maxDelay := 5 * 10 ^ 9
  global := { count := ⟨30, by decide⟩, per := 10 ^ 9, burst := ⟨30, by decide⟩ }
  perChat := { count := ⟨1, by decide⟩, per := 10 ^ 9, burst := ⟨3, by decide⟩ }
  perGroup := { count := ⟨20, by decide⟩, per := 60 * 10 ^ 9, burst := ⟨20, by decide⟩ }

/-- Two calls to one group, in turn. -/
def inTurn : List Step :=
  [.arrive (some (.id (-1))) 0, .arrive (some (.id (-1))) 0] ++ (List.replicate 7 [.advance 0, .advance 1]).flatten

theorem run_conforms_inTurn : ∃ l, new defaults (fun _ => 0) (fun _ => 0) = .ok l ∧
    Rate.Conforms defaults.perChat (((System.new l).run inTurn).starts (.chat (.id (-1)))) :=
  ⟨_, rfl, (run_conforms rfl inTurn fun _ => ⟨Nat.le_trans List.countP_le_length (by decide),
    Nat.le_trans List.countP_le_length (by decide)⟩).2.1 _⟩

end Tgin.BotLimiter
