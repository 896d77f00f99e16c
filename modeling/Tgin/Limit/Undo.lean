import Tgin.Limit.Bookings
import Tgin.Limit.InOrder

/-! What a key answers by is its book: the bookings granted, less those cancelled while they were its newest. Any other
    cancellation, repeated or too late, does nothing, and forgetting a key changes none of its later answers
    (`Bookings.run_undoes`). -/

namespace Tgin.Limit
open Gcra
open KeyedLimiter (Op InTime Late)

namespace Bookings
variable {K : Type} [Ord K] [Std.TransOrd K] {b : Bookings K} {past : Instant} {recent old : K → List (Pass K)}

/-- The limiter has charged the bookings in effect, but those forgotten, which `past` has passed. -/
structure Backed (b : Bookings K) (past : Instant) (recent old : K → List (Pass K)) : Prop where
  split : ∀ key, b.inEffect key = recent key ++ old key
  charged : b.limiter.Charged b.made fun key => (recent key).map (·.charge)
  conforms : ∀ key, Conforms b.limiter.quota.interval b.limiter.quota.tolerance none (Pass.starts (old key))
  forgotten : ∀ key, ∀ x ∈ tat b.limiter.quota.interval none (Pass.starts (old key)), x ≤ past ∧ x ≤ Instant.LAST
  resumes : ∀ key, ∀ x ∈ tat b.limiter.quota.interval none (Pass.starts (old key)), ∀ t ∈ (Pass.starts (recent key)).head?, x ≤ t
  stamps : ∀ pass ∈ b.granted, pass.charge.admission.stamp < b.made (b.limiter.shardOf pass.key)
  distinct : ∀ p ∈ b.granted, ∀ q ∈ b.granted, b.limiter.shardOf p.key = b.limiter.shardOf q.key →
    p.charge.admission.stamp = q.charge.admission.stamp → p = q

/-- Only the newest booking's cancellation does anything. -/
theorem Backed.cancel_stale (h : b.Backed past recent old) (proper : b.Proper) {pass : Pass K} (granted : pass ∈ b.granted)
    (ne : (recent pass.key).head? ≠ some pass) : b.limiter.cancel pass.key pass.charge.admission = b.limiter := by
  refine KeyedLimiter.cancel_stale fun entry found same => ?_
  rw [h.charged.entry] at found
  cases hk : recent pass.key with
  | nil => simp [hk, KeyedLimiter.entryOf] at found
  | cons newest rest =>
    rw [hk] at ne found
    cases found
    obtain ⟨mem, key⟩ := proper.own pass.key newest (h.split pass.key ▸ hk ▸ List.mem_cons_self)
    exact ne (congrArg some (h.distinct _ mem _ granted (by rw [key]) same))

/-- The bookings are backed, and proper. -/
structure Sound (b : Bookings K) (past : Instant) : Prop where
  proper : b.Proper
  backed : ∃ recent old, b.Backed past recent old

/-- A cancellation changes only the entry of its own key, to the one before the booking, and nothing if that is not the newest. -/
def CancelsNewest (b : Bookings K) : Prop :=
  ∀ pass ∈ b.granted,
    ((b.inEffect pass.key).head? ≠ some pass → b.limiter.cancel pass.key pass.charge.admission = b.limiter) ∧
    ∀ key, (b.limiter.cancel pass.key pass.charge.admission).entry key ≠ b.limiter.entry key →
      key = pass.key ∧ (b.limiter.cancel pass.key pass.charge.admission).entry key = pass.charge.admission.prev

theorem sound_new (quota : Quota) (hasher : K → Nat) : (new (.new quota hasher)).Sound 0 := by
  refine ⟨⟨nofun, nofun, List.nodup_nil, nofun⟩, fun _ => [], fun _ => [], fun _ => rfl, ?_, fun _ => trivial, nofun, nofun,
    nofun, nofun⟩
  exact KeyedLimiter.new_charged quota hasher

theorem Backed.inEffect_conforms (h : b.Backed past recent old) (key : K) :
    Conforms b.limiter.quota.interval b.limiter.quota.tolerance none (Pass.starts (b.inEffect key)) := by
  rw [h.split key, Pass.starts_append]
  exact conforms_append.mpr ⟨h.conforms key, (conforms_resume (h.resumes key)).mpr (h.charged.conforms key)⟩

/-- What has been forgotten makes no difference to a booking from then on. -/
theorem Backed.book_eq (h : b.Backed past recent old) (key : K) {now : Instant} (late : past ≤ now) (maxDelay : Duration) :
    b.limiter.quota.book (b.limiter.arrival key) now maxDelay =
      b.limiter.quota.book (((b.book key).arrival b.limiter.quota).map .ofNat) now maxDelay := by
  have stored : b.limiter.arrival key = (tat b.limiter.quota.interval none (Pass.starts (recent key))).map .ofNat := by
    rw [KeyedLimiter.arrival, h.charged.entry key, KeyedLimiter.entryOf_tat]
    rfl
  rw [stored, book_arrival, h.split key, Pass.starts_append, tat_append]
  cases hs : Pass.starts (recent key) with
  | cons t ts =>
    rw [tat_resume fun x hx => h.resumes key x hx t (by rw [hs]; rfl)]
  | nil =>
    cases hx : tat b.limiter.quota.interval none (Pass.starts (old key)) with
    | none => rfl
    | some x =>
      obtain ⟨before, last⟩ := h.forgotten key x hx
      simp only [tat, Option.map_some, Option.map_none, Tat.ofNat, if_pos last, Quota.book, Nat.max_eq_right (before.trans late)]

theorem Sound.spaced [DecidableEq K] (h : b.Sound past) (key : K) {burst : NonZeroU32}
    (hburst : b.limiter.quota.tolerance ≤ b.limiter.quota.interval * (burst.1 - 1)) :
    Spaced b.limiter.quota.interval burst.1 (b.uncancelled key) := by
  obtain ⟨recent, old, backed⟩ := h.backed
  refine spaced_of_conforms (backed.inEffect_conforms key) ?_ burst.2.1 hburst
  have sub : (b.granted.filter fun pass => pass.key = key ∧ pass.name ∉ b.cancelled).Subperm (b.inEffect key) := by
    refine List.subperm_of_subset (h.proper.unique.of_map.filter _) fun pass hp => ?_
    obtain ⟨granted, holds⟩ := List.mem_filter.mp hp
    obtain ⟨own, live⟩ := of_decide_eq_true holds
    exact own ▸ h.proper.kept pass granted live
  obtain ⟨passes, perm, sub⟩ := sub
  have all : ((b.inEffect key).map (·.charge.start)).Perm (Pass.starts (b.inEffect key)) := by
    rw [Pass.starts, Limit.starts, List.map_map]
    exact (List.reverse_perm _).symm
  exact List.Subperm.trans ⟨_, perm.map _, sub.map _⟩ all.subperm

section
variable [Std.LawfulEqOrd K]

theorem Backed.forget (h : b.Backed past recent old) (now : Instant) :
    Backed { b with limiter := b.limiter.retainRecent now } (max past now)
      (fun key => if (b.limiter.retainRecent now).entry key = none then [] else recent key)
      (fun key => if (b.limiter.retainRecent now).entry key = none then recent key ++ old key else old key) := by
  refine ⟨fun key => ?_, ?_, fun key => ?_, fun key => ?_, fun key => ?_, h.stamps, h.distinct⟩
  all_goals dsimp only
  · split
    · exact h.split key
    · exact h.split key
  · have charged := KeyedLimiter.retainRecent_charged h.charged now
    simp only [← List.map_nil (f := fun pass : Pass K => pass.charge), ← apply_ite (List.map _)] at charged
    exact charged
  · split
    · rw [← h.split key]
      exact h.inEffect_conforms key
    · exact h.conforms key
  · split
    · rename_i gone
      intro x hx
      rw [Pass.starts_append, tat_append, show (b.limiter.retainRecent now).quota = b.limiter.quota from rfl] at hx
      cases hs : Pass.starts (recent key) with
      | nil =>
        rw [hs] at hx
        exact (h.forgotten key x hx).imp_left (le_max_of_le_left ·)
      | cons t ts =>
        rw [hs, tat_resume fun x hx => h.resumes key x hx t (by rw [hs]; rfl), ← hs] at hx
        exact (KeyedLimiter.retainRecent_past h.charged gone x hx).imp_left (le_max_of_le_right ·)
    · intro x hx
      exact (h.forgotten key x hx).imp_left (le_max_of_le_left ·)
  · split
    · rintro _ - _ ⟨⟩
    · exact h.resumes key

variable [DecidableEq K]

theorem Backed.grant (h : b.Backed past recent old) {name : Nat} {key : K} {now : Instant} {maxDelay : Duration}
    {admission : Admit} {limiter : KeyedLimiter K} (late : past ≤ now) (few : b.made (b.limiter.shardOf key) < wordSize)
    (acquired : b.limiter.acquire key now maxDelay = (.ok admission, limiter)) :
    Backed { b with
      limiter
      names := name :: b.names
      granted := ⟨name, key, ⟨admission, now + admission.delay⟩⟩ :: b.granted
      inEffect := Function.update b.inEffect key (⟨name, key, ⟨admission, now + admission.delay⟩⟩ :: b.inEffect key) }
      past (Function.update recent key (⟨name, key, ⟨admission, now + admission.delay⟩⟩ :: recent key)) old := by
  have charged := KeyedLimiter.acquire_charged h.charged few acquired
  obtain ⟨-, -, -, stamp, -, rfl⟩ := KeyedLimiter.acquire_ok h.charged acquired
  replace stamp : admission.stamp = b.made (b.limiter.shardOf key) :=
    stamp.trans ((h.charged.nextStamp _).trans (Nat.mod_eq_of_lt few))
  -- A pass granted before has a lower stamp, if it is of the same shard.
  have older (pass : Pass K) (hp : pass ∈ b.granted) (same : b.limiter.shardOf pass.key = b.limiter.shardOf key) :
      pass.charge.admission.stamp ≠ admission.stamp := by
    have := h.stamps pass hp
    rw [same] at this
    omega
  have counts (i : Nat) (pass : Pass K) : (pass :: b.granted).countP (fun pass => i = b.limiter.shardOf pass.key) =
      b.made i + if i = b.limiter.shardOf pass.key then 1 else 0 := by
    rw [List.countP_cons]
    simp only [made, decide_eq_true_eq]
  refine ⟨fun key' => ?_, ?_, h.conforms, h.forgotten, fun key' => ?_, fun pass hp => ?_, fun p hp q hq => ?_⟩
  all_goals dsimp only
  · rcases eq_or_ne key' key with rfl | ne
    · rw [Function.update_self, Function.update_self, h.split key', List.cons_append]
    · rw [Function.update_of_ne ne, Function.update_of_ne ne, h.split key']
  · convert charged using 1
    · exact funext fun i => counts i _
    · exact funext fun key' => Function.apply_update (fun _ => List.map (·.charge)) recent key _ key'
  · rcases eq_or_ne key' key with rfl | ne
    · rw [Function.update_self]
      intro x hx t ht
      change t ∈ (Limit.starts (_ :: (recent key').map (·.charge))).head? at ht
      rw [starts_cons] at ht
      cases hs : Limit.starts ((recent key').map (·.charge)) with
      | nil =>
        rw [hs] at ht
        cases ht
        exact (h.forgotten key' x hx).1.trans (late.trans (Nat.le_add_right ..))
      | cons t' ts =>
        rw [hs] at ht
        cases ht
        exact h.resumes key' x hx t (by rw [Pass.starts, hs]; rfl)
    · rw [Function.update_of_ne ne]
      exact h.resumes key'
  · change _ < List.countP _ _
    rw [show (b.limiter.setShard key _).shardOf = b.limiter.shardOf from rfl, counts]
    rcases List.mem_cons.mp hp with rfl | hp
    · dsimp only
      rw [if_pos rfl, stamp]
      exact Nat.lt_succ_self _
    · exact (h.stamps pass hp).trans_le (Nat.le_add_right ..)
  · intro shard same
    rcases List.mem_cons.mp hp with rfl | hp
    · rcases List.mem_cons.mp hq with rfl | hq
      · rfl
      · exact absurd same.symm (older q hq shard.symm)
    · rcases List.mem_cons.mp hq with rfl | hq
      · exact absurd same (older p hp shard)
      · exact h.distinct p hp q hq shard same

theorem Backed.cancel (h : b.Backed past recent old) (proper : b.Proper) {pass : Pass K} (granted : pass ∈ b.granted) :
    ∃ recent' old', Backed { b with
      limiter := b.limiter.cancel pass.key pass.charge.admission
      cancelled := pass.name :: b.cancelled
      inEffect :=
        if (b.inEffect pass.key).head? = some pass then Function.update b.inEffect pass.key (b.inEffect pass.key).tail
        else b.inEffect } past recent' old' := by
  cases hk : recent pass.key with
  | nil =>
    rw [h.cancel_stale proper granted (by simp [hk])]
    split
    · rename_i head
      rw [h.split, hk, List.nil_append] at head ⊢
      cases ho : old pass.key with
      | nil => simp [ho] at head
      | cons newest rest =>
        have conforms := h.conforms pass.key
        have forgotten := h.forgotten pass.key
        rw [ho, ← List.singleton_append, Pass.starts_append] at conforms forgotten
        refine ⟨recent, Function.update old pass.key rest, fun key => ?_, h.charged, fun key => ?_, fun key => ?_, fun key => ?_,
          h.stamps, h.distinct⟩
        all_goals dsimp only
        all_goals rcases eq_or_ne key pass.key with rfl | ne
        · rw [Function.update_self, Function.update_self, hk]
          rfl
        · rw [Function.update_of_ne ne, Function.update_of_ne ne]
          exact h.split key
        · rw [Function.update_self]
          exact (conforms_append.mp conforms).1
        · rw [Function.update_of_ne ne]
          exact h.conforms key
        · rw [Function.update_self]
          intro x hx
          obtain ⟨y, hy, le⟩ := tat_append_le (Pass.starts [newest]) hx
          exact (forgotten y hy).imp le.trans le.trans
        · rw [Function.update_of_ne ne]
          exact h.forgotten key
        · rw [hk]
          nofun
        · rw [Function.update_of_ne ne]
          exact h.resumes key
    · exact ⟨recent, old, h.split, h.charged, h.conforms, h.forgotten, h.resumes, h.stamps, h.distinct⟩
  | cons newest rest =>
    rw [h.split, hk, List.cons_append, List.head?_cons, List.tail_cons]
    by_cases latest : newest = pass
    · subst latest
      rw [if_pos rfl]
      obtain ⟨quota, hasher⟩ := KeyedLimiter.cancel_same b.limiter newest.key newest.charge.admission
      have charged := KeyedLimiter.cancel_newest h.charged (by rw [hk, List.map_cons])
      generalize b.limiter.cancel newest.key newest.charge.admission = limiter at quota hasher charged
      have shards : limiter.shardOf = b.limiter.shardOf := by
        unfold KeyedLimiter.shardOf
        rw [hasher]
      refine ⟨Function.update recent newest.key rest, old, fun key => ?_, ?_, ?_, ?_, fun key => ?_, ?_, ?_⟩
      all_goals simp only [quota, shards, made]
      · rcases eq_or_ne key newest.key with rfl | ne
        · rw [Function.update_self, Function.update_self]
        · rw [Function.update_of_ne ne, Function.update_of_ne ne]
          exact h.split key
      · have update : (fun key => (Function.update recent newest.key rest key).map (·.charge)) = _ :=
          funext fun key => Function.apply_update (fun _ => List.map (·.charge)) recent newest.key _ key
        rw [update]
        convert charged using 1
        funext i
        simp only [made, shards]
      · exact h.conforms
      · exact h.forgotten
      · rcases eq_or_ne key newest.key with rfl | ne
        · rw [Function.update_self]
          intro x hx t ht
          refine h.resumes newest.key x hx t ?_
          rw [hk, ← List.singleton_append, Pass.starts_append, List.head?_append, Option.mem_def.mp ht]
          rfl
        · rw [Function.update_of_ne ne]
          exact h.resumes key
      · exact h.stamps
      · exact h.distinct
    · rw [if_neg fun same => latest (Option.some.inj same), h.cancel_stale proper granted (by simpa [hk] using latest)]
      exact ⟨recent, old, h.split, h.charged, h.conforms, h.forgotten, h.resumes, h.stamps, h.distinct⟩

theorem Sound.effect (h : b.Sound past) {op : Op K} {b' : Bookings K} (effect : b.Effect op b')
    (late : ∀ now ∈ op.asks, past ≤ now) (few : b'.Few) : b'.Sound (max past (op.forgets.getD 0)) := by
  refine ⟨h.proper.effect effect, ?_⟩
  obtain ⟨recent, old, backed⟩ := h.backed
  have same : max past 0 = past := Nat.max_eq_left (Nat.zero_le past)
  have shards := (effect_same effect).2
  cases effect with
  | quiet _ _ =>
    exact ⟨recent, old, backed.split, backed.charged, backed.conforms,
      fun key x hx => (backed.forgotten key x hx).imp_left (le_max_of_le_left ·), backed.resumes, backed.stamps, backed.distinct⟩
  | @granted name key now maxDelay admission limiter fresh acquired =>
    refine ⟨_, _, same.symm ▸ backed.grant (late now rfl) ?_ acquired⟩
    have count := few (b.limiter.shardOf key)
    simp only [made, shards, List.countP_cons, decide_true, if_true] at count
    exact count
  | cancelled granted =>
    obtain ⟨recent, old, backed⟩ := backed.cancel h.proper granted
    exact ⟨recent, old, same.symm ▸ backed⟩
  | forgot now => exact ⟨_, _, backed.forget now⟩

/-- A key is answered by its book, and its book follows. -/
theorem Sound.step_book (h : b.Sound past) (op : Op K) (key : K) (late : ∀ now ∈ op.asks, past ≤ now)
    (fresh : ∀ name ∈ op.names, name ∉ b.names) :
    b.answer key op = (b.book key).answer b.limiter.quota key op ∧
      (b.step op).book key = (b.book key).step b.limiter.quota key op := by
  cases op with
  | acquire name key' now maxDelay =>
    replace fresh := fresh name rfl
    obtain ⟨recent, old, backed⟩ := h.backed
    have asked := KeyedLimiter.acquire_book b.limiter key' now maxDelay
    rw [backed.book_eq key' (late now rfl)] at asked
    simp only [answer, step, Book.answer, Book.step, fresh, if_false, not_false_eq_true, and_true]
    have answered : (b.limiter.acquire key' now maxDelay).1.map (·.delay) = (b.book key').ask b.limiter.quota now maxDelay := by
      rw [Book.ask]
      split at asked
      · rename_i denied hb
        rw [asked, hb]
        rfl
      · rename_i tat delay hb
        obtain ⟨admission, limiter, acquired, rfl, -, -⟩ := asked
        rw [acquired, hb]
        rfl
    refine ⟨?_, ?_⟩
    · by_cases same : key' = key
      · rw [if_pos same, if_pos same, answered, same]
      · rw [if_neg same, if_neg same]
    · by_cases same : key' = key
      · subst same
        rw [if_pos rfl, ← answered]
        cases b.limiter.acquire key' now maxDelay with
        | mk result limiter =>
          cases result with
          | error denied => rfl
          | ok admission => simp only [Except.map, book, Function.update_self, List.map_cons]
      · rw [if_neg same]
        cases b.limiter.acquire key' now maxDelay with
        | mk result limiter =>
          cases result with
          | error denied => rfl
          | ok admission => simp only [book, Function.update_of_ne (Ne.symm same)]
  | cancel name =>
    refine ⟨rfl, ?_⟩
    simp only [step, Book.step]
    cases found : b.granted.find? (·.name = name) with
    | none =>
      rw [if_neg]
      intro named
      rw [book, List.head?_map, Option.map_map] at named
      obtain ⟨newest, head, same⟩ := Option.map_eq_some_iff.mp named
      exact List.find?_eq_none.mp found newest (h.proper.own key newest (List.mem_of_head? head)).1 (decide_eq_true same)
    | some pass =>
      obtain rfl : pass.name = name := by simpa using List.find?_some found
      have latest := latest_iff h.proper (List.mem_of_find?_eq_some found) key
      by_cases head : (b.inEffect pass.key).head? = some pass
      · rcases eq_or_ne key pass.key with rfl | ne
        · rw [if_pos (latest.mpr ⟨rfl, head⟩)]
          simp only [book, if_pos head, Function.update_self, List.map_tail]
        · rw [if_neg fun named => ne (latest.mp named).1]
          simp only [book, if_pos head, Function.update_of_ne ne]
      · rw [if_neg fun named => head ((latest.mp named).1 ▸ (latest.mp named).2)]
        simp only [book, if_neg head]
  | retainRecent now => exact ⟨rfl, rfl⟩

theorem Sound.cancelsNewest (h : b.Sound past) : b.CancelsNewest := by
  obtain ⟨recent, old, backed⟩ := h.backed
  intro pass granted
  refine ⟨fun late => backed.cancel_stale h.proper granted fun newest => late ?_, fun key changed => ?_⟩
  · rw [backed.split, List.head?_append, newest]
    rfl
  · have newest : (recent pass.key).head? = some pass := by
      by_contra late
      exact changed (by rw [backed.cancel_stale h.proper granted late])
    obtain ⟨rest, hk⟩ : ∃ rest, recent pass.key = pass :: rest := List.head?_eq_some_iff.mp newest
    have chain : (recent pass.key).map (·.charge) = pass.charge :: rest.map (·.charge) := by rw [hk, List.map_cons]
    have charged := KeyedLimiter.cancel_newest backed.charged chain
    have quota := (KeyedLimiter.cancel_same b.limiter pass.key pass.charge.admission).1
    rcases eq_or_ne key pass.key with rfl | ne
    · have chained := backed.charged.chained pass.key
      rw [chain] at chained
      refine ⟨rfl, ?_⟩
      rw [charged.entry, Function.update_self, quota, chained.1]
    · refine absurd ?_ changed
      rw [charged.entry, Function.update_of_ne ne, quota, backed.charged.entry]

/-! ### Runs -/

theorem Sound.run (h : b.Sound past) {ops post : List (Op K)} (late : Late past (ops ++ post)) (few : (b.run ops).Few) :
    ∃ past, (b.run ops).Sound past ∧ Late past post := by
  induction ops generalizing b past with
  | nil => exact ⟨past, h, late⟩
  | cons op ops ih =>
    obtain ⟨asked, late⟩ := late.step
    exact ih (h.effect (step_effect b op) asked fun i => (made_run ops i).trans (few i)) late few

/-- What a key is answered from now on is what its book answers. -/
theorem Sound.answers_book (h : b.Sound past) (key : K) {ops : List (Op K)} (late : Late past ops) (fresh : b.Fresh ops)
    (few : (b.run ops).Few) : answers key b ops = (b.book key).answers b.limiter.quota key ops := by
  induction ops generalizing b past with
  | nil => rfl
  | cons op ops ih =>
    obtain ⟨asked, late⟩ := late.step
    obtain ⟨new, fresh⟩ := fresh.step
    obtain ⟨answered, follows⟩ := h.step_book op key asked new
    rw [answers, Book.answers, answered, ← follows,
      ih (h.effect (step_effect b op) asked fun i => (made_run ops i).trans (few i)) late fresh few,
      (effect_same (step_effect b op)).1]

/-- A key's bookings granted and not cancelled are within its quota. A cancellation is of the newest one in effect or does
    nothing, and whatever calls come after it, the key answers them as it would have before the booking. -/
theorem run_undoes {count burst : NonZeroU32} {per : Duration} {quota : Quota} (h : Quota.new count per burst = .ok quota)
    (hasher : K → Nat) (ops : List (Op K)) (inTime : InTime ops) (few : (of quota hasher ops).Few) :
    (∀ key, Spaced quota.interval burst.1 ((of quota hasher ops).uncancelled key)) ∧
      (of quota hasher ops).CancelsNewest ∧
      ∀ before name key now maxDelay between pass after, ops = before ++ .acquire name key now maxDelay :: between →
        name ∉ (of quota hasher before).names → pass.name = name → ((of quota hasher ops).inEffect key).head? = some pass →
        InTime (ops ++ .cancel name :: after) → (of quota hasher ops).Fresh after →
        (of quota hasher (ops ++ .cancel name :: after)).Few → (of quota hasher (before ++ after)).Few →
        answers key (of quota hasher (ops ++ [.cancel name])) after = answers key (of quota hasher before) after := by
  have same (ops : List (Op K)) : (of quota hasher ops).limiter.quota = quota := run_limiter ops
  have sound (ops : List (Op K)) {after : List (Op K)} (inTime : InTime (ops ++ after)) (few : (of quota hasher ops).Few) :
      ∃ past, (of quota hasher ops).Sound past ∧ Late past after :=
    (sound_new quota hasher).run ⟨inTime, fun _ _ _ _ => Nat.zero_le _⟩ few
  obtain ⟨past, here, -⟩ := @sound ops [] (by rwa [List.append_nil]) few
  refine ⟨fun key => ?_, here.cancelsNewest, ?_⟩
  · have spaced := here.spaced key ((same ops).symm ▸ Quota.new_tolerance_le h)
    rwa [same] at spaced
  · rintro before name key now maxDelay between pass after rfl fresh own newest inTime freshAfter few' few''
    set all := before ++ .acquire name key now maxDelay :: between with hall
    have split (l l' : List (Op K)) : of quota hasher (l ++ l') = (of quota hasher l).run l' := List.foldl_append
    rw [List.append_cons, split] at few'
    rw [split] at few''
    rw [hall, split] at newest
    -- The key's book after the cancellation is the one before the booking.
    have beneath : (of quota hasher (all ++ [.cancel name])).book key = (of quota hasher before).book key := by
      have effect := step_effect (of quota hasher all) (.cancel name)
      have lies := newest_run ((sound_new quota hasher).proper.run before) fresh own newest
      rw [split]
      refine (here.step_book (.cancel name) key (by rintro _ ⟨⟩) (by rintro _ ⟨⟩)).2.trans ?_
      rw [book, hall, split, show ((of quota hasher before).run _).inEffect key = _ from lies, List.map_cons, own]
      exact if_pos rfl
    have few₁ : (of quota hasher (all ++ [.cancel name])).Few := fun i => (made_run after i).trans (few' i)
    have few₂ : (of quota hasher before).Few := fun i => (made_run after i).trans (few'' i)
    have inTime₁ : InTime (all ++ [.cancel name] ++ after) := by rwa [← List.append_cons]
    have inTime₂ : InTime (before ++ after) := inTime.sublist ((List.sublist_append_left ..).append (List.sublist_cons_self ..))
    obtain ⟨past', undone, late⟩ := sound _ inTime₁ few₁
    obtain ⟨past'', unmade, late'⟩ := sound _ inTime₂ few₂
    have fresh' : (of quota hasher (all ++ [.cancel name])).Fresh after := by
      refine ⟨freshAfter.1, fun name' hn hm => freshAfter.2 name' hn ?_⟩
      rw [split] at hm
      exact (effect_names (step_effect (of quota hasher all) (.cancel name)) name' hm).resolve_right (by rintro ⟨⟩)
    have fresh'' : (of quota hasher before).Fresh after := by
      refine ⟨freshAfter.1, fun name' hn hm => freshAfter.2 name' hn ?_⟩
      rw [hall, split]
      exact names_run _ hm
    rw [undone.answers_book key late fresh' few', unmade.answers_book key late' fresh'' few'', beneath, same, same]

end

/-- Two bookings of one key. -/
def bookedTwice : List (Op Nat) := [.acquire 0 7 0 0, .acquire 1 7 0 0]

/-- With the second cancelled, a third is answered as it would have been in its place. -/
theorem run_undoes_bookedTwice :
    (∀ key, Spaced twoPerSecond.interval 2 ((of twoPerSecond id bookedTwice).uncancelled key)) ∧
      (of twoPerSecond id bookedTwice).CancelsNewest ∧
      answers 7 (of twoPerSecond id (bookedTwice ++ [.cancel 1])) [.acquire 2 7 0 0] =
        answers 7 (of twoPerSecond id [.acquire 0 7 0 0]) [.acquire 2 7 0 0] := by
  have few (ops : List (Op Nat)) (bound : (of twoPerSecond id ops).granted.length ≤ wordSize) : (of twoPerSecond id ops).Few :=
    fun _ => List.countP_le_length.trans bound
  have all := @run_undoes Nat _ _ _ _ ⟨2, by decide⟩ ⟨2, by decide⟩ (10 ^ 9) twoPerSecond rfl id bookedTwice (by decide)
    (few _ (by decide))
  refine ⟨all.1, all.2.1, all.2.2 [.acquire 0 7 0 0] 1 7 0 0 [] ⟨1, 7, ⟨⟨0, 1, some ⟨.at 500000000, 0⟩⟩, 0⟩⟩ [.acquire 2 7 0 0] rfl
    (by decide) rfl (by decide) (by decide) (by decide) (few _ (by decide)) (few _ (by decide))⟩

end Bookings

end Tgin.Limit
