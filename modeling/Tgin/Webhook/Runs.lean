import Tgin.UpdateFacts.Facts
import Tgin.Webhook

/-! What posted updates are answered over runs, what is counted, and what an answer says once ingest has stopped. -/

namespace Tgin.Webhook
open Engine Rules

variable {m : Matchers} {IpNet : Type} {c : Crates IpNet}

/-! ### Bodies -/

/-- The bytes of the frames. -/
def Frame.bytes : Frame → List UInt8
  | .data bytes => bytes
  | _ => []

/-- A body that is read is what its frames hold, and fits. -/
theorem readFrames_ok {limit : Nat} (bounded : limit < USIZE_MAX) {frames : List Frame} {first : Option (List UInt8)} {rest : List UInt8}
    {len : Nat} (apart : first.isSome → rest = []) (so : len = (first.getD rest).length) (fits : len ≤ limit) {bytes : List UInt8} :
    readFrames limit frames first rest len = .ok bytes ↔ (∀ frame ∈ frames, frame ≠ .error) ∧
      bytes = first.getD rest ++ frames.flatMap Frame.bytes ∧ bytes.length ≤ limit := by
  induction frames generalizing first rest len with
  | nil =>
    rw [readFrames, Except.ok.injEq, List.flatMap_nil, List.append_nil]
    constructor
    · rintro rfl
      exact ⟨List.forall_mem_nil _, rfl, so ▸ fits⟩
    · rintro ⟨-, rfl, -⟩
      rfl
  | cons frame frames ih =>
    cases frame with
    | error =>
      rw [readFrames]
      exact iff_of_false (by simp) fun h => h.1 .error List.mem_cons_self rfl
    | trailers =>
      rw [readFrames, ih apart so fits, List.forall_mem_cons, List.flatMap_cons]
      simp [Frame.bytes]
    | data data =>
      rw [List.flatMap_cons, List.forall_mem_cons]
      simp only [ne_eq, reduceCtorEq, not_false_eq_true, true_and]
      unfold readFrames
      dsimp only
      by_cases long : limit < len + data.length
      · have refused : limit < min (len + data.length) USIZE_MAX := lt_min long bounded
        rw [if_pos refused]
        refine iff_of_false (by simp) ?_
        rintro ⟨-, rfl, short⟩
        simp only [List.length_append, Frame.bytes, ← so] at short
        omega
      · have inside : min (len + data.length) USIZE_MAX = len + data.length := min_eq_left (by omega)
        rw [inside, if_neg long]
        cases first with
        | some earlier =>
          obtain rfl := apart rfl
          dsimp only
          rw [ih (by simp) (by simp [so]) (by omega)]
          simp [Frame.bytes, List.append_assoc]
        | none =>
          dsimp only
          by_cases empty : rest.isEmpty
          · obtain rfl := List.isEmpty_iff.mp empty
            rw [if_pos empty, ih (by simp) (by simp [so]) (by omega)]
            simp [Frame.bytes]
          · rw [if_neg empty, ih (by simp) (by simp [so]) (by omega)]
            simp [Frame.bytes, List.append_assoc]

/-! ### Admissions, once they are done -/

/-- An admission keeps its update, and its answer. -/
theorem act_admission {sys : System m} (sound : sys.Sound) (action : Engine.Action) {k : Nat} {a : Admission m}
    (found : sys.admissions[k]? = some a) :
    ∃ a', (sys.act action).admissions[k]? = some a' ∧ a'.update = a.update ∧ ∀ outcome, a.pc = .done outcome → a'.pc = .done outcome := by
  cases action with
  | begin update => exact ⟨a, (List.getElem?_append_left (List.getElem?_eq_some_iff.mp found).1).trans found, rfl, fun _ done => done⟩
  | step j clock =>
    simp only [System.act]
    by_cases here : j = k
    · subst here
      simp only [found]
      refine ⟨_, List.getElem?_set_self (List.getElem?_eq_some_iff.mp found).1, a.step_update .., fun outcome done => ?_⟩
      simp only [Admission.step, done]
    · cases sys.admissions[j]? with
      | none => exact ⟨a, found, rfl, fun _ done => done⟩
      | some b => exact ⟨a, (List.getElem?_set_ne here).trans found, rfl, fun _ done => done⟩
  | control control =>
    simp only [System.act, (System.control_leaves sound.shared control).1]
    exact ⟨a, found, rfl, fun _ done => done⟩
  | drain slot =>
    simp only [System.act]
    split <;> exact ⟨a, found, rfl, fun _ done => done⟩
  | consume slot op =>
    simp only [System.act]
    split <;> exact ⟨a, found, rfl, fun _ done => done⟩

/-- The update of the admission `k`. -/
def updateOf (sys : System m) (k : Nat) : Option Update := (sys.admissions[k]?).map (·.update)

/-- What a step of the engine leaves of its admissions. -/
structure Keeps (sys sys' : System m) : Prop where
  updates : ∀ k update, updateOf sys k = some update → updateOf sys' k = some update
  outcomes : ∀ k outcome, sys.outcome k = some outcome → sys'.outcome k = some outcome

theorem Keeps.refl (sys : System m) : Keeps sys sys := ⟨fun _ _ same => same, fun _ _ same => same⟩

theorem keeps_step {sys : System m} (sound : sys.Sound) (action : Engine.Action) : Keeps sys (sys.step action) := by
  have updates (k : Nat) (update : Update) (of : updateOf sys k = some update) : updateOf (sys.step action) k = some update := by
    obtain ⟨a, found, rfl⟩ := Option.map_eq_some_iff.mp of
    obtain ⟨a', found', same, -⟩ := act_admission sound action found
    exact Option.map_eq_some_iff.mpr ⟨a', found', same⟩
  refine ⟨updates, fun k outcome of => ?_⟩
  obtain ⟨a, found, done⟩ := System.outcome_eq_some.mp of
  obtain ⟨a', found', -, stays⟩ := act_admission sound action found
  exact System.outcome_eq_some.mpr ⟨a', found', stays outcome done⟩

theorem Keeps.trans {sys sys' sys'' : System m} (h : Keeps sys sys') (h' : Keeps sys' sys'') : Keeps sys sys'' :=
  ⟨fun k update of => h'.updates k update (h.updates k update of),
    fun k outcome of => h'.outcomes k outcome (h.outcomes k outcome of)⟩

theorem keeps_run {sys : System m} (sound : sys.Sound) (actions : List Engine.Action) : Keeps sys (sys.run actions) := by
  induction actions generalizing sys with
  | nil => exact .refl sys
  | cons action actions ih => exact (keeps_step sound action).trans (ih (System.step_sound sound action))

/-! ### What a request is answered -/

/-- The answers to a head. -/
theorem Ingress.refusal_cases {ingress : Ingress IpNet} {request : Request} {answer : Answer}
    (h : ingress.refusal c request = some answer) : answer = .methodNotAllowed ∨ answer = .forbidden ∨ answer = .unauthorized := by
  unfold Ingress.refusal at h
  split at h
  · exact .inl (Option.some.inj h).symm
  · split at h
    · exact .inr (.inl (Option.some.inj h).symm)
    · split at h
      · exact .inr (.inr (Option.some.inj h).symm)
      · cases h

/-- The answers to a body that holds no update. -/
theorem Ingress.readUpdate_cases {ingress : Ingress IpNet} {body : Body} {answer : Answer} {reason : SourceErrorReason}
    (h : ingress.readUpdate c body = .error (answer, reason)) : answer = .payloadTooLarge ∧ reason = .decode ∨ answer = .badRequest := by
  unfold Ingress.readUpdate at h
  split at h
  · cases h
    exact .inl ⟨rfl, rfl⟩
  · cases h
    exact .inr rfl
  · split at h <;> cases h
    exact .inr rfl

/-- An update that is read is of the route's bot, and its payload is what the body's frames hold, within the limit. -/
theorem Ingress.readUpdate_ok {ingress : Ingress IpNet} {body : Body} {update : Update} (h : ingress.readUpdate c body = .ok update) :
    update.source = ingress.id ∧ (ingress.bodyLimit < USIZE_MAX → (∀ frame ∈ body.frames, frame ≠ .error) ∧
      update.payload = body.frames.flatMap Frame.bytes ∧ update.payload.length ≤ ingress.bodyLimit) := by
  unfold Ingress.readUpdate at h
  split at h
  · cases h
  · cases h
  · rename_i payload read
    split at h <;> cases h
    refine ⟨rfl, fun bounded => ?_⟩
    unfold readBody at read
    split at read
    · cases read
    · exact (readFrames_ok bounded (fun absurd => by cases absurd) rfl (Nat.zero_le _)).mp read

namespace Post
variable (c) in
/-- The engine was offered the update of a request that is not refused, in the admission `k`. -/
structure Offered (post : Post IpNet) (sys : System m) (k : Nat) : Prop where
  accepted : post.ingress.refusal c post.request = none
  admission : post.admission = some k
  update : ∃ update, post.ingress.readUpdate c post.request.body = .ok update ∧ updateOf sys k = some update

variable (c) in
/-- Why a request has its answer, where its ingest is `stopped` or not. -/
inductive Answered (post : Post IpNet) (sys : System m) (stopped : Bool) : Answer → Prop where
  | refused {answer : Answer} (refusal : post.ingress.refusal c post.request = some answer) (unoffered : post.admission = none) :
    Answered post sys stopped answer
  | unread {answer : Answer} {reason : SourceErrorReason} (accepted : post.ingress.refusal c post.request = none)
    (unread : post.ingress.readUpdate c post.request.body = .error (answer, reason)) (unoffered : post.admission = none) :
    Answered post sys stopped answer
  /-- Ingest was stopped before the update was offered. -/
  | stopped (now : stopped = true) (accepted : post.ingress.refusal c post.request = none) (unoffered : post.admission = none) :
    Answered post sys stopped .retryLater
  /-- Ingest was stopped while the update was admitted. -/
  | late {k : Nat} (now : stopped = true) (offered : post.Offered c sys k) (admitted : sys.outcome k = some .admitted) :
    Answered post sys stopped .retryLater
  | full {k : Nat} (offered : post.Offered c sys k) (full : sys.outcome k = some .backpressure) : Answered post sys stopped .retryLater
  | ok {k : Nat} (offered : post.Offered c sys k) (taken : sys.outcome k = some .admitted ∨ sys.outcome k = some .unroutable) :
    Answered post sys stopped .ok

variable (c) in
/-- What holds of a request at its phase. -/
def Right (post : Post IpNet) (sys : System m) (stopped : Bool) : Prop :=
  match post.phase with
  | .head => post.admission = none
  | .body | .abandoned => post.ingress.refusal c post.request = none ∧ post.admission = none
  | .decoded update | .ready update => post.ingress.refusal c post.request = none ∧
    post.ingress.readUpdate c post.request.body = .ok update ∧ post.admission = none
  | .admitting k => post.Offered c sys k
  | .admitted => ∃ k, post.Offered c sys k ∧ sys.outcome k = some .admitted
  | .answered answer => post.Answered c sys stopped answer

variable (c) in
/-- What an answer counts as. -/
def error (post : Post IpNet) : Option SourceErrorReason :=
  match post.phase with
  | .answered .forbidden | .answered .unauthorized => some .unauthorized
  | .answered .payloadTooLarge => some .decode
  | .answered .badRequest =>
    match post.ingress.readUpdate c post.request.body with
    | .error (_, reason) => some reason
    | .ok _ => none
  | _ => none

/-- The engine took the update of the request: it admitted it, or it is of no rule. -/
def taken (post : Post IpNet) (sys : System m) : Bool :=
  match post.phase with
  | .admitted | .answered _ => (post.admission.bind sys.outcome).any (· ≠ .backpressure)
  | _ => false

variable {post : Post IpNet} {sys sys' : System m}

theorem Offered.keeps {k : Nat} (h : post.Offered c sys k) (keeps : Keeps sys sys') : post.Offered c sys' k := by
  obtain ⟨accepted, admission, update, read, of⟩ := h
  exact ⟨accepted, admission, update, read, keeps.updates k update of⟩

theorem Right.keeps {stopped stopped' : Bool} (h : post.Right c sys stopped) (keeps : Keeps sys sys')
    (stays : stopped = true → stopped' = true) : post.Right c sys' stopped' := by
  unfold Right at h ⊢
  cases hp : post.phase <;> rw [hp] at h
  case admitting k => exact h.keeps keeps
  case admitted =>
    obtain ⟨k, offered, admitted⟩ := h
    exact ⟨k, offered.keeps keeps, keeps.outcomes k _ admitted⟩
  case answered answer =>
    cases h with
    | refused refusal unoffered => exact .refused refusal unoffered
    | unread accepted unread unoffered => exact .unread accepted unread unoffered
    | stopped now accepted unoffered => exact .stopped (stays now) accepted unoffered
    | late now offered admitted => exact .late (stays now) (offered.keeps keeps) (keeps.outcomes _ _ admitted)
    | full offered full => exact .full (offered.keeps keeps) (keeps.outcomes _ _ full)
    | ok offered taken => exact .ok (offered.keeps keeps) (taken.imp (keeps.outcomes _ _) (keeps.outcomes _ _))
  all_goals exact h

theorem Answered.of_ok {stopped : Bool} (h : post.Answered c sys stopped .ok) :
    ∃ k, post.Offered c sys k ∧ (sys.outcome k = some .admitted ∨ sys.outcome k = some .unroutable) := by
  cases h with
  | refused refusal => rcases Ingress.refusal_cases refusal with absurd | absurd | absurd <;> cases absurd
  | unread _ unread => rcases Ingress.readUpdate_cases unread with ⟨absurd, -⟩ | absurd <;> cases absurd
  | ok offered taken => exact ⟨_, offered, taken⟩

theorem Offered.below {k : Nat} (h : post.Offered c sys k) : k < sys.admissions.length := by
  obtain ⟨-, -, update, -, of⟩ := h
  obtain ⟨a, found, -⟩ := Option.map_eq_some_iff.mp of
  exact (List.getElem?_eq_some_iff.mp found).1

/-- A request has an admission where its update was offered in it. -/
theorem Right.offered {stopped : Bool} (h : post.Right c sys stopped) {k : Nat} (own : post.admission = some k) : post.Offered c sys k := by
  have given {k' : Nat} (offered : post.Offered c sys k') : post.Offered c sys k := by
    obtain rfl := Option.some.inj (own.symm.trans offered.admission)
    exact offered
  unfold Right at h
  cases hp : post.phase <;> rw [hp] at h
  case head => cases own.symm.trans h
  case body | abandoned => cases own.symm.trans h.2
  case decoded | ready => cases own.symm.trans h.2.2
  case admitting => exact given h
  case admitted =>
    obtain ⟨k', offered, -⟩ := h
    exact given offered
  case answered =>
    cases h with
    | refused _ none | unread _ _ none | stopped _ _ none => cases own.symm.trans none
    | late _ offered _ | full offered _ | ok offered _ => exact given offered

/-- Once the engine has answered, that is counted for good. -/
theorem Right.taken_keeps {stopped : Bool} (h : post.Right c sys stopped) (keeps : Keeps sys sys') : post.taken sys' = post.taken sys := by
  have settled {k : Nat} {outcome : Admit} (admission : post.admission = some k) (done : sys.outcome k = some outcome) :
      (post.admission.bind sys'.outcome).any (· ≠ .backpressure) = (post.admission.bind sys.outcome).any (· ≠ .backpressure) := by
    rw [admission, Option.bind_some, Option.bind_some, done, keeps.outcomes k _ done]
  have unoffered (none : post.admission = none) :
      (post.admission.bind sys'.outcome).any (· ≠ .backpressure) = (post.admission.bind sys.outcome).any (· ≠ .backpressure) := by
    rw [none, Option.bind_none, Option.bind_none]
  unfold Right at h
  unfold taken
  cases hp : post.phase <;> rw [hp] at h
  case admitted =>
    obtain ⟨k, offered, admitted⟩ := h
    exact settled offered.admission admitted
  case answered answer =>
    cases h with
    | refused _ none | unread _ _ none | stopped _ _ none => exact unoffered none
    | late _ offered done | full offered done => exact settled offered.admission done
    | ok offered taken => exact taken.elim (settled offered.admission) (settled offered.admission)

end Post

/-! ### Over runs -/

/-- How many of the posts of a source a count is of. -/
def countOf (posts : List (Post IpNet)) (source : SourceId) (p : Post IpNet → Bool) : Nat :=
  posts.countP fun post => post.ingress.id = source && p post

theorem countOf_set {posts : List (Post IpNet)} {i : Nat} {post post' : Post IpNet} (found : posts[i]? = some post)
    (ingress : post'.ingress = post.ingress) (source : SourceId) (p : Post IpNet → Bool) :
    countOf (posts.set i post') source p + (if post.ingress.id = source ∧ p post = true then 1 else 0) =
      countOf posts source p + if post.ingress.id = source ∧ p post' = true then 1 else 0 := by
  obtain ⟨inside, rfl⟩ := List.getElem?_eq_some_iff.mp found
  have counted : (if posts[i].ingress.id = source ∧ p posts[i] = true then 1 else 0) ≤ countOf posts source p := by
    split
    · rename_i both
      exact List.countP_pos_iff.mpr ⟨posts[i], List.getElem_mem inside, by simpa using both⟩
    · exact Nat.zero_le _
  unfold countOf at counted ⊢
  rw [List.countP_set inside]
  simp only [ingress, Bool.and_eq_true, decide_eq_true_eq]
  omega

namespace Hooks

variable (c) in
/-- What every run keeps. -/
structure Inv (h : Hooks m IpNet) : Prop where
  sound : h.sys.Sound
  right : ∀ post ∈ h.posts, post.Right c h.sys (h.stopped post.ingress.ingest)
  apart : ∀ (i j : Nat) (post post' : Post IpNet) (k : Nat), h.posts[i]? = some post → h.posts[j]? = some post' →
    post.admission = some k → post'.admission = some k → i = j
  errors : ∀ source reason, (h.metrics source).errors reason = countOf h.posts source fun post => post.error c = some reason
  updates : ∀ source, (h.metrics source).updates = countOf h.posts source (·.taken h.sys)

variable {h : Hooks m IpNet}

theorem new_inv {engine : Shared m} (sound : (System.new engine).Sound) : (new engine : Hooks m IpNet).Inv c :=
  ⟨sound, List.forall_mem_nil _, fun _ _ _ _ _ none => absurd none (by simp [new]), fun _ _ => rfl, fun _ => rfl⟩

/-- The engine acts. -/
theorem Inv.engine (inv : h.Inv c) (action : Engine.Action) : Inv c { h with sys := h.sys.step action } := by
  have keeps := keeps_step inv.sound action
  refine ⟨System.step_sound inv.sound action, fun post mem => (inv.right post mem).keeps keeps id, inv.apart, inv.errors, fun source => ?_⟩
  refine (inv.updates source).trans (List.countP_congr fun post mem => ?_)
  dsimp only
  rw [(inv.right post mem).taken_keeps keeps]

/-- Ingest stops. -/
theorem Inv.stopping (inv : h.Inv c) {stopped : Nat → Bool} (more : ∀ token, h.stopped token = true → stopped token = true) :
    Inv c { h with stopped } :=
  ⟨inv.sound, fun post mem => (inv.right post mem).keeps (.refl _) (more _), inv.apart, inv.errors, inv.updates⟩

/-- A request comes to a phase, where no other has its admission. -/
theorem Inv.move (inv : h.Inv c) {i : Nat} {post post' : Post IpNet} (found : h.posts[i]? = some post)
    (right : post'.Right c h.sys (h.stopped post.ingress.ingest)) (ingress : post'.ingress = post.ingress)
    (apart : post'.admission = post.admission ∨ ∃ k, post'.admission = some k ∧ ∀ p ∈ h.posts, p.admission ≠ some k)
    (metrics : SourceId → Metrics)
    (errors : ∀ source reason, (metrics source).errors reason + (if post.ingress.id = source ∧ post.error c = some reason then 1 else 0) =
      (h.metrics source).errors reason + if post.ingress.id = source ∧ post'.error c = some reason then 1 else 0)
    (updates : ∀ source, (metrics source).updates + (if post.ingress.id = source ∧ post.taken h.sys = true then 1 else 0) =
      (h.metrics source).updates + if post.ingress.id = source ∧ post'.taken h.sys = true then 1 else 0) :
    Inv c { h with posts := h.posts.set i post', metrics } := by
  have alike {j : Nat} {p : Post IpNet} {k : Nat} (at_j : (h.posts.set i post')[j]? = some p) (own : p.admission = some k) :
      (∃ p, h.posts[j]? = some p ∧ p.admission = some k) ∨ j = i ∧ ∀ p ∈ h.posts, p.admission ≠ some k := by
    rw [List.getElem?_set] at at_j
    split at at_j
    · subst j
      split at at_j
      · cases at_j
        rcases apart with same | ⟨k', new, fresh⟩
        · exact .inl ⟨post, found, same ▸ own⟩
        · cases own.symm.trans new
          exact .inr ⟨rfl, fresh⟩
      · cases at_j
    · exact .inl ⟨p, at_j, own⟩
  refine ⟨inv.sound, fun p mem => ?_, fun j n p p' k at_j at_n own own' => ?_, fun source reason => ?_, fun source => ?_⟩
  · rcases List.mem_or_eq_of_mem_set mem with mem | rfl
    · exact inv.right p mem
    · exact ingress ▸ right
  · rcases alike at_j own with ⟨q, was, held⟩ | ⟨here, fresh⟩ <;> rcases alike at_n own' with ⟨q', was', held'⟩ | ⟨here', fresh'⟩
    · exact inv.apart j n q q' k was was' held held'
    · exact absurd held (fresh' q (List.mem_of_getElem? was))
    · exact absurd held' (fresh q' (List.mem_of_getElem? was'))
    · exact here.trans here'.symm
  · have set := countOf_set found ingress source fun post => decide (post.error c = some reason)
    have counted := errors source reason
    simp only [decide_eq_true_eq, ← inv.errors] at set
    exact Nat.add_right_cancel (counted.trans set.symm)
  · have set := countOf_set found ingress source (·.taken h.sys)
    rw [← inv.updates] at set
    exact Nat.add_right_cancel ((updates source).trans set.symm)

theorem error_errors (h : Hooks m IpNet) (id : SourceId) (reason : SourceErrorReason) (source : SourceId) (r : SourceErrorReason) :
    ((h.error id reason).metrics source).errors r = (h.metrics source).errors r + if id = source ∧ reason = r then 1 else 0 := by
  change (Function.update h.metrics id ((h.metrics id).error reason) source).errors r = _
  by_cases here : source = id
  · subst here
    rw [Function.update_self, Metrics.error]
    by_cases of : r = reason
    · subst of
      simp
    · simp [Function.update_of_ne of, Ne.symm of]
  · simp [Function.update_of_ne here, Ne.symm here]

theorem error_updates (h : Hooks m IpNet) (id : SourceId) (reason : SourceErrorReason) (source : SourceId) :
    ((h.error id reason).metrics source).updates = (h.metrics source).updates := by
  change (Function.update h.metrics id ((h.metrics id).error reason) source).updates = _
  by_cases here : source = id
  · subst here
    rw [Function.update_self]
    rfl
  · rw [Function.update_of_ne here]

theorem update_errors (h : Hooks m IpNet) (id source : SourceId) :
    ((h.update id).metrics source).errors = (h.metrics source).errors := by
  change (Function.update h.metrics id (h.metrics id).update source).errors = _
  by_cases here : source = id
  · subst here
    rw [Function.update_self]
    rfl
  · rw [Function.update_of_ne here]

theorem update_updates (h : Hooks m IpNet) (id source : SourceId) :
    ((h.update id).metrics source).updates = (h.metrics source).updates + if id = source then 1 else 0 := by
  change (Function.update h.metrics id (h.metrics id).update source).updates = _
  by_cases here : source = id
  · subst here
    rw [Function.update_self, if_pos rfl]
    rfl
  · rw [Function.update_of_ne here, if_neg (Ne.symm here), Nat.add_zero]

/-- A request comes to a phase at which no more is counted. -/
theorem Inv.goto (inv : h.Inv c) {i : Nat} {post : Post IpNet} (found : h.posts[i]? = some post) {phase : Phase}
    (right : ({ post with phase } : Post IpNet).Right c h.sys (h.stopped post.ingress.ingest))
    (quiet : ({ post with phase } : Post IpNet).error c = post.error c)
    (taken : ({ post with phase } : Post IpNet).taken h.sys = post.taken h.sys) : (h.goto i post phase).Inv c :=
  inv.move found right rfl (.inl rfl) _ (fun _ _ => by rw [quiet]) fun _ => by rw [taken]

/-- A request is answered with an error of its source. -/
theorem Inv.fail (inv : h.Inv c) {i : Nat} {post : Post IpNet} (found : h.posts[i]? = some post) {answer : Answer}
    {reason : SourceErrorReason} (right : ({ post with phase := .answered answer } : Post IpNet).Right c h.sys (h.stopped post.ingress.ingest))
    (unoffered : post.admission = none) (quiet : post.error c = none)
    (counts : ({ post with phase := .answered answer } : Post IpNet).error c = some reason) (taken : post.taken h.sys = false) :
    ((h.error post.ingress.id reason).goto i post (.answered answer)).Inv c := by
  refine inv.move found right rfl (.inl rfl) _ (fun source r => ?_) fun source => ?_
  · rw [error_errors, counts, quiet]
    simp
  · rw [error_updates, taken, Post.taken, unoffered]
    simp

/-- The engine has taken the update of a request. -/
theorem Inv.take (inv : h.Inv c) {i : Nat} {post : Post IpNet} (found : h.posts[i]? = some post) {phase : Phase}
    (right : ({ post with phase } : Post IpNet).Right c h.sys (h.stopped post.ingress.ingest))
    (quiet : ({ post with phase } : Post IpNet).error c = post.error c) (taken : post.taken h.sys = false)
    (counts : ({ post with phase } : Post IpNet).taken h.sys = true) : ((h.update post.ingress.id).goto i post phase).Inv c := by
  refine inv.move found right rfl (.inl rfl) _ (fun source r => ?_) fun source => ?_
  · rw [update_errors, quiet]
  · rw [update_updates, counts, taken]
    simp

/-- A request takes its next step. -/
theorem handle_inv (inv : h.Inv c) {i : Nat} {post : Post IpNet} (found : h.posts[i]? = some post) : (h.handle c i post).Inv c := by
  have right := inv.right post (List.mem_of_getElem? found)
  unfold Post.Right at right
  unfold handle
  dsimp only
  cases hp : post.phase <;> rw [hp] at right <;> dsimp only at right ⊢
  case head =>
    have quiet : post.error c = none := by simp [Post.error, hp]
    have untaken : post.taken h.sys = false := by simp [Post.taken, hp]
    cases refusal : post.ingress.refusal c post.request with
    | none =>
      dsimp only
      cases stops : h.stopped post.ingress.ingest with
      | false => exact inv.goto found ⟨refusal, right⟩ (by simp [Post.error, hp]) (by simp [Post.taken, hp])
      | true =>
        refine inv.goto found ?_ (by simp [Post.error, hp]) (by simp [Post.taken, hp, right])
        exact .stopped stops refusal right
    | some answer =>
      have answered : ({ post with phase := .answered answer } : Post IpNet).Right c h.sys (h.stopped post.ingress.ingest) :=
        .refused refusal right
      rcases Ingress.refusal_cases refusal with rfl | rfl | rfl
      · exact inv.goto found answered (by simp [Post.error, hp]) (by simp [Post.taken, hp, right])
      · exact inv.fail found answered right quiet rfl untaken
      · exact inv.fail found answered right quiet rfl untaken
  case body =>
    obtain ⟨accepted, unoffered⟩ := right
    have quiet : post.error c = none := by simp [Post.error, hp]
    have untaken : post.taken h.sys = false := by simp [Post.taken, hp]
    cases read : post.ingress.readUpdate c post.request.body with
    | error failed =>
      obtain ⟨answer, reason⟩ := failed
      have answered : ({ post with phase := .answered answer } : Post IpNet).Right c h.sys (h.stopped post.ingress.ingest) :=
        .unread accepted read unoffered
      refine inv.fail found answered unoffered quiet ?_ untaken
      rcases Ingress.readUpdate_cases read with ⟨rfl, rfl⟩ | rfl
      · rfl
      · simp [Post.error, read]
    | ok update => exact inv.goto found ⟨accepted, read, unoffered⟩ (by simp [Post.error, hp]) (by simp [Post.taken, hp])
  case decoded update =>
    obtain ⟨accepted, read, unoffered⟩ := right
    have quiet : post.error c = none := by simp [Post.error, hp]
    have untaken : post.taken h.sys = false := by simp [Post.taken, hp]
    cases stops : h.stopped post.ingress.ingest with
    | false => exact inv.goto found ⟨accepted, read, unoffered⟩ (by simp [Post.error, hp]) (by simp [Post.taken, hp])
    | true =>
      refine inv.goto found ?_ (by simp [Post.error, hp]) (by simp [Post.taken, hp, unoffered])
      exact .stopped stops accepted unoffered
  case ready update =>
    obtain ⟨accepted, read, unoffered⟩ := right
    have began := inv.engine (.begin update)
    have offered : ({ post with phase := .admitting h.sys.admissions.length, admission := h.sys.admissions.length } : Post IpNet).Right c
        (h.sys.step (.begin update)) (h.stopped post.ingress.ingest) := by
      refine ⟨accepted, rfl, update, read, ?_⟩
      simp [updateOf, System.step, System.act, Admission.start]
    have fresh : ∀ p ∈ h.posts, p.admission ≠ some h.sys.admissions.length := fun p mem own =>
      Nat.lt_irrefl _ ((inv.right p mem).offered own).below
    have moved := began.move found offered rfl (.inr ⟨_, rfl, fresh⟩) h.metrics (fun _ _ => by simp [Post.error, hp])
      fun _ => by simp [Post.taken, hp]
    exact moved
  case admitting k =>
    have quiet : post.error c = none := by simp [Post.error, hp]
    have untaken : post.taken h.sys = false := by simp [Post.taken, hp]
    cases done : h.sys.outcome k with
    | none => exact inv
    | some outcome =>
      cases outcome with
      | admitted =>
        exact inv.take found ⟨k, ⟨right.accepted, right.admission, right.update⟩, done⟩ (by simp [Post.error, hp]) untaken
          (by simp [Post.taken, right.admission, done])
      | unroutable =>
        refine inv.take found ?_ (by simp [Post.error, hp]) untaken (by simp [Post.taken, right.admission, done])
        exact .ok ⟨right.accepted, right.admission, right.update⟩ (.inr done)
      | backpressure =>
        refine inv.goto found ?_ (by simp [Post.error, hp]) (by simp [Post.taken, right.admission, done, hp])
        exact .full ⟨right.accepted, right.admission, right.update⟩ done
  case admitted =>
    obtain ⟨k, offered, done⟩ := right
    have offered' {phase : Phase} : ({ post with phase } : Post IpNet).Offered c h.sys k :=
      ⟨offered.accepted, offered.admission, offered.update⟩
    cases stops : h.stopped post.ingress.ingest with
    | false => exact inv.goto found (.ok offered' (.inl done)) (by simp [Post.error, hp]) (by simp [Post.taken, hp])
    | true =>
      refine inv.goto found ?_ (by simp [Post.error, hp]) (by simp [Post.taken, hp])
      exact .late stops offered' done
  case answered | abandoned => exact inv

theorem step_inv (inv : h.Inv c) (action : Action IpNet) : (h.step c action).Inv c := by
  cases action with
  | arrive ingress request =>
    refine ⟨inv.sound, List.forall_mem_append.mpr ⟨inv.right, List.forall_mem_singleton.mpr rfl⟩, fun i j p p' k at_i at_j own own' => ?_,
      fun source reason => ?_, fun source => ?_⟩
    · have old {n : Nat} {q : Post IpNet} (at_n : (h.step c (.arrive ingress request)).posts[n]? = some q) (held : q.admission = some k) :
          h.posts[n]? = some q := by
        simp only [step, List.getElem?_append, List.getElem?_singleton] at at_n
        split at at_n
        · exact at_n
        · split at at_n
          · cases at_n
            cases held
          · cases at_n
      exact inv.apart i j p p' k (old at_i own) (old at_j own') own own'
    · refine (inv.errors source reason).trans ?_
      simp [step, countOf, Post.error]
    · refine (inv.updates source).trans ?_
      simp [step, countOf, Post.taken]
  | step i =>
    simp only [step]
    cases found : h.posts[i]? with
    | none => exact inv
    | some post => exact handle_inv inv found
  | abandon i =>
    simp only [step]
    cases found : h.posts[i]? with
    | none => exact inv
    | some post =>
      dsimp only
      split
      · rename_i hp
        have right := inv.right post (List.mem_of_getElem? found)
        unfold Post.Right at right
        rw [hp] at right
        have gone : ({ post with phase := .abandoned } : Post IpNet).Right c h.sys (h.stopped post.ingress.ingest) := right
        exact inv.goto found gone (by simp [Post.error, hp]) (by simp [Post.taken, hp])
      · exact inv
  | stop token =>
    refine inv.stopping fun other was => ?_
    by_cases same : other = token
    · subst same
      exact Function.update_self ..
    · rwa [Function.update_of_ne same]
  | shutdown => exact inv.stopping fun _ _ => rfl
  | engine action => exact inv.engine action

theorem run_inv (inv : h.Inv c) (actions : List (Action IpNet)) : (h.run c actions).Inv c := by
  induction actions generalizing h with
  | nil => exact inv
  | cons action actions ih => exact ih (step_inv inv action)

end Hooks

/-- Over every run, whatever the engine does and whenever ingest stops: each answer is given for its reason (a refused head before the
    body, an unread body before the engine, a stop before and after the engine, and what the engine answers); what the engine is offered
    is what was posted, as an update of the route's bot, and no two requests share an admission; of each source the errors are the 401,
    403, 413 and 400 answers and the updates those that the engine took. -/
theorem answers_run {cfg : Config} {tokenKeys : Str → Nat} {engine : Shared m} (made : Shared.new cfg tokenKeys = .ok engine)
    (actions : List (Action IpNet)) :
    let now := (Hooks.new engine).run c actions
    (∀ post ∈ now.posts, ∀ answer, post.phase = .answered answer →
      post.Answered c now.sys (now.stopped post.ingress.ingest) answer) ∧
    (∀ post ∈ now.posts, ∀ k, post.admission = some k → post.Offered c now.sys k ∧
      ∃ update, updateOf now.sys k = some update ∧ update.source = post.ingress.id ∧ (post.ingress.bodyLimit < USIZE_MAX →
        update.payload = post.request.body.frames.flatMap Frame.bytes ∧ update.payload.length ≤ post.ingress.bodyLimit)) ∧
    (∀ (i j : Nat) (post post' : Post IpNet) (k : Nat), now.posts[i]? = some post → now.posts[j]? = some post' →
      post.admission = some k → post'.admission = some k → i = j) ∧
    ∀ source, (∀ reason, (now.metrics source).errors reason = countOf now.posts source fun post => post.error c = some reason) ∧
      (now.metrics source).updates = countOf now.posts source (·.taken now.sys) := by
  intro now
  have inv : now.Inv c := Hooks.run_inv (Hooks.new_inv (System.sound_new made)) actions
  refine ⟨fun post mem answer answered => ?_, fun post mem k own => ?_, inv.apart, fun source => ⟨inv.errors source, inv.updates source⟩⟩
  · have right := inv.right post mem
    unfold Post.Right at right
    rwa [answered] at right
  · have offered := (inv.right post mem).offered own
    obtain ⟨update, read, of⟩ := offered.update
    obtain ⟨source, payload⟩ := Ingress.readUpdate_ok read
    exact ⟨offered, update, of, source, fun bounded => (payload bounded).2⟩

/-- What a request is answered, once it is. -/
def Phase.answer : Phase → Option Answer
  | .answered answer => some answer
  | _ => none

/-- `serde_json` where no text has an escape, on one body. -/
def plainly : Crates Unit where
  doc payload := if payload = UpdateFacts.utf8 "\x7b\"update_id\":1\x7d" then some (.object [(UpdateFacts.UPDATE_ID, .number [49])]) else none
  serde := UpdateFacts.plainSerde
  contains _ _ := false

/-- The route of bot `b`, and an update that is posted to it. -/
def hookOfB : Ingress Unit where
  id := 1
  secret := none
  allowlist := .none
  trustedProxies := []
  bodyLimit := 1048576
  ingest := 0

def posted : Request where
  post := true
  peer := none
  forwardedFor := []
  secretToken := none
  body := { lower := 15, frames := [.data (UpdateFacts.utf8 "\x7b\"update_id\":1\x7d")] }

/-- The update is acknowledged. -/
def acknowledged : List (Action Unit) :=
  .arrive hookOfB posted :: List.replicate 4 (.step 0) ++ List.replicate 9 (.engine (.step 0 0)) ++ List.replicate 2 (.step 0)

theorem answers_run_acknowledged :
    let now := (Hooks.new bothEngine).run plainly acknowledged
    now.posts.map (·.phase.answer) = [some .ok] ∧ (now.metrics 1).updates = 1 ∧ ∀ reason, (now.metrics 1).errors reason = 0 := by
  have made : Shared.new both List.length = .ok bothEngine := rfl
  obtain ⟨-, -, -, counts⟩ := answers_run (c := plainly) made acknowledged
  refine ⟨by decide +kernel, (counts 1).2.trans (by decide +kernel), fun reason => ((counts 1).1 reason).trans ?_⟩
  cases reason <;> decide +kernel

/-! ### Once ingest has stopped -/

namespace Hooks
variable {h : Hooks m IpNet}

/-- The engine of a step is the engine after some actions. -/
theorem step_sys (h : Hooks m IpNet) (action : Action IpNet) : ∃ actions, (h.step c action).sys = h.sys.run actions := by
  cases action with
  | arrive ingress request => exact ⟨[], rfl⟩
  | step i =>
    simp only [step]
    cases h.posts[i]? with
    | none => exact ⟨[], rfl⟩
    | some post =>
      simp only [handle]
      split
      case h_4 update _ => exact ⟨[.begin update], rfl⟩
      case h_5 => split <;> exact ⟨[], rfl⟩
      case h_1 => split <;> exact ⟨[], rfl⟩
      case h_2 => split <;> exact ⟨[], rfl⟩
      all_goals exact ⟨[], rfl⟩
  | abandon i =>
    simp only [step]
    split
    · split <;> exact ⟨[], rfl⟩
    · exact ⟨[], rfl⟩
  | stop token => exact ⟨[], rfl⟩
  | shutdown => exact ⟨[], rfl⟩
  | engine action => exact ⟨[action], rfl⟩

theorem run_sys (h : Hooks m IpNet) (actions : List (Action IpNet)) : ∃ acts, (h.run c actions).sys = h.sys.run acts := by
  induction actions generalizing h with
  | nil => exact ⟨[], rfl⟩
  | cons action actions ih =>
    obtain ⟨first, eq⟩ := step_sys (c := c) h action
    obtain ⟨rest, eq'⟩ := ih (h.step c action)
    exact ⟨first ++ rest, by rw [System.run_append, ← eq]; exact eq'⟩

/-- Where ingest is stopped, a request that is answered 200 next has an update of no rule. -/
theorem step_acknowledges (inv : h.Inv c) {action : Action IpNet} {post : Post IpNet} (mem : post ∈ (h.step c action).posts)
    (answered : post.phase = .answered .ok) (stops : h.stopped post.ingress.ingest = true) :
    post ∈ h.posts ∨ ∃ k, post.Offered c (h.step c action).sys k ∧ (h.step c action).sys.outcome k = some .unroutable := by
  cases action with
  | stop | shutdown | engine => exact .inl mem
  | arrive ingress request =>
    rcases List.mem_append.mp mem with old | new
    · exact .inl old
    · obtain rfl := List.mem_singleton.mp new
      cases answered
  | abandon i =>
    simp only [step] at mem
    split at mem
    · split at mem
      · rcases List.mem_or_eq_of_mem_set mem with old | rfl
        · exact .inl old
        · cases answered
      · exact .inl mem
    · exact .inl mem
  | step i =>
    have right := (step_inv inv (.step i)).right post mem
    unfold Post.Right at right
    rw [answered] at right
    obtain ⟨k, offered, taken⟩ := right.of_ok
    refine taken.symm.imp_left (fun unroutable => ⟨k, offered, unroutable⟩) |>.symm.imp_left fun admitted => ?_
    simp only [step] at mem admitted
    cases found : h.posts[i]? with
    | none =>
      rw [found] at mem
      exact mem
    | some was =>
      simp only [found] at mem admitted
      have before := inv.right was (List.mem_of_getElem? found)
      unfold Post.Right at before
      have moves {phase : Phase} (mem : post ∈ (h.goto i was phase).posts)
          (no : ({ was with phase } : Post IpNet).phase = .answered .ok → was.admission ≠ some k) : post ∈ h.posts := by
        rcases List.mem_or_eq_of_mem_set mem with old | rfl
        · exact old
        · exact absurd offered.admission (no answered)
      cases hp : was.phase <;> rw [hp] at before <;> simp only [handle, hp] at mem admitted
      case head =>
        have unoffered : was.admission ≠ some k := by simp [show was.admission = none from before]
        split at mem <;> exact moves mem fun _ => unoffered
      case body =>
        have unoffered : was.admission ≠ some k := by simp [before.2]
        split at mem <;> exact moves mem fun _ => unoffered
      case decoded => exact moves mem fun _ => by simp [before.2.2]
      case ready =>
        rcases List.mem_or_eq_of_mem_set mem with old | rfl
        · exact old
        · cases answered
      case admitting k' =>
        cases done : h.sys.outcome k' with
        | none =>
          rw [done] at mem
          exact mem
        | some outcome =>
          simp only [done] at mem admitted
          cases outcome with
          | admitted => exact moves mem fun absurd => by cases absurd
          | backpressure => exact moves mem fun absurd => by cases absurd
          | unroutable =>
            refine moves mem fun _ own => ?_
            obtain rfl := Option.some.inj (before.admission.symm.trans own)
            cases done.symm.trans admitted
      case admitted =>
        rcases List.mem_or_eq_of_mem_set mem with old | rfl
        · exact old
        · simp [stops] at answered
      case answered | abandoned => exact mem

/-- A stop stays. -/
theorem step_stopped (h : Hooks m IpNet) (action : Action IpNet) {token : Nat} (stops : h.stopped token = true) :
    (h.step c action).stopped token = true := by
  cases action with
  | arrive | engine => exact stops
  | shutdown => rfl
  | stop other =>
    by_cases same : token = other
    · subst same
      exact Function.update_self ..
    · exact (Function.update_of_ne same ..).trans stops
  | abandon i =>
    simp only [step]
    split
    · split <;> exact stops
    · exact stops
  | step i =>
    simp only [step]
    split
    · exact stops
    · simp only [handle]
      split
      case h_1 => split <;> exact stops
      case h_2 => split <;> exact stops
      case h_5 => split <;> exact stops
      all_goals exact stops

theorem step_keeps (inv : h.Inv c) (action : Action IpNet) : Keeps h.sys (h.step c action).sys := by
  obtain ⟨acts, eq⟩ := step_sys (c := c) h action
  rw [eq]
  exact keeps_run inv.sound acts

/-- What every run from a stop on keeps: the updates of the requests that are answered 200 were admitted by then, or are of no rule. -/
structure SinceStop (c : Crates IpNet) (token : Nat) (atStop : System m) (h : Hooks m IpNet) : Prop where
  inv : h.Inv c
  stops : h.stopped token = true
  keeps : Keeps atStop h.sys
  acknowledged : ∀ post ∈ h.posts, post.ingress.ingest = token → post.phase = .answered .ok →
    ∃ k, post.Offered c h.sys k ∧ (atStop.outcome k = some .admitted ∨ h.sys.outcome k = some .unroutable)

theorem SinceStop.step {token : Nat} {atStop : System m} (since : h.SinceStop c token atStop) (action : Action IpNet) :
    (h.step c action).SinceStop c token atStop := by
  have keeps := step_keeps since.inv action
  refine ⟨step_inv since.inv action, step_stopped h action since.stops, since.keeps.trans keeps, fun post mem own answered => ?_⟩
  rcases step_acknowledges since.inv mem answered (own ▸ since.stops) with old | ⟨k, offered, unroutable⟩
  · obtain ⟨k, offered, taken⟩ := since.acknowledged post old own answered
    exact ⟨k, offered.keeps keeps, taken.imp_right (keeps.outcomes k _)⟩
  · exact ⟨k, offered, .inr unroutable⟩

theorem SinceStop.run {token : Nat} {atStop : System m} (since : h.SinceStop c token atStop) (actions : List (Action IpNet)) :
    (h.run c actions).SinceStop c token atStop := by
  induction actions generalizing h with
  | nil => exact since
  | cons action actions ih => exact ih (since.step action)

end Hooks

/-- Once ingest has stopped, for a bot or for all, no update is acknowledged that the engine did not have by then: the update of every
    request that is ever answered 200 was dealt to each of its targets before the stop, where the drain finds what was queued, or it is
    of no rule. -/
theorem acknowledged_by_stop {cfg : Config} {tokenKeys : Str → Nat} {engine : Shared m} (made : Shared.new cfg tokenKeys = .ok engine)
    (before after : List (Action IpNet)) (stop : Action IpNet) :
    let atStop := (Hooks.new engine).run c before
    let now := (Hooks.new engine).run c (before ++ stop :: after)
    ∀ post ∈ now.posts, stop = .shutdown ∨ stop = .stop post.ingress.ingest → post.phase = .answered .ok →
      ∃ k update, post.ingress.readUpdate c post.request.body = .ok update ∧ post.Offered c now.sys k ∧
        (now.sys.outcome k = some .unroutable ∨
          ∃ acts, atStop.sys = (System.new engine).run acts ∧ (System.new engine).DealtOnce acts k update) := by
  intro atStop now post mem stops answered
  have inv : atStop.Inv c := Hooks.run_inv (Hooks.new_inv (System.sound_new made)) before
  have since : Hooks.SinceStop c post.ingress.ingest atStop.sys (atStop.step c stop) := by
    have quiet : (atStop.step c stop).sys = atStop.sys ∧ (atStop.step c stop).posts = atStop.posts ∧
        (atStop.step c stop).stopped post.ingress.ingest = true := by
      rcases stops with rfl | rfl
      · exact ⟨rfl, rfl, rfl⟩
      · exact ⟨rfl, rfl, Function.update_self ..⟩
    obtain ⟨sys, posts, stopped⟩ := quiet
    refine ⟨Hooks.step_inv inv stop, stopped, sys ▸ .refl _, fun p mem own ok => ?_⟩
    rw [posts] at mem
    rw [sys]
    have right := inv.right p mem
    unfold Post.Right at right
    rw [ok] at right
    exact right.of_ok
  have since : Hooks.SinceStop c post.ingress.ingest atStop.sys now := by
    have eq : now = (atStop.step c stop).run c after := List.foldl_append
    exact eq ▸ since.run after
  obtain ⟨k, offered, taken⟩ := since.acknowledged post mem rfl answered
  obtain ⟨-, -, update, read, of⟩ := id offered
  refine ⟨k, update, read, offered, taken.symm.imp_right fun admitted => ?_⟩
  obtain ⟨acts, eq⟩ := Hooks.run_sys (c := c) (Hooks.new engine) before
  obtain ⟨a, found, done⟩ := System.outcome_eq_some.mp admitted
  have same : a.update = update := by
    have was : updateOf atStop.sys k = some a.update := Option.map_eq_some_iff.mpr ⟨a, found, rfl⟩
    exact Option.some.inj ((since.keeps.updates k _ was).symm.trans of)
  refine ⟨acts, eq, same ▸ System.dealtOnce_admitted made acts ?_ done⟩
  exact eq ▸ found

theorem acknowledged_by_stop_shutdown :
    ∃ post k update, ((Hooks.new bothEngine).run plainly (acknowledged ++ [.shutdown])).posts = [post] ∧ post.phase = .answered .ok ∧
      post.ingress.readUpdate plainly post.request.body = .ok update ∧
      (((Hooks.new bothEngine).run plainly (acknowledged ++ [.shutdown])).sys.outcome k = some .unroutable ∨
        ∃ acts, ((Hooks.new bothEngine).run plainly acknowledged).sys = (System.new bothEngine).run acts ∧
          (System.new bothEngine).DealtOnce acts k update) := by
  have made : Shared.new both List.length = .ok bothEngine := rfl
  have answers : ((Hooks.new bothEngine).run plainly (acknowledged ++ [.shutdown])).posts.map (·.phase.answer) = [some .ok] := by
    decide +kernel
  obtain ⟨post, posts, answer⟩ := List.map_eq_singleton_iff.mp answers
  have answered : post.phase = .answered .ok := by
    cases hp : post.phase <;> rw [hp] at answer <;> cases answer
    rfl
  obtain ⟨k, update, read, -, taken⟩ := acknowledged_by_stop (c := plainly) made acknowledged [] .shutdown post
    (posts ▸ List.mem_singleton_self post) (.inl rfl) answered
  exact ⟨post, k, update, posts, answered, read, taken⟩

end Tgin.Webhook
