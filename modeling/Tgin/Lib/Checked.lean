import Mathlib.Algebra.Group.Defs
import Mathlib.Tactic.Common

/-! Checks that report everything they find and go on. What they accept is told as if they stopped at the first error: a check that
    reports none has accepted each of its parts.

    A check reads and extends a state, a monoid whose product appends; the rule that a state imposes on what is appended is a parameter
    (`Guard`). `Means` then says of a check, whatever the state, what it gives and appends when it reports no error. -/

namespace Checked

/-- What was found: errors reject, warnings do not. -/
structure Reports (ε : Type) where
  errors : List ε
  warnings : List ε

namespace Reports
variable {ε α : Type}

instance : Append (Reports ε) := ⟨fun r r' => { errors := r.errors ++ r'.errors, warnings := r.warnings ++ r'.warnings }⟩

def none : Reports ε := { errors := [], warnings := [] }

def error (e : ε) : Reports ε := { errors := [e], warnings := [] }

def warning (e : ε) : Reports ε := { errors := [], warnings := [e] }

/-- The reports if the condition holds. -/
def when (p : Prop) [Decidable p] (r : Reports ε) : Reports ε := if p then r else none

/-- The reports on a value that may be absent. -/
def given (o : Option α) (f : α → Reports ε) : Reports ε :=
  match o with
  | some a => f a
  | Option.none => none

/-- The reports of a loop over elements, numbered from `i` on. -/
def each (f : Nat → α → Reports ε) : (i : Nat) → List α → Reports ε
  | _, [] => none
  | i, a :: l => f i a ++ each f (i + 1) l

/-- Nothing that rejects was found. -/
def Clean (r : Reports ε) : Prop := r.errors = []

instance (r : Reports ε) : Decidable r.Clean := decidable_of_iff (r.errors.isEmpty = true) List.isEmpty_iff

section
variable {r r' : Reports ε} {e : ε}

@[simp] theorem clean_none : (none : Reports ε).Clean := rfl

@[simp] theorem clean_error : ¬(error e).Clean := List.cons_ne_nil _ _

@[simp] theorem clean_warning : (warning e).Clean := rfl

@[simp] theorem clean_append : (r ++ r').Clean ↔ r.Clean ∧ r'.Clean := List.append_eq_nil_iff

@[simp] theorem clean_when {p : Prop} [Decidable p] : (when p r).Clean ↔ (p → r.Clean) := by
  unfold when
  split
  · rename_i hp
    exact ⟨fun h _ => h, fun h => h hp⟩
  · rename_i hp
    exact ⟨fun _ h => absurd h hp, fun _ => clean_none⟩

@[simp] theorem clean_given {o : Option α} {f : α → Reports ε} : (given o f).Clean ↔ ∀ a ∈ o, (f a).Clean := by
  cases o <;> simp [given]

theorem clean_each {f : Nat → α → Reports ε} {i : Nat} {l : List α} :
    (each f i l).Clean ↔ ∀ n a, l[n]? = some a → (f (i + n) a).Clean := by
  induction l generalizing i with
  | nil => simp [each]
  | cons a l ih =>
    rw [each, clean_append, ih]
    constructor
    · rintro ⟨first, rest⟩ n b hb
      cases n with
      | zero =>
        obtain rfl : a = b := by simpa using hb
        exact first
      | succ n =>
        have := rest n b (by simpa using hb)
        rwa [Nat.add_assoc, Nat.add_comm 1 n] at this
    · intro h
      refine ⟨h 0 a (by simp), fun n b hb => ?_⟩
      have := h (n + 1) b (by simpa using hb)
      rwa [Nat.add_comm n 1, ← Nat.add_assoc] at this

/-- Where the number does not matter. -/
theorem clean_each_mem {f : Nat → α → Reports ε} {P : α → Prop} (h : ∀ n a, (f n a).Clean ↔ P a) {i : Nat} {l : List α} :
    (each f i l).Clean ↔ ∀ a ∈ l, P a := by
  rw [clean_each]
  constructor
  · intro all a ha
    obtain ⟨n, hn⟩ := List.mem_iff_getElem?.mp ha
    exact (h _ a).mp (all n a hn)
  · intro all n a ha
    exact (h _ a).mpr (all a (List.mem_of_getElem? ha))

end

end Reports

/-- What a check over a state gives and reports. -/
structure Outcome (σ ε α : Type) where
  value : α
  state : σ
  reports : Reports ε

/-- A check over a state. -/
def Check (σ ε α : Type) := σ → Outcome σ ε α

namespace Check
variable {σ ε α β : Type}

instance : Monad (Check σ ε) where
  pure a := fun s => { value := a, state := s, reports := .none }
  bind m f := fun s =>
    let first := m s
    let second := f first.value first.state
    { value := second.value, state := second.state, reports := first.reports ++ second.reports }

def report (r : Reports ε) : Check σ ε Unit := fun s => { value := (), state := s, reports := r }

def append [Mul σ] (e : σ) : Check σ ε Unit := fun s => { value := (), state := s * e, reports := .none }

/-- A loop over elements, numbered from `i` on. -/
def each (f : Nat → α → Check σ ε β) : (i : Nat) → List α → Check σ ε (List β)
  | _, [] => pure []
  | i, a :: l => do
    let b ← f i a
    let bs ← each f (i + 1) l
    return b :: bs

/-- A loop over elements, numbered from `i` on, that ends at the first that gives nothing. -/
def whileSome (f : Nat → α → Check σ ε (Option β)) : (i : Nat) → List α → Check σ ε (List β)
  | _, [] => pure []
  | i, a :: l => do
    let some b ← f i a | return []
    let bs ← whileSome f (i + 1) l
    return b :: bs

/-- What the check gives in a state, and the state it leaves, when it reports no error. -/
structure Accepts (m : Check σ ε α) (s : σ) (a : α) (s' : σ) : Prop where
  clean : (m s).reports.Clean
  value : (m s).value = a
  state : (m s).state = s'

theorem accepts_pure {a b : α} {s s' : σ} : Accepts (pure a : Check σ ε α) s b s' ↔ b = a ∧ s' = s := by
  constructor
  · rintro ⟨-, rfl, rfl⟩
    exact ⟨rfl, rfl⟩
  · rintro ⟨rfl, rfl⟩
    exact ⟨rfl, rfl, rfl⟩

theorem accepts_report {r : Reports ε} {s s' : σ} : Accepts (report r) s () s' ↔ r.Clean ∧ s' = s := by
  constructor
  · rintro ⟨h, -, rfl⟩
    exact ⟨h, rfl⟩
  · rintro ⟨h, rfl⟩
    exact ⟨h, rfl, rfl⟩

theorem accepts_bind {m : Check σ ε α} {f : α → Check σ ε β} {s s'' : σ} {b : β} :
    Accepts (m >>= f) s b s'' ↔ ∃ a s', Accepts m s a s' ∧ Accepts (f a) s' b s'' := by
  constructor
  · rintro ⟨clean, rfl, rfl⟩
    obtain ⟨hm, hf⟩ := Reports.clean_append.mp clean
    exact ⟨_, _, ⟨hm, rfl, rfl⟩, ⟨hf, rfl, rfl⟩⟩
  · rintro ⟨_, _, ⟨hm, rfl, rfl⟩, ⟨hf, rfl, rfl⟩⟩
    exact ⟨Reports.clean_append.mpr ⟨hm, hf⟩, rfl, rfl⟩

end Check

/-! ### What a check means, whatever the state -/

/-- Which states admit what, appended part by part. -/
structure Guard (σ : Type) [Monoid σ] where
  Admits : σ → σ → Prop
  one : ∀ s, Admits s 1
  mul : ∀ s e e', Admits s (e * e') ↔ Admits s e ∧ Admits (s * e) e'

namespace Check
variable {σ ε α β : Type} [Monoid σ] {guard : Guard σ}

/-- The check gives `a` and appends `e`, for `G a e`, if the state admits it; else it reports an error. -/
def Means (guard : Guard σ) (m : Check σ ε α) (G : α → σ → Prop) : Prop :=
  ∀ s a s', Accepts m s a s' ↔ ∃ e, G a e ∧ guard.Admits s e ∧ s' = s * e

namespace Means

theorem congr {m : Check σ ε α} {G H : α → σ → Prop} (h : Means guard m G) (same : ∀ a e, G a e ↔ H a e) : Means guard m H := by
  intro s a s'
  rw [h s a s']
  exact exists_congr fun e => and_congr_left fun _ => same a e

theorem pure (a : α) : Means guard (Pure.pure a : Check σ ε α) fun b e => b = a ∧ e = 1 := by
  intro s b s'
  rw [accepts_pure]
  constructor
  · rintro ⟨rfl, rfl⟩
    exact ⟨1, ⟨rfl, rfl⟩, guard.one _, (mul_one _).symm⟩
  · rintro ⟨_, ⟨rfl, rfl⟩, -, rfl⟩
    exact ⟨rfl, mul_one _⟩

/-- A value given, with an error or without one. -/
theorem report {r : Reports ε} {a : α} :
    Means guard (do Check.report r; Pure.pure a : Check σ ε α) fun b e => r.Clean ∧ b = a ∧ e = 1 := by
  intro s b s'
  rw [accepts_bind]
  constructor
  · rintro ⟨⟨⟩, s₁, first, second⟩
    obtain ⟨clean, rfl⟩ := accepts_report.mp first
    obtain ⟨rfl, rfl⟩ := accepts_pure.mp second
    exact ⟨1, ⟨clean, rfl, rfl⟩, guard.one _, (mul_one _).symm⟩
  · rintro ⟨_, ⟨clean, rfl, rfl⟩, -, rfl⟩
    exact ⟨(), s, accepts_report.mpr ⟨clean, rfl⟩, accepts_pure.mpr ⟨rfl, mul_one _⟩⟩

/-- A check that gives what it would not without an error. -/
theorem rejected {r : Reports ε} (h : ¬r.Clean) {a : α} :
    Means guard (do Check.report r; Pure.pure a : Check σ ε α) fun _ _ => False :=
  report.congr fun _ _ => ⟨fun given => h given.1, False.elim⟩

/-- What follows is asked about what is given only. -/
theorem bind {m : Check σ ε α} {f : α → Check σ ε β} {G : α → σ → Prop} {H : α → β → σ → Prop} (hm : Means guard m G)
    (hf : ∀ a e, G a e → Means guard (f a) (H a)) :
    Means guard (m >>= f) fun b e => ∃ a e₁ e₂, G a e₁ ∧ H a b e₂ ∧ e = e₁ * e₂ := by
  intro s b s''
  rw [accepts_bind]
  constructor
  · rintro ⟨a, s', first, second⟩
    obtain ⟨e₁, given, admits, rfl⟩ := (hm ..).mp first
    obtain ⟨e₂, given', admits', rfl⟩ := (hf a e₁ given ..).mp second
    exact ⟨e₁ * e₂, ⟨a, e₁, e₂, given, given', rfl⟩, (guard.mul ..).mpr ⟨admits, admits'⟩, mul_assoc ..⟩
  · rintro ⟨_, ⟨a, e₁, e₂, given, given', rfl⟩, admits, rfl⟩
    obtain ⟨first, second⟩ := (guard.mul ..).mp admits
    exact ⟨a, s * e₁, (hm ..).mpr ⟨e₁, given, first, rfl⟩, (hf a e₁ given ..).mpr ⟨e₂, given', second, (mul_assoc ..).symm⟩⟩

/-- What is appended that every state admits. -/
theorem append {e₀ : σ} (h : ∀ s, guard.Admits s e₀) : Means guard (Check.append e₀ : Check σ ε Unit) fun _ e => e = e₀ := by
  rintro s ⟨⟩ s'
  constructor
  · rintro ⟨-, -, rfl⟩
    exact ⟨e₀, rfl, h s, rfl⟩
  · rintro ⟨_, rfl, -, rfl⟩
    exact ⟨Reports.clean_none, rfl, rfl⟩

end Means

/-- The check gives some `a`, for `G a e`, or reports an error. -/
def Yields (guard : Guard σ) (m : Check σ ε (Option α)) (G : α → σ → Prop) : Prop :=
  Means guard m fun o e => ∃ a, o = some a ∧ G a e

namespace Yields

theorem congr {m : Check σ ε (Option α)} {G H : α → σ → Prop} (h : Yields guard m G) (same : ∀ a e, G a e ↔ H a e) : Yields guard m H :=
  Means.congr h fun _ e => exists_congr fun a => and_congr_right fun _ => same a e

theorem pure (a : α) : Yields guard (Pure.pure (some a) : Check σ ε (Option α)) fun b e => b = a ∧ e = 1 :=
  (Means.pure (some a)).congr fun _ _ =>
    ⟨fun ⟨eq, one⟩ => ⟨a, eq, rfl, one⟩, fun ⟨_, eq, same, one⟩ => ⟨eq.trans (congrArg some same), one⟩⟩

theorem report {r : Reports ε} {a : α} :
    Yields guard (do Check.report r; Pure.pure (some a) : Check σ ε (Option α)) fun b e => r.Clean ∧ b = a ∧ e = 1 :=
  Means.report.congr fun _ _ =>
    ⟨fun ⟨clean, eq, one⟩ => ⟨a, eq, clean, rfl, one⟩, fun ⟨_, eq, clean, same, one⟩ => ⟨clean, eq.trans (congrArg some same), one⟩⟩

theorem rejected {r : Reports ε} (h : ¬r.Clean) {o : Option α} :
    Yields guard (do Check.report r; Pure.pure o : Check σ ε (Option α)) fun _ _ => False :=
  (Means.rejected h).congr fun _ _ => ⟨False.elim, fun ⟨_, _, h⟩ => h⟩

/-- What follows sees only what is given. -/
theorem then_ {m : Check σ ε (Option α)} {f : Option α → Check σ ε β} {G : α → σ → Prop} {H : α → β → σ → Prop}
    (hm : Yields guard m G) (hf : ∀ a e, G a e → Means guard (f (some a)) (H a)) :
    Means guard (m >>= f) fun b e => ∃ a e₁ e₂, G a e₁ ∧ H a b e₂ ∧ e = e₁ * e₂ := by
  refine (Means.bind (H := fun o b e => ∃ a, o = some a ∧ H a b e) hm ?_).congr fun b e => ⟨?_, ?_⟩
  · rintro _ e ⟨a, rfl, given⟩
    exact (hf a e given).congr fun b e => ⟨fun h => ⟨a, rfl, h⟩, fun ⟨_, eq, h⟩ => Option.some.inj eq ▸ h⟩
  · rintro ⟨_, e₁, e₂, ⟨a, rfl, given⟩, ⟨_, eq, given'⟩, rfl⟩
    cases eq
    exact ⟨a, e₁, e₂, given, given', rfl⟩
  · rintro ⟨a, e₁, e₂, given, given', rfl⟩
    exact ⟨some a, e₁, e₂, ⟨a, rfl, given⟩, ⟨a, rfl, given'⟩, rfl⟩

/-- The value through a function. -/
theorem map {m : Check σ ε (Option α)} {G : α → σ → Prop} (hm : Yields guard m G) (f : Option α → β) :
    Means guard (do return f (← m)) fun b e => ∃ a, b = f (some a) ∧ G a e := by
  refine (hm.then_ fun a _ _ => Means.pure (f (some a))).congr fun b e => ⟨?_, ?_⟩
  · rintro ⟨a, e₁, _, given, ⟨rfl, rfl⟩, rfl⟩
    exact ⟨a, rfl, by rwa [mul_one]⟩
  · rintro ⟨a, rfl, given⟩
    exact ⟨a, e, 1, given, ⟨rfl, rfl⟩, (mul_one e).symm⟩

end Yields

/-- What a loop gives and appends: element by element, in order. -/
inductive Each (G : Nat → α → β → σ → Prop) : Nat → List α → List β → σ → Prop where
  | nil (i : Nat) : Each G i [] [] 1
  | cons {i : Nat} {a : α} {l : List α} {b : β} {bs : List β} {e e' : σ} (first : G i a b e) (rest : Each G (i + 1) l bs e') :
    Each G i (a :: l) (b :: bs) (e * e')

theorem Means.each_mem {f : Nat → α → Check σ ε β} {G : Nat → α → β → σ → Prop} {l : List α}
    (hf : ∀ i, ∀ a ∈ l, Means guard (f i a) (G i a)) (i : Nat) : Means guard (Check.each f i l) (Each G i l) := by
  induction l generalizing i with
  | nil =>
    refine (Means.pure []).congr fun bs e => ⟨?_, ?_⟩
    · rintro ⟨rfl, rfl⟩
      exact .nil i
    · rintro ⟨⟩
      exact ⟨rfl, rfl⟩
  | cons a l ih =>
    obtain ⟨here, there⟩ := forall_and.mp fun i => List.forall_mem_cons.mp (hf i)
    refine ((here i).bind fun b _ _ => (ih there (i + 1)).bind fun bs _ _ => Means.pure (b :: bs)).congr fun bs e => ⟨?_, ?_⟩
    · rintro ⟨b, e₁, _, first, ⟨bs, e₂, _, rest, ⟨rfl, rfl⟩, rfl⟩, rfl⟩
      rw [mul_one]
      exact .cons first rest
    · intro given
      cases given with
      | cons first rest => exact ⟨_, _, _, first, ⟨_, _, _, rest, ⟨rfl, rfl⟩, rfl⟩, by rw [mul_one]⟩

theorem Means.each {f : Nat → α → Check σ ε β} {G : Nat → α → β → σ → Prop} (hf : ∀ i a, Means guard (f i a) (G i a)) (i : Nat)
    (l : List α) : Means guard (Check.each f i l) (Each G i l) := Means.each_mem (fun i a _ => hf i a) i

/-- A loop that ends early reports an error where it does. -/
theorem Means.whileSome_mem {f : Nat → α → Check σ ε (Option β)} {G : Nat → α → β → σ → Prop} {l : List α}
    (hf : ∀ i, ∀ a ∈ l, Yields guard (f i a) (G i a)) (i : Nat) : Means guard (Check.whileSome f i l) (Each G i l) := by
  induction l generalizing i with
  | nil =>
    refine (Means.pure []).congr fun bs e => ⟨?_, ?_⟩
    · rintro ⟨rfl, rfl⟩
      exact .nil i
    · rintro ⟨⟩
      exact ⟨rfl, rfl⟩
  | cons a l ih =>
    obtain ⟨here, there⟩ := forall_and.mp fun i => List.forall_mem_cons.mp (hf i)
    refine ((here i).then_ fun b _ _ => (ih there (i + 1)).bind fun bs _ _ => Means.pure (b :: bs)).congr fun bs e => ⟨?_, ?_⟩
    · rintro ⟨b, e₁, _, first, ⟨bs, e₂, _, rest, ⟨rfl, rfl⟩, rfl⟩, rfl⟩
      rw [mul_one]
      exact .cons first rest
    · intro given
      cases given with
      | cons first rest => exact ⟨_, _, _, first, ⟨_, _, _, rest, ⟨rfl, rfl⟩, rfl⟩, by rw [mul_one]⟩

theorem Means.whileSome {f : Nat → α → Check σ ε (Option β)} {G : Nat → α → β → σ → Prop} (hf : ∀ i a, Yields guard (f i a) (G i a))
    (i : Nat) (l : List α) : Means guard (Check.whileSome f i l) (Each G i l) := Means.whileSome_mem (fun i a _ => hf i a) i

namespace Each
variable {G : Nat → α → β → σ → Prop} {i : Nat} {l : List α} {bs : List β} {e : σ}

/-- Steps that give something each. -/
theorem some_iff {os : List (Option β)} : Each (fun i a o e => ∃ b, o = some b ∧ G i a b e) i l os e ↔ ∃ bs, os = bs.map some ∧ Each G i l bs e := by
  constructor
  · intro h
    induction h with
    | nil i => exact ⟨[], rfl, .nil i⟩
    | cons first _ ih =>
      obtain ⟨b, rfl, first⟩ := first
      obtain ⟨bs, rfl, rest⟩ := ih
      exact ⟨b :: bs, rfl, .cons first rest⟩
  · rintro ⟨bs, rfl, h⟩
    induction h with
    | nil i => exact .nil i
    | cons first _ ih => exact .cons ⟨_, rfl, first⟩ ih

theorem length (h : Each G i l bs e) : bs.length = l.length := by
  induction h with
  | nil => rfl
  | cons _ _ ih => rw [List.length_cons, List.length_cons, ih]

/-- Each element was given its own result. -/
theorem get (h : Each G i l bs e) {n : Nat} {a : α} {b : β} (ha : l[n]? = some a) (hb : bs[n]? = some b) :
    ∃ e', G (i + n) a b e' := by
  induction h generalizing n with
  | nil => simp at ha
  | cons first rest ih =>
    cases n with
    | zero =>
      obtain rfl : _ = a := by simpa using ha
      obtain rfl : _ = b := by simpa using hb
      exact ⟨_, first⟩
    | succ n =>
      obtain ⟨e', he⟩ := ih (n := n) (by simpa using ha) (by simpa using hb)
      exact ⟨e', by rwa [Nat.add_comm n 1, ← Nat.add_assoc]⟩

theorem exists_get (h : Each G i l bs e) {n : Nat} {b : β} (hb : bs[n]? = some b) : ∃ a e', l[n]? = some a ∧ G (i + n) a b e' := by
  have inside : n < l.length := by
    rw [← h.length]
    exact (List.getElem?_eq_some_iff.mp hb).1
  have ha := List.getElem?_eq_getElem inside
  obtain ⟨e', he⟩ := h.get ha hb
  exact ⟨_, e', ha, he⟩

/-- What a measure of what is appended tells of what is given. -/
theorem flatMap {γ : Type} (measure : σ → List γ) {g : β → List γ} (one : measure 1 = []) (mul : ∀ e e', measure (e * e') = measure e ++ measure e')
    (step : ∀ i a b e, G i a b e → measure e = g b) (h : Each G i l bs e) : measure e = bs.flatMap g := by
  induction h with
  | nil => exact one
  | cons first _ ih => rw [mul, step _ _ _ _ first, ih, List.flatMap_cons]

end Each

end Check

end Checked
