import Tgin.Limit.Calendar

/-! Whose booking each slot of a calendar is. A slot does not say, so a booking already folded that is cancelled
    takes out another's slot at the same instant, and the calendar then books that instant once too often.
    `run_withinQuota` says that in the runs where this does not happen the calendar keeps its quota. -/

namespace Tgin.Limit

/-- A booking granted, with a number of its own. -/
structure Ticket where
  id : Nat
  booking : Booking
  deriving DecidableEq, Repr

/-- A slot calendar and what became of the bookings it granted. -/
structure Ledger where
  calendar : SlotCalendar
  granted : List Ticket
  /-- Whose slot each slot of the calendar is. -/
  owners : List Ticket
  folded : List Ticket
  cancelled : List Ticket
  deriving DecidableEq, Repr

namespace Ledger

inductive Op where
  | acquire (now : Instant) (source maxDelay : Duration)
  | retainRecent (now : Instant)
  | cancel (ticket : Ticket)
  deriving DecidableEq, Repr

def instants (tickets : List Ticket) : List Instant := tickets.map (·.booking.at)

def new (calendar : SlotCalendar) : Ledger :=
  { calendar, granted := [], owners := [], folded := [], cancelled := [] }

/-- Granted and not cancelled yet. -/
def pending (l : Ledger) (ticket : Ticket) : Bool := ticket ∈ l.granted && ticket ∉ l.cancelled

/-- The first `n` slots have been folded. -/
def fold (l : Ledger) (n : Nat) : Ledger := { l with owners := l.owners.drop n, folded := l.folded ++ l.owners.take n }

/-- A booking is cancelled once at most, and only after it was granted. -/
def step (op : Op) (l : Ledger) : Ledger :=
  match op with
  | .acquire now source maxDelay =>
    match l.calendar.acquire now source maxDelay with
    | (.error _, calendar) => { l.fold (l.calendar.len - calendar.len) with calendar }
    | (.ok booking, calendar) =>
      let l := l.fold (l.calendar.len + 1 - calendar.len)
      let ticket : Ticket := { id := l.granted.length, booking }
      let index := partitionPoint (instants l.owners) (· ≤ booking.at)
      { l with calendar, granted := l.granted ++ [ticket], owners := l.owners.insertIdx index ticket }
  | .retainRecent now =>
    let calendar := l.calendar.retainRecent now
    { l.fold (l.calendar.len - calendar.len) with calendar }
  | .cancel ticket =>
    if l.pending ticket then
      -- Without a slot of its own it takes out the first one at its instant.
      let index := (instants l.owners).idxOf ticket.booking.at
      { l with
        calendar := l.calendar.cancel ticket.booking
        owners := if ticket ∈ l.owners then l.owners.erase ticket else l.owners.eraseIdx index
        cancelled := ticket :: l.cancelled }
    else l

def run (l : Ledger) (ops : List Op) : Ledger := ops.foldl (fun l op => l.step op) l

/-- The bookings granted and not cancelled, and those folded before they were cancelled. -/
def kept (l : Ledger) : List Ticket := l.granted.filter fun ticket => ticket ∉ l.cancelled || ticket ∈ l.folded

def WithinQuota (l : Ledger) (burst : NonZeroU32) : Prop :=
  Gcra.Spaced l.calendar.quota.interval burst.1 (instants l.kept)

/-- A cancelled booking still has its slot, or no slot stands at its instant. -/
def Harmless (l : Ledger) : Op → Prop
  | .acquire .. | .retainRecent _ => True
  | .cancel ticket => l.pending ticket → ticket ∈ l.owners ∨ ticket.booking.at ∉ l.calendar.state.slots

/-- Every operation of the run is harmless where it happens. -/
def AllHarmless : Ledger → List Op → Prop
  | _, [] => True
  | l, op :: ops => l.Harmless op ∧ AllHarmless (l.step op) ops

/-- The calendar has charged the bookings folded and those that own its slots, and these are the ones kept. -/
structure Invariant (l : Ledger) : Prop where
  charged : l.calendar.Charged (instants l.folded)
  slots : l.calendar.state.slots = instants l.owners
  ids : ∀ ticket ∈ l.granted, ticket.id < l.granted.length
  nodup : l.granted.Nodup
  known : ∀ ticket ∈ l.folded ++ l.owners, ticket ∈ l.granted
  once : (l.folded ++ l.owners).Nodup
  kept : ∀ ticket ∈ l.kept, ticket ∈ l.folded ++ l.owners
  live : ∀ ticket ∈ l.owners, ticket ∉ l.cancelled
  cancelled : ∀ ticket ∈ l.cancelled, ticket ∈ l.granted

section
variable {l : Ledger}

@[simp] theorem instants_append (ts us : List Ticket) : instants (ts ++ us) = instants ts ++ instants us := List.map_append

@[simp] theorem instants_take (ts : List Ticket) (n : Nat) : instants (ts.take n) = (instants ts).take n := List.map_take

@[simp] theorem instants_drop (ts : List Ticket) (n : Nat) : instants (ts.drop n) = (instants ts).drop n := List.map_drop

@[simp] theorem instants_insertIdx (ts : List Ticket) (n : Nat) (ticket : Ticket) :
    instants (ts.insertIdx n ticket) = (instants ts).insertIdx n ticket.booking.at := List.map_insertIdx ..

theorem mem_kept {ticket : Ticket} :
    ticket ∈ l.kept ↔ ticket ∈ l.granted ∧ (ticket ∉ l.cancelled ∨ ticket ∈ l.folded) := by
  simp [kept, List.mem_filter]

theorem invariant_new {calendar : SlotCalendar} (h : calendar.Charged []) (empty : calendar.state.slots = []) :
    Invariant (new calendar) :=
  ⟨h, empty, nofun, .nil, nofun, .nil, nofun, nofun, nofun⟩

/-- Folding moves tickets from the owners to the folded, and nothing else. -/
theorem invariant_fold (h : l.Invariant) {n : Nat} {calendar : SlotCalendar}
    (charged : calendar.Charged (instants l.folded ++ l.calendar.state.slots.take n))
    (slots : calendar.state.slots = l.calendar.state.slots.drop n) :
    Invariant { l.fold n with calendar } := by
  have same : l.folded ++ l.owners.take n ++ l.owners.drop n = l.folded ++ l.owners := by
    rw [List.append_assoc, List.take_append_drop]
  exact {
    charged := by simpa [fold, h.slots] using charged
    slots := by simpa [fold, h.slots] using slots
    ids := h.ids
    nodup := h.nodup
    known := fun ticket ht => h.known ticket (same ▸ ht)
    once := same ▸ h.once
    kept := fun ticket ht => by
      obtain ⟨hg, hk⟩ := mem_kept.mp ht
      show ticket ∈ l.folded ++ l.owners.take n ++ l.owners.drop n
      rcases hk with hk | hk
      · exact same ▸ h.kept ticket (mem_kept.mpr ⟨hg, .inl hk⟩)
      · exact List.mem_append_left _ hk
    live := fun ticket ht => h.live ticket (List.mem_of_mem_drop ht)
    cancelled := h.cancelled }

/-- A new booking gets a slot. -/
theorem invariant_grant (h : l.Invariant) {booking : Booking} {calendar : SlotCalendar} {index : Nat}
    (hindex : index ≤ l.owners.length) (charged : calendar.Charged (instants l.folded))
    (slots : calendar.state.slots = l.calendar.state.slots.insertIdx index booking.at) :
    Invariant { l with
      calendar
      granted := l.granted ++ [⟨l.granted.length, booking⟩]
      owners := l.owners.insertIdx index ⟨l.granted.length, booking⟩ } := by
  set ticket : Ticket := ⟨l.granted.length, booking⟩ with hticket
  have fresh : ticket ∉ l.granted := fun hm => Nat.lt_irrefl _ (h.ids _ hm)
  have perm : (l.folded ++ l.owners.insertIdx index ticket).Perm (ticket :: (l.folded ++ l.owners)) :=
    ((List.perm_insertIdx ticket l.owners hindex).append_left _).trans List.perm_middle
  exact {
    charged
    slots := by simpa [h.slots] using slots
    ids := fun t ht => by
      rw [List.length_append, List.length_singleton]
      rcases List.mem_append.mp ht with ht | ht
      · exact Nat.lt_succ_of_lt (h.ids t ht)
      · rw [List.mem_singleton.mp ht]
        exact Nat.lt_succ_self _
    nodup := List.nodup_append.mpr ⟨h.nodup, List.nodup_singleton _, fun t ht u hu => by
      rw [List.mem_singleton.mp hu]
      rintro rfl
      exact fresh ht⟩
    known := fun t ht => by
      rcases List.mem_cons.mp (perm.mem_iff.mp ht) with rfl | ht
      · exact List.mem_append_right _ List.mem_cons_self
      · exact List.mem_append_left _ (h.known t ht)
    once := perm.nodup_iff.mpr (List.nodup_cons.mpr ⟨fun hm => fresh (h.known _ hm), h.once⟩)
    kept := fun t ht => by
      obtain ⟨hg, hk⟩ := mem_kept.mp ht
      refine perm.mem_iff.mpr (List.mem_cons.mpr ?_)
      rcases List.mem_append.mp hg with hg | hg
      · exact .inr (h.kept t (mem_kept.mpr ⟨hg, hk⟩))
      · exact .inl (List.mem_singleton.mp hg)
    live := fun t ht => by
      rcases List.mem_cons.mp ((List.perm_insertIdx ticket l.owners hindex).mem_iff.mp ht) with rfl | ht
      · exact fun hc => fresh (h.cancelled _ hc)
      · exact h.live t ht
    cancelled := fun t ht => List.mem_append_left _ (h.cancelled t ht) }

/-- Taking an owner out of sorted slots takes its instant out. -/
theorem instants_erase {owners : List Ticket} {ticket : Ticket} (sorted : (instants owners).Pairwise (· ≤ ·))
    (ht : ticket ∈ owners) : instants (owners.erase ticket) = (instants owners).erase ticket.booking.at := by
  have hm : ticket.booking.at ∈ instants owners := List.mem_map_of_mem ht
  have perm : (instants (owners.erase ticket)).Perm ((instants owners).erase ticket.booking.at) := by
    refine List.Perm.cons_inv (a := ticket.booking.at) ?_
    exact ((List.perm_cons_erase ht).map _).symm.trans (List.perm_cons_erase hm)
  refine perm.eq_of_pairwise (fun a b _ _ => Nat.le_antisymm (m := b) (n := a)) ?_ (sorted.sublist List.erase_sublist)
  exact sorted.sublist ((List.erase_sublist (a := ticket) (l := owners)).map _)

theorem invariant_cancel (h : l.Invariant) {ticket : Ticket} (hg : ticket ∈ l.granted)
    (harmless : ticket ∈ l.owners ∨ ticket.booking.at ∉ l.calendar.state.slots) :
    Invariant { l with
      calendar := l.calendar.cancel ticket.booking
      owners := if ticket ∈ l.owners then l.owners.erase ticket
        else l.owners.eraseIdx ((instants l.owners).idxOf ticket.booking.at)
      cancelled := ticket :: l.cancelled } := by
  have sorted := h.charged.state.sorted
  have owners : (if ticket ∈ l.owners then l.owners.erase ticket
      else l.owners.eraseIdx ((instants l.owners).idxOf ticket.booking.at)) = l.owners.erase ticket := by
    split
    · rfl
    · rename_i gone
      have free : ticket.booking.at ∉ instants l.owners := h.slots ▸ harmless.resolve_left gone
      rw [List.idxOf_eq_length free, List.erase_of_not_mem gone, List.eraseIdx_of_length_le (by simp [instants])]
  have slots : (l.calendar.cancel ticket.booking).state.slots = instants (l.owners.erase ticket) := by
    rw [SlotCalendar.cancel_eq sorted, h.slots]
    by_cases hm : ticket ∈ l.owners
    · exact (instants_erase (h.slots ▸ sorted) hm).symm
    · have free : ticket.booking.at ∉ instants l.owners := h.slots ▸ harmless.resolve_left hm
      exact (List.erase_of_not_mem free).trans (congrArg instants (List.erase_of_not_mem hm).symm)
  have nodup : l.owners.Nodup := (List.nodup_append.mp h.once).2.1
  have sub : (l.folded ++ l.owners.erase ticket).Sublist (l.folded ++ l.owners) := List.erase_sublist.append_left _
  rw [owners]
  exact {
    charged := SlotCalendar.cancel_charged h.charged _
    slots
    ids := h.ids
    nodup := h.nodup
    known := fun t ht => h.known t (sub.subset ht)
    once := h.once.sublist sub
    kept := fun t ht => by
      obtain ⟨hg, hk⟩ := mem_kept.mp ht
      rcases hk with hk | hk
      · obtain ⟨hne, hc⟩ := not_or.mp (fun hc => hk (List.mem_cons.mpr hc))
        rcases List.mem_append.mp (h.kept t (mem_kept.mpr ⟨hg, .inl hc⟩)) with hm | hm
        · exact List.mem_append_left _ hm
        · exact List.mem_append_right _ ((List.mem_erase_of_ne hne).mpr hm)
      · exact List.mem_append_left _ hk
    live := fun t ht hc => by
      obtain ⟨hne, hm⟩ := nodup.mem_erase_iff.mp ht
      exact h.live t hm ((List.mem_cons.mp hc).resolve_left hne)
    cancelled := List.forall_mem_cons.mpr ⟨hg, h.cancelled⟩ }

theorem invariant_step (h : l.Invariant) {op : Op} (harmless : l.Harmless op) : Invariant (l.step op) := by
  cases op with
  | acquire now source maxDelay =>
    obtain ⟨n, hn, -, -, charged, slots⟩ := SlotCalendar.acquire_charged h.charged now source maxDelay
    simp only [step]
    cases hr : l.calendar.acquire now source maxDelay with
    | mk result calendar =>
      rw [hr] at charged slots
      cases result with
      | error denied =>
        simp only [SlotCalendar.len_drop hn slots]
        exact invariant_fold h charged slots
      | ok booking =>
        obtain ⟨slots, -⟩ := slots
        simp only [SlotCalendar.len_insertIdx hn partitionPoint_le slots]
        -- The calendar after folding and before granting.
        have sub : (l.calendar.state.slots.drop n).Sublist calendar.state.slots := by
          rw [slots]
          exact sublist_insertIdx partitionPoint_le _
        have folded := invariant_fold h (SlotCalendar.charged_sublist charged sub) rfl
        refine invariant_grant folded (partitionPoint_le.trans (Nat.le_of_eq (List.length_map _))) ?_ ?_
        · simpa [fold, h.slots] using charged
        · simpa [fold, h.slots] using slots
  | retainRecent now =>
    obtain ⟨n, hn, -, slots, charged⟩ := SlotCalendar.foldBefore_charged h.charged now
    have count : l.calendar.len - (l.calendar.retainRecent now).len = n := SlotCalendar.len_drop hn slots
    simp only [step, count]
    exact invariant_fold h charged slots
  | cancel ticket =>
    simp only [step]
    split
    · rename_i pending
      exact invariant_cancel h (of_decide_eq_true (Bool.and_eq_true_iff.mp pending).1) (harmless pending)
    · exact h

theorem step_quota (h : l.Invariant) (op : Op) : (l.step op).calendar.quota = l.calendar.quota := by
  cases op with
  | acquire now source maxDelay =>
    obtain ⟨n, -, -, quota, -⟩ := SlotCalendar.acquire_charged h.charged now source maxDelay
    simp only [step]
    split <;> simp_all
  | retainRecent now => rfl
  | cancel ticket =>
    simp only [step]
    split
    · rw [SlotCalendar.cancel_eq h.charged.state.sorted]
    · rfl

/-- The kept bookings are charged, and what is charged keeps its distances. -/
theorem Invariant.withinQuota (h : l.Invariant) {burst : NonZeroU32}
    (hburst : l.calendar.quota.tolerance ≤ l.calendar.quota.interval * (burst.1 - 1)) : l.WithinQuota burst := by
  have sub : (instants l.kept).Subperm (instants l.folded ++ l.calendar.state.slots) := by
    rw [h.slots, ← instants_append]
    obtain ⟨ts, perm, sub⟩ := List.subperm_of_subset (h.nodup.filter _) h.kept
    exact ⟨instants ts, perm.map _, sub.map _⟩
  exact Gcra.spaced_of_conforms h.charged.conforms sub burst.2.1 hburst

theorem invariant_run (h : l.Invariant) {ops : List Op} (harmless : AllHarmless l ops) :
    (l.run ops).Invariant ∧ (l.run ops).calendar.quota = l.calendar.quota := by
  induction ops generalizing l with
  | nil => exact ⟨h, rfl⟩
  | cons op ops ih =>
    obtain ⟨hrest, quota⟩ := ih (invariant_step h harmless.1) harmless.2
    exact ⟨hrest, quota.trans (step_quota h op)⟩

theorem allHarmless_take {ops : List Op} (harmless : AllHarmless l ops) (n : Nat) : AllHarmless l (ops.take n) := by
  induction ops generalizing l n with
  | nil => simpa using harmless
  | cons op ops ih =>
    cases n with
    | zero => trivial
    | succ n => exact ⟨harmless.1, ih harmless.2 n⟩

end

/-- In a run whose cancelled bookings all have their slot still, or leave no slot at their instant, the
    bookings kept are within the quota in every state. -/
theorem run_withinQuota {count burst : NonZeroU32} {per : Duration} {calendar : SlotCalendar}
    (h : SlotCalendar.new count per burst = .ok calendar) (ops : List Op) (harmless : AllHarmless (new calendar) ops)
    (n : Nat) : ((new calendar).run (ops.take n)).WithinQuota burst := by
  obtain ⟨charged, empty, quota⟩ := SlotCalendar.new_charged h
  obtain ⟨inv, same⟩ := invariant_run (invariant_new charged empty) (allHarmless_take harmless n)
  refine inv.withinQuota ?_
  rw [same]
  exact Quota.new_tolerance_le quota

/-- One request a second, two at once. -/
def perSecond : SlotCalendar := { quota := { interval := 10 ^ 9, tolerance := 10 ^ 9 }, state := { floor := none, slots := [] } }

theorem perSecond_new : SlotCalendar.new ⟨1, by decide⟩ (10 ^ 9) ⟨2, by decide⟩ = .ok perSecond := rfl

/-- A booking cancelled in time leaves its instant to the next. -/
def cancelledInTime : List Op := [.acquire 0 0 0, .cancel ⟨0, ⟨0, 0⟩⟩, .acquire 0 0 0, .acquire 0 0 0]

theorem run_withinQuota_cancelled : ((new perSecond).run (cancelledInTime.take 4)).WithinQuota ⟨2, by decide⟩ :=
  run_withinQuota perSecond_new cancelledInTime ⟨trivial, fun _ => .inl (by decide), trivial, trivial, trivial⟩ 4

/-- A booking at 10 s is folded, another gets the same instant, the first is cancelled, and a third gets it too. -/
def foldedCancel : List Op :=
  [.acquire (10 * 10 ^ 9) 0 0, .retainRecent (11 * 10 ^ 9), .acquire (10 * 10 ^ 9) 0 0,
    .cancel ⟨0, ⟨0, 10 * 10 ^ 9⟩⟩, .acquire (10 * 10 ^ 9) 0 0]

theorem foldedCancel_overbooks : ¬ ∀ (count burst : NonZeroU32) per calendar, SlotCalendar.new count per burst = .ok calendar →
    ∀ (ops : List Op) n, ((new calendar).run (ops.take n)).WithinQuota burst := by
  intro h
  exact absurd (h _ _ _ _ perSecond_new foldedCancel 5 0 2 (by decide) (by decide)) (by decide)

end Ledger
end Tgin.Limit
