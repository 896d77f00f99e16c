import Tgin.Rules.Schedule

/-! What a set of rule specs means: the first rule of the source whose conditions all hold, and the consumers its
    target expression denotes. A split has a counter of the tickets it gave out, found by its source, its rule
    and the child positions on the way to it. -/

namespace Tgin.Rules

/-- The tickets given out so far at each place of a target expression. -/
abbrev Tickets := List Nat → Nat

namespace Tickets

/-- The tickets of the expression's child `i`. -/
def child (tickets : Tickets) (i : Nat) : Tickets := fun path => tickets (i :: path)

def setChild (tickets : Tickets) (i : Nat) (sub : Tickets) : Tickets
  | [] => tickets []
  | j :: path => if j = i then sub path else tickets (j :: path)

def setHead (tickets : Tickets) (n : Nat) : Tickets
  | [] => n
  | i :: path => tickets (i :: path)

@[simp] theorem child_setChild_same (tickets : Tickets) (i : Nat) (sub : Tickets) : (tickets.setChild i sub).child i = sub := by
  funext path
  simp [child, setChild]

theorem child_setChild_of_ne (tickets : Tickets) {i j : Nat} (h : j ≠ i) (sub : Tickets) :
    (tickets.setChild i sub).child j = tickets.child j := by
  funext path
  simp [child, setChild, h]

theorem child_setChild_child (tickets : Tickets) (i j : Nat) : (tickets.setChild i (tickets.child i)).child j = tickets.child j := by
  by_cases h : j = i
  · rw [h, child_setChild_same]
  · exact child_setChild_of_ne _ h _

@[simp] theorem child_setHead (tickets : Tickets) (n i : Nat) : (tickets.setHead n).child i = tickets.child i := rfl

end Tickets

/-- The child a split among `children` selects for a chat's key or by its next ticket, the key for that child and
    the tickets given out then. A hash split uses the key in mixed radix. -/
def SplitStrategy.select (strategy : SplitStrategy) (weights : List UInt32) (children : Nat) (key : Option Nat)
    (ticket : Nat) : Nat × Option Nat × Nat :=
  match strategy, key with
  | .hashChat, some key => (key % children, some (key / children), ticket)
  | .hashChat, none | .roundRobin, _ => (ticket % children, key, wrappingAdd ticket 1)
  | .weighted, _ => (weightedChild weights ticket, key, wrappingAdd ticket 1)

namespace TargetSpec

mutual

/-- The consumers a target expression denotes, with repetitions, and the tickets given out then. -/
def denote : TargetSpec → Option Nat → Tickets → List ConsumerId × Tickets
  | .consumer id, _, tickets => ([id], tickets)
  | .all children, key, tickets => denoteAll 0 children key tickets
  | .split strategy among weights, key, tickets =>
    let (i, childKey, ticket) := strategy.select weights among.length key (tickets [])
    let (ids, sub) := denoteNth among i childKey (tickets.child i)
    (ids, (tickets.setHead ticket).setChild i sub)

/-- Every child in order, the first of them being child `i`. -/
def denoteAll : Nat → List TargetSpec → Option Nat → Tickets → List ConsumerId × Tickets
  | _, [], _, tickets => ([], tickets)
  | i, spec :: specs, key, tickets =>
    let (ids, sub) := denote spec key (tickets.child i)
    let (rest, tickets) := denoteAll (i + 1) specs key (tickets.setChild i sub)
    (ids ++ rest, tickets)

def denoteNth : List TargetSpec → Nat → Option Nat → Tickets → List ConsumerId × Tickets
  | [], _, _, tickets => ([], tickets)
  | spec :: _, 0, key, tickets => denote spec key tickets
  | _ :: specs, i + 1, key, tickets => denoteNth specs i key tickets

end

theorem denoteNth_eq {specs : List TargetSpec} {i : Nat} {spec : TargetSpec} (h : specs[i]? = some spec) (key : Option Nat)
    (tickets : Tickets) : denoteNth specs i key tickets = denote spec key tickets := by
  induction specs generalizing i with
  | nil => cases h
  | cons s specs ih =>
    cases i with
    | zero =>
      cases h
      rfl
    | succ i => exact ih h

theorem denoteNth_none {specs : List TargetSpec} {i : Nat} (h : specs[i]? = none) (key : Option Nat) (tickets : Tickets) :
    denoteNth specs i key tickets = ([], tickets) := by
  induction specs generalizing i with
  | nil => rfl
  | cons s specs ih =>
    cases i with
    | zero => cases h
    | succ i => exact ih h

/-- Induction over target expressions: a property of the children gives it of the expression. -/
theorem induction {P : TargetSpec → Prop} (consumer : ∀ id, P (.consumer id))
    (all : ∀ children, (∀ c ∈ children, P c) → P (.all children))
    (split : ∀ strategy among weights, (∀ c ∈ among, P c) → P (.split strategy among weights)) (spec : TargetSpec) :
    P spec := by
  refine @TargetSpec.rec P (fun specs => ∀ c ∈ specs, P c) consumer all split ?_ ?_ spec
  · simp
  · rintro spec specs h hs c hc
    rcases List.mem_cons.mp hc with rfl | hc
    · exact h
    · exact hs c hc

end TargetSpec

/-- The target expression of a rule: its one target, or all of them. -/
def RuleSpec.target (spec : RuleSpec) : TargetSpec :=
  match spec.targets with
  | [single] => single
  | many => .all many

/-! ### Conditions -/

section
variable (isMatch : Str → Str → Bool)

def TextMatch.holds (tm : TextMatch) (text : Str) : Bool :=
  match tm with
  | .prefixes list => list.any (·.isPrefixOf text)
  | .regex list => list.any (isMatch · text)
  | .equals list => list.contains text

/-- Whether a command is one of `commands`, and its `@bot` suffix, if any, names the bot. -/
def commandHolds (commands : List Str) (username : Option Str) (command : Str × Option Str) : Bool :=
  command.2.all (fun bot => username.any (·.eqIgnoreAsciiCase bot)) &&
    commands.any fun cmd => (cmd.stripPrefix slash).eqIgnoreAsciiCase command.1

/-- Whether every condition given holds; an absent fact satisfies none. -/
def Predicates.hold (p : Predicates) (username : Option Str) (facts : Facts) : Bool :=
  (p.updateTypes.isEmpty || p.updateTypes.contains facts.updateType) &&
  (p.chatIds.isEmpty || facts.chatId.any p.chatIds.contains) &&
  (p.chatTypes.isEmpty || facts.chatType.any p.chatTypes.contains) &&
  (p.userIds.isEmpty || facts.userId.any p.userIds.contains) &&
  (p.commands.isEmpty || facts.command.any (commandHolds p.commands username)) &&
  p.text.all (fun tm => facts.text.any (tm.holds isMatch)) &&
  p.callbackData.all (fun tm => facts.callbackData.any (tm.holds isMatch))

/-! ### Routing -/

/-- The tickets of every rule of every source. -/
abbrev AllTickets := SourceId → Nat → Tickets

/-- No split has given out a ticket. -/
def AllTickets.zero : AllTickets := fun _ _ _ => 0

def usernameOf (botUsernames : List (SourceId × Option Str)) (source : SourceId) : Option Str :=
  (botUsernames.find? (·.1 = source)).bind (·.2) |>.map (·.stripPrefix atSign)

/-- The number of the rule an update falls under and the consumers it goes to, each once. -/
def interpret (rules : List (SourceId × List RuleSpec)) (botUsernames : List (SourceId × Option Str))
    (source : SourceId) (facts : Facts) (tickets : AllTickets) : (Option Nat × List ConsumerId) × AllTickets :=
  match rules.find? (·.1 = source) with
  | none => ((none, []), tickets)
  | some (_, specs) =>
    let hold := fun spec : RuleSpec => spec.predicates.hold isMatch (usernameOf botUsernames source) facts
    match specs.findIdx? hold, specs.find? hold with
    | some i, some spec =>
      let (ids, sub) := spec.target.denote facts.orderingKey (tickets source i)
      ((some i, ids.eraseDups), Function.update tickets source (Function.update (tickets source) i sub))
    | _, _ => ((none, []), tickets)

end

end Tgin.Rules
