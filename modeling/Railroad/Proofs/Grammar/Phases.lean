import Railroad.Proofs.Grammar.Tentative

/-!
# Phases of a grammar

Whether an input can end in a tentative part is seen from what its last terminals leave open.  A
phase keeps just that, and is followed from terminal to terminal.  For a form it is computed in
which phases its words can end when they begin in given ones.  Wherever a tentative part ends, the
phase is a pending one.
-/

namespace Railroad

/-- What a place is inside of. -/
inductive Surrounding where
  | free
  /-- A parenthesized set behind a tilde. -/
  | set
  /-- The header of a group. -/
  | header
  deriving DecidableEq, Repr

/-- No list is in the header of a group. -/
def Surrounding.outOfHeader : Surrounding → Surrounding
  | set => .set
  | free | header => .free

/-- What the terminals in front of a place leave open there. -/
inductive Opening where
  | nothing
  /-- A list that waits for its first item. -/
  | list
  | comma
  /-- The name of a listed item. -/
  | item
  | paren
  /-- The parenthesis behind the name of a command. -/
  | argument
  | tilde
  | catching
  /-- Any other part that can be given up here. -/
  | tentative
  deriving DecidableEq, Repr

structure Phase where
  surrounding : Surrounding
  opening : Opening
  deriving DecidableEq, Repr

namespace Phase

def start : Phase := ⟨.free, .nothing⟩

/-- The phase behind one more terminal. -/
def step (phase : Phase) : Terminal → Phase
  | .keyword .returns | .keyword .locals | .keyword .throws | .keyword .finishing =>
      ⟨.free, .tentative⟩
  | .keyword .catching => ⟨.free, .catching⟩
  | .keyword .importing | .mark .arrow => ⟨.free, .list⟩
  | .mark .less => ⟨phase.surrounding.outOfHeader, .list⟩
  | .mark .comma => ⟨phase.surrounding.outOfHeader, .comma⟩
  | .mark .doubleColon => ⟨phase.surrounding, .tentative⟩
  | .mark .tilde => ⟨.free, .tilde⟩
  | .mark .openParen =>
      -- of a command's argument, of a set or of a group
      match phase.opening with
      | .item => ⟨.free, .argument⟩
      | .tilde => ⟨.set, .paren⟩
      | _ => ⟨.free, .paren⟩
  | .mark .closeParen | .mark .colon | .mark .semicolon => ⟨.free, .nothing⟩
  | .mark .bar =>
      ⟨phase.surrounding, if phase.surrounding = .set then .tentative else .nothing⟩
  | .mark .equals => ⟨phase.surrounding, if phase.opening = .item then .tentative else .nothing⟩
  | .keyword .options | .mark .atSign =>
      -- right behind a parenthesis they begin a header; the parenthesis is then that of a group
      match phase.opening with
      | .paren | .argument => ⟨.header, .nothing⟩
      | _ => ⟨phase.surrounding, .nothing⟩
  | .name | .keyword .mode =>
      match phase.opening with
      | .list | .comma => ⟨phase.surrounding, .item⟩
      | .argument => ⟨phase.surrounding, .tentative⟩
      | _ => ⟨phase.surrounding, .nothing⟩
  | .integer => ⟨phase.surrounding, if phase.opening = .argument then .tentative else .nothing⟩
  | .charSet => ⟨phase.surrounding, if phase.opening = .catching then .tentative else .nothing⟩
  | .action =>
      ⟨phase.surrounding, if phase.surrounding = .header then .tentative else .nothing⟩
  | _ => ⟨phase.surrounding, .nothing⟩

/-- The phase behind all these terminals. -/
def run (phase : Phase) (word : List Terminal) : Phase := word.foldl step phase

theorem run_append (phase : Phase) (front back : List Terminal) :
    phase.run (front ++ back) = (phase.run front).run back := List.foldl_append

/-- An input that ends here ends in a tentative part. -/
def pending (phase : Phase) : Bool :=
  match phase.opening with
  | .comma | .argument | .catching | .tentative => true
  | .nothing | .list | .item | .paren | .tilde => false

def all : List Phase :=
  [.free, .set, .header].flatMap fun surrounding =>
    [.nothing, .list, .comma, .item, .paren, .argument, .tilde, .catching, .tentative].map
      fun opening => ⟨surrounding, opening⟩

theorem mem_all (phase : Phase) : phase ∈ all := by
  obtain ⟨surrounding, opening⟩ := phase
  cases surrounding <;> cases opening <;> decide

end Phase

/-- Phases in which words of a notion begin. -/
def Notion.entries : Notion → List Phase
  | file | prequel | mode | rule => [⟨.free, .nothing⟩]
  | alternatives | alternative | element | block | atom => [⟨.free, .nothing⟩, ⟨.free, .paren⟩]
  | namedAction => [
      ⟨.free, .nothing⟩, ⟨.free, .item⟩, ⟨.free, .paren⟩, ⟨.free, .argument⟩, ⟨.set, .paren⟩,
      ⟨.header, .tentative⟩]
  | elementOptions => [⟨.free, .nothing⟩, ⟨.free, .paren⟩, ⟨.set, .nothing⟩]
  | setElement => [⟨.free, .tilde⟩, ⟨.set, .paren⟩, ⟨.set, .tentative⟩]
  | command => [⟨.free, .list⟩, ⟨.free, .comma⟩]
  | elementOption | delegate => [
      ⟨.free, .list⟩, ⟨.free, .comma⟩, ⟨.set, .list⟩, ⟨.set, .comma⟩]
  | actionName => [
      ⟨.free, .nothing⟩, ⟨.free, .tentative⟩, ⟨.set, .nothing⟩, ⟨.set, .tentative⟩,
      ⟨.header, .nothing⟩, ⟨.header, .tentative⟩]

/-- Phases in which words of a notion end that begin in the given one. -/
def Notion.exits (notion : Notion) (phase : Phase) : List Phase :=
  match notion with
  | file | prequel | mode | rule | element | block | atom => [⟨.free, .nothing⟩]
  | alternatives | alternative => [⟨.free, .nothing⟩, ⟨.free, .paren⟩, ⟨.free, .item⟩]
  | namedAction =>
      match phase.opening with
      | .nothing | .item => [⟨.free, .nothing⟩]
      | _ => [⟨.header, .tentative⟩]
  | command | elementOption | delegate =>
      [⟨phase.surrounding, .item⟩, ⟨phase.surrounding, .nothing⟩]
  | elementOptions | setElement | actionName => [⟨phase.surrounding, .nothing⟩]

/-- All phases in which words of the form can end that begin in one of these, if it is known. -/
def Form.reach : Form → List Phase → Option (List Phase)
  | empty, phases => some phases
  | terminal only, phases => some (phases.map (·.step only))
  | notion part, phases =>
      if phases ⊆ part.entries then some (phases.flatMap part.exits).dedup else none
  | both first second, phases => (first.reach phases).bind second.reach
  | either first second, phases => do
      let left ← first.reach phases
      let right ← second.reach phases
      pure (left ∪ right)
  | optional form, phases => (form.reach phases).map (phases ∪ ·)
  | many form, phases => do
      let once ← form.reach phases
      let wider := once ∪ phases
      -- for the phases of grammars a second round finds nothing new
      let again ← form.reach wider
      if again ⊆ wider then pure wider else none

/-- Words that begin in phases of the first list end in phases of the second. -/
def Form.leads (form : Form) (phases ends : List Phase) : Bool :=
  match form.reach phases with
  | some found => decide (found ⊆ ends)
  | none => false

theorem Form.leads_iff {form : Form} {phases ends : List Phase} :
    form.leads phases ends = true ↔ ∃ found, form.reach phases = some found ∧ found ⊆ ends := by
  rw [leads]
  cases form.reach phases <;> simp

theorem Notion.leads_form (notion : Notion) :
    ∀ phase ∈ notion.entries, notion.form.leads [phase] (notion.exits phase) = true := by
  cases notion <;> decide +kernel

namespace Form

theorem reach_either {first second : Form} {phases found : List Phase}
    (reached : (either first second).reach phases = some found) :
    ∃ left, first.reach phases = some left ∧ ∃ right, second.reach phases = some right ∧
      left ∪ right = found := by
  simpa [reach, Option.bind_eq_some_iff] using reached

theorem reach_many {form : Form} {phases found : List Phase}
    (reached : (many form).reach phases = some found) :
    phases ⊆ found ∧ ∃ again, form.reach found = some again ∧ again ⊆ found := by
  simp only [reach, Option.bind_eq_bind, Option.bind_eq_some_iff] at reached
  obtain ⟨once, -, again, reachedAgain, closed⟩ := reached
  split at closed
  next within =>
    cases closed
    exact ⟨fun _ => List.mem_union_right _, again, reachedAgain, within⟩
  next => cases closed

theorem reach_many_of_closed {form : Form} {phases again : List Phase}
    (reached : form.reach phases = some again) (closed : again ⊆ phases) :
    (many form).reach phases = some phases := by
  simp only [reach, reached, Option.bind_eq_bind, Option.bind_some,
    List.Subset.union_eq_right closed, if_pos closed]
  rfl

/-- What is computed holds of all words. -/
theorem run_mem_of_reach {form : Form} {word : List Terminal} (derives : Derives form word)
    {phases found : List Phase} (reached : form.reach phases = some found) {phase : Phase}
    (member : phase ∈ phases) : phase.run word ∈ found := by
  induction derives generalizing phases found phase with
  | empty =>
      cases reached
      exact member
  | terminal only =>
      cases reached
      exact List.mem_map_of_mem member
  | @notion part word _ ih =>
      rw [reach] at reached
      split at reached
      next within =>
        cases reached
        obtain ⟨inside, reached, sub⟩ := leads_iff.mp (part.leads_form phase (within member))
        exact List.mem_dedup.mpr (List.mem_flatMap.mpr
          ⟨phase, member, sub (ih reached (List.mem_singleton_self phase))⟩)
      next => cases reached
  | both _ _ headIH tailIH =>
      obtain ⟨middle, reachedFirst, reachedSecond⟩ := Option.bind_eq_some_iff.mp reached
      rw [Phase.run_append]
      exact tailIH reachedSecond (headIH reachedFirst member)
  | left _ ih =>
      obtain ⟨left, reachedLeft, right, -, rfl⟩ := reach_either reached
      exact List.mem_union_left (ih reachedLeft member) _
  | right _ ih =>
      obtain ⟨left, -, right, reachedRight, rfl⟩ := reach_either reached
      exact List.mem_union_right _ (ih reachedRight member)
  | absent =>
      obtain ⟨once, -, rfl⟩ := Option.map_eq_some_iff.mp reached
      exact List.mem_union_left member _
  | present _ ih =>
      obtain ⟨once, reachedOnce, rfl⟩ := Option.map_eq_some_iff.mp reached
      exact List.mem_union_right _ (ih reachedOnce member)
  | done => exact (reach_many reached).1 member
  | again _ _ headIH tailIH =>
      obtain ⟨wider, again, reachedAgain, closed⟩ := reach_many reached
      rw [Phase.run_append]
      exact tailIH (reach_many_of_closed reachedAgain closed)
        (closed (headIH reachedAgain (wider member)))

theorem run_mem_of_leads {form : Form} {phases ends : List Phase}
    (leads : form.leads phases ends = true) {phase : Phase} (member : phase ∈ phases)
    {word : List Terminal} (derives : Derives form word) : phase.run word ∈ ends := by
  obtain ⟨found, reached, within⟩ := leads_iff.mp leads
  exact within (run_mem_of_reach derives reached member)

theorem tentative_leads :
    ∀ form ∈ tentative, form.leads Phase.all (Phase.all.filter Phase.pending) = true := by
  decide +kernel

/-- Wherever a tentative part ends, something is pending. -/
theorem pending_of_mem_endings {word : List Terminal} (ends : word ∈ endings tentative)
    (phase : Phase) : (phase.run word).pending = true := by
  obtain ⟨form, listed, front, back, rfl, derives⟩ := ends
  rw [Phase.run_append]
  have before := Phase.mem_all (phase.run front)
  have last := run_mem_of_leads (tentative_leads form listed) before derives
  exact (List.mem_filter.mp last).2

end Form

end Railroad
