import Railroad.Proofs.Diagram.Quoting

/-!
# Reading specifications

A diagram is known from its specification.  Every node begins with the name of its kind and a
parenthesis, and what stands inside ends where the closing parenthesis is: a closed label ends at
its quote, a number in front of a comma or the parenthesis, and a list of nodes where no comma
follows.
-/

namespace Railroad

namespace Diagram

/-- All labels of the diagram are closed. -/
def Closed (diagram : Diagram) : Prop := ∀ label ∈ diagram.labels, Label.Closed label

instance (diagram : Diagram) : Decidable diagram.Closed :=
  inferInstanceAs (Decidable (∀ label ∈ diagram.labels, Label.Closed label))

def AllClosed (diagrams : List Diagram) : Prop := ∀ label ∈ labelsAll diagrams, Label.Closed label

theorem allClosed_cons {diagram : Diagram} {rest : List Diagram} :
    AllClosed (diagram :: rest) ↔ diagram.Closed ∧ AllClosed rest := by
  rw [AllClosed, labelsAll_cons]
  exact List.forall_mem_append

/-- What stands between the parentheses of a node. -/
def insideText : Diagram → String
  | sequence items => itemsText items
  | choice selected branches => toString selected ++ branchesText branches
  | optional item | zeroOrMore item | oneOrMore item => item.nodeText
  | terminal label | nonTerminal label | comment label => "'" ++ label ++ "'"

theorem nodeText_toList (diagram : Diagram) : diagram.nodeText.toList =
    diagram.kindName.toList ++ '(' :: (diagram.insideText.toList ++ [')']) := by
  cases diagram <;>
    simp only [nodeText, kindName, insideText, String.toList_append, List.append_assoc] <;> rfl

theorem kindName_free (diagram : Diagram) : '(' ∉ diagram.kindName.toList := by
  cases diagram <;> (simp only [kindName]; decide)

/-- No node begins like the end of a list. -/
theorem nodeText_cons (diagram : Diagram) :
    ∃ c rest, diagram.nodeText.toList = c :: rest ∧ c ≠ ')' := by
  obtain ⟨c, more, spelled, notEnd⟩ :
      ∃ c more, diagram.kindName.toList = c :: more ∧ c ≠ ')' := by
    cases diagram <;> (simp only [kindName]; refine ⟨_, _, rfl, ?_⟩; decide)
  exact ⟨c, _, by rw [nodeText_toList, spelled, List.cons_append], notEnd⟩

/-- The kind of a node is known from its text, and so is the text inside it. -/
theorem nodeText_inside {first second : Diagram} {rest other : List Char}
    (same : first.nodeText.toList ++ rest = second.nodeText.toList ++ other) :
    first.kindName = second.kindName ∧
      first.insideText.toList ++ ')' :: rest = second.insideText.toList ++ ')' :: other := by
  simp only [nodeText_toList, List.append_assoc, List.cons_append, List.nil_append] at same
  obtain ⟨kinds, inside⟩ := append_cons_inj same first.kindName_free second.kindName_free
  exact ⟨String.toList_inj.mp kinds, inside⟩

theorem label_inside {first second : String} (closed : Label.Closed first)
    (closedToo : Label.Closed second) {rest other : List Char}
    (inside : ("'" ++ first ++ "'").toList ++ rest = ("'" ++ second ++ "'").toList ++ other) :
    first = second ∧ rest = other := by
  simp only [String.toList_append, List.append_assoc] at inside
  exact closed.append_inj closedToo (List.cons.inj inside).2

/-- The nodes around one item. -/
inductive Wraps : (Diagram → Diagram) → Prop where
  | optional : Wraps optional
  | zeroOrMore : Wraps zeroOrMore
  | oneOrMore : Wraps oneOrMore

theorem node_inj_of_wraps {node : Diagram → Diagram} (wraps : Wraps node) {item second : Diagram}
    (itemInj : ∀ {one : Diagram} {rest other : List Char}, item.Closed → one.Closed →
      item.nodeText.toList ++ rest = one.nodeText.toList ++ other → item = one ∧ rest = other)
    {rest other : List Char} (closed : (node item).Closed) (closedToo : second.Closed)
    (same : (node item).nodeText.toList ++ rest = second.nodeText.toList ++ other) :
    node item = second ∧ rest = other := by
  obtain ⟨kinds, inside⟩ := nodeText_inside same
  have around : ∃ one, second = node one := by
    cases wraps <;> cases second <;> simp [kindName] at kinds ⊢
  have text (one : Diagram) : (node one).insideText = one.nodeText := by cases wraps <;> rfl
  have kept (one : Diagram) : (node one).Closed → one.Closed := by cases wraps <;> exact id
  obtain ⟨one, rfl⟩ := around
  rw [text, text] at inside
  obtain ⟨rfl, rests⟩ := itemInj (kept item closed) (kept one closedToo) inside
  exact ⟨rfl, (List.cons.inj rests).2⟩

/-- The leaves. -/
inductive Holds : (String → Diagram) → Prop where
  | terminal : Holds terminal
  | nonTerminal : Holds nonTerminal
  | comment : Holds comment

theorem node_inj_of_holds {node : String → Diagram} (holds : Holds node) {label : String}
    {second : Diagram} {rest other : List Char} (closed : (node label).Closed)
    (closedToo : second.Closed)
    (same : (node label).nodeText.toList ++ rest = second.nodeText.toList ++ other) :
    node label = second ∧ rest = other := by
  obtain ⟨kinds, inside⟩ := nodeText_inside same
  have leaf : ∃ one, second = node one := by
    cases holds <;> cases second <;> simp [kindName] at kinds ⊢
  have text (one : String) : (node one).insideText = "'" ++ one ++ "'" := by cases holds <;> rfl
  have kept (one : String) : (node one).Closed → Label.Closed one := by
    cases holds <;> exact List.forall_mem_singleton.mp
  obtain ⟨one, rfl⟩ := leaf
  rw [text, text] at inside
  obtain ⟨rfl, rests⟩ := label_inside (kept label closed) (kept one closedToo) inside
  exact ⟨rfl, (List.cons.inj rests).2⟩

/-- Behind the number of a choice there is a comma or the closing parenthesis. -/
theorem branchesText_stops (branches : List Diagram) (rest : List Char) :
    ∀ c ∈ ((branchesText branches).toList ++ ')' :: rest).head?, (!c.isDigit) = true := by
  cases branches with
  | nil =>
      rintro c ⟨⟩
      rfl
  | cons branch others =>
      rw [branchesText, String.toList_append, String.toList_append]
      rintro c ⟨⟩
      rfl

mutual

theorem nodeText_inj : ∀ (first : Diagram) {second : Diagram} {rest other : List Char},
    first.Closed → second.Closed →
      first.nodeText.toList ++ rest = second.nodeText.toList ++ other →
        first = second ∧ rest = other
  | .sequence items, second, rest, other, closed, closedToo, same => by
      obtain ⟨kinds, inside⟩ := nodeText_inside same
      cases second with
      | sequence others =>
          obtain ⟨rfl, rests⟩ := itemsText_inj items closed closedToo inside
          exact ⟨rfl, rests⟩
      | _ => simp [kindName] at kinds
  | .choice selected branches, second, rest, other, closed, closedToo, same => by
      obtain ⟨kinds, inside⟩ := nodeText_inside same
      cases second with
      | choice selectedToo others =>
          simp only [insideText, String.toList_append, List.append_assoc] at inside
          obtain ⟨rfl, behind⟩ := number_inj inside (branchesText_stops branches rest)
            (branchesText_stops others other)
          obtain ⟨rfl, rests⟩ := branchesText_inj branches closed closedToo behind
          exact ⟨rfl, rests⟩
      | _ => simp [kindName] at kinds
  | .optional item, _, _, _, closed, closedToo, same =>
      node_inj_of_wraps .optional (nodeText_inj item) closed closedToo same
  | .zeroOrMore item, _, _, _, closed, closedToo, same =>
      node_inj_of_wraps .zeroOrMore (nodeText_inj item) closed closedToo same
  | .oneOrMore item, _, _, _, closed, closedToo, same =>
      node_inj_of_wraps .oneOrMore (nodeText_inj item) closed closedToo same
  | .terminal _, _, _, _, closed, closedToo, same =>
      node_inj_of_holds .terminal closed closedToo same
  | .nonTerminal _, _, _, _, closed, closedToo, same =>
      node_inj_of_holds .nonTerminal closed closedToo same
  | .comment _, _, _, _, closed, closedToo, same =>
      node_inj_of_holds .comment closed closedToo same

theorem itemsText_inj : ∀ (first : List Diagram) {second : List Diagram} {rest other : List Char},
    AllClosed first → AllClosed second →
      (itemsText first).toList ++ ')' :: rest = (itemsText second).toList ++ ')' :: other →
        first = second ∧ rest = other
  | [], second, rest, other, _, _, same => by
      cases second with
      | nil => exact ⟨rfl, (List.cons.inj same).2⟩
      | cons item others =>
          obtain ⟨c, more, spelled, notEnd⟩ := item.nodeText_cons
          rw [itemsText, itemsText, String.toList_append, spelled] at same
          exact absurd (List.cons.inj same).1.symm notEnd
  | item :: rest, second, _, _, closed, closedToo, same => by
      cases second with
      | nil =>
          obtain ⟨c, more, spelled, notEnd⟩ := item.nodeText_cons
          rw [itemsText, itemsText, String.toList_append, spelled] at same
          exact absurd (List.cons.inj same).1 notEnd
      | cons one others =>
          rw [allClosed_cons] at closed closedToo
          simp only [itemsText, String.toList_append, List.append_assoc] at same
          obtain ⟨rfl, behind⟩ := nodeText_inj item closed.1 closedToo.1 same
          obtain ⟨rfl, rests⟩ := branchesText_inj rest closed.2 closedToo.2 behind
          exact ⟨rfl, rests⟩

theorem branchesText_inj : ∀ (first : List Diagram) {second : List Diagram}
    {rest other : List Char}, AllClosed first → AllClosed second →
      (branchesText first).toList ++ ')' :: rest = (branchesText second).toList ++ ')' :: other →
        first = second ∧ rest = other
  | [], second, rest, other, _, _, same => by
      cases second with
      | nil => exact ⟨rfl, (List.cons.inj same).2⟩
      | cons branch others =>
          rw [branchesText, branchesText, String.toList_append, String.toList_append] at same
          exact absurd (List.cons.inj same).1 (by decide)
  | branch :: rest, second, _, _, closed, closedToo, same => by
      cases second with
      | nil =>
          rw [branchesText, branchesText, String.toList_append, String.toList_append] at same
          exact absurd (List.cons.inj same).1 (by decide)
      | cons one others =>
          rw [allClosed_cons] at closed closedToo
          simp only [branchesText, String.toList_append, List.append_assoc] at same
          obtain ⟨rfl, behind⟩ :=
            nodeText_inj branch closed.1 closedToo.1 (List.append_cancel_left same)
          obtain ⟨rfl, rests⟩ := branchesText_inj rest closed.2 closedToo.2 behind
          exact ⟨rfl, rests⟩

end

/-- Diagrams with closed labels are equal if they have one specification. -/
theorem text_eq_iff {first second : Diagram} (closed : first.Closed) (closedToo : second.Closed) :
    first.text = second.text ↔ first = second := by
  refine ⟨fun same => ?_, congrArg text⟩
  have spelled := congrArg String.toList same
  simp only [text, String.toList_append, List.append_assoc] at spelled
  exact (nodeText_inj first closed closedToo (List.append_cancel_left spelled)).1

/-- A label may look like the end of its node and the beginning of the next one. -/
theorem text_eq_iff_disguised :
    let one := sequence [terminal "\\'), Terminal(\\'"]
    let two := sequence [terminal "\\'", terminal "\\'"]
    one.Closed ∧ two.Closed ∧ (one.text = two.text ↔ one = two) := by
  have closed : (sequence [terminal "\\'), Terminal(\\'"]).Closed := by
    simp [Closed, Label.Closed, Label.pieces]
  have closedToo : (sequence [terminal "\\'", terminal "\\'"]).Closed := by
    simp [Closed, Label.Closed, Label.pieces]
  exact ⟨closed, closedToo, text_eq_iff closed closedToo⟩

end Diagram

end Railroad
