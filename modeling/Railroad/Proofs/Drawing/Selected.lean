import Mathlib.Data.List.Induction
import Railroad.Drawing.Svg
import Railroad.Proofs.Drawing.Sketch

/-!
# Selected branches

A selection beyond the last branch means the last one, wherever the choice stands, and a drawing
is the same when all its selections are moved within bounds.  The positions of branches are
computed outwards from the selected one; written into an array by index, one neighbour after the
other, they are the same, and no index leaves the array or the range of indices on the way.
-/

namespace Railroad

mutual

/-- The diagram with every selection moved to the last branch if it lies beyond it. -/
def Diagram.clamped : Diagram → Diagram
  | .sequence items => .sequence (Diagram.clampedAll items)
  | .choice selected branches =>
      .choice (min selected (branches.length - 1)) (Diagram.clampedAll branches)
  | .optional item => .optional item.clamped
  | .zeroOrMore item => .zeroOrMore item.clamped
  | .oneOrMore item => .oneOrMore item.clamped
  | .terminal label => .terminal label
  | .nonTerminal label => .nonTerminal label
  | .comment label => .comment label

def Diagram.clampedAll : List Diagram → List Diagram
  | [] => []
  | diagram :: rest => diagram.clamped :: Diagram.clampedAll rest

end

mutual

/-- The item with every selection moved to the last branch if it lies beyond it. -/
def Item.clamped : Item → Item
  | .skip => .skip
  | .leaf kind text => .leaf kind text
  | .sequence items => .sequence (Item.clampedAll items)
  | .choice selected branches =>
      .choice (min selected (branches.length - 1)) (Item.clampedAll branches)
  | .loop item => .loop item.clamped

def Item.clampedAll : List Item → List Item
  | [] => []
  | item :: rest => item.clamped :: Item.clampedAll rest

end

namespace Item

mutual

/-- Options and loops select a branch that they have. -/
theorem ofDiagram_clamped : ∀ diagram : Diagram, ofDiagram diagram.clamped = (ofDiagram diagram).clamped
  | .sequence items => congrArg sequence (ofDiagrams_clamped items)
  | .choice selected branches => by
      rw [Diagram.clamped, ofDiagram, ofDiagrams_clamped branches, ofDiagram, clamped,
        ofDiagrams_length]
  | .optional item => congrArg (fun item => choice 1 [skip, item]) (ofDiagram_clamped item)
  | .zeroOrMore item => congrArg (fun item => choice 1 [skip, loop item]) (ofDiagram_clamped item)
  | .oneOrMore item => congrArg loop (ofDiagram_clamped item)
  | .terminal _ | .nonTerminal _ | .comment _ => rfl

theorem ofDiagrams_clamped : ∀ diagrams : List Diagram,
    ofDiagrams (Diagram.clampedAll diagrams) = clampedAll (ofDiagrams diagrams)
  | [] => rfl
  | diagram :: rest => by
      rw [Diagram.clampedAll, ofDiagrams, ofDiagram_clamped diagram, ofDiagrams_clamped rest,
        ofDiagrams, clampedAll]

end

end Item

namespace Layout

variable {α : Type} [Scalar α] (metrics : Metrics α)

/-- Clamping a selection again changes nothing. -/
theorem branchOffsets_clamped (extents : List (Extent α)) (selected : Nat) :
    branchOffsets metrics extents (min selected (extents.length - 1)) =
      branchOffsets metrics extents selected := by
  have same : clampSelection (min selected (extents.length - 1)) extents =
      clampSelection selected extents := by
    rw [clampSelection, Nat.min_assoc, Nat.min_self, clampSelection]
  simp only [branchOffsets, same]

mutual

theorem measure_clamped : ∀ item : Item, measure metrics item.clamped = measure metrics item
  | .skip => rfl
  | .leaf .. => rfl
  | .sequence items => by rw [Item.clamped, measure, measureAll_clamped items, measure]
  | .choice selected branches => by
      have size : branches.length = (measureAll metrics branches).length :=
        (measureAll_length metrics branches).symm
      rw [Item.clamped, measure, measureAll_clamped branches, size, choiceExtent,
        branchOffsets_clamped, measure, choiceExtent]
  | .loop item => by rw [Item.clamped, measure, measure_clamped item, measure]

theorem measureAll_clamped : ∀ items : List Item,
    measureAll metrics (Item.clampedAll items) = measureAll metrics items
  | [] => rfl
  | item :: rest => by
      rw [Item.clampedAll, measureAll, measure_clamped item, measureAll_clamped rest, measureAll]

end

mutual

/-- What is drawn agrees as what is measured does. -/
theorem draw_clamped : ∀ (item : Item) (x y : α),
    draw metrics item.clamped x y = draw metrics item x y
  | .skip, _, _ => rfl
  | .leaf .., _, _ => rfl
  | .sequence items, x, y => drawSequence_clamped items x y
  | .choice selected branches, x, y => by
      have size : branches.length = (measureAll metrics branches).length :=
        (measureAll_length metrics branches).symm
      simp only [Item.clamped, draw, measureAll_clamped, drawBranches_clamped branches, size,
        branchOffsets_clamped]
  | .loop item, x, y => by
      simp only [Item.clamped, draw, measure_clamped, draw_clamped item]

theorem drawSequence_clamped : ∀ (items : List Item) (x y : α),
    drawSequence metrics (Item.clampedAll items) x y = drawSequence metrics items x y
  | [], _, _ => rfl
  | item :: rest, x, y => by
      rw [Item.clampedAll, drawSequence, measure_clamped, draw_clamped item,
        drawSequence_clamped rest, drawSequence]

theorem drawBranches_clamped : ∀ (branches : List Item) (inner : α) (offsets : List α) (x y : α),
    drawBranches metrics inner (Item.clampedAll branches) offsets x y =
      drawBranches metrics inner branches offsets x y
  | [], _, _, _, _ => rfl
  | _ :: _, _, [], _, _ => by rw [Item.clampedAll, drawBranches, drawBranches]; all_goals simp
  | branch :: rest, inner, offset :: offsets, x, y => by
      rw [Item.clampedAll, drawBranches, drawBranches, measure_clamped, draw_clamped branch,
        drawBranches_clamped rest]

end

end Layout

theorem Drawing.ofItem_clamped {α : Type} [Scalar α] (metrics : Metrics α) (item : Item) :
    Drawing.ofItem metrics item.clamped = Drawing.ofItem metrics item := by
  simp only [Drawing.ofItem, Layout.measure_clamped, Layout.draw_clamped]

theorem Diagram.svg_clamped (metrics : Metrics Float32) (diagram : Diagram) :
    diagram.clamped.svg metrics = diagram.svg metrics := by
  rw [Diagram.svg, Item.ofDiagram_clamped, Drawing.ofItem_clamped, Diagram.svg]

namespace Layout

/-- The index behind this one, up to the largest index there can be. -/
def indexAfter (largest index : Nat) : Option Nat := if index < largest then some (index + 1) else none

/-- The index before this one. -/
def indexBefore : Nat → Option Nat
  | 0 => none
  | index + 1 => some index

/-- Writes a position at an index that the array has. -/
def writeAt {β : Type} (offsets : List β) (index : Nat) (offset : β) : Option (List β) :=
  if index < offsets.length then some (offsets.set index offset) else none

variable {α : Type} [Scalar α]

section Programs

variable (metrics : Metrics α) (largest : Nat) (extents : List (Extent α))

/-- Writes the positions above, from the index before this one down to zero. -/
def writeAbove : Nat → List α → Option (List α)
  | 0, offsets => some offsets
  | index + 1, offsets => do
      let below ← indexAfter largest index
      let lower ← extents[below]?
      let upper ← extents[index]?
      let offset ← offsets[below]?
      let written ← writeAt offsets index (offset - branchGapAbove metrics upper lower)
      writeAbove index written

/-- Writes as many positions below, from this index on. -/
def writeBelow : Nat → Nat → List α → Option (List α)
  | 0, _, offsets => some offsets
  | count + 1, index, offsets => do
      let above ← indexBefore index
      let upper ← extents[above]?
      let lower ← extents[index]?
      let offset ← offsets[above]?
      let written ← writeAt offsets index (offset + branchGap metrics upper lower)
      writeBelow count (index + 1) written

/-- All positions, written by index; there are none if an index is out of range. -/
def writeOffsets (selected : Nat) : Option (List α) := do
  let main := min selected (extents.length - 1)
  let above ← writeAbove metrics largest extents main (List.replicate extents.length Scalar.zero)
  let first ← indexAfter largest main
  writeBelow metrics extents (extents.length - first) first above

end Programs

variable (metrics : Metrics α) {largest : Nat}

section Places

variable {β : Type} {front back : List β} {index : Nat}

theorem getElem?_front (place : front.length = index) (item : β) :
    (front ++ item :: back)[index]? = some item := by
  rw [← place, List.getElem?_append_right (Nat.le_refl _), Nat.sub_self, List.getElem?_cons_zero]

theorem writeAt_front (place : front.length = index) (old item : β) :
    writeAt (front ++ old :: back) index item = some (front ++ item :: back) := by
  have inside : index < (front ++ old :: back).length := by
    rw [← place, List.length_append, List.length_cons]
    omega
  rw [writeAt, if_pos inside, List.set_append_right _ _ (Nat.le_of_eq place), place, Nat.sub_self,
    List.set_cons_zero]

end Places

/-- The way up from a branch whose position has been written. -/
theorem writeAbove_eq (front back : List (Extent α)) (below : Extent α) (unwritten written : List α)
    (offset : α) (size : unwritten.length = front.length) (fits : front.length ≤ largest) :
    writeAbove metrics largest (front ++ below :: back) front.length (unwritten ++ offset :: written) =
      some ((offsetsAbove metrics below offset front.reverse).reverse ++ offset :: written) := by
  induction front using List.reverseRecOn generalizing below back unwritten written offset with
  | nil =>
      obtain rfl : unwritten = [] := List.eq_nil_of_length_eq_zero size
      rfl
  | append_singleton front branch ih =>
      have behind : (front ++ [branch]).length = front.length + 1 := List.length_append
      rw [behind] at size fits ⊢
      have more : unwritten ≠ [] := List.ne_nil_of_length_eq_add_one size
      obtain ⟨others, old, rfl⟩ : ∃ others old, unwritten = others ++ [old] :=
        ⟨_, _, (List.dropLast_concat_getLast more).symm⟩
      rw [List.length_append] at size
      have place : others.length = front.length := Nat.succ.inj size
      have lower : (front ++ [branch] ++ below :: back)[front.length + 1]? = some below :=
        getElem?_front behind below
      have upper : (front ++ [branch] ++ below :: back)[front.length]? = some branch := by
        rw [List.append_assoc]
        exact getElem?_front rfl branch
      have start : (others ++ [old] ++ offset :: written)[front.length + 1]? = some offset :=
        getElem?_front (by rw [List.length_append, place, List.length_singleton]) offset
      have write (next : α) : writeAt (others ++ [old] ++ offset :: written) front.length next =
          some (others ++ next :: offset :: written) := by
        rw [List.append_assoc]
        exact writeAt_front place old next
      rw [writeAbove, indexAfter, if_pos (Nat.lt_of_succ_le fits)]
      simp only [Option.bind_eq_bind, Option.bind_some, lower, upper, start, write]
      rw [List.append_assoc, List.singleton_append, ih _ _ _ _ _ place (Nat.le_of_lt fits),
        List.reverse_append, List.reverse_singleton, List.singleton_append, offsetsAbove,
        List.reverse_cons, List.append_assoc, List.singleton_append]

/-- The way down from a branch whose position has been written. -/
theorem writeBelow_eq (front rest : List (Extent α)) (above : Extent α) (written unwritten : List α)
    (offset : α) (place : written.length = front.length) (size : unwritten.length = rest.length) :
    writeBelow metrics (front ++ above :: rest) rest.length (front.length + 1)
        (written ++ offset :: unwritten) =
      some (written ++ offset :: offsetsBelow metrics above offset rest) := by
  induction rest generalizing front above written unwritten offset with
  | nil =>
      obtain rfl : unwritten = [] := List.eq_nil_of_length_eq_zero size
      rfl
  | cons branch rest ih =>
      obtain ⟨old, others, rfl⟩ := List.exists_cons_of_length_eq_add_one size
      have behind : (front ++ [above]).length = front.length + 1 := List.length_append
      have after : (written ++ [offset]).length = front.length + 1 := by
        rw [List.length_append, place, List.length_singleton]
      have upper : (front ++ above :: branch :: rest)[front.length]? = some above :=
        getElem?_front rfl above
      have lower : (front ++ above :: branch :: rest)[front.length + 1]? = some branch := by
        rw [List.append_cons]
        exact getElem?_front behind branch
      have start : (written ++ offset :: old :: others)[front.length]? = some offset :=
        getElem?_front place offset
      have write (next : α) : writeAt (written ++ offset :: old :: others) (front.length + 1) next =
          some (written ++ [offset] ++ next :: others) := by
        rw [List.append_cons]
        exact writeAt_front after old next
      rw [List.length_cons, writeBelow, indexBefore]
      simp only [Option.bind_eq_bind, Option.bind_some, lower, upper, start, write]
      have next := ih (front ++ [above]) branch (written ++ [offset]) others
        (offset + branchGap metrics above branch) (after.trans behind.symm)
        (Nat.succ.inj size)
      rw [behind, List.append_assoc, List.singleton_append] at next
      rw [next, offsetsBelow, List.append_assoc, List.singleton_append]

/-- Branches fall into those above the selected one and those below it. -/
theorem exists_selected {β : Type} {branches : List β} (nonempty : branches ≠ []) (selected : Nat) :
    ∃ before onTrack after, branches = before ++ onTrack :: after ∧
      before.length = min selected (branches.length - 1) := by
  have size := List.length_pos_iff.mpr nonempty
  have inside : min selected (branches.length - 1) < branches.length := by omega
  refine ⟨branches.take (min selected (branches.length - 1)), branches[min selected (branches.length - 1)],
    branches.drop (min selected (branches.length - 1) + 1), ?_, ?_⟩
  · rw [List.getElem_cons_drop, List.take_append_drop]
  · rw [List.length_take_of_le (Nat.le_of_lt inside)]

theorem branchOffsets_around {before after : List (Extent α)}
    {onTrack : Extent α} {selected : Nat}
    (place : before.length = min selected ((before ++ onTrack :: after).length - 1)) :
    branchOffsets metrics (before ++ onTrack :: after) selected =
      (offsetsAbove metrics onTrack Scalar.zero before.reverse).reverse ++
        Scalar.zero :: offsetsBelow metrics onTrack Scalar.zero after := by
  simp only [branchOffsets, clampSelection, ← place, List.drop_left, List.take_left]

/-- The selected branch lies on the track. -/
theorem branchOffsets_selected {extents : List (Extent α)}
    (nonempty : extents ≠ []) (selected : Nat) :
    (branchOffsets metrics extents selected)[min selected (extents.length - 1)]? =
      some Scalar.zero := by
  obtain ⟨before, onTrack, after, rfl, place⟩ := exists_selected nonempty selected
  rw [branchOffsets_around metrics place, ← place]
  exact getElem?_front (by rw [List.length_reverse, offsetsAbove_length, List.length_reverse]) _

/-- Every position is written, without an index out of range. -/
theorem writeOffsets_eq {extents : List (Extent α)}
    (fits : extents.length < largest) (selected : Nat) :
    writeOffsets metrics largest extents selected = some (branchOffsets metrics extents selected) := by
  by_cases none : extents = []
  · subst none
    have first : indexAfter largest 0 = some 1 := if_pos fits
    simp only [writeOffsets, List.length_nil, Nat.zero_sub, Nat.min_zero, writeAbove, writeBelow,
      first, List.replicate_zero, Option.bind_eq_bind, Option.bind_some, branchOffsets,
      List.drop_nil]
  · obtain ⟨before, onTrack, after, rfl, place⟩ := exists_selected none selected
    have blank : List.replicate (before ++ onTrack :: after).length (Scalar.zero : α) =
        List.replicate before.length Scalar.zero ++
          Scalar.zero :: List.replicate after.length Scalar.zero := by
      rw [List.length_append, List.length_cons, ← List.replicate_succ, List.replicate_append_replicate]
    have size : (before ++ onTrack :: after).length = before.length + 1 + after.length := by
      rw [List.length_append, List.length_cons]
      omega
    have room : before.length < largest := by omega
    have first : indexAfter largest before.length = some (before.length + 1) := if_pos room
    have left : (before ++ onTrack :: after).length - (before.length + 1) = after.length := by omega
    have above := writeAbove_eq metrics before after onTrack (List.replicate before.length Scalar.zero)
      (List.replicate after.length Scalar.zero) (Scalar.zero : α) List.length_replicate
      (Nat.le_of_lt room)
    have below := writeBelow_eq metrics before after onTrack
      (offsetsAbove metrics onTrack (Scalar.zero : α) before.reverse).reverse
      (List.replicate after.length Scalar.zero) Scalar.zero
      (by rw [List.length_reverse, offsetsAbove_length, List.length_reverse]) List.length_replicate
    rw [branchOffsets_around metrics place, writeOffsets, ← place, blank]
    simp only [above, first, left, below, Option.bind_eq_bind, Option.bind_some]

end Layout

/--
Moving every selection of a diagram within bounds leaves its drawing as it is, whatever the
measures are.  The positions of branches can be written by index, for any selection: no index is
out of range and none exceeds the largest there is, every branch gets a position, and that of the
selected one is the track itself.
-/
theorem selections_clamped :
    (∀ (metrics : Metrics Float32) (diagram : Diagram),
      svgRenderer metrics diagram.clamped = svgRenderer metrics diagram) ∧
    ∀ {α : Type} [Scalar α] (metrics : Metrics α) (extents : List (Extent α)) (selected largest : Nat),
      extents.length < largest →
        Layout.writeOffsets metrics largest extents selected =
            some (Layout.branchOffsets metrics extents selected) ∧
          (Layout.branchOffsets metrics extents selected).length = extents.length ∧
          (extents ≠ [] → (Layout.branchOffsets metrics extents selected)[
            min selected (extents.length - 1)]? = some Scalar.zero) := by
  refine ⟨fun metrics diagram => ?_, fun metrics extents selected largest fits => ⟨?_, ?_, ?_⟩⟩
  · rw [svgRenderer, svgRenderer, Diagram.svg_clamped]
  · exact Layout.writeOffsets_eq metrics fits selected
  · exact Layout.branchOffsets_length metrics extents selected
  · exact fun nonempty => Layout.branchOffsets_selected metrics nonempty selected

/-- A choice of three branches with the selection at the end of the range of indices. -/
theorem selections_clamped_last :
    let branches : List (Extent Float32) := [⟨1, 2, 3⟩, ⟨4, 5, 6⟩, ⟨7, 8, 9⟩]
    Layout.writeOffsets Metrics.standard (UInt64.size - 1) branches (UInt64.size - 1) =
        some (Layout.branchOffsets Metrics.standard branches (UInt64.size - 1)) ∧
      (Layout.branchOffsets Metrics.standard branches (UInt64.size - 1)).length = 3 ∧
      (Layout.branchOffsets Metrics.standard branches (UInt64.size - 1))[2]? = some Scalar.zero := by
  intro branches
  obtain ⟨written, size, onTrack⟩ := selections_clamped.2 Metrics.standard branches (UInt64.size - 1)
    (UInt64.size - 1) (by decide)
  exact ⟨written, size, onTrack (List.cons_ne_nil _ _)⟩

end Railroad
