import Mathlib.Algebra.Order.BigOperators.Group.List
import Mathlib.Algebra.Order.Field.Rat
import Mathlib.Tactic.Linarith
import Railroad.Proofs.Drawing.Sketch

/-!
# Exact extents

The layout read over the rational numbers.  With measures that are not negative no extent is
negative; the extent of a choice reaches as far as each of its branches, and branches one below
another stay apart.
-/

namespace Railroad

/-- Numbers without rounding. -/
instance : Scalar ℚ where
  ofNat := Nat.cast
  larger := max
  isZero value := decide (value = 0)
  isPositive value := decide (0 < value)

namespace Scalar

@[simp]
theorem ofNat_rat (n : Nat) : (ofNat n : ℚ) = n := rfl

@[simp]
theorem zero_rat : (zero : ℚ) = 0 := Nat.cast_zero

@[simp]
theorem double_rat (value : ℚ) : double value = 2 * value := rfl

@[simp]
theorem half_rat (value : ℚ) : half value = value / 2 := rfl

@[simp]
theorem larger_rat (first second : ℚ) : larger first second = max first second := rfl

@[simp]
theorem isZero_rat (value : ℚ) : isZero value = decide (value = 0) := rfl

@[simp]
theorem isPositive_rat (value : ℚ) : isPositive value = decide (0 < value) := rfl

end Scalar

structure Metrics.Nonneg (metrics : Metrics ℚ) : Prop where
  padding : 0 ≤ metrics.padding
  verticalSeparation : 0 ≤ metrics.verticalSeparation
  arcRadius : 0 ≤ metrics.arcRadius
  charWidth : 0 ≤ metrics.charWidth
  commentCharWidth : 0 ≤ metrics.commentCharWidth

structure Extent.Nonneg (extent : Extent ℚ) : Prop where
  width : 0 ≤ extent.width
  up : 0 ≤ extent.up
  down : 0 ≤ extent.down

namespace Item

/-- The items directly below an item. -/
def children : Item → List Item
  | .skip | .leaf .. => []
  | .sequence items => items
  | .choice _ branches => branches
  | .loop item => [item]

mutual

/-- What holds of an item whenever it holds of its children holds of all items. -/
theorem byChildren {motive : Item → Prop}
    (step : ∀ item, (∀ child ∈ item.children, motive child) → motive item) : ∀ item, motive item
  | .skip => step _ (List.forall_mem_nil _)
  | .leaf .. => step _ (List.forall_mem_nil _)
  | .sequence items => step _ (allByChildren step items)
  | .choice _ branches => step _ (allByChildren step branches)
  | .loop item => step _ (List.forall_mem_singleton.mpr (byChildren step item))

theorem allByChildren {motive : Item → Prop}
    (step : ∀ item, (∀ child ∈ item.children, motive child) → motive item) :
    ∀ items : List Item, ∀ item ∈ items, motive item
  | [] => List.forall_mem_nil _
  | item :: rest => List.forall_mem_cons.mpr ⟨byChildren step item, allByChildren step rest⟩

end

end Item

namespace Layout

variable {metrics : Metrics ℚ}

/-- The largest of these numbers and zero. -/
def largest (values : List ℚ) : ℚ := values.foldl max 0

theorem le_foldl_max (values : List ℚ) (start : ℚ) : start ≤ values.foldl max start := by
  induction values generalizing start with
  | nil => exact le_refl start
  | cons value rest ih => exact (le_max_left start value).trans (ih _)

theorem mem_le_foldl_max {values : List ℚ} {value : ℚ} (member : value ∈ values) (start : ℚ) :
    value ≤ values.foldl max start := by
  induction values generalizing start with
  | nil => exact absurd member List.not_mem_nil
  | cons first rest ih =>
      rcases List.mem_cons.mp member with rfl | member
      · exact (le_max_right start value).trans (le_foldl_max rest _)
      · exact ih member _

theorem largest_nonneg (values : List ℚ) : 0 ≤ largest values := le_foldl_max values 0

theorem le_largest {values : List ℚ} {value : ℚ} (member : value ∈ values) :
    value ≤ largest values := mem_le_foldl_max member 0

theorem emptyExtent_eq : (emptyExtent : Extent ℚ) = ⟨0, 0, 0⟩ := rfl

theorem measureAll_eq (metrics : Metrics ℚ) (items : List Item) :
    measureAll metrics items = items.map (measure metrics) := by
  induction items with
  | nil => rfl
  | cons item rest ih => rw [measureAll, ih, List.map_cons]

theorem foldl_beside (extents : List (Extent ℚ)) (total : Extent ℚ) :
    extents.foldl beside total = ⟨total.width + (extents.map Extent.width).sum,
      (extents.map Extent.up).foldl max total.up, (extents.map Extent.down).foldl max total.down⟩ := by
  induction extents generalizing total with
  | nil => rw [List.map_nil, List.sum_nil, add_zero]; rfl
  | cons extent rest ih =>
      rw [List.foldl_cons, ih, List.map_cons, List.sum_cons, ← add_assoc]
      rfl

/-- A sequence is as wide as its items together and as high as the highest of them. -/
theorem measure_sequence (metrics : Metrics ℚ) (items : List Item) :
    measure metrics (.sequence items) = ⟨(items.map fun item => (measure metrics item).width).sum,
      largest (items.map fun item => (measure metrics item).up),
      largest (items.map fun item => (measure metrics item).down)⟩ := by
  rw [measure, measureAll_eq, emptyExtent_eq, foldl_beside, zero_add, List.map_map, List.map_map,
    List.map_map]
  rfl

theorem stackedExtent_eq (width : ℚ) (branches : List (Extent ℚ × ℚ)) :
    stackedExtent width branches = ⟨width, largest (branches.map fun placed => placed.1.up - placed.2),
      largest (branches.map fun placed => placed.1.down + placed.2)⟩ := by
  have general (total : Extent ℚ) : branches.foldl (fun total (extent, offset) =>
      ⟨total.width, max total.up (extent.up - offset), max total.down (extent.down + offset)⟩) total =
        (⟨total.width, (branches.map fun placed => placed.1.up - placed.2).foldl max total.up,
          (branches.map fun placed => placed.1.down + placed.2).foldl max total.down⟩ : Extent ℚ) := by
    induction branches generalizing total with
    | nil => rfl
    | cons placed rest ih => rw [List.foldl_cons, ih]; rfl
  exact general ⟨width, 0, 0⟩

/-- The branches of a choice at their positions. -/
def stacked (metrics : Metrics ℚ) (selected : Nat) (branches : List Item) : List (Item × ℚ) :=
  branches.zip (branchOffsets metrics (measureAll metrics branches) selected)

theorem stacked_extents (metrics : Metrics ℚ) (selected : Nat) (branches : List Item) :
    (measureAll metrics branches).zip (branchOffsets metrics (measureAll metrics branches) selected) =
      (stacked metrics selected branches).map fun placed => (measure metrics placed.1, placed.2) := by
  rw [stacked, measureAll_eq, List.zip_map_left]
  rfl

/-- A choice is as wide as its widest branch and the bends, and reaches as far as every branch. -/
theorem measure_choice (metrics : Metrics ℚ) (selected : Nat) (branches : List Item) :
    measure metrics (.choice selected branches) =
      ⟨innerWidth (measureAll metrics branches) + 4 * metrics.arcRadius,
        largest ((stacked metrics selected branches).map fun placed =>
          (measure metrics placed.1).up - placed.2),
        largest ((stacked metrics selected branches).map fun placed =>
          (measure metrics placed.1).down + placed.2)⟩ := by
  rw [measure, choiceExtent, stacked_extents, stackedExtent_eq, List.map_map, List.map_map]
  rfl

theorem leafWidth_ge (nonneg : metrics.Nonneg) (kind : LeafKind) (text : String) :
    20 ≤ leafWidth metrics kind text := by
  have letters (charWidth : ℚ) (positive : 0 ≤ charWidth) : 0 ≤ textWidth text charWidth :=
    mul_nonneg (Nat.cast_nonneg _) positive
  have boxed := letters _ nonneg.charWidth
  have bare := letters _ nonneg.commentCharWidth
  cases kind <;>
    simp only [leafWidth, Scalar.ofNat_rat, boxTextPadding, lead, Nat.reduceAdd, Nat.reduceMul,
      Nat.cast_ofNat] <;> linarith

/-- No item takes less than no space. -/
theorem measure_nonneg (nonneg : metrics.Nonneg) (item : Item) :
    (measure metrics item).Nonneg := by
  have radius := nonneg.arcRadius
  induction item using Item.byChildren with
  | step item children =>
      cases item with
      | skip => exact ⟨le_refl 0, le_refl 0, le_refl 0⟩
      | leaf kind text =>
          have wide := leafWidth_ge nonneg kind text
          exact ⟨le_trans (by norm_num) wide, Nat.cast_nonneg _, Nat.cast_nonneg _⟩
      | sequence items =>
          rw [measure_sequence]
          refine ⟨List.sum_nonneg fun width member => ?_, largest_nonneg _, largest_nonneg _⟩
          obtain ⟨item, listed, rfl⟩ := List.mem_map.mp member
          exact (children item listed).width
      | choice selected branches =>
          rw [measure_choice]
          have widest := largest_nonneg ((measureAll metrics branches).map Extent.width)
          exact ⟨add_nonneg widest (mul_nonneg (by norm_num) radius), largest_nonneg _,
            largest_nonneg _⟩
      | loop item =>
          obtain ⟨width, up, -⟩ := children item (List.mem_singleton_self _)
          have depth := le_max_right ((measure metrics item).down + metrics.verticalSeparation)
            (2 * metrics.arcRadius)
          exact ⟨add_nonneg width (mul_nonneg (by norm_num) radius), up,
            le_trans (mul_nonneg (by norm_num) radius) depth⟩

/-- One branch is above another: it ends before the other begins, and there is room for the bends. -/
def Above (metrics : Metrics ℚ) (upper lower : Extent ℚ × ℚ) : Prop :=
  upper.2 + upper.1.down ≤ lower.2 - lower.1.up ∧ upper.2 + 2 * metrics.arcRadius ≤ lower.2

theorem Above.trans {first second third : Extent ℚ × ℚ} (nonneg : metrics.Nonneg)
    (middle : second.1.Nonneg) (upper : Above metrics first second)
    (lower : Above metrics second third) : Above metrics first third := by
  have radius := nonneg.arcRadius
  have up := middle.up
  have down := middle.down
  obtain ⟨ends, room⟩ := upper
  obtain ⟨ends', room'⟩ := lower
  constructor <;> linarith

/-- The next branch below. -/
theorem above_next (nonneg : metrics.Nonneg) (upper lower : Extent ℚ) (offset : ℚ) :
    Above metrics (upper, offset) (lower, offset + branchGap metrics upper lower) := by
  have separation := nonneg.verticalSeparation
  have gap := le_max_left (upper.down + metrics.verticalSeparation + lower.up) (2 * metrics.arcRadius)
  have bends := le_max_right (upper.down + metrics.verticalSeparation + lower.up) (2 * metrics.arcRadius)
  simp only [Above, branchGap, Scalar.larger_rat, Scalar.double_rat]
  constructor <;> linarith

/-- The next branch above. -/
theorem next_above (nonneg : metrics.Nonneg) (upper lower : Extent ℚ) (offset : ℚ) :
    Above metrics (upper, offset - branchGapAbove metrics upper lower) (lower, offset) := by
  have separation := nonneg.verticalSeparation
  have gap := le_max_left (lower.up + metrics.verticalSeparation + upper.down) (2 * metrics.arcRadius)
  have bends := le_max_right (lower.up + metrics.verticalSeparation + upper.down) (2 * metrics.arcRadius)
  simp only [Above, branchGapAbove, Scalar.larger_rat, Scalar.double_rat]
  constructor <;> linarith

theorem offsetsBelow_above (nonneg : metrics.Nonneg) (branches : List (Extent ℚ)) :
    ∀ (above : Extent ℚ) (offset : ℚ), (∀ extent ∈ branches, extent.Nonneg) →
      ((above, offset) :: branches.zip (offsetsBelow metrics above offset branches)).Pairwise
        (Above metrics) := by
  induction branches with
  | nil => exact fun _ _ _ => List.pairwise_singleton _ _
  | cons branch rest ih =>
      intro above offset extents
      obtain ⟨here, later⟩ := List.forall_mem_cons.mp extents
      have below := ih branch (offset + branchGap metrics above branch) later
      have next := above_next nonneg above branch offset
      refine List.pairwise_cons.mpr ⟨fun placed member => ?_, below⟩
      rcases List.mem_cons.mp member with rfl | member
      · exact next
      · exact next.trans nonneg here ((List.pairwise_cons.mp below).1 placed member)

theorem offsetsAbove_above (nonneg : metrics.Nonneg) (branches : List (Extent ℚ)) :
    ∀ (below : Extent ℚ) (offset : ℚ), (∀ extent ∈ branches, extent.Nonneg) →
      ((below, offset) :: branches.zip (offsetsAbove metrics below offset branches)).Pairwise
        fun lower upper => Above metrics upper lower := by
  induction branches with
  | nil => exact fun _ _ _ => List.pairwise_singleton _ _
  | cons branch rest ih =>
      intro below offset extents
      obtain ⟨here, later⟩ := List.forall_mem_cons.mp extents
      have above := ih branch (offset - branchGapAbove metrics branch below) later
      have next := next_above nonneg branch below offset
      refine List.pairwise_cons.mpr ⟨fun placed member => ?_, above⟩
      rcases List.mem_cons.mp member with rfl | member
      · exact next
      · exact ((List.pairwise_cons.mp above).1 placed member).trans nonneg here next

/-- Branches around the selected one, numbered from it in both directions. -/
theorem zip_around {β γ : Type} {before after : List β} {above below : List γ} (main : β) (track : γ)
    (same : above.length = before.length) :
    (before ++ main :: after).zip (above.reverse ++ track :: below) =
      (before.reverse.zip above).reverse ++ (main, track) :: after.zip below := by
  have turned : before.zip above.reverse = (before.reverse.zip above).reverse := by
    rw [List.zip_eq_zipWith, List.zip_eq_zipWith,
      List.reverse_zipWith (by rw [List.length_reverse, same]), List.reverse_reverse]
  rw [List.zip_append (by rw [List.length_reverse, same]), List.zip_cons_cons, turned]

/-- The branches lie one above another in their order, and the selected one on the track. -/
theorem branchOffsets_above (nonneg : metrics.Nonneg) {extents : List (Extent ℚ)}
    (measured : ∀ extent ∈ extents, extent.Nonneg) (selected : Nat) :
    (extents.zip (branchOffsets metrics extents selected)).Pairwise (Above metrics) ∧
      ∀ placed ∈ extents.zip (branchOffsets metrics extents selected),
        placed.2 = 0 ∨ 2 * metrics.arcRadius ≤ placed.2 ∨ placed.2 ≤ -(2 * metrics.arcRadius) := by
  unfold branchOffsets
  dsimp only
  split
  next =>
    rw [List.zip_nil_right]
    exact ⟨.nil, List.forall_mem_nil _⟩
  next onTrack after found =>
    have whole : extents.take (clampSelection selected extents) ++ onTrack :: after = extents :=
      found ▸ List.take_append_drop _ _
    generalize extents.take (clampSelection selected extents) = before at whole ⊢
    subst whole
    obtain ⟨upper, main, lower⟩ : (∀ extent ∈ before, extent.Nonneg) ∧ onTrack.Nonneg ∧
        ∀ extent ∈ after, extent.Nonneg := by
      simpa [or_imp, forall_and] using measured
    rw [zip_around onTrack _ (by rw [offsetsAbove_length, List.length_reverse]), Scalar.zero_rat]
    have above := List.pairwise_cons.mp (offsetsAbove_above nonneg before.reverse onTrack 0
      fun extent member => upper extent (List.mem_reverse.mp member))
    have below := offsetsBelow_above nonneg after onTrack 0 lower
    have fromTrack := (List.pairwise_cons.mp below).1
    refine ⟨List.pairwise_append.mpr ⟨List.pairwise_reverse.mpr above.2, below, ?_⟩, ?_⟩
    · intro first isAbove second isBelow
      have toTrack := above.1 first (List.mem_reverse.mp isAbove)
      rcases List.mem_cons.mp isBelow with rfl | isBelow
      · exact toTrack
      · exact toTrack.trans nonneg main (fromTrack second isBelow)
    · intro placed member
      rcases List.mem_append.mp member with isAbove | isBelow
      · have room := (above.1 placed (List.mem_reverse.mp isAbove)).2
        exact .inr (.inr (by linarith))
      · rcases List.mem_cons.mp isBelow with rfl | isBelow
        · exact .inl rfl
        · have room := (fromTrack placed isBelow).2
          exact .inr (.inl (by linarith))

end Layout

end Railroad
