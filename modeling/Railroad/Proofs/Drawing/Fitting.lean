import Railroad.Proofs.Drawing.Extents

/-!
# Drawings fit their extents

Everything that is drawn for an item lies in the region that its extent claims, and the regions of
the items in it lie beside or below each other.  So boxes never overlap, and a whole drawing lies
within its width and height.
-/

namespace Railroad

/-- A part of the plane.  Heights grow downwards. -/
structure Region where
  left : ℚ
  right : ℚ
  top : ℚ
  bottom : ℚ

namespace Region

def Holds (region : Region) (point : ℚ × ℚ) : Prop :=
  region.left ≤ point.1 ∧ point.1 ≤ region.right ∧ region.top ≤ point.2 ∧ point.2 ≤ region.bottom

structure Within (inner outer : Region) : Prop where
  left : outer.left ≤ inner.left
  right : inner.right ≤ outer.right
  top : outer.top ≤ inner.top
  bottom : inner.bottom ≤ outer.bottom

theorem Within.holds {inner outer : Region} (within : inner.Within outer) {point : ℚ × ℚ}
    (holds : inner.Holds point) : outer.Holds point :=
  ⟨within.left.trans holds.1, holds.2.1.trans within.right, within.top.trans holds.2.2.1,
    holds.2.2.2.trans within.bottom⟩

/-- One region ends where or before the other begins. -/
def Before (first second : Region) : Prop :=
  first.right ≤ second.left ∨ first.bottom ≤ second.top

end Region

/-- The region that an extent claims around an entry. -/
def Extent.region (extent : Extent ℚ) (x y : ℚ) : Region :=
  ⟨x, x + extent.width, y - extent.up, y + extent.down⟩

def Drawing.region (drawing : Drawing ℚ) : Region := ⟨0, drawing.width, 0, drawing.height⟩

/-- Where a step ends that begins at a point. -/
def TrackStep.target : TrackStep ℚ → ℚ × ℚ → ℚ × ℚ
  | .right length, (x, y) => (x + length, y)
  | .down length, (x, y) => (x, y + length)
  | .up length, (x, y) => (x, y - length)
  | .bend radius _ leftward upward, (x, y) =>
      (if leftward then x - radius else x + radius, if upward then y - radius else y + radius)
  | .shift dx dy, (x, y) => (x + dx, y + dy)

/-- Runs and bends have no negative length. -/
def TrackStep.Proper : TrackStep ℚ → Prop
  | .right length | .down length | .up length => 0 ≤ length
  | .bend radius _ _ _ => 0 ≤ radius
  | .shift _ _ => True

/-- The point at which steps begin, and the points at which they end. -/
def pointsFrom : ℚ × ℚ → List (TrackStep ℚ) → List (ℚ × ℚ)
  | start, [] => [start]
  | start, step :: rest => start :: pointsFrom (step.target start) rest

/-- The points of a track, opposite corners of a box, and the place of a caption. -/
def Shape.points : Shape ℚ → List (ℚ × ℚ)
  | .track line => pointsFrom (line.x, line.y) line.steps
  | .box frame => [(frame.x, frame.y), (frame.x + frame.width, frame.y + frame.height)]
  | .caption words => [(words.x, words.y)]

def Shape.Proper : Shape ℚ → Prop
  | .track line => ∀ step ∈ line.steps, step.Proper
  | .box frame => 0 ≤ frame.width ∧ 0 ≤ frame.height
  | .caption _ => True

structure Shape.Fits (region : Region) (single : Shape ℚ) : Prop where
  inside : ∀ point ∈ single.points, region.Holds point
  proper : single.Proper

theorem Shape.Fits.within {inner outer : Region} {single : Shape ℚ} (fits : single.Fits inner)
    (within : inner.Within outer) : single.Fits outer :=
  ⟨fun point member => within.holds (fits.inside point member), fits.proper⟩

def Shape.box? : Shape ℚ → Option (Box ℚ)
  | .box frame => some frame
  | .track _ | .caption _ => none

def boxesOf (figures : List (Figure ℚ)) : List (Box ℚ) := (shapesOf figures).filterMap Shape.box?

namespace Box

/-- A point strictly between the sides of a box. -/
def Encloses (frame : Box ℚ) (point : ℚ × ℚ) : Prop :=
  frame.x < point.1 ∧ point.1 < frame.x + frame.width ∧
    frame.y < point.2 ∧ point.2 < frame.y + frame.height

/-- Boxes whose interiors have no point in common. -/
def Apart (first second : Box ℚ) : Prop := ∀ point, ¬(first.Encloses point ∧ second.Encloses point)

end Box

theorem Region.Before.apart {first second : Region} (before : first.Before second)
    {upper lower : Box ℚ} (inFirst : (Shape.box upper).Fits first)
    (inSecond : (Shape.box lower).Fits second) : upper.Apart lower := by
  rintro point ⟨⟨-, right, -, bottom⟩, left, -, top, -⟩
  obtain ⟨-, upperRight, -, upperBottom⟩ :=
    inFirst.inside (upper.x + upper.width, upper.y + upper.height) (by simp [Shape.points])
  obtain ⟨lowerLeft, -, lowerTop, -⟩ := inSecond.inside (lower.x, lower.y) (by simp [Shape.points])
  dsimp only at upperRight upperBottom lowerLeft lowerTop
  rcases before with beside | below
  · linarith
  · linarith

namespace Layout

variable {metrics : Metrics ℚ}

/-! ## Where the items in an item are drawn -/

/-- An item with its entry. -/
structure Placement where
  item : Item
  x : ℚ
  y : ℚ

namespace Placement

def figures (metrics : Metrics ℚ) (placed : Placement) : List (Figure ℚ) :=
  draw metrics placed.item placed.x placed.y

def region (metrics : Metrics ℚ) (placed : Placement) : Region :=
  (measure metrics placed.item).region placed.x placed.y

end Placement

/-- Items one after another from an entry on. -/
def inRow (metrics : Metrics ℚ) : List Item → ℚ → ℚ → List Placement
  | [], _, _ => []
  | item :: rest, x, y => ⟨item, x, y⟩ :: inRow metrics rest (x + (measure metrics item).width) y

/-- The items directly below an item, where they are drawn. -/
def placements (metrics : Metrics ℚ) : Item → ℚ → ℚ → List Placement
  | .skip, _, _ | .leaf .., _, _ => []
  | .sequence items, x, y => inRow metrics items x y
  | .choice selected branches, x, y => (stacked metrics selected branches).map fun placed =>
      ⟨placed.1, x + 2 * metrics.arcRadius, y + placed.2⟩
  | .loop item, x, y => [⟨item, x + metrics.arcRadius, y⟩]

/-- The tracks that lead to a branch and from it. -/
def branchTracks (metrics : Metrics ℚ) (inner x y : ℚ) (placed : Item × ℚ) : List (Shape ℚ) :=
  let width := (measure metrics placed.1).width
  [entryTrack metrics.arcRadius x y placed.2,
    exitTrack metrics.arcRadius (x + 2 * metrics.arcRadius + width) y placed.2 (inner - width)]

/-- What is drawn for an item besides the items in it. -/
def ownShapes (metrics : Metrics ℚ) : Item → ℚ → ℚ → List (Shape ℚ)
  | .skip, _, _ | .sequence _, _, _ => []
  | .leaf kind text, x, y => leafShapes kind text x y (leafWidth metrics kind text)
  | .choice selected branches, x, y => (stacked metrics selected branches).flatMap
      (branchTracks metrics (innerWidth (measureAll metrics branches)) x y)
  | .loop item, x, y =>
      let inner := measure metrics item
      [lineAt x y [.right metrics.arcRadius],
        lineAt (x + metrics.arcRadius + inner.width) y [.right metrics.arcRadius],
        returnTrack metrics.arcRadius (x + metrics.arcRadius) y
          (loopDepth metrics inner - 2 * metrics.arcRadius) inner.width]

theorem leafFigures_shapes (kind : LeafKind) (text : String) (x y width : ℚ) :
    shapesOf (leafFigures kind (leafShapes kind text x y width)) = leafShapes kind text x y width := by
  cases kind <;> rfl

theorem drawSequence_eq (metrics : Metrics ℚ) (items : List Item) (x y : ℚ) :
    drawSequence metrics items x y = (inRow metrics items x y).flatMap (Placement.figures metrics) := by
  induction items generalizing x with
  | nil => rfl
  | cons item rest ih => rw [drawSequence, ih, inRow, List.flatMap_cons, Placement.figures]

theorem drawBranches_eq (metrics : Metrics ℚ) (inner x y : ℚ) (branches : List Item)
    (offsets : List ℚ) : drawBranches metrics inner branches offsets x y =
      (branches.zip offsets).flatMap fun placed =>
        .plain (entryTrack metrics.arcRadius x y placed.2) ::
          draw metrics placed.1 (x + 2 * metrics.arcRadius) (y + placed.2) ++
            [.plain (exitTrack metrics.arcRadius
              (x + 2 * metrics.arcRadius + (measure metrics placed.1).width) y placed.2
              (inner - (measure metrics placed.1).width))] := by
  induction branches generalizing offsets with
  | nil => rw [drawBranches]; rfl; exact fun _ _ _ _ none => absurd none (List.cons_ne_nil _ _).symm
  | cons branch rest ih =>
      cases offsets with
      | nil => rw [drawBranches]; rfl; exact fun _ _ _ _ _ none => absurd none (List.cons_ne_nil _ _).symm
      | cons offset offsets =>
          rw [drawBranches, ih, List.zip_cons_cons, List.flatMap_cons, List.append_assoc]
          rfl

/-- A drawing consists of what an item has of its own and of the drawings of the items in it. -/
theorem draw_perm (metrics : Metrics ℚ) (item : Item) (x y : ℚ) :
    (shapesOf (draw metrics item x y)).Perm (ownShapes metrics item x y ++
      (placements metrics item x y).flatMap fun placed => shapesOf (placed.figures metrics)) := by
  cases item with
  | skip => exact .nil
  | leaf kind text =>
      rw [draw, leafFigures_shapes, placements, List.flatMap_nil, List.append_nil]
      exact .refl _
  | sequence items =>
      rw [draw, drawSequence_eq, shapesOf, List.flatMap_assoc]
      exact .refl _
  | choice selected branches =>
      rw [draw, drawBranches_eq, shapesOf, List.flatMap_assoc, ownShapes, placements,
        List.flatMap_map]
      refine .trans (List.Perm.flatMap_left _ fun placed _ => ?_)
        (List.flatMap_append_perm _ _ _).symm
      rw [← shapesOf, List.cons_append, shapesOf_cons, shapesOf_append]
      refine .cons _ ?_
      change (shapesOf (draw _ _ _ _) ++ _).Perm _
      exact List.perm_append_comm
  | loop item =>
      rw [draw, List.cons_append, shapesOf_cons, shapesOf_append, placements, List.flatMap_singleton]
      refine .cons _ ?_
      change (shapesOf (draw _ _ _ _) ++ _).Perm _
      exact List.perm_append_comm

theorem inRow_within (nonneg : metrics.Nonneg) (items : List Item) (x y : ℚ) :
    ∀ placed ∈ inRow metrics items x y, placed.item ∈ items ∧ placed.y = y ∧ x ≤ placed.x ∧
      placed.x + (measure metrics placed.item).width ≤
        x + (items.map fun item => (measure metrics item).width).sum := by
  induction items generalizing x with
  | nil => exact List.forall_mem_nil _
  | cons item rest ih =>
      have width := (measure_nonneg nonneg item).width
      have remaining : 0 ≤ (rest.map fun item => (measure metrics item).width).sum :=
        List.sum_nonneg fun width member => by
          obtain ⟨item, -, rfl⟩ := List.mem_map.mp member
          exact (measure_nonneg nonneg item).width
      rw [List.map_cons, List.sum_cons]
      refine List.forall_mem_cons.mpr ⟨⟨List.mem_cons_self, rfl, le_refl x, ?_⟩, fun placed member => ?_⟩
      · dsimp only
        linarith
      · obtain ⟨listed, same, after, fits⟩ := ih _ placed member
        exact ⟨List.mem_cons_of_mem _ listed, same, by linarith, by linarith⟩

theorem inRow_before (nonneg : metrics.Nonneg) (items : List Item) (x y : ℚ) :
    (inRow metrics items x y).Pairwise fun first second =>
      (first.region metrics).Before (second.region metrics) := by
  induction items generalizing x with
  | nil => exact .nil
  | cons item rest ih =>
      refine List.pairwise_cons.mpr ⟨fun placed member => .inl ?_, ih _⟩
      obtain ⟨-, -, after, -⟩ := inRow_within nonneg rest _ y placed member
      exact after

/-- The branches of a choice lie one above another, on the track or two radii away from it. -/
theorem stacked_above (nonneg : metrics.Nonneg) (selected : Nat) (branches : List Item) :
    ((stacked metrics selected branches).Pairwise fun first second =>
        Above metrics (measure metrics first.1, first.2) (measure metrics second.1, second.2)) ∧
      ∀ placed ∈ stacked metrics selected branches, placed.2 = 0 ∨
        2 * metrics.arcRadius ≤ placed.2 ∨ placed.2 ≤ -(2 * metrics.arcRadius) := by
  have measured : ∀ extent ∈ measureAll metrics branches, extent.Nonneg := by
    rw [measureAll_eq]
    intro extent member
    obtain ⟨item, -, rfl⟩ := List.mem_map.mp member
    exact measure_nonneg nonneg item
  obtain ⟨above, spaced⟩ := branchOffsets_above nonneg measured selected
  rw [stacked_extents] at above spaced
  exact ⟨List.pairwise_map.mp above, fun placed member => spaced _ (List.mem_map_of_mem member)⟩

/-- A choice has room for each of its branches. -/
theorem stacked_reach (metrics : Metrics ℚ) (selected : Nat) (branches : List Item) :
    ∀ placed ∈ stacked metrics selected branches, placed.1 ∈ branches ∧
      (measure metrics placed.1).width ≤ innerWidth (measureAll metrics branches) ∧
      (measure metrics placed.1).up - placed.2 ≤ (measure metrics (.choice selected branches)).up ∧
      (measure metrics placed.1).down + placed.2 ≤
        (measure metrics (.choice selected branches)).down := by
  intro placed member
  have listed : placed.1 ∈ branches := (List.of_mem_zip member).1
  rw [measure_choice]
  refine ⟨listed, le_largest ?_, le_largest (List.mem_map_of_mem member),
    le_largest (List.mem_map_of_mem member)⟩
  rw [measureAll_eq, List.map_map]
  exact List.mem_map_of_mem listed

theorem placements_within (nonneg : metrics.Nonneg) (item : Item) (x y : ℚ) :
    ∀ placed ∈ placements metrics item x y, placed.item ∈ item.children ∧
      (placed.region metrics).Within ((measure metrics item).region x y) := by
  have radius := nonneg.arcRadius
  cases item with
  | skip => exact List.forall_mem_nil _
  | leaf kind text => exact List.forall_mem_nil _
  | sequence items =>
      intro placed member
      obtain ⟨listed, same, after, fits⟩ := inRow_within nonneg items x y placed member
      have up : (measure metrics placed.item).up ≤ (measure metrics (.sequence items)).up := by
        rw [measure_sequence]
        exact le_largest (List.mem_map_of_mem listed)
      have down : (measure metrics placed.item).down ≤ (measure metrics (.sequence items)).down := by
        rw [measure_sequence]
        exact le_largest (List.mem_map_of_mem listed)
      refine ⟨listed, after, ?_, ?_, ?_⟩
      · rw [measure_sequence]
        exact fits
      · simp only [Placement.region, Extent.region, same]
        linarith
      · simp only [Placement.region, Extent.region, same]
        linarith
  | choice selected branches =>
      intro placed member
      obtain ⟨branch, listed, rfl⟩ := List.mem_map.mp member
      obtain ⟨child, width, up, down⟩ := stacked_reach metrics selected branches branch listed
      refine ⟨child, ?_, ?_, ?_, ?_⟩
      · simp only [Placement.region, Extent.region]
        linarith
      · have whole : (measure metrics (.choice selected branches)).width =
            innerWidth (measureAll metrics branches) + 4 * metrics.arcRadius := by
          rw [measure_choice]
        simp only [Placement.region, Extent.region, whole]
        linarith
      · simp only [Placement.region, Extent.region]
        linarith
      · simp only [Placement.region, Extent.region]
        linarith
  | loop item =>
      have depth := le_max_left ((measure metrics item).down + metrics.verticalSeparation)
        (2 * metrics.arcRadius)
      have separation := nonneg.verticalSeparation
      refine List.forall_mem_singleton.mpr ⟨List.mem_singleton_self _, ?_, ?_, ?_, ?_⟩
      · simp only [Placement.region, Extent.region]
        linarith
      · simp only [Placement.region, Extent.region, measure, loopExtent, Scalar.double_rat]
        linarith
      · exact le_refl _
      · simp only [Placement.region, Extent.region, measure, loopExtent, loopDepth,
          Scalar.larger_rat, Scalar.double_rat]
        linarith

theorem placements_before (nonneg : metrics.Nonneg) (item : Item) (x y : ℚ) :
    (placements metrics item x y).Pairwise fun first second =>
      (first.region metrics).Before (second.region metrics) := by
  cases item with
  | skip => exact .nil
  | leaf kind text => exact .nil
  | sequence items => exact inRow_before nonneg items x y
  | choice selected branches =>
      refine List.pairwise_map.mpr ((stacked_above nonneg selected branches).1.imp ?_)
      intro first second above
      refine .inr ?_
      have ends := above.1
      simp only [Placement.region, Extent.region]
      linarith
  | loop item => exact List.pairwise_singleton _ _

/-- Steps that begin at a point of a region and never leave it. -/
def StayIn (region : Region) : ℚ × ℚ → List (TrackStep ℚ) → Prop
  | start, [] => region.Holds start
  | start, step :: rest =>
      region.Holds start ∧ step.Proper ∧ StayIn region (step.target start) rest

theorem StayIn.all {region : Region} {start : ℚ × ℚ} {steps : List (TrackStep ℚ)}
    (stay : StayIn region start steps) :
    (∀ point ∈ pointsFrom start steps, region.Holds point) ∧ ∀ step ∈ steps, step.Proper := by
  induction steps generalizing start with
  | nil => exact ⟨List.forall_mem_singleton.mpr stay, List.forall_mem_nil _⟩
  | cons step rest ih =>
      obtain ⟨here, proper, after⟩ := stay
      obtain ⟨inside, others⟩ := ih after
      exact ⟨List.forall_mem_cons.mpr ⟨here, inside⟩, List.forall_mem_cons.mpr ⟨proper, others⟩⟩

theorem lineAt_fits {region : Region} {x y : ℚ} {steps : List (TrackStep ℚ)}
    (stay : StayIn region (x, y) steps) : (lineAt x y steps).Fits region :=
  ⟨stay.all.1, stay.all.2⟩

theorem leads_fit {x y width space : ℚ} (wide : 20 ≤ width) (roomy : 0 ≤ space) :
    ∀ single ∈ leads x y width, single.Fits ⟨x, x + width, y - space, y + space⟩ := by
  refine List.forall_mem_cons.mpr ⟨lineAt_fits ?_, List.forall_mem_singleton.mpr (lineAt_fits ?_)⟩
  all_goals
    simp only [StayIn, TrackStep.target, TrackStep.Proper, Region.Holds, Scalar.ofNat_rat, lead,
      Nat.cast_ofNat]
    and_intros <;> linarith

theorem boxShape_fits {corner : Nat} {x y width : ℚ} (wide : 20 ≤ width) :
    (boxShape corner x y width).Fits ⟨x, x + width, y - boxHalfHeight, y + boxHalfHeight⟩ := by
  constructor
  · refine List.forall_mem_cons.mpr ⟨?_, List.forall_mem_singleton.mpr ?_⟩
    all_goals
      simp only [Region.Holds, Scalar.ofNat_rat, lead, boxHalfHeight, Nat.reduceMul, Nat.cast_ofNat]
      and_intros <;> linarith
  · simp only [boxShape, Shape.Proper, Scalar.ofNat_rat, lead, boxHalfHeight, Nat.reduceMul,
      Nat.cast_ofNat]
    and_intros <;> linarith

theorem captionShape_fits {kind : LeafKind} {text : String} {x y width space : ℚ}
    (wide : 20 ≤ width) (roomy : 4 ≤ space) :
    (captionShape kind text x y width).Fits ⟨x, x + width, y - space, y + space⟩ := by
  refine ⟨List.forall_mem_singleton.mpr ?_, trivial⟩
  simp only [Region.Holds, Scalar.ofNat_rat, Scalar.half_rat, textBaseline, Nat.cast_ofNat]
  and_intros <;> linarith

theorem leafShapes_fit (nonneg : metrics.Nonneg) (kind : LeafKind) (text : String) (x y : ℚ) :
    ∀ single ∈ leafShapes kind text x y (leafWidth metrics kind text),
      single.Fits ((measure metrics (.leaf kind text)).region x y) := by
  have wide := leafWidth_ge nonneg kind text
  have boxed (corner : Nat) : ∀ single ∈
      leads x y (leafWidth metrics kind text) ++ [boxShape corner x y (leafWidth metrics kind text),
        captionShape kind text x y (leafWidth metrics kind text)],
      single.Fits ⟨x, x + leafWidth metrics kind text, y - boxHalfHeight, y + boxHalfHeight⟩ := by
    have roomy : (4 : ℚ) ≤ boxHalfHeight := by norm_num [boxHalfHeight]
    exact List.forall_mem_append.mpr ⟨leads_fit wide (by linarith), List.forall_mem_cons.mpr
      ⟨boxShape_fits wide, List.forall_mem_singleton.mpr (captionShape_fits wide roomy)⟩⟩
  cases kind with
  | terminal => exact boxed roundedCorner
  | nonTerminal => exact boxed 0
  | comment =>
      have roomy : (4 : ℚ) ≤ commentHalfHeight := by norm_num [commentHalfHeight]
      have closed : (0 : ℚ) ≤ commentHalfHeight := by linarith
      exact List.forall_mem_append.mpr ⟨leads_fit wide closed,
        List.forall_mem_singleton.mpr (captionShape_fits wide roomy)⟩

/-- The tracks of a branch bend twice, and so need two radii on either side and below or above. -/
theorem branchTracks_fit (nonneg : metrics.Nonneg) {inner x y : ℚ} {placed : Item × ℚ}
    {region : Region}
    (apart : placed.2 = 0 ∨ 2 * metrics.arcRadius ≤ placed.2 ∨ placed.2 ≤ -(2 * metrics.arcRadius))
    (width : (measure metrics placed.1).width ≤ inner)
    (left : region.left ≤ x) (right : x + (inner + 4 * metrics.arcRadius) ≤ region.right)
    (track : region.top ≤ y ∧ y ≤ region.bottom)
    (branch : region.top ≤ y + placed.2 ∧ y + placed.2 ≤ region.bottom) :
    ∀ single ∈ branchTracks metrics inner x y placed, single.Fits region := by
  have radius := nonneg.arcRadius
  have wide := (measure_nonneg nonneg placed.1).width
  obtain ⟨top, bottom⟩ := track
  obtain ⟨branchTop, branchBottom⟩ := branch
  rcases lt_trichotomy placed.2 0 with above | onTrack | below
  · have room : placed.2 ≤ -(2 * metrics.arcRadius) := by rcases apart with h | h | h <;> linarith
    have notTrack : placed.2 ≠ 0 := above.ne
    have notBelow : ¬0 < placed.2 := above.not_gt
    simp only [branchTracks, entryTrack, exitTrack, Scalar.isZero_rat, Scalar.isPositive_rat,
      decide_eq_true_eq, if_neg notTrack, if_neg notBelow]
    refine List.forall_mem_cons.mpr ⟨lineAt_fits ?_, List.forall_mem_singleton.mpr (lineAt_fits ?_)⟩
    all_goals
      simp only [bendUp, StayIn, TrackStep.target, TrackStep.Proper, Region.Holds, Scalar.double_rat,
        if_true, Bool.false_eq_true, if_false]
      and_intros <;> linarith
  · simp only [branchTracks, entryTrack, exitTrack, Scalar.isZero_rat, decide_eq_true_eq,
      if_pos onTrack]
    refine List.forall_mem_cons.mpr ⟨lineAt_fits ?_, List.forall_mem_singleton.mpr (lineAt_fits ?_)⟩
    all_goals
      simp only [StayIn, TrackStep.target, TrackStep.Proper, Region.Holds, Scalar.double_rat]
      and_intros <;> linarith
  · have room : 2 * metrics.arcRadius ≤ placed.2 := by rcases apart with h | h | h <;> linarith
    have notTrack : placed.2 ≠ 0 := below.ne'
    simp only [branchTracks, entryTrack, exitTrack, Scalar.isZero_rat, Scalar.isPositive_rat,
      decide_eq_true_eq, if_neg notTrack, if_pos below]
    refine List.forall_mem_cons.mpr ⟨lineAt_fits ?_, List.forall_mem_singleton.mpr (lineAt_fits ?_)⟩
    all_goals
      simp only [bendDown, StayIn, TrackStep.target, TrackStep.Proper, Region.Holds,
        Scalar.double_rat, if_true, Bool.false_eq_true, if_false]
      and_intros <;> linarith

theorem loopTracks_fit (nonneg : metrics.Nonneg) (item : Item) (x y : ℚ) :
    ∀ single ∈ ownShapes metrics (.loop item) x y,
      single.Fits ((measure metrics (.loop item)).region x y) := by
  have radius := nonneg.arcRadius
  obtain ⟨width, up, down⟩ := measure_nonneg nonneg item
  have depth : 2 * metrics.arcRadius ≤ loopDepth metrics (measure metrics item) := le_max_right _ _
  have extent : measure metrics (.loop item) = ⟨(measure metrics item).width + 2 * metrics.arcRadius,
    (measure metrics item).up, loopDepth metrics (measure metrics item)⟩ := rfl
  rw [extent]
  refine List.forall_mem_cons.mpr ⟨lineAt_fits ?_, List.forall_mem_cons.mpr ⟨lineAt_fits ?_,
    List.forall_mem_singleton.mpr (lineAt_fits ?_)⟩⟩
  all_goals
    simp only [StayIn, TrackStep.target, TrackStep.Proper, Region.Holds, Extent.region, if_true,
      Bool.false_eq_true, if_false]
    and_intros <;> linarith

theorem ownShapes_fit (nonneg : metrics.Nonneg) (item : Item) (x y : ℚ) :
    ∀ single ∈ ownShapes metrics item x y, single.Fits ((measure metrics item).region x y) := by
  cases item with
  | skip => exact List.forall_mem_nil _
  | leaf kind text => exact leafShapes_fit nonneg kind text x y
  | sequence items => exact List.forall_mem_nil _
  | choice selected branches =>
      intro single member
      obtain ⟨placed, listed, drawn⟩ := List.mem_flatMap.mp member
      obtain ⟨-, width, up, down⟩ := stacked_reach metrics selected branches placed listed
      obtain ⟨-, branchUp, branchDown⟩ := measure_nonneg nonneg placed.1
      obtain ⟨-, wholeUp, wholeDown⟩ := measure_nonneg nonneg (.choice selected branches)
      have whole : (measure metrics (.choice selected branches)).width =
          innerWidth (measureAll metrics branches) + 4 * metrics.arcRadius := by
        rw [measure_choice]
      refine branchTracks_fit nonneg ((stacked_above nonneg selected branches).2 placed listed) width
        (le_refl x) (le_of_eq ?_) ⟨?_, ?_⟩ ⟨?_, ?_⟩ single drawn
      · rw [← whole]
        rfl
      all_goals
        simp only [Extent.region]
        linarith
  | loop item => exact loopTracks_fit nonneg item x y

/-! ## Whole drawings -/

/-- What is drawn for an item lies in the region that its extent claims. -/
theorem shapes_fit (nonneg : metrics.Nonneg) (item : Item) : ∀ (x y : ℚ),
    ∀ single ∈ shapesOf (draw metrics item x y),
      single.Fits ((measure metrics item).region x y) := by
  induction item using Item.byChildren with
  | step item children =>
      intro x y single member
      rw [(draw_perm metrics item x y).mem_iff] at member
      rcases List.mem_append.mp member with own | inside
      · exact ownShapes_fit nonneg item x y single own
      · obtain ⟨placed, listed, drawn⟩ := List.mem_flatMap.mp inside
        obtain ⟨child, within⟩ := placements_within nonneg item x y placed listed
        exact (children placed.item child placed.x placed.y single drawn).within within

theorem mem_boxesOf {figures : List (Figure ℚ)} {frame : Box ℚ} (member : frame ∈ boxesOf figures) :
    .box frame ∈ shapesOf figures := by
  obtain ⟨single, listed, found⟩ := List.mem_filterMap.mp member
  cases single with
  | box given => exact Option.some.inj found ▸ listed
  | track line => exact absurd found nofun
  | caption words => exact absurd found nofun

/-- Only leaves have a box of their own, and no items in them. -/
theorem ownBoxes (metrics : Metrics ℚ) (item : Item) (x y : ℚ) :
    (ownShapes metrics item x y).filterMap Shape.box? = [] ∨ placements metrics item x y = [] ∧
      ∃ frame, (ownShapes metrics item x y).filterMap Shape.box? = [frame] := by
  cases item with
  | skip => exact .inl rfl
  | leaf kind text =>
      cases kind with
      | terminal => exact .inr ⟨rfl, _, rfl⟩
      | nonTerminal => exact .inr ⟨rfl, _, rfl⟩
      | comment => exact .inl rfl
  | sequence items => exact .inl rfl
  | choice selected branches =>
      refine .inl (List.filterMap_eq_nil_iff.mpr fun single member => ?_)
      obtain ⟨placed, -, drawn⟩ := List.mem_flatMap.mp member
      rcases List.mem_cons.mp drawn with rfl | drawn
      · rfl
      · rw [List.mem_singleton.mp drawn, exitTrack]
        split
        · rfl
        · split <;> rfl
  | loop item => exact .inl rfl

/-- The boxes of two items in an item are apart, since the items lie beside or below each other. -/
theorem placements_apart (nonneg : metrics.Nonneg) (item : Item) (x y : ℚ) :
    (placements metrics item x y).Pairwise fun first second =>
      ∀ upper ∈ boxesOf (first.figures metrics), ∀ lower ∈ boxesOf (second.figures metrics),
        upper.Apart lower := by
  refine (placements_before nonneg item x y).imp fun before => ?_
  intro upper inFirst lower inSecond
  exact before.apart (shapes_fit nonneg _ _ _ _ (mem_boxesOf inFirst))
    (shapes_fit nonneg _ _ _ _ (mem_boxesOf inSecond))

theorem boxes_apart (nonneg : metrics.Nonneg) (item : Item) : ∀ (x y : ℚ),
    (boxesOf (draw metrics item x y)).Pairwise Box.Apart := by
  induction item using Item.byChildren with
  | step item children =>
      intro x y
      have parts := (draw_perm metrics item x y).filterMap Shape.box?
      have below : ((placements metrics item x y).flatMap fun placed =>
          boxesOf (placed.figures metrics)).Pairwise Box.Apart := by
        refine List.pairwise_flatMap.mpr ⟨fun placed listed => ?_, placements_apart nonneg item x y⟩
        exact children placed.item (placements_within nonneg item x y placed listed).1 _ _
      rw [List.filterMap_append, List.filterMap_flatMap] at parts
      rw [boxesOf, parts.pairwise_iff fun apart point both => apart point ⟨both.2, both.1⟩]
      rcases ownBoxes metrics item x y with none | ⟨bare, frame, single⟩
      · rw [none, List.nil_append]
        exact below
      · rw [single, bare]
        exact List.pairwise_singleton _ _

end Layout

open Layout in
/-- A whole drawing, its markers included, lies within its width and height. -/
theorem Drawing.ofItem_fits {metrics : Metrics ℚ} (nonneg : metrics.Nonneg) (item : Item) :
    ∀ single ∈ shapesOf (Drawing.ofItem metrics item).figures,
      single.Fits (Drawing.ofItem metrics item).region := by
  have padding := nonneg.padding
  have width := (measure_nonneg nonneg item).width
  have up := le_max_left (measure metrics item).up 10
  have down := le_max_left (measure metrics item).down 10
  have markerUp := le_max_right (measure metrics item).up 10
  have markerDown := le_max_right (measure metrics item).down 10
  have region : (Drawing.ofItem metrics item).region = ⟨0, 2 * (metrics.padding + 20) +
      (measure metrics item).width, 0, 2 * metrics.padding + max (measure metrics item).up 10 +
        max (measure metrics item).down 10⟩ := rfl
  rw [region, Drawing.ofItem, List.cons_append, shapesOf_cons, shapesOf_append]
  refine List.forall_mem_append.mpr ⟨List.forall_mem_singleton.mpr (lineAt_fits ?_),
    List.forall_mem_append.mpr ⟨fun single member => ?_,
      List.forall_mem_singleton.mpr (lineAt_fits ?_)⟩⟩
  · simp only [StayIn, TrackStep.target, TrackStep.Proper, Region.Holds, Scalar.ofNat_rat,
      Scalar.larger_rat, barHeight, markerHalfHeight, markerWidth, Nat.reduceMul, Nat.cast_ofNat,
      true_and]
    and_intros <;> linarith
  · refine (shapes_fit nonneg item _ _ single member).within ⟨?_, ?_, ?_, ?_⟩
    all_goals
      simp only [Extent.region, Scalar.ofNat_rat, Scalar.larger_rat, markerHalfHeight, markerWidth,
        Nat.cast_ofNat]
      linarith
  · simp only [StayIn, TrackStep.target, TrackStep.Proper, Region.Holds, Scalar.ofNat_rat,
      Scalar.larger_rat, barHeight, markerHalfHeight, markerWidth, Nat.reduceMul, Nat.cast_ofNat,
      true_and]
    and_intros <;> linarith

/--
With measures that are not negative, whatever is drawn for an item lies in the region that its
extent claims, with no run of negative length; no two boxes overlap, be it those of two items of a
sequence, of two branches of a choice or of anything in them; and a whole drawing, its markers
included, lies within its width and height.
-/
theorem Layout.draw_fits (metrics : Metrics ℚ) (nonneg : metrics.Nonneg) (item : Item) (x y : ℚ) :
    (measure metrics item).Nonneg ∧
      (∀ single ∈ shapesOf (draw metrics item x y),
        single.Fits ((measure metrics item).region x y)) ∧
      (boxesOf (draw metrics item x y)).Pairwise Box.Apart ∧
      ∀ single ∈ shapesOf (Drawing.ofItem metrics item).figures,
        single.Fits (Drawing.ofItem metrics item).region :=
  ⟨measure_nonneg nonneg item, shapes_fit nonneg item x y, boxes_apart nonneg item x y,
    Drawing.ofItem_fits nonneg item⟩

/-- A choice between nothing, a sequence and a repetition, drawn with the standard measures. -/
theorem Layout.draw_fits_standard :
    let metrics : Metrics ℚ := ⟨20, 8, 10, 17 / 2, 7⟩
    let item : Item := .choice 1 [.skip, .sequence [.leaf .terminal "a", .leaf .comment "b"],
      .loop (.leaf .nonTerminal "c")]
    metrics.Nonneg ∧ (boxesOf (draw metrics item 3 4)).length = 2 ∧
      (measure metrics item).Nonneg ∧
      (∀ single ∈ shapesOf (draw metrics item 3 4), single.Fits ((measure metrics item).region 3 4)) ∧
      (boxesOf (draw metrics item 3 4)).Pairwise Box.Apart ∧
      ∀ single ∈ shapesOf (Drawing.ofItem metrics item).figures,
        single.Fits (Drawing.ofItem metrics item).region := by
  have nonneg : (⟨20, 8, 10, 17 / 2, 7⟩ : Metrics ℚ).Nonneg := by constructor <;> norm_num
  exact ⟨nonneg, by decide +kernel, Layout.draw_fits _ nonneg _ 3 4⟩

end Railroad
