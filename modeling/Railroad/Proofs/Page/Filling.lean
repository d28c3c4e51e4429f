import Railroad.Proofs.Page.Rows

/-!
# Filling the template

The template is a frame around two titles and the rows.  The titles are put into it first, and
where a title spells the slot of the rows, the rows go into the title as well.  Apart from that
every slot is filled once: nothing that is put into a page is taken for a slot.
-/

namespace Railroad

namespace Text

section Replacing

variable {first : Char} {mark value text : List Char}

/-- The first occurrence of a mark is replaced, and what follows is searched further. -/
theorem replaceAll_found (value : List Char) (inside : first :: mark <:+: text) :
    ∃ before after, text = before ++ first :: (mark ++ after) ∧
      replaceAll first mark value text = before ++ (value ++ replaceAll first mark value after) := by
  induction text with
  | nil => exact absurd (List.infix_nil.mp inside) (List.cons_ne_nil _ _)
  | cons c rest ih =>
      by_cases begins : first :: mark <+: c :: rest
      · obtain ⟨after, spelled⟩ := begins
        refine ⟨[], after, spelled.symm, ?_⟩
        rw [← spelled, List.cons_append, replaceAll_mark, List.nil_append]
      · have later := (List.infix_cons_iff.mp inside).resolve_left begins
        obtain ⟨before, after, spelled, replaced⟩ := ih later
        refine ⟨c :: before, after, by rw [spelled, List.cons_append], ?_⟩
        by_cases same : c = first
        · subst same
          have missed : mark.isPrefixOf? rest = none := by
            cases found : mark.isPrefixOf? rest with
            | none => rfl
            | some behind =>
                exact absurd ⟨behind, by rw [← List.append_eq_of_isPrefixOf?_eq_some found]; rfl⟩ begins
          rw [replaceAll_miss missed, replaced, List.cons_append]
        · rw [replaceAll_other same, replaced, List.cons_append]

/-- A mark that is taken out makes a text no longer. -/
theorem length_replaceAll_nil_le (first : Char) (mark text : List Char) :
    (replaceAll first mark [] text).length ≤ text.length := by
  fun_induction replaceAll first mark [] text with
  | case1 => exact Nat.le_refl _
  | case2 text behind found ih =>
      exact Nat.le_succ_of_le (Nat.le_trans ih (length_of_isPrefixOf? found))
  | case3 text missed ih | case4 c text other ih => exact Nat.succ_le_succ ih

/-- A text with the mark in it is changed by a value that is empty or brings in something new. -/
theorem replaceAll_ne (inside : first :: mark <:+: text)
    (new : value = [] ∨ ∃ c ∈ value, c ∉ text) : replaceAll first mark value text ≠ text := by
  intro same
  obtain ⟨before, after, spelled, replaced⟩ := replaceAll_found value inside
  rw [same] at replaced
  rcases new with rfl | ⟨c, member, notInside⟩
  · have shorter := length_replaceAll_nil_le first mark after
    have lengths := congrArg List.length (spelled.symm.trans replaced)
    simp only [List.length_append, List.length_cons, List.length_nil] at lengths
    omega
  · refine notInside ?_
    rw [replaced]
    exact List.mem_append_right _ (List.mem_append_left _ member)

end Replacing

end Text

namespace Page

theorem foldl_add (page : Page) (entries : List Entry) :
    entries.foldl add page = { page with entries := page.entries ++ entries } := by
  induction entries generalizing page with
  | nil => rw [List.foldl_nil, List.append_nil]
  | cons entry rest ih =>
      rw [List.foldl_cons, ih]
      simp only [add, List.append_assoc, List.singleton_append]

/-- The rows of a page are empty or hold a tag. -/
theorem rows_cases (page : Page) : page.rows.toList = [] ∨ '<' ∈ page.rows.toList := by
  rw [rows_toList]
  cases page.entries with
  | nil => exact Or.inl rfl
  | cons entry rest =>
      exact Or.inr (List.mem_append_left _ (entry.opening_mem_text page.fileName))

/-- The parts of a page around its two titles and its rows. -/
structure Frame where
  front : List Char
  between : List Char
  before : List Char
  behind : List Char

namespace Frame

/-- The page with this title, shown twice, and these rows. -/
def filled (frame : Frame) (title rows : List Char) : List Char :=
  frame.front ++ (title ++ (frame.between ++ (title ++ (frame.before ++ (rows ++ frame.behind)))))

/-- No part of the frame holds a slot, not even the beginning of one. -/
structure Slotless (frame : Frame) : Prop where
  front : '$' ∉ frame.front
  between : '$' ∉ frame.between
  before : '$' ∉ frame.before
  behind : '$' ∉ frame.behind

/-- Pages with the same rows show the same title. -/
theorem filled_inj {frame : Frame} {title other rows : List Char} :
    frame.filled title rows = frame.filled other rows ↔ title = other := by
  constructor
  · intro same
    have lengths := congrArg List.length same
    simp only [filled, List.length_append] at lengths
    exact (List.append_inj (List.append_cancel_left same) (by omega)).1
  · rintro rfl
    rfl

end Frame

/-- The template is its frame, filled with slots. -/
theorem template_frame : ∃ frame : Frame, frame.Slotless ∧
    frame.filled ('$' :: titleSlot) ('$' :: rowsSlot) = template.toList ∧
    ∀ page : Page, page.unlinked.toList =
      frame.filled (fill "rows" page.rows (escape page.title).toList) page.rows.toList := by
  obtain ⟨front, between, before, behind, slots⟩ := template_slots
  obtain ⟨free, freeBetween, freeBefore, freeBehind⟩ := slots.free
  refine ⟨⟨front, '<' :: between, '<' :: before, behind⟩,
    ⟨free, freeBetween, freeBefore, freeBehind⟩, by rw [slots.spelled]; rfl, fun page => ?_⟩
  rw [unlinked, String.toList_ofList, fill_rows _ _ slots]
  rfl

/--
The template is a frame without slots around two titles and the rows.  A page without links is
the same frame around its escaped title and its rows in the order of its entries, with the rows
in the place of every slot for them that the title spells.  So its slots are filled once if and
only if the title spells no such slot, whatever else the title, the names, the drawings, the
descriptions and the reasons contain.
-/
theorem filled_once (fileName title : String) (entries : List Entry) (isRule : String → Bool) :
    let page := entries.foldl add ((titled fileName title).withCrossLinks false)
    let rows := String.join (entries.map (Entry.text fileName))
    ∃ frame : Frame, frame.Slotless ∧
      frame.filled "$\x7btitle\x7d".toList "$\x7brows\x7d".toList = template.toList ∧
      (page.text isRule).toList =
        frame.filled (fill "rows" rows (escape title).toList) rows.toList ∧
      ((page.text isRule).toList = frame.filled (escape title).toList rows.toList ↔
        ¬"$\x7brows\x7d".toList <:+: title.toList) := by
  intro page rows
  obtain ⟨frame, slotless, whole, filled⟩ := template_frame
  refine ⟨frame, slotless, whole, ?_⟩
  have made : page = ⟨fileName, title, false, entries⟩ := foldl_add _ entries
  have unlinked : (page.text isRule).toList =
      frame.filled (fill "rows" rows (escape title).toList) rows.toList := by
    rw [made]
    exact filled ⟨fileName, title, false, entries⟩
  refine ⟨unlinked, ?_⟩
  rw [unlinked, Frame.filled_inj]
  constructor
  · intro same inside
    have new : rows.toList = [] ∨ ∃ c ∈ rows.toList, c ∉ (escape title).toList :=
      (rows_cases ⟨fileName, title, false, entries⟩).imp_right fun tag =>
        ⟨'<', tag, (escape_free title).1.1⟩
    exact Text.replaceAll_ne ((rowsSlot_infix_escape title).mpr inside) new same
  · intro avoids
    exact Text.replaceAll_avoiding (mt (rowsSlot_infix_escape title).mp avoids)

/-- A title that spells the slot of the rows is not shown. -/
theorem title_overwritten :
    let page := [Entry.drawn "a" "<svg/>" none].foldl add
      ((titled "g" "$\x7brows\x7d").withCrossLinks false)
    ¬"<title>$\x7brows\x7d</title>".toList <:+: (page.text fun _ => false).toList := by
  intro page shown
  obtain ⟨frame, slotless, -, filled⟩ := template_frame
  have rows : '$' ∉ page.rows.toList := by decide +kernel
  have title : fill "rows" page.rows (escape page.title).toList = page.rows.toList := by
    have spelled : (escape page.title).toList = '$' :: (rowsSlot ++ []) := by decide +kernel
    rw [spelled, fill]
    exact Text.replaceAll_mark.trans (by rw [Text.replaceAll_nil, List.append_nil])
  have inside : '$' ∈ page.unlinked.toList := shown.subset (by decide)
  rw [filled, title, Frame.filled] at inside
  simp only [List.mem_append, rows, slotless.front, slotless.between, slotless.before,
    slotless.behind, or_self] at inside

end Page

end Railroad
