import Railroad.Page.Basic
import Railroad.Proofs.Page.Tags

/-!
# Rows of a page

A page without its links is a marked text as soon as its drawings are, and every entry has a cell
with the anchor of its rule in it.
-/

namespace Railroad

namespace Text

section Replacing

variable {first : Char} {mark value text rest : List Char}

theorem replaceAll_nil : replaceAll first mark value [] = [] := by
  rw [replaceAll]

theorem replaceAll_other {c : Char} (other : c ≠ first) :
    replaceAll first mark value (c :: text) = c :: replaceAll first mark value text := by
  rw [replaceAll, if_neg other]

theorem replaceAll_miss (missed : mark.isPrefixOf? text = none) :
    replaceAll first mark value (first :: text) = first :: replaceAll first mark value text := by
  rw [replaceAll, if_pos rfl]
  split
  next found => exact absurd (missed.symm.trans found) (Option.some_ne_none _).symm
  next => rfl

theorem replaceAll_mark :
    replaceAll first mark value (first :: (mark ++ text)) =
      value ++ replaceAll first mark value text := by
  have found : mark.isPrefixOf? (mark ++ text) = some text :=
    List.isPrefixOf?_eq_some_iff_append_eq.mpr rfl
  rw [replaceAll, if_pos rfl]
  split
  next behind here =>
    cases found.symm.trans here
    rfl
  next none => exact absurd (found.symm.trans none) (Option.some_ne_none _)

theorem replaceAll_free (free : first ∉ text) :
    replaceAll first mark value (text ++ rest) = text ++ replaceAll first mark value rest := by
  induction text with
  | nil => rfl
  | cons c others ih =>
      have other : c ≠ first := fun same => free (same ▸ List.mem_cons_self ..)
      rw [List.cons_append, replaceAll_other other,
        ih fun member => free (List.mem_cons_of_mem _ member), List.cons_append]

theorem replaceAll_of_free (free : first ∉ text) : replaceAll first mark value text = text := by
  have whole : replaceAll first mark value (text ++ []) = text ++ replaceAll first mark value [] :=
    replaceAll_free free
  rwa [replaceAll_nil, List.append_nil] at whole

/-- A mark is not completed by a character that is not in it. -/
theorem isPrefixOf?_append_cons {c : Char} {behind : List Char} (stops : c ∉ mark)
    (found : mark.isPrefixOf? (text ++ c :: rest) = some behind) :
    ∃ more, text = mark ++ more ∧ behind = more ++ c :: rest := by
  rcases List.append_eq_append_iff.mp (List.append_eq_of_isPrefixOf?_eq_some found).symm with
    ⟨more, spelled, tail⟩ | ⟨more, spelled, tail⟩
  · cases more with
    | nil => exact ⟨[], by rw [spelled, List.append_nil, List.append_nil], tail.symm⟩
    | cons d _ =>
        rw [spelled, (List.cons.inj tail).1] at stops
        exact absurd (List.mem_append_right _ (List.mem_cons_self ..)) stops
  · exact ⟨more, spelled, tail⟩

/-- What stands before a character that is not in the mark is searched on its own. -/
theorem replaceAll_append_cons {c : Char} (stops : c ∉ mark) :
    replaceAll first mark value (text ++ c :: rest) =
      replaceAll first mark value text ++ replaceAll first mark value (c :: rest) := by
  fun_induction replaceAll first mark value text with
  | case1 => rfl
  | case2 text behind found ih =>
      rw [← List.append_eq_of_isPrefixOf?_eq_some found, List.cons_append, List.append_assoc,
        replaceAll_mark, ih, List.append_assoc]
  | case3 text missed ih =>
      have none : mark.isPrefixOf? (text ++ c :: rest) = none := by
        cases found : mark.isPrefixOf? (text ++ c :: rest) with
        | none => rfl
        | some behind =>
            obtain ⟨more, spelled, -⟩ := isPrefixOf?_append_cons stops found
            exact absurd (missed.symm.trans (List.isPrefixOf?_eq_some_iff_append_eq.mpr spelled.symm))
              (Option.some_ne_none _).symm
      rw [List.cons_append, replaceAll_miss none, ih, List.cons_append]
  | case4 d text other ih => rw [List.cons_append, replaceAll_other other, ih, List.cons_append]

/-- A text without the mark stays as it is. -/
theorem replaceAll_avoiding (avoids : ¬first :: mark <:+: text) :
    replaceAll first mark value text = text := by
  induction text with
  | nil => exact replaceAll_nil
  | cons d others ih =>
      have later := ih fun inside => avoids (inside.trans (List.suffix_cons d others).isInfix)
      by_cases same : d = first
      · subst same
        cases found : mark.isPrefixOf? others with
        | none => rw [replaceAll_miss found, later]
        | some behind =>
            exact absurd ⟨[], behind, by rw [← List.append_eq_of_isPrefixOf?_eq_some found]; rfl⟩
              avoids
      · rw [replaceAll_other same, later]

end Replacing

end Text

namespace Page

theorem escapeChar_free (c : Char) : Unbracketed (escapeChar c) ∧ '"' ∉ escapeChar c := by
  unfold escapeChar
  split
  next => decide
  next => decide
  next => decide
  next => decide
  next notOpening notClosing notQuote =>
    exact ⟨⟨fun member => notOpening (List.mem_singleton.mp member).symm,
      fun member => notClosing (List.mem_singleton.mp member).symm⟩,
      fun member => notQuote (List.mem_singleton.mp member).symm⟩

theorem escape_free (text : String) : Unbracketed (escape text).toList ∧ '"' ∉ (escape text).toList := by
  rw [escape, String.toList_ofList, escapeChars]
  refine ⟨⟨fun member => ?_, fun member => ?_⟩, fun member => ?_⟩
  · obtain ⟨c, -, inside⟩ := List.mem_flatMap.mp member
    exact (escapeChar_free c).1.1 inside
  · obtain ⟨c, -, inside⟩ := List.mem_flatMap.mp member
    exact (escapeChar_free c).1.2 inside
  · obtain ⟨c, -, inside⟩ := List.mem_flatMap.mp member
    exact (escapeChar_free c).2 inside

/-- A character is escaped by a text that begins with an ampersand, or not at all. -/
theorem escapeChar_cases (c : Char) :
    (∃ rest, escapeChar c = '&' :: rest ∧ '$' ∉ escapeChar c) ∨ escapeChar c = [c] := by
  unfold escapeChar
  split
  · exact Or.inl ⟨_, rfl, by decide⟩
  · exact Or.inl ⟨_, rfl, by decide⟩
  · exact Or.inl ⟨_, rfl, by decide⟩
  · exact Or.inl ⟨_, rfl, by decide⟩
  · exact Or.inr rfl

/-- What an escaped text begins with, the text begins with already. -/
theorem prefix_of_escapeChars {mark text : List Char} (plain : '&' ∉ mark)
    (begins : mark <+: escapeChars text) : mark <+: text := by
  induction mark generalizing text with
  | nil => exact List.nil_prefix
  | cons m others ih =>
      obtain ⟨behind, split⟩ := begins
      cases text with
      | nil => cases split
      | cons c rest =>
          rw [escapeChars, List.flatMap_cons] at split
          rcases escapeChar_cases c with ⟨tail, same, -⟩ | same
          · rw [same] at split
            exact absurd ((List.cons.inj split).1 ▸ List.mem_cons_self ..) plain
          · rw [same] at split
            obtain ⟨rfl, later⟩ := List.cons.inj split
            have inner := ih (fun member => plain (List.mem_cons_of_mem _ member)) ⟨behind, later⟩
            exact List.prefix_cons_inj _ |>.mpr inner

theorem infix_of_free {mark free text : List Char} (plain : '$' ∉ free)
    (inside : '$' :: mark <:+: free ++ text) : '$' :: mark <:+: text := by
  induction free with
  | nil => exact inside
  | cons c rest ih =>
      rcases List.infix_cons_iff.mp inside with begins | later
      · exact absurd ((List.cons_prefix_cons.mp begins).1 ▸ List.mem_cons_self ..) plain
      · exact ih (fun member => plain (List.mem_cons_of_mem _ member)) later

/-- Escaping brings no slot into a text. -/
theorem infix_of_escapeChars {mark text : List Char} (plain : '&' ∉ mark)
    (inside : '$' :: mark <:+: escapeChars text) : '$' :: mark <:+: text := by
  have slot : '&' ∉ '$' :: mark := by simpa using plain
  induction text with
  | nil => exact inside
  | cons c rest ih =>
      rw [escapeChars, List.flatMap_cons] at inside
      rcases escapeChar_cases c with ⟨_, -, free⟩ | same
      · exact List.infix_cons (ih (infix_of_free free inside))
      · rw [same] at inside
        rcases List.infix_cons_iff.mp inside with begins | later
        · have whole : escapeChars (c :: rest) = c :: escapeChars rest := by
            rw [escapeChars, List.flatMap_cons, same]
            rfl
          exact (prefix_of_escapeChars slot (whole ▸ begins)).isInfix
        · exact List.infix_cons (ih later)

end Page

namespace Entry

open Page

/-- The opening tag of the cell with the anchor of a rule. -/
def cellTag (fileName rule : String) : List Char :=
  "td id=\"".toList ++ ((Page.anchor fileName rule).toList ++ ['"'])

theorem cellTag_eq (fileName rule : String) : cellTag fileName rule =
    "td id=\"".toList ++ ((Page.anchor fileName rule).toList ++ ['"']) := rfl

theorem cellTag_frame (fileName rule : String) : IsFrameTag (cellTag fileName rule) := by
  have name : IsPlainTag "td id=\"".toList := by decide
  have value : Unbracketed ((Page.anchor fileName rule).toList ++ ['"']) :=
    (escape_free _).1.append (by decide)
  rw [cellTag_eq]
  exact .append name (by decide) (by decide) (by decide) value

theorem nameCell_toList (fileName rule : String) : (nameCell fileName rule).toList =
    tagged (cellTag fileName rule)
      ("<h4>".toList ++ (escape rule).toList ++ "</h4></td>".toList) := by
  simp [nameCell, tagged, cellTag_eq]

variable {allowed shown : List Char → Prop}

/-- The drawing of an entry is marked; the row of an entry without one begins with a tag of its own. -/
def IsMarked (allowed shown : List Char → Prop) : Entry → Prop
  | drawn _ svg _ => Marked allowed shown svg.toList
  | unavailable _ _ => allowed errorTag

section Frames

variable (frame : ∀ body, IsFrameTag body → allowed body)

include frame

theorem nameCell_marked (fileName rule : String) :
    Marked allowed shown (nameCell fileName rule).toList := by
  have cell := cellTag_frame fileName rule
  rw [nameCell_toList]
  exact .tag cell.1.1 (frame _ cell) (.append (.append (.of_frameTags frame (by decide +kernel))
    (.of_free (escape_free rule).1.1)) (.of_frameTags frame (by decide +kernel)))

theorem breakLines_marked {text : String} (free : '<' ∉ text.toList) :
    Marked allowed shown (breakLines text).toList := by
  rw [breakLines, String.toList_ofList, List.flatMap_def]
  refine .flatten fun piece member => ?_
  obtain ⟨c, inside, rfl⟩ := List.mem_map.mp member
  split
  · exact .of_frameTags frame (by decide +kernel)
  · exact .of_free fun same => free ((List.mem_singleton.mp same) ▸ inside)

theorem descriptionRow_marked (description : String) :
    Marked allowed shown (descriptionRow description).toList := by
  have spelled : descriptionRow description = "<tr class=\"border-notop\"><td></td><td>" ++
      breakLines (Page.escape description) ++ "</td></tr>\n" := rfl
  rw [spelled, String.toList_append, String.toList_append]
  exact .append (.append (.of_frameTags frame (by decide +kernel))
    (breakLines_marked frame (escape_free description).1.1)) (.of_frameTags frame (by decide +kernel))

end Frames

/-- The cell of the rule stands right behind the opening tag of its row. -/
theorem text_split (fileName : String) (entry : Entry) : ∃ opening behind,
    (entry.text fileName).toList =
        opening ++ ((nameCell fileName entry.rule).toList ++ behind) ∧
      ∀ allowed shown, (∀ body, IsFrameTag body → allowed body) → entry.IsMarked allowed shown →
        Marked allowed shown opening ∧ Marked allowed shown behind := by
  cases entry with
  | drawn rule svg description =>
      refine ⟨"<tr>".toList, "<td>".toList ++ svg.toList ++ "</td></tr>\n".toList ++
        (description.elim "" descriptionRow).toList, ?_, fun allowed shown frame marked => ?_⟩
      · have spelled : (drawn rule svg description).text fileName = "<tr>" ++
            nameCell fileName rule ++ "<td>" ++ svg ++ "</td></tr>\n" ++
              description.elim "" descriptionRow := rfl
        simp [spelled, Entry.rule]
      · have described : Marked allowed shown (description.elim "" descriptionRow).toList := by
          cases description with
          | none => exact .nil
          | some description => exact descriptionRow_marked frame description
        exact ⟨.of_frameTags frame (by decide +kernel),
          .append (.append (.append (.of_frameTags frame (by decide +kernel)) marked)
            (.of_frameTags frame (by decide +kernel))) described⟩
  | unavailable rule reason =>
      refine ⟨"<tr class=\"render-error\">".toList, "<td>diagram unavailable: ".toList ++
        (escape reason).toList ++ "</td></tr>\n".toList, ?_, fun allowed shown frame marked => ?_⟩
      · have spelled : (unavailable rule reason).text fileName = "<tr class=\"render-error\">" ++
            nameCell fileName rule ++ "<td>diagram unavailable: " ++ escape reason ++
              "</td></tr>\n" := rfl
        simp [spelled, Entry.rule]
      · have opened : "<tr class=\"render-error\">".toList = tagged errorTag [] := rfl
        rw [opened]
        exact ⟨.tag (by decide) marked .nil, .append (.append
          (.of_frameTags frame (by decide +kernel)) (.of_free (escape_free reason).1.1))
            (.of_frameTags frame (by decide +kernel))⟩

/-- Every entry brings a row with it. -/
theorem opening_mem_text (fileName : String) (entry : Entry) : '<' ∈ (entry.text fileName).toList := by
  obtain ⟨opening, behind, split, -⟩ := text_split fileName entry
  rw [split, nameCell_toList]
  exact List.mem_append_right _ (List.mem_append_left _ (List.mem_cons_self ..))

section Frames

variable (frame : ∀ body, IsFrameTag body → allowed body)

include frame

theorem text_marked (fileName : String) {entry : Entry} (marked : entry.IsMarked allowed shown) :
    Marked allowed shown (entry.text fileName).toList := by
  obtain ⟨opening, behind, split, parts⟩ := text_split fileName entry
  obtain ⟨early, late⟩ := parts allowed shown frame marked
  rw [split]
  exact early.append ((nameCell_marked frame ..).append late)

theorem texts_marked (fileName : String) {entries : List Entry}
    (marked : ∀ entry ∈ entries, entry.IsMarked allowed shown) :
    Marked allowed shown (entries.flatMap fun entry => (entry.text fileName).toList) := by
  rw [List.flatMap_def]
  refine .flatten fun piece member => ?_
  obtain ⟨entry, listed, rfl⟩ := List.mem_map.mp member
  exact text_marked frame fileName (marked entry listed)

end Frames

end Entry

namespace Page

variable {allowed shown : List Char → Prop}

def titleSlot : List Char := "\x7btitle\x7d".toList

def rowsSlot : List Char := "\x7brows\x7d".toList

/-- Escaping leaves the slot of the rows as it is, and brings none into a text. -/
theorem rowsSlot_infix_escape (title : String) :
    '$' :: rowsSlot <:+: (escape title).toList ↔ '$' :: rowsSlot <:+: title.toList := by
  rw [escape, String.toList_ofList]
  constructor
  · exact infix_of_escapeChars (by decide)
  · rintro ⟨before, after, spelled⟩
    refine ⟨escapeChars before, escapeChars after, ?_⟩
    simp only [← spelled, escapeChars, List.flatMap_append]
    rfl

/-- A text with two slots for a title and one for rows, and the tags of a frame around them. -/
structure Slots (text front between before behind : List Char) : Prop where
  spelled : text = front ++ '$' :: (titleSlot ++ '<' :: (between ++
    '$' :: (titleSlot ++ '<' :: (before ++ '$' :: (rowsSlot ++ behind)))))
  free : '$' ∉ front ∧ '$' ∉ '<' :: between ∧ '$' ∉ '<' :: before ∧ '$' ∉ behind
  plain : frameTags none front = true ∧ frameTags none ('<' :: between) = true ∧
    frameTags none ('<' :: before) = true ∧ frameTags none behind = true

set_option maxRecDepth 8000 in
theorem template_slots : ∃ front between before behind,
    Slots template.toList front between before behind := by
  -- The characters of the template are spelled out once.
  obtain ⟨letters, same, parts, cut, slots⟩ : ∃ letters, template = String.ofList letters ∧
      ∃ parts, letters.splitOn '$' = parts ∧
        Slots letters (parts.getD 0 []) ((parts.getD 1 []).drop 8) ((parts.getD 2 []).drop 8)
          ((parts.getD 3 []).drop 6) :=
    ⟨_, rfl, _, rfl, ⟨by decide +kernel, by decide +kernel, by decide +kernel⟩⟩
  rw [same, String.toList_ofList]
  exact ⟨_, _, _, _, slots⟩

/-- Both showings of the title are filled in, and nothing else. -/
theorem fill_title {front between before behind : List Char} (title : String)
    (slots : Slots template.toList front between before behind) :
    fill "title" title template.toList = front ++ (title.toList ++ ('<' :: between ++
      (title.toList ++ ('<' :: before ++ '$' :: (rowsSlot ++ behind))))) := by
  obtain ⟨free, freeBetween, freeBefore, freeBehind⟩ := slots.free
  have slot : '\x7b' :: "title".toList ++ ['\x7d'] = titleSlot := rfl
  have miss : titleSlot.isPrefixOf? (rowsSlot ++ behind) = none := rfl
  have tail : '$' ∉ rowsSlot ++ behind := fun member =>
    (List.mem_append.mp member).elim (by decide) freeBehind
  rw [fill, slots.spelled, slot, Text.replaceAll_free free, Text.replaceAll_mark,
    ← List.cons_append, Text.replaceAll_free freeBetween, Text.replaceAll_mark,
    ← List.cons_append, Text.replaceAll_free freeBefore, Text.replaceAll_miss miss,
    Text.replaceAll_of_free tail]

/-- The rows go into their slot, and into every slot for them that the title spells. -/
theorem fill_rows {front between before behind : List Char} (title rows : String)
    (slots : Slots template.toList front between before behind) :
    fill "rows" rows (fill "title" title template.toList) = front ++
      (fill "rows" rows title.toList ++ ('<' :: between ++
        (fill "rows" rows title.toList ++ ('<' :: before ++ (rows.toList ++ behind))))) := by
  obtain ⟨free, freeBetween, freeBefore, freeBehind⟩ := slots.free
  have slot : '\x7b' :: "rows".toList ++ ['\x7d'] = rowsSlot := rfl
  have pass {plain : List Char} (free : '$' ∉ '<' :: plain) (rest : List Char) :
      Text.replaceAll '$' rowsSlot rows.toList (title.toList ++ ('<' :: plain ++ rest)) =
        Text.replaceAll '$' rowsSlot rows.toList title.toList ++
          ('<' :: plain ++ Text.replaceAll '$' rowsSlot rows.toList rest) := by
    rw [List.cons_append, Text.replaceAll_append_cons (by decide), ← List.cons_append,
      Text.replaceAll_free free]
  rw [fill_title _ slots, fill, fill, slot, Text.replaceAll_free free, pass freeBetween,
    pass freeBefore, Text.replaceAll_mark, Text.replaceAll_of_free freeBehind]

/-- A text without tags is marked after filling if what is put into it is. -/
theorem Marked.fill {slot value : String} {text : List Char} (free : '<' ∉ text)
    (marked : Marked allowed shown value.toList) : Marked allowed shown (fill slot value text) := by
  unfold Page.fill
  fun_induction Text.replaceAll '$' ('\x7b' :: slot.toList ++ ['\x7d']) value.toList text with
  | case1 => exact .nil
  | case2 text rest found ih =>
      rw [← List.append_eq_of_isPrefixOf?_eq_some found] at free
      exact marked.append
        (ih fun member => free (List.mem_cons_of_mem _ (List.mem_append_right _ member)))
  | case3 text _ ih =>
      exact .char (fun same => free (same ▸ List.mem_cons_self ..))
        (ih fun member => free (List.mem_cons_of_mem _ member))
  | case4 c text _ ih =>
      exact .char (fun same => free (same ▸ List.mem_cons_self ..))
        (ih fun member => free (List.mem_cons_of_mem _ member))

theorem rows_toList (page : Page) : page.rows.toList =
    page.entries.flatMap fun entry => (entry.text page.fileName).toList := by
  rw [rows, String.toList_join, List.flatMap_map]

section Entries

variable {page : Page} (frame : ∀ body, IsFrameTag body → allowed body)
  (marked : ∀ entry ∈ page.entries, entry.IsMarked allowed shown)

include frame marked

theorem rows_marked : Marked allowed shown page.rows.toList := by
  rw [rows_toList]
  exact Entry.texts_marked frame _ marked

/-- Whatever the title is, the last slot is filled with the rows, and what is around is marked. -/
theorem unlinked_split : ∃ front behind,
    page.unlinked.toList = front ++ (page.rows.toList ++ behind) ∧
      Marked allowed shown front ∧ Marked allowed shown behind := by
  obtain ⟨front, between, before, behind, slots⟩ := template_slots
  obtain ⟨plain, plainBetween, plainBefore, plainBehind⟩ := slots.plain
  have title : Marked allowed shown (fill "rows" page.rows (escape page.title).toList) :=
    .fill (escape_free _).1.1 (rows_marked frame marked)
  refine ⟨front ++ (fill "rows" page.rows (escape page.title).toList ++ ('<' :: between ++
    (fill "rows" page.rows (escape page.title).toList ++ '<' :: before))), behind, ?_, ?_,
      .of_frameTags frame plainBehind⟩
  · rw [unlinked, String.toList_ofList, fill_rows _ _ slots]
    simp only [List.append_assoc]
  · exact .append (.of_frameTags frame plain) (.append title
      (.append (.of_frameTags frame plainBetween) (.append title (.of_frameTags frame plainBefore))))

theorem unlinked_marked : Marked allowed shown page.unlinked.toList := by
  obtain ⟨front, behind, whole, early, late⟩ := unlinked_split frame marked
  rw [whole]
  exact early.append ((rows_marked frame marked).append late)

/-- The cell of an entry stands behind a marked part of the page. -/
theorem unlinked_nameCell {entry : Entry} (listed : entry ∈ page.entries) : ∃ front behind,
    page.unlinked.toList =
        front ++ ((Entry.nameCell page.fileName entry.rule).toList ++ behind) ∧
      Marked allowed shown front := by
  obtain ⟨front, behind, whole, early, -⟩ := unlinked_split frame marked
  obtain ⟨before, after, entries⟩ := List.append_of_mem listed
  rw [entries] at marked
  obtain ⟨others, later⟩ := List.forall_mem_append.mp marked
  obtain ⟨here, -⟩ := List.forall_mem_cons.mp later
  obtain ⟨opening, rest, split, parts⟩ := Entry.text_split page.fileName entry
  obtain ⟨opened, -⟩ := parts allowed shown frame here
  refine ⟨front ++ ((before.flatMap fun entry => (entry.text page.fileName).toList) ++ opening),
    rest ++ (after.flatMap fun entry => (entry.text page.fileName).toList) ++ behind, ?_,
    early.append ((Entry.texts_marked frame _ others).append opened)⟩
  rw [whole, rows_toList, entries, List.flatMap_append, List.flatMap_cons, split]
  simp only [List.append_assoc]

end Entries

end Page

end Railroad
