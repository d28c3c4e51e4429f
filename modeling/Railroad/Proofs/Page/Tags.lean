import Railroad.Proofs.Page.Segments
import Railroad.Proofs.Text.Splitting

/-!
# Links in a text with tags

A text is followed tag by tag.  Text elements are only found where a caption begins, and the only
tags that links add are those around captions that show the name of a rule; every other tag stays
where it was.
-/

namespace Railroad

namespace Page

/-- What stands between the brackets of a tag. -/
def Unbracketed (body : List Char) : Prop := '<' ∉ body ∧ '>' ∉ body

instance (body : List Char) : Decidable (Unbracketed body) :=
  inferInstanceAs (Decidable (_ ∧ _))

theorem Unbracketed.append {first second : List Char} (closed : Unbracketed first)
    (more : Unbracketed second) : Unbracketed (first ++ second) :=
  ⟨fun member => (List.mem_append.mp member).elim closed.1 more.1,
    fun member => (List.mem_append.mp member).elim closed.2 more.2⟩

theorem Unbracketed.tail {c : Char} {body : List Char} (closed : Unbracketed (c :: body)) :
    Unbracketed body :=
  ⟨fun member => closed.1 (List.mem_cons_of_mem c member),
    fun member => closed.2 (List.mem_cons_of_mem c member)⟩

/-- Neither a link nor a text element begins with such a tag. -/
def IsPlainTag (body : List Char) : Prop :=
  Unbracketed body ∧ ¬"a".toList <+: body ∧ ¬"text".toList <+: body

instance (body : List Char) : Decidable (IsPlainTag body) :=
  inferInstanceAs (Decidable (_ ∧ _))

/-- The first characters of a tag tell that it is plain. -/
theorem IsPlainTag.append {name rest : List Char} (plain : IsPlainTag name)
    (noLink : ¬name <+: "a".toList) (noText : ¬name <+: "text".toList)
    (closed : Unbracketed rest) : IsPlainTag (name ++ rest) := by
  refine ⟨plain.1.append closed, fun begins => ?_, fun begins => ?_⟩
  · rcases List.prefix_or_prefix_of_prefix begins (List.prefix_append name rest) with longer | shorter
    · exact plain.2.1 longer
    · exact noLink shorter
  · rcases List.prefix_or_prefix_of_prefix begins (List.prefix_append name rest) with longer | shorter
    · exact plain.2.2 longer
    · exact noText shorter

/-- A tag with this body, and what follows it. -/
def tagged (body rest : List Char) : List Char := '<' :: (body ++ '>' :: rest)

theorem tagged_append (body rest second : List Char) :
    tagged body rest ++ second = tagged body (rest ++ second) := by
  rw [tagged, tagged, List.cons_append, List.append_assoc, List.cons_append]

theorem closingTag_eq : closingTag = tagged "/text".toList [] := rfl

/-- A text element that shows the label on a line of its own. -/
def captionText (attributes label : List Char) : List Char :=
  tagged ("text ".toList ++ attributes) ('\n' :: (label ++ '\n' :: closingTag))

/-- A label that begins with something to be seen. -/
def Visible (label : List Char) : Prop :=
  '<' ∉ label ∧ ∃ c rest, label = c :: rest ∧ Text.isBlank c = false

/-- A text of allowed tags and of captions, whose labels are shown somewhere. -/
inductive Marked (allowed shown : List Char → Prop) : List Char → Prop where
  | nil : Marked allowed shown []
  | char {c : Char} {rest : List Char} (plain : c ≠ '<') (later : Marked allowed shown rest) :
      Marked allowed shown (c :: rest)
  | tag {body rest : List Char} (closed : Unbracketed body) (isAllowed : allowed body)
      (later : Marked allowed shown rest) : Marked allowed shown (tagged body rest)
  | caption {attributes label rest : List Char} (closed : Unbracketed attributes)
      (visible : Visible label) (isShown : shown label) (later : Marked allowed shown rest) :
      Marked allowed shown (captionText attributes label ++ rest)

/-- A text all of whose tags are allowed. -/
abbrev Tagged (allowed : List Char → Prop) : List Char → Prop := Marked allowed fun _ => False

/-- The opening tag of the row of a rule that could not be drawn. -/
def errorTag : List Char := "tr class=\"render-error\"".toList

/-- A plain tag that opens no row of an error. -/
def IsFrameTag (body : List Char) : Prop := IsPlainTag body ∧ body ≠ errorTag

instance (body : List Char) : Decidable (IsFrameTag body) :=
  inferInstanceAs (Decidable (_ ∧ _))

/-- The first characters of a tag tell that it belongs to a frame. -/
theorem IsFrameTag.append {name rest : List Char} (plain : IsPlainTag name)
    (noLink : ¬name <+: "a".toList) (noText : ¬name <+: "text".toList)
    (noRow : ¬name <+: errorTag) (closed : Unbracketed rest) : IsFrameTag (name ++ rest) :=
  ⟨plain.append noLink noText closed, fun same => noRow ⟨rest, same⟩⟩

/--
Whether a text has no other tags than those of a frame.  Inside a tag the characters since its
bracket are given in reverse.
-/
def frameTags : Option (List Char) → List Char → Bool
  | none, [] => true
  | some _, [] => false
  | none, c :: rest => if c = '<' then frameTags (some []) rest else frameTags none rest
  | some body, c :: rest =>
      if c = '>' then decide (IsFrameTag body.reverse) && frameTags none rest
      else frameTags (some (c :: body)) rest

namespace Marked

variable {allowed shown : List Char → Prop}

theorem append {first second : List Char} (marked : Marked allowed shown first)
    (more : Marked allowed shown second) : Marked allowed shown (first ++ second) := by
  induction marked with
  | nil => exact more
  | char plain _ ih => exact .char plain ih
  | tag closed isAllowed _ ih =>
      rw [tagged_append]
      exact .tag closed isAllowed ih
  | caption closed visible isShown _ ih =>
      rw [List.append_assoc]
      exact .caption closed visible isShown ih

theorem of_free {text : List Char} (free : '<' ∉ text) : Marked allowed shown text := by
  induction text with
  | nil => exact .nil
  | cons c rest ih =>
      exact .char (fun same => free (same ▸ List.mem_cons_self ..))
        (ih fun member => free (List.mem_cons_of_mem _ member))

theorem flatten {texts : List (List Char)} (marked : ∀ text ∈ texts, Marked allowed shown text) :
    Marked allowed shown texts.flatten := by
  induction texts with
  | nil => exact .nil
  | cons text rest ih =>
      obtain ⟨here, later⟩ := List.forall_mem_cons.mp marked
      exact here.append (ih later)

theorem of_opened (frame : ∀ body, IsFrameTag body → allowed body) {opened : Option (List Char)}
    {text : List Char} (tags : frameTags opened text = true) :
    Marked allowed shown (opened.elim [] (fun body => '<' :: body.reverse) ++ text) := by
  fun_induction frameTags opened text with
  | case1 => exact .nil
  | case2 => cases tags
  | case3 rest ih => exact ih tags
  | case4 c rest other ih => exact .char other (ih tags)
  | case5 body rest ih =>
      rw [Bool.and_eq_true] at tags
      have isFrame : IsFrameTag body.reverse := of_decide_eq_true tags.1
      exact .tag isFrame.1.1 (frame _ isFrame) (ih tags.2)
  | case6 body c rest _ ih =>
      have inside := ih tags
      rwa [Option.elim_some, List.reverse_cons, ← List.cons_append, List.append_assoc] at inside

theorem of_frameTags (frame : ∀ body, IsFrameTag body → allowed body) {text : List Char}
    (tags : frameTags none text = true) : Marked allowed shown text :=
  of_opened frame tags

end Marked

namespace Tagged

variable {allowed : List Char → Prop}

/-- A text is cut in front of a bracket into two texts with allowed tags. -/
theorem cut {first second : List Char} (tags : Tagged allowed (first ++ '<' :: second)) :
    Tagged allowed first ∧ Tagged allowed ('<' :: second) := by
  generalize whole : first ++ '<' :: second = text at tags
  induction tags generalizing first with
  | nil => exact absurd whole (by simp)
  | @char c rest plain _ ih =>
      cases first with
      | nil => exact absurd (List.cons.inj whole).1.symm plain
      | cons d others =>
          obtain ⟨rfl, later⟩ := List.cons.inj whole
          exact (ih later).imp_left (.char plain)
  | @tag body rest closed isAllowed later ih =>
      cases first with
      | nil =>
          rw [List.nil_append] at whole
          exact ⟨.nil, whole ▸ .tag closed isAllowed later⟩
      | cons d others =>
          -- The next bracket stands behind the end of this tag.
          obtain ⟨rfl, inside⟩ := List.cons.inj whole
          rcases List.append_eq_append_iff.mp inside with ⟨more, rfl, tail⟩ | ⟨more, rfl, tail⟩
          · cases more with
            | nil => exact absurd (List.cons.inj tail).1 (by decide)
            | cons e others =>
                have here : '<' ∈ e :: others := (List.cons.inj tail).1 ▸ List.mem_cons_self ..
                exact absurd (List.mem_append_right _ here) closed.1
          · cases more with
            | nil => exact absurd (List.cons.inj tail).1 (by decide)
            | cons e others =>
                obtain ⟨rfl, behind⟩ := List.cons.inj tail
                exact (ih behind.symm).imp_left fun front => .tag closed isAllowed front
  | caption _ _ isShown => exact isShown.elim

/-- Every bracket opens an allowed tag. -/
theorem allowed_of_split {text front behind : List Char} (tags : Tagged allowed text)
    (split : text = front ++ '<' :: behind) :
    ∃ body rest, behind = body ++ '>' :: rest ∧ Unbracketed body ∧ allowed body := by
  subst split
  have opened := tags.cut.2
  generalize whole : '<' :: behind = later at opened
  cases opened with
  | nil => cases whole
  | char plain => exact absurd (List.cons.inj whole).1.symm plain
  | tag closed isAllowed => exact ⟨_, _, (List.cons.inj whole).2, closed, isAllowed⟩
  | caption _ _ isShown => exact isShown.elim

end Tagged

/-- A caption has two tags. -/
theorem Tagged.captionText {allowed : List Char → Prop} {attributes label : List Char}
    (closed : Unbracketed attributes) (free : '<' ∉ label)
    (opens : allowed ("text ".toList ++ attributes)) (closes : allowed "/text".toList) :
    Tagged allowed (captionText attributes label) := by
  refine .tag (.append (by decide) closed) opens (.char (by decide) (.append (.of_free free) ?_))
  exact .char (by decide) (.tag (by decide) closes .nil)

/-- Blanks and a closing tag follow: then there is nothing else. -/
theorem closing?_stops {inner rest trailing tail : List Char} (plain : '<' ∉ inner)
    (found : closing? (inner ++ closingTag ++ rest) = some (trailing, tail)) :
    trailing = inner ∧ tail = rest ∧ ∀ c ∈ trailing, Text.isBlank c = true := by
  obtain ⟨blank, split⟩ := closing?_eq_some_iff.mp found
  have noBracket : '<' ∉ trailing := fun member =>
    Bool.false_ne_true (Eq.trans (by decide) (blank '<' member))
  rw [List.append_assoc, List.append_assoc] at split
  obtain ⟨same, tails⟩ := append_cons_inj (c := '<') split plain noBracket
  exact ⟨same.symm, (List.append_cancel_left tails).symm, blank⟩

/-- A content ends at the first closing tag. -/
theorem content?_stops {taken inner rest content trailing tail : List Char} (plain : '<' ∉ inner)
    (nonempty : inner ≠ [])
    (found : content? taken (inner ++ closingTag ++ rest) = some (content, trailing, tail)) :
    tail = rest ∧ content ++ trailing = taken.reverse ++ inner ∧
      ∀ c ∈ trailing, Text.isBlank c = true := by
  induction inner generalizing taken with
  | nil => exact absurd rfl nonempty
  | cons c others ih =>
      have later : '<' ∉ others := fun member => plain (List.mem_cons_of_mem _ member)
      rw [List.cons_append, List.cons_append, content?] at found
      split at found
      · cases found
      · split at found
        next blanks after ends =>
          cases found
          obtain ⟨rfl, rfl, blank⟩ := closing?_stops later ends
          exact ⟨rfl, by simp, blank⟩
        next none =>
          cases others with
          | nil =>
              have closes : closing? (closingTag ++ rest) = some ([], rest) := rfl
              exact absurd (none.symm.trans closes) (Option.some_ne_none _).symm
          | cons d more =>
              obtain ⟨rfl, split, blank⟩ := ih later (List.cons_ne_nil _ _) found
              exact ⟨rfl, by simpa using split, blank⟩

/-- The element is the caption: it shows the label, with the blanks behind it cut off. -/
structure Shows (element : TextElement) (attributes label : List Char) : Prop where
  written : element.written = captionText attributes label
  inside : element.content ++ element.trailing = label ++ ['\n']
  trailing : ∀ c ∈ element.trailing, Text.isBlank c = true

theorem opening?_tag {attributes inner : List Char} (closed : Unbracketed attributes) :
    opening? (tagged ("text ".toList ++ attributes) inner) =
      some ("<text ".toList ++ attributes ++ ['>'], inner) := by
  refine opening?_eq_some_iff.mpr ⟨⟨' ', attributes, rfl, Text.isBlank_space, closed.2⟩, ?_⟩
  rw [tagged, List.append_assoc, List.append_assoc]
  rfl

/-- The text element that begins with a caption, if there is one, is the caption. -/
theorem textElement?_caption {attributes label rest tail : List Char} {element : TextElement}
    (closed : Unbracketed attributes) (visible : Visible label)
    (found : textElement? (captionText attributes label ++ rest) = some (element, tail)) :
    tail = rest ∧ Shows element attributes label := by
  have whole := textElement?_written found
  obtain ⟨free, c, others, rfl, seen⟩ := visible
  have inner : '\n' :: (c :: others ++ '\n' :: closingTag) ++ rest =
      '\n' :: (c :: others ++ ['\n'] ++ closingTag ++ rest) := by simp
  have noBracket : '<' ∉ c :: others ++ ['\n'] := by simpa using free
  rw [captionText, tagged_append, textElement?, opening?_tag closed, inner] at found
  dsimp only at found
  rw [List.takeWhile_cons_of_pos Text.isBlank_lineFeed,
    List.dropWhile_cons_of_pos Text.isBlank_lineFeed, List.cons_append, List.cons_append,
    List.cons_append, List.takeWhile_cons_of_neg (by rw [seen]; exact Bool.false_ne_true),
    List.dropWhile_cons_of_neg (by rw [seen]; exact Bool.false_ne_true), List.reverse_singleton,
    body?] at found
  split at found
  next content trailing after here =>
    cases found
    obtain ⟨rfl, inside, blank⟩ := content?_stops noBracket (List.cons_ne_nil _ _) here
    exact ⟨rfl, (List.append_cancel_right whole).symm, inside, blank⟩
  next =>
    -- The line feed given back cannot begin a content.
    rw [body?, content?, if_pos rfl] at found
    cases found

/-! ## Rewriting texts -/

/-- The text in which every text element is shown as `display` says. -/
def rewritten (display : TextElement → List Char) (text : List Char) : List Char :=
  (segments text).text display

section Rewriting

variable {display : TextElement → List Char} {text rest : List Char}

theorem segmentsFrom_element {plain : List Char} {element : TextElement}
    (found : textElement? text = some (element, rest)) :
    segmentsFrom plain text = .cut plain.reverse element (segmentsFrom [] rest) := by
  rw [segmentsFrom.eq_def]
  split
  next other after here =>
    cases found.symm.trans here
    rfl
  next none => exact absurd (found.symm.trans none) (Option.some_ne_none _)

theorem segmentsFrom_char {plain : List Char} {c : Char} (none : textElement? (c :: rest) = none) :
    segmentsFrom plain (c :: rest) = segmentsFrom (c :: plain) rest := by
  rw [segmentsFrom.eq_def]
  split
  next found => exact absurd (none.symm.trans found) (Option.some_ne_none _).symm
  next => rfl

theorem segmentsFrom_nil (plain : List Char) : segmentsFrom plain [] = .last plain.reverse := by
  rw [segmentsFrom.eq_def]
  rfl

/-- The characters before a text are not searched again. -/
theorem segmentsFrom_display (plain text : List Char) :
    (segmentsFrom plain text).text display = plain.reverse ++ rewritten display text := by
  suffices step : ∀ before taken, (segmentsFrom (taken ++ before) text).text display =
      before.reverse ++ (segmentsFrom taken text).text display from step plain []
  intro before taken
  fun_induction segmentsFrom taken text with
  | case1 taken text element rest found ih =>
      rw [segmentsFrom_element found, Segments.text, Segments.text, List.reverse_append,
        List.append_assoc, List.append_assoc, List.append_assoc]
  | case2 taken none => rw [segmentsFrom_nil, Segments.text, Segments.text, List.reverse_append]
  | case3 taken c rest none ih =>
      rw [segmentsFrom_char none]
      exact ih

theorem rewritten_element {element : TextElement} (found : textElement? text = some (element, rest)) :
    rewritten display text = display element ++ rewritten display rest := by
  rw [rewritten, segments, segmentsFrom_element found]
  rfl

theorem rewritten_cons {c : Char} (none : textElement? (c :: rest) = none) :
    rewritten display (c :: rest) = c :: rewritten display rest := by
  rw [rewritten, segments, segmentsFrom_char none]
  exact segmentsFrom_display [c] rest

theorem rewritten_nil : rewritten display [] = [] := by
  rw [rewritten, segments, segmentsFrom_nil]
  rfl

/-- Text elements begin with a bracket. -/
theorem textElement?_char {c : Char} (plain : c ≠ '<') : textElement? (c :: rest) = none := by
  have begins : openingMark.isPrefixOf? (c :: rest) = none :=
    if_neg fun same => plain (eq_of_beq same).symm
  rw [textElement?, opening?, begins]

theorem rewritten_free {free : List Char} (plain : '<' ∉ free) :
    rewritten display (free ++ text) = free ++ rewritten display text := by
  induction free with
  | nil => rfl
  | cons c others ih =>
      rw [List.cons_append, rewritten_cons
        (textElement?_char fun same => plain (same ▸ List.mem_cons_self ..)),
        ih fun member => plain (List.mem_cons_of_mem _ member), List.cons_append]

/-- A bracket that opens no text element leaves its tag as it is. -/
theorem rewritten_tagged {body : List Char} (free : '<' ∉ body)
    (none : textElement? (tagged body rest) = none) :
    rewritten display (tagged body rest) = tagged body (rewritten display rest) := by
  have behind : '<' ∉ body ++ ['>'] := by simpa using free
  rw [tagged, rewritten_cons none, List.append_cons, rewritten_free behind, tagged,
    List.append_cons _ _ (rewritten display rest)]

theorem textElement?_plain {body : List Char} (plain : IsPlainTag body) :
    textElement? (tagged body rest) = none := by
  have begins : openingMark.isPrefixOf? (tagged body rest) = none := by
    cases found : openingMark.isPrefixOf? (tagged body rest) with
    | none => rfl
    | some behind =>
        have inside : body ++ '>' :: rest = "text".toList ++ behind :=
          (List.cons.inj (List.append_eq_of_isPrefixOf?_eq_some found)).2.symm
        rcases List.append_eq_append_iff.mp inside with ⟨more, long, later⟩ | ⟨more, short, _⟩
        · cases more with
          | nil => exact absurd ⟨[], by rw [long, List.append_nil, List.append_nil]⟩ plain.2.2
          | cons d others =>
              have here : '>' ∈ "text".toList := by
                rw [long, (List.cons.inj later).1]
                exact List.mem_append_right _ (List.mem_cons_self ..)
              exact absurd here (by decide)
        · exact absurd ⟨more, short.symm⟩ plain.2.2
  rw [textElement?, opening?, begins]

/-- A caption passes as it is or as the display of an element that shows it. -/
theorem rewritten_caption {attributes label : List Char} (closed : Unbracketed attributes)
    (visible : Visible label) (display : TextElement → List Char) (rest : List Char) :
    ∃ out, (out = captionText attributes label ∨
        ∃ element, Shows element attributes label ∧ out = display element) ∧
      rewritten display (captionText attributes label ++ rest) = out ++ rewritten display rest := by
  cases found : textElement? (captionText attributes label ++ rest) with
  | some taken =>
      obtain ⟨element, tail⟩ := taken
      obtain ⟨rfl, shows⟩ := textElement?_caption closed visible found
      exact ⟨display element, Or.inr ⟨element, shows, rfl⟩, rewritten_element found⟩
  | none =>
      refine ⟨captionText attributes label, Or.inl rfl, ?_⟩
      have free : '<' ∉ '\n' :: (label ++ ['\n']) := by simpa using visible.1
      have inner (behind : List Char) : '\n' :: (label ++ '\n' :: closingTag) ++ behind =
          '\n' :: (label ++ ['\n']) ++ tagged "/text".toList behind := by
        simp [closingTag_eq, tagged]
      have opening : '<' ∉ "text ".toList ++ attributes :=
        (Unbracketed.append (by decide) closed).1
      rw [captionText, tagged_append] at found
      rw [captionText, tagged_append, rewritten_tagged opening found, inner, rewritten_free free,
        rewritten_tagged (by decide) (textElement?_plain (by decide)), tagged_append, inner]

/-- A text of plain tags is not changed. -/
theorem Tagged.rewritten {text : List Char} (tags : Tagged IsPlainTag text)
    (display : TextElement → List Char) (rest : List Char) :
    rewritten display (text ++ rest) = text ++ rewritten display rest := by
  induction tags with
  | nil => rfl
  | char plain _ ih =>
      rw [List.cons_append, rewritten_cons (textElement?_char plain), ih, List.cons_append]
  | tag closed plain _ ih =>
      rw [tagged_append, rewritten_tagged closed.1 (textElement?_plain plain), ih, tagged_append]
  | caption _ _ isShown => exact isShown.elim

/--
Followed from its beginning, a marked text is rewritten on its own, and what stands behind it is
rewritten as if it stood alone.
-/
theorem Marked.rewritten_append {tags shown allowed : List Char → Prop}
    (marked : Marked tags shown text) (display : TextElement → List Char)
    (plain : ∀ body, tags body → IsPlainTag body ∧ allowed body)
    (captions : ∀ attributes, allowed ("text ".toList ++ attributes))
    (closing : allowed "/text".toList)
    (displayed : ∀ element attributes label, shown label → Shows element attributes label →
      Tagged allowed element.written → Tagged allowed (display element))
    (rest : List Char) :
    ∃ out, Tagged allowed out ∧
      Page.rewritten display (text ++ rest) = out ++ Page.rewritten display rest := by
  induction marked with
  | nil => exact ⟨[], .nil, rfl⟩
  | @char c text other _ ih =>
      obtain ⟨out, made, same⟩ := ih
      refine ⟨c :: out, .char other made, ?_⟩
      rw [List.cons_append, rewritten_cons (textElement?_char other), same, List.cons_append]
  | @tag body text closed isTag _ ih =>
      obtain ⟨out, made, same⟩ := ih
      obtain ⟨isPlain, isAllowed⟩ := plain body isTag
      refine ⟨tagged body out, .tag closed isAllowed made, ?_⟩
      rw [tagged_append, rewritten_tagged closed.1 (textElement?_plain isPlain), same, tagged_append]
  | @caption attributes label text closed visible isShown _ ih =>
      obtain ⟨out, made, same⟩ := ih
      obtain ⟨first, passed, step⟩ := rewritten_caption closed visible display (text ++ rest)
      have written : Tagged allowed (captionText attributes label) :=
        .captionText closed visible.1 (captions attributes) closing
      refine ⟨first ++ out, .append ?_ made, ?_⟩
      · rcases passed with rfl | ⟨element, shows, rfl⟩
        · exact written
        · exact displayed element attributes label isShown shows (shows.written ▸ written)
      · rw [List.append_assoc, step, same, List.append_assoc]

end Rewriting

end Page

end Railroad
