import Railroad.Page.OfGrammar
import Railroad.Proofs.Drawing.Captions
import Railroad.Proofs.Page.Rows

/-!
# Targets of links

A caption becomes a link when its text is the name of a declared rule.  References of a shown rule
are shown themselves, so their links lead to a row of the page; a remark that is spelled like a
rule is linked as well, whether or not the rule is shown.
-/

namespace Railroad

/-- The text of the label, apart from blanks behind it. -/
def ReadAs (name label : List Char) : Prop :=
  ∃ trailing, name ++ trailing = label ++ ['\n'] ∧ ∀ c ∈ trailing, Text.isBlank c = true

theorem IsWord.not_blank {word : String} (isWord : IsWord word) :
    ∀ c ∈ word.toList, Text.isBlank c = false := by
  intro c member
  rw [Bool.eq_false_iff]
  intro blank
  exact Bool.false_ne_true
    ((Text.not_wordCharacter_of_blank blank).symm.trans (isWord.characters c member))

theorem remarks_words : ∀ text ∈ remarks, IsWord text := by
  simp only [remarks, List.forall_mem_cons]
  exact ⟨.of_all rfl (by decide) (by decide), .of_all rfl (by decide) (by decide),
    .of_all rfl (by decide) (by decide), List.forall_mem_nil _⟩

namespace Markup

/-- Words stand in a text as they are. -/
theorem escapeText_of_isWord {word : String} (isWord : IsWord word) : escapeText word = word := by
  have kept : ∀ c ∈ word.toList, escapeTextChar c = [c] := by
    intro c member
    unfold escapeTextChar
    split
    · exact absurd member (isWord.not_mem (by decide))
    · exact absurd member (isWord.not_mem (by decide))
    · exact absurd member (isWord.not_mem (by decide))
    · rfl
  rw [escapeText, List.flatMap_congr kept, List.flatMap_singleton', String.ofList_toList]

end Markup

namespace ReadAs

variable {name label : List Char}

/-- A word is read as itself only. -/
theorem eq_of_words {name word : String} (isName : IsWord name) (isWord : IsWord word)
    (reads : ReadAs name.toList word.toList) : name = word := by
  obtain ⟨trailing, same, blank⟩ := reads
  have noFeed : '\n' ∉ name.toList := isName.not_mem (by decide)
  rcases List.append_eq_append_iff.mp same with ⟨more, spelled, tail⟩ | ⟨more, spelled, tail⟩
  · cases more with
    | nil => exact String.toList_inj.mp (by rw [spelled, List.append_nil])
    | cons c others =>
        have here : c ∈ word.toList := by
          rw [spelled]
          exact List.mem_append_right _ (List.mem_cons_self ..)
        have isBlank := blank c (by rw [tail]; exact List.mem_cons_self ..)
        exact absurd ((isWord.not_blank c here).symm.trans isBlank) Bool.false_ne_true
  · cases more with
    | nil => exact String.toList_inj.mp (by rw [spelled, List.append_nil])
    | cons c others =>
        have here : c ∈ name.toList := by
          rw [spelled]
          exact List.mem_append_right _ (List.mem_cons_self ..)
        rw [← (List.cons.inj tail).1] at here
        exact absurd here noFeed

/-- A word with a space and more behind it is read as no word. -/
theorem not_of_space {name : String} (before after : List Char) (isName : IsWord name)
    (seen : ∃ c ∈ after, Text.isBlank c = false)
    (reads : ReadAs name.toList (before ++ ' ' :: after)) : False := by
  obtain ⟨trailing, same, blank⟩ := reads
  obtain ⟨letter, member, visible⟩ := seen
  rw [List.append_assoc] at same
  have inTail : letter ∈ trailing := by
    rcases List.append_eq_append_iff.mp same with ⟨more, _, tail⟩ | ⟨more, spelled, tail⟩
    · rw [tail]
      exact List.mem_append_right _ (List.mem_append_left _ (List.mem_cons_of_mem _ member))
    · cases more with
      | nil =>
          rw [List.nil_append] at tail
          rw [← tail]
          exact List.mem_append_left _ (List.mem_cons_of_mem _ member)
      | cons c others =>
          have here : ' ' ∈ name.toList := by
            rw [spelled, (List.cons.inj tail).1]
            exact List.mem_append_right _ (List.mem_cons_self ..)
          exact absurd here (isName.not_mem (by decide))
  exact absurd (visible.symm.trans (blank letter inTail)) Bool.false_ne_true

/-- A label that begins like no word is read as no word. -/
theorem not_of_first {name : String} {c : Char} {rest : List Char} (isName : IsWord name)
    (mark : Text.isAlphabetic c = false) (reads : ReadAs name.toList (c :: rest)) : False := by
  obtain ⟨trailing, same, -⟩ := reads
  obtain ⟨first, run, spelled, letter, -⟩ := isName
  rw [spelled] at same
  obtain ⟨rfl, -⟩ := List.cons.inj same
  exact absurd (mark.symm.trans letter) Bool.false_ne_true

end ReadAs

namespace Readable

variable {references : List String} {text : String}

open Markup

/-- What can be read begins with something to be seen. -/
theorem visible (readable : Readable references text) : Page.Visible (escapeText text).toList := by
  have word {word : String} (isWord : IsWord word) : ∃ c rest,
      (escapeText word).toList = c :: rest ∧ Text.isBlank c = false := by
    obtain ⟨c, run, spelled, -⟩ := id isWord
    rw [escapeText_of_isWord isWord]
    exact ⟨c, run, spelled, isWord.not_blank c (spelled ▸ List.mem_cons_self ..)⟩
  refine ⟨escapeText_free text, ?_⟩
  cases readable with
  | reference isWord _ => exact word isWord
  | remark known => exact word (remarks_words text known)
  | wildcard known =>
      simp only [List.mem_cons, List.not_mem_nil, or_false] at known
      rcases known with rfl | rfl
      · exact ⟨_, _, rfl, by decide⟩
      · exact ⟨_, _, rfl, by decide⟩
  | quoted spelled mark =>
      simp only [List.mem_cons, List.not_mem_nil, or_false] at mark
      rw [escapeText, String.toList_ofList, spelled, List.flatMap_cons]
      rcases mark with rfl | rfl
      · exact ⟨_, _, rfl, by decide⟩
      · exact ⟨_, _, rfl, by decide⟩

/-- Only references and remarks are read as names, and only as the names that they are. -/
theorem named (readable : Readable references text) {name : String} (isName : IsWord name)
    (reads : ReadAs name.toList (escapeText text).toList) :
    name = text ∧ (name ∈ references ∨ name ∈ remarks) := by
  have word (isWord : IsWord text) : name = text := by
    rw [escapeText_of_isWord isWord] at reads
    exact reads.eq_of_words isName isWord
  cases readable with
  | reference isWord member => exact ⟨word isWord, Or.inl (word isWord ▸ member)⟩
  | remark known =>
      have same := word (remarks_words text known)
      exact ⟨same, Or.inr (same ▸ known)⟩
  | wildcard known =>
      simp only [List.mem_cons, List.not_mem_nil, or_false] at known
      rcases known with rfl | rfl
      · exact (ReadAs.not_of_space "any".toList "char".toList isName ⟨'c', by decide, by decide⟩ reads).elim
      · exact (ReadAs.not_of_space "any".toList "token".toList isName ⟨'t', by decide, by decide⟩ reads).elim
  | quoted spelled mark =>
      simp only [List.mem_cons, List.not_mem_nil, or_false] at mark
      rw [escapeText, String.toList_ofList, spelled, List.flatMap_cons] at reads
      rcases mark with rfl | rfl
      · exact (ReadAs.not_of_first isName (by decide) reads).elim
      · exact (ReadAs.not_of_first isName (by decide) reads).elim

end Readable

namespace Page

/-- The text has a link to this target. -/
def HasLink (text target : String) : Prop :=
  '"' ∉ target.toList ∧ ("<a xlink:href=\"#" ++ target ++ "\">").toList <:+: text.toList

/-- The text has a cell for the name of a rule with this anchor. -/
def HasCell (text target : String) : Prop :=
  ("<td id=\"" ++ target ++ "\">").toList <:+: text.toList

theorem hasCell_of_nameCell {text fileName rule : String}
    (inside : (Entry.nameCell fileName rule).toList <:+: text.toList) :
    HasCell text (anchor fileName rule) := by
  obtain ⟨front, behind, split⟩ := inside
  refine ⟨front, "<h4>".toList ++ (escape rule).toList ++ "</h4></td>".toList ++ behind, ?_⟩
  rw [← split]
  simp [Entry.nameCell]

/-- The opening tag of a link to a rule. -/
def linkTag (fileName name : String) : List Char :=
  "a xlink:href=\"#".toList ++ ((anchor fileName name).toList ++ ['"'])

theorem linkTag_eq (fileName name : String) : linkTag fileName name =
    "a xlink:href=\"#".toList ++ ((anchor fileName name).toList ++ ['"']) := rfl

theorem linkTag_unbracketed (fileName name : String) : Unbracketed (linkTag fileName name) := by
  have start : Unbracketed "a xlink:href=\"#".toList := by decide
  have value : Unbracketed ((anchor fileName name).toList ++ ['"']) :=
    (escape_free _).1.append (by decide)
  rw [linkTag_eq]
  exact start.append value

/-- A link encloses an element in two tags. -/
theorem linked_eq {fileName : String} {isRule : String → Bool} (element : TextElement) :
    element.linked fileName isRule =
      if isRule (String.ofList element.content) then
        tagged (linkTag fileName (String.ofList element.content))
          (element.written ++ tagged "/a".toList [])
      else element.written := by
  unfold TextElement.linked
  dsimp only
  split
  · simp [tagged, linkTag_eq]
  · rfl

/-- A text element as it stands on the page: in its link, if the page has links. -/
def display (page : Page) (isRule : String → Bool) : TextElement → List Char :=
  if page.crossLinks then TextElement.linked page.fileName isRule else TextElement.written

theorem text_rewritten (page : Page) (isRule : String → Bool) :
    (page.text isRule).toList = rewritten (page.display isRule) page.unlinked.toList := by
  unfold text display
  split
  · rw [addLinks, String.toList_ofList, rewritten]
  · exact (segments_text _).symm

section Links

variable {page : Page} {isRule : String → Bool} {shown allowed : List Char → Prop}

/-- An element on the page has its own tags and those of its link. -/
theorem display_tagged {element : TextElement} (tags : Tagged allowed element.written)
    (opens : isRule (String.ofList element.content) = true →
      allowed (linkTag page.fileName (String.ofList element.content)))
    (closes : allowed "/a".toList) : Tagged allowed (page.display isRule element) := by
  unfold display
  split
  · rw [linked_eq]
    split
    next rule =>
      exact .tag (linkTag_unbracketed ..) (opens rule)
        (tags.append (.tag (by decide) closes .nil))
    next => exact tags
  · exact tags

/-- The tags of a page are those around its rows and captions, of its captions and of its links. -/
theorem text_tagged {tags : List Char → Prop} (marked : Marked tags shown page.unlinked.toList)
    (plain : ∀ body, tags body → IsPlainTag body ∧ allowed body)
    (frame : ∀ body, IsFrameTag body → allowed body)
    (captions : ∀ attributes, allowed ("text ".toList ++ attributes))
    (opens : ∀ name label, isRule name = true → shown label → ReadAs name.toList label →
      allowed (linkTag page.fileName name)) : Tagged allowed (page.text isRule).toList := by
  have displayed (element : TextElement) (attributes label : List Char) (isShown : shown label)
      (shows : Shows element attributes label) (tags : Tagged allowed element.written) :
      Tagged allowed (page.display isRule element) := by
    refine display_tagged tags (fun rule => opens _ label rule isShown ?_) (frame _ (by decide))
    rw [String.toList_ofList]
    exact ⟨element.trailing, shows.inside, shows.trailing⟩
  obtain ⟨out, made, same⟩ := marked.rewritten_append (page.display isRule) plain captions
    (frame _ (by decide)) displayed []
  rw [List.append_nil, rewritten_nil, List.append_nil] at same
  rwa [text_rewritten, same]

/-- Links lead to rules whose names are shown. -/
def LinksShown (fileName : String) (isRule : String → Bool) (shown : List Char → Prop)
    (body : List Char) : Prop :=
  "a".toList <+: body → ∃ name label, isRule name = true ∧ shown label ∧
    ReadAs name.toList label ∧ body = linkTag fileName name

variable (marked : ∀ entry ∈ page.entries, entry.IsMarked IsPlainTag shown)

include marked

/-- A link of the page leads to a rule whose name is shown. -/
theorem shown_of_link {target : String} (link : HasLink (page.text isRule) target) :
    ∃ name label, isRule name = true ∧ shown label ∧ ReadAs name.toList label ∧
      target = anchor page.fileName name := by
  have noLink {body : List Char} (plain : IsPlainTag body) :
      LinksShown page.fileName isRule shown body := fun link => absurd link plain.2.1
  have tags : Tagged (LinksShown page.fileName isRule shown) (page.text isRule).toList :=
    text_tagged (unlinked_marked (fun _ => And.left) marked) (fun _ plain => ⟨plain, noLink plain⟩)
      (fun _ frame => noLink frame.1)
      (fun _ link => absurd (List.cons_prefix_cons.mp link).1 (by decide))
      fun name label rule isShown reads _ => ⟨name, label, rule, isShown, reads, rfl⟩
  obtain ⟨noQuote, front, behind, inside⟩ := link
  have split : (page.text isRule).toList = front ++ '<' ::
      ("a xlink:href=\"#".toList ++ (target.toList ++ '"' :: '>' :: behind)) := by
    rw [← inside]
    simp
  obtain ⟨body, rest, ends, -, isAllowed⟩ := tags.allowed_of_split split
  have isLink : "a".toList <+: body := by
    cases body with
    | nil => exact absurd (List.cons.inj ends).1 (by decide)
    | cons c others => exact ⟨others, congrArg (· :: others) (List.cons.inj ends).1⟩
  obtain ⟨name, label, rule, isShown, reads, rfl⟩ := isAllowed isLink
  rw [linkTag_eq, List.append_assoc, List.append_assoc] at ends
  have values := (append_cons_inj (List.append_cancel_left ends) noQuote (escape_free _).2).1
  exact ⟨name, label, rule, isShown, reads, String.toList_inj.mp values⟩

/-- The cells of the rules stand in the page, and links leave them as they are. -/
theorem text_nameCell (isRule : String → Bool) {entry : Entry} (listed : entry ∈ page.entries) :
    (Entry.nameCell page.fileName entry.rule).toList <:+: (page.text isRule).toList := by
  obtain ⟨front, behind, whole, early⟩ := unlinked_nameCell (fun _ => And.left) marked listed
  have cell : Tagged IsPlainTag (Entry.nameCell page.fileName entry.rule).toList :=
    Entry.nameCell_marked (fun _ => And.left) ..
  have passed (element : TextElement) (tags : Tagged (fun _ => True) element.written) :
      Tagged (fun _ => True) (page.display isRule element) :=
    display_tagged tags (fun _ => trivial) trivial
  obtain ⟨out, -, same⟩ := early.rewritten_append (page.display isRule)
    (fun _ plain => ⟨plain, trivial⟩) (fun _ => trivial) trivial
    (fun element _ _ _ _ => passed element)
    ((Entry.nameCell page.fileName entry.rule).toList ++ behind)
  refine ⟨out, rewritten (page.display isRule) behind, ?_⟩
  rw [text_rewritten, whole, same, cell.rewritten, List.append_assoc]

end Links

end Page

/-- What a selected rule refers to is selected if it has a diagram. -/
theorem DrawnGrammar.select_closed {drawn : DrawnGrammar} {root : Option String}
    {rule target : String} (selected : rule ∈ drawn.select root)
    (edge : target ∈ drawn.graph.targetsOf rule) (isDrawn : (drawn.diagram? target).isSome = true) :
    target ∈ drawn.select root := by
  cases root with
  | none => exact Catalog.mem_keys.mpr isDrawn
  | some root =>
      obtain ⟨length, walk⟩ := (drawn.graph.mem_select_root drawn.diagrams.keys root rule).mp selected
      apply (drawn.graph.mem_select_root drawn.diagrams.keys root target).mpr
      exact ⟨length + 1, .step walk edge⟩

namespace GrammarPage

open Page

/-- The descriptions of the rules of a source, if the settings ask for them. -/
def descriptionsOf (settings : Settings) (source : String) : Catalog String String :=
  match settings.comments, tokenize source with
  | true, .ok lexemes => documentation lexemes
  | _, _ => .empty

/-- The source is scanned a second time for its comments; that cannot fail where it was read. -/
theorem build_described {source : String} {grammar : Grammar}
    (parsed : Grammar.parse source = .ok grammar) (settings : Settings) (renderer : Renderer)
    (fileName : String) (root : Option String) :
    build settings renderer fileName source root =
      .ok (ofGrammar settings renderer fileName root grammar (descriptionsOf settings source)) := by
  obtain ⟨lexemes, _, scanned, _⟩ := Grammar.parse_eq_ok.mp parsed
  cases comments : settings.comments with
  | false =>
      rw [build, parsed, comments, descriptionsOf, comments]
      rfl
  | true =>
      rw [build, parsed, comments, scanned, descriptionsOf, comments, scanned]
      rfl

/-- A grammar that can be read has a page. -/
theorem build_of_parsed {source : String} {grammar : Grammar}
    (parsed : Grammar.parse source = .ok grammar) (settings : Settings) (renderer : Renderer)
    (fileName : String) (root : Option String) : ∃ descriptions,
      build settings renderer fileName source root =
        .ok (ofGrammar settings renderer fileName root grammar descriptions) :=
  ⟨_, build_described parsed settings renderer fileName root⟩

theorem Rendering.entry_rule (descriptions : Catalog String String) (rendering : Rendering) :
    (rendering.entry descriptions).rule = rendering.rule := by
  unfold Rendering.entry
  split <;> rfl

theorem mem_renderings {renderer : Renderer} {drawn : DrawnGrammar} {rules : List String}
    {rendering : Rendering} : rendering ∈ renderings renderer drawn rules ↔
      ∃ rule ∈ rules, ∃ diagram, drawn.diagram? rule = some diagram ∧
        ⟨rule, renderer diagram⟩ = rendering := by
  simp only [renderings, List.mem_filterMap, Option.map_eq_some_iff]

/-- The title and the entries of the page of a grammar. -/
def contents (settings : Settings) (renderer : Renderer) (fileName : String) (root : Option String)
    (grammar : Grammar) (descriptions : Catalog String String) : Page where
  fileName
  title := settings.title.getD grammar.name.value
  crossLinks := settings.crossLinks
  entries := (renderings renderer grammar.drawn (grammar.drawn.select root)).map
    (Rendering.entry descriptions)

theorem ofGrammar_html (settings : Settings) (renderer : Renderer) (fileName : String)
    (root : Option String) (grammar : Grammar) (descriptions : Catalog String String) :
    (ofGrammar settings renderer fileName root grammar descriptions).html =
      (contents settings renderer fileName root grammar descriptions).text
        fun name => (grammar.drawn.diagram? name).isSome := rfl

/-- A label that can be read in the diagram of one of the rules. -/
def LabelOf (graph : ReferenceGraph) (rules : List String) (label : List Char) : Prop :=
  ∃ rule ∈ rules, ∃ text, Readable (graph.targetsOf rule) text ∧
    label = (Markup.escapeText text).toList

section Grammars

variable {source : String} {grammar : Grammar} (parsed : Grammar.parse source = .ok grammar)

include parsed

section Contents

variable (settings : Settings) (metrics : Metrics Float32) (fileName : String)
  (root : Option String) (descriptions : Catalog String String)

/-- What the entries of a page draw are labels of its rules. -/
theorem contents_marked {allowed : List Char → Prop}
    (frame : ∀ body, IsFrameTag body → allowed body)
    (refused : metrics.unusable? ≠ none → allowed errorTag) :
    ∀ entry ∈ (contents settings (svgRenderer metrics) fileName root grammar descriptions).entries,
      entry.IsMarked allowed (LabelOf grammar.drawn.graph (grammar.drawn.select root)) := by
  intro entry listed
  obtain ⟨rendering, member, rfl⟩ := List.mem_map.mp listed
  obtain ⟨rule, selected, diagram, drawn, rfl⟩ := mem_renderings.mp member
  unfold Rendering.entry svgRenderer
  dsimp only
  cases unusable : metrics.unusable? with
  | some measure => exact refused (unusable ▸ Option.some_ne_none _)
  | none =>
      refine diagram.svg_marked frame metrics fun label inside => ?_
      have readable := Grammar.drawn_readable parsed drawn label inside
      exact ⟨readable.visible, rule, selected, _, readable, rfl⟩

/-- Entries are marked for links whether or not they are drawn. -/
theorem contents_plain :
    ∀ entry ∈ (contents settings (svgRenderer metrics) fileName root grammar descriptions).entries,
      entry.IsMarked IsPlainTag (LabelOf grammar.drawn.graph (grammar.drawn.select root)) :=
  contents_marked parsed settings metrics fileName root descriptions (fun _ => And.left)
    fun _ => by decide

/-- Every selected rule with a diagram has its cell on the page. -/
theorem nameCell_of_selected {rule : String} (selected : rule ∈ grammar.drawn.select root)
    (isDrawn : (grammar.drawn.diagram? rule).isSome = true) :
    (Entry.nameCell fileName rule).toList <:+: (ofGrammar settings (svgRenderer metrics) fileName
      root grammar descriptions).html.toList := by
  obtain ⟨diagram, drawn⟩ := Option.isSome_iff_exists.mp isDrawn
  have rendered : ⟨rule, svgRenderer metrics diagram⟩ ∈
      renderings (svgRenderer metrics) grammar.drawn (grammar.drawn.select root) :=
    mem_renderings.mpr ⟨rule, selected, diagram, drawn, rfl⟩
  have named := Rendering.entry_rule descriptions ⟨rule, svgRenderer metrics diagram⟩
  have cell := text_nameCell (contents_plain parsed settings metrics fileName root descriptions)
    (fun name => (grammar.drawn.diagram? name).isSome) (List.mem_map_of_mem rendered)
  rw [named] at cell
  exact cell

end Contents

/-- A name that is read in the drawings of selected rules is selected itself, or is a remark. -/
theorem selected_of_read {root : Option String} {name : String} {label : List Char}
    (isDrawn : (grammar.drawn.diagram? name).isSome = true)
    (shown : LabelOf grammar.drawn.graph (grammar.drawn.select root) label)
    (reads : ReadAs name.toList label) : name ∈ grammar.drawn.select root ∨ name ∈ remarks := by
  obtain ⟨rule, selected, text, readable, rfl⟩ := shown
  rcases (readable.named (Grammar.isWord_of_drawn parsed isDrawn) reads).2 with edge | remark
  · exact Or.inl (DrawnGrammar.select_closed selected edge isDrawn)
  · exact Or.inr remark

/--
Every link on the page of a grammar leads to a row of the page, except where a remark in a diagram
is spelled like a declared rule that is not selected.  This does not depend on the settings.
-/
theorem links_targeted (settings : Settings) (metrics : Metrics Float32) (fileName : String)
    (root : Option String) :
    ∃ page, build settings (svgRenderer metrics) fileName source root = .ok page ∧
      ∀ target, HasLink page.html target → HasCell page.html target ∨
        ∃ rule ∈ grammar.rules, rule.name.value ∈ remarks ∧ rule.name.value ∉ page.rules ∧
          target = anchor fileName rule.name.value := by
  refine ⟨_, build_described parsed settings (svgRenderer metrics) fileName root,
    fun target link => ?_⟩
  rw [ofGrammar_html] at link
  obtain ⟨name, label, isDrawn, shown, reads, rfl⟩ := shown_of_link
    (contents_plain parsed settings metrics fileName root _) link
  by_cases selected : name ∈ grammar.drawn.select root
  · have cell := nameCell_of_selected parsed settings metrics fileName root
      (descriptionsOf settings source) selected isDrawn
    exact Or.inl (hasCell_of_nameCell cell)
  · have remark := (selected_of_read parsed isDrawn shown reads).resolve_left selected
    obtain ⟨rule, listed, rfl⟩ := Grammar.declared_of_drawn isDrawn
    exact Or.inr ⟨rule, listed, remark, selected, rfl⟩

end Grammars

/-- Here the remark for the empty alternative is spelled like a rule that the root does not reach. -/
theorem links_targeted_remark : ∃ grammar page,
    Grammar.parse "grammar g; a : b | ; b : 'x' a ; epsilon : 'y' ;" = .ok grammar ∧
      build ⟨.standard, some "$\x7brow\x7d", true, true⟩ (svgRenderer .standard) "g"
        "grammar g; a : b | ; b : 'x' a ; epsilon : 'y' ;" (some "a") = .ok page ∧
      ∀ target, HasLink page.html target → HasCell page.html target ∨
        ∃ rule ∈ grammar.rules, rule.name.value ∈ remarks ∧ rule.name.value ∉ page.rules ∧
          target = anchor "g" rule.name.value := by
  have ok : (Grammar.parse "grammar g; a : b | ; b : 'x' a ; epsilon : 'y' ;").isOk = true := by
    decide +kernel
  cases parsed : Grammar.parse "grammar g; a : b | ; b : 'x' a ; epsilon : 'y' ;" with
  | error rejection => rw [parsed] at ok; cases ok
  | ok grammar =>
      obtain ⟨page, built, targets⟩ :=
        links_targeted parsed ⟨.standard, some "$\x7brow\x7d", true, true⟩ .standard "g" (some "a")
      exact ⟨grammar, page, rfl, built, targets⟩

end GrammarPage

end Railroad
