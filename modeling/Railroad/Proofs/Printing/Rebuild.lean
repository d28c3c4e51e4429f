import Mathlib.Data.List.Chain
import Railroad.Proofs.Printing.Reread

/-!
# Reading bodies again

From the tokens of a formed block the reader of blocks takes the same block, apart from options and
places.  It calls itself inside groups only, where the input is shorter, so that the tree is never
taken apart any further than to the groups of one alternative.
-/

namespace Railroad

open Scan (wordToken)

/-- A formed block in which no character set stands where the arguments of a reference would. -/
structure Restorable (block : Block) : Prop where
  formed : FormedBlock block
  separated : ∀ alternative ∈ nestedAlternatives block, alternative.Separated

theorem Restorable.group {block inner : Block} {alternative : Alternative} {element : Element}
    (restorable : Restorable block) (listed : alternative ∈ block)
    (member : element ∈ alternative.elements) (grouped : element.content = .group inner) :
    Restorable inner := by
  have self : alternative ∈ alternative.nested := by
    rcases alternative with ⟨elements, options, label, commands⟩
    exact List.mem_cons_self ..
  have above : ∀ nested ∈ nestedAlternatives inner, nested ∈ nestedAlternatives block := by
    intro nested inside
    refine mem_nestedAlternatives.mpr ⟨alternative, listed, ?_⟩
    rcases alternative with ⟨elements, options, label, commands⟩
    refine List.mem_cons_of_mem _ (mem_elementsNested.mpr ⟨element, member, ?_⟩)
    rcases element with ⟨content, label, suffix⟩
    subst grouped
    exact inside
  have formed := restorable.formed.2 alternative (mem_nestedAlternatives.mpr ⟨_, listed, self⟩)
  have some := (formed.elements element member).content
  rw [grouped] at some
  exact ⟨⟨some, fun nested inside => restorable.formed.2 nested (above nested inside)⟩,
    fun nested inside => restorable.separated nested (above nested inside)⟩

/-- Terminals by which an element may go on, apart from the arguments of a reference. -/
def Form.elementEnds : List Terminal :=
  [.mark .question, .mark .star, .mark .plus, .mark .less, .mark .doubleDot, .mark .equals,
    .mark .plusEquals]

/-- Terminals by which an element may go on. -/
def Element.more (element : Element) : List Terminal :=
  if element.isBareReference then .charSet :: Form.elementEnds else Form.elementEnds

theorem Element.elementEnds_subset (element : Element) :
    ∀ terminal ∈ Form.elementEnds, terminal ∈ element.more := by
  intro terminal member
  rw [Element.more]
  split
  · exact List.mem_cons_of_mem _ member
  · exact member

theorem Atom.more_subset (atom : Atom) (label : Option ElementLabel) :
    ∀ terminal ∈ atom.more, terminal ∈ (Element.mk (.atom atom) label none).more := by
  rw [Atom.more, Element.more, Element.isBareReference]
  split <;> decide

/-- An element begins as elements do, and with a set only if it is one without a label. -/
theorem Element.Formed.first {element : Element} (formed : element.Formed) :
    ∃ terminal token rest, element.tokens = token :: rest ∧ token.terminal = terminal ∧
      terminal ∈ (Form.notion .element).starts ∧
        (terminal = .charSet → element.isBareSet = true) := by
  rcases element with ⟨content, label, suffix⟩
  cases label with
  | some label =>
      exact ⟨.name, wordToken label.name, _, rfl, formed.label label rfl, by decide, nofun⟩
  | none =>
      cases content with
      | atom atom =>
          cases atom with
          | literal | range => exact ⟨.literal, _, _, rfl, rfl, by decide, nofun⟩
          | charSet text => exact ⟨.charSet, _, _, rfl, rfl, by decide, fun _ => rfl⟩
          | reference name arguments =>
              exact ⟨.name, wordToken name.value, _, rfl, formed.content.1, by decide, nofun⟩
          | excluding | excludingAny => exact ⟨.mark .tilde, _, _, rfl, rfl, by decide, nofun⟩
          | wildcard => exact ⟨.mark .dot, _, _, rfl, rfl, by decide, nofun⟩
      | group block => exact ⟨.mark .openParen, _, _, rfl, rfl, by decide, nofun⟩
      | action code predicate => exact ⟨.action, _, _, rfl, rfl, by decide, nofun⟩

namespace Parse

open Reader

variable {bound : Nat} {more : List Terminal} {reader : Reader Block}

/-- Shorter input is read as the block that its tokens belong to. -/
def RestoresBelow (bound : Nat) (reader : Reader Block) : Prop :=
  ∀ size < bound, ∀ block, Restorable block → Reads size reader (blockTokens block)
    (fun found => blocksAgree (blockWithoutOptions block) found = true) Form.alternativesMore

theorem begins_elements {elements : List Element} (formed : ∀ element ∈ elements, element.Formed) :
    Begins (.many (.notion .element)) (elementTokens elements) := by
  cases elements with
  | nil => exact ⟨fun _ none => absurd none (Option.not_mem_none _), fun firm => Bool.noConfusion firm⟩
  | cons element rest =>
      obtain ⟨terminal, token, others, same, stands, starts, -⟩ :=
        (formed element (List.mem_cons_self ..)).first
      have repeats : terminal ∈ (Form.many (.notion .element)).starts := starts
      rw [elementTokens, same]
      exact .cons terminal stands repeats _

theorem begins_alternative {alternative : Alternative} (formed : alternative.Formed) :
    Begins (.notion .alternative) alternative.tokens := by
  rcases alternative with ⟨elements, options, label, commands⟩
  have front : Begins (.notion .alternative) (elementTokens elements ++ labelTokens label) :=
    (begins_elements formed.elements).join (begins_label label) (by decide) (by decide) rfl
  exact front.join (begins_commands commands) (by decide) (by decide) rfl

theorem begins_block {block : Block} (formed : FormedBlock block) :
    Begins (.notion .alternatives) (blockTokens block) := by
  obtain ⟨first, rest, rfl⟩ := List.exists_cons_of_ne_nil formed.1
  have listed : first ∈ nestedAlternatives (first :: rest) := by
    refine mem_nestedAlternatives.mpr ⟨first, List.mem_cons_self .., ?_⟩
    rcases first with ⟨elements, options, label, commands⟩
    exact List.mem_cons_self ..
  have bars : Begins (.many (.mark .bar))
      ((alternativeTokens rest).flatMap (Token.mark .bar :: ·)) := by
    cases rest with
    | nil => exact ⟨fun _ none => absurd none (Option.not_mem_none _), fun firm => Bool.noConfusion firm⟩
    | cons second others => exact .cons (.mark .bar) rfl (by decide) _
  exact (begins_alternative (formed.2 first listed)).join bars (by decide) (by decide) rfl

theorem group_rereads {block : Block} (inner : RestoresBelow bound reader)
    (restorable : Restorable block) : Reads bound (group reader) (Content.group block).tokens
      (fun found => blocksAgree (blockWithoutOptions block) found = true) more := by
  refine (mark_reads .openParen).descend (.unbarred _ _) fun size _ _ smaller _ => .committed ?_
  have close (barred : List Terminal) (free : Terminal.mark .closeParen ∉ barred) :
      Follows [.mark .closeParen] barred more := .cons (.mark .closeParen) rfl free _ _
  have noHeader : Reads size groupHeader.optional [] (· = none) Form.groupHeader.starts :=
    .absent groupHeader_misses
  have body : Follows (blockTokens block) Form.groupHeader.starts Form.groupHeader.starts :=
    (begins_block restorable.formed).follows (by decide)
  have rest : Reads size (reader.andThen fun found => (mark .closeParen).andThen fun _ =>
      Reader.succeed found) (blockTokens block ++ [.mark .closeParen])
      (fun found => blocksAgree (blockWithoutOptions block) found = true) more :=
    (inner size (smaller (List.cons_ne_nil _ _)) block restorable).andThen (close _ (by decide))
      fun found agree => (mark_reads .closeParen).map fun _ _ => agree
  exact noHeader.andThen (body.append (close _ (by decide))) fun _ _ => rest

/-- Terminals by which a content may go on. -/
def contentMore : Content → List Terminal
  | .atom inner => inner.more
  | _ => []

theorem atomOrGroup_rereads {content : Content} (inner : RestoresBelow bound reader)
    (formed : content.Formed) (passive : content.isAction = false)
    (groups : ∀ block, content = .group block → Restorable block) :
    Reads bound (atomOrGroup reader) content.tokens
      (fun found => content.withoutOptions.agrees found = true) (contentMore content) := by
  cases content with
  | atom inner =>
      have reads : Reads bound (Parse.atom.map Content.atom) inner.tokens
          (fun found => (Content.atom inner).withoutOptions.agrees found = true) inner.more :=
        Reads.map (atom_rereads formed) fun found agree => by
          simpa [Content.withoutOptions, Content.agrees] using agree
      exact reads.orElse_left _
  | group block =>
      refine .orElse_right (((atom_misses).map _).skips_cons (.mark .openParen) rfl (by decide) _ _)
        ((group_rereads inner (groups block rfl)).map fun found agree => ?_)
      simpa [Content.withoutOptions, Content.agrees] using agree
  | action code predicate => cases passive

/-- What is read before a suffix is finished by it. -/
theorem suffixed_rereads {α β : Type} {first : Reader α} {tokens : List Token} {expected : α → Prop}
    {wanted : β → Prop} {further : List Terminal} {finish : α → Option Suffix → β}
    (reads : Reads bound first tokens expected more) (suffix : Option Suffix)
    (follows : Follows (suffixTokens suffix) more further)
    (wide : ∀ terminal ∈ suffixMore, terminal ∈ further)
    (holds : ∀ value, expected value → wanted (finish value suffix)) :
    Reads bound (first.andThen fun value => Parse.suffix.optional.andThen fun found =>
      Reader.succeed (finish value found)) (tokens ++ suffixTokens suffix) wanted further :=
  reads.andThen follows fun value meets =>
    ((optionalSuffix_rereads suffix).widen wide).map fun _ same => same ▸ holds value meets

theorem follows_suffix (content : Content) (label : Option ElementLabel) (suffix : Option Suffix) :
    Follows (suffixTokens suffix) (contentMore content) (Element.mk content label suffix).more := by
  have free : ∀ terminal ∈ (Form.optional .suffix).starts, terminal ∉ contentMore content := by
    cases content with
    | atom inner =>
        rw [contentMore, Atom.more]
        split <;> decide
    | _ => exact fun _ _ => List.not_mem_nil
  refine ⟨fun token next => free _ ((begins_suffix suffix).1 token next), fun none => ?_⟩
  cases suffix with
  | none =>
      cases content with
      | atom inner => exact inner.more_subset label
      | _ => exact fun _ none => absurd none List.not_mem_nil
  | some suffix =>
      have some := (begins_suffix (some suffix)).1
      rcases suffix with ⟨repeats, greedy⟩
      cases greedy <;> cases none

theorem suffixMore_subset (element : Element) :
    ∀ terminal ∈ suffixMore, terminal ∈ element.more := by
  have ends : ∀ terminal ∈ suffixMore, terminal ∈ Form.elementEnds := by decide
  exact fun terminal member => element.elementEnds_subset terminal (ends terminal member)

theorem content_agrees {content found : Content} {label : Option ElementLabel}
    {suffix : Option Suffix} (agree : content.withoutOptions.agrees found = true) :
    (Element.mk content label suffix).withoutOptions.agrees ⟨found, label, suffix⟩ = true := by
  simp [Element.withoutOptions, Element.agrees, agree]

theorem labeledElement_rereads {content : Content} {label : ElementLabel} {suffix : Option Suffix}
    (named : IsName label.name)
    (reads : Reads bound (atomOrGroup reader) content.tokens
      (fun found => content.withoutOptions.agrees found = true) (contentMore content)) :
    Reads bound (labeledElement reader) (Element.mk content (some label) suffix).tokens
      (fun found => (Element.mk content (some label) suffix).withoutOptions.agrees found = true)
      (Element.mk content (some label) suffix).more := by
  have tokens : (Element.mk content (some label) suffix).tokens = [wordToken label.name] ++
      ([.mark (if label.additive then .plusEquals else .equals)] ++
        (content.tokens ++ suffixTokens suffix)) := by
    simp [Element.tokens, ElementLabel.tokens, suffixTokens]
  rw [tokens]
  refine (identifier_reads named).andThen (.unbarred _ _) fun name sameName =>
    (labelOperator_rereads label.additive).andThen (.unbarred _ _) fun additive sameSign => .committed ?_
  refine suffixed_rereads (reads.expecting _) suffix (follows_suffix content (some label) suffix)
    (suffixMore_subset _) fun found agree => ?_
  rw [sameName, sameSign]
  exact content_agrees agree

theorem unlabeledElement_rereads {content : Content} {suffix : Option Suffix}
    (reads : Reads bound (atomOrGroup reader) content.tokens
      (fun found => content.withoutOptions.agrees found = true) (contentMore content)) :
    Reads bound (unlabeledElement reader) (Element.mk content none suffix).tokens
      (fun found => (Element.mk content none suffix).withoutOptions.agrees found = true)
      (Element.mk content none suffix).more :=
  suffixed_rereads reads suffix (follows_suffix content none suffix) (suffixMore_subset _)
    fun _ agree => content_agrees agree

/-- No assignment follows the name of a reference, and anything else begins with no name. -/
theorem labeledElement_skips {content : Content} {suffix : Option Suffix}
    (formed : content.Formed) : Skips (labeledElement reader) (Element.mk content none suffix).tokens
      (Element.mk content none suffix).more := by
  have noName (terminal : Terminal) {token : Token} (stands : token.terminal = terminal)
      (free : terminal ∉ [Terminal.name]) (rest : List Token) (more : List Terminal) :
      Skips (labeledElement reader) (token :: rest) more :=
    ((identifier_decides).misses.before _).skips_cons terminal stands free rest more
  cases content with
  | atom inner =>
      cases inner with
      | literal | range => exact noName .literal rfl (by decide) _ _
      | charSet text => exact noName .charSet rfl (by decide) _ _
      | excluding | excludingAny => exact noName (.mark .tilde) rfl (by decide) _ _
      | wildcard => exact noName (.mark .dot) rfl (by decide) _ _
      | reference name arguments =>
          have assignment : Follows ((arguments.map Token.charSet).toList ++ suffixTokens suffix)
              [.mark .equals, .mark .plusEquals]
              (Element.mk (.atom (.reference name arguments)) none suffix).more := by
            cases arguments with
            | some text => exact .cons .charSet rfl (by decide) _ _
            | none =>
                refine (begins_suffix suffix).follows ⟨by decide, fun _ terminal member => ?_⟩
                exact Element.elementEnds_subset _ _ ((by decide : ∀ terminal ∈
                  [Terminal.mark .equals, .mark .plusEquals], terminal ∈ Form.elementEnds) _ member)
          have tokens : (Element.mk (.atom (.reference name arguments)) none suffix).tokens =
              [wordToken name.value] ++
                ((arguments.map Token.charSet).toList ++ suffixTokens suffix) := by
            simp [Element.tokens, Content.tokens, Atom.tokens, suffixTokens]
          rw [tokens]
          exact Reads.skips (fun _ => identifier_reads formed.1) (.unbarred _ _) fun _ _ =>
            ((labelOperator_decides).misses.before _).skips assignment
  | group block => exact noName (.mark .openParen) rfl (by decide) _ _
  | action code predicate => exact noName .action rfl (by decide) _ _

theorem actionElement_rereads (code : String) (predicate : Bool) :
    Reads bound actionElement (Element.mk (.action code predicate) none none).tokens
      (fun found => (Element.mk (.action code predicate) none none).withoutOptions.agrees found = true)
      Form.elementEnds := by
  have noOptions : Reads bound elementOptions.optional [] (· = none) [.mark .less] :=
    .absent (elementOptions_decides).misses
  have sign : Reads bound (mark .question).optional (if predicate then [.mark .question] else [])
      (fun found => found.isSome = predicate) [.mark .question] := by
    cases predicate with
    | false => exact (Reads.absent (mark_decides .question).misses).mono fun _ none => none ▸ rfl
    | true => exact (mark_reads .question).present.mono fun _ ⟨_, there, _⟩ => there ▸ rfl
  have tokens : (Element.mk (.action code predicate) none none).tokens =
      [.action code] ++ ((if predicate then [.mark .question] else []) ++ []) := by
    simp [Element.tokens, Content.tokens]
  rw [tokens]
  refine (actionText_reads code).andThen (.unbarred _ _) fun found sameCode =>
    (sign.widen (by decide : ∀ terminal ∈ _, terminal ∈ Form.elementEnds)).andThen
      (.nil fun _ member => member) fun marked sameMark =>
        (noOptions.widen (by decide)).map fun _ _ => ?_
  rw [sameCode, sameMark]
  simp [Element.withoutOptions, Content.withoutOptions, Element.agrees, Content.agrees]

theorem element_rereads {element : Element} (inner : RestoresBelow bound reader)
    (formed : element.Formed)
    (groups : ∀ block, element.content = .group block → Restorable block) :
    Reads bound (Parse.element reader) element.tokens
      (fun found => element.withoutOptions.agrees found = true) element.more := by
  rcases element with ⟨content, label, suffix⟩
  cases shape : content.isAction with
  | false =>
      have reads := atomOrGroup_rereads inner formed.content shape groups
      cases label with
      | some label => exact (labeledElement_rereads (formed.label label rfl) reads).orElse_left _
      | none =>
          exact .orElse_right (labeledElement_skips formed.content)
            ((unlabeledElement_rereads reads).orElse_left _)
  | true =>
      obtain ⟨rfl, rfl⟩ := formed.alone shape
      cases content with
      | action code predicate =>
          exact .orElse_right (labeledElement_skips formed.content)
            (.orElse_right (((atomOrGroup_misses reader).before _).skips_cons .action rfl (by decide) _ _)
              (actionElement_rereads code predicate))
      | _ => cases shape

theorem follows_element {first second : Element} (formed : second.Formed)
    (separated : first.isBareReference = true → second.isBareSet = false) (rest : List Token)
    (more : List Terminal) : Follows (second.tokens ++ rest) first.more more := by
  obtain ⟨terminal, token, others, same, stands, starts, set⟩ := formed.first
  rw [same]
  refine .cons terminal stands (fun ends => ?_) _ _
  have apart : ∀ terminal ∈ (Form.notion .element).starts, terminal ∉ Form.elementEnds := by decide
  rw [Element.more] at ends
  split at ends
  next bare =>
    rcases List.mem_cons.mp ends with isSet | end_
    · exact absurd ((separated bare).symm.trans (set isSet)) Bool.false_ne_true
    · exact apart terminal starts end_
  next => exact apart terminal starts ends

theorem elements_reread {elements : List Element} (inner : RestoresBelow bound reader)
    (formed : ∀ element ∈ elements, element.Formed)
    (groups : ∀ element ∈ elements, ∀ block, element.content = .group block → Restorable block)
    (separated : elements.IsChain fun first second => first.isBareReference = true →
      second.isBareSet = false) :
    Reads bound (many (Parse.element reader)) (elementTokens elements)
      (fun found => elementsAgree (elementsWithoutOptions elements) found = true)
      Form.elementMore := by
  induction elements with
  | nil =>
      refine ((Reads.many_nil (element_misses reader)).widen (by decide)).mono fun found none => ?_
      rw [none, elementsWithoutOptions, elementsAgree]
  | cons element rest ih =>
      obtain ⟨formedHere, formedRest⟩ := List.forall_mem_cons.mp formed
      obtain ⟨groupsHere, groupsRest⟩ := List.forall_mem_cons.mp groups
      obtain ⟨apart, separatedRest⟩ := List.isChain_cons.mp separated
      have later := ih formedRest groupsRest separatedRest
      have follows : Follows (elementTokens rest) element.more Form.elementMore := by
        cases rest with
        | nil =>
            refine .nil fun terminal member => ?_
            rw [Element.more] at member
            split at member <;> revert terminal <;> decide
        | cons second others =>
            exact follows_element (formedRest second (List.mem_cons_self ..))
              (apart second rfl) _ _
      have some : element.tokens ≠ [] := by
        obtain ⟨_, _, _, same, -⟩ := formedHere.first
        rw [same]
        exact List.cons_ne_nil _ _
      refine (Reads.many_cons (element_rereads inner formedHere groupsHere) some follows later).mono
        fun values => ?_
      rintro ⟨value, others, rfl, agree, agreeRest⟩
      simp [elementsWithoutOptions, elementsAgree, agree, agreeRest]

theorem alternative_rereads {alternative : Alternative} (inner : RestoresBelow bound reader)
    (formed : alternative.Formed)
    (groups : ∀ element ∈ alternative.elements, ∀ block, element.content = .group block →
      Restorable block)
    (separated : alternative.Separated) :
    Reads bound (Parse.alternative reader) alternative.tokens
      (fun found => alternative.withoutOptions.agrees found = true) Form.alternativeMore := by
  rcases alternative with ⟨elements, options, label, commands⟩
  have noOptions : Reads bound elementOptions.optional [] (· = none) [.mark .less] :=
    .absent (elementOptions_decides).misses
  have tokens : (Alternative.mk elements options label commands).tokens =
      [] ++ (elementTokens elements ++ (labelTokens label ++ (commandsTokens commands ++ []))) := by
    simp [Alternative.tokens, labelTokens, commandsTokens]
  rw [tokens]
  have last {barred : List Terminal} (free : .mark .arrow ∉ barred)
      (wide : ∀ terminal ∈ barred, terminal ∈ Form.alternativeMore) :
      Follows (commandsTokens commands ++ []) barred Form.alternativeMore := by
    rw [List.append_nil]
    refine (begins_commands commands).follows ⟨fun terminal start => ?_, fun _ => wide⟩
    exact List.mem_singleton.mp start ▸ free
  have behind : Follows (labelTokens label ++ (commandsTokens commands ++ [])) Form.elementMore
      Form.alternativeMore :=
    ((begins_label label).follows (by decide : Form.Joins _ _ Form.elementMore)).append
      (last (by decide) (by decide))
  have start : Follows (elementTokens elements ++ (labelTokens label ++ (commandsTokens commands ++ [])))
      [.mark .less] Form.alternativeMore :=
    ((begins_elements formed.elements).follows (by decide : Form.Joins _ _ Form.elementMore)).append behind
  refine noOptions.andThen start fun omitted none =>
    (elements_reread inner formed.elements groups separated).andThen behind fun found agree =>
      (optionalLabel_rereads formed.label).andThen (last (by decide) (by decide)) fun name sameLabel =>
        ((optionalCommands_reread formed.commands).andThen (.nil (by decide)) fun list sameCommands =>
          .succeed ?_)
  rw [none, sameLabel, sameCommands]
  simp [Alternative.withoutOptions, Alternative.agrees, agree]

theorem alternatives_reread {block : Block} (inner : RestoresBelow bound reader)
    (restorable : Restorable block) :
    Reads bound (separated (Parse.alternative reader) (mark .bar)) (blockTokens block)
      (fun found => blocksAgree (blockWithoutOptions block) found = true) Form.alternativesMore := by
  have each : ∀ alternative ∈ block, Reads bound (Parse.alternative reader) alternative.tokens
      (fun found => alternative.withoutOptions.agrees found = true) Form.alternativeMore := by
    intro alternative listed
    have nested : alternative ∈ nestedAlternatives block := by
      refine mem_nestedAlternatives.mpr ⟨alternative, listed, ?_⟩
      rcases alternative with ⟨elements, options, label, commands⟩
      exact List.mem_cons_self ..
    exact alternative_rereads inner (restorable.formed.2 alternative nested)
      (fun element member block grouped => restorable.group listed member grouped)
      (restorable.separated alternative nested)
  obtain ⟨first, rest, rfl⟩ := List.exists_cons_of_ne_nil restorable.formed.1
  have list := Reads.separated (fun block found => blocksAgree (blockWithoutOptions block) found = true)
    (by rw [blockWithoutOptions, blocksAgree])
    (fun _ _ _ _ here later => by simp [blockWithoutOptions, blocksAgree, here, later])
    (mark_reads .bar) (mark_decides .bar).misses (by decide) first rest each
  rw [blockTokens, alternativeTokens_eq_map, List.map_cons, joinedBy, List.flatMap_map]
  exact list

theorem block_rereads {block : Block} (restorable : Restorable block) :
    Reads bound Parse.block (blockTokens block)
      (fun found => blocksAgree (blockWithoutOptions block) found = true) Form.alternativesMore := by
  have rounds (bound : Nat) (inner : Reader Block) (below : RestoresBelow bound inner)
      (block : Block) (restorable : Restorable block) :
      Reads bound (separated (Parse.alternative inner) (mark .bar)) (blockTokens block)
        (fun found => blocksAgree (blockWithoutOptions block) found = true) Form.alternativesMore :=
    alternatives_reread below restorable
  exact Reads.recursive rounds block restorable

end Parse

end Railroad
