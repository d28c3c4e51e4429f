import Railroad.Proofs.Printing.Merged

/-!
# The written form as a normal form

The written form of a grammar is not always read again as what was written.  An action with an
open quote may reach into what stands behind it, and a set behind a reference is read as its
arguments.  These are the only ways: as long as all actions stand, the written form is read again,
and it is written again in the same way if and only if there are no such sets.
-/

namespace Railroad

open Scan (wordToken)

mutual

theorem Atom.text_of_agrees : ∀ {first second : Atom},
    first.agrees second = true → first.text = second.text
  | .literal _, second, agree | .charSet _, second, agree | .range _ _, second, agree
  | .reference _ _, second, agree | .wildcard, second, agree => by
      cases second <;> simp_all [Atom.agrees, Atom.text]
  | .excluding operand, second, agree => by
      cases second with
      | excluding other =>
          rw [Atom.agrees] at agree
          rw [Atom.text, Atom.text, Atom.text_of_agrees agree]
      | _ => cases agree
  | .excludingAny operands, second, agree => by
      cases second with
      | excludingAny others =>
          rw [Atom.agrees] at agree
          rw [Atom.text, Atom.text, atomTexts_of_agree agree]
      | _ => cases agree

theorem atomTexts_of_agree : ∀ {atoms others : List Atom},
    atomsAgree atoms others = true → atomTexts atoms = atomTexts others
  | [], [], _ => rfl
  | [], _ :: _, agree | _ :: _, [], agree => by cases agree
  | first :: rest, second :: others, agree => by
      obtain ⟨here, later⟩ := Bool.and_eq_true_iff.mp agree
      rw [atomTexts, atomTexts, Atom.text_of_agrees here, atomTexts_of_agree later]

end

mutual

theorem Content.text_of_agrees : ∀ {content found : Content},
    content.agrees found = true → content.text = found.text
  | .atom inner, found, agree => by
      cases found with
      | atom other =>
          rw [Content.agrees] at agree
          exact Atom.text_of_agrees agree
      | _ => simp [Content.agrees] at agree
  | .group block, found, agree => by
      cases found with
      | group other =>
          rw [Content.agrees] at agree
          rw [Content.text, Content.text, alternativeTexts_of_agree agree]
      | _ => simp [Content.agrees] at agree
  | .action code predicate, found, agree => by
      cases found with
      | action =>
          simp only [Content.agrees, Bool.and_eq_true, beq_iff_eq] at agree
          rw [agree.1, agree.2]
      | _ => simp [Content.agrees] at agree

theorem elementTexts_of_agree : ∀ {elements found : List Element},
    elementsAgree elements found = true → elementTexts elements = elementTexts found
  | [], [], _ => rfl
  | [], _ :: _, agree | _ :: _, [], agree => by simp [elementsAgree] at agree
  | ⟨content, label, suffix⟩ :: rest, ⟨other, labelToo, suffixToo⟩ :: others, agree => by
      simp only [elementsAgree, Element.agrees, Bool.and_eq_true, beq_iff_eq] at agree
      obtain ⟨⟨⟨here, rfl⟩, rfl⟩, later⟩ := agree
      rw [elementTexts, elementTexts, elementTexts_of_agree later, Element.text, Element.text,
        Content.text_of_agrees here]

theorem alternativeTexts_of_agree : ∀ {block found : Block},
    blocksAgree block found = true → alternativeTexts block = alternativeTexts found
  | [], [], _ => rfl
  | [], _ :: _, agree | _ :: _, [], agree => by simp [blocksAgree] at agree
  | ⟨elements, options, label, commands⟩ :: rest,
    ⟨others, optionsToo, labelToo, commandsToo⟩ :: more, agree => by
      simp only [blocksAgree, Alternative.agrees, Bool.and_eq_true, beq_iff_eq] at agree
      obtain ⟨⟨⟨⟨here, -⟩, rfl⟩, rfl⟩, later⟩ := agree
      rw [alternativeTexts, alternativeTexts, alternativeTexts_of_agree later, Alternative.text,
        Alternative.text, elementTexts_of_agree here]

end

mutual

theorem Content.withoutOptions_text : ∀ content : Content,
    content.withoutOptions.text = content.text
  | .atom _ | .action _ _ => by rw [Content.withoutOptions]; exact nofun
  | .group block => by
      rw [Content.withoutOptions, Content.text, Content.text, blockWithoutOptions_texts block]

theorem elementsWithoutOptions_texts : ∀ elements : List Element,
    elementTexts (elementsWithoutOptions elements) = elementTexts elements
  | [] => by rw [elementsWithoutOptions]
  | ⟨content, label, suffix⟩ :: rest => by
      rw [elementsWithoutOptions, elementTexts, elementTexts, elementsWithoutOptions_texts rest,
        Element.withoutOptions, Element.text, Element.text, Content.withoutOptions_text content]

theorem blockWithoutOptions_texts : ∀ block : Block,
    alternativeTexts (blockWithoutOptions block) = alternativeTexts block
  | [] => by rw [blockWithoutOptions]
  | ⟨elements, options, label, commands⟩ :: rest => by
      rw [blockWithoutOptions, alternativeTexts, alternativeTexts, blockWithoutOptions_texts rest,
        Alternative.withoutOptions, Alternative.text, Alternative.text,
        elementsWithoutOptions_texts elements]

end

theorem Rule.RestoredBy.text_eq {rule again : Rule} (restored : rule.RestoredBy again) :
    again.text = rule.text := by
  rw [Rule.text, Rule.text, blockText, blockText, ← alternativeTexts_of_agree restored.body,
    blockWithoutOptions_texts, restored.name, restored.fragment]

theorem lines_of_restored {rules found : List Rule}
    (restored : List.Forall₂ Rule.RestoredBy rules found) :
    (found.map fun rule => rule.text ++ "\n") = rules.map fun rule => rule.text ++ "\n" := by
  induction restored with
  | nil => rfl
  | cons here _ ih => rw [List.map_cons, List.map_cons, here.text_eq, ih]

/-- Every action ends in the written form of the grammar where it ends by itself. -/
def Grammar.ActionsStand (grammar : Grammar) : Prop :=
  Standing grammar.printedTokens grammar.text.toList

instance (grammar : Grammar) : Decidable grammar.ActionsStand :=
  standingDecidable grammar.printedTokens grammar.text.toList

/-- The header of the grammar and its rules are spelled by scanned tokens. -/
structure Grammar.Spelled (grammar : Grammar) : Prop where
  named : IsName grammar.name.value
  shaped : (wordToken grammar.name.value).Shaped
  rules : ∀ rule ∈ grammar.rules, rule.Spelled

namespace Grammar

variable {source : String} {found : Grammar}

theorem spelled_of_parse (parsed : Grammar.parse source = .ok found) : found.Spelled := by
  obtain ⟨lexemes, rest, scanned, read⟩ := Grammar.parse_eq_ok.mp parsed
  obtain ⟨⟨⟨named, shaped⟩, formed⟩, -⟩ :=
    Parse.grammar_builds (significant_shaped scanned) read
  refine ⟨named, shaped, fun rule listed => ⟨formed rule listed, ?_⟩⟩
  obtain ⟨_, -, -, known⟩ := Grammar.body_tokens scanned read listed
  exact known

theorem Spelled.written (spelled : found.Spelled) :
    Written found.printedTokens found.text.toList :=
  Grammar.written spelled.named spelled.shaped spelled.rules

/-- An action without quotes ends where it ends, whatever is written behind it. -/
theorem Spelled.actionsStand (spelled : found.Spelled)
    (unquoted : ∀ rule ∈ found.rules, ∀ alternative ∈ nestedAlternatives rule.body,
      alternative.Unquoted) : found.ActionsStand := by
  apply Grammar.standing spelled.named spelled.shaped spelled.rules
  intro rule listed
  have plain := fun token member => ((spelled.rules rule listed).tokens token member).2
  exact block_stable plain (unquoted rule listed)

/-- What is read from the written form is written with the sets merged. -/
theorem Spelled.rereads (spelled : found.Spelled) (stand : found.ActionsStand) :
    ∃ again, Grammar.parse found.text = .ok again ∧ again.text = found.merged.text := by
  obtain ⟨lexemes, scanned, same⟩ := spelled.written.standing_iff.mp stand
  rw [← merged_printedTokens] at same
  have named : IsName found.merged.name.value := spelled.named
  have restorable : ∀ rule ∈ found.merged.rules, rule.Restorable :=
    List.forall_mem_map.mpr fun rule listed => (spelled.rules rule listed).formed.restorable
  obtain ⟨again, read, kind, name, restored⟩ := Parse.grammar_restores named restorable same
  refine ⟨again, Grammar.parse_eq_ok.mpr ⟨lexemes, [], scanned, read⟩, ?_⟩
  rw [Grammar.text, Grammar.text, kind, name, lines_of_restored restored]

end Grammar

/-- The written form of a grammar consists of its tokens if and only if all actions stand in it, as
those without quotes do, and then it is a grammar again.  This one is written in the same way if
and only if no set stands behind a bare reference. -/
theorem Grammar.text_normal_iff {source : String} {found : Grammar}
    (parsed : Grammar.parse source = .ok found) :
    (found.ActionsStand ↔ ∃ lexemes, tokenize found.text = .ok lexemes ∧
      tokensOf (significant lexemes) = found.printedTokens) ∧
    ((∀ rule ∈ found.rules, ∀ alternative ∈ nestedAlternatives rule.body,
      alternative.Unquoted) → found.ActionsStand) ∧
    (found.ActionsStand → ∃ again, Grammar.parse found.text = .ok again ∧
      (again.text = found.text ↔ ∀ rule ∈ found.rules,
        ∀ alternative ∈ nestedAlternatives rule.body, alternative.Separated)) := by
  have spelled := Grammar.spelled_of_parse parsed
  refine ⟨spelled.written.standing_iff, spelled.actionsStand, fun stand => ?_⟩
  obtain ⟨again, reread, text⟩ := spelled.rereads stand
  refine ⟨again, reread, ?_⟩
  rw [text]
  exact Grammar.merged_text_eq_iff

/-- An open quote does no harm as long as no other quote follows it on its line. -/
theorem Grammar.text_normal_open_quote : ∃ found,
    Grammar.parse "grammar g; a : \x7b it's \x7d b<x> (C | ) # d ;" = .ok found ∧
    found.ActionsStand ∧
    (∀ rule ∈ found.rules, ∀ alternative ∈ nestedAlternatives rule.body,
      alternative.Separated) ∧
    ∃ again, Grammar.parse found.text = .ok again ∧ again.text = found.text := by
  have stands : (match Grammar.parse "grammar g; a : \x7b it's \x7d b<x> (C | ) # d ;" with
    | .ok found => decide (found.ActionsStand ∧ ∀ rule ∈ found.rules,
        ∀ alternative ∈ nestedAlternatives rule.body, alternative.Separated)
    | .error _ => false) = true := by decide +kernel
  cases parsed : Grammar.parse "grammar g; a : \x7b it's \x7d b<x> (C | ) # d ;" with
  | error rejection => rw [parsed] at stands; cases stands
  | ok found =>
      rw [parsed] at stands
      obtain ⟨stand, separated⟩ := of_decide_eq_true stands
      obtain ⟨-, -, rereads⟩ := Grammar.text_normal_iff parsed
      obtain ⟨again, reread, normal⟩ := rereads stand
      exact ⟨found, rfl, stand, separated, again, reread, normal.mpr separated⟩

/-- The written form of the grammar in a source. -/
def rewritten? (source : String) : Option String := (Grammar.parse source).toOption.map Grammar.text

/-- In the first grammar a line feed keeps an open quote away from another, in the second an option
keeps a set away from a reference.  Both are lost where the grammar is written. -/
theorem Grammar.text_not_normal :
    (rewritten? "grammar g; a : \x7b ' \x7d\n 'x' ;" =
        some "grammar g;\na : \x7b ' \x7d 'x' ;\n" ∧
      rewritten? "grammar g;\na : \x7b ' \x7d 'x' ;\n" = none) ∧
    rewritten? "grammar g; a : b<x> [c];" = some "grammar g;\na : b [c] ;\n" ∧
      rewritten? "grammar g;\na : b [c] ;\n" = some "grammar g;\na : b[c] ;\n" := by
  decide +kernel

end Railroad
