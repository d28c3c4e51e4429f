import Railroad.Proofs.Diagram.Redeclared
import Railroad.Proofs.Page.CrossLinks

/-!
# Entities

An escaped text is inert: it has no brackets and no quotes, and every ampersand in it begins an
entity.  When its entities are replaced from left to right it becomes the text that it was, also
where that text had entities already, and the inert texts are the escaped ones and no others.  So
an anchor tells which rule of its page it belongs to, and no two rows of a page share one.
-/

namespace Railroad

namespace Page

/-- The characters that are not written as they are, each with its entity. -/
def entities : List (Char × List Char) :=
  [('&', "&amp;".toList), ('<', "&lt;".toList), ('>', "&gt;".toList), ('"', "&quot;".toList)]

/-- The character whose entity a text begins with, and what follows the entity. -/
def entity? (text : List Char) : Option (Char × List Char) :=
  entities.findSome? fun (c, spelling) => (spelling.isPrefixOf? text).map (c, ·)

/-- No entity is the beginning of another, so the first one that is found is the only one. -/
theorem entity?_eq_some_iff {c : Char} {text rest : List Char} :
    entity? text = some (c, rest) ↔
      ∃ spelling, (c, spelling) ∈ entities ∧ text = spelling ++ rest := by
  constructor
  · intro found
    obtain ⟨⟨d, spelling⟩, listed, here⟩ := List.exists_of_findSome?_eq_some found
    obtain ⟨behind, follows, same⟩ := Option.map_eq_some_iff.mp here
    cases same
    exact ⟨spelling, listed, (List.append_eq_of_isPrefixOf?_eq_some follows).symm⟩
  · rintro ⟨spelling, listed, rfl⟩
    simp only [entities, List.mem_cons, Prod.mk.injEq, List.not_mem_nil, or_false] at listed
    rcases listed with ⟨rfl, rfl⟩ | ⟨rfl, rfl⟩ | ⟨rfl, rfl⟩ | ⟨rfl, rfl⟩ <;> rfl

/-- An ampersand stands at the beginning of an entity and nowhere else. -/
theorem entity_spelled {c : Char} {spelling : List Char} (listed : (c, spelling) ∈ entities) :
    ∃ name, spelling = '&' :: name ∧ '&' ∉ name := by
  have spelled : ∀ entity ∈ entities,
      entity.2 = '&' :: entity.2.tail ∧ '&' ∉ entity.2.tail := by decide
  exact ⟨_, spelled _ listed⟩

theorem entity?_plain {c : Char} (plain : c ≠ '&') (rest : List Char) :
    entity? (c :: rest) = none := by
  cases found : entity? (c :: rest) with
  | none => rfl
  | some read =>
      obtain ⟨spelling, listed, split⟩ := entity?_eq_some_iff.mp found
      obtain ⟨name, rfl, -⟩ := entity_spelled listed
      exact absurd (List.cons.inj split).1 plain

theorem length_of_entity? {c : Char} {text rest : List Char}
    (found : entity? text = some (c, rest)) : rest.length < text.length := by
  obtain ⟨spelling, listed, rfl⟩ := entity?_eq_some_iff.mp found
  obtain ⟨name, rfl, -⟩ := entity_spelled listed
  rw [List.cons_append, List.length_cons, List.length_append]
  omega

/--
Puts the characters in the place of their entities, from left to right.  What was put in is not
read again.
-/
def unescapeChars : List Char → List Char
  | [] => []
  | c :: text =>
      match _ : entity? (c :: text) with
      | some (meant, rest) => meant :: unescapeChars rest
      | none => c :: unescapeChars text
termination_by text => text.length
decreasing_by
  · exact length_of_entity? ‹_›
  · exact Nat.lt_succ_self _

/-- The text that an escaped text stands for. -/
def unescape (text : String) : String := String.ofList (unescapeChars text.toList)

theorem unescapeChars_nil : unescapeChars [] = [] := by rw [unescapeChars]

theorem unescapeChars_entity {c : Char} {text rest : List Char}
    (found : entity? text = some (c, rest)) : unescapeChars text = c :: unescapeChars rest := by
  cases text with
  | nil => exact absurd (length_of_entity? found) (Nat.not_lt_zero _)
  | cons d behind =>
      rw [unescapeChars]
      split
      next meant tail here =>
        cases found.symm.trans here
        rfl
      next none => exact absurd (found.symm.trans none) (Option.some_ne_none _)

theorem unescapeChars_cons {c : Char} {text : List Char} (none : entity? (c :: text) = none) :
    unescapeChars (c :: text) = c :: unescapeChars text := by
  rw [unescapeChars]
  split
  next found => exact absurd (found.symm.trans none) (Option.some_ne_none _)
  next => rfl

theorem escapeChar_entity : ∀ entity ∈ entities, escapeChar entity.1 = entity.2 := by decide

/-- The other characters are written as they are, and none of them is an ampersand. -/
theorem escapeChar_known (c : Char) :
    (c, escapeChar c) ∈ entities ∨ escapeChar c = [c] ∧ c ≠ '&' := by
  unfold escapeChar
  split
  next => exact Or.inl (by decide)
  next => exact Or.inl (by decide)
  next => exact Or.inl (by decide)
  next => exact Or.inl (by decide)
  next notAmpersand _ _ _ => exact Or.inr ⟨rfl, notAmpersand⟩

theorem escapeChars_cons (c : Char) (text : List Char) :
    escapeChars (c :: text) = escapeChar c ++ escapeChars text := List.flatMap_cons

/-- One character is read back, whatever follows it. -/
theorem unescapeChars_escapeChar (c : Char) (rest : List Char) :
    unescapeChars (escapeChar c ++ rest) = c :: unescapeChars rest := by
  rcases escapeChar_known c with listed | ⟨same, plain⟩
  · exact unescapeChars_entity (entity?_eq_some_iff.mpr ⟨_, listed, rfl⟩)
  · rw [same, List.singleton_append]
    exact unescapeChars_cons (entity?_plain plain rest)

theorem unescapeChars_escapeChars (text : List Char) : unescapeChars (escapeChars text) = text := by
  induction text with
  | nil => exact unescapeChars_nil
  | cons c rest ih => rw [escapeChars_cons, unescapeChars_escapeChar, ih]

theorem unescape_escape (text : String) : unescape (escape text) = text := by
  rw [unescape, escape, String.toList_ofList, unescapeChars_escapeChars, String.ofList_toList]

/-- What looks like an entity before escaping is one again, and not what it stands for. -/
example : escape "&lt;<" = "&amp;lt;&lt;" ∧ unescape "&amp;lt;&lt;" = "&lt;<" := by
  decide +kernel

theorem escape_inj {text other : String} : escape text = escape other ↔ text = other := by
  refine ⟨fun same => ?_, congrArg escape⟩
  rw [← unescape_escape text, same, unescape_escape]

/-- A text without brackets and quotes, in which every ampersand begins an entity. -/
structure Inert (text : List Char) : Prop where
  brackets : '<' ∉ text ∧ '>' ∉ text
  quotes : '"' ∉ text
  ampersands : ∀ front behind, text = front ++ '&' :: behind →
    ∃ entity ∈ entities, entity.2 <+: '&' :: behind

namespace Inert

variable {text front rest : List Char}

theorem behind (inert : Inert (front ++ rest)) : Inert rest where
  brackets := ⟨fun member => inert.brackets.1 (List.mem_append_right _ member),
    fun member => inert.brackets.2 (List.mem_append_right _ member)⟩
  quotes member := inert.quotes (List.mem_append_right _ member)
  ampersands before after split :=
    inert.ampersands (front ++ before) after (by rw [split, List.append_assoc])

/-- Where no entity begins, an inert text has a character that is written as it is. -/
theorem escapeChar_head {c : Char} (inert : Inert (c :: rest)) (none : entity? (c :: rest) = none) :
    escapeChar c = [c] := by
  rcases escapeChar_known c with listed | ⟨same, -⟩
  · exfalso
    simp only [entities, List.mem_cons, Prod.mk.injEq, List.not_mem_nil, or_false] at listed
    rcases listed with ⟨rfl, -⟩ | ⟨rfl, -⟩ | ⟨rfl, -⟩ | ⟨rfl, -⟩
    · -- The ampersand begins an entity, and not only its own.
      obtain ⟨⟨d, spelling⟩, listed, after, split⟩ := inert.ampersands [] rest rfl
      have found := entity?_eq_some_iff.mpr ⟨spelling, listed, split.symm⟩
      exact absurd (found.symm.trans none) (Option.some_ne_none _)
    · exact inert.brackets.1 (List.mem_cons_self ..)
    · exact inert.brackets.2 (List.mem_cons_self ..)
    · exact inert.quotes (List.mem_cons_self ..)
  · exact same

/-- An inert text is the escaped form of the text that it stands for. -/
theorem escapeChars_unescapeChars (inert : Inert text) :
    escapeChars (unescapeChars text) = text := by
  fun_induction unescapeChars text with
  | case1 => rfl
  | case2 c text meant rest found ih =>
      obtain ⟨spelling, listed, split⟩ := entity?_eq_some_iff.mp found
      rw [split] at inert
      rw [escapeChars_cons, escapeChar_entity _ listed, ih inert.behind, split]
  | case3 c text none ih =>
      have later : Inert ([c] ++ text) := inert
      rw [escapeChars_cons, inert.escapeChar_head none, ih later.behind, List.singleton_append]

end Inert

/-- An ampersand in what is written for one character is its first sign, and that is an entity. -/
theorem entity_of_escapeChar {c : Char} {front behind : List Char}
    (split : escapeChar c = front ++ '&' :: behind) : front = [] ∧ (c, escapeChar c) ∈ entities := by
  rcases escapeChar_known c with listed | ⟨same, plain⟩
  · obtain ⟨name, spelled, free⟩ := entity_spelled listed
    refine ⟨?_, listed⟩
    cases front with
    | nil => rfl
    | cons d more =>
        have inside : name = more ++ '&' :: behind := (List.cons.inj (spelled.symm.trans split)).2
        exact absurd (inside ▸ List.mem_append_right _ (List.mem_cons_self ..)) free
  · have member : '&' ∈ [c] := by
      rw [← same, split]
      exact List.mem_append_right _ (List.mem_cons_self ..)
    exact absurd (List.mem_singleton.mp member).symm plain

/-- An ampersand of an escaped text begins the entity of one of its characters. -/
theorem entity_of_split {text front behind : List Char}
    (split : escapeChars text = front ++ '&' :: behind) :
    ∃ entity ∈ entities, entity.2 <+: '&' :: behind := by
  induction text generalizing front with
  | nil => exact absurd split.symm (List.append_ne_nil_of_right_ne_nil _ (List.cons_ne_nil _ _))
  | cons c rest ih =>
      rw [escapeChars_cons] at split
      rcases List.append_eq_append_iff.mp split with ⟨more, -, later⟩ | ⟨more, here, later⟩
      · exact ih later
      · cases more with
        | nil =>
            have begins : escapeChars rest = [] ++ '&' :: behind := later.symm
            exact ih begins
        | cons d others =>
            obtain ⟨rfl, rfl⟩ := List.cons.inj later
            obtain ⟨rfl, listed⟩ := entity_of_escapeChar here
            refine ⟨_, listed, ?_⟩
            rw [here]
            exact List.prefix_append _ _

theorem inert_escape (text : String) : Inert (escape text).toList where
  brackets := (escape_free text).1
  quotes := (escape_free text).2
  ampersands front behind split := by
    rw [escape, String.toList_ofList] at split
    exact entity_of_split split

/-- The inert texts are the escaped ones. -/
theorem inert_iff {text : String} : Inert text.toList ↔ escape (unescape text) = text := by
  constructor
  · intro inert
    rw [escape, unescape, String.toList_ofList, inert.escapeChars_unescapeChars,
      String.ofList_toList]
  · intro same
    rw [← same]
    exact inert_escape _

theorem anchor_inj {fileName rule other : String} :
    anchor fileName rule = anchor fileName other ↔ rule = other := by
  rw [anchor, anchor, escape_inj, String.append_right_inj]

/--
Anchors are inert, and rules of one file have the same anchor only if they have the same name.
Escaping makes any text inert, also one that looks escaped already, and replacing the entities
gives the text back; what is inert was made by escaping.
-/
theorem anchors_unique :
    (∀ fileName rule, Inert (anchor fileName rule).toList ∧
      ∀ other, anchor fileName rule = anchor fileName other ↔ rule = other) ∧
    (∀ text, Inert (escape text).toList ∧ unescape (escape text) = text) ∧
    ∀ text, Inert text.toList ↔ escape (unescape text) = text := by
  refine ⟨fun fileName rule => ⟨?_, fun other => anchor_inj⟩, fun text => ⟨?_, ?_⟩, fun text => ?_⟩
  · exact inert_escape _
  · exact inert_escape text
  · exact unescape_escape text
  · exact inert_iff

end Page

/-- A selection names no rule twice. -/
theorem ReferenceGraph.nodup_select (graph : ReferenceGraph) {declared : List String}
    (apart : declared.Nodup) (root : Option String) : (graph.select declared root).Nodup := by
  cases root with
  | none => exact apart
  | some root =>
      have finished : Frontier graph root (graph.select declared (some root)) [] :=
        explore_frontier graph root [] [root] (Frontier.initial graph root)
      simpa using finished.nodup

namespace GrammarPage

/--
No two entries of the page of a grammar share their anchor, whichever rules are selected and
however often they are declared.
-/
theorem anchors_nodup (renderer : Renderer) (descriptions : Catalog String String)
    (grammar : Grammar) (fileName : String) (root : Option String) :
    (((renderings renderer grammar.drawn (grammar.drawn.select root)).map
      (Rendering.entry descriptions)).map fun entry => Page.anchor fileName entry.rule).Nodup := by
  have declared : grammar.drawn.diagrams.keys.Nodup := by
    rw [Grammar.drawn_keys, ← ReferenceGraph.fresh_nil]
    exact ReferenceGraph.nodup_fresh _ _
  have selected : (grammar.drawn.select root).Nodup :=
    grammar.drawn.graph.nodup_select declared root
  rw [List.map_map, renderings, List.map_filterMap]
  refine selected.filterMap fun rule other target made madeToo => ?_
  simp only [Option.map_map, Option.mem_def, Option.map_eq_some_iff, Function.comp_apply,
    Rendering.entry_rule] at made madeToo
  obtain ⟨_, -, rfl⟩ := made
  obtain ⟨_, -, same⟩ := madeToo
  exact (Page.anchor_inj.mp same).symm

end GrammarPage

end Railroad
