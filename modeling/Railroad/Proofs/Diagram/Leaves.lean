import Railroad.Diagram.OfGrammar
import Railroad.Proofs.Printing.Tokens

/-!
# Leaves of rule bodies

The atoms that a body comes down to, whatever groups and excluded sets they stand in.  The
references of a body and the tokens of its atoms are found at its leaves.
-/

namespace Railroad

open Scan (wordToken)

mutual

/-- An excluded set comes down to what it holds, every other atom is a leaf. -/
def Atom.leaves : Atom → List Atom
  | .excluding operand => operand.leaves
  | .excludingAny operands => atomLeaves operands
  | .literal text => [.literal text]
  | .range first last => [.range first last]
  | .charSet text => [.charSet text]
  | .reference name arguments => [.reference name arguments]
  | .wildcard => [.wildcard]

def atomLeaves : List Atom → List Atom
  | [] => []
  | atom :: rest => atom.leaves ++ atomLeaves rest

end

mutual

def Content.leaves : Content → List Atom
  | .atom atom => atom.leaves
  | .group block => blockLeaves block
  | .action _ _ => []

def Element.leaves : Element → List Atom
  | ⟨content, _, _⟩ => content.leaves

def elementLeaves : List Element → List Atom
  | [] => []
  | element :: rest => element.leaves ++ elementLeaves rest

def Alternative.leaves : Alternative → List Atom
  | ⟨elements, _, _, _⟩ => elementLeaves elements

/-- The leaves of a body from left to right. -/
def blockLeaves : List Alternative → List Atom
  | [] => []
  | alternative :: rest => alternative.leaves ++ blockLeaves rest

end

variable {leaf : Atom} {token : Token}

mutual

theorem Atom.leaf_token (inLeaf : token ∈ leaf.tokens) :
    ∀ (atom : Atom), leaf ∈ atom.leaves → token ∈ atom.tokens
  | .excluding operand, listed =>
      List.mem_cons_of_mem _ (Atom.leaf_token inLeaf operand listed)
  | .excludingAny operands, listed =>
      List.mem_cons_of_mem _ (List.mem_cons_of_mem _
        (List.mem_append_left _ (mem_joinedBy (atomLeaves_token inLeaf operands listed))))
  | .literal _, listed | .range _ _, listed | .charSet _, listed | .reference _ _, listed
  | .wildcard, listed => List.mem_singleton.mp listed ▸ inLeaf

theorem atomLeaves_token (inLeaf : token ∈ leaf.tokens) :
    ∀ (atoms : List Atom), leaf ∈ atomLeaves atoms → token ∈ (atomTokens atoms).flatten
  | [], listed => absurd listed List.not_mem_nil
  | atom :: rest, listed => by
      rw [atomTokens, List.flatten_cons]
      rcases List.mem_append.mp listed with here | later
      · exact List.mem_append_left _ (Atom.leaf_token inLeaf atom here)
      · exact List.mem_append_right _ (atomLeaves_token inLeaf rest later)

end

mutual

theorem Content.leaf_token (inLeaf : token ∈ leaf.tokens) :
    ∀ (content : Content), leaf ∈ content.leaves → token ∈ content.tokens
  | .atom atom, listed => Atom.leaf_token inLeaf atom listed
  | .group block, listed =>
      List.mem_cons_of_mem _
        (List.mem_append_left _ (mem_joinedBy (blockLeaves_token inLeaf block listed)))
  | .action _ _, listed => absurd listed List.not_mem_nil

theorem Element.leaf_token (inLeaf : token ∈ leaf.tokens) :
    ∀ (element : Element), leaf ∈ element.leaves → token ∈ element.tokens
  | ⟨content, _, _⟩, listed =>
      List.mem_append_left _
        (List.mem_append_right _ (Content.leaf_token inLeaf content listed))

theorem elementLeaves_token (inLeaf : token ∈ leaf.tokens) :
    ∀ (elements : List Element), leaf ∈ elementLeaves elements → token ∈ elementTokens elements
  | [], listed => absurd listed List.not_mem_nil
  | element :: rest, listed => by
      rcases List.mem_append.mp listed with here | later
      · exact List.mem_append_left _ (Element.leaf_token inLeaf element here)
      · exact List.mem_append_right _ (elementLeaves_token inLeaf rest later)

theorem Alternative.leaf_token (inLeaf : token ∈ leaf.tokens) :
    ∀ (alternative : Alternative), leaf ∈ alternative.leaves → token ∈ alternative.tokens
  | ⟨elements, _, _, _⟩, listed =>
      List.mem_append_left _ (List.mem_append_left _ (elementLeaves_token inLeaf elements listed))

theorem blockLeaves_token (inLeaf : token ∈ leaf.tokens) :
    ∀ (block : List Alternative),
      leaf ∈ blockLeaves block → token ∈ (alternativeTokens block).flatten
  | [], listed => absurd listed List.not_mem_nil
  | alternative :: rest, listed => by
      rw [alternativeTokens, List.flatten_cons]
      rcases List.mem_append.mp listed with here | later
      · exact List.mem_append_left _ (Alternative.leaf_token inLeaf alternative here)
      · exact List.mem_append_right _ (blockLeaves_token inLeaf rest later)

end

/-- The name that a leaf refers to. -/
def Atom.referent? : Atom → Option String
  | .reference name _ => some name.value
  | _ => none

mutual

theorem Atom.references_leaves : ∀ (atom : Atom),
    atom.references = atom.leaves.filterMap Atom.referent?
  | .excluding operand => Atom.references_leaves operand
  | .excludingAny operands => atomReferences_leaves operands
  | .literal _ | .range _ _ | .charSet _ | .reference _ _ | .wildcard => rfl

theorem atomReferences_leaves : ∀ (atoms : List Atom),
    atomReferences atoms = (atomLeaves atoms).filterMap Atom.referent?
  | [] => rfl
  | atom :: rest => by
      rw [atomReferences, atomLeaves, List.filterMap_append, Atom.references_leaves atom,
        atomReferences_leaves rest]

end

mutual

theorem Content.references_leaves : ∀ (content : Content),
    content.references = content.leaves.filterMap Atom.referent?
  | .atom atom => Atom.references_leaves atom
  | .group block => blockReferences_leaves block
  | .action _ _ => rfl

theorem Element.references_leaves : ∀ (element : Element),
    element.references = element.leaves.filterMap Atom.referent?
  | ⟨content, _, _⟩ => Content.references_leaves content

theorem elementReferences_leaves : ∀ (elements : List Element),
    elementReferences elements = (elementLeaves elements).filterMap Atom.referent?
  | [] => rfl
  | element :: rest => by
      rw [elementReferences, elementLeaves, List.filterMap_append,
        Element.references_leaves element, elementReferences_leaves rest]

theorem Alternative.references_leaves : ∀ (alternative : Alternative),
    alternative.references = alternative.leaves.filterMap Atom.referent?
  | ⟨elements, _, _, _⟩ => elementReferences_leaves elements

theorem blockReferences_leaves : ∀ (block : List Alternative),
    blockReferences block = (blockLeaves block).filterMap Atom.referent?
  | [] => rfl
  | alternative :: rest => by
      rw [blockReferences, blockLeaves, List.filterMap_append,
        Alternative.references_leaves alternative, blockReferences_leaves rest]

end

/-- A reference is a token of the body that it stands in. -/
theorem blockReferences_token {block : Block} {name : String}
    (refers : name ∈ blockReferences block) :
    wordToken name ∈ (alternativeTokens block).flatten := by
  rw [blockReferences_leaves, List.mem_filterMap] at refers
  obtain ⟨leaf, listed, referent⟩ := refers
  cases leaf with
  | reference located arguments =>
      cases referent
      exact blockLeaves_token (List.mem_cons_self ..) block listed
  | _ => cases referent

end Railroad
