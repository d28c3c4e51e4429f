import Railroad.Grammar.Basic
import Railroad.Proofs.Token.Shape

/-!
# Tokens of grammar trees

The tokens that the written form of a tree consists of, and the part of the tokens of a source
that is found again in the tree: options in angle brackets are lost, and so is what stands between
the parenthesis and the colon of a group.
-/

namespace Railroad

open Scan (wordToken)

/-- Lists of tokens with a separator between them. -/
def joinedBy (separator : Token) : List (List Token) → List Token
  | [] => []
  | first :: rest => first ++ rest.flatMap (separator :: ·)

theorem mem_joinedBy {separator token : Token} {lists : List (List Token)}
    (inside : token ∈ lists.flatten) : token ∈ joinedBy separator lists := by
  cases lists with
  | nil => exact inside
  | cons first rest =>
      rcases List.mem_append.mp (List.flatten_cons ▸ inside) with here | later
      · exact List.mem_append_left _ here
      · obtain ⟨list, listed, member⟩ := List.mem_flatten.mp later
        exact List.mem_append_right _
          (List.mem_flatMap.mpr ⟨list, listed, List.mem_cons_of_mem _ member⟩)

def Suffix.tokens (suffix : Suffix) : List Token :=
  let sign := match suffix.repeats with
    | .optional => Mark.question
    | .zeroOrMore => .star
    | .oneOrMore => .plus
  if suffix.greedy then [.mark sign] else [.mark sign, .mark .question]

def ElementLabel.tokens (label : ElementLabel) : List Token :=
  [wordToken label.name, .mark (if label.additive then .plusEquals else .equals)]

/-- The argument of a command is a number or a name. -/
def argumentToken (text : String) : Token :=
  if text.toList.head?.any Char.isDigit then .integer text else wordToken text

theorem argumentToken_text (text : String) : (argumentToken text).text = text := by
  unfold argumentToken
  split
  · rfl
  · exact Scan.wordToken_text text

theorem argumentToken_ne_mark (text : String) (sign : Mark) : argumentToken text ≠ .mark sign := by
  unfold argumentToken
  split
  · exact Token.noConfusion
  · exact Scan.wordToken_ne_mark _ _

theorem argumentToken_of_word {text : String} (isWord : IsWord text) :
    argumentToken text = wordToken text := by
  obtain ⟨c, run, spelled, letter, -⟩ := isWord
  rw [argumentToken, spelled, List.head?_cons, Option.any_some, not_digit_of_letter letter]
  rfl

theorem argumentToken_of_integer {text : String} (shaped : (Token.integer text).Shaped) :
    argumentToken text = .integer text := by
  obtain ⟨c, run, spelled, digit, -⟩ := shaped
  rw [argumentToken, spelled, List.head?_cons, Option.any_some, digit]
  rfl

def Command.tokens (command : Command) : List Token :=
  wordToken command.name ::
    match command.argument with
    | some argument => [.mark .openParen, argumentToken argument, .mark .closeParen]
    | none => []

mutual

def Atom.tokens : Atom → List Token
  | .literal text => [.literal text]
  | .range first last => [.literal first, .mark .doubleDot, .literal last]
  | .charSet text => [.charSet text]
  | .reference name arguments => wordToken name.value :: (arguments.map Token.charSet).toList
  | .excluding operand => .mark .tilde :: operand.tokens
  | .excludingAny operands =>
      .mark .tilde :: .mark .openParen ::
        (joinedBy (.mark .bar) (atomTokens operands) ++ [.mark .closeParen])
  | .wildcard => [.mark .dot]

def atomTokens : List Atom → List (List Token)
  | [] => []
  | atom :: rest => atom.tokens :: atomTokens rest

end

mutual

def Content.tokens : Content → List Token
  | .atom atom => atom.tokens
  | .group block =>
      .mark .openParen :: (joinedBy (.mark .bar) (alternativeTokens block) ++ [.mark .closeParen])
  | .action code predicate => .action code :: (if predicate then [.mark .question] else [])

def Element.tokens : Element → List Token
  | ⟨content, label, suffix⟩ =>
      (label.map ElementLabel.tokens).getD [] ++ content.tokens ++
        (suffix.map Suffix.tokens).getD []

def elementTokens : List Element → List Token
  | [] => []
  | element :: rest => element.tokens ++ elementTokens rest

def Alternative.tokens : Alternative → List Token
  | ⟨elements, _, label, commands⟩ =>
      elementTokens elements ++
        (label.map fun name => [.mark .hash, wordToken name]).getD [] ++
        (if commands.isEmpty then []
          else .mark .arrow :: joinedBy (.mark .comma) (commands.map Command.tokens))

def alternativeTokens : List Alternative → List (List Token)
  | [] => []
  | alternative :: rest => alternative.tokens :: alternativeTokens rest

end

/-- The tokens of a block without parentheses. -/
def blockTokens (block : Block) : List Token := joinedBy (.mark .bar) (alternativeTokens block)

theorem atomTokens_eq_map (atoms : List Atom) : atomTokens atoms = atoms.map Atom.tokens := by
  induction atoms with
  | nil => rfl
  | cons atom rest ih => rw [atomTokens, ih, List.map_cons]

theorem elementTokens_eq_flatMap (elements : List Element) :
    elementTokens elements = elements.flatMap Element.tokens := by
  induction elements with
  | nil => rfl
  | cons element rest ih => rw [elementTokens, ih, List.flatMap_cons]

theorem alternativeTokens_eq_map (block : Block) :
    alternativeTokens block = block.map Alternative.tokens := by
  induction block with
  | nil => rfl
  | cons alternative rest ih => rw [alternativeTokens, ih, List.map_cons]

/-- What is being passed over in the tokens of a body. -/
inductive Passing where
  | nothing
  | options
  | header
  deriving DecidableEq, Repr

/-- Where the passing over ends. -/
def Passing.closes : Passing → Token → Bool
  | nothing, _ => false
  | options, token => token == .mark .greater
  | header, token => token == .mark .colon

/-- Whether what follows a parenthesis is not yet the alternatives of a group. -/
def opensHeader : List Token → Bool
  | .keyword .options :: _ | .mark .atSign :: _ | .mark .colon :: _ => true
  | _ => false

def keptFrom : Passing → List Token → List Token
  | _, [] => []
  | .nothing, .mark .less :: rest => keptFrom .options rest
  | .nothing, .mark .openParen :: rest =>
      .mark .openParen :: keptFrom (if opensHeader rest then .header else .nothing) rest
  | .nothing, token :: rest => token :: keptFrom .nothing rest
  | passing, token :: rest => keptFrom (if passing.closes token then .nothing else passing) rest

/-- The tokens of a body without options in angle brackets and without headers of groups. -/
def kept (tokens : List Token) : List Token := keptFrom .nothing tokens

theorem keptFrom_passed {passing : Passing} {last : Token} {tokens : List Token}
    (some : passing ≠ .nothing) (closes : passing.closes last = true)
    (free : ∀ token ∈ tokens, passing.closes token = false) (rest : List Token) :
    keptFrom passing (tokens ++ last :: rest) = kept rest := by
  induction tokens with
  | nil =>
      cases passing with
      | nothing => exact absurd rfl some
      | options | header => simp only [List.nil_append, keptFrom, closes, if_true, kept]
  | cons token others ih =>
      have open_ := free token (List.mem_cons_self ..)
      have remaining := ih fun other member => free other (List.mem_cons_of_mem _ member)
      cases passing with
      | nothing => exact absurd rfl some
      | options | header =>
          simp only [List.cons_append, keptFrom, open_, Bool.false_eq_true, if_false, remaining]

end Railroad
