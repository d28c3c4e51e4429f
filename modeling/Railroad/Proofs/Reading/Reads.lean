import Mathlib.Data.List.Forall2
import Railroad.Proofs.Reading.Recognizes

/-!
# Readers of given tokens

While a reader of a form takes some value, a reader of given tokens takes a value that is known.
As with forms, what follows must not begin with a terminal by which the tokens could go on, and the
length of the input is bounded.
-/

namespace Railroad.Reader

variable {α β : Type} {bound : Nat}

/-- The tokens do not begin with a barred terminal; if there are none, neither does what comes
next. -/
def Follows (tokens : List Token) (barred more : List Terminal) : Prop :=
  (∀ token ∈ tokens.head?, token.terminal ∉ barred) ∧
    (tokens = [] → ∀ terminal ∈ barred, terminal ∈ more)

namespace Follows

variable {barred middle more : List Terminal} {first second : List Token}

theorem unbarred (tokens : List Token) (more : List Terminal) : Follows tokens [] more :=
  ⟨fun _ _ => List.not_mem_nil, fun _ _ none => absurd none List.not_mem_nil⟩

theorem nil (subset : ∀ terminal ∈ barred, terminal ∈ more) : Follows [] barred more :=
  ⟨fun _ none => absurd none (Option.not_mem_none _), fun _ => subset⟩

theorem cons {token : Token} (terminal : Terminal) (stands : token.terminal = terminal)
    (free : terminal ∉ barred) (rest : List Token) (more : List Terminal) :
    Follows (token :: rest) barred more := by
  subst stands
  exact ⟨fun _ same => Option.some.inj same ▸ free, fun none => absurd none (List.cons_ne_nil _ _)⟩

theorem append (head : Follows first barred middle) (tail : Follows second middle more) :
    Follows (first ++ second) barred more := by
  cases first with
  | nil =>
      have subset := head.2 rfl
      exact ⟨fun token next member => tail.1 token next (subset _ member),
        fun none terminal member => tail.2 none terminal (subset _ member)⟩
  | cons token rest => exact .cons _ rfl (head.1 token rfl) _ _

end Follows

/-- The tokens begin as words of the form do. -/
def Begins (form : Form) (tokens : List Token) : Prop :=
  (∀ token ∈ tokens.head?, token.terminal ∈ form.starts) ∧ (form.nullable = false → tokens ≠ [])

namespace Begins

variable {form second : Form} {tokens others : List Token}

theorem cons {token : Token} (terminal : Terminal) (stands : token.terminal = terminal)
    (starts : terminal ∈ form.starts) (rest : List Token) : Begins form (token :: rest) := by
  subst stands
  exact ⟨fun _ same => Option.some.inj same ▸ starts, fun _ => List.cons_ne_nil _ _⟩

theorem join {third : Form} (begins : Begins form tokens) (next : Begins second others)
    (left : ∀ terminal ∈ form.starts, terminal ∈ third.starts)
    (right : ∀ terminal ∈ second.starts, terminal ∈ third.starts)
    (empty : third.nullable = true) : Begins third (tokens ++ others) := by
  refine ⟨fun token first => ?_, fun firm => absurd (empty.symm.trans firm) Bool.noConfusion⟩
  cases tokens with
  | nil => exact right _ (next.1 token first)
  | cons start rest => exact left _ (begins.1 token first)

theorem follows {barred more : List Terminal} (begins : Begins form tokens)
    (joins : form.Joins barred more) : Follows tokens barred more := by
  refine ⟨fun token next => joins.1 _ (begins.1 token next), fun none => joins.2 ?_⟩
  rw [← Bool.not_eq_false]
  exact fun firm => begins.2 firm none

end Begins

theorem Clear.of_follows {taken rest : List Lexeme} {tokens : List Token}
    {barred more : List Terminal} (same : tokensOf taken = tokens)
    (follows : Follows tokens barred more) (clear : Clear more rest) :
    Clear barred (taken ++ rest) := by
  cases taken with
  | nil => exact clear.of_subset (follows.2 same.symm)
  | cons lexeme others => exact .cons (follows.1 lexeme.token (congrArg List.head? same.symm)) _

/-- Lexemes of items that do not begin with a barred terminal. -/
theorem Clear.of_items {γ : Type} {tokens : γ → List Token} {items : List γ} {lexemes : List Lexeme}
    {barred : List Terminal}
    (starts : ∀ item ∈ items, ∃ token rest, tokens item = token :: rest ∧ token.terminal ∉ barred)
    (same : tokensOf lexemes = items.flatMap tokens) : Clear barred lexemes := by
  cases items with
  | nil =>
      obtain rfl : lexemes = [] := List.map_eq_nil_iff.mp same
      exact .nil barred
  | cons item others =>
      obtain ⟨token, rest, begins, free⟩ := starts item (List.mem_cons_self ..)
      rw [List.flatMap_cons, begins] at same
      cases lexemes with
      | nil => cases same
      | cons lexeme behind => exact .cons ((List.cons.inj same).1 ▸ free) behind

/-- From lexemes of these tokens, the reader takes all and a value as expected. -/
def Reads (bound : Nat) (reader : Reader α) (tokens : List Token) (expected : α → Prop)
    (more : List Terminal) : Prop :=
  ∀ ⦃taken rest : List Lexeme⦄, (taken ++ rest).length ≤ bound → tokensOf taken = tokens →
    Clear more rest → ∃ value, reader (taken ++ rest) = .done value rest ∧ expected value

/-- On these tokens, the reader misses. -/
def Skips (reader : Reader α) (tokens : List Token) (more : List Terminal) : Prop :=
  ∀ ⦃taken rest : List Lexeme⦄, tokensOf taken = tokens → Clear more rest →
    ∃ setback, reader (taken ++ rest) = .missed setback

theorem Misses.skips {reader : Reader α} {form : Form} {tokens : List Token}
    {more : List Terminal} (misses : Misses reader form) (follows : Follows tokens form.starts more) :
    Skips reader tokens more :=
  fun _ _ same clear => misses (.of_follows same follows clear)

theorem Misses.skips_cons {reader : Reader α} {form : Form} (misses : Misses reader form)
    (terminal : Terminal) {token : Token} (stands : token.terminal = terminal)
    (free : terminal ∉ form.starts) (rest : List Token) (more : List Terminal) :
    Skips reader (token :: rest) more :=
  misses.skips (.cons terminal stands free rest more)

namespace Reads

variable {reader other : Reader α} {tokens first second : List Token} {expected : α → Prop}
  {wanted : β → Prop} {more further : List Terminal}

theorem mono {weaker : α → Prop} (reads : Reads bound reader tokens expected more)
    (implies : ∀ value, expected value → weaker value) : Reads bound reader tokens weaker more := by
  intro taken rest fits same clear
  obtain ⟨value, read, meets⟩ := reads fits same clear
  exact ⟨value, read, implies value meets⟩

theorem widen (reads : Reads bound reader tokens expected more)
    (wider : ∀ terminal ∈ more, terminal ∈ further) : Reads bound reader tokens expected further :=
  fun _ _ fits same clear => reads fits same (clear.of_subset wider)

theorem shrink {size : Nat} (reads : Reads bound reader tokens expected more)
    (smaller : size ≤ bound) : Reads size reader tokens expected more :=
  fun _ _ fits => reads (Nat.le_trans fits smaller)

theorem succeed {value : α} (meets : expected value) :
    Reads bound (Reader.succeed value) [] expected more := by
  intro taken rest _ same _
  obtain rfl : taken = [] := List.map_eq_nil_iff.mp same
  exact ⟨value, rfl, meets⟩

theorem accept {select : Lexeme → Option α} {token : Token} (expectation : Expectation)
    (selects : ∀ lexeme, lexeme.token = token → ∃ value, select lexeme = some value ∧ expected value) :
    Reads bound (Reader.accept expectation select) [token] expected more := by
  intro taken rest _ same _
  obtain ⟨lexeme, rfl, isToken⟩ := List.map_eq_singleton_iff.mp same
  obtain ⟨value, selected, meets⟩ := selects lexeme isToken
  exact ⟨value, by simp only [List.singleton_append, Reader.accept, selected], meets⟩

theorem token (token : Token) : Reads bound (Reader.token token) [token] (fun _ => True) more :=
  .accept _ fun _ same => ⟨(), if_pos same, trivial⟩

/-- The second reader may be given shorter input only, if the first has taken something. -/
theorem descend {next : α → Reader β} (head : Reads bound reader first expected more)
    (follows : Follows second more further)
    (tail : ∀ size value, expected value → (first ≠ [] → size < bound) → size ≤ bound →
      Reads size (next value) second wanted further) :
    Reads bound (reader.andThen next) (first ++ second) wanted further := by
  intro taken rest fits same clear
  obtain ⟨front, back, rfl, frontSame, backSame⟩ := List.map_eq_append_iff.mp same
  rw [List.append_assoc] at fits ⊢
  obtain ⟨value, read, meets⟩ := head fits frontSame (.of_follows backSame follows clear)
  rw [List.length_append] at fits
  have smaller : first ≠ [] → (back ++ rest).length < bound := by
    intro some
    have positive : 0 < front.length := by
      rw [List.length_pos_iff]
      rintro rfl
      exact some frontSame.symm
    omega
  obtain ⟨result, readRest, meetsRest⟩ :=
    tail _ value meets smaller (by omega) (Nat.le_refl _) backSame clear
  exact ⟨result, by simp only [Reader.andThen, read, readRest], meetsRest⟩

theorem andThen {next : α → Reader β} (head : Reads bound reader first expected more)
    (follows : Follows second more further)
    (tail : ∀ value, expected value → Reads bound (next value) second wanted further) :
    Reads bound (reader.andThen next) (first ++ second) wanted further :=
  head.descend follows fun _ value meets _ smaller => (tail value meets).shrink smaller

theorem map {change : α → β} (reads : Reads bound reader tokens expected more)
    (implies : ∀ value, expected value → wanted (change value)) :
    Reads bound (reader.map change) tokens wanted more := by
  intro taken rest fits same clear
  obtain ⟨value, read, meets⟩ := reads fits same clear
  exact ⟨change value, by simp only [Reader.map, Reader.andThen, read, Reader.succeed],
    implies value meets⟩

theorem giving (reads : Reads bound reader tokens expected more) (value : β) :
    Reads bound (reader.giving value) tokens (· = value) more :=
  reads.map fun _ _ => rfl

theorem orElse_left (reads : Reads bound reader tokens expected more) (other : Reader α) :
    Reads bound (reader.orElse other) tokens expected more := by
  intro taken rest fits same clear
  obtain ⟨value, read, meets⟩ := reads fits same clear
  exact ⟨value, by simp only [Reader.orElse, read], meets⟩

theorem orElse_right (skips : Skips reader tokens more)
    (reads : Reads bound other tokens expected more) :
    Reads bound (reader.orElse other) tokens expected more := by
  intro taken rest fits same clear
  obtain ⟨setback, missed⟩ := skips same clear
  obtain ⟨value, read, meets⟩ := reads fits same clear
  exact ⟨value, by simp only [Reader.orElse, missed, read], meets⟩

theorem present (reads : Reads bound reader tokens expected more) :
    Reads bound reader.optional tokens (fun found => ∃ value, found = some value ∧ expected value)
      more := by
  intro taken rest fits same clear
  obtain ⟨value, read, meets⟩ := reads fits same clear
  exact ⟨some value, by simp only [Reader.optional, read], value, rfl, meets⟩

theorem absent {form : Form} (misses : Misses reader form) :
    Reads bound reader.optional [] (· = none) form.starts := by
  intro taken rest _ same clear
  obtain rfl : taken = [] := List.map_eq_nil_iff.mp same
  obtain ⟨setback, missed⟩ := misses clear
  exact ⟨none, by simp only [List.nil_append, Reader.optional, missed], rfl⟩

/-- An optional part is missing where a token stands that it does not begin with. -/
theorem omitted {form : Form} {next : Option α → Reader β} {token : Token} (rest : List Token)
    (misses : Misses reader form) (free : token.terminal ∉ form.starts)
    (later : Reads bound (next none) (token :: rest) wanted further) :
    Reads bound (reader.optional.andThen next) (token :: rest) wanted further := by
  have missing : Reads bound reader.optional [] (· = none) form.starts := absent misses
  exact missing.andThen (.cons token.terminal rfl free _ _) fun found none => none ▸ later

theorem expecting (reads : Reads bound reader tokens expected more) (description : String) :
    Reads bound (reader.expecting description) tokens expected more := by
  intro taken rest fits same clear
  obtain ⟨value, read, meets⟩ := reads fits same clear
  exact ⟨value, by simp only [Reader.expecting, read], meets⟩

theorem committed (reads : Reads bound reader tokens expected more) :
    Reads bound reader.committed tokens expected more := by
  intro taken rest fits same clear
  obtain ⟨value, read, meets⟩ := reads fits same clear
  exact ⟨value, by simp only [Reader.committed, read], meets⟩

theorem many_nil {form : Form} (misses : Misses reader form) :
    Reads bound (Reader.many reader) [] (· = []) form.starts := by
  intro taken rest _ same clear
  obtain rfl : taken = [] := List.map_eq_nil_iff.mp same
  obtain ⟨setback, missed⟩ := misses clear
  exact ⟨[], Reader.many_nil missed, rfl⟩

theorem many_cons {others : List α → Prop} (head : Reads bound reader first expected more)
    (some : first ≠ []) (follows : Follows second more further)
    (tail : Reads bound (Reader.many reader) second others further) :
    Reads bound (Reader.many reader) (first ++ second)
      (fun values => ∃ value rest, values = value :: rest ∧ expected value ∧ others rest) further := by
  intro taken rest fits same clear
  obtain ⟨front, back, rfl, frontSame, backSame⟩ := List.map_eq_append_iff.mp same
  rw [List.append_assoc] at fits ⊢
  obtain ⟨value, read, meets⟩ := head fits frontSame (.of_follows backSame follows clear)
  have positive : 0 < front.length := by
    rw [List.length_pos_iff]
    rintro rfl
    exact some frontSame.symm
  rw [List.length_append] at fits
  obtain ⟨values, readRest, meetsRest⟩ := tail (by omega) backSame clear
  refine ⟨value :: values, Reader.many_cons read ?_ readRest, value, values, rfl, meets, meetsRest⟩
  simp only [List.length_append]
  omega

/-- What may follow a value and is dropped is passed over where it is missing. -/
theorem dropping {form : Form} {other : Reader β} (reads : Reads bound reader tokens expected more)
    (misses : Misses other form) (barred : ∀ terminal ∈ form.starts, terminal ∈ more) :
    Reads bound (reader.andThen fun value => other.optional.andThen fun _ => Reader.succeed value)
      tokens expected more := by
  have whole : Reads bound
      (reader.andThen fun value => other.optional.andThen fun _ => Reader.succeed value)
      (tokens ++ []) expected more :=
    reads.andThen (.nil fun _ member => member) fun value holds =>
      ((absent misses).widen barred).map fun _ _ => holds
  rwa [List.append_nil] at whole

theorem skips {next : α → Reader β} (head : ∀ bound, Reads bound reader first expected more)
    (follows : Follows second more further)
    (later : ∀ value, expected value → Skips (next value) second further) :
    Skips (reader.andThen next) (first ++ second) further := by
  intro taken rest same clear
  obtain ⟨front, back, rfl, frontSame, backSame⟩ := List.map_eq_append_iff.mp same
  rw [List.append_assoc]
  obtain ⟨value, read, meets⟩ :=
    head _ (Nat.le_refl _) frontSame (.of_follows backSame follows clear)
  obtain ⟨setback, missed⟩ := later value meets backSame clear
  exact ⟨setback, by simp only [Reader.andThen, read, missed]⟩

/-- A reader that calls itself reads tokens of some kind if a round does, given that shorter input
is read. -/
theorem recursive {γ : Type} {step : Reader α → Reader α} {tokens : γ → List Token}
    {meets : γ → α → Prop} {fine : γ → Prop}
    (keeps : ∀ bound inner,
      (∀ size < bound, ∀ item, fine item → Reads size inner (tokens item) (meets item) more) →
        ∀ item, fine item → Reads bound (step inner) (tokens item) (meets item) more)
    (item : γ) (isFine : fine item) :
    Reads bound (Reader.recursive step) (tokens item) (meets item) more := by
  induction bound using Nat.strongRecOn generalizing item with
  | ind bound ih =>
      intro taken rest fits same clear
      rw [Reader.recursive]
      refine keeps (taken ++ rest).length _ (fun size smaller other fineOther => ?_) item isFine
        (Nat.le_refl _) same clear
      intro front back fitsInner frontSame backClear
      have shorter : (front ++ back).length < (taken ++ rest).length :=
        Nat.lt_of_le_of_lt fitsInner smaller
      simp only [if_pos shorter]
      exact ih size (Nat.lt_of_lt_of_le smaller fits) other fineOther fitsInner frontSame backClear

/-- Items with a sign between them are read if every one is, in front of the sign too. -/
theorem separated {γ : Type} {separator : Reader Unit} {sign : Token} {tokens : γ → List Token}
    {meets : γ → α → Prop} (agree : List γ → List α → Prop) (none : agree [] [])
    (one : ∀ ⦃item value items values⦄, meets item value → agree items values →
      agree (item :: items) (value :: values))
    (signReads : Reads bound separator [sign] (fun _ => True) [])
    (signMisses : Misses separator (.terminal sign.terminal)) (apart : sign.terminal ∉ more)
    (head : γ) (items : List γ)
    (each : ∀ item ∈ head :: items, Reads bound reader (tokens item) (meets item) more) :
    Reads bound (Reader.separated reader separator)
      (tokens head ++ items.flatMap fun item => sign :: tokens item) (agree (head :: items))
      (sign.terminal :: more) := by
  have follows (rest : List γ) :
      Follows (rest.flatMap fun item => sign :: tokens item) more (sign.terminal :: more) := by
    cases rest with
    | nil => exact .nil fun _ => List.mem_cons_of_mem _
    | cons item others => exact .cons _ rfl apart _ _
  have others (rest : List γ) (eachRest : ∀ item ∈ rest, Reads bound reader (tokens item) (meets item) more) :
      Reads bound (Reader.many (separator.andThen fun _ => reader))
        (rest.flatMap fun item => sign :: tokens item) (agree rest) (sign.terminal :: more) := by
    induction rest with
    | nil =>
        refine ((many_nil (signMisses.before _)).widen (fun _ member => ?_)).mono fun values same => ?_
        · exact List.mem_cons.mpr (Or.inl (List.mem_singleton.mp member))
        · exact same ▸ none
    | cons item rest ih =>
        have here : Reads bound (separator.andThen fun _ => reader) (sign :: tokens item) (meets item)
            more :=
          signReads.andThen (.unbarred _ _) fun _ _ => eachRest item (List.mem_cons_self ..)
        have later := ih fun other member => eachRest other (List.mem_cons_of_mem _ member)
        refine (many_cons here (List.cons_ne_nil _ _) (follows rest) later).mono fun values => ?_
        rintro ⟨value, found, rfl, meetsItem, agrees⟩
        exact one meetsItem agrees
  have final := others items fun item member => each item (List.mem_cons_of_mem _ member)
  refine (each head (List.mem_cons_self ..)).andThen (follows items) fun value meetsHead => ?_
  exact final.map fun values agrees => one meetsHead agrees

/-- Items up to the end of the input are read if every one is, in front of the next. -/
theorem exhaust {γ : Type} {tokens : γ → List Token} {meets : γ → α → Prop} {items : List γ}
    {lexemes : List Lexeme}
    (each : ∀ item ∈ items, ∀ bound, Reads bound reader (tokens item) (meets item) more)
    (starts : ∀ item ∈ items, ∃ token rest, tokens item = token :: rest ∧ token.terminal ∉ more)
    (same : tokensOf lexemes = items.flatMap tokens) :
    ∃ values, Reader.exhaust reader lexemes = .done values [] ∧ List.Forall₂ meets items values := by
  induction items generalizing lexemes with
  | nil =>
      obtain rfl : lexemes = [] := List.map_eq_nil_iff.mp same
      exact ⟨[], by rw [Reader.exhaust, if_pos rfl], .nil⟩
  | cons item others ih =>
      rw [List.forall_mem_cons] at each starts
      rw [List.flatMap_cons] at same
      obtain ⟨front, back, rfl, frontSame, backSame⟩ := List.map_eq_append_iff.mp same
      have clear : Clear more back := .of_items starts.2 backSame
      obtain ⟨value, read, holds⟩ := each.1 _ (Nat.le_refl _) frontSame clear
      obtain ⟨values, readRest, agree⟩ := ih each.2 starts.2 backSame
      have shorter : back.length < (front ++ back).length := by
        obtain ⟨token, rest, begins, -⟩ := starts.1
        have some : front.length = rest.length + 1 := by
          rw [← List.length_map, frontSame, begins, List.length_cons]
        rw [List.length_append]
        omega
      exact ⟨value :: values, exhaust_cons read shorter readRest, .cons holds agree⟩

end Reads

end Railroad.Reader
