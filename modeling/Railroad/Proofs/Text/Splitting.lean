import Mathlib.Data.List.DropRight
import Mathlib.Data.List.Infix
import Railroad.Text.Classes

/-!
# Texts that split in one way

A text falls into two parts in one way if the first part cannot reach over the place where the
second begins: because a sign or a separator stands there that the first part does not hold, or
because a run of characters of one kind ends there.  A text that is split at all occurrences of a
character falls into parts that do not hold it.
-/

namespace Railroad

variable {α : Type}

/-- A sign that stands on neither left side splits a list in one way. -/
theorem append_cons_inj {c : α} {first second rest other : List α}
    (same : first ++ c :: rest = second ++ c :: other) (notFirst : c ∉ first)
    (notSecond : c ∉ second) : first = second ∧ rest = other := by
  induction first generalizing second with
  | nil =>
      cases second with
      | nil => exact ⟨rfl, (List.cons.inj same).2⟩
      | cons d others =>
          exact absurd ((List.cons.inj same).1 ▸ List.mem_cons_self ..) notSecond
  | cons d others ih =>
      cases second with
      | nil => exact absurd ((List.cons.inj same).1 ▸ List.mem_cons_self ..) notFirst
      | cons e more =>
          obtain ⟨rfl, tails⟩ := List.cons.inj same
          obtain ⟨rfl, rests⟩ := ih tails (fun member => notFirst (List.mem_cons_of_mem _ member))
            fun member => notSecond (List.mem_cons_of_mem _ member)
          exact ⟨rfl, rests⟩

section Parts

variable {part text : List α} {c : α}

/-- What does not hold a sign does not begin at it. -/
theorem infix_of_cons (free : c ∉ part) (inside : part <:+: c :: text) : part <:+: text := by
  rcases List.infix_cons_iff.mp inside with begins | later
  · cases part with
    | nil => exact List.nil_infix
    | cons d others =>
        exact absurd ((List.cons_prefix_cons.mp begins).1 ▸ List.mem_cons_self ..) free
  · exact later

theorem infix_of_concat (free : c ∉ part) (inside : part <:+: text ++ [c]) : part <:+: text := by
  rcases List.infix_concat_iff.mp inside with ends | earlier
  · rcases List.suffix_concat_iff.mp ends with rfl | ⟨others, rfl, -⟩
    · exact List.nil_infix
    · exact absurd (List.mem_append_right _ (List.mem_singleton_self c)) free
  · exact earlier

/-- A part that ends in a sign of its own does not reach into a separator. -/
theorem separator_absorbs {separator more rest other : List α}
    (same : separator ++ rest = more ++ (separator ++ other))
    (ends : ∀ last ∈ more.getLast?, last ∉ separator) : more = [] ∨ separator <:+: more := by
  rcases List.append_eq_append_iff.mp same with ⟨later, rfl, -⟩ | ⟨later, rfl, -⟩
  · exact .inr (List.prefix_append _ _).isInfix
  · cases last : more.getLast? with
    | none => exact .inl (List.getLast?_eq_none_iff.mp last)
    | some c => exact absurd (List.mem_append_left _ (List.mem_of_getLast? last)) (ends c last)

/-- A separator that does not stand in the first part splits a text in one way. -/
theorem separator_inj {separator first second rest other : List α}
    (same : first ++ (separator ++ rest) = second ++ (separator ++ other))
    (apart : ¬separator <:+: first) (apartToo : ¬separator <:+: second)
    (ends : ∀ last ∈ first.getLast?, last ∉ separator)
    (endsToo : ∀ last ∈ second.getLast?, last ∉ separator) : first = second ∧ rest = other := by
  have firsts : first = second := by
    rcases List.append_eq_append_iff.mp same with ⟨more, rfl, behind⟩ | ⟨more, rfl, behind⟩
    · have endsLater : ∀ last ∈ more.getLast?, last ∉ separator := fun last isLast =>
        endsToo last (List.mem_getLast?_append_of_mem_getLast? isLast)
      rcases separator_absorbs behind endsLater with rfl | inside
      · rw [List.append_nil]
      · exact absurd (inside.trans (List.suffix_append _ _).isInfix) apartToo
    · have endsLater : ∀ last ∈ more.getLast?, last ∉ separator := fun last isLast =>
        ends last (List.mem_getLast?_append_of_mem_getLast? isLast)
      rcases separator_absorbs behind endsLater with rfl | inside
      · rw [List.append_nil]
      · exact absurd (inside.trans (List.suffix_append _ _).isInfix) apart
  subst firsts
  exact ⟨rfl, List.append_cancel_left (List.append_cancel_left same)⟩

end Parts

namespace Text

variable {c : Char}

theorem not_mem_of_mem_splitOn (text : List Char) : ∀ part ∈ text.splitOn c, c ∉ part := by
  by_cases inside : c ∈ text
  · obtain ⟨first, rest, split, free⟩ := List.eq_append_cons_of_mem inside
    have shorter : rest.length < text.length := by
      rw [split, List.length_append, List.length_cons]
      omega
    rw [split, List.splitOn_append_cons_self, List.splitOn_eq_singleton free]
    exact List.forall_mem_cons.mpr ⟨free, not_mem_of_mem_splitOn rest⟩
  · rw [List.splitOn_eq_singleton inside]
    exact List.forall_mem_singleton.mpr inside
termination_by text.length

theorem intercalate_lines (lines : List (List Char)) :
    [c].intercalate (lines ++ [[]]) = lines.flatMap (· ++ [c]) := by
  induction lines with
  | nil => rfl
  | cons line rest ih =>
      rw [List.cons_append, List.intercalate_cons_of_ne_nil (by simp), ih, List.flatMap_cons,
        List.append_assoc]

/-- A text falls into the lines that it was put together from if none of them holds an end. -/
theorem splitOn_lines {lines : List (List Char)} :
    (lines.flatMap (· ++ [c])).splitOn c = lines ++ [[]] ↔ ∀ line ∈ lines, c ∉ line := by
  constructor
  · intro same line member
    apply not_mem_of_mem_splitOn (lines.flatMap (· ++ [c]))
    rw [same]
    exact List.mem_append_left _ member
  · intro free
    have parts : ∀ part ∈ lines ++ [[]], c ∉ part :=
      List.forall_mem_append.mpr ⟨free, List.forall_mem_singleton.mpr List.not_mem_nil⟩
    rw [← intercalate_lines]
    exact List.splitOn_intercalate c parts (by simp)

end Text

/-- A run ends where the next character does not belong to it. -/
theorem takeWhile_append_stop {meets : Char → Bool} {run next : List Char}
    (all : ∀ c ∈ run, meets c = true) (stops : ∀ c ∈ next.head?, (!meets c) = true) :
    (run ++ next).takeWhile meets = run := by
  have none : next.takeWhile meets = [] := by
    cases next with
    | nil => rfl
    | cons c rest =>
        have stop := stops c rfl
        rw [Bool.not_eq_true'] at stop
        rw [List.takeWhile_cons, stop]
        rfl
  rw [List.takeWhile_append_of_pos all, none, List.append_nil]

/-- Runs that end before what follows are equal if the texts are. -/
theorem run_inj {meets : Char → Bool} {first second rest other : List Char}
    (same : first ++ rest = second ++ other) (all : ∀ c ∈ first, meets c = true)
    (allToo : ∀ c ∈ second, meets c = true) (stops : ∀ c ∈ rest.head?, (!meets c) = true)
    (stopsToo : ∀ c ∈ other.head?, (!meets c) = true) : first = second ∧ rest = other := by
  have runs : first = second := by
    rw [← takeWhile_append_stop all stops, same, takeWhile_append_stop allToo stopsToo]
  exact ⟨runs, List.append_cancel_left (runs ▸ same)⟩

/-- A number is known from its digits, if no digit follows. -/
theorem number_inj {n m : Nat} {rest other : List Char}
    (same : (toString n).toList ++ rest = (toString m).toList ++ other)
    (stops : ∀ c ∈ rest.head?, (!c.isDigit) = true)
    (stopsToo : ∀ c ∈ other.head?, (!c.isDigit) = true) : n = m ∧ rest = other := by
  simp only [Nat.toString_eq_ofList_toDigits, String.toList_ofList] at same
  have decimal (k : Nat) : ∀ c ∈ Nat.toDigits 10 k, c.isDigit = true := fun _ member =>
    Nat.isDigit_of_mem_toDigits (by decide) (by decide) member
  obtain ⟨digits, rests⟩ := run_inj same (decimal n) (decimal m) stops stopsToo
  have values := congrArg (fun digits => Nat.ofDigitChars 10 digits 0) digits
  simp only [Nat.ofDigitChars_ten_toDigits] at values
  exact ⟨values, rests⟩

namespace Text

variable {c : Char}

theorem splitOn_begins (right : List Char) : ∃ later, ∀ middle, c ∉ middle →
    (middle ++ right).splitOn c = (middle ++ right.takeWhile (· != c)) :: later := by
  by_cases inside : c ∈ right
  · obtain ⟨part, rest, rfl, free⟩ := List.eq_append_cons_of_mem inside
    have first : (part ++ c :: rest).takeWhile (· != c) = part := by
      refine takeWhile_append_stop (fun d member => ?_) fun d next => ?_
      · exact bne_iff_ne.mpr fun same => free (same ▸ member)
      · obtain rfl := Option.some.inj next
        rw [bne_self_eq_false]
        rfl
    refine ⟨rest.splitOn c, fun middle none => ?_⟩
    rw [first, ← List.append_assoc, List.splitOn_append_cons_self,
      List.splitOn_eq_singleton fun member => (List.mem_append.mp member).elim none free]
    rfl
  · have whole : right.takeWhile (· != c) = right :=
      List.takeWhile_eq_self_iff.mpr fun d member =>
        bne_iff_ne.mpr fun same => inside (same ▸ member)
    refine ⟨[], fun middle none => ?_⟩
    rw [whole, List.splitOn_eq_singleton fun member => (List.mem_append.mp member).elim none inside]

/-- A text without separators comes into one of the parts. -/
theorem splitOn_around (left right : List Char) : ∃ earlier later, ∀ middle, c ∉ middle →
    (left ++ (middle ++ right)).splitOn c =
      earlier ++ (left.rtakeWhile (· != c) ++ (middle ++ right.takeWhile (· != c))) :: later := by
  induction left using List.reverseRecOn with
  | nil =>
      obtain ⟨later, parts⟩ := @splitOn_begins c right
      exact ⟨[], later, parts⟩
  | append_singleton left d ih =>
      by_cases same : d = c
      · subst same
        obtain ⟨later, parts⟩ := @splitOn_begins d right
        refine ⟨left.splitOn d, later, fun middle none => ?_⟩
        have stops : ¬(d != d) = true := by simp
        rw [List.rtakeWhile_concat_neg (· != d) left d stops, List.append_assoc,
          List.singleton_append, List.splitOn_append_cons_self, parts middle none]
        rfl
      · obtain ⟨earlier, later, parts⟩ := ih
        have goesOn : (d != c) = true := bne_iff_ne.mpr same
        refine ⟨earlier, later, fun middle none => ?_⟩
        have free : c ∉ d :: middle := fun member =>
          (List.mem_cons.mp member).elim (Ne.symm same) none
        rw [List.rtakeWhile_concat_pos (· != c) left d goesOn, List.append_assoc,
          List.append_assoc, List.singleton_append, List.singleton_append]
        exact parts (d :: middle) free

theorem splitOnce_append_cons {first : List Char} (free : c ∉ first) (rest : List Char) :
    splitOnce c (first ++ c :: rest) = some (first, rest) := by
  induction first with
  | nil => exact if_pos rfl
  | cons d others ih =>
      rw [List.cons_append, splitOnce, if_neg (Ne.symm (List.ne_of_not_mem_cons free)),
        ih (List.not_mem_of_not_mem_cons free)]
      rfl

theorem splitOnce_eq_none {text : List Char} (free : c ∉ text) : splitOnce c text = none := by
  induction text with
  | nil => rfl
  | cons d rest ih =>
      rw [splitOnce, if_neg (Ne.symm (List.ne_of_not_mem_cons free)),
        ih (List.not_mem_of_not_mem_cons free)]
      rfl

end Text

end Railroad
