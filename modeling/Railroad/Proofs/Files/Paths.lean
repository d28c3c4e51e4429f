import Railroad.Files.Path
import Railroad.Proofs.Text.Splitting

/-!
# Names in paths

A path of a name in a directory goes down the pieces of the directory and ends in the name.  The
stem of a name is a name of its own, to which an ending can be given and taken away again.
-/

namespace Railroad

namespace Path

/-- What can be the last piece of a path to something that is no directory. -/
def IsName (name : String) : Prop := '/' ∉ name.toList ∧ isIdle name = false ∧ name ≠ ".."

instance (name : String) : Decidable (IsName name) := inferInstanceAs (Decidable (_ ∧ _))

theorem not_mem_pieces {path piece : String} (member : piece ∈ pieces path) :
    '/' ∉ piece.toList := by
  obtain ⟨part, inside, rfl⟩ := List.mem_map.mp member
  rw [String.toList_ofList]
  exact Text.not_mem_of_mem_splitOn path.toList part inside

theorem pieces_ne_nil (path : String) : pieces path ≠ [] := fun empty =>
  List.splitOn_ne_nil '/' path.toList (List.map_eq_nil_iff.mp empty)

/-- A path that ends in a name leads to something of this name. -/
theorem name?_of_pieces {path name : String} {above : List String}
    (split : pieces path = above ++ [name]) (named : IsName name) : name? path = some name := by
  obtain ⟨-, moves, down⟩ := named
  rw [name?, steps, split, List.filter_append, List.filter_singleton, moves]
  simp only [Bool.not_false, cond_true, List.getLast?_concat, Option.filter_some, bne_iff_ne, ne_eq,
    down, not_false_eq_true, if_true]

theorem isName_of_name? {path name : String} (named : name? path = some name) : IsName name := by
  obtain ⟨last, down⟩ := Option.filter_eq_some_iff.mp named
  obtain ⟨member, moves⟩ := List.mem_filter.mp (List.mem_of_getLast? last)
  refine ⟨not_mem_pieces member, ?_, bne_iff_ne.mp down⟩
  rwa [Bool.not_eq_true'] at moves

/-- The pieces of a directory, without the empty one behind a slash at its end. -/
def above (directory : String) : List String :=
  if directory.isEmpty || directory.toList.getLast? == some '/' then (pieces directory).dropLast
  else pieces directory

theorem pieces_join (directory : String) {name : String} (plain : '/' ∉ name.toList) :
    pieces (join directory name) = above directory ++ [name] := by
  have whole : name.toList.splitOn '/' = [name.toList] := List.splitOn_eq_singleton plain
  rw [join, above]
  split
  next ends =>
    rcases Bool.or_eq_true_iff.mp ends with empty | slash
    · rw [String.isEmpty_iff.mp empty, String.empty_append]
      simp only [pieces, whole, List.map_singleton, String.ofList_toList]
      rfl
    · obtain ⟨front, split⟩ := List.getLast?_eq_some_iff.mp (beq_iff_eq.mp slash)
      simp only [pieces, String.toList_append, split, List.append_assoc, List.singleton_append,
        List.splitOn_append_cons_self, whole, List.map_append, List.map_singleton, String.ofList_toList,
        List.splitOn_nil, List.dropLast_concat]
  next =>
    simp only [pieces, String.toList_append, List.append_assoc, List.singleton_append,
      List.splitOn_append_cons_self, whole, List.map_append, List.map_singleton, String.ofList_toList,
      show ("/" : String).toList = ['/'] from rfl]

theorem isAbsolute_join (directory : String) {name : String} (plain : '/' ∉ name.toList) :
    isAbsolute (join directory name) = isAbsolute directory := by
  have relative : isAbsolute name = false := by
    refine Bool.eq_false_iff.mpr fun absolute => plain ?_
    exact List.mem_of_mem_head? (beq_iff_eq.mp absolute)
  by_cases empty : directory = ""
  · subst empty
    rw [join, show ("" : String).isEmpty = true from rfl, Bool.true_or, if_pos rfl,
      String.empty_append, relative]
    rfl
  · obtain ⟨c, rest, split⟩ := List.exists_cons_of_ne_nil
      (fun nothing => empty (String.toList_eq_nil_iff.mp nothing))
    rw [join]
    split <;> simp only [isAbsolute, String.toList_append, split, List.cons_append, List.head?_cons]

/-- The stem of a name that does not begin with its last dot. -/
theorem stemOf_of_dot {name : String} {front ending : List Char}
    (split : name.toList = front ++ '.' :: ending) (plain : '.' ∉ ending) (begun : front ≠ []) :
    stemOf name = String.ofList front := by
  have others : ∀ c ∈ ending.reverse, c ≠ '.' := by
    rintro c member rfl
    exact plain (List.mem_reverse.mp member)
  have behind : name.toList.reverse.dropWhile (· != '.') = '.' :: front.reverse := by
    rw [split, List.reverse_append, List.reverse_cons, List.append_assoc, List.singleton_append,
      List.dropWhile_append_of_pos fun c member => bne_iff_ne.mpr (others c member)]
    rfl
  rw [stemOf, behind]
  split
  next nothing => cases nothing
  next alone => exact absurd (List.reverse_eq_nil_iff.mp (List.cons.inj alone).2) begun
  next reversed _ whole => rw [← (List.cons.inj whole).2, List.reverse_reverse]

/-- A stem is the name or what stands before a dot in it, and never nothing. -/
theorem stemOf_cases (name : String) :
    stemOf name = name ∨ ∃ front rest, name.toList = front ++ rest ∧ front ≠ [] ∧
      stemOf name = String.ofList front := by
  rw [stemOf]
  split
  next => exact Or.inl rfl
  next => exact Or.inl rfl
  next dot reversed more behind =>
    refine Or.inr ⟨reversed.reverse, dot :: (name.toList.reverse.takeWhile (· != '.')).reverse,
      ?_, fun nothing => more (List.reverse_eq_nil_iff.mp nothing), rfl⟩
    calc name.toList
        = (name.toList.reverse.takeWhile (· != '.') ++ dot :: reversed).reverse := by
          rw [← behind, List.takeWhile_append_dropWhile, List.reverse_reverse]
      _ = reversed.reverse ++ dot :: (name.toList.reverse.takeWhile (· != '.')).reverse := by
          rw [List.reverse_append, List.reverse_cons, List.append_assoc, List.singleton_append]

end Path

end Railroad
