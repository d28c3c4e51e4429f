import Railroad.Proofs.Token.Slices

/-!
# Faults of a scan

A source that cannot be scanned is rejected with the faults that were found in it, from left to
right and without overlaps.  A fault that leaves nothing to go on with is the last one, and a stray
character is met only where no token begins.
-/

namespace Railroad

open Scan

/-- Some first characters of the text are a token. -/
def BeginsToken (text : List Char) : Prop :=
  ∃ front behind token span, front ++ behind = text ∧
    tokenize (String.ofList front) = .ok [⟨token, span⟩]

namespace Scan

/-- The codes of faults of a scan. -/
def faultCodes : List Code := [.openString, .strayCharacter, .openAction, .openSet, .openComment]

theorem mark?_none {c : Char} {next : Option Char} (missed : mark? c next = none) :
    mark? c none = none := by
  revert missed
  fun_cases mark? c next
  all_goals intro missed
  all_goals first | (cases missed; done) | simp [mark?, *]

/-- A fault is seen over characters of the text and has a code of its own. -/
theorem scan_fault {c : Char} {rest : List Char} {code : Code} {more : Nat}
    (failed : scan c rest = .fault code more) :
    code ∈ faultCodes ∧ (more ≤ rest.length ∨ code = .strayCharacter) := by
  cases faultAt_of_scan failed with
  | openComment inside => exact ⟨by decide, Or.inl inside⟩
  | openString | openSet => exact ⟨by decide, Or.inl (reach_length_le ..)⟩
  | openAction => exact ⟨by decide, Or.inl (Nat.zero_le _)⟩
  | slash | stray => exact ⟨by decide, Or.inr rfl⟩

/-- Where a character is stray, it is stray in front of less as well. -/
theorem scan_stray {c : Char} {front behind : List Char} {more : Nat}
    (failed : scan c (front ++ behind) = .fault .strayCharacter more) :
    ∃ less, scan c front = .fault .strayCharacter less := by
  refine ⟨0, ?_⟩
  have next {d : Char} (other : (front ++ behind).head? ≠ some d) (later : List Char) :
      front ≠ d :: later := by
    rintro rfl
    exact other rfl
  cases faultAt_of_scan failed with
  | slash noLine noBlock =>
      refine scanComment.eq_4 front (fun later same => ?_) (fun later same => ?_) fun later same => ?_
      · exact next noLine _ same
      · exact next noBlock _ same
      · exact next noBlock _ same
  | stray unquoted noMark noLetter noDigit noFeed noBlank =>
      have missed : mark? c front.head? = none := by
        cases front with
        | nil => exact mark?_none noMark
        | cons d rest => exact noMark
      simp only [List.mem_cons, List.not_mem_nil, or_false, not_or] at unquoted
      simp only [scan, unquoted, missed, if_false, if_neg noLetter, if_neg noDigit, if_neg noFeed,
        if_neg noBlank]

end Scan

/-- A text that begins with a fault is not accepted. -/
theorem lexemesFrom_ne_ok {offset : Nat} {faults : Collector} {c : Char} {rest : List Char}
    {code : Code} {more : Nat} (room : faults.isFull = false)
    (failed : scan c rest = .fault code more) :
    (lexemesFrom offset faults (c :: rest)).2.finish ≠ .ok () := by
  generalize whole : c :: rest = text
  fun_cases lexemesFrom offset faults text with
  | case1 => cases whole
  | case2 d more token length scanned =>
      cases whole
      exact absurd (failed.symm.trans scanned) Result.noConfusion
  | case3 =>
      cases whole
      exact Collector.finish_ne_ok (faults.mem_emit room _) rfl
  | case4 =>
      cases whole
      exact Collector.finish_ne_ok ((lexemesFrom_recorded ..).subset (faults.mem_emit room _)) rfl

/-- No token begins with a stray character. -/
theorem not_beginsToken {c : Char} {rest : List Char} {more : Nat}
    (failed : scan c rest = .fault .strayCharacter more) : ¬BeginsToken (c :: rest) := by
  rintro ⟨front, behind, token, span, split, scanned⟩
  obtain ⟨clean, read⟩ := clean_of_tokenize scanned
  rw [String.toList_ofList] at clean read
  cases front with
  | nil =>
      rw [lexemesFrom] at read
      cases read
  | cons d others =>
      obtain ⟨rfl, rfl⟩ := List.cons.inj split
      obtain ⟨less, stray⟩ := scan_stray failed
      exact lexemesFrom_ne_ok rfl stray clean

/-- Faults with their stretches of the source, none of which begins before `start`. -/
inductive FaultsFrom (source : List Char) : Nat → List (Code × Span) → Prop where
  | nil {start : Nat} : FaultsFrom source start []
  | cons {start : Nat} {code : Code} {span : Span} {later : List (Code × Span)}
      (known : code ∈ faultCodes) (inOrder : start ≤ span.start) (nonempty : span.start < span.stop)
      (inside : span.stop ≤ byteLength source)
      (stray : code = .strayCharacter → ∃ before rest, source = before ++ rest ∧
        byteLength before = span.start ∧ ¬BeginsToken rest)
      (last : endsScan code = true → later = []) (rest : FaultsFrom source span.stop later) :
      FaultsFrom source start ((code, span) :: later)

theorem FaultsFrom.earlier {source : List Char} {start earlier : Nat} {faults : List (Code × Span)}
    (found : FaultsFrom source start faults) (le : earlier ≤ start) :
    FaultsFrom source earlier faults := by
  cases found with
  | nil => exact .nil
  | cons known inOrder nonempty inside stray last rest =>
      exact .cons known (Nat.le_trans le inOrder) nonempty inside stray last rest

/-- The diagnostics of faults. -/
def diagnosticsOf (faults : List (Code × Span)) : List Diagnostic :=
  faults.map fun fault => faultDiagnostic fault.1 fault.2

theorem byteLength_take_le (count : Nat) (text : List Char) :
    byteLength (text.take count) ≤ byteLength text := by
  have whole := byteLength_append (text.take count) (text.drop count)
  rw [List.take_append_drop] at whole
  exact whole ▸ Nat.le_add_right ..

/-- A fault covers something, and what is passed over goes beyond it. -/
theorem fault_stretch (offset : Nat) (c : Char) (rest : List Char) (code : Code) (more : Nat) :
    offset < (if code = .strayCharacter then offset + 1
        else offset + byteLength (c :: rest.take more)) ∧
      (if code = .strayCharacter then offset + 1
        else offset + byteLength (c :: rest.take more)) ≤
          offset + byteLength (c :: rest.take (skipped code more)) := by
  have positive := c.utf8Size_pos
  by_cases stray : code = .strayCharacter
  · simp only [if_pos stray, byteLength]
    omega
  · have longer : byteLength (rest.take more) ≤ byteLength (rest.take (skipped code more)) := by
      have passed : skipped code more = more + 1 := by
        unfold skipped
        split
        · exact absurd rfl stray
        · rfl
      have shorter := byteLength_take_le more (rest.take (more + 1))
      rwa [List.take_take, Nat.min_eq_left (Nat.le_succ more), ← passed] at shorter
    simp only [if_neg stray, byteLength]
    omega

/-- A fault at the beginning of a text, and the faults behind what is passed over. -/
theorem FaultsFrom.met {source before rest : List Char} {c : Char} {code : Code} {more : Nat}
    {later : List (Code × Span)} (split : source = before ++ c :: rest)
    (failed : scan c rest = .fault code more) (last : endsScan code = true → later = [])
    (behind : FaultsFrom source
      (byteLength before + byteLength (c :: rest.take (skipped code more))) later) :
    FaultsFrom source (byteLength before)
      ((code, .between (byteLength before)
        (if code = .strayCharacter then byteLength before + 1
          else byteLength before + byteLength (c :: rest.take more))) :: later) := by
  obtain ⟨covers, short⟩ := fault_stretch (byteLength before) c rest code more
  have whole : byteLength before + byteLength (c :: rest.take (skipped code more)) ≤
      byteLength source := by
    rw [split, byteLength_append]
    exact Nat.add_le_add_left (Nat.add_le_add_left (byteLength_take_le ..) _) _
  have stop := Span.between_stop (Nat.le_of_lt covers)
  refine .cons (scan_fault failed).1 (Nat.le_refl _) ?_ ?_ ?_ last ?_
  · rw [stop]
    exact covers
  · rw [stop]
    exact Nat.le_trans short whole
  · rintro rfl
    exact ⟨before, c :: rest, split, rfl, not_beginsToken failed⟩
  · rw [stop]
    exact behind.earlier short

/-- The scan of a text records its faults, one after another, behind those found before. -/
theorem lexemesFrom_faults {source text : List Char} {offset : Nat} {faults : Collector}
    (stands : ∃ before, source = before ++ text ∧ byteLength before = offset)
    (room : faults.isFull = false) :
    ∃ found, FaultsFrom source offset found ∧
      (lexemesFrom offset faults text).2.recorded = faults.recorded ++ diagnosticsOf found ∧
      (lexemesFrom offset faults text).2.recorded.length ≤ faults.limit := by
  fun_induction lexemesFrom offset faults text with
  | case1 offset faults =>
      exact ⟨[], .nil, (List.append_nil _).symm, Nat.le_of_lt (Collector.recorded_lt room)⟩
  | case2 offset faults c rest token more scanned stop tail ih =>
      obtain ⟨before, split, rfl⟩ := stands
      have split' : source = before ++ c :: rest.take more ++ rest.drop more := by
        rw [split, List.append_assoc, List.cons_append, List.take_append_drop]
      obtain ⟨found, inOrder, recorded, short⟩ :=
        ih ⟨_, split', byteLength_append ..⟩ room
      exact ⟨found, inOrder.earlier (Nat.le_add_right ..), recorded, short⟩
  | case3 offset faults c rest code more scanned stop found =>
      obtain ⟨before, split, rfl⟩ := stands
      refine ⟨_, .met split scanned (fun _ => rfl) .nil, ?_, ?_⟩
      · exact congrArg Collector.recorded (Collector.emit_of_room room _)
      · have short := Collector.recorded_lt room
        simp only [found, Collector.emit_of_room room, List.length_append, List.length_singleton]
        exact short
  | case4 offset faults c rest code more scanned stop found goesOn passed ih =>
      obtain ⟨before, split, rfl⟩ := stands
      simp only [Bool.or_eq_true, not_or, Bool.not_eq_true] at goesOn
      have split' : source = before ++ c :: rest.take passed ++ rest.drop passed := by
        rw [split, List.append_assoc, List.cons_append, List.take_append_drop]
      obtain ⟨later, inOrder, recorded, short⟩ := ih ⟨_, split', byteLength_append ..⟩ goesOn.2
      refine ⟨_, .met split scanned (fun ends => ?_) inOrder, ?_, ?_⟩
      · exact absurd (goesOn.1.symm.trans ends) Bool.false_ne_true
      · rw [recorded]
        simp only [found, Collector.emit_of_room room]
        rw [List.append_assoc]
        rfl
      · have limit : found.limit = faults.limit := by
          simp only [found, Collector.emit_of_room room]
        rwa [limit] at short

namespace FaultsFrom

variable {source : List Char} {start : Nat} {faults : List (Code × Span)}

theorem start_le (found : FaultsFrom source start faults) :
    ∀ fault ∈ faults, start ≤ fault.2.start := by
  induction found with
  | nil => exact fun fault member => absurd member List.not_mem_nil
  | cons _ inOrder nonempty _ _ _ _ ih =>
      intro fault member
      rcases List.mem_cons.mp member with rfl | later
      · exact inOrder
      · exact Nat.le_trans inOrder (Nat.le_trans (Nat.le_of_lt nonempty) (ih fault later))

theorem pairwise (found : FaultsFrom source start faults) :
    faults.Pairwise fun first second => first.2.stop ≤ second.2.start := by
  induction found with
  | nil => exact .nil
  | cons _ _ _ _ _ _ rest ih => exact .cons rest.start_le ih

theorem ends_last (found : FaultsFrom source start faults) :
    ∀ fault ∈ faults.dropLast, endsScan fault.1 = false := by
  induction found with
  | nil => exact fun fault member => absurd member List.not_mem_nil
  | @cons start code span later _ _ _ _ _ last _ ih =>
      intro fault member
      cases later with
      | nil => exact absurd member List.not_mem_nil
      | cons next others =>
          rcases List.mem_cons.mp member with rfl | inside
          · exact Bool.eq_false_iff.mpr fun ends => List.cons_ne_nil _ _ (last ends)
          · exact ih fault inside

theorem fits (found : FaultsFrom source start faults) : ∀ fault ∈ faults, fault.1 ∈ faultCodes ∧
    fault.2.start < fault.2.stop ∧ fault.2.stop ≤ byteLength source ∧
      (fault.1 = .strayCharacter → ∃ before rest, source = before ++ rest ∧
        byteLength before = fault.2.start ∧ ¬BeginsToken rest) := by
  induction found with
  | nil => exact fun fault member => absurd member List.not_mem_nil
  | cons known _ nonempty inside stray _ _ ih =>
      exact List.forall_mem_cons.mpr ⟨⟨known, nonempty, inside, stray⟩, ih⟩

end FaultsFrom

/--
A rejected source has at least one fault, and no more than are collected.  Each is an error with
one label; the labels cover stretches of the source from left to right without overlaps.  Only the
last fault leaves something open that swallows the rest of the source, and where a character is
stray, at a place between two characters, no token begins.
-/
theorem tokenize_faults {source : String} {rejection : Rejection}
    (rejected : tokenize source = .error rejection) : ∃ faults : List (Code × Span),
      rejection.diagnostics.map (fun diagnostic => (diagnostic.severity, diagnostic.code,
          diagnostic.labels.map fun label => (label.kind, label.span))) =
        faults.map (fun fault => (.error, some fault.1, [(.primary, fault.2)])) ∧
      1 ≤ faults.length ∧ faults.length ≤ Collector.defaultLimit ∧
      (∀ fault ∈ faults,
        fault.1 ∈ [.openString, .strayCharacter, .openAction, .openSet, .openComment] ∧
          fault.2.start < fault.2.stop ∧ fault.2.stop ≤ source.utf8ByteSize ∧
          (fault.1 = .strayCharacter → ∃ before rest, source.toList = before ++ rest ∧
            byteLength before = fault.2.start ∧ ¬BeginsToken rest)) ∧
      (faults.Pairwise fun first second => first.2.stop ≤ second.2.start) ∧
      ∀ fault ∈ faults.dropLast, fault.1 ∉ [.openAction, .openSet, .openComment] := by
  obtain ⟨faults, inOrder, recorded, short⟩ :
      ∃ found, FaultsFrom source.toList 0 found ∧
        (lexemesFrom 0 (.withLimit Collector.defaultLimit) source.toList).2.recorded =
          [] ++ diagnosticsOf found ∧
        (lexemesFrom 0 (.withLimit Collector.defaultLimit) source.toList).2.recorded.length ≤
          Collector.defaultLimit :=
    lexemesFrom_faults ⟨[], (List.nil_append _).symm, rfl⟩ rfl
  unfold tokenize Collector.finish at rejected
  dsimp only at rejected
  rw [recorded, List.nil_append] at rejected
  rw [recorded, List.nil_append, diagnosticsOf, List.length_map] at short
  by_cases clean : faults = []
  · subst clean
    cases rejected
  · have failed : (diagnosticsOf faults).any (fun diagnostic => diagnostic.severity == .error) := by
      obtain ⟨fault, later, rfl⟩ := List.exists_cons_of_ne_nil clean
      rfl
    rw [if_pos failed] at rejected
    cases rejected
    refine ⟨faults, ?_, List.length_pos_iff.mpr clean, short, ?_, inOrder.pairwise, ?_⟩
    · rw [diagnosticsOf, List.map_map]
      rfl
    · rw [← byteLength_toList]
      exact inOrder.fits
    · intro fault member swallows
      have goesOn := inOrder.ends_last fault member
      obtain ⟨code, span⟩ := fault
      simp only [List.mem_cons, List.not_mem_nil, or_false] at swallows
      rcases swallows with rfl | rfl | rfl <;> cases goesOn

theorem tokenize_faults_multibyte : ∃ rejection,
    tokenize "é€ß 'ü\n/** ☃ */ \\ [ä\\]" = .error rejection ∧
      ∃ faults : List (Code × Span),
        rejection.diagnostics.map (fun diagnostic => (diagnostic.severity, diagnostic.code,
            diagnostic.labels.map fun label => (label.kind, label.span))) =
          faults.map (fun fault => (.error, some fault.1, [(.primary, fault.2)])) ∧
        1 ≤ faults.length ∧ faults.length ≤ Collector.defaultLimit ∧
        (∀ fault ∈ faults,
          fault.1 ∈ [.openString, .strayCharacter, .openAction, .openSet, .openComment] ∧
            fault.2.start < fault.2.stop ∧
            fault.2.stop ≤ ("é€ß 'ü\n/** ☃ */ \\ [ä\\]").utf8ByteSize ∧
            (fault.1 = .strayCharacter → ∃ before rest,
              ("é€ß 'ü\n/** ☃ */ \\ [ä\\]").toList = before ++ rest ∧
                byteLength before = fault.2.start ∧ ¬BeginsToken rest)) ∧
        (faults.Pairwise fun first second => first.2.stop ≤ second.2.start) ∧
        ∀ fault ∈ faults.dropLast, fault.1 ∉ [.openAction, .openSet, .openComment] := by
  have rejected : (tokenize "é€ß 'ü\n/** ☃ */ \\ [ä\\]").isOk = false := by
    decide +kernel
  cases scanned : tokenize "é€ß 'ü\n/** ☃ */ \\ [ä\\]" with
  | error rejection => exact ⟨rejection, rfl, tokenize_faults scanned⟩
  | ok lexemes => rw [scanned] at rejected; cases rejected

end Railroad
