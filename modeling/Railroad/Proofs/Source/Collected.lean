import Railroad.Source.Diagnostic

/-!
# What a collector keeps

A collector keeps the diagnostics that it is offered up to its limit and drops all others.  So
what it has recorded are the first ones, in the order in which they came, and a source is rejected
if and only if one of these is an error.
-/

namespace Railroad.Collector

variable {collector : Collector}

theorem recorded_lt (room : collector.isFull = false) :
    collector.recorded.length < collector.limit :=
  Nat.lt_of_not_le (of_decide_eq_false room)

theorem emit_of_room (room : collector.isFull = false) (diagnostic : Diagnostic) :
    collector.emit diagnostic =
      { collector with recorded := collector.recorded ++ [diagnostic] } :=
  if_neg (Bool.eq_false_iff.mp room)

theorem recorded_prefix_emit (collector : Collector) (diagnostic : Diagnostic) :
    collector.recorded <+: (collector.emit diagnostic).recorded := by
  unfold emit
  split
  · exact List.prefix_rfl
  · exact List.prefix_append ..

theorem mem_emit (collector : Collector) (room : collector.isFull = false)
    (diagnostic : Diagnostic) : diagnostic ∈ (collector.emit diagnostic).recorded := by
  rw [emit_of_room room]
  exact List.mem_append_right _ (List.mem_singleton_self diagnostic)

/-- A collector within its limit stays within it. -/
theorem emit_within (within : collector.recorded.length ≤ collector.limit)
    (diagnostic : Diagnostic) : collector.emit diagnostic =
      ⟨(collector.recorded ++ [diagnostic]).take collector.limit, collector.limit⟩ := by
  cases full : collector.isFull with
  | true =>
      have whole : collector.recorded.length = collector.limit :=
        Nat.le_antisymm within (of_decide_eq_true full)
      rw [emit, if_pos full, ← whole, List.take_left, whole]
  | false =>
      have fits : (collector.recorded ++ [diagnostic]).length ≤ collector.limit := by
        rw [List.length_append, List.length_singleton]
        exact recorded_lt full
      rw [emit_of_room full, List.take_of_length_le fits]

/-- The answer says whether there is room behind the diagnostic. -/
theorem offer_eq (collector : Collector) (diagnostic : Diagnostic) :
    collector.offer diagnostic =
      (!(collector.emit diagnostic).isFull, collector.emit diagnostic) := by
  cases full : collector.isFull with
  | false => rw [offer, if_neg (Bool.eq_false_iff.mp full)]
  | true =>
      have same : collector.emit diagnostic = collector := by rw [emit, if_pos full]
      rw [offer, if_pos full, same, full]
      rfl

theorem finish_ne_ok {diagnostic : Diagnostic} (recorded : diagnostic ∈ collector.recorded)
    (isError : diagnostic.severity = .error) : collector.finish ≠ .ok () := by
  have found : (collector.recorded.any fun diagnostic => diagnostic.severity == .error) = true :=
    List.any_eq_true.mpr ⟨diagnostic, recorded, beq_iff_eq.mpr isError⟩
  rw [finish, if_pos found]
  intro same
  cases same

theorem finish_eq_error (failed : collector.finish ≠ .ok ()) :
    collector.finish = .error ⟨collector.recorded⟩ := by
  unfold finish at failed ⊢
  split
  next => rfl
  next clean => exact absurd (if_neg clean) failed

theorem finish_eq_ok_iff : collector.finish = .ok () ↔
    ∀ diagnostic ∈ collector.recorded, diagnostic.severity ≠ .error := by
  constructor
  · intro passed diagnostic recorded isError
    exact finish_ne_ok recorded isError passed
  · intro clean
    have none : ¬(collector.recorded.any fun diagnostic => diagnostic.severity == .error) = true := by
      rw [List.any_eq_true]
      rintro ⟨diagnostic, recorded, isError⟩
      exact clean diagnostic recorded (beq_iff_eq.mp isError)
    rw [finish, if_neg none]

theorem offerAll_cons (collector : Collector) (diagnostic : Diagnostic)
    (rest : List Diagnostic) : collector.offerAll (diagnostic :: rest) =
      ((!(collector.emit diagnostic).isFull) :: ((collector.emit diagnostic).offerAll rest).1,
        ((collector.emit diagnostic).offerAll rest).2) := by
  rw [offerAll, offer_eq]

theorem offerAll_append (collector : Collector) (front back : List Diagnostic) :
    collector.offerAll (front ++ back) =
      ((collector.offerAll front).1 ++ ((collector.offerAll front).2.offerAll back).1,
        ((collector.offerAll front).2.offerAll back).2) := by
  induction front generalizing collector with
  | nil => rfl
  | cons diagnostic rest ih => rw [List.cons_append, offerAll_cons, ih, offerAll_cons]; rfl

theorem offerAll_answers_length (collector : Collector) (diagnostics : List Diagnostic) :
    (collector.offerAll diagnostics).1.length = diagnostics.length := by
  induction diagnostics generalizing collector with
  | nil => rfl
  | cons diagnostic rest ih => rw [offerAll_cons, List.length_cons, ih, List.length_cons]

/-- What is cut off at the limit already makes no difference behind it. -/
theorem take_take_append (limit : Nat) (front back : List Diagnostic) :
    (front.take limit ++ back).take limit = (front ++ back).take limit := by
  have left : limit - min limit front.length = limit - front.length := by omega
  rw [List.take_append, List.take_take, Nat.min_self, List.length_take, left, List.take_append]

/-- Everything that is recorded in the end came within the limit. -/
theorem offerAll_within (collector : Collector)
    (within : collector.recorded.length ≤ collector.limit) (diagnostics : List Diagnostic) :
    (collector.offerAll diagnostics).2 =
      ⟨(collector.recorded ++ diagnostics).take collector.limit, collector.limit⟩ := by
  induction diagnostics generalizing collector with
  | nil => rw [List.append_nil, List.take_of_length_le within]; rfl
  | cons diagnostic rest ih =>
      have next : (collector.emit diagnostic).recorded.length ≤
          (collector.emit diagnostic).limit := by
        rw [emit_within within]
        exact List.length_take_le ..
      rw [List.append_cons collector.recorded, offerAll_cons, ih _ next, emit_within within]
      simp only [take_take_append]

section Runs

variable (limit : Nat) (diagnostics : List Diagnostic)

theorem offerAll_recorded :
    ((withLimit limit).offerAll diagnostics).2 = ⟨diagnostics.take limit, limit⟩ :=
  (withLimit limit).offerAll_within (Nat.zero_le limit) diagnostics

/-- The collector answers yes while fewer diagnostics than its limit are recorded. -/
theorem offerAll_answer (front back : List Diagnostic) (diagnostic : Diagnostic) :
    ((withLimit limit).offerAll (front ++ diagnostic :: back)).1[front.length]? =
      some (decide (((withLimit limit).offerAll (front ++ [diagnostic])).2.recorded.length < limit)) := by
  have place : ((withLimit limit).offerAll front).1.length = front.length :=
    offerAll_answers_length ..
  have after : ((withLimit limit).offerAll (front ++ [diagnostic])).2 =
      ((withLimit limit).offerAll front).2.emit diagnostic := by
    rw [offerAll_append, offerAll_cons]
    rfl
  rw [after, offerAll_append, offerAll_cons, List.getElem?_append_right (Nat.le_of_eq place), place,
    Nat.sub_self, List.getElem?_cons_zero, isFull, ← decide_not, ← after, offerAll_recorded]
  simp only [Nat.not_le]

/-- A full collector stays full. -/
theorem offerAll_isFull (front back : List Diagnostic)
    (full : ((withLimit limit).offerAll front).2.isFull = true) :
    ((withLimit limit).offerAll (front ++ back)).2.isFull = true := by
  rw [offerAll_recorded, isFull, decide_eq_true_iff] at full ⊢
  simp only [List.length_take, List.length_append] at full ⊢
  omega

/-- What comes while there is room is recorded, and stays recorded. -/
theorem mem_offerAll (front back : List Diagnostic) (diagnostic : Diagnostic)
    (vacant : ((withLimit limit).offerAll front).2.isFull = false) :
    diagnostic ∈ ((withLimit limit).offerAll (front ++ diagnostic :: back)).2.recorded := by
  rw [offerAll_recorded, isFull, decide_eq_false_iff_not] at vacant
  simp only [List.length_take] at vacant
  have fits : (front ++ [diagnostic]).length ≤ limit := by
    rw [List.length_append, List.length_singleton]
    omega
  rw [offerAll_recorded, List.append_cons, List.take_append, List.take_of_length_le fits]
  exact List.mem_append_left _ (List.mem_append_right _ (List.mem_singleton_self diagnostic))

/-- A caller that stops at the first no has nothing dropped. -/
theorem offerAll_heeded (room : 0 < limit)
    (heeded : ∀ answer ∈ ((withLimit limit).offerAll diagnostics).1.dropLast, answer = true) :
    ((withLimit limit).offerAll diagnostics).2.recorded = diagnostics := by
  rw [offerAll_recorded]
  refine List.take_of_length_le (Nat.le_of_not_lt fun more => ?_)
  -- the collector is full with a diagnostic that is not the last one
  obtain ⟨size, rfl⟩ : ∃ size, limit = size + 1 := ⟨limit - 1, by omega⟩
  have inside : size < diagnostics.length := by omega
  have split : diagnostics = diagnostics.take size ++ diagnostics[size] :: diagnostics.drop (size + 1) := by
    rw [List.getElem_cons_drop, List.take_append_drop]
  have place : (diagnostics.take size).length = size := List.length_take_of_le (Nat.le_of_lt inside)
  have answer := offerAll_answer (size + 1) (diagnostics.take size) (diagnostics.drop (size + 1))
    diagnostics[size]
  rw [← split, place, offerAll_recorded] at answer
  simp only [List.length_take, List.length_append, place, List.length_singleton, Nat.min_self,
    Nat.lt_irrefl, decide_false] at answer
  have early : ((withLimit (size + 1)).offerAll diagnostics).1.dropLast[size]? = some false := by
    rw [List.getElem?_dropLast, offerAll_answers_length, if_pos (by omega), answer]
  exact Bool.noConfusion (heeded false (List.mem_of_getElem? early))

end Runs

/--
A collector records the first diagnostics that it is offered, up to its limit and in their order;
it answers yes while fewer than the limit are recorded, and once it is full it stays full.  It
rejects, with all that it has recorded, if and only if an error is among these: whenever an error
came while there was room for it, and for a caller that stops at the first no, whenever an error
came at all.
-/
theorem offerAll_collects (limit : Nat) (room : 0 < limit) (diagnostics : List Diagnostic) :
    let run := (withLimit limit).offerAll diagnostics
    run.2.recorded = diagnostics.take limit ∧
      (∀ front diagnostic back, diagnostics = front ++ diagnostic :: back →
        run.1[front.length]? = some (decide
          (((withLimit limit).offerAll (front ++ [diagnostic])).2.recorded.length < limit))) ∧
      (∀ front back, diagnostics = front ++ back →
        ((withLimit limit).offerAll front).2.isFull = true → run.2.isFull = true) ∧
      (run.2.finish ≠ .ok () → run.2.finish = .error ⟨diagnostics.take limit⟩) ∧
      (run.2.finish = .ok () ↔
        ∀ diagnostic ∈ diagnostics.take limit, diagnostic.severity ≠ .error) ∧
      (∀ front diagnostic back, diagnostics = front ++ diagnostic :: back →
        diagnostic.severity = .error → ((withLimit limit).offerAll front).2.isFull = false →
          run.2.finish ≠ .ok ()) ∧
      ((∀ answer ∈ run.1.dropLast, answer = true) →
        (run.2.finish = .ok () ↔ ∀ diagnostic ∈ diagnostics, diagnostic.severity ≠ .error)) := by
  intro run
  have recorded : run.2.recorded = diagnostics.take limit :=
    congrArg Collector.recorded (offerAll_recorded limit diagnostics)
  refine ⟨recorded, ?_, ?_, ?_, ?_, ?_, ?_⟩
  · rintro front diagnostic back rfl
    exact offerAll_answer limit front back diagnostic
  · rintro front back rfl full
    exact offerAll_isFull limit front back full
  · intro failed
    rw [← recorded]
    exact finish_eq_error failed
  · rw [finish_eq_ok_iff, recorded]
  · rintro front diagnostic back rfl isError vacant
    exact finish_ne_ok (mem_offerAll limit front back diagnostic vacant) isError
  · intro heeded
    rw [finish_eq_ok_iff, offerAll_heeded limit diagnostics room heeded]

/-- An error that comes to a full collector is dropped, and nothing is rejected. -/
theorem error_dropped :
    let warning : Diagnostic := ⟨.warning, none, "w", [], none⟩
    let error : Diagnostic := ⟨.error, none, "e", [], none⟩
    error.severity = .error ∧
      ((withLimit 1).offerAll [warning, error]).2.finish = .ok () := ⟨rfl, rfl⟩

/-- The second of three diagnostics is an error and fills the collector. -/
theorem offerAll_collects_filled :
    let warning : Diagnostic := ⟨.warning, none, "w", [], none⟩
    let error : Diagnostic := ⟨.error, none, "e", [], none⟩
    let run := (withLimit 2).offerAll [warning, error, warning]
    run.1 = [true, false, false] ∧ run.2.recorded = [warning, error] ∧ run.2.isFull = true ∧
      run.2.finish = .error ⟨[warning, error]⟩ := by
  intro warning error run
  obtain ⟨recorded, -, full, verdict, -, failed, -⟩ :=
    offerAll_collects 2 (by decide) [warning, error, warning]
  exact ⟨rfl, recorded, full [warning, error] [warning] rfl rfl,
    verdict (failed [warning] error [warning] rfl rfl rfl)⟩

end Railroad.Collector
