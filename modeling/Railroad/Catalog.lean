/-!
# Catalogs

A catalog keeps values under names, in the order in which the names were first entered.
Entering a name again replaces its value and leaves it at its place.  Names may be of any type
with decidable equality.
-/

namespace Railroad

structure Catalog (κ α : Type) where
  entries : List (κ × α)
  deriving Repr

namespace Catalog

variable {κ α : Type}

def empty : Catalog κ α := ⟨[]⟩

instance : Inhabited (Catalog κ α) := ⟨empty⟩

def keys (catalog : Catalog κ α) : List κ := catalog.entries.map Prod.fst

def values (catalog : Catalog κ α) : List α := catalog.entries.map Prod.snd

def size (catalog : Catalog κ α) : Nat := catalog.entries.length

variable [DecidableEq κ]

/-- The value under a name. -/
def get? (catalog : Catalog κ α) (name : κ) : Option α := catalog.entries.lookup name

def contains (catalog : Catalog κ α) (name : κ) : Bool := (catalog.get? name).isSome

def enter (name : κ) (value : α) : List (κ × α) → List (κ × α)
  | [] => [(name, value)]
  | (other, old) :: rest =>
      if other = name then (name, value) :: rest else (other, old) :: enter name value rest

/-- Keeps `value` under `name`, in the place of an earlier value or at the end. -/
def put (catalog : Catalog κ α) (name : κ) (value : α) : Catalog κ α :=
  ⟨enter name value catalog.entries⟩

theorem lookup_enter (entries : List (κ × α)) (name wanted : κ) (value : α) :
    (enter name value entries).lookup wanted =
      if wanted = name then some value else entries.lookup wanted := by
  induction entries with
  | nil =>
      by_cases same : wanted = name
      · simp [enter, same]
      · simp [enter, List.lookup_cons, same, beq_eq_false_iff_ne.mpr same]
  | cons entry rest ih =>
      obtain ⟨other, old⟩ := entry
      by_cases replaced : other = name
      · subst replaced
        by_cases same : wanted = other
        · simp [enter, same]
        · simp [enter, List.lookup_cons, same, beq_eq_false_iff_ne.mpr same]
      · by_cases same : wanted = other
        · subst same
          simp [enter, replaced]
        · simp [enter, List.lookup_cons, replaced, beq_eq_false_iff_ne.mpr same, ih]

theorem get?_put (catalog : Catalog κ α) (name wanted : κ) (value : α) :
    (catalog.put name value).get? wanted =
      if wanted = name then some value else catalog.get? wanted :=
  lookup_enter catalog.entries name wanted value

theorem keys_enter (entries : List (κ × α)) (name : κ) (value : α) :
    (enter name value entries).map Prod.fst =
      if name ∈ entries.map Prod.fst then entries.map Prod.fst
      else entries.map Prod.fst ++ [name] := by
  induction entries with
  | nil => rfl
  | cons entry rest ih =>
      obtain ⟨other, old⟩ := entry
      by_cases replaced : other = name
      · simp [enter, replaced]
      · simp only [enter, replaced, if_false, List.map_cons, ih, List.mem_cons,
          Ne.symm replaced, false_or]
        split <;> simp

theorem keys_put (catalog : Catalog κ α) (name : κ) (value : α) :
    (catalog.put name value).keys =
      if name ∈ catalog.keys then catalog.keys else catalog.keys ++ [name] :=
  keys_enter catalog.entries name value

theorem mem_keys {catalog : Catalog κ α} {name : κ} :
    name ∈ catalog.keys ↔ (catalog.get? name).isSome = true := by
  rw [keys, get?, List.mem_map, List.lookup_isSome_iff]
  refine exists_congr fun entry => and_congr_right fun _ => ?_
  rw [beq_iff_eq, eq_comm]

end Catalog

end Railroad
