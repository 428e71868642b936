namespace Staging

/-- A finite map that keeps its keys in the order in which they were first entered. -/
abbrev Table (α β : Type) := List (α × β)

def Table.get? {α β : Type} [DecidableEq α] : Table α β → α → Option β
  | [], _ => none
  | (k, v) :: rest, key => if k = key then some v else Table.get? rest key

/-- Changes the entry of a key where it stands, or adds one at the end. -/
def Table.update {α β : Type} [DecidableEq α] (key : α) (f : Option β → β) :
    Table α β → Table α β
  | [] => [(key, f none)]
  | (k, v) :: rest =>
    if k = key then (k, f (some v)) :: rest else (k, v) :: Table.update key f rest

def Table.put {α β : Type} [DecidableEq α] (t : Table α β) (key : α) (value : β) : Table α β :=
  t.update key fun _ => value

/-- Adds an element to the list of a key. -/
def Table.addTo {α β : Type} [DecidableEq α] (t : Table α (List β)) (key : α) (b : β) :
    Table α (List β) :=
  t.update key fun old => old.getD [] ++ [b]

/-- Adds an element to the list of a key unless it is there already. -/
def Table.addNew {α β : Type} [DecidableEq α] [DecidableEq β] (t : Table α (List β)) (key : α)
    (b : β) : Table α (List β) :=
  t.update key fun old => if b ∈ old.getD [] then old.getD [] else old.getD [] ++ [b]

theorem Table.get?_update_self {α β : Type} [DecidableEq α] (t : Table α β) (key : α)
    (f : Option β → β) : (t.update key f).get? key = some (f (t.get? key)) := by
  induction t with
  | nil => simp [update, get?]
  | cons p rest ih =>
    obtain ⟨k, v⟩ := p
    by_cases h : k = key <;> simp [update, get?, h, ih]

theorem Table.get?_update_of_ne {α β : Type} [DecidableEq α] (t : Table α β) {key other : α}
    (h : key ≠ other) (f : Option β → β) : (t.update key f).get? other = t.get? other := by
  induction t with
  | nil => simp [update, get?, h]
  | cons p rest ih =>
    obtain ⟨k, v⟩ := p
    by_cases hk : k = key
    · subst hk
      simp [update, get?, h]
    · by_cases ho : k = other
      · subst ho
        simp [update, get?, hk]
      · simp [update, get?, hk, ho, ih]

end Staging
