set_option autoImplicit false

namespace ParallelLint

structure Declared (α : Type) where
  entries : List (String × α)
  distinct : (entries.map Prod.fst).Nodup

namespace Declared
variable {α : Type}

def put (name : String) (value : α) : List (String × α) → List (String × α)
  | [] => [(name, value)]
  | (k, v) :: rest => if k = name then (k, value) :: rest else (k, v) :: put name value rest

theorem keys_put (name : String) (value : α) (entries : List (String × α)) :
    (put name value entries).map Prod.fst =
      if name ∈ entries.map Prod.fst then entries.map Prod.fst
      else entries.map Prod.fst ++ [name] := by
  induction entries with
  | nil => simp [put]
  | cons e rest ih =>
    obtain ⟨k, v⟩ := e
    by_cases h : k = name
    · simp [put, h]
    · have h' : name ≠ k := Ne.symm h
      simp only [put, h, ite_false, List.map_cons, ih, List.mem_cons, h', false_or]
      split <;> rfl

def empty : Declared α := ⟨[], List.nodup_nil⟩

def insert (m : Declared α) (name : String) (value : α) : Declared α where
  entries := put name value m.entries
  distinct := by
    rw [keys_put]
    split
    · exact m.distinct
    · rename_i h
      exact List.nodup_append.2 ⟨m.distinct, by simp, by
        intro a ha b hb
        rw [List.mem_singleton] at hb
        exact fun hab => h (hb ▸ hab ▸ ha)⟩

def find? (m : Declared α) (name : String) : Option α := m.entries.lookup name

/-- Every entry of the second, in its order, is declared on top of the first. -/
def overlay (m other : Declared α) : Declared α :=
  other.entries.foldl (fun merged e => merged.insert e.1 e.2) m

def ofList (entries : List (String × α)) : Declared α :=
  entries.foldl (fun m e => m.insert e.1 e.2) empty

instance : Inhabited (Declared α) := ⟨empty⟩

end Declared
end ParallelLint
