import EntityGraph.Assoc

/-!
# Dictionaries

A `Dict α` maps names to values, remembers the order in which the names were first inserted
and holds no name twice.  It is an association list with that invariant, so two dictionaries
with the same entries in the same order are equal (`Dict.ext`).
-/

namespace EntityGraph

structure Dict (α : Type) where
  entries : List (String × α)
  nodup : (Assoc.keys entries).Nodup

namespace Dict

variable {α β : Type}

/-! ## Algorithm -/

def empty : Dict α := ⟨[], by simp⟩

instance : Inhabited (Dict α) := ⟨empty⟩

def keys (d : Dict α) : List String := Assoc.keys d.entries

def values (d : Dict α) : List α := d.entries.map Prod.snd

def size (d : Dict α) : Nat := d.entries.length

def find? (d : Dict α) (key : String) : Option α := Assoc.find? key d.entries

def contains (d : Dict α) (key : String) : Bool := (d.find? key).isSome

/-- Gives `key` its value: in place if the key is there, at the end if it is not. -/
def insert (d : Dict α) (key : String) (value : α) : Dict α :=
  ⟨Assoc.insert key value d.entries, Assoc.nodup_keys_insert d.nodup⟩

/-- The dictionary of a list of pairs; of two values for one key the later one is kept, at the
place of the first. -/
def ofList (l : List (String × α)) : Dict α :=
  ⟨Assoc.insertAll [] l, Assoc.nodup_keys_insertAll (by simp)⟩

/-- The same names with new values. -/
def mapValues (f : String → α → β) (d : Dict α) : Dict β :=
  ⟨d.entries.map fun p => (p.1, f p.1 p.2), by rw [Assoc.keys_map_snd]; exact d.nodup⟩

/-! ## Lemmas -/

theorem ext {d e : Dict α} (h : d.entries = e.entries) : d = e := by
  cases d; cases e; cases h; rfl

@[simp] theorem keys_empty : (empty : Dict α).keys = [] := rfl

theorem contains_iff {d : Dict α} {key : String} : d.contains key = true ↔ key ∈ d.keys := by
  rw [contains, Option.isSome_iff_ne_none, ne_eq, find?, Assoc.find?_eq_none_iff,
    Classical.not_not]
  rfl

@[simp] theorem find?_insert_self (d : Dict α) (key : String) (value : α) :
    (d.insert key value).find? key = some value := Assoc.find?_insert_self ..

theorem find?_insert_of_ne (d : Dict α) {key other : String} (value : α) (h : other ≠ key) :
    (d.insert key value).find? other = d.find? other := Assoc.find?_insert_of_ne _ _ h

theorem keys_insert_of_not_contains {d : Dict α} {key : String} (value : α)
    (h : d.contains key = false) : (d.insert key value).keys = d.keys ++ [key] :=
  Assoc.keys_insert_of_not_mem fun m => by simp [contains_iff.2 m] at h

theorem contains_eq_false_iff {d : Dict α} {key : String} :
    d.contains key = false ↔ key ∉ d.keys := by
  rw [← contains_iff, Bool.not_eq_true]

theorem find?_eq_some_iff {d : Dict α} {key : String} {value : α} :
    d.find? key = some value ↔ (key, value) ∈ d.entries :=
  ⟨Assoc.mem_of_find?, Assoc.find?_of_mem d.nodup⟩

theorem find?_eq_none_iff {d : Dict α} {key : String} : d.find? key = none ↔ key ∉ d.keys :=
  Assoc.find?_eq_none_iff

theorem entries_insert_of_not_mem {d : Dict α} {key : String} (value : α) (h : key ∉ d.keys) :
    (d.insert key value).entries = d.entries ++ [(key, value)] := Assoc.insert_of_not_mem h

theorem find?_mapValues (f : String → α → β) (d : Dict α) (key : String) :
    (d.mapValues f).find? key = (d.find? key).map (f key) := Assoc.find?_map_snd ..

@[simp] theorem keys_mapValues (f : String → α → β) (d : Dict α) :
    (d.mapValues f).keys = d.keys := Assoc.keys_map_snd ..

end Dict

end EntityGraph
