/-!
# Association lists keyed by text

A list of pairs read as a finite map that remembers the order of first insertion.  `insert`
puts a new key at the end and gives an old key its new value in place, so

    keys (insert k v l) = keys l            when k is a key of l     (keys_insert_of_mem)
    keys (insert k v l) = keys l ++ [k]     otherwise                (keys_insert_of_not_mem)
    find? k (insert k v l) = some v                                  (find?_insert_self)

Both JSON objects and the dictionaries of the library are built on these functions.
-/

namespace EntityGraph.Assoc

variable {α β : Type}

/-! ## Algorithm -/

/-- The value of the first pair with the given key. -/
def find? (key : String) : List (String × α) → Option α
  | [] => none
  | (k, v) :: rest => if k = key then some v else find? key rest

def keys (l : List (String × α)) : List String := l.map Prod.fst

/-- Gives `key` the value `value`: in place if the key is there, at the end if it is not. -/
def insert (key : String) (value : α) : List (String × α) → List (String × α)
  | [] => [(key, value)]
  | (k, v) :: rest =>
    if k = key then (k, value) :: rest else (k, v) :: insert key value rest

/-- Inserts pairs one after another, so of two values for one key the later one is kept. -/
def insertAll (base : List (String × α)) : List (String × α) → List (String × α)
  | [] => base
  | (k, v) :: rest => insertAll (insert k v base) rest

/-! ## Lemmas -/

@[simp] theorem keys_nil : keys ([] : List (String × α)) = [] := rfl

@[simp] theorem keys_cons (p : String × α) (l : List (String × α)) :
    keys (p :: l) = p.1 :: keys l := rfl

@[simp] theorem keys_append (l m : List (String × α)) : keys (l ++ m) = keys l ++ keys m := by
  simp [keys]

theorem find?_eq_none_iff {key : String} {l : List (String × α)} :
    find? key l = none ↔ key ∉ keys l := by
  induction l with
  | nil => simp [find?]
  | cons p rest ih =>
    by_cases h : p.1 = key
    · simp [find?, h]
    · simp [find?, h, ih, Ne.symm h]

theorem mem_of_find? {key : String} {value : α} {l : List (String × α)}
    (h : find? key l = some value) : (key, value) ∈ l := by
  induction l with
  | nil => simp [find?] at h
  | cons p rest ih =>
    by_cases hk : p.1 = key
    · simp only [find?, hk, if_true, Option.some.injEq] at h
      simp [← hk, ← h]
    · exact List.mem_cons_of_mem _ (ih (by simpa [find?, hk] using h))

theorem keys_insert_of_mem {key : String} {value : α} {l : List (String × α)}
    (h : key ∈ keys l) : keys (insert key value l) = keys l := by
  induction l with
  | nil => simp at h
  | cons p rest ih =>
    by_cases hk : p.1 = key
    · simp [insert, hk]
    · have hrest : key ∈ keys rest := by
        rcases List.mem_cons.1 h with h | h
        · exact absurd h.symm hk
        · exact h
      simp [insert, hk, ih hrest]

theorem insert_of_not_mem {key : String} {value : α} {l : List (String × α)}
    (h : key ∉ keys l) : insert key value l = l ++ [(key, value)] := by
  induction l with
  | nil => rfl
  | cons p rest ih =>
    have hk : p.1 ≠ key := fun e => h (by simp [e])
    have hrest : key ∉ keys rest := fun m => h (by simp [m])
    simp [insert, hk, ih hrest]

theorem keys_insert_of_not_mem {key : String} {value : α} {l : List (String × α)}
    (h : key ∉ keys l) : keys (insert key value l) = keys l ++ [key] := by
  simp [insert_of_not_mem h]

theorem nodup_keys_insert {key : String} {value : α} {l : List (String × α)}
    (h : (keys l).Nodup) : (keys (insert key value l)).Nodup := by
  by_cases hk : key ∈ keys l
  · rwa [keys_insert_of_mem hk]
  · rw [keys_insert_of_not_mem hk, List.nodup_append]
    exact ⟨h, by simp, fun a ha b hb e => hk (List.mem_singleton.1 hb ▸ e ▸ ha)⟩

theorem nodup_keys_insertAll {base l : List (String × α)} (h : (keys base).Nodup) :
    (keys (insertAll base l)).Nodup := by
  induction l generalizing base with
  | nil => exact h
  | cons p rest ih => exact ih (nodup_keys_insert h)

@[simp] theorem find?_insert_self (key : String) (value : α) (l : List (String × α)) :
    find? key (insert key value l) = some value := by
  induction l with
  | nil => simp [insert, find?]
  | cons p rest ih =>
    by_cases hk : p.1 = key
    · simp [insert, find?, hk]
    · simp [insert, find?, hk, ih]

theorem find?_insert_of_ne {key other : String} (value : α) (l : List (String × α))
    (h : other ≠ key) : find? other (insert key value l) = find? other l := by
  induction l with
  | nil => simp [insert, find?, Ne.symm h]
  | cons p rest ih =>
    by_cases hk : p.1 = key
    · simp [insert, find?, hk, Ne.symm h]
    · simp [insert, find?, hk, ih]

theorem mem_keys_of_mem {p : String × α} {l : List (String × α)} (h : p ∈ l) : p.1 ∈ keys l :=
  List.mem_map_of_mem h

theorem find?_append (key : String) (l m : List (String × α)) :
    find? key (l ++ m) = (find? key l).or (find? key m) := by
  induction l with
  | nil => simp [find?]
  | cons p rest ih =>
    by_cases hk : p.1 = key
    · simp [find?, hk]
    · simp [find?, hk, ih]

theorem find?_map_snd (f : String → α → β) (key : String) (l : List (String × α)) :
    find? key (l.map fun p => (p.1, f p.1 p.2)) = (find? key l).map (f key) := by
  induction l with
  | nil => rfl
  | cons p rest ih =>
    by_cases hk : p.1 = key
    · simp [find?, hk]
    · simp [find?, hk, ih]

theorem find?_of_mem {key : String} {value : α} {l : List (String × α)} (hnodup : (keys l).Nodup)
    (h : (key, value) ∈ l) : find? key l = some value := by
  induction l with
  | nil => simp at h
  | cons p rest ih =>
    rw [keys_cons, List.nodup_cons] at hnodup
    rcases List.mem_cons.1 h with rfl | h
    · simp [find?]
    · have hk : p.1 ≠ key := fun e => hnodup.1 (e ▸ mem_keys_of_mem h)
      simp [find?, hk, ih hnodup.2 h]

theorem mem_insert {key : String} {value : α} {l : List (String × α)} (hnodup : (keys l).Nodup)
    {p : String × α} (h : p ∈ insert key value l) : p = (key, value) ∨ p ∈ l ∧ p.1 ≠ key := by
  have hp := find?_of_mem (nodup_keys_insert hnodup) h
  by_cases hk : p.1 = key
  · rw [hk, find?_insert_self] at hp
    left
    rw [← hk, Option.some.inj hp]
  · rw [find?_insert_of_ne _ _ hk] at hp
    exact Or.inr ⟨mem_of_find? hp, hk⟩

theorem mem_insertAll {base l : List (String × α)} (hnodup : (keys base).Nodup) {p : String × α}
    (h : p ∈ insertAll base l) : p ∈ base ∨ p ∈ l := by
  induction l generalizing base with
  | nil => exact Or.inl h
  | cons q rest ih =>
    rcases ih (nodup_keys_insert hnodup) h with hp | hp
    · rcases mem_insert hnodup hp with rfl | ⟨hp, -⟩
      · exact Or.inr List.mem_cons_self
      · exact Or.inl hp
    · exact Or.inr (List.mem_cons_of_mem _ hp)

theorem keys_map_snd (f : String → α → β) (l : List (String × α)) :
    keys (l.map fun p => (p.1, f p.1 p.2)) = keys l := by
  simp [keys]

end EntityGraph.Assoc
