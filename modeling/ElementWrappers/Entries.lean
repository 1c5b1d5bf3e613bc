/-!
# Keyed entries

Lists of keyed values in order of first insertion. Replacing the value of a key
keeps its place. A `Table` has each key once.
-/

namespace ElementWrappers

/-- Keyed values, in order. -/
abbrev Entries (α : Type _) := List (String × α)

namespace Entries

variable {α : Type _}

/-- The first value of `key`. -/
def get? (entries : Entries α) (key : String) : Option α :=
  match entries with
  | [] => none
  | (k, v) :: rest => if k = key then some v else get? rest key

def has (entries : Entries α) (key : String) : Bool := (entries.get? key).isSome

def keys (entries : Entries α) : List String := entries.map Prod.fst

/-- Sets the value of `key`, in place if the key is there, else at the end. -/
def insert (entries : Entries α) (key : String) (value : α) : Entries α :=
  match entries with
  | [] => [(key, value)]
  | (k, v) :: rest => if k = key then (key, value) :: rest else (k, v) :: insert rest key value

/-- Inserts one after the other: a repeated key keeps its first place and its
last value. -/
def merged (entries : Entries α) : Entries α :=
  entries.foldl (fun done entry => done.insert entry.1 entry.2) []

theorem mem_keys_insert {entries : Entries α} {key k : String} {value : α} :
    k ∈ (entries.insert key value).keys ↔ k = key ∨ k ∈ entries.keys := by
  induction entries with
  | nil => simp [insert, keys]
  | cons entry rest ih =>
    obtain ⟨k', v'⟩ := entry
    simp only [keys] at ih
    by_cases h : k' = key
    · subst h; simp [insert, keys]
    · simp only [insert, h, ↓reduceIte, keys, List.map_cons, List.mem_cons, ih]
      exact or_left_comm

theorem nodup_keys_insert {entries : Entries α} {key : String} {value : α}
    (h : entries.keys.Nodup) : (entries.insert key value).keys.Nodup := by
  induction entries with
  | nil => simp [insert, keys]
  | cons entry rest ih =>
    obtain ⟨k', v'⟩ := entry
    simp only [keys, List.map_cons, List.nodup_cons] at h
    by_cases hk : k' = key
    · subst hk; simpa [insert, keys] using h
    · simp only [insert, hk, ↓reduceIte, keys, List.map_cons, List.nodup_cons]
      refine ⟨fun hm => ?_, ih h.2⟩
      rcases mem_keys_insert.mp hm with rfl | hm
      · exact hk rfl
      · exact h.1 hm

end Entries

/-- Keyed values with distinct keys, in order of first insertion. -/
structure Table (α : Type _) where
  entries : Entries α
  distinct : entries.keys.Nodup

namespace Table

variable {α : Type _}

def empty : Table α := ⟨[], by simp [Entries.keys]⟩

instance : Inhabited (Table α) := ⟨empty⟩

def get? (t : Table α) (key : String) : Option α := t.entries.get? key

def keys (t : Table α) : List String := t.entries.keys

def insert (t : Table α) (key : String) (value : α) : Table α :=
  ⟨t.entries.insert key value, Entries.nodup_keys_insert t.distinct⟩

/-- The table of a list of entries; the last value of a repeated key counts. -/
def ofList (entries : Entries α) : Table α :=
  entries.foldl (fun t entry => t.insert entry.1 entry.2) empty

theorem ext_entries {s t : Table α} (h : s.entries = t.entries) : s = t := by
  cases s; cases t; simp_all

end Table

end ElementWrappers
