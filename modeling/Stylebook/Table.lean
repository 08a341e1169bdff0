/-! # Insertion-ordered tables

A table keeps one value for each key, in the order in which the keys were first inserted.
Inserting again replaces the value and leaves the key where it is.
-/

namespace Stylebook

structure Table (α : Type) where
  entries : List (String × α)
  nodup : (entries.map Prod.fst).Nodup := by simp

namespace Table

variable {α β : Type}

@[ext] theorem ext {s t : Table α} (h : s.entries = t.entries) : s = t := by
  cases s; cases t; cases h; rfl

instance [DecidableEq α] : DecidableEq (Table α) := fun s t =>
  decidable_of_iff (s.entries = t.entries) ⟨ext, fun h => h ▸ rfl⟩

instance [BEq α] : BEq (Table α) := ⟨fun s t => s.entries == t.entries⟩

instance [Repr α] : Repr (Table α) := ⟨fun t n => reprPrec t.entries n⟩

def empty : Table α := { entries := [] }

instance : Inhabited (Table α) := ⟨empty⟩

def keys (t : Table α) : List String := t.entries.map Prod.fst

def get? (t : Table α) (k : String) : Option α := t.entries.lookup k

def contains (t : Table α) (k : String) : Bool := t.entries.any (·.1 == k)

def size (t : Table α) : Nat := t.entries.length

def isEmpty (t : Table α) : Bool := t.entries.isEmpty

/-- Replace the first value of `k`, or append the pair. -/
def put (k : String) (v : α) : List (String × α) → List (String × α)
  | [] => [(k, v)]
  | e :: es => if e.1 = k then (k, v) :: es else e :: put k v es

theorem map_fst_put (k : String) (v : α) (es : List (String × α)) :
    (put k v es).map Prod.fst =
      if k ∈ es.map Prod.fst then es.map Prod.fst else es.map Prod.fst ++ [k] := by
  induction es with
  | nil => rfl
  | cons e es ih =>
    by_cases h : e.1 = k
    · simp [put, h]
    · have h' : ¬ k = e.1 := fun hk => h hk.symm
      simp only [put, if_neg h, List.map_cons, ih, List.mem_cons, h', false_or]
      split <;> rfl

def insert (t : Table α) (k : String) (v : α) : Table α where
  entries := put k v t.entries
  nodup := by
    rw [map_fst_put]
    split
    · exact t.nodup
    · next h => simp [List.nodup_append, t.nodup]; grind

/-- Insert only where the key is new. -/
def insertNew (t : Table α) (k : String) (v : α) : Table α :=
  if t.contains k then t else t.insert k v

/-- Later pairs win, earlier ones give the place. -/
def ofList (es : List (String × α)) : Table α :=
  es.foldl (fun t e => t.insert e.1 e.2) empty

/-- Add the entries of `other` whose keys are not there yet. -/
def extend (t other : Table α) : Table α :=
  other.entries.foldl (fun t e => t.insertNew e.1 e.2) t

@[simp] theorem entries_empty : (empty : Table α).entries = [] := rfl

@[simp] theorem get?_empty (k : String) : (empty : Table α).get? k = none := rfl

theorem contains_iff (t : Table α) (k : String) : t.contains k = true ↔ k ∈ t.keys := by
  simp [contains, keys]

theorem lookup_put (k j : String) (v : α) (es : List (String × α)) :
    (put k v es).lookup j = if j = k then some v else es.lookup j := by
  induction es with
  | nil =>
    by_cases h : j = k
    · simp [put, h]
    · have h' : (j == k) = false := by simpa using h
      simp [put, List.lookup_cons, h, h']
  | cons e es ih =>
    obtain ⟨k', v'⟩ := e
    by_cases h : k' = k
    · subst h
      by_cases hj : j = k'
      · simp [put, hj]
      · have h' : (j == k') = false := by simpa using hj
        simp [put, List.lookup_cons, hj, h']
    · simp only [put, if_neg h, List.lookup_cons, ih]
      by_cases hk : j = k'
      · have hn : ¬ j = k := fun e => h (hk ▸ e)
        simp [hk, h]
      · have h' : (j == k') = false := by simpa using hk
        simp [h']

theorem get?_insert (t : Table α) (k j : String) (v : α) :
    (t.insert k v).get? j = if j = k then some v else t.get? j :=
  lookup_put k j v t.entries

theorem keys_insert (t : Table α) (k : String) (v : α) :
    (t.insert k v).keys = if k ∈ t.keys then t.keys else t.keys ++ [k] :=
  map_fst_put k v t.entries

end Table

end Stylebook
