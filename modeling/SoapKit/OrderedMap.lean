/-!
# Maps in insertion order

A map lists its entries in the order in which their keys came in. A key that comes in again keeps
its place and takes the new value.
-/

namespace SoapKit

/-- A map in insertion order. -/
structure OrderedMap (κ ν : Type) where
  entries : List (κ × ν)
  deriving Repr, DecidableEq, Inhabited

namespace OrderedMap

variable {κ ν : Type} [BEq κ]

def empty : OrderedMap κ ν := ⟨[]⟩

def keys (m : OrderedMap κ ν) : List κ :=
  m.entries.map (·.1)

def values (m : OrderedMap κ ν) : List ν :=
  m.entries.map (·.2)

def contains (m : OrderedMap κ ν) (key : κ) : Bool :=
  m.entries.any (·.1 == key)

def get? (m : OrderedMap κ ν) (key : κ) : Option ν :=
  (m.entries.find? (·.1 == key)).map (·.2)

/-- Gives a key a value. -/
def insert (m : OrderedMap κ ν) (key : κ) (value : ν) : OrderedMap κ ν :=
  if m.contains key then
    ⟨m.entries.map fun entry => if entry.1 == key then (entry.1, value) else entry⟩
  else ⟨m.entries ++ [(key, value)]⟩

def erase (m : OrderedMap κ ν) (key : κ) : OrderedMap κ ν :=
  ⟨m.entries.filter fun entry => !(entry.1 == key)⟩

def ofList (entries : List (κ × ν)) : OrderedMap κ ν :=
  entries.foldl (fun m entry => m.insert entry.1 entry.2) empty

omit [BEq κ] in
@[simp] theorem keys_empty : (empty : OrderedMap κ ν).keys = [] := rfl

theorem keys_insert (m : OrderedMap κ ν) (key : κ) (value : ν) :
    (m.insert key value).keys = if m.contains key then m.keys else m.keys ++ [key] := by
  unfold insert
  split
  · simp only [keys, List.map_map]
    apply List.map_congr_left
    intro entry _
    simp only [Function.comp]
    split <;> rfl
  · simp [keys]

theorem contains_iff [LawfulBEq κ] {m : OrderedMap κ ν} {key : κ} :
    m.contains key = true ↔ key ∈ m.keys := by
  simp [contains, keys]

/-- A map has the keys that it had and the one that comes in. -/
theorem mem_keys_insert [LawfulBEq κ] {m : OrderedMap κ ν} {key k : κ} {value : ν} :
    k ∈ (m.insert key value).keys ↔ k ∈ m.keys ∨ k = key := by
  rw [keys_insert]
  split
  · next h => exact ⟨.inl, fun hk => hk.elim id (· ▸ contains_iff.1 h)⟩
  · simp

theorem get?_insert_self [ReflBEq κ] (m : OrderedMap κ ν) (key : κ) (value : ν) :
    (m.insert key value).get? key = some value := by
  unfold insert
  split
  · rename_i h
    obtain ⟨entries⟩ := m
    simp only [contains, get?] at h ⊢
    induction entries with
    | nil => simp at h
    | cons entry rest ih =>
      by_cases hk : (entry.1 == key) = true
      · simp [hk]
      · have hrest : rest.any (·.1 == key) = true := by simpa [hk] using h
        simpa [hk] using ih hrest
  · rename_i h
    have hnone : m.entries.find? (·.1 == key) = none := by
      simpa [contains] using h
    simp [get?, List.find?_append, hnone]

theorem get?_insert_of_ne [LawfulBEq κ] (m : OrderedMap κ ν) {key other : κ} (h : other ≠ key)
    (value : ν) : (m.insert key value).get? other = m.get? other := by
  have hkey : (key == other) = false := by simpa using h.symm
  unfold insert
  split
  · have hsame : ((fun entry : κ × ν => entry.1 == other) ∘ fun entry =>
        if entry.1 == key then (entry.1, value) else entry) = fun entry => entry.1 == other := by
      funext entry
      by_cases hentry : (entry.1 == key) = true
      · simp [hentry]
      · simp [hentry]
    rw [get?, get?, List.find?_map, hsame, Option.map_map]
    cases hfind : m.entries.find? (·.1 == other) with
    | none => rfl
    | some entry =>
      have heq : entry.1 = other := by simpa using List.find?_some hfind
      simp [heq, h]
  · simp [get?, List.find?_append, hkey]

/-- Of the entries with a key the last one counts, before what was there. -/
theorem get?_foldl_insert [LawfulBEq κ] (entries : List (κ × ν)) (m : OrderedMap κ ν) (key : κ) :
    (entries.foldl (fun m entry => m.insert entry.1 entry.2) m).get? key =
      ((entries.reverse.find? (·.1 == key)).map (·.2)).or (m.get? key) := by
  induction entries generalizing m with
  | nil => rfl
  | cons entry rest ih =>
    rw [List.foldl_cons, ih, List.reverse_cons, List.find?_append]
    cases rest.reverse.find? (·.1 == key) with
    | some found => rfl
    | none =>
      by_cases hkey : key = entry.1
      · simp [hkey, get?_insert_self]
      · have hentry : (entry.1 == key) = false := by simpa using Ne.symm hkey
        simp [hentry, get?_insert_of_ne m hkey]

theorem get?_ofList [LawfulBEq κ] (entries : List (κ × ν)) (key : κ) :
    (ofList entries).get? key = (entries.reverse.find? (·.1 == key)).map (·.2) := by
  rw [ofList, get?_foldl_insert]
  exact Option.or_none

theorem keys_foldl_insert [LawfulBEq κ] (entries : List (κ × ν)) (m : OrderedMap κ ν) :
    (entries.foldl (fun m entry => m.insert entry.1 entry.2) m).keys =
      m.keys ++ ((entries.map (·.1)).removeAll m.keys).eraseDups := by
  induction entries generalizing m with
  | nil => simp [List.removeAll]
  | cons entry rest ih =>
    rw [List.foldl_cons, ih, keys_insert, List.map_cons]
    by_cases hkey : m.contains entry.1 = true
    · rw [if_pos hkey]
      simp [List.removeAll, contains_iff.1 hkey]
    · rw [if_neg hkey]
      have hnew : entry.1 ∉ m.keys := fun hmem => hkey (contains_iff.2 hmem)
      have hrest : (rest.map (·.1)).removeAll (m.keys ++ [entry.1]) =
          ((rest.map (·.1)).removeAll m.keys).filter (!· == entry.1) := by
        simp only [List.removeAll, List.filter_filter]
        congr 1
        funext key
        rw [← Bool.not_or, Bool.eq_iff_iff]
        simp [or_comm]
      rw [hrest]
      simp [List.removeAll, hnew, List.eraseDups_cons]

/-- The keys stand in the order in which they come first. -/
theorem keys_ofList [LawfulBEq κ] (entries : List (κ × ν)) :
    (ofList entries).keys = (entries.map (·.1)).eraseDups := by
  simp [ofList, keys_foldl_insert]

theorem mem_keys_of_get? [LawfulBEq κ] {m : OrderedMap κ ν} {key : κ} {value : ν}
    (h : m.get? key = some value) : key ∈ m.keys := by
  obtain ⟨entry, found, -⟩ := Option.map_eq_some_iff.1 h
  have same : entry.1 = key := by simpa using List.find?_some found
  exact same ▸ List.mem_map_of_mem (List.mem_of_find?_eq_some found)

theorem get?_erase_of_ne [LawfulBEq κ] (m : OrderedMap κ ν) {key other : κ} (h : other ≠ key) :
    (m.erase key).get? other = m.get? other := by
  simp only [get?, erase, List.find?_filter]
  congr 2
  funext entry
  by_cases hother : entry.1 = other
  · simp [hother, h]
  · simp [hother]

theorem length_erase_lt (m : OrderedMap κ ν) {key : κ} {value : ν}
    (h : m.get? key = some value) : (m.erase key).entries.length < m.entries.length := by
  obtain ⟨entry, found, -⟩ := Option.map_eq_some_iff.1 h
  refine List.length_filter_lt_length_iff_exists.2 ⟨entry, List.mem_of_find?_eq_some found, ?_⟩
  simpa using List.find?_some found

end OrderedMap

end SoapKit
