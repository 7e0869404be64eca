import Polish.Decimal

/-!
The values of variables.

Bindings are kept in ascending order of their names, each name once.  So two
tables with the same values are equal, however they came about.
-/

namespace Polish

namespace Bindings

abbrev Entry := String × Int64

def Ascending (entries : List Entry) : Prop :=
  entries.Pairwise fun a b => a.1 < b.1

instance (entries : List Entry) : Decidable (Ascending entries) :=
  inferInstanceAs (Decidable (entries.Pairwise fun a b => a.1 < b.1))

/-- Puts an entry at its place, instead of an entry of the same name. -/
def insert (name : String) (value : Int64) : List Entry → List Entry
  | [] => [(name, value)]
  | entry :: rest =>
      if name < entry.1 then
        (name, value) :: entry :: rest
      else if name = entry.1 then
        (name, value) :: rest
      else
        entry :: insert name value rest

theorem mem_insert {name : String} {value : Int64} {entries : List Entry} {entry : Entry}
    (h : entry ∈ insert name value entries) : entry = (name, value) ∨ entry ∈ entries := by
  induction entries with
  | nil => simpa [insert] using h
  | cons first rest ih =>
      simp only [insert] at h
      split at h
      · simpa using h
      · split at h
        · rcases List.mem_cons.mp h with rfl | h
          · exact Or.inl rfl
          · exact Or.inr (List.mem_cons_of_mem _ h)
        · rcases List.mem_cons.mp h with rfl | h
          · exact Or.inr List.mem_cons_self
          · rcases ih h with h | h
            · exact Or.inl h
            · exact Or.inr (List.mem_cons_of_mem _ h)

theorem Ascending.insert {entries : List Entry} (h : Ascending entries) (name : String)
    (value : Int64) : Ascending (insert name value entries) := by
  induction entries with
  | nil => simp [Bindings.insert, Ascending]
  | cons first rest ih =>
      obtain ⟨hfirst, hrest⟩ := List.pairwise_cons.mp h
      simp only [Bindings.insert]
      split
      · rename_i hlt
        refine List.pairwise_cons.mpr ⟨?_, h⟩
        intro entry hentry
        rcases List.mem_cons.mp hentry with rfl | hentry
        · exact hlt
        · exact String.lt_trans hlt (hfirst entry hentry)
      · rename_i hnlt
        split
        · rename_i heq
          subst heq
          exact List.pairwise_cons.mpr ⟨hfirst, hrest⟩
        · rename_i hne
          have hlt : first.1 < name :=
            Std.lt_of_le_of_ne (String.not_lt.mp hnlt) fun h => hne h.symm
          refine List.pairwise_cons.mpr ⟨?_, ih hrest⟩
          intro entry hentry
          rcases mem_insert hentry with rfl | hentry
          · exact hlt
          · exact hfirst entry hentry

def lookup (name : String) (entries : List Entry) : Option Int64 :=
  (entries.find? fun entry => entry.1 == name).map (·.2)

theorem lookup_insert (name other : String) (value : Int64) (entries : List Entry) :
    lookup other (insert name value entries) =
      if other = name then some value else lookup other entries := by
  induction entries with
  | nil =>
      by_cases h : other = name
      · simp [insert, lookup, h]
      · simp [insert, lookup, h, Ne.symm h]
  | cons first rest ih =>
      simp only [insert]
      split
      · by_cases h : other = name
        · simp [lookup, h]
        · simp [lookup, h, Ne.symm h]
      · split
        · rename_i hname
          by_cases h : other = name
          · simp [lookup, h]
          · simp [lookup, h, Ne.symm h, ← hname]
        · rename_i hname
          by_cases hfirst : first.1 = other
          · have h : other ≠ name := fun h => hname (h ▸ hfirst).symm
            simp [lookup, hfirst, h]
          · simpa [lookup, List.find?_cons, hfirst] using ih

end Bindings

/-- A finite map from names to values. -/
structure Bindings where
  entries : List Bindings.Entry
  ascending : Bindings.Ascending entries
  deriving DecidableEq

namespace Bindings

def empty : Bindings where
  entries := []
  ascending := List.Pairwise.nil

instance : Inhabited Bindings := ⟨empty⟩

def get? (bindings : Bindings) (name : String) : Option Int64 :=
  lookup name bindings.entries

def assign (bindings : Bindings) (name : String) (value : Int64) : Bindings where
  entries := insert name value bindings.entries
  ascending := bindings.ascending.insert name value

def clear (_ : Bindings) : Bindings :=
  empty

def size (bindings : Bindings) : Nat :=
  bindings.entries.length

def isEmpty (bindings : Bindings) : Bool :=
  bindings.entries.isEmpty

def ofList (entries : List Entry) : Bindings :=
  entries.foldl (fun bindings entry => bindings.assign entry.1 entry.2) empty

def text (bindings : Bindings) : String :=
  "Symbol table:\n" ++
    String.join (bindings.entries.map fun (name, value) =>
      "  " ++ name ++ " = " ++ Decimal.text value.toInt ++ "\n")

@[simp] theorem get?_empty (name : String) : empty.get? name = none :=
  rfl

theorem get?_assign (bindings : Bindings) (name other : String) (value : Int64) :
    (bindings.assign name value).get? other =
      if other = name then some value else bindings.get? other :=
  lookup_insert name other value bindings.entries

@[ext] theorem ext {a b : Bindings} (h : a.entries = b.entries) : a = b := by
  cases a
  cases b
  cases h
  rfl

end Bindings

end Polish
