import Std.Data.HashMap
import SetQubo.Label
import SetQubo.Scalar
/-!
# Coefficient tables

A table gives coefficients to keys. It keeps its entries in the order in which their keys were
first touched, next to an index that finds the place of a key. A later step on a key changes the
coefficient in place: neither the position nor the written form of the key changes.
-/

namespace SetQubo

/-- Coefficients by key, in order of insertion. -/
structure Table (K S : Type) [Key K] where
  /-- The place of each key among the entries. -/
  index : Std.HashMap K Nat
  /-- The keys as first written, with their coefficients. -/
  entries : Array (K × S)

namespace Table

variable {K S : Type} [Key K]

/-- The table without entries. -/
def empty : Table K S := ⟨∅, #[]⟩

/-- Updates the coefficient of a key that is there, or appends an entry for it. -/
def upsert (t : Table K S) (k : K) (update : S → S) (new : S) : Table K S :=
  match t.index[k]? with
  | some i => { t with entries := t.entries.modify i fun (key, c) => (key, update c) }
  | none => ⟨t.index.insert k t.entries.size, t.entries.push (k, new)⟩

/-- Overwrites the coefficient of a key. -/
def set (t : Table K S) (k : K) (c : S) : Table K S := t.upsert k (fun _ => c) c

/-- Adds to the coefficient of a key. -/
def add [Add S] (t : Table K S) (k : K) (c : S) : Table K S := t.upsert k (· + c) c

/-- The coefficient of a key, 0 if it has none. -/
def get [Zero S] (t : Table K S) (k : K) : S :=
  match t.index[k]?.bind (t.entries[·]?) with
  | some (_, c) => c
  | none => 0

/-- Whether a key has an entry. -/
def contains (t : Table K S) (k : K) : Bool := t.index.contains k

/-- The number of entries. -/
def size (t : Table K S) : Nat := t.entries.size

/-- Whether there is no entry. -/
def isEmpty (t : Table K S) : Bool := t.entries.isEmpty

/-- The entries in order of insertion. -/
def toList (t : Table K S) : List (K × S) := t.entries.toList

/-- The keys in order of insertion. -/
def keys (t : Table K S) : List K := t.toList.map Prod.fst

/-- Adds each entry of a list in turn; repeated keys accumulate. -/
def addAll [Add S] (t : Table K S) (entries : List (K × S)) : Table K S :=
  entries.foldl (fun t (k, c) => t.add k c) t

/-- The table of a list of entries. -/
def ofList [Add S] (entries : List (K × S)) : Table K S := empty.addAll entries

/-- Tables are equal if their entries are, one by one, as keys and as coefficients. -/
instance [BEq S] : BEq (Table K S) where
  beq t u := t.toList == u.toList

end Table

end SetQubo
