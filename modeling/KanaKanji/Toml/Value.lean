/-!
# Values and tables of a TOML document

A table maps keys to values and remembers how it came about, since that decides what may still be
added to it:

* a table with a header, and the top-level table, take keys under that header only;
* a table that a longer header implied may still be given a header of its own;
* a table made by a dotted key takes more keys by dotted keys, and no header;
* an inline table is complete.

`Entries.openTable?` and `Entries.openArray?` enter headers, `Entries.insert?` enters a value under
a dotted key, and all of them refuse what would define something twice.
-/

set_option autoImplicit false

namespace KanaKanji.Toml

/-- How a table came about. -/
inductive Origin
  | header
  | implied
  | dotted
  | inline
  deriving DecidableEq, Repr

/-- A value of a document. Numbers with a fraction or an exponent, dates and times are kept as they
are written. A table array is what headers in double brackets make. -/
inductive Value
  | text (content : String)
  | integer (n : Int)
  | float (written : String)
  | dateTime (written : String)
  | boolean (b : Bool)
  | array (items : List Value)
  | table (origin : Origin) (entries : List (String × Value))
  | tableArray (items : List (List (String × Value)))
  deriving Repr

/-- The keys of a table with their values. -/
abbrev Entries := List (String × Value)

namespace Entries

/-- The entries with a value for a key, in the place of the one it had or at the end. -/
def put (key : String) (value : Value) : Entries → Entries
  | [] => [(key, value)]
  | (k, v) :: rest => if k = key then (key, value) :: rest else (k, v) :: put key value rest

/-- Changes the last of the tables of a table array. -/
def changeLast? (change : Entries → Option Entries) : List Entries → Option (List Entries)
  | [] => none
  | [last] => (change last).map ([·])
  | first :: rest => (changeLast? change rest).map (first :: ·)

/-- Changes the table that a header path leads to. Tables on the way that do not exist are implied,
and of a table array the last table is meant. -/
def changeAt? (change : Entries → Option Entries) : List String → Entries → Option Entries
  | [], es => change es
  | key :: path, es =>
    match es.lookup key with
    | none => (changeAt? change path []).map fun t ↦ put key (.table .implied t) es
    | some (.table .inline _) => none
    | some (.table origin t) =>
      (changeAt? change path t).map fun t ↦ put key (.table origin t) es
    | some (.tableArray ts) =>
      (changeLast? (changeAt? change path) ts).map fun ts ↦ put key (.tableArray ts) es
    | some _ => none

/-- Enters the header of a table under its last key. -/
def giveHeader? (key : String) (es : Entries) : Option Entries :=
  match es.lookup key with
  | none => some (put key (.table .header []) es)
  | some (.table .implied t) => some (put key (.table .header t) es)
  | some _ => none

/-- Enters the header of one more table of a table array under its last key. -/
def giveArrayHeader? (key : String) (es : Entries) : Option Entries :=
  match es.lookup key with
  | none => some (put key (.tableArray [[]]) es)
  | some (.tableArray ts) => some (put key (.tableArray (ts ++ [[]])) es)
  | some _ => none

/-- Enters the header of a table. -/
def openTable? (path : List String) (es : Entries) : Option Entries :=
  path.getLast?.bind fun key ↦ changeAt? (giveHeader? key) path.dropLast es

/-- Enters the header of one more table of a table array. -/
def openArray? (path : List String) (es : Entries) : Option Entries :=
  path.getLast?.bind fun key ↦ changeAt? (giveArrayHeader? key) path.dropLast es

/-- Enters a value under a dotted key. The table that gets the value has to be the one where the key
starts (`takesKeys`) or one made by a dotted key; on the way to it there may be implied tables and
the last tables of table arrays, too. -/
def insert? (value : Value) : List String → (takesKeys : Bool) → Entries → Option Entries
  | [], _, _ => none
  | [key], takesKeys, es =>
    if takesKeys && (es.lookup key).isNone then some (put key value es) else none
  | key :: path, _, es =>
    match es.lookup key with
    | none => (insert? value path true []).map fun t ↦ put key (.table .dotted t) es
    | some (.table .dotted t) =>
      (insert? value path true t).map fun t ↦ put key (.table .dotted t) es
    | some (.table .implied t) =>
      (insert? value path false t).map fun t ↦ put key (.table .implied t) es
    | some (.tableArray ts) =>
      (changeLast? (insert? value path false) ts).map fun ts ↦ put key (.tableArray ts) es
    | some _ => none

/-- The entries of keys, each possibly dotted, with their values. -/
def ofPairs? (pairs : List (List String × Value)) : Option Entries :=
  pairs.foldlM (fun es (path, value) ↦ insert? value path true es) []

theorem lookup_put (key : String) (value : Value) (es : Entries) (k : String) :
    (put key value es).lookup k = if k = key then some value else es.lookup k := by
  induction es with
  | nil =>
    by_cases h : k = key
    · simp [put, h]
    · simp [put, h, List.lookup_cons, beq_eq_false_iff_ne.2 h]
  | cons e rest ih =>
    obtain ⟨key', value'⟩ := e
    by_cases hkey : key' = key
    · by_cases h : k = key
      · simp [put, hkey, h]
      · simp [put, hkey, h, List.lookup_cons, beq_eq_false_iff_ne.2 h]
    · rw [put, if_neg hkey, List.lookup_cons, ih, List.lookup_cons]
      by_cases h : k = key'
      · have hne : k ≠ key := fun heq ↦ hkey (h ▸ heq)
        simp [h, hkey]
      · simp [beq_eq_false_iff_ne.2 h]

end Entries

end KanaKanji.Toml
