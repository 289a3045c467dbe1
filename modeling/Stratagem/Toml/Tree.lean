/-
  What a TOML document holds.

  Every key is given once.  A table that a header or a dotted
  key passes through is there without being given, and may be
  given later by a header of its own, unless dotted keys made
  it.  Dotted keys in turn may pass through a table that only
  headers passed through, but put no key right into it.

  Key definitions include:
    * `Toml.Value`
    * `Toml.Table`
    * `Toml.Table.insert?`
    * `Toml.Table.open?`
    * `Toml.Table.append?`
-/

namespace Stratagem

namespace Toml

------------------------------------------------------------
-- Trees
------------------------------------------------------------

/-
  A value.  Of numbers with a point, dates and the like it only
  matters that they are there.
-/
inductive Value where
  | string (s : String)
  | integer (n : Int64)
  | boolean (b : Bool)
  | other
deriving DecidableEq

/- How a table came to be. -/
inductive Origin where
  | given
  | passed
  | dotted
deriving DecidableEq

/- What stands at a key. -/
inductive Item where
  | value (v : Value)
  | table (origin : Origin) (entries : List (String × Item))
  | tables (all : List (List (String × Item)))

/- Keys with what stands there. -/
abbrev Table :=
  List (String × Item)

namespace Table

/- What stands at a key. -/
def get?
    (t : Table)
    (key : String) : Option Item :=
  t.lookup key

/- Put an item at a key, in the place of the one there. -/
def set
    (t : Table)
    (key : String)
    (item : Item) : Table :=
  if (t.get? key).isSome then
    t.map fun (k, i) => if k = key then (k, item) else (k, i)
  else
    t ++ [(key, item)]

------------------------------------------------------------
-- Changes
------------------------------------------------------------

/-
  Change the table at the end of a path.  A table that is
  missing on the way is made; a path of dotted keys does not
  go through a table that a header gave.  Of an array of
  tables the last one counts, which a header gave, and yet
  any path goes through it.

  The change is told how the table came to be; `last` says so
  for the table that the path starts from.
-/
def within?
    (made : Origin)
    (change : Origin → Table → Option Table)
    (last : Origin) :
    List String → Table → Option Table
  | [], t => change last t
  | key :: path, t =>
      match t.get? key with
      | none =>
          (within? made change made path []).map fun u =>
            t.set key (.table made u)
      | some (.table origin u) =>
          if made = .dotted ∧ origin = .given then
            none
          else
            (within? made change origin path u).map fun u =>
              t.set key (.table origin u)
      | some (.tables all) =>
          match all.reverse with
          | [] => none
          | u :: before =>
              (within? made change .given path u).map fun u =>
                t.set key (.tables (u :: before).reverse)
      | some (.value _) => none

/-
  Give a key its value.  The last part of a dotted key stands
  in a table that dotted keys made.
-/
def insert?
    (t : Table)
    (v : Value)
    (path : List String) : Option Table :=
  match path.reverse with
  | [] => none
  | key :: before =>
      within? .dotted (fun origin t =>
        if before.isEmpty ∨ origin = .dotted then
          match t.get? key with
          | none => some (t.set key (.value v))
          | some _ => none
        else
          none) .given before.reverse t

/- Change the table at the end of a path of headers. -/
def inHeader?
    (t : Table)
    (change : Table → Option Table)
    (path : List String) : Option Table :=
  within? .passed (fun _ => change) .given path t

/- Give a table by a header. -/
def open?
    (t : Table)
    (path : List String) : Option Table :=
  match path.reverse with
  | [] => none
  | key :: before =>
      t.inHeader? (fun t =>
        match t.get? key with
        | none => some (t.set key (.table .given []))
        | some (.table .passed u) =>
            some (t.set key (.table .given u))
        | some _ => none) before.reverse

/- Give one more table of an array by a header. -/
def append?
    (t : Table)
    (path : List String) : Option Table :=
  match path.reverse with
  | [] => none
  | key :: before =>
      t.inHeader? (fun t =>
        match t.get? key with
        | none => some (t.set key (.tables [[]]))
        | some (.tables all) =>
            some (t.set key (.tables (all ++ [[]])))
        | some _ => none) before.reverse

end Table

end Toml

end Stratagem
