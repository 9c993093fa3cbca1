import ScriptInference.Number.Numeral

/-!
# JSON values

The tree of a JSON text. Numbers keep their spelling, objects keep the order and the repetitions of
their keys. A string token whose escapes contain an unpaired surrogate is well formed but denotes no
text; it is kept as `none`, so that a reader can still skip over it.
-/

namespace ScriptInference

inductive Json where
  | null
  | bool (value : Bool)
  | num (value : Numeral)
  | string (value : Option String)
  | arr (items : List Json)
  | obj (fields : List (Option String × Json))

namespace Json

instance : Inhabited Json := ⟨.null⟩

def str (s : String) : Json := .string (some s)

def nat (n : Nat) : Json := .num (.ofNat n)

def int (n : Int) : Json := .num (.ofInt n)

def object (fields : List (String × Json)) : Json := .obj (fields.map fun f => (some f.1, f.2))

def strings (l : List String) : Json := .arr (l.map str)

def ofOption {α : Type} (f : α → Json) : Option α → Json
  | none => .null
  | some a => f a

def asBool? : Json → Option Bool
  | .bool b => some b
  | _ => none

def asString? : Json → Option String
  | .string s => s
  | _ => none

def asUInt64? : Json → Option UInt64
  | .num n => n.toUInt64?
  | _ => none

def asArray? : Json → Option (List Json)
  | .arr items => some items
  | _ => none

mutual

/-- The value can be taken in completely: every string denotes a text, every number a finite one,
and arrays and objects nest at most `depth` deep. -/
def readable (depth : Nat) : Json → Bool
  | .null => true
  | .bool _ => true
  | .num n => n.scaled?.isSome
  | .string s => s.isSome
  | .arr items =>
    match depth with
    | 0 => false
    | d + 1 => readableItems d items
  | .obj fields =>
    match depth with
    | 0 => false
    | d + 1 => readableFields d fields

def readableItems (depth : Nat) : List Json → Bool
  | [] => true
  | j :: rest => readable depth j && readableItems depth rest

def readableFields (depth : Nat) : List (Option String × Json) → Bool
  | [] => true
  | (key, j) :: rest => key.isSome && readable depth j && readableFields depth rest

end

end Json

end ScriptInference
