import AtomicCommit.Json.Value

/-! Structures held by values: objects with named members, of which unknown ones are ignored, or
lists in field order. Members are looked at in text order, so the first fault in the text counts;
what is missing shows at the end. -/

namespace AtomicCommit.Json

variable {α β γ : Type}

def asString : Json → Except Fault String
  | .string text => .ok text
  | other => .error (.wrongType other.found "a string")

def asList (item : Json → Except Fault α) : Json → Except Fault (List α)
  | .array items => items.mapM item
  | other => .error (.wrongType other.found "a sequence")

def asUnit : Json → Except Fault Unit
  | .null => .ok ()
  | .object [] => .ok ()
  | other => .error (.wrongType other.found "unit")

def variantNamed (known : List (String × α)) (name : String) : Except Fault α :=
  match known.lookup name with
  | some a => .ok a
  | none => .error (.unknownVariant name (known.map (·.1)))

/-- A name alone, or an object with the name as its only key and nothing under it. -/
def asVariant (known : List (String × α)) : Json → Except Fault α
  | .string name => variantNamed known name
  | .object [(name, content)] => do
    let a ← variantNamed known name
    asUnit content
    return a
  | .object _ => .error (.wrongValue .object "map with a single key")
  | other => .error (.wrongType other.found "string or map")

structure Field (α : Type) where
  name : String
  read : Json → Except Fault α

namespace Field

def offer (field : Field α) (held : Option α) (key : String) (value : Json) :
    Except Fault (Option α) :=
  if key = field.name then
    if held.isSome then .error (.duplicateField field.name)
    else (field.read value).map some
  else .ok held

def demand (field : Field α) : Option α → Except Fault α
  | some a => .ok a
  | none => .error (.missingField field.name)

def takeItem (field : Field α) (index : Nat) (expected : String) :
    List Json → Except Fault (α × List Json)
  | [] => .error (.wrongLength index expected)
  | value :: rest => do return (← field.read value, rest)

end Field

def elementCount (n : Nat) : String :=
  toString n ++ (if n = 1 then " element" else " elements")

def noMoreItems (count total : Nat) : List Json → Except Fault Unit
  | [] => .ok ()
  | _ :: _ => .error (.wrongLength total (elementCount count ++ " in sequence"))

def structure1 (what : String) (a : Field α) : Json → Except Fault α
  | .object members => do
    let x ← members.foldlM (fun x (key, value) => a.offer x key value) none
    a.demand x
  | .array items => do
    let (x, rest) ← a.takeItem 0 (what ++ " with " ++ elementCount 1) items
    noMoreItems 1 items.length rest
    return x
  | other => .error (.wrongType other.found what)

def structure2 (what : String) (a : Field α) (b : Field β) : Json → Except Fault (α × β)
  | .object members => do
    let (x, y) ← members.foldlM (fun (x, y) (key, value) => do
      return (← a.offer x key value, ← b.offer y key value)) (none, none)
    return (← a.demand x, ← b.demand y)
  | .array items => do
    let expected := what ++ " with " ++ elementCount 2
    let (x, rest) ← a.takeItem 0 expected items
    let (y, rest) ← b.takeItem 1 expected rest
    noMoreItems 2 items.length rest
    return (x, y)
  | other => .error (.wrongType other.found what)

def structure3 (what : String) (a : Field α) (b : Field β) (c : Field γ) :
    Json → Except Fault (α × β × γ)
  | .object members => do
    let (x, y, z) ← members.foldlM (fun (x, y, z) (key, value) => do
      return (← a.offer x key value, ← b.offer y key value, ← c.offer z key value))
      (none, none, none)
    return (← a.demand x, ← b.demand y, ← c.demand z)
  | .array items => do
    let expected := what ++ " with " ++ elementCount 3
    let (x, rest) ← a.takeItem 0 expected items
    let (y, rest) ← b.takeItem 1 expected rest
    let (z, rest) ← c.takeItem 2 expected rest
    noMoreItems 3 items.length rest
    return (x, y, z)
  | other => .error (.wrongType other.found what)

def readVariant (known : List (String × α)) : Reader α := fun input => do
  let (name, rest) ← expectString "variant identifier" input
  return (← variantNamed known name, rest)

def taggedMember (tag : String) (kinds : List (String × α)) (key : String)
    (before : Option α × List (String × Json)) : Reader (Option α × List (String × Json)) :=
  fun input => do
    if key = tag then
      if before.1.isSome then .error (.duplicateField tag)
      else
        let (kind, rest) ← readVariant kinds (← afterColon input)
        return ((some kind, before.2), rest)
    else
      let (v, rest) ← readValue (depthLimit - 1) (← afterColon input)
      return ((before.1, before.2 ++ [(key, v)]), rest)

/-- Reads a structure whose kind is told by a member, or by the first list element, and keeps the
rest of it as a value. -/
def readTagged (what tag : String) (kinds : List (String × α)) : Reader (α × Json) :=
  fun input => do
    let (b, rest) ← valueStart input
    if b = listOpen then
      let (more, rest) ← nextElement true rest
      if more then
        let (kind, rest) ← readVariant kinds rest
        let (items, rest) ← readElements (readValue (depthLimit - 1)) false rest
        return ((kind, .array items), ← endList rest)
      else .error (.missingField tag)
    else if b = objectOpen then
      let ((kind, members), rest) ← readMembers (taggedMember tag kinds) (none, []) rest
      match kind with
      | some kind => return ((kind, .object members), rest)
      | none => .error (.missingField tag)
    else .error (mismatch what (b :: rest))

end AtomicCommit.Json
