import Residual.Session.Basic

/-!
# State reports

One-line texts that show the state of a session and its parts to a person.
-/

namespace Residual

/-- A record with named fields, such as `Point { x: 1, y: 2 }`. -/
def recordText (name : String) (fields : List (String × String)) : String :=
  name ++ " \x7b " ++ ", ".intercalate (fields.map fun field => field.1 ++ ": " ++ field.2) ++
    " \x7d"

/-- A list, such as `[1, 2]`. -/
def listText (items : List String) : String := "[" ++ ", ".intercalate items ++ "]"

/-- What a slot holds, such as `Some(FuncRef(5))`. -/
def resolvedText : Option FuncRef → String
  | none => "None"
  | some func => "Some(" ++ func.inspect ++ ")"

/-- A slot and what it holds. -/
def Slots.inspect (slots : Slots) (slot : SlotId) : String :=
  "SpecializedSlot(" ++ resolvedText (slots.read slot) ++ ")"

/-- A policy. -/
def Policy.inspect (policy : Policy) : String :=
  recordText "RuntimeConfig"
    [("max_arg_bytes", toString policy.maxArgBytes.toNat),
      ("initial_capacity", toString policy.initialCapacity.toNat),
      ("check_arity", toString policy.checkArity),
      ("validate_table", toString policy.validateTable)]

/-- A store, by its counts. -/
def Store.inspect {α : Type} (store : Store α) : String :=
  recordText "RequestQueue" [("pending", toString store.linked), ("live", toString store.liveCount)]

/-- An entry of a lookup table. -/
def Entry.inspect (entry : Entry) : String :=
  recordText "LookupEntry"
    [("func_id", toString entry.funcId.toNat),
      ("args", listText (entry.args.map fun byte => toString byte.toNat)),
      ("specialized", entry.specialized.inspect)]

/-- A lookup table. -/
def Table.inspect (table : Table) : String :=
  recordText "LookupTable" [("entries", listText (table.entries.toList.map Entry.inspect))]

/-- A request, with what its slot holds. -/
def Request.inspect (request : Request) (slots : Slots) : String :=
  recordText "Request"
    [("func_id", toString request.funcId.toNat), ("generic", request.generic.inspect),
      ("arglen", toString request.args.length),
      ("resolved", resolvedText (slots.read request.slot))]

/-- A session. -/
def Session.inspect (session : Session) : String :=
  recordText "SpecializationContext"
    [("config", session.policy.inspect), ("queue", session.store.inspect),
      ("specialized", toString session.isSpecialized), ("table", session.table.inspect)]

end Residual
