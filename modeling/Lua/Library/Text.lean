/-
The text of a value as programs see it.

A value whose metatable has `__tostring` is turned into text by calling it; a table whose
metatable has a string as `__name` shows that name instead of its type; every other value has
its plain text form.
-/
import Lua.Program

namespace Lua.Library

variable {H : Host}

/-- The text of a table under a name of its own. -/
def namedText (name : Bytes) (t : TableId) : String :=
  Utf8.toText name ++ String.ofList ((Value.tableText t).toList.drop "table".length)

/-- The text of a value, as bytes. -/
def textOf (v : Value) : Program H Bytes := do
  let heap ← Program.heap
  match heap.metafield v "__tostring" with
  | some metamethod =>
    match Values.first (← Program.callOrFail metamethod [v]) with
    | .string s => pure s
    | .number n => pure n.bytes
    | _ =>
      let cause := Cause.ofText "'__tostring' must return a string"
      .fail (.traced (.untraced cause))
  | none =>
    match v, heap.metafield v "__name" with
    | .table t, some (.string name) => pure (Bytes.ofString (namedText name t))
    | _, _ => pure (Bytes.ofString v.text)

end Lua.Library
