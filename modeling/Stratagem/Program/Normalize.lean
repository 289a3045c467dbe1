import Stratagem.Program.Error

/-
  Bringing expressions into normal form.

  Every computation inside another gets a name, so that only
  variables and constants are left as operands.  The bindings
  stand in the order in which the computations run.

  Key definitions include:
    * `Normalizing`
    * `Exp.flatten`
    * `Exp.normalize`
-/

namespace Stratagem

/-
  A step that may need new names.  The state is the number of
  names handed out, and a failure does not take them back.
-/
abbrev Normalizing :=
  ExceptT CompileError (StateM Nat)

/- A name for a computation. -/
structure Binding where
  name : String
  bound : Exp

/- An expression behind the bindings that it needs. -/
structure Flat where
  bindings : List Binding
  result : Exp

/- The next new name. -/
def Normalizing.fresh : Normalizing String :=
  modifyGet fun n => (s!"var_{n}", n + 1)

namespace Flat

/- Nest the bindings, the first outermost. -/
def nest
    (f : Flat) : Exp :=
  f.bindings.foldr (fun b e => .letOf b.name b.bound e) f.result

/-
  Make an operand of an expression, given how it is flattened.
  An immediate one stays, and any other gets a new name.
-/
def operand
    (e : Exp)
    (flattened : Normalizing Flat) : Normalizing Flat := do
  if e.isImmediate then
    return { bindings := [], result := e }
  else
    let f ← flattened
    let name ← Normalizing.fresh
    return {
      bindings := f.bindings ++ [{ name, bound := f.result }]
      result := .var name none e.ty }

end Flat

mutual

/-
  The computation that an expression ends with, and before it
  bindings for all others.
-/
def Exp.flatten : Exp → Normalizing Flat
  | .letIn name bound body _ => do
      let f ← bound.flatten
      let rest ← body.flatten
      return {
        bindings :=
          f.bindings ++ { name, bound := f.result } ::
            rest.bindings
        result := rest.result }
  | .apply function args ty => do
      let f ← Flat.operand function function.flatten
      let (bindings, args) ← flattenArgs args
      return {
        bindings := f.bindings ++ bindings
        result := .apply f.result args ty }
  | .eval strategy input ty => do
      let s ← Flat.operand strategy strategy.flatten
      let i ← Flat.operand input input.flatten
      return {
        bindings := s.bindings ++ i.bindings
        result := .eval s.result i.result ty }
  | .seq _ _ _ => throw (.unsupported .normalizedSequence)
  | .var name pointer ty =>
      return { bindings := [], result := .var name pointer ty }
  | .int value ty =>
      return { bindings := [], result := .int value ty }
  | .str value ty =>
      return { bindings := [], result := .str value ty }
  | .object ty =>
      return { bindings := [], result := .object ty }

/- Operands from left to right. -/
def flattenArgs :
    List Exp → Normalizing (List Binding × List Exp)
  | [] => return ([], [])
  | e :: es => do
      let f ← Flat.operand e e.flatten
      let (bindings, args) ← flattenArgs es
      return (f.bindings ++ bindings, f.result :: args)

end

/- The normal form of an expression. -/
def Exp.normalize
    (e : Exp) : Normalizing Exp := do
  let f ← e.flatten
  return f.nest

end Stratagem
