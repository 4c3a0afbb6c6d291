import MicroC.Lowering.Body

/-!
Modules of programs. Each variable name at file level becomes one global, placed at its
first declaration and initialized from its definition; each function name becomes one
function, placed at its definition or, without one, at its first prototype.
-/

namespace MicroC

open LowerM

/-- Copies the scalar parameters, from the one at `index` on, to stack slots. An array
parameter is the pointer that is passed. -/
def Decl.spillParams : Nat → List (Decl × Ty) → LowerM Unit
  | _, [] => return ()
  | index, (d, type) :: rest => do
    match (← get).param? index with
    | none => return ()
    | some value =>
      match type with
      | .array .. => modify (·.bind d.id value)
      | _ =>
        let slot ← allocate (some (d.id, d.name)) type.machine
        store value slot
      Decl.spillParams (index + 1) rest

/-- The code of a function body, from its entry on. -/
def Stmt.lowerBody (g : Guide) (params : List (Decl × Ty)) (body : Stmt) : LowerM Unit := do
  discard (build (·.startBody))
  Decl.spillParams 0 params
  body.lower g
  build (·.endBody)

/-- The function that a declaration stands for; without a body it is only declared. -/
def Decl.lowerFunctionBy (g : Guide) (d : Decl) : Except LowerError Ir.Function := do
  match d with
  | .func _ name _ signature body =>
    match ← g.typeOf d, signature with
    | .func result types, .func _ _ _ decls _ =>
      let params := decls.zip types
      let start := Ir.Builder.new name result.machine
        (params.map fun param => ⟨param.1.name, param.2.machineParam⟩)
      match body with
      | none => return start.toFunction
      | some body =>
        let ((), final) ← (body.lowerBody g params).run start
        return final.toFunction
    | _, _ => throw (.unexpected d "function" d.span)
  | _ => throw (.unexpected d "function" d.span)

/-- The function that a declaration stands for, as the tables say. -/
def Decl.lowerFunction (a : Analysis) (d : Decl) : Except LowerError Ir.Function :=
  d.lowerFunctionBy a

/-- The global variable that a declaration stands for. -/
def Decl.lowerGlobal (a : Analysis) (d : Decl) : Except LowerError Ir.Global := do
  let type := (← a.typeOf d).machine
  match d with
  | .var _ name _ _ (some init) =>
    match init.fold with
    | .ok v => return ⟨name, type, .int type v.value⟩
    | .error error => throw (.const error)
  | _ => return ⟨d.name, type, .zero type⟩

/-- Adds what a top-level declaration contributes to the module. -/
def Decl.lowerInto (a : Analysis) (m : Ir.Module) (d : Decl) : Except LowerError Ir.Module := do
  let binding := (a.resolution.fileBinding? d.name).getD d
  match d with
  | .var .. =>
    if (m.global? d.name).isSome then return m
    else return m.addGlobal (← binding.lowerGlobal a)
  | .func .. =>
    if binding.id = d.id then return m.addFunction (← d.lowerFunction a) else return m
  | .basic .. | .typedef .. => return m

/-- The module of a program whose names and types are known. -/
def Program.lower (p : Program) (a : Analysis) (moduleName : String) :
    Except LowerError Ir.Module :=
  p.file.foldlM (Decl.lowerInto a) { name := moduleName }

end MicroC
