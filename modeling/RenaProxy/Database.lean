import RenaProxy.Context
import RenaProxy.Tree

/-!
# The matcher of one connection

`database_object` of `database.c`: the tree nodes that the last bytes reached, with
how many bytes each has seen, the longest replacement found so far, and the bytes
held back meanwhile. `databaseStep` is what `http_pull` does with it for one byte.
-/
namespace RenaProxy

/-- `struct database_object_pair` -/
structure Pair where
  actual : TreeNode
  depth : ℕ
  deriving DecidableEq, Repr

/-- `struct database_object`. `input` has `input_sz` bytes. -/
structure DatabaseObject (κ : Type) where
  context : Option κ
  neverRules : TreeNode
  sideRules : TreeNode
  list : List Pair
  transformation : Option (List UInt8)
  input : List UInt8
  inputRs : ℕ
  transformationConsume : ℕ
  deriving DecidableEq, Repr

/-- `di_output_e`, with the replacement that comes with a transformation. -/
inductive DiOutput
  | notHold
  | feedMe
  | transformationFound (o : List UInt8)
  deriving DecidableEq, Repr

variable {κ : Type}

namespace DatabaseObject

/-- `database_instance_create` -/
def create (neverRules sideRules : TreeNode) : DatabaseObject κ where
  context := none
  neverRules := neverRules
  sideRules := sideRules
  list := []
  transformation := none
  input := []
  inputRs := 0
  transformationConsume := 0

/-- `dbo_list_prepend` -/
def listPrepend (d : DatabaseObject κ) (t : TreeNode) : DatabaseObject κ :=
  if t.isNull then d else { d with list := ⟨t, 1⟩ :: d.list }

/-- `database_instance_add_input` -/
def addInput (d : DatabaseObject κ) (input : UInt8) : DatabaseObject κ :=
  { d with
    input := d.input ++ [input]
    inputRs := if 1 + d.input.length ≥ d.inputRs then d.inputRs + 16 else d.inputRs }

/-- `clear_input` -/
def clearInput (d : DatabaseObject κ) : DatabaseObject κ := { d with input := [] }

/-- `consume_input` -/
def consumeInput (d : DatabaseObject κ) (x : ℕ) : Except Fault (DatabaseObject κ) :=
  if d.input.length < x then .error .consumeInput
  else .ok { d with input := d.input.take (d.input.length - x) }

/-- The body of the loop of `dbo_list_foreach`, on the list of the pairs kept. -/
def foreachStep (input : UInt8) (d : DatabaseObject κ) (lookup : Pair) : DatabaseObject κ :=
  let aux := treeGetChild lookup.actual input
  if aux.isNull then d
  else
    let depth := lookup.depth + 1
    let kept := d.list ++ [⟨aux, depth⟩]
    match aux.adapted with
    | none => { d with list := kept }
    | some o =>
        if d.transformationConsume = 0 ∨ d.transformationConsume < depth then
          { d with list := kept, transformationConsume := depth, transformation := some o }
        else { d with list := kept }

/-- `dbo_list_foreach` -/
def listForeach (d : DatabaseObject κ) (input : UInt8) : DatabaseObject κ :=
  d.list.foldl (foreachStep input) { d with list := [] }

/-- `database_instance_evaluate_context` -/
def evaluateContext [ContextParser κ] (d : DatabaseObject κ) (input : UInt8) :
    DatabaseObject κ × Bool :=
  match d.context with
  | none => (d, true)
  | some c =>
      let r := ContextParser.parserFnc c input
      ({ d with context := some r.1 }, r.2)

/-- `database_instance_lookup` where the context allows the byte: the output, if
it is decided there. -/
def lookupAllowed (d : DatabaseObject κ) (input : UInt8) :
    Except Fault (DatabaseObject κ × Option DiOutput) := do
  let d := d.listForeach input
  let empty := d.list.isEmpty
  let d := d.listPrepend (treeGetSibling d.neverRules input)
  let d := d.listPrepend (treeGetSibling d.sideRules input)
  if empty ∧ 0 < d.transformationConsume then
    let o := d.transformation.getD []
    let d ← d.consumeInput d.transformationConsume
    pure ({ d with transformationConsume := 0, transformation := none },
      some (.transformationFound o))
  else pure (d, none)

/-- `database_instance_lookup` -/
def lookup [ContextParser κ] (d : DatabaseObject κ) (input : UInt8) :
    Except Fault (DatabaseObject κ × DiOutput) := do
  let (d, allowed) := d.evaluateContext input
  let (d, out) ← if allowed then d.lookupAllowed input else pure (d, none)
  match out with
  | some out => pure (d, out)
  | none => if d.list.isEmpty then pure (d, .notHold) else pure (d, .feedMe)

/-- `database_instance_get_holding` -/
def getHolding (d : DatabaseObject κ) (force : Bool) : DatabaseObject κ × List UInt8 :=
  if d.list.isEmpty ∨ force then (d.clearInput, d.input) else (d, [])

/-- `database_instance_get_holding_size` -/
def getHoldingSize (d : DatabaseObject κ) : ℕ := d.input.length

end DatabaseObject

/-- What goes to the forward buffer for one byte: nothing, or what was held and, if
there is one, the replacement after it. -/
inductive Reaction
  | keep
  | put (holding : List UInt8) (transformed : Option (List UInt8))
  deriving DecidableEq, Repr

namespace Reaction

/-- The bytes that a reaction puts out. -/
def text : Reaction → List UInt8
  | keep => []
  | put holding transformed => holding ++ transformed.getD []

end Reaction

/-- The part of the loop of `http_pull` that concerns the lookup tree. -/
def databaseStep [ContextParser κ] (d : DatabaseObject κ) (b : UInt8) :
    Except Fault (DatabaseObject κ × Reaction) := do
  let (d, di) ← d.lookup b
  match di with
  | .feedMe => pure (d.addInput b, .keep)
  | .transformationFound transformed =>
      let (d, holding) := d.getHolding true
      pure (d.addInput b, .put holding (some transformed))
  | .notHold =>
      let (d, holding) := (d.addInput b).getHolding false
      pure (d, .put holding none)

end RenaProxy
