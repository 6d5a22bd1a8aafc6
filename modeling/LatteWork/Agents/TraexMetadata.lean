import LatteWork.Agents.Messages
import LatteWork.Lib.OrdMap

/-!
# The models of Traex

The models that a native catalog lists, each with its Max variant where it has one, and the levels
of effort of the one that is selected.
-/

namespace LatteWork

namespace TraexMetadata

open Fallible

/-- `native_id`. -/
def nativeId (v : Json) : Option String := v.str?.filter fun id => id ≠ "" && id.utf8ByteSize ≤ 256

/-- A number, as its text, that is above zero. -/
def positive (text : String) : Bool :=
  text.toList.head? ≠ some '-' && (text.toList.takeWhile (· ≠ 'e')).any fun c => c.isDigit && c ≠ '0'

/-- `as_f64().filter(|n| *n > 0.0)`, of which the text of the number is kept. -/
def contextWindow : Json → Option String
  | .num text => if positive text then some text else none
  | _ => none

structure ModelVariant where
  model : String
  label : String
  contextWindow : Option String
  deriving DecidableEq, Repr

def metadata (entry : Json) : Json := (entry.index "businessMetadata").index "variants"

def variants (entry : Json) : List ModelVariant :=
  match nativeId ((metadata entry).index "max_key"), nativeId (entry.index "id") with
  | some max, some id =>
    if nativeId ((metadata entry).index "standard_key") = none ∨ max = id then []
    else
      [{ model := id, label := "Standard"
         contextWindow := contextWindow ((metadata entry).index "standard_context_window") },
       { model := max, label := "Max"
         contextWindow := contextWindow ((metadata entry).index "max_context_window") }]
  | _, _ => []

def isTrue (v : Json) : Bool := v.bool? = some true

def hidden (entry : Json) : Bool := isTrue (entry.index "hidden")

def isDefault (entry : Json) : Bool := isTrue (entry.index "isDefault")

def label (entry : Json) (id : String) : String :=
  ((entry.index "displayName").str?.filter (·.utf8ByteSize ≤ 256)).getD id

def effortOfStr : String → Option Effort
  | "low" => some .low
  | "medium" => some .medium
  | "high" => some .high
  | "xhigh" => some .xhigh
  | "max" => some .max
  | _ => none

/-- `from_value::<Effort>`, which also takes an object with the name of a variant and null. -/
def effort? : Json → Option Effort
  | .str s => effortOfStr s
  | .obj [(key, .null)] => effortOfStr key
  | _ => none

/-- The efforts that an entry lists for one of its variants, and where a level of them is. -/
def efforts (entry : Json) (max : Bool) : List Json × String :=
  let key := if max then "max_supported_reasoning_levels" else "standard_supported_reasoning_levels"
  match ((metadata entry).index key).arr? with
  | some native => (native, "effort")
  | none => ((entry.index "supportedReasoningEfforts").items, "reasoningEffort")

/-- What `catalog` has gathered. -/
structure Catalog where
  models : List String := []
  labels : OrdMap String String := .empty
  modelVariants : OrdMap String (List ModelVariant) := .empty
  defaultModel : Option String := none
  effortLevels : List Effort := []

/-- The model of a Max variant joins the catalog. -/
def addMax (entries : List Json) (c : Catalog) (id label : String) (options : List ModelVariant) :
    Except String Catalog :=
  match options[1]? with
  | none => .ok c
  | some max => do
    bailIf (max.model ∈ c.models ∨ entries.any fun v => (v.index "id").str? = some max.model)
      "Traex 模式 ID 与模型重复"
    .ok { c with
      models := c.models ++ [max.model]
      labels := c.labels.insert max.model (label ++ " / Max")
      modelVariants := c.modelVariants.insert id options }

/-- The loop over the levels of effort. -/
def addEfforts (levels : List Effort) (listed : List Json × String) : List Effort :=
  listed.1.foldl (fun levels effort =>
    match effort? (effort.index listed.2) with
    | some level => if level ∈ levels then levels else levels ++ [level]
    | none => levels) levels

/-- One turn of the loop of `catalog`. -/
def addEntry (entries : List Json) (selected : Option String) (c : Catalog) (entry : Json) :
    Except String Catalog := do
  let id ← orError "Traex 模型 ID 无效" (nativeId (entry.index "id"))
  bailIf (id ∈ c.models) "Traex 模型 ID 重复"
  let label := label entry id
  let options := variants entry
  let c ← addMax entries
    { c with
      models := c.models ++ [id]
      labels := c.labels.insert id label
      defaultModel := if isDefault entry then some id else c.defaultModel } id label options
  let selected := selected.or (if isDefault entry then some id else none)
  let max := (options[1]?).any fun v => some v.model = selected
  if selected = some id ∨ max = true then
    .ok { c with effortLevels := addEfforts c.effortLevels (efforts entry max) }
  else .ok c

/-- `Response::Models`, of which the provider is none here. -/
structure Models where
  models : List String
  defaultModel : Option String
  effortLevels : List Effort
  modelLabels : OrdMap String String
  modelVariants : Option (OrdMap String (List ModelVariant))

def visible (entries : List Json) : List Json := entries.filter fun v => !hidden v

def catalog (entries : List Json) (selected : Option String) : Except String Models := do
  let c ← (visible entries).foldlM (addEntry entries selected) {}
  .ok { models := c.models
        defaultModel := c.defaultModel
        effortLevels := c.effortLevels
        modelLabels := c.labels
        modelVariants := if c.modelVariants.entries.isEmpty then none else some c.modelVariants }

structure ModelSelection where
  model : String
  backendVariant : String
  deriving DecidableEq, Repr

/-- `validate_selection`, with the entries that the native catalog lists. -/
def validateSelection (entries : List Json) (selected : Option String) (effort : Option Effort) :
    Except String (Option ModelSelection) := do
  let r ← catalog entries selected
  bailIf (selected.any fun id => id ∉ r.models) "模型不在当前 Traex 可选列表中，请刷新模型列表"
  bailIf (effort.any fun level => level ∉ r.effortLevels) "此 Traex 模型不支持所选思考强度"
  let listed := (r.modelVariants.map (·.entries)).getD []
  .ok ((listed.findSome? fun (model, variants) =>
    (variants.find? fun v => some v.model = selected).map fun v =>
      { model, backendVariant := if v.label = "Max" then "max" else "standard" }).or
    (selected.map fun model => { model, backendVariant := "standard" }))

end TraexMetadata

end LatteWork
